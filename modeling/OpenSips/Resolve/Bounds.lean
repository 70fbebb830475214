import OpenSips.Resolve.Parsers

/-!
# OpenSips.Resolve.Bounds — where the parsing of a reply stays

The parsers test the end of the reply before they read.  What is left are a reply without a header, a
record without data in front of a SRV record, and the NUL behind the apex of an EBL record.
-/

namespace OpenSips.Resolve

open Lib List
open Lib.Attempt

variable {dn_expand : Str → ℕ → ℕ → Option (ℕ × Str)} {heap : ℕ → Alloc} {msg : Str}
  {mem : Option (ℕ → UInt8)} {rdata p q r n : ℕ}

variable (dn_expand) in
def Respects : Prop :=
  ∀ msg p n len name, dn_expand msg p n = some (len, name) → name.length < n

section Names

theorem skip_labels_ne_fault : ∀ fuel p, skip_labels msg fuel p ≠ .fault
  | 0, _ => ok_ne_fault
  | fuel + 1, p => by
    rw [skip_labels]
    split_ifs with hp
    · apply byte_bind_ne_fault hp
      intro c
      split_ifs
      · exact ok_ne_fault
      · exact ok_ne_fault
      · exact skip_labels_ne_fault fuel _
    · exact ok_ne_fault

theorem dns_skipname_ne_fault : dns_skipname msg p ≠ .fault :=
  bind_ne_fault (skip_labels_ne_fault _ _) fun _ _ => check_bind_ne_fault fun _ => ok_ne_fault

theorem skip_questions_ne_fault : ∀ qno p, skip_questions msg qno p ≠ .fault
  | 0, _ => ok_ne_fault
  | qno + 1, _ => bind_ne_fault dns_skipname_ne_fault fun _ _ =>
      check_bind_ne_fault fun _ => skip_questions_ne_fault qno _

theorem parse_header_fault : parse_header msg = .fault ↔ msg.length < DNS_HDR_SIZE := by
  by_cases hlen : DNS_HDR_SIZE ≤ msg.length
  · refine iff_of_false (bytes_bind_ne_fault ?_ fun _ _ => ?_) (not_lt.2 hlen)
    · rwa [zero_add]
    · exact check_bind_ne_fault fun _ => bind_ne_fault (skip_questions_ne_fault _ _) fun _ _ => ok_ne_fault
  · refine iff_of_true ?_ (not_le.1 hlen)
    rw [parse_header, bytes, if_neg (by omega)]
    rfl

end Names

section Parsers

variable (hdn : Respects dn_expand)
include hdn

theorem expand_eq : expand dn_expand msg rdata = match dn_expand msg rdata (MAX_DNS_NAME - 1) with
    | none => .error
    | some (len, name) => .ok (len, name ++ [0]) := by
  unfold expand
  cases h : dn_expand msg rdata (MAX_DNS_NAME - 1) with
  | none => rfl
  | some x =>
    have hlt := hdn _ _ _ _ _ h
    show (put MAX_DNS_NAME (x.2 ++ [0]) >>= _) = _
    rw [put_of, ok_bind]
    rw [length_append, length_singleton]
    omega

theorem expand_ne_fault : expand dn_expand msg rdata ≠ .fault := by
  rw [expand_eq hdn]
  cases dn_expand msg rdata (MAX_DNS_NAME - 1) with
  | none => exact error_ne_fault
  | some x => exact ok_ne_fault

theorem dns_srv_parser_ne_fault : dns_srv_parser_run dn_expand msg mem rdata ≠ .fault := by
  refine check_bind_ne_fault fun hend => check_bind_ne_fault fun _ => ?_
  refine bytes_bind_ne_fault (by omega) fun _ _ => bytes_bind_ne_fault (by omega) fun _ _ => ?_
  exact bytes_bind_ne_fault (by omega) fun _ _ =>
    bind_ne_fault (expand_ne_fault hdn) fun _ _ => ok_ne_fault

omit hdn in
theorem put_string_ne_fault {α : Type} {k : ℕ} {c : UInt8} {f : Str → Attempt α}
    (hend : k + c.toNat ≤ msg.length) (hcap : 255 ≤ n) (hf : ∀ s, f s ≠ .fault) :
    (bytes msg k c.toNat >>= fun s => put n s >>= f) ≠ .fault := by
  refine bytes_bind_ne_fault hend fun s hs => ?_
  have hc := c.toNat_lt
  rw [put_of (by omega), ok_bind]
  exact hf s

theorem dns_naptr_parser_ne_fault : dns_naptr_parser_run dn_expand msg mem rdata ≠ .fault := by
  refine check_bind_ne_fault fun hend => check_bind_ne_fault fun _ => ?_
  refine bytes_bind_ne_fault (by omega) fun _ _ => bytes_bind_ne_fault (by omega) fun _ _ => ?_
  refine byte_bind_ne_fault (by omega) fun flags_len => check_bind_ne_fault fun hflags => ?_
  refine put_string_ne_fault (by omega) le_rfl fun flags => ?_
  refine byte_bind_ne_fault (by omega) fun services_len => check_bind_ne_fault fun hservices => ?_
  refine put_string_ne_fault (by omega) le_rfl fun services => ?_
  refine byte_bind_ne_fault (by omega) fun regexp_len => check_bind_ne_fault fun hregexp => ?_
  refine put_string_ne_fault (by omega) le_rfl fun regexp => ?_
  exact bind_ne_fault (expand_ne_fault hdn) fun _ _ => ok_ne_fault

theorem dns_cname_parser_ne_fault : dns_cname_parser_run dn_expand msg mem rdata ≠ .fault :=
  check_bind_ne_fault fun _ => bind_ne_fault (expand_ne_fault hdn) fun _ _ => ok_ne_fault

omit hdn in
theorem dns_address_parser_ne_fault : dns_address_parser_run msg mem n rdata ≠ .fault := by
  refine check_bind_ne_fault fun hend => check_bind_ne_fault fun _ => ?_
  rw [bytes_of (by omega)]
  exact ok_ne_fault

omit hdn in
theorem dns_txt_parser_ne_fault (hp : rdata < msg.length) : dns_txt_parser_run msg mem rdata ≠ .fault := by
  refine check_bind_ne_fault fun _ => byte_bind_ne_fault hp fun len => ?_
  refine check_bind_ne_fault fun hend => check_bind_ne_fault fun hlen => ?_
  refine bytes_bind_ne_fault (by omega) fun txt htxt => ?_
  rw [put_of]
  · exact ok_ne_fault
  · rw [length_append, length_singleton]
    omega

omit hdn in
variable (dn_expand msg mem rdata) in
/-- An EBL record that passes its tests, with an apex that takes more than 255 bytes of the message. -/
def LongApex : Prop :=
  mem.isSome ∧ rdata + 1 + (msg.getD rdata 0).toNat < msg.length ∧ msg.getD rdata 0 ≤ 15 ∧
    rdata + 3 + (msg.getD (rdata + 1) 0).toNat < msg.length ∧
    ∃ len name, dn_expand msg (rdata + 2 + (msg.getD (rdata + 1) 0).toNat) (MAX_DNS_NAME - 1) =
      some (len, name) ∧ MAX_DNS_NAME ≤ len

theorem dns_ebl_parser_fault (hp : rdata < msg.length) :
    dns_ebl_parser_run dn_expand msg mem rdata = .fault ↔ LongApex dn_expand msg mem rdata := by
  unfold dns_ebl_parser_run LongApex
  rw [check_bind_fault, byte_getD hp, ok_bind, check_bind_fault, ok_bind, check_bind_fault]
  refine and_congr_right fun _ => and_congr_right fun hend => and_congr_right fun _ => ?_
  rw [byte_getD (by omega), ok_bind, check_bind_fault]
  refine and_congr_right fun hsep => ?_
  have hc := (msg.getD (rdata + 1) 0).toNat_lt
  rw [bytes_of (by omega), ok_bind, put_of, ok_bind, expand_eq hdn]
  · cases dn_expand msg (rdata + 2 + (msg.getD (rdata + 1) 0).toNat) (MAX_DNS_NAME - 1) with
    | none => exact iff_of_false error_ne_fault fun ⟨_, _, h, _⟩ => absurd h (by simp)
    | some x =>
      show (if x.1 < MAX_DNS_NAME then (Attempt.ok _ : Attempt EblRdata) else .fault) = .fault ↔ _
      split_ifs with hx
      · refine iff_of_false not_false ?_
        rintro ⟨len, name, h, hle⟩
        obtain rfl := Option.some_inj.1 h
        exact absurd hx (not_lt.2 hle)
      · exact iff_of_true rfl ⟨x.1, x.2, rfl, not_lt.1 hx⟩
  · rw [length_take]
    exact (Nat.min_le_left _ _).trans (by rw [MAX_DNS_NAME]; omega)

theorem parse_rdata_fault {rtype : UInt16} (hp : p < msg.length) :
    parse_rdata dn_expand msg mem rtype p = .fault ↔ rtype = T_EBL ∧ LongApex dn_expand msg mem p := by
  have hno {α : Type} {f : α → Data} {x : Attempt α} {t : UInt16} (hx : x ≠ .fault) (ht : t ≠ T_EBL) :
      f <$> x = .fault ↔ t = T_EBL ∧ LongApex dn_expand msg mem p :=
    iff_of_false (fun h => hx (map_eq_fault.1 h)) fun h => ht h.1
  unfold parse_rdata
  split_ifs with h h h h h h h
  · exact hno (dns_srv_parser_ne_fault hdn) (h ▸ by decide)
  · exact hno dns_address_parser_ne_fault (h ▸ by decide)
  · exact hno dns_address_parser_ne_fault (h ▸ by decide)
  · exact hno (dns_cname_parser_ne_fault hdn) (h ▸ by decide)
  · exact hno (dns_naptr_parser_ne_fault hdn) (h ▸ by decide)
  · exact hno (dns_txt_parser_ne_fault hp) (h ▸ by decide)
  · rw [map_eq_fault, dns_ebl_parser_fault hdn hp, and_iff_right h]
  · exact iff_of_false not_false fun h' => h h'.1

end Parsers

section Places

variable {srv srv' : SrvRdata} {rd c : Record} {l rds : List Record}

/-- The records in front of the first one without data. -/
def known (l : List Record) : List Record := l.takeWhile fun rd => rd.seen.isSome

/-- The SRV record belongs in front of `c`. -/
def GoesBefore (srv : SrvRdata) (c : Record) : Prop := ∃ seen ∈ c.seen, srv_before srv seen

def Finds (srv : SrvRdata) (l : List Record) : Prop :=
  (∀ c ∈ l, c.seen.isSome) ∨ ∃ c ∈ known l, GoesBefore srv c

def Placeable (l : List Record) (rd : Record) : Prop := ∀ srv, rd.data = .T_SRV srv → Finds srv l

theorem known_cons_of (h : c.seen.isSome) : known (c :: l) = c :: known l := takeWhile_cons_of_pos h

theorem known_cons_of_not (h : ¬ c.seen.isSome) : known (c :: l) = [] := takeWhile_cons_of_neg h

theorem known_append (h : ∀ c ∈ rds, c.seen.isSome) : known (rds ++ l) = rds ++ known l :=
  takeWhile_append_of_pos h

theorem mem_known_append_singleton :
    c ∈ known (l ++ [rd]) ↔ c ∈ known l ∨ c = rd ∧ rd.seen.isSome ∧ ∀ x ∈ l, x.seen.isSome := by
  induction l with
  | nil =>
    by_cases hrd : rd.seen.isSome
    · simp [known, hrd]
    · simp [known, hrd]
  | cons x l ih =>
    by_cases hx : x.seen.isSome
    · rw [cons_append, known_cons_of hx, known_cons_of hx, mem_cons, mem_cons, ih, or_assoc,
        forall_mem_cons, and_iff_right hx]
    · rw [cons_append, known_cons_of_not hx, known_cons_of_not hx, forall_mem_cons]
      exact iff_of_false not_mem_nil fun h => hx (h.resolve_left not_mem_nil).2.2.1

theorem GoesBefore.trans (h : GoesBefore srv c) (hc : c.seen = some (srv'.priority, srv'.weight))
    (h' : GoesBefore srv' rd) : GoesBefore srv rd := by
  obtain ⟨s, hs, hlt⟩ := h
  obtain ⟨s', hs', hlt'⟩ := h'
  rw [hc] at hs
  obtain rfl := Option.mem_some_iff.1 hs
  refine ⟨s', hs', ?_⟩
  rcases hlt with hlt | ⟨heq, hw⟩
  · rcases hlt' with hlt' | ⟨heq', _⟩
    · exact .inl (UInt16.lt_trans hlt hlt')
    · exact .inl (heq' ▸ hlt)
  · rcases hlt' with hlt' | ⟨heq', hw'⟩
    · exact .inl (heq.symm ▸ hlt')
    · refine .inr ⟨heq.trans heq', ?_⟩
      rcases hw with hw | hw
      · exact .inl hw
      · exact .inr (hw'.resolve_left hw)

/-- **The place of a SRV record**: everything in front of it has data, and it belongs in front of the one
behind it. -/
theorem insert_srv_spec (rd : Record) (h : Finds srv l) : ∃ x y, l = x ++ y ∧
    insert_srv rd srv l = .ok (x ++ rd :: y) ∧ (∀ c ∈ x, c.seen.isSome) ∧
    (y = [] ∨ ∃ c ∈ known y, GoesBefore srv c) := by
  induction l with
  | nil => exact ⟨[], [], rfl, rfl, fun _ hc => absurd hc not_mem_nil, .inl rfl⟩
  | cons crt l ih =>
    have hcrt : crt.seen.isSome := by
      rcases h with h | ⟨c, hc, _⟩
      · exact h crt mem_cons_self
      · by_contra hno
        rw [known_cons_of_not hno] at hc
        exact absurd hc not_mem_nil
    obtain ⟨seen, hseen⟩ := Option.isSome_iff_exists.1 hcrt
    by_cases hlt : srv_before srv seen
    · refine ⟨[], crt :: l, rfl, ?_, fun _ hc => absurd hc not_mem_nil, .inr ⟨crt, ?_, seen, hseen, hlt⟩⟩
      · simp only [insert_srv, hseen, if_pos hlt, nil_append]
      · rw [known_cons_of hcrt]
        exact mem_cons_self
    · have hl : Finds srv l := by
        rcases h with h | ⟨c, hc, hgoes⟩
        · exact .inl fun c hc => h c (mem_cons_of_mem _ hc)
        · rw [known_cons_of hcrt] at hc
          rcases mem_cons.1 hc with rfl | hc
          · obtain ⟨s, hs, hlt'⟩ := hgoes
            rw [hseen] at hs
            obtain rfl := Option.mem_some_iff.1 hs
            exact absurd hlt' hlt
          · exact .inr ⟨c, hc, hgoes⟩
      obtain ⟨x, y, rfl, heq, hx, hy⟩ := ih hl
      refine ⟨crt :: x, y, rfl, ?_, forall_mem_cons.2 ⟨hcrt, hx⟩, hy⟩
      simp only [insert_srv, hseen, if_neg hlt, heq, ok_bind, cons_append]

theorem insert_srv_fault (h : ¬ Finds srv l) : insert_srv rd srv l = .fault := by
  induction l with
  | nil => exact absurd (.inl fun _ hc => absurd hc not_mem_nil) h
  | cons crt l ih =>
    cases hseen : crt.seen with
    | none => simp only [insert_srv, hseen]
    | some seen =>
      have hcrt : crt.seen.isSome := Option.isSome_iff_exists.2 ⟨seen, hseen⟩
      have hlt : ¬ srv_before srv seen := fun hlt =>
        h (.inr ⟨crt, by rw [known_cons_of hcrt]; exact mem_cons_self, seen, hseen, hlt⟩)
      have hl : ¬ Finds srv l := by
        rintro (hall | ⟨c, hc, hgoes⟩)
        · exact h (.inl (forall_mem_cons.2 ⟨hcrt, hall⟩))
        · refine h (.inr ⟨c, ?_, hgoes⟩)
          rw [known_cons_of hcrt]
          exact mem_cons_of_mem _ hc
      simp only [insert_srv, hseen, if_neg hlt, ih hl, fault_bind]

/-- The list and the records in the order of the reply: as far as the data go, the list may have more SRV
records, each of which belongs in front of one of the reply. -/
structure Alike (l rds : List Record) : Prop where
  mem : ∀ c, c ∈ l ↔ c ∈ rds
  srv : ∀ c ∈ l, ∀ srv, c.data = .T_SRV srv → c.seen = some (srv.priority, srv.weight)
  known : ∀ c ∈ known rds, c ∈ known l
  back : ∀ c ∈ Resolve.known l, c ∈ Resolve.known rds ∨
    ∃ srv, c.data = .T_SRV srv ∧ ∃ c' ∈ Resolve.known rds, GoesBefore srv c'

theorem mem_of_mem_known (h : c ∈ known l) : c ∈ l := (List.takeWhile_prefix _).subset h

theorem Alike.all (h : Alike l rds) : (∀ c ∈ l, c.seen.isSome) ↔ ∀ c ∈ rds, c.seen.isSome :=
  forall_congr' fun c => by rw [h.mem]

theorem Alike.goes (h : Alike l rds) (hc : c ∈ Resolve.known l) (hgoes : GoesBefore srv c) :
    ∃ c' ∈ Resolve.known rds, GoesBefore srv c' := by
  rcases h.back c hc with hc' | ⟨srv', hdata, c', hc', hgoes'⟩
  · exact ⟨c, hc', hgoes⟩
  · exact ⟨c', hc', hgoes.trans (h.srv c (mem_of_mem_known hc) srv' hdata) hgoes'⟩

theorem Alike.finds (h : Alike l rds) : Finds srv l ↔ Finds srv rds := by
  refine or_congr h.all ⟨?_, ?_⟩
  · rintro ⟨c, hc, hgoes⟩
    exact h.goes hc hgoes
  · rintro ⟨c, hc, hgoes⟩
    exact ⟨c, h.known c hc, hgoes⟩

theorem Alike.append (h : Alike l rds) (hrd : ∀ srv, rd.data ≠ .T_SRV srv) :
    Alike (l ++ [rd]) (rds ++ [rd]) where
  mem c := by rw [mem_append, mem_append, h.mem]
  srv c hc srv hdata := by
    rcases mem_append.1 hc with hc | hc
    · exact h.srv c hc srv hdata
    · rw [mem_singleton.1 hc] at hdata
      exact absurd hdata (hrd srv)
  known c hc := by
    rw [mem_known_append_singleton] at hc ⊢
    exact hc.imp (h.known c) fun ⟨hc, hseen, hall⟩ => ⟨hc, hseen, h.all.2 hall⟩
  back c hc := by
    rcases mem_known_append_singleton.1 hc with hc | ⟨hc, hseen, hall⟩
    · rcases h.back c hc with hc | ⟨srv, hdata, c', hc', hgoes⟩
      · exact .inl (mem_known_append_singleton.2 (.inl hc))
      · exact .inr ⟨srv, hdata, c', mem_known_append_singleton.2 (.inl hc'), hgoes⟩
    · exact .inl (mem_known_append_singleton.2 (.inr ⟨hc, hseen, h.all.1 hall⟩))

theorem Alike.insert {x y : List Record} (h : Alike (x ++ y) rds) (hdata : rd.data = .T_SRV srv)
    (hrd : rd.seen = some (srv.priority, srv.weight)) (hx : ∀ c ∈ x, c.seen.isSome)
    (hy : y = [] ∨ ∃ c ∈ Resolve.known y, GoesBefore srv c) : Alike (x ++ rd :: y) (rds ++ [rd]) := by
  have hseen : rd.seen.isSome := Option.isSome_iff_exists.2 ⟨_, hrd⟩
  have hmem : ∀ c, c ∈ Resolve.known (x ++ rd :: y) ↔ c = rd ∨ c ∈ Resolve.known (x ++ y) := fun c => by
    rw [known_append hx, known_append hx, known_cons_of hseen, mem_append, mem_append, mem_cons, or_left_comm]
  constructor
  · intro c
    rw [mem_append, mem_cons, mem_append, mem_singleton, ← h.mem, mem_append]
    exact ⟨by tauto, by tauto⟩
  · intro c hc srv' hdata'
    rcases mem_append.1 hc with hc | hc
    · exact h.srv c (mem_append_left _ hc) srv' hdata'
    · rcases mem_cons.1 hc with rfl | hc
      · obtain rfl := Data.T_SRV.inj (hdata.symm.trans hdata')
        exact hrd
      · exact h.srv c (mem_append_right _ hc) srv' hdata'
  · intro c hc
    rw [hmem]
    rcases mem_known_append_singleton.1 hc with hc | ⟨rfl, _⟩
    · exact .inr (h.known c hc)
    · exact .inl rfl
  · intro c hc
    rcases (hmem c).1 hc with rfl | hc
    · rcases hy with rfl | ⟨c', hc', hgoes⟩
      · refine .inl (mem_known_append_singleton.2 (.inr ⟨rfl, hseen, h.all.1 ?_⟩))
        rw [append_nil]
        exact hx
      · have hc₁ : c' ∈ Resolve.known (x ++ y) := by
          rw [known_append hx]
          exact mem_append_right _ hc'
        obtain ⟨c'', hc'', hgoes'⟩ := h.goes hc₁ hgoes
        exact .inr ⟨srv, hdata, c'', mem_known_append_singleton.2 (.inl hc''), hgoes'⟩
    · rcases h.back c hc with hc | ⟨srv', hdata', c', hc', hgoes⟩
      · exact .inl (mem_known_append_singleton.2 (.inl hc))
      · exact .inr ⟨srv', hdata', c', mem_known_append_singleton.2 (.inl hc'), hgoes⟩

/-- **A record with a place is put into the list**, which stays like the reply. -/
theorem Alike.link {m : ℕ → UInt8} (h : Alike l rds) (hseen : rd.seen = rd.data.seen m)
    (hplace : Placeable rds rd) : ∃ l', link rd l = .ok l' ∧ Alike l' (rds ++ [rd]) := by
  cases hdata : rd.data with
  | T_SRV srv =>
    obtain ⟨x, y, rfl, heq, hx, hy⟩ := insert_srv_spec rd (h.finds.2 (hplace srv hdata))
    refine ⟨_, ?_, h.insert hdata ?_ hx hy⟩
    · simp only [Resolve.link, hdata, heq]
    · rw [hseen, hdata]
      rfl
  | _ =>
    refine ⟨l ++ [rd], ?_, h.append fun srv h => ?_⟩
    · simp only [Resolve.link, hdata]
    · rw [hdata] at h
      exact Data.noConfusion h

theorem Alike.link_fault (h : Alike l rds) (hplace : ¬ Placeable rds rd) : Resolve.link rd l = .fault := by
  unfold Placeable at hplace
  push Not at hplace
  obtain ⟨srv, hdata, hfinds⟩ := hplace
  simp only [Resolve.link, hdata]
  exact insert_srv_fault fun hl => hfinds (h.finds.1 hl)

end Places

section Answers

variable (dn_expand msg) in
/-- The answer at `p` is an EBL record with an apex that is too long. -/
def OverlongApex (alloc : Alloc) (p : ℕ) : Prop :=
  ∃ q, dns_skipname msg p = .ok q ∧ q + 2 + 2 + 4 + 2 < msg.length ∧ alloc.record = true ∧
    ntohs ((msg.drop q).take 2) = T_EBL ∧ LongApex dn_expand msg alloc.data (q + 10)

theorem parse_answer_fault {alloc : Alloc} (hdn : Respects dn_expand) :
    parse_answer dn_expand msg alloc p = .fault ↔ OverlongApex dn_expand msg alloc p := by
  unfold parse_answer
  rw [bind_eq_fault, or_iff_right dns_skipname_ne_fault]
  refine exists_congr fun q => and_congr_right fun _ => ?_
  rw [check_bind_fault]
  refine and_congr_right fun hend => ?_
  rw [bytes_of (by omega), ok_bind, bytes_of (by omega), ok_bind, bytes_of (by omega), ok_bind,
    bytes_of (by omega), ok_bind, check_bind_fault]
  refine and_congr_right fun _ => ?_
  rw [bind_eq_fault, parse_rdata_fault hdn (by omega)]
  exact or_iff_left fun ⟨_, _, h⟩ => ok_ne_fault h

theorem parse_answer_seen {alloc : Alloc} {answer : Record × ℕ}
    (h : parse_answer dn_expand msg alloc p = .ok answer) :
    answer.1.seen = answer.1.data.seen (alloc.data.getD fun _ => 0) := by
  obtain ⟨q, _, h⟩ := bind_eq_ok.1 h
  obtain ⟨_, _, h⟩ := bind_eq_ok.1 h
  obtain ⟨_, _, h⟩ := bind_eq_ok.1 h
  obtain ⟨_, _, h⟩ := bind_eq_ok.1 h
  obtain ⟨_, _, h⟩ := bind_eq_ok.1 h
  obtain ⟨_, _, h⟩ := bind_eq_ok.1 h
  obtain ⟨_, _, h⟩ := bind_eq_ok.1 h
  obtain ⟨_, _, h⟩ := bind_eq_ok.1 h
  obtain rfl := Attempt.ok.inj h
  rfl

variable (dn_expand heap msg) in
/-- The answers from `p` on, behind the records `rds`: none has an apex that is too long, and every SRV
record finds its place. -/
def Clear : ℕ → ℕ → ℕ → List Record → Prop
  | 0, _, _, _ => True
  | answers_no + 1, r, p, rds =>
    p < msg.length → ¬ OverlongApex dn_expand msg (heap r) p ∧
      ∀ answer, parse_answer dn_expand msg (heap r) p = .ok answer →
        Placeable rds answer.1 ∧ Clear answers_no (r + 1) answer.2 (rds ++ [answer.1])

theorem parse_answers_fault (hdn : Respects dn_expand) {l rds : List Record} (h : Alike l rds) :
    parse_answers dn_expand heap msg n r p l = .fault ↔ ¬ Clear dn_expand heap msg n r p rds := by
  induction n generalizing r p l rds with
  | zero => exact iff_of_false ok_ne_fault (not_not.2 trivial)
  | succ n ih =>
    by_cases hp : p < msg.length
    · rw [parse_answers, if_pos hp, bind_eq_fault, parse_answer_fault hdn]
      rw [Clear, forall_prop_of_true hp, not_and_or, not_not]
      refine or_congr_right ?_
      rw [not_forall]
      refine exists_congr fun answer => ?_
      rw [Classical.not_imp]
      refine and_congr_right fun hans => ?_
      rw [not_and_or]
      by_cases hplace : Placeable rds answer.1
      · obtain ⟨l', hl', h'⟩ := h.link (parse_answer_seen hans) hplace
        rw [hl', ok_bind, ih h', or_iff_right (not_not.2 hplace)]
      · rw [h.link_fault hplace, fault_bind]
        exact iff_of_true rfl (.inl hplace)
    · rw [parse_answers, if_neg hp]
      exact iff_of_false ok_ne_fault (not_not.2 fun hp' => absurd hp' hp)

theorem Alike.nil : Alike [] [] :=
  ⟨fun _ => Iff.rfl, fun _ h => absurd h not_mem_nil, fun _ h => h, fun _ h => .inl h⟩

variable (dn_expand heap msg) in
/-- The reply has a header, and nothing is wrong with its answers. -/
structure Harmless : Prop where
  header : DNS_HDR_SIZE ≤ msg.length
  answers : ∀ answers_no p, parse_header msg = .ok (answers_no, p) →
    Clear dn_expand heap msg answers_no 0 p []

theorem parse_record_none : parse_record dn_expand heap msg = none ↔
    parse_reply dn_expand heap msg = .fault := by
  unfold parse_record
  cases parse_reply dn_expand heap msg with
  | ok l => exact iff_of_false (Option.some_ne_none l) ok_ne_fault
  | error => exact iff_of_false (Option.some_ne_none []) error_ne_fault
  | fault => exact iff_of_true rfl rfl

/-- **Parsing a reply stays in bounds exactly when the reply is harmless.** -/
theorem parse_record_in_bounds (hdn : Respects dn_expand) :
    parse_record dn_expand heap msg ≠ none ↔ Harmless dn_expand heap msg := by
  rw [Ne, parse_record_none, parse_reply, bind_eq_fault, parse_header_fault]
  constructor
  · intro h
    refine ⟨not_lt.1 fun hlt => h (.inl hlt), fun answers_no p hheader => ?_⟩
    by_contra hclear
    exact h (.inr ⟨_, hheader, (parse_answers_fault hdn .nil).2 hclear⟩)
  · rintro ⟨hlen, hclear⟩ (hlt | ⟨header, hheader, hf⟩)
    · exact absurd hlt (not_lt.2 hlen)
    · exact (parse_answers_fault hdn .nil).1 hf (hclear _ _ hheader)

/-- `dn_expand` where all names are the root. -/
def expand_root (msg : Str) (p n : ℕ) : Option (ℕ × Str) :=
  if msg[p]? = some 0 ∧ 0 < n then some (1, []) else none

theorem expand_root_respects : Respects expand_root := by
  intro msg p n len name h
  unfold expand_root at h
  split_ifs at h with hn
  obtain ⟨_, rfl⟩ := Prod.mk.inj (Option.some_inj.1 h)
  exact hn.2

def served (_ : ℕ) : Alloc := ⟨true, some fun _ => 0⟩

def header_of (answers_no : UInt8) : Str := [0, 1, 0x81, 0x80, 0, 0, 0, answers_no, 0, 0, 0, 0]

def answer_of (rtype rdlength : UInt8) (rdata : Str) : Str :=
  [0, 0, rtype, 0, 1, 0, 0, 0, 60, 0, rdlength] ++ rdata

theorem parse_record_in_bounds_one :
    Harmless expand_root served (header_of 1 ++ answer_of 33 7 [0, 1, 0, 2, 0, 80, 0]) :=
  (parse_record_in_bounds expand_root_respects).1 (by decide)

/-- The header of an empty reply is read; a SRV record behind a NS record reads the data of that. -/
theorem parse_record_out_of_bounds : Respects expand_root ∧ parse_record expand_root served [] = none ∧
    parse_record expand_root served
      (header_of 2 ++ (answer_of 2 1 [0] ++ answer_of 33 7 [0, 1, 0, 2, 0, 80, 0])) = none :=
  ⟨expand_root_respects, rfl, by decide⟩

end Answers

end OpenSips.Resolve
