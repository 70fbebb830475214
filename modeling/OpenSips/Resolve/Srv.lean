import OpenSips.Resolve.Bounds
import Mathlib.Data.List.TakeWhile

/-!
# OpenSips.Resolve.Srv — the place of the SRV records

A SRV record is put in front of the first record that it must precede.  The walk to it compares with the
data of every record on the way, whatever its type is: the list stays sorted, but a SRV record behind one
of another type is compared with data that are none of a SRV record, unless the walk stops before.
-/

namespace OpenSips.Resolve

open Lib List Option
open Lib.Attempt

/-- The data of a SRV record. -/
def Record.srv (rd : Record) : Option SrvRdata :=
  match rd.data with
  | .T_SRV srv => some srv
  | _ => none

def walk (srv : SrvRdata) : List Record → List Record
  | [] => []
  | crt :: rest =>
    crt :: match crt.seen with
      | none => []
      | some seen => if srv_before srv seen then [] else walk srv rest

section Parsing

variable (dn_expand : Str → ℕ → ℕ → Option (ℕ × Str)) (heap : ℕ → Alloc) (msg : Str)

/-- The records whose data `parse_answers` reads. -/
def reads : ℕ → ℕ → ℕ → List Record → List Record
  | 0, _, _, _ => []
  | answers_no + 1, r, p, l =>
    if p < msg.length then
      match parse_answer dn_expand msg (heap r) p with
      | .ok answer =>
        (answer.1.srv.elim [] fun srv => walk srv l) ++
          match link answer.1 l with
          | .ok l => reads answers_no (r + 1) answer.2 l
          | _ => []
      | _ => []
    else []

def answers : ℕ → ℕ → ℕ → Attempt (List Record)
  | 0, _, _ => .ok []
  | answers_no + 1, r, p =>
    if p < msg.length then do
      let answer ← parse_answer dn_expand msg (heap r) p
      let rest ← answers answers_no (r + 1) answer.2
      .ok (answer.1 :: rest)
    else .ok []

end Parsing

variable {dn_expand : Str → ℕ → ℕ → Option (ℕ × Str)} {heap : ℕ → Alloc} {msg : Str} {n r p : ℕ}
  {srv : SrvRdata} {rd c : Record} {l l' rds S O : List Record}

/-! ### The order -/

/-- Ascending priority, and inside of a priority the records without weight first. -/
def key_le (a b : UInt16 × UInt16) : Prop := a.1 < b.1 ∨ a.1 = b.1 ∧ (a.2 = 0 ∨ b.2 ≠ 0)

theorem key_le_total (a b : UInt16 × UInt16) : key_le a b ∨ key_le b a := by
  unfold key_le
  by_cases hlt : a.1 < b.1
  · exact .inl (.inl hlt)
  by_cases heq : a.1 = b.1
  · by_cases ha : a.2 = 0
    · exact .inl (.inr ⟨heq, .inl ha⟩)
    · exact .inr (.inr ⟨heq.symm, .inr ha⟩)
  · exact .inr (.inl (UInt16.lt_of_le_of_ne (UInt16.not_lt.1 hlt) (Ne.symm heq)))

theorem key_le.trans {a b k : UInt16 × UInt16} (h : key_le a b) (h' : key_le b k) : key_le a k := by
  rcases h with h | ⟨h, hw⟩
  · rcases h' with h' | ⟨h', -⟩
    · exact .inl (UInt16.lt_trans h h')
    · exact .inl (h' ▸ h)
  · rcases h' with h' | ⟨h', hw'⟩
    · exact .inl (h ▸ h')
    · refine .inr ⟨h.trans h', ?_⟩
      rcases hw with hw | hw
      · exact .inl hw
      · exact .inr (hw'.resolve_left hw)

def SrvRdata.key (srv : SrvRdata) : UInt16 × UInt16 := (srv.priority, srv.weight)

def InOrder (a c : Record) : Prop := ∀ srv ∈ c.srv, ∃ seen ∈ a.seen, key_le seen srv.key

def Own (l : List Record) : Prop := ∀ c ∈ l, ∀ srv ∈ c.srv, c.seen = some srv.key

theorem insert_srv_perm (h : insert_srv rd srv l = .ok l') : l'.Perm (rd :: l) := by
  induction l generalizing l' with
  | nil =>
    obtain rfl := Attempt.ok.inj h
    exact List.Perm.refl _
  | cons crt l ih =>
    cases hseen : crt.seen with
    | none => simp only [insert_srv, hseen, reduceCtorEq] at h
    | some seen =>
      simp only [insert_srv, hseen] at h
      split_ifs at h with hlt
      · obtain rfl := Attempt.ok.inj h
        exact List.Perm.refl _
      · obtain ⟨l₁, h1, h2⟩ := bind_eq_ok.1 h
        obtain rfl := Attempt.ok.inj h2
        exact ((ih h1).cons crt).trans (Perm.swap rd crt l)

/-- **The walk keeps the order.** -/
theorem insert_srv_inOrder (hsrv : rd.srv = some srv) (hrd : rd.seen = some srv.key) (hown : Own l)
    (hl : l.Pairwise InOrder) (h : insert_srv rd srv l = .ok l') : l'.Pairwise InOrder := by
  induction l generalizing l' with
  | nil =>
    obtain rfl := Attempt.ok.inj h
    exact pairwise_singleton _ _
  | cons crt l ih =>
    obtain ⟨hc, hl⟩ := pairwise_cons.1 hl
    cases hseen : crt.seen with
    | none => simp only [insert_srv, hseen, reduceCtorEq] at h
    | some seen =>
      simp only [insert_srv, hseen] at h
      by_cases hlt : srv_before srv seen
      · rw [if_pos hlt] at h
        obtain rfl := Attempt.ok.inj h
        refine pairwise_cons.2 ⟨fun x hx srv' hsrv' => ⟨srv.key, hrd, ?_⟩, pairwise_cons.2 ⟨hc, hl⟩⟩
        rcases mem_cons.1 hx with rfl | hx
        · have hx' := hown x mem_cons_self srv' hsrv'
          rw [hseen] at hx'
          cases hx'
          exact hlt
        · obtain ⟨seen', hs, hle⟩ := hc x hx srv' hsrv'
          rw [hseen] at hs
          obtain rfl := mem_some_iff.1 hs
          exact key_le.trans hlt hle
      · rw [if_neg hlt] at h
        obtain ⟨l₁, h1, h2⟩ := bind_eq_ok.1 h
        obtain rfl := Attempt.ok.inj h2
        refine pairwise_cons.2 ⟨fun x hx srv' hsrv' => ?_, ih (fun c hc => hown c (mem_cons_of_mem _ hc)) hl h1⟩
        rcases mem_cons.1 ((insert_srv_perm h1).subset hx) with rfl | hx
        · rw [hsrv] at hsrv'
          obtain rfl := mem_some_iff.1 hsrv'
          exact ⟨seen, hseen, (key_le_total _ _).resolve_left hlt⟩
        · exact hc x hx srv' hsrv'

structure Kept (l rds : List Record) : Prop where
  perm : l.Perm rds
  own : Own l
  sorted : l.Pairwise InOrder

theorem link_srv (h : rd.srv = some srv) : link rd l = insert_srv rd srv l := by
  unfold Record.srv at h
  unfold link
  cases hd : rd.data with
  | T_SRV srv' =>
    rw [hd] at h
    cases h
    rfl
  | _ =>
    rw [hd] at h
    cases h

theorem link_other (h : rd.srv = none) : link rd l = .ok (l ++ [rd]) := by
  unfold Record.srv at h
  unfold link
  cases hd : rd.data with
  | T_SRV srv' =>
    rw [hd] at h
    cases h
  | _ => rfl

theorem Own.link (hown : Own l) (hrd : ∀ srv ∈ rd.srv, rd.seen = some srv.key)
    (h : l'.Perm (rd :: l)) : Own l' := by
  intro c hc
  rcases mem_cons.1 (h.subset hc) with rfl | hc
  · exact hrd
  · exact hown c hc

/-- **One record.** -/
theorem Kept.link (hk : Kept l rds) (hrd : ∀ srv ∈ rd.srv, rd.seen = some srv.key)
    (h : link rd l = .ok l') : Kept l' (rds ++ [rd]) := by
  have hperm : ∀ {l' : List Record}, l'.Perm (rd :: l) → l'.Perm (rds ++ [rd]) := fun h =>
    (h.trans (hk.perm.cons rd)).trans (perm_append_singleton rd rds).symm
  cases hs : rd.srv with
  | some srv =>
    rw [link_srv hs] at h
    have hp := insert_srv_perm h
    exact ⟨hperm hp, hk.own.link hrd hp, insert_srv_inOrder hs (hrd srv hs) hk.own hk.sorted h⟩
  | none =>
    rw [link_other hs] at h
    obtain rfl := Attempt.ok.inj h
    have hp := perm_append_singleton rd l
    refine ⟨hperm hp, hk.own.link hrd hp, pairwise_append.2 ⟨hk.sorted, pairwise_singleton _ _, ?_⟩⟩
    intro a _ c hc srv hsrv
    rw [mem_singleton.1 hc, hs] at hsrv
    cases hsrv

theorem parse_answer_own {alloc : Alloc} {answer : Record × ℕ}
    (h : parse_answer dn_expand msg alloc p = .ok answer) :
    ∀ srv ∈ answer.1.srv, answer.1.seen = some srv.key := by
  intro srv hsrv
  rw [parse_answer_seen h]
  unfold Record.srv at hsrv
  cases hd : answer.1.data with
  | T_SRV srv' =>
    rw [hd] at hsrv
    obtain rfl := mem_some_iff.1 hsrv
    rfl
  | _ =>
    rw [hd] at hsrv
    cases hsrv

/-- **All answers are kept, in order**, whenever a list comes out. -/
theorem parse_answers_kept (hk : Kept l rds) (h : parse_answers dn_expand heap msg n r p l = .ok l') :
    ∃ rest, answers dn_expand heap msg n r p = .ok rest ∧ Kept l' (rds ++ rest) := by
  induction n generalizing r p l rds with
  | zero =>
    obtain rfl := Attempt.ok.inj h
    exact ⟨[], rfl, by rwa [append_nil]⟩
  | succ n ih =>
    rw [parse_answers] at h
    rw [answers]
    by_cases hp : p < msg.length
    · rw [if_pos hp] at h ⊢
      obtain ⟨answer, ha, h⟩ := bind_eq_ok.1 h
      obtain ⟨l₁, hl, h⟩ := bind_eq_ok.1 h
      obtain ⟨rest, hr, hk'⟩ := ih (hk.link (parse_answer_own ha) hl) h
      refine ⟨answer.1 :: rest, ?_, ?_⟩
      · rw [ha, ok_bind, hr, ok_bind]
      · rwa [append_assoc] at hk'
    · rw [if_neg hp] at h ⊢
      obtain rfl := Attempt.ok.inj h
      exact ⟨[], rfl, by rwa [append_nil]⟩

/-! ### What is read on the way -/

/-- The SRV records in front of the first record of another type. -/
def leading (l : List Record) : List Record := l.takeWhile fun rd => rd.srv.isSome

/-- The records of the list are the SRV records `S` and, behind them, the others; as far as the place of
another SRV record goes, `S` is like the SRV records that lead the reply. -/
structure Split (S O rds : List Record) : Prop where
  srvs : ∀ c ∈ S, c.srv.isSome
  others : ∀ c ∈ O, c.srv = none
  own : Own S
  lead : ∀ srv, (∃ c ∈ S, GoesBefore srv c) ↔ ∃ c ∈ leading rds, GoesBefore srv c
  only : O = [] ↔ ∀ c ∈ rds, c.srv.isSome

def StopsInTime (rds : List Record) (srv : SrvRdata) : Prop :=
  (∀ c ∈ rds, c.srv.isSome) ∨ ∃ c ∈ leading rds, GoesBefore srv c

theorem walk_srvs (hown : Own S) (hsrv : ∀ c ∈ S, c.srv.isSome)
    (h : O = [] ∨ ∃ c ∈ S, GoesBefore srv c) : ∃ x y, S = x ++ y ∧
      insert_srv rd srv (S ++ O) = .ok (x ++ rd :: y ++ O) ∧ ∀ c ∈ walk srv (S ++ O), c ∈ S := by
  induction S with
  | nil =>
    obtain rfl : O = [] := h.resolve_right fun ⟨_, hc, _⟩ => absurd hc not_mem_nil
    exact ⟨[], [], rfl, rfl, fun _ hc => hc⟩
  | cons crt S ih =>
    obtain ⟨srv', hs⟩ := isSome_iff_exists.1 (hsrv crt mem_cons_self)
    have hseen := hown crt mem_cons_self srv' hs
    by_cases hlt : srv_before srv srv'.key
    · refine ⟨[], crt :: S, rfl, ?_, ?_⟩
      · simp only [cons_append, insert_srv, hseen, if_pos hlt, nil_append]
      · intro c hc
        simp only [cons_append, walk, hseen, if_pos hlt, mem_singleton] at hc
        exact hc ▸ mem_cons_self
    · have h' : O = [] ∨ ∃ c ∈ S, GoesBefore srv c := by
        refine h.imp id ?_
        rintro ⟨c, hc, seen, hseen', hbefore⟩
        rcases mem_cons.1 hc with rfl | hc
        · rw [hseen] at hseen'
          obtain rfl := mem_some_iff.1 hseen'
          exact absurd hbefore hlt
        · exact ⟨c, hc, seen, hseen', hbefore⟩
      obtain ⟨x, y, rfl, hins, hwalk⟩ := ih (fun c hc => hown c (mem_cons_of_mem _ hc))
        (fun c hc => hsrv c (mem_cons_of_mem _ hc)) h'
      refine ⟨crt :: x, y, rfl, ?_, ?_⟩
      · simp only [cons_append, insert_srv, hseen, if_neg hlt, hins, ok_bind]
      · intro c hc
        simp only [cons_append, walk, hseen, if_neg hlt, mem_cons] at hc
        exact hc.elim (fun h => h ▸ mem_cons_self) fun h => mem_cons_of_mem _ (hwalk c h)

theorem walk_others (hown : Own S) (hsrv : ∀ c ∈ S, c.srv.isSome) (hO : c ∈ O.head?)
    (h : ¬ ∃ c ∈ S, GoesBefore srv c) : c ∈ walk srv (S ++ O) := by
  induction S with
  | nil =>
    obtain ⟨O, rfl⟩ : ∃ O', O = c :: O' := by
      cases O with
      | nil => cases hO
      | cons a O =>
        cases hO
        exact ⟨O, rfl⟩
    exact mem_cons_self
  | cons crt S ih =>
    obtain ⟨srv', hs⟩ := isSome_iff_exists.1 (hsrv crt mem_cons_self)
    have hseen := hown crt mem_cons_self srv' hs
    have hlt : ¬ srv_before srv srv'.key := fun hlt => h ⟨crt, mem_cons_self, _, hseen, hlt⟩
    simp only [cons_append, walk, hseen, if_neg hlt]
    refine mem_cons_of_mem _ (ih (fun c hc => hown c (mem_cons_of_mem _ hc))
      (fun c hc => hsrv c (mem_cons_of_mem _ hc)) ?_)
    rintro ⟨c, hc, hgoes⟩
    exact h ⟨c, mem_cons_of_mem _ hc, hgoes⟩

theorem leading_all (h : ∀ c ∈ rds, c.srv.isSome) : leading rds = rds := by
  rw [leading, takeWhile_eq_self_iff]
  exact h

theorem leading_append (h : ¬ ∀ c ∈ rds, c.srv.isSome) : leading (rds ++ l) = leading rds := by
  induction rds with
  | nil => exact absurd (fun _ h => nomatch h) h
  | cons c rds ih =>
    unfold leading at ih ⊢
    rw [cons_append, takeWhile_cons, takeWhile_cons]
    by_cases hc : c.srv.isSome
    · rw [if_pos hc, if_pos hc, ih fun hall => h (forall_mem_cons.2 ⟨hc, hall⟩)]
    · rw [if_neg hc, if_neg hc]

theorem leading_append_other (h : rd.srv = none) : leading (rds ++ [rd]) = leading rds := by
  by_cases hall : ∀ c ∈ rds, c.srv.isSome
  · rw [leading_all hall, leading, takeWhile_append_of_pos hall, takeWhile_cons, h]
    exact append_nil rds
  · exact leading_append hall

/-- **A record of another type** goes to the end. -/
theorem Split.other (hs : Split S O rds) (h : rd.srv = none) : Split S (O ++ [rd]) (rds ++ [rd]) where
  srvs := hs.srvs
  others c hc := by
    rcases mem_append.1 hc with hc | hc
    · exact hs.others c hc
    · rwa [mem_singleton.1 hc]
  own := hs.own
  lead srv := by rw [leading_append_other h]; exact hs.lead srv
  only := by
    refine iff_of_false (by simp) fun hall => ?_
    have := hall rd (mem_append_right _ mem_cons_self)
    rw [h] at this
    cases this

/-- **A SRV record** stays among the SRV records. -/
theorem Split.insert {x y : List Record} (hs : Split (x ++ y) O rds) (h : rd.srv = some srv)
    (hrd : rd.seen = some srv.key) (hreach : StopsInTime rds srv) :
    Split (x ++ rd :: y) O (rds ++ [rd]) := by
  have hmem : ∀ c, c ∈ x ++ rd :: y ↔ c = rd ∨ c ∈ x ++ y := fun c => by
    simp only [mem_append, mem_cons]
    tauto
  have hsome : rd.srv.isSome := by rw [h]; rfl
  refine ⟨fun c hc => ?_, hs.others, fun c hc => ?_, fun srv' => ?_, ?_⟩
  · rcases (hmem c).1 hc with rfl | hc
    · exact hsome
    · exact hs.srvs c hc
  · rcases (hmem c).1 hc with rfl | hc
    · intro srv' hsrv'
      rw [h] at hsrv'
      obtain rfl := mem_some_iff.1 hsrv'
      exact hrd
    · exact hs.own c hc
  · have hS : (∃ c ∈ x ++ rd :: y, GoesBefore srv' c) ↔
        GoesBefore srv' rd ∨ ∃ c ∈ x ++ y, GoesBefore srv' c := by
      simp only [hmem]
      exact ⟨fun ⟨c, hc, hg⟩ => hc.elim (fun h => .inl (h ▸ hg)) fun h => .inr ⟨c, h, hg⟩,
        fun h => h.elim (fun hg => ⟨rd, .inl rfl, hg⟩) fun ⟨c, hc, hg⟩ => ⟨c, .inr hc, hg⟩⟩
    rw [hS, hs.lead srv']
    by_cases hall : ∀ c ∈ rds, c.srv.isSome
    · rw [leading_all hall, leading_all]
      · simp only [mem_append, mem_singleton]
        exact ⟨fun h => h.elim (fun hg => ⟨rd, .inr rfl, hg⟩) fun ⟨c, hc, hg⟩ => ⟨c, .inl hc, hg⟩,
          fun ⟨c, hc, hg⟩ => hc.elim (fun h => .inr ⟨c, h, hg⟩) fun h => .inl (h ▸ hg)⟩
      · intro c hc
        rcases mem_append.1 hc with hc | hc
        · exact hall c hc
        · rwa [mem_singleton.1 hc]
    · rw [leading_append hall]
      refine or_iff_right_of_imp fun hg => ?_
      obtain ⟨c, hc, hg'⟩ := hreach.resolve_left hall
      exact ⟨c, hc, hg.trans hrd hg'⟩
  · rw [hs.only]
    constructor
    · intro hall c hc
      rcases mem_append.1 hc with hc | hc
      · exact hall c hc
      · rwa [mem_singleton.1 hc]
    · exact fun hall c hc => hall c (mem_append_left _ hc)

theorem Split.stopsInTime (hs : Split S O rds) :
    StopsInTime rds srv ↔ O = [] ∨ ∃ c ∈ S, GoesBefore srv c := by
  rw [StopsInTime, hs.only, hs.lead]

section Answers

variable (dn_expand heap msg) in
/-- The answers from `p` on, behind the records `rds`: none has an apex that is too long, and every SRV
record behind one of another type belongs in front of a SRV record that leads the reply. -/
def Orderly : ℕ → ℕ → ℕ → List Record → Prop
  | 0, _, _, _ => True
  | answers_no + 1, r, p, rds =>
    p < msg.length → ¬ OverlongApex dn_expand msg (heap r) p ∧
      ∀ answer, parse_answer dn_expand msg (heap r) p = .ok answer →
        (∀ srv ∈ answer.1.srv, StopsInTime rds srv) ∧
          Orderly answers_no (r + 1) answer.2 (rds ++ [answer.1])

/-- **The walks read SRV records only** exactly when the answers are orderly. -/
theorem parse_answers_reads (hdn : Respects dn_expand) (hs : Split S O rds) :
    (parse_answers dn_expand heap msg n r p (S ++ O) ≠ .fault ∧
      ∀ c ∈ reads dn_expand heap msg n r p (S ++ O), c.srv.isSome) ↔
    Orderly dn_expand heap msg n r p rds := by
  induction n generalizing r p S O rds with
  | zero => exact iff_of_true ⟨ok_ne_fault, fun _ hc => absurd hc not_mem_nil⟩ trivial
  | succ n ih =>
    rw [parse_answers, reads, Orderly]
    by_cases hp : p < msg.length
    · rw [if_pos hp, if_pos hp, forall_prop_of_true hp, ← parse_answer_fault hdn]
      cases ha : parse_answer dn_expand msg (heap r) p with
      | fault => exact iff_of_false (fun h => h.1 rfl) fun h => h.1 rfl
      | error =>
        exact iff_of_true ⟨error_ne_fault, fun _ hc => absurd hc not_mem_nil⟩
          ⟨error_ne_fault, fun _ h => by cases h⟩
      | ok answer =>
        have hown := parse_answer_own ha
        rw [ok_bind, and_iff_right ok_ne_fault]
        simp only [Attempt.ok.injEq, forall_eq']
        cases hsrv : answer.1.srv with
        | none =>
          rw [link_other hsrv, ok_bind]
          simp only [elim_none, nil_append]
          rw [append_assoc, ih (hs.other hsrv)]
          exact (and_iff_right fun _ h => by cases h).symm
        | some srv =>
          simp only [mem_some_iff, forall_eq', elim_some]
          by_cases hreach : StopsInTime rds srv
          · obtain ⟨x, y, rfl, hins, hwalk⟩ := walk_srvs hs.own hs.srvs (hs.stopsInTime.1 hreach)
            have hw : ∀ c ∈ walk srv (x ++ y ++ O), c.srv.isSome := fun c hc => hs.srvs c (hwalk c hc)
            rw [link_srv hsrv, hins, ok_bind, and_iff_right hreach,
              ← ih (hs.insert hsrv (hown srv hsrv) hreach)]
            simp only [forall_mem_append, and_iff_right hw]
          · refine iff_of_false ?_ fun h => hreach h.1
            rintro ⟨-, hall⟩
            have hO : O ≠ [] := fun h => hreach (hs.stopsInTime.2 (.inl h))
            obtain ⟨c, O, rfl⟩ := exists_cons_of_ne_nil hO
            have hread := walk_others hs.own hs.srvs (O := c :: O) rfl
              fun h => hreach (hs.stopsInTime.2 (.inr h))
            have := hall c (mem_append_left _ hread)
            rw [hs.others c mem_cons_self] at this
            cases this
    · rw [if_neg hp, if_neg hp]
      exact iff_of_true ⟨ok_ne_fault, fun _ hc => absurd hc not_mem_nil⟩ fun h => absurd h hp

variable (dn_expand heap msg) in
/-- What `parse_record` must do: read SRV records only on the way to the place of one, and return all
answers, the SRV records in order. -/
structure Collects : Prop where
  in_bounds : parse_record dn_expand heap msg ≠ none
  own : ∀ answers_no p, parse_header msg = .ok (answers_no, p) →
    ∀ c ∈ reads dn_expand heap msg answers_no 0 p [], c.srv.isSome
  kept : ∀ l, parse_reply dn_expand heap msg = .ok l → ∃ answers_no p all,
    parse_header msg = .ok (answers_no, p) ∧ answers dn_expand heap msg answers_no 0 p = .ok all ∧
      l.Perm all ∧ (l.filterMap Record.srv).Pairwise fun a b => key_le a.key b.key

variable (dn_expand heap msg) in
/-- The reply has a header, and its answers are orderly. -/
structure OrderlyReply : Prop where
  header : DNS_HDR_SIZE ≤ msg.length
  answers : ∀ answers_no p, parse_header msg = .ok (answers_no, p) →
    Orderly dn_expand heap msg answers_no 0 p []

theorem Kept.srvs (hk : Kept l rds) : (l.filterMap Record.srv).Pairwise fun a b => key_le a.key b.key := by
  rw [pairwise_filterMap]
  refine hk.sorted.imp_of_mem fun {a c} ha _ hac srv hsrv srv' hsrv' => ?_
  obtain ⟨seen, hseen, hle⟩ := hac srv' hsrv'
  rw [hk.own a ha srv hsrv] at hseen
  obtain rfl := mem_some_iff.1 hseen
  exact hle

/-- **What comes out of a reply** are its answers, the SRV records in order. -/
theorem parse_reply_kept (h : parse_reply dn_expand heap msg = .ok l) : ∃ answers_no p all,
    parse_header msg = .ok (answers_no, p) ∧ answers dn_expand heap msg answers_no 0 p = .ok all ∧
      l.Perm all ∧ (l.filterMap Record.srv).Pairwise fun a b => key_le a.key b.key := by
  obtain ⟨⟨answers_no, p⟩, hh, h⟩ := bind_eq_ok.1 h
  have hnil : Kept [] [] := ⟨List.Perm.refl _, (fun _ hc => nomatch hc), Pairwise.nil⟩
  obtain ⟨all, hall, hk⟩ := parse_answers_kept hnil h
  exact ⟨answers_no, p, all, hh, hall, hk.perm, hk.srvs⟩

theorem Split.nil : Split [] [] [] where
  srvs _ hc := nomatch hc
  others _ hc := nomatch hc
  own _ hc := nomatch hc
  lead _ := iff_of_false (fun ⟨_, hc, _⟩ => nomatch hc) fun ⟨_, hc, _⟩ => nomatch hc
  only := iff_of_true rfl fun _ hc => nomatch hc

end Answers

end OpenSips.Resolve
