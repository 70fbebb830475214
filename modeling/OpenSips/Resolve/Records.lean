import OpenSips.Net
import Mathlib.Data.List.Chain

/-!
# OpenSips.Resolve.Records — DNS records and their order (`core/resolve/parsers.c`)

A record as `parse_record` lists it.  It lists no SRV or NAPTR record without its data, so the tests
for missing data are left out, and so are the fields of other records.
-/

namespace OpenSips.Resolve

open List Option

/-- What is compiled in, and the switches of `globals.h`. -/
structure Config where
  USE_TCP : Bool
  USE_TLS : Bool
  USE_SCTP : Bool
  tcp_disable : Bool
  tls_disable : Bool
  sctp_disable : Bool
  dns_try_ipv6 : Bool

/-- `struct srv_rdata`; the name with its NUL, and the length it has in the message. -/
structure SrvRdata where
  priority : UInt16
  weight : UInt16
  port : UInt16
  name : Str
  name_len : ℕ
  deriving DecidableEq

/-- `struct naptr_rdata`; the three strings have lengths of their own. -/
structure NaptrRdata where
  order : UInt16
  pref : UInt16
  flags : Str
  services : Str
  regexp : Str
  repl : Str
  repl_len : ℕ
  deriving DecidableEq

/-- `struct rdata`; of other data only what `rd2srv(rd)->priority` would read matters. -/
inductive Rdata where
  | T_SRV (srv : SrvRdata)
  | T_NAPTR (naptr : NaptrRdata)
  | other (type : ℕ) (priority : Option UInt16)
  deriving DecidableEq

/-- `rd2srv(rd)->priority`, whatever the type of the record: the first two bytes of its data. -/
def Rdata.priority : Rdata → Option UInt16
  | .T_SRV srv => some srv.priority
  | .T_NAPTR naptr => some naptr.order
  | .other _ priority => priority

def tolower (c : UInt8) : UInt8 := if chr 'A' ≤ c ∧ c ≤ chr 'Z' then c + 32 else c

/-- `strncasecmp(s, t, n) == 0`, where both have `n` characters and no NUL. -/
def strncaseeq (s t : Str) (n : ℕ) : Bool := (s.take n).map tolower = (t.take n).map tolower

section Naptr

/-- `services[services_len - 1]` -/
def last_char (services : Str) : UInt8 := services.getLastD 0

/-- `get_naptr_proto` -/
def get_naptr_proto (cfg : Config) (n : NaptrRdata) : Proto :=
  let third := n.services.getD 3 0
  if cfg.USE_TLS ∧ (third = chr 's' ∨ third = chr 'S') then .PROTO_TLS
  else
    let p := last_char n.services
    if p = chr 'U' ∨ p = chr 'u' then .PROTO_UDP
    else if cfg.USE_TCP ∧ (p = chr 'T' ∨ p = chr 't') then .PROTO_TCP
    else if cfg.USE_SCTP ∧ (p = chr 'S' ∨ p = chr 's') then .PROTO_SCTP
    else .PROTO_NONE

/-- A record that `filter_and_sort_naptr` keeps. -/
def naptr_usable (cfg : Config) (is_sips : Bool) (n : NaptrRdata) : Bool :=
  let p := last_char n.services
  (n.flags = [chr 's'] ∨ n.flags = [chr 'S']) ∧
  n.repl_len ≠ 0 ∧ n.regexp = [] ∧
  ((¬ is_sips ∧ n.services.length = 7 ∧ strncaseeq n.services ("sip+d2".toList.map chr) 6) ∨
    (is_sips ∧ n.services.length = 8 ∧ strncaseeq n.services ("sips+d2".toList.map chr) 7)) ∧
  -- by default SCTP is not supported
  (p = chr 'U' ∨ p = chr 'u' ∨ (cfg.USE_TCP ∧ ¬ cfg.tcp_disable ∧ (p = chr 'T' ∨ p = chr 't')) ∨
    (cfg.USE_SCTP ∧ ¬ cfg.sctp_disable ∧ (p = chr 'S' ∨ p = chr 's'))) ∧
  -- SIPS+D2U is not valid
  ¬ (n.services.length = 8 ∧ (p = chr 'U' ∨ p = chr 'u'))

def naptr_prio (n : NaptrRdata) : ℕ := n.order.toNat * 65536 + n.pref.toNat

/-- The loop that looks for a place behind the head: it stops in front of the last record. -/
def insert_between (l : NaptrRdata) : List NaptrRdata → List NaptrRdata
  | it :: it' :: rest =>
    if naptr_prio l ≤ naptr_prio it then l :: it :: it' :: rest
    else it :: insert_between l (it' :: rest)
  | rest => l :: rest

def insert_naptr (found : List NaptrRdata) (l : NaptrRdata) : List NaptrRdata :=
  match found with
  | [] => [l]
  | head :: rest =>
    if naptr_prio l ≤ naptr_prio head then l :: head :: rest
    else if naptr_prio ((head :: rest).getLastD head) ≤ naptr_prio l then head :: rest ++ [l]
    else head :: insert_between l rest

/-- `filter_and_sort_naptr` -/
def filter_and_sort_naptr (cfg : Config) (is_sips : Bool) : List NaptrRdata → List Rdata →
    List NaptrRdata
  | found, [] => found
  | found, .T_NAPTR n :: rest =>
    if naptr_usable cfg is_sips n then
      filter_and_sort_naptr cfg is_sips (insert_naptr found n) rest
    else filter_and_sort_naptr cfg is_sips found rest
  | found, _ :: rest => filter_and_sort_naptr cfg is_sips found rest

theorem mem_insert_between {l n : NaptrRdata} {rest : List NaptrRdata} :
    n ∈ insert_between l rest ↔ n = l ∨ n ∈ rest := by
  induction rest with
  | nil => simp [insert_between]
  | cons it rest ih =>
    cases rest with
    | nil => simp [insert_between]
    | cons it' rest =>
      rw [insert_between]
      split_ifs
      · rw [mem_cons]
      · rw [mem_cons, ih, mem_cons (a := n) (b := it)]
        tauto

theorem mem_insert_naptr {l n : NaptrRdata} {found : List NaptrRdata} :
    n ∈ insert_naptr found l ↔ n = l ∨ n ∈ found := by
  cases found with
  | nil => simp [insert_naptr]
  | cons head rest =>
    rw [insert_naptr]
    split_ifs
    · rw [mem_cons]
    · rw [mem_append, mem_singleton, or_comm]
    · rw [mem_cons, mem_insert_between, mem_cons]
      tauto

/-- **What is kept is usable, and was in the answer.** -/
theorem mem_filter_and_sort_naptr {cfg : Config} {is_sips : Bool} {n : NaptrRdata}
    {records : List Rdata} {found : List NaptrRdata} :
    n ∈ filter_and_sort_naptr cfg is_sips found records ↔
      n ∈ found ∨ .T_NAPTR n ∈ records ∧ naptr_usable cfg is_sips n = true := by
  induction records generalizing found with
  | nil => simp [filter_and_sort_naptr]
  | cons rd rest ih =>
    cases rd with
    | T_NAPTR n' =>
      rw [filter_and_sort_naptr]
      split_ifs with h
      · rw [ih, mem_insert_naptr]
        constructor
        · rintro ((rfl | hf) | ⟨hm, hu⟩)
          · exact .inr ⟨mem_cons_self, h⟩
          · exact .inl hf
          · exact .inr ⟨mem_cons_of_mem _ hm, hu⟩
        · rintro (hf | ⟨hm, hu⟩)
          · exact .inl (.inr hf)
          · rcases mem_cons.1 hm with hm | hm
            · cases hm
              exact .inl (.inl rfl)
            · exact .inr ⟨hm, hu⟩
      · rw [ih]
        constructor
        · rintro (hf | ⟨hm, hu⟩)
          · exact .inl hf
          · exact .inr ⟨mem_cons_of_mem _ hm, hu⟩
        · rintro (hf | ⟨hm, hu⟩)
          · exact .inl hf
          · rcases mem_cons.1 hm with hm | hm
            · cases hm
              exact absurd hu h
            · exact .inr ⟨hm, hu⟩
    | T_SRV srv =>
      rw [filter_and_sort_naptr, ih]
      · simp
      · nofun
    | other type priority =>
      rw [filter_and_sort_naptr, ih]
      · simp
      · nofun

end Naptr

section Srv

/-- `running_sum`, an `unsigned short`, of records of one priority. -/
def running_sums : ℕ → List SrvRdata → List (SrvRdata × UInt16)
  | _, [] => []
  | weight_sum, srv :: rest =>
    let sum := weight_sum + srv.weight.toNat
    (srv, UInt16.ofNat sum) :: running_sums sum rest

/-- The running sums when a record of the given weight was taken out in front of them. -/
def lower_sums (weight : UInt16) (l : List (SrvRdata × UInt16)) : List (SrvRdata × UInt16) :=
  l.map fun x => (x.1, x.2 - weight)

@[simp] theorem lower_sums_fst (weight : UInt16) (l : List (SrvRdata × UInt16)) :
    (lower_sums weight l).map Prod.fst = l.map Prod.fst := by
  rw [lower_sums, List.map_map]
  rfl

@[simp] theorem lower_sums_length (weight : UInt16) (l : List (SrvRdata × UInt16)) :
    (lower_sums weight l).length = l.length := length_map _

/-- The first record whose running sum reaches `rand_no` is taken out. -/
def take_srv (rand_no : ℕ) : List (SrvRdata × UInt16) → Option (SrvRdata × List (SrvRdata × UInt16))
  | [] => none
  | crt :: rest =>
    if rand_no ≤ crt.2.toNat then some (crt.1, lower_sums crt.1.weight rest)
    else (take_srv rand_no rest).map fun r => (r.1, crt :: r.2)

theorem take_srv_perm {rand_no : ℕ} {l rest : List (SrvRdata × UInt16)} {srv : SrvRdata}
    (h : take_srv rand_no l = some (srv, rest)) :
    (srv :: rest.map Prod.fst).Perm (l.map Prod.fst) := by
  induction l generalizing srv rest with
  | nil => cases h
  | cons crt l ih =>
    rw [take_srv] at h
    split_ifs at h
    · cases h
      rw [lower_sums_fst]
      rfl
    · obtain ⟨⟨srv', rest'⟩, h', e⟩ := map_eq_some_iff.1 h
      cases e
      exact (Perm.swap _ _ _).trans ((ih h').cons _)

/-- The records of one priority in their random order; the draws are between 0 and the sum. -/
def order_srvs (rand : ℕ → ℕ → ℕ) : ℕ → ℕ → List (SrvRdata × UInt16) → List SrvRdata
  | _, _, [] => []
  | _, _, [last] => [last.1]
  | n, weight_sum, crt :: next :: rest =>
    match _h : take_srv (rand n weight_sum) (crt :: next :: rest) with
    | some (srv, rest') =>
      srv :: order_srvs rand (n + 1) (weight_sum - srv.weight.toNat) rest'
    -- "bug in sorting SRVs - rand>sum"
    | none =>
      crt.1 :: order_srvs rand (n + 1) (weight_sum - crt.1.weight.toNat)
        (lower_sums crt.1.weight (next :: rest))
termination_by _ _ l => l.length
decreasing_by
  · have := (take_srv_perm _h).length_eq
    simp only [length_cons, length_map] at this ⊢
    omega
  · simp

theorem order_srvs_perm (rand : ℕ → ℕ → ℕ) (n weight_sum : ℕ) (l : List (SrvRdata × UInt16)) :
    (order_srvs rand n weight_sum l).Perm (l.map Prod.fst) := by
  induction n, weight_sum, l using order_srvs.induct rand with
  | case1 => rw [order_srvs]; rfl
  | case2 => rw [order_srvs]; rfl
  | case3 n w crt next rest srv rest' h ih =>
    rw [order_srvs]
    split <;> rename_i h'
    · rw [h] at h'
      cases h'
      exact (ih.cons _).trans (take_srv_perm h)
    · rw [h] at h'
      cases h'
  | case4 n w crt next rest h ih =>
    rw [order_srvs]
    split <;> rename_i h'
    · rw [h] at h'
      cases h'
    · rw [lower_sums_fst] at ih
      exact ih.cons _

theorem running_sums_fst (n : ℕ) (l : List SrvRdata) : (running_sums n l).map Prod.fst = l := by
  induction l generalizing n with
  | nil => rfl
  | cons srv l ih =>
    rw [running_sums, map_cons, ih]

/-- The records behind `rd` with its priority, as SRV records, and the rest of the list.  A record of
another type with this priority is taken for an SRV record, and one without data is read through a
`NULL` pointer. -/
def same_priority (priority : UInt16) : List Rdata → Option (List SrvRdata × List Rdata)
  | [] => some ([], [])
  | .T_SRV srv :: rest =>
    if srv.priority = priority then (same_priority priority rest).map fun r => (srv :: r.1, r.2)
    else some ([], .T_SRV srv :: rest)
  | rd :: rest =>
    match rd.priority with
    | none => none
    | some p => if p = priority then none else some ([], rd :: rest)

def srvs : List Rdata → List SrvRdata := List.filterMap fun | .T_SRV srv => some srv | _ => none

theorem same_priority_spec {priority : UInt16} {l rest : List Rdata} {run : List SrvRdata}
    (h : same_priority priority l = some (run, rest)) :
    srvs l = run ++ srvs rest ∧ rest.length ≤ l.length := by
  induction l generalizing run with
  | nil =>
    cases h
    exact ⟨rfl, le_rfl⟩
  | cons rd l ih =>
    have hother : ∀ p, (if p = priority then none else some ([], rd :: l)) = some (run, rest) →
        srvs (rd :: l) = run ++ srvs rest ∧ rest.length ≤ (rd :: l).length := by
      intro p h
      split_ifs at h
      cases h
      exact ⟨rfl, le_rfl⟩
    cases rd with
    | T_SRV srv =>
      rw [same_priority] at h
      split_ifs at h
      · obtain ⟨⟨run', rest'⟩, h', e⟩ := map_eq_some_iff.1 h
        cases e
        obtain ⟨hs, hl⟩ := ih h'
        exact ⟨congrArg (srv :: ·) hs, Nat.le_succ_of_le hl⟩
      · cases h
        exact ⟨rfl, le_rfl⟩
    | T_NAPTR naptr => exact hother _ h
    | other type p =>
      cases p with
      | none => cases h
      | some p => exact hother _ h

/-- `sort_srvs`; `n` draws were made before. -/
def sort_srvs (rand : ℕ → ℕ → ℕ) (n : ℕ) : List Rdata → Option (List SrvRdata)
  | [] => some []
  | .T_SRV srv :: rest =>
    match _h : same_priority srv.priority rest with
    | none => none
    | some (run, rest') =>
      let weight_sum := ((srv :: run).map fun x => x.weight.toNat).sum
      (sort_srvs rand (n + run.length) rest').map fun tail =>
        order_srvs rand n weight_sum (running_sums 0 (srv :: run)) ++ tail
  | _ :: rest => sort_srvs rand n rest
termination_by l => l.length
decreasing_by
  · exact Nat.lt_succ_of_le (same_priority_spec _h).2
  · simp

/-- **The SRV records are kept, and no others.** -/
theorem sort_srvs_perm {rand : ℕ → ℕ → ℕ} {n : ℕ} {l : List Rdata} {sorted : List SrvRdata}
    (h : sort_srvs rand n l = some sorted) : sorted.Perm (srvs l) := by
  induction n, l using sort_srvs.induct generalizing sorted with
  | case1 n =>
    rw [sort_srvs] at h
    cases h
    rfl
  | case2 n srv rest hs =>
    rw [sort_srvs] at h
    split at h <;> rename_i h'
    · cases h
    · rw [hs] at h'
      cases h'
  | case3 n srv rest run rest' hs ih =>
    rw [sort_srvs] at h
    split at h <;> rename_i h'
    · cases h
    · rw [hs] at h'
      cases h'
      obtain ⟨tail, ht, rfl⟩ := map_eq_some_iff.1 h
      have hrun := order_srvs_perm rand n (((srv :: run).map fun x => x.weight.toNat).sum)
        (running_sums 0 (srv :: run))
      rw [running_sums_fst] at hrun
      have hall : srvs (.T_SRV srv :: rest) = (srv :: run) ++ srvs rest' :=
        congrArg (srv :: ·) (same_priority_spec hs).1
      rw [hall]
      exact hrun.append (ih ht)
  | case4 n rd rest hrd ih =>
    rw [sort_srvs] at h
    · cases rd with
      | T_SRV srv => exact absurd rfl (hrd srv)
      | T_NAPTR naptr => exact ih h
      | other type priority => exact ih h
    · exact hrd

/-- A record of another type behind an SRV record does not read as one of its priority. -/
def apart : Rdata → Rdata → Prop
  | .T_SRV _, .T_SRV _ => True
  | .T_SRV srv, rd => ∃ p, rd.priority = some p ∧ p ≠ srv.priority
  | _, _ => True

theorem same_priority_apart {srv : SrvRdata} {l : List Rdata} : List.IsChain apart (.T_SRV srv :: l) ↔
      ∃ run rest, same_priority srv.priority l = some (run, rest) ∧ List.IsChain apart rest := by
  induction l generalizing srv with
  | nil => exact ⟨fun _ => ⟨[], [], rfl, .nil⟩, fun _ => .singleton _⟩
  | cons rd l ih =>
    rw [isChain_cons_cons]
    have hother : ∀ p : UInt16, (p ≠ srv.priority ∧ List.IsChain apart (rd :: l)) ↔
        ∃ (run : List SrvRdata) (rest : List Rdata),
          (if p = srv.priority then none else some ([], rd :: l)) = some (run, rest) ∧
            List.IsChain apart rest := by
      intro p
      constructor
      · rintro ⟨hp, hc⟩
        exact ⟨_, _, if_neg hp, hc⟩
      · rintro ⟨run, rest, h, hc⟩
        split_ifs at h with hp
        cases h
        exact ⟨hp, hc⟩
    cases rd with
    | T_SRV srv' =>
      rw [same_priority]
      split_ifs with hp
      · rw [show apart (.T_SRV srv) (.T_SRV srv') = True from rfl, true_and, ih, hp]
        constructor
        · rintro ⟨run, rest, h, hc⟩
          exact ⟨_, _, by rw [h]; rfl, hc⟩
        · rintro ⟨run, rest, h, hc⟩
          obtain ⟨⟨run', rest'⟩, h', e⟩ := map_eq_some_iff.1 h
          cases e
          exact ⟨_, _, h', hc⟩
      · exact ⟨fun h => ⟨_, _, rfl, h.2⟩, fun ⟨_, _, h, hc⟩ => by cases h; exact ⟨trivial, hc⟩⟩
    | T_NAPTR naptr =>
      refine Iff.trans ?_ (hother naptr.order)
      exact and_congr_left' ⟨fun ⟨p, hp, hne⟩ => by cases hp; exact hne, fun hne => ⟨_, rfl, hne⟩⟩
    | other type p =>
      cases p with
      | none => exact ⟨fun ⟨⟨_, hp, _⟩, _⟩ => (by cases hp), fun ⟨_, _, h, _⟩ => (by cases h)⟩
      | some p =>
        refine Iff.trans ?_ (hother p)
        exact and_congr_left' ⟨fun ⟨q, hq, hne⟩ => by cases hq; exact hne, fun hne => ⟨_, rfl, hne⟩⟩

/-- **`sort_srvs` reads SRV records only**, exactly when they are apart from the others. -/
theorem sort_srvs_apart (rand : ℕ → ℕ → ℕ) (n : ℕ) (l : List Rdata) :
    (∃ sorted, sort_srvs rand n l = some sorted) ↔ List.IsChain apart l := by
  induction n, l using sort_srvs.induct with
  | case1 n => exact ⟨fun _ => .nil, fun _ => ⟨[], by rw [sort_srvs]⟩⟩
  | case2 n srv rest hs =>
    rw [same_priority_apart, sort_srvs]
    constructor
    · rintro ⟨sorted, h⟩
      split at h <;> rename_i h'
      · cases h
      · rw [hs] at h'
        cases h'
    · rintro ⟨run, rest', h, -⟩
      rw [hs] at h
      cases h
  | case3 n srv rest run rest' hs ih =>
    rw [same_priority_apart, sort_srvs]
    constructor
    · rintro ⟨sorted, h⟩
      split at h <;> rename_i h'
      · cases h
      · rw [hs] at h'
        cases h'
        obtain ⟨tail, ht, -⟩ := map_eq_some_iff.1 h
        exact ⟨_, _, hs, ih.1 ⟨tail, ht⟩⟩
    · rintro ⟨run', rest'', h, hc⟩
      rw [hs] at h
      cases h
      obtain ⟨tail, ht⟩ := ih.2 hc
      split <;> rename_i h'
      · rw [hs] at h'
        cases h'
      · rw [hs] at h'
        cases h'
        exact ⟨_, by rw [ht]; rfl⟩
  | case4 n rd rest hrd ih =>
    have heq : sort_srvs rand n (rd :: rest) = sort_srvs rand n rest := by
      rw [sort_srvs]
      exact hrd
    rw [heq, ih, isChain_cons]
    have hrest : ∀ y ∈ rest.head?, apart rd y := by
      intro y _
      cases rd with
      | T_SRV srv => exact absurd rfl (hrd srv)
      | T_NAPTR naptr => trivial
      | other type priority => trivial
    exact ⟨fun h => ⟨hrest, h⟩, fun h => h.2⟩

end Srv

end OpenSips.Resolve
