import OpenSips.Lib.NextList
import OpenSips.Resolve.Draws

/-!
# OpenSips.Resolve.SortSrvs — `sort_srvs` in memory (`core/resolve/parsers.c`)

The nodes of the list with their `next` and `running_sum` fields.  A record that is no SRV record and would
be written as one, and a record without data, end the run.
-/

namespace OpenSips.Resolve.SortSrvs

open List Option Function

open Lib (Linked)
open Draws

/-- What `sort_srvs` changes; `drawn` draws were made, and `log` says how the nodes of the new list were
chosen. -/
structure State (α : Type) where
  next : α → Option α
  running_sum : α → UInt16
  head : Option α
  tail : Option α
  drawn : ℕ
  log : List (Choice α)

section Model

variable {α : Type} [DecidableEq α] (record : α → Rdata)

/-- `crt` comes behind the last node of the new list. -/
def link (s : State α) (crt : α) (draw : Option (ℕ × Option α)) : State α :=
  match s.tail with
  | some tail =>
    { s with next := Function.update s.next tail (some crt), tail := some crt, log := s.log ++ [⟨crt, draw⟩] }
  | none => { s with head := some crt, tail := some crt, log := s.log ++ [⟨crt, draw⟩] }

/-- The running sums of the nodes with the same priority, and the last one of them. -/
def scan (next : α → Option α) (priority : UInt16) :
    ℕ → α → UInt32 → (α → UInt16) → Option (α × UInt32 × (α → UInt16))
  | 0, _, _, _ => none
  | fuel + 1, crt, weight_sum, running_sum =>
    match next crt with
    | none => some (crt, weight_sum, running_sum)
    | some crt' => do
      let q ← (record crt').priority
      if q = priority then
        if isSrv (record crt') then
          let weight_sum := weight_sum + (wt record crt').toUInt32
          scan next priority fuel crt' weight_sum (Function.update running_sum crt' weight_sum.toUInt16)
        else none
      else some (crt, weight_sum, running_sum)

/-- The node whose running sum reaches `rand_no`, if there is one, and the node in front of it. -/
def find (next : α → Option α) (running_sum : α → UInt16) (rand_no : ℕ) :
    ℕ → Option α → Option α → Option (Option α × Option α)
  | 0, _, _ => none
  | _ + 1, none, crt2 => some (none, crt2)
  | fuel + 1, some crt, crt2 =>
    if rand_no ≤ (running_sum crt).toNat then some (some crt, crt2)
    else find next running_sum rand_no fuel (next crt) (some crt)

def lower_sums (next : α → Option α) (weight : UInt16) : ℕ → Option α → (α → UInt16) → Option (α → UInt16)
  | 0, _, _ => none
  | _ + 1, none, running_sum => some running_sum
  | fuel + 1, some crt2, running_sum =>
    lower_sums next weight fuel (next crt2) (Function.update running_sum crt2 (running_sum crt2 - weight))

/-- `crt` is taken out of the list from `rd` on: the node behind `rd` is `second`, `crt2` is in front of
`crt`. -/
def unlink (next : α → Option α) (rd second crt : α) : Option α → α × (α → Option α)
  | none => (second, next)
  | some crt2 => (rd, Function.update next crt2 (next crt))

/-- The loop that orders the nodes from `rd` on, down to the last one. -/
def order_loop (rand : ℕ → UInt32 → ℕ) (fuel : ℕ) : ℕ → α → UInt32 → State α → Option (α × State α)
  | 0, _, _, _ => none
  | turns + 1, rd, weight_sum, s =>
    match s.next rd with
    | none => some (rd, s)
    | some second => do
      let rand_no := rand s.drawn weight_sum
      let (found, front) ← find s.next s.running_sum rand_no fuel (some rd) none
      -- "bug in sorting SRVs - rand>sum"
      let crt := found.getD rd
      let crt2 := if found.isSome then front else none
      let (rd, next) := unlink s.next rd second crt crt2
      let running_sum ← lower_sums next (wt record crt) fuel (next crt) s.running_sum
      let s := { s with next := Function.update next crt none, running_sum, drawn := s.drawn + 1 }
      order_loop rand fuel turns rd (weight_sum - (wt record crt).toUInt32) (link s crt (some (rand_no, found)))

def sort_loop (rand : ℕ → UInt32 → ℕ) (fuel : ℕ) : ℕ → Option α → State α → Option (State α)
  | 0, _, _ => none
  | _ + 1, none, s => some s
  | turns + 1, some rd, s =>
    let rd_next := s.next rd
    if isSrv (record rd) then do
      let alone ← match rd_next with
        | none => some true
        | some y => (record y).priority.map fun q => decide (q ≠ prio record rd)
      if alone then
        let s := link s rd none
        sort_loop rand fuel turns rd_next { s with next := Function.update s.next rd none }
      else
        -- multiple nodes with same priority
        let (crt, weight_sum, running_sum) ← scan record s.next (prio record rd) fuel rd (wt record rd).toUInt32
          (Function.update s.running_sum rd (wt record rd))
        let rd_next := s.next crt
        let (rd, s) ← order_loop record rand fuel fuel rd weight_sum
          { s with next := Function.update s.next crt none, running_sum }
        -- just insert the last remaining element
        sort_loop rand fuel turns rd_next (link s rd none)
    else
      -- `free_rdata_list(rd)`
      sort_loop rand fuel turns rd_next { s with next := Function.update s.next rd none }

/-- `sort_srvs`: the `next` fields and `*head` when it returns, and how the nodes were chosen. -/
def sort_srvs (rand : ℕ → UInt32 → ℕ) (fuel : ℕ) (next : α → Option α) (running_sum : α → UInt16)
    (head : Option α) : Option ((α → Option α) × Option α × List (Choice α)) := do
  let s ← sort_loop record rand fuel fuel head ⟨next, running_sum, none, none, 0, []⟩
  some (s.next, s.head, s.log)

end Model

variable {α : Type} {record : α → Rdata} {next : α → Option α} {rs : α → UInt16}
  {s s' : State α} {p : Option α} {x rd crt : α} {l same rest : List α} {fuel turns r : ℕ} {priority taken : UInt16}
  {weight_sum : UInt32} {d : Option (ℕ × Option α)} {rand : ℕ → UInt32 → ℕ}

/-- A list with its running sums. -/
def pool (rs : α → UInt16) (l : List α) : List (α × UInt16) := l.map fun x => (x, rs x)

theorem pool_congr {rs' : α → UInt16} (h : ∀ x ∈ l, rs' x = rs x) : pool rs' l = pool rs l :=
  map_congr_left fun x hx => by rw [h x hx]

/-- **The search** for the node of a draw. -/
theorem find_spec (hl : Linked next p l none) (hfuel : l.length < fuel) (crt2 : Option α) :
    (search r (pool rs l) = none → ∃ b, find next rs r fuel p crt2 = some (none, b)) ∧
    ∀ front crt back, search r (pool rs l) = some (front, crt, back) →
      ∃ A B, l = A ++ crt :: B ∧ front = pool rs A ∧ back = pool rs B ∧
        find next rs r fuel p crt2 = some (some crt, if A = [] then crt2 else A.getLast?) := by
  induction l generalizing fuel p crt2 with
  | nil =>
    obtain ⟨fuel, rfl⟩ : ∃ k, fuel = k + 1 := ⟨fuel - 1, by omega⟩
    obtain rfl : p = none := hl
    exact ⟨fun _ => ⟨crt2, rfl⟩, fun front crt back h => (by cases h)⟩
  | cons x l ih =>
    obtain ⟨fuel, rfl⟩ : ∃ k, fuel = k + 1 := ⟨fuel - 1, by omega⟩
    obtain ⟨rfl, hl⟩ := hl
    rw [find, pool, map_cons, search]
    by_cases hr : r ≤ (rs x).toNat
    · rw [if_pos hr, if_pos hr]
      refine ⟨fun h => (by cases h), fun front crt back h => ?_⟩
      cases h
      exact ⟨[], l, rfl, rfl, rfl, rfl⟩
    · rw [if_neg hr, if_neg hr]
      obtain ⟨h1, h2⟩ := ih hl (Nat.lt_of_succ_lt_succ hfuel) (some x)
      refine ⟨fun h => h1 (map_eq_none_iff.1 h), fun front crt back h => ?_⟩
      obtain ⟨⟨front', crt', back'⟩, hs, h⟩ := map_eq_some_iff.1 h
      cases h
      obtain ⟨A, B, rfl, rfl, hB, hf⟩ := h2 _ _ _ hs
      refine ⟨x :: A, B, rfl, rfl, hB, ?_⟩
      rw [hf, if_neg (cons_ne_nil _ _)]
      cases A with
      | nil => rfl
      | cons y A => rw [if_neg (cons_ne_nil _ _), getLast?_cons_cons]

/-- Whether the record is the only one of its priority. -/
def alone (record : α → Rdata) (rd : α) : Option α → Option Bool
  | none => some true
  | some y => (record y).priority.map fun q => decide (q ≠ prio record rd)

theorem alone_spec : (group record (prio record rd) l = none → alone record rd l.head? ≠ some true) ∧
    ∀ same rest, group record (prio record rd) l = some (same, rest) →
      alone record rd l.head? = some (decide (same = [])) := by
  cases l with
  | nil =>
    refine ⟨fun h => (by cases h), fun same rest h => ?_⟩
    cases h
    rfl
  | cons y l =>
    rw [head?_cons, alone, Draws.group]
    cases (record y).priority with
    | none => exact ⟨fun _ => (by simp), fun same rest h => (by cases h)⟩
    | some q =>
      simp only [bind, Option.bind, map_some]
      by_cases hq : q = prio record rd
      · rw [if_pos hq, decide_eq_false (not_not_intro hq)]
        refine ⟨fun _ => (by simp), fun same rest h => ?_⟩
        split_ifs at h
        cases hg : Draws.group record (prio record rd) l with
        | none =>
          rw [hg] at h
          cases h
        | some g =>
          rw [hg] at h
          cases h
          rfl
      · rw [if_neg hq, decide_eq_true hq]
        refine ⟨fun h => (by cases h), fun same rest h => ?_⟩
        cases h
        rfl

variable [DecidableEq α]

/-- **The scan** finds the group, and gives it its sums. -/
theorem scan_spec (hl : Linked next (next crt) l none) (hfuel : l.length < fuel) (hnd : l.Nodup) :
    (group record priority l = none → scan record next priority fuel crt weight_sum rs = none) ∧
    ∀ same rest, group record priority l = some (same, rest) → ∃ rs' last,
      scan record next priority fuel crt weight_sum rs = some (last, total (wt record) weight_sum same, rs') ∧
      (crt :: same).getLast? = some last ∧ pool rs' same = sums (wt record) weight_sum same ∧
      ∀ y ∉ same, rs' y = rs y := by
  induction l generalizing fuel crt weight_sum rs with
  | nil =>
    obtain ⟨fuel, rfl⟩ : ∃ k, fuel = k + 1 := ⟨fuel - 1, by omega⟩
    refine ⟨fun h => (by cases h), fun same rest h => ?_⟩
    cases h
    refine ⟨rs, crt, ?_, rfl, rfl, fun _ _ => rfl⟩
    rw [scan, show next crt = none from hl]
    rfl
  | cons x l ih =>
    obtain ⟨fuel, rfl⟩ : ∃ k, fuel = k + 1 := ⟨fuel - 1, by omega⟩
    obtain ⟨hx, hl⟩ := hl
    obtain ⟨hxl, hnd⟩ := nodup_cons.1 hnd
    rw [scan, hx, group]
    simp only [bind, Option.bind]
    cases (record x).priority with
    | none => exact ⟨fun _ => rfl, fun same rest h => (by cases h)⟩
    | some q =>
      simp only
      by_cases hqp : q = priority
      · rw [if_pos hqp, if_pos hqp]
        by_cases hsrv : isSrv (record x) = true
        · rw [if_pos hsrv, if_pos hsrv]
          obtain ⟨h1, h2⟩ := ih
            hl
            (Nat.lt_of_succ_lt_succ hfuel) hnd
          cases hg : group record priority l with
          | none => exact ⟨fun _ => h1 hg, fun same rest h => (by cases h)⟩
          | some g =>
            refine ⟨fun h => (by cases h), fun same rest h => ?_⟩
            cases h
            obtain ⟨rs', last, hs, hlast, hsums, hframe⟩ := h2 g.1 g.2 hg
            have hsub : ∀ y ∈ g.1, y ∈ l := fun y hy => by
              rw [(group_spec hg).1]
              exact mem_append_left _ hy
            refine ⟨rs', last, hs, ?_, ?_, fun y hy => ?_⟩
            · rw [getLast?_cons_cons]
              exact hlast
            · rw [sums, pool, map_cons, hframe x fun hm => hxl (hsub x hm), update_self]
              exact congrArg _ hsums
            · rw [mem_cons, not_or] at hy
              rw [hframe y hy.2, update_of_ne hy.1]
        · rw [if_neg hsrv, if_neg hsrv]
          exact ⟨fun _ => rfl, fun same rest h => (by cases h)⟩
      · rw [if_neg hqp, if_neg hqp]
        refine ⟨fun h => (by cases h), fun same rest h => ?_⟩
        cases h
        exact ⟨rs, crt, rfl, rfl, rfl, fun _ _ => rfl⟩

theorem lower_sums_spec (hl : Linked next p l none) (hfuel : l.length < fuel) :
    ∃ rs', lower_sums next taken fuel p rs = some rs' ∧ pool rs' l = lower taken (pool rs l) ∧
      ∀ y ∉ l, rs' y = rs y := by
  have hnd := hl.nodup
  induction l generalizing fuel p rs with
  | nil =>
    obtain ⟨fuel, rfl⟩ : ∃ k, fuel = k + 1 := ⟨fuel - 1, by omega⟩
    obtain rfl : p = none := hl
    exact ⟨rs, rfl, rfl, fun _ _ => rfl⟩
  | cons x l ih =>
    obtain ⟨fuel, rfl⟩ : ∃ k, fuel = k + 1 := ⟨fuel - 1, by omega⟩
    obtain ⟨rfl, hl⟩ := hl
    obtain ⟨hx, hnd⟩ := nodup_cons.1 hnd
    obtain ⟨rs', hs, hp, hframe⟩ := ih hl (Nat.lt_of_succ_lt_succ hfuel) hnd
    refine ⟨rs', hs, ?_, fun y hy => ?_⟩
    · have hsame : pool (Function.update rs x (rs x - taken)) l = pool rs l :=
        pool_congr fun y hy => update_of_ne (fun e => hx (by rw [← e]; exact hy)) _ _
      rw [hsame] at hp
      rw [pool, map_cons, hframe x hx, update_self]
      exact congrArg _ hp
    · rw [mem_cons, not_or] at hy
      rw [hframe y hy.2, update_of_ne hy.1]

/-! ### The new list -/

structure Built (s : State α) : Prop where
  linked : Linked s.next s.head (s.log.map Choice.crt) none
  tail : s.tail = (s.log.map Choice.crt).getLast?

theorem link_log : (link s crt d).log = s.log ++ [⟨crt, d⟩] := by
  unfold link
  split <;> rfl

theorem link_running_sum : (link s crt d).running_sum = s.running_sum := by
  unfold link
  split <;> rfl

theorem link_drawn : (link s crt d).drawn = s.drawn := by
  unfold link
  split <;> rfl

/-- **A node comes behind the last one.** -/
theorem Built.link (h : Built s) (hcrt : crt ∉ s.log.map Choice.crt) (hnext : s.next crt = none) :
    Built (SortSrvs.link s crt d) ∧ ∀ y ∉ s.log.map Choice.crt, (SortSrvs.link s crt d).next y = s.next y := by
  obtain ⟨hl, ht⟩ := h
  have hmap : (s.log ++ [(⟨crt, d⟩ : Choice α)]).map Choice.crt = s.log.map Choice.crt ++ [crt] := map_append
  rcases eq_nil_or_concat' (s.log.map Choice.crt) with he | ⟨front, t, he⟩
  · rw [he] at ht hmap
    have htail : s.tail = none := ht
    unfold SortSrvs.link
    rw [htail]
    refine ⟨⟨?_, ?_⟩, fun _ _ => rfl⟩
    · rw [hmap]
      exact ⟨rfl, hnext⟩
    · rw [hmap]
      rfl
  · rw [he, getLast?_concat] at ht
    have hnd := hl.nodup
    rw [he] at hl hcrt hmap hnd ⊢
    have hfront : t ∉ front := fun hm => (nodup_append.1 hnd).2.2 t hm t mem_cons_self rfl
    have hne : crt ≠ t := fun e => hcrt (mem_append_right _ (by rw [e]; exact mem_cons_self))
    unfold SortSrvs.link
    rw [ht]
    refine ⟨⟨?_, ?_⟩, fun y hy => update_of_ne (fun e => hy ?_) _ _⟩
    · rw [hmap, Linked.append]
      refine ⟨some crt, hl.redirect hfront (some crt), rfl, ?_⟩
      exact (update_of_ne hne _ _).trans hnext
    · rw [hmap, getLast?_concat]
    · rw [e]
      exact mem_append_right _ mem_cons_self

theorem Built.link_clear (h : Built s) (hcrt : crt ∉ s.log.map Choice.crt) :
    { SortSrvs.link s crt d with next := Function.update (SortSrvs.link s crt d).next crt none } =
      SortSrvs.link { s with next := Function.update s.next crt none } crt d := by
  unfold SortSrvs.link
  cases ht : s.tail with
  | none => rfl
  | some t =>
    have hne : crt ≠ t := fun e => hcrt (by rw [e]; exact mem_of_mem_getLast? (h.tail.symm.trans ht))
    simp only [update_comm hne]

/-! ### The records of one priority -/

/-- The nodes `L` from `rd` on are to be ordered. -/
structure Orders (s : State α) (rd : α) (L : List α) : Prop where
  built : Built s
  linked : Linked s.next (some rd) L none
  apart : (s.log.map Choice.crt ++ L).Nodup

/-- The node `crt` was taken out of the nodes `L`, which leaves `L'` from `rd'` on. -/
structure Taken (next next' : α → Option α) (crt rd' : α) (L L' : List α) : Prop where
  perm : L.Perm (crt :: L')
  linked : Linked next' (some rd') L' none
  last : next' crt = none
  frame : ∀ y ∉ L, next' y = next y

/-- The last of the nodes in front of `crt` gets the successor of `crt`, or there is none. -/
theorem taken_of_split {A B : List α} {b : Option α} (hl : Linked next (some rd) (A ++ crt :: B) none)
    (hlen : 2 ≤ (A ++ crt :: B).length) (hb : b = A.getLast?) (second : α) (hsecond : next rd = some second) :
    let r := unlink next rd second crt b
    r.2 crt = next crt ∧ Linked r.2 (r.2 crt) B none ∧
      Taken next (Function.update r.2 crt none) crt r.1 (A ++ crt :: B) (A ++ B) := by
  have hnd := hl.nodup
  have hcrt : crt ∉ A ++ B := (nodup_cons.1 (perm_middle.nodup_iff.1 hnd)).1
  have hframe : ∀ y ∉ A ++ crt :: B, y ≠ crt := fun y hy e =>
    hy (mem_append_right _ (by rw [e]; exact mem_cons_self))
  rcases eq_nil_or_concat' A with rfl | ⟨A, z, rfl⟩
  · obtain rfl : b = none := hb
    obtain ⟨hrd, hB⟩ := hl
    cases hrd
    refine ⟨rfl, hB, perm_middle, ?_, update_self .., fun y hy => ?_⟩
    · show Linked (Function.update next rd none) (some second) B none
      rw [← hsecond]
      exact hB.update hcrt none
    · exact update_of_ne (hframe y hy) _ _
  · obtain rfl : b = some z := hb.trans (getLast?_concat ..)
    have hassoc : A ++ [z] ++ crt :: B = A ++ z :: crt :: B := by rw [append_assoc]; rfl
    have hzcrt : z ≠ crt := fun e => hcrt (mem_append_left _ (by rw [← e]; exact mem_concat_self))
    have hself : Function.update next z (next crt) crt = next crt := update_of_ne hzcrt.symm _ _
    have hB : z ∉ B := fun hm => by
      rw [hassoc] at hnd
      exact (nodup_cons.1 (nodup_append.1 hnd).2.1).1 (mem_cons_of_mem _ hm)
    refine ⟨hself, ?_, perm_middle, ?_, update_self .., fun y hy => ?_⟩
    · show Linked (Function.update next z (next crt)) (Function.update next z (next crt) crt) B none
      rw [hself]
      exact hl.middle.2.update hB _
    · have := (hassoc ▸ hl).remove (hassoc ▸ hnd)
      rw [append_assoc] at hcrt ⊢
      exact this.update hcrt none
    · refine (update_of_ne (hframe y hy) _ _).trans (update_of_ne (fun e => hy ?_) _ _)
      rw [e]
      exact mem_append_left _ mem_concat_self

/-- **One turn**: the node that `order` chooses is taken out of the list. -/
theorem order_turn {L : List α} (hl : Linked s.next (some rd) L none) (hlen : 2 ≤ L.length)
    (hfuel : L.length < fuel) : ∃ crt draw rd' next' rs' L', Taken s.next next' crt rd' L L' ∧
      (∀ turns, order_loop record rand fuel (turns + 1) rd weight_sum s =
        order_loop record rand fuel turns rd' (weight_sum - (wt record crt).toUInt32)
          (link { s with next := next', running_sum := rs', drawn := s.drawn + 1 } crt draw)) ∧
      ∀ k, order (wt record) rand (k + 1) s.drawn weight_sum (pool s.running_sum L) =
        ⟨crt, draw⟩ :: order (wt record) rand k (s.drawn + 1) (weight_sum - (wt record crt).toUInt32)
          (pool rs' L') := by
  obtain ⟨second, hsecond⟩ : ∃ second, s.next rd = some second := by
    match L, hl, hlen with
    | y :: second :: L, hl, _ =>
      obtain rfl := some_inj.1 hl.1
      exact ⟨second, hl.2.1⟩
  obtain ⟨hnone, hsome⟩ := find_spec (r := rand s.drawn weight_sum) hl hfuel none
  cases hs : search (rand s.drawn weight_sum) (pool s.running_sum L) with
  | none =>
    obtain ⟨b, hfind⟩ := hnone hs
    obtain ⟨y, L, rfl⟩ := exists_cons_of_length_pos (lt_of_lt_of_le Nat.zero_lt_two hlen)
    obtain rfl := some_inj.1 hl.1
    obtain ⟨-, hB, ht⟩ := taken_of_split (A := []) (B := L) (b := none) hl hlen rfl second hsecond
    obtain ⟨rs', hlow, hpool, -⟩ := @lower_sums_spec _ _ s.running_sum _ _ _ (wt record rd) _ hB
      (Nat.lt_of_succ_lt hfuel)
    refine ⟨rd, some (rand s.drawn weight_sum, none), second, _, rs', L, ht, fun turns => ?_, fun k => ?_⟩
    · rw [order_loop, hsecond]
      simp only [hfind, bind, Option.bind, getD_none, isSome_none]
      simp only [Bool.false_eq_true, if_false, hlow]
      rfl
    · rw [pool, map_cons]
      rw [order_missed (by simpa [pool] using hlen) hs, hpool]
      rfl
  | some found =>
    obtain ⟨front, crt, back⟩ := found
    obtain ⟨A, B, rfl, rfl, rfl, hfind⟩ := hsome front crt back hs
    have hb : (if A = [] then none else A.getLast?) = A.getLast? := by
      split_ifs with h
      · rw [h]
        rfl
      · rfl
    rw [hb] at hfind
    obtain ⟨hself, hB, ht⟩ := taken_of_split (b := A.getLast?) hl hlen rfl second hsecond
    have hBlen : B.length < fuel := by
      rw [length_append, length_cons] at hfuel
      omega
    obtain ⟨rs', hlow, hpool, hframe⟩ := @lower_sums_spec _ _ _ _ _ _ (wt record crt) _ hB hBlen
    have hA : ∀ y ∈ A, rs' y = s.running_sum y := fun y hy => hframe y fun hm =>
      (nodup_append.1 hl.nodup).2.2 y hy y (mem_cons_of_mem _ hm) rfl
    refine ⟨crt, some (rand s.drawn weight_sum, some crt), _, _, rs', A ++ B, ht, fun turns => ?_, fun k => ?_⟩
    · rw [order_loop, hsecond]
      simp only [hfind, bind, Option.bind, getD_some, isSome_some, if_true]
      simp only [hlow]
    · rw [order_found (by simpa [pool] using hlen) hs, ← hpool, ← pool_congr hA, pool, pool, ← map_append]
      rfl

theorem Orders.link {L L' : List α} {rd' : α} {next' : α → Option α} {rs' : α → UInt16} {n : ℕ}
    (h : Orders s rd L) (ht : Taken s.next next' crt rd' L L') :
    let s' := SortSrvs.link { s with next := next', running_sum := rs', drawn := n } crt d
    Orders s' rd' L' ∧ (s'.log.map Choice.crt ++ L').Perm (s.log.map Choice.crt ++ L) ∧
      ∀ y ∉ s.log.map Choice.crt ++ L, s'.next y = s.next y := by
  obtain ⟨⟨hl, htail⟩, -, hnd⟩ := h
  have hperm : (s.log.map Choice.crt ++ L).Perm (s.log.map Choice.crt ++ crt :: L') := ht.perm.append_left _
  have hnd' := hperm.nodup_iff.1 hnd
  have hoff : ∀ y ∈ s.log.map Choice.crt, next' y = s.next y := fun y hy => ht.frame y fun hm =>
    (nodup_append.1 hnd).2.2 y hy y hm rfl
  have hcrt : crt ∉ s.log.map Choice.crt := fun hm => (nodup_append.1 hnd').2.2 crt hm crt mem_cons_self rfl
  have hbuilt : Built { s with next := next', running_sum := rs', drawn := n } := ⟨hl.congr hoff, htail⟩
  obtain ⟨hb, hframe⟩ := hbuilt.link (d := d) hcrt ht.last
  have hlog : ((SortSrvs.link { s with next := next', running_sum := rs', drawn := n } crt d).log.map Choice.crt) =
      s.log.map Choice.crt ++ [crt] := by
    rw [link_log, map_append]
    rfl
  have hall : ((s.log.map Choice.crt ++ [crt]) ++ L').Perm (s.log.map Choice.crt ++ L) := by
    rw [append_assoc]
    exact hperm.symm
  refine ⟨⟨hb, ?_, ?_⟩, ?_, fun y hy => ?_⟩
  · refine ht.linked.congr fun y hy => hframe y fun hm => ?_
    exact (nodup_append.1 hnd').2.2 y hm y (mem_cons_of_mem _ hy) rfl
  · rw [hlog]
    exact hall.nodup_iff.2 hnd
  · rw [hlog]
    exact hall
  · rw [mem_append, not_or] at hy
    exact (hframe y hy.1).trans (ht.frame y hy.2)

/-- **The loop that orders the records of one priority**, with the last of them put behind the others. -/
theorem order_loop_spec {k : ℕ} {L : List α} (h : Orders s rd L) (hk : L.length = k + 1) (hturns : k < turns)
    (hfuel : L.length < fuel) : ∃ last s', order_loop record rand fuel turns rd weight_sum s = some (last, s') ∧
      Built (link s' last none) ∧
      (link s' last none).log = s.log ++ order (wt record) rand k s.drawn weight_sum (pool s.running_sum L) ∧
      (link s' last none).drawn = s.drawn + k ∧
      ((link s' last none).log.map Choice.crt).Perm (s.log.map Choice.crt ++ L) ∧
      ∀ y ∉ s.log.map Choice.crt ++ L, (link s' last none).next y = s.next y := by
  induction k generalizing s rd L weight_sum turns with
  | zero =>
    obtain ⟨turns, rfl⟩ : ∃ t, turns = t + 1 := ⟨turns - 1, by omega⟩
    obtain ⟨y, rfl⟩ := length_eq_one_iff.1 hk
    obtain ⟨hrd, hnext⟩ := h.linked
    cases hrd
    have hrdlog : rd ∉ s.log.map Choice.crt := fun hm => (nodup_append.1 h.apart).2.2 rd hm rd mem_cons_self rfl
    obtain ⟨hb, hframe⟩ := h.built.link (d := none) hrdlog hnext
    refine ⟨rd, s, ?_, hb, link_log, link_drawn, ?_, fun y hy => hframe y fun hm => hy ?_⟩
    · rw [order_loop, show s.next rd = none from hnext]
    · rw [link_log, map_append]
      exact .refl _
    · exact mem_append_left _ hm
  | succ k ih =>
    obtain ⟨turns, rfl⟩ : ∃ t, turns = t + 1 := ⟨turns - 1, by omega⟩
    obtain ⟨crt, draw, rd', next', rs', L', ht, hloop, horder⟩ :=
      order_turn h.linked (by omega) hfuel
    have hlen := ht.perm.length_eq
    rw [length_cons] at hlen
    obtain ⟨hs, hperm, hframe⟩ := @Orders.link _ s _ _ draw _ _ _ _ _ rs' (s.drawn + 1) h ht
    obtain ⟨last, s', hrun, hb, hlog, hdrawn, hperm', hframe'⟩ := ih
      hs (by omega) (Nat.lt_of_succ_lt_succ hturns) (by omega)
    refine ⟨last, s', (hloop turns).trans hrun, hb, ?_, ?_, hperm'.trans hperm, fun y hy => ?_⟩
    · rw [hlog, link_log, link_running_sum, link_drawn, append_assoc, horder]
      rfl
    · rw [hdrawn, link_drawn]
      show s.drawn + 1 + k = s.drawn + (k + 1)
      omega
    · exact (hframe' y fun hm => hy (hperm.mem_iff.1 hm)).trans (hframe y hy)

/-! ### All records -/

/-- The nodes `l` from `p` on are to be sorted. -/
structure Sorts (s : State α) (p : Option α) (l : List α) : Prop where
  built : Built s
  linked : Linked s.next p l none
  apart : (s.log.map Choice.crt ++ l).Nodup

theorem Sorts.other (h : Sorts s (some rd) (rd :: l)) :
    Sorts { s with next := Function.update s.next rd none } (s.next rd) l := by
  obtain ⟨⟨hl, htail⟩, hlinked, hnd⟩ := h
  obtain ⟨hrd, hnd'⟩ := nodup_cons.1 (perm_middle.nodup_iff.1 hnd)
  rw [mem_append, not_or] at hrd
  exact ⟨⟨hl.update hrd.1 _, htail⟩, hlinked.2.update hrd.2 _, hnd'⟩

theorem sort_loop_srv (hrd : isSrv (record rd) = true) :
    sort_loop record rand fuel (turns + 1) (some rd) s = (alone record rd (s.next rd)).bind fun a =>
      if a = true then
        sort_loop record rand fuel turns (s.next rd)
          { link s rd none with next := Function.update (link s rd none).next rd none }
      else (scan record s.next (prio record rd) fuel rd (wt record rd).toUInt32
          (Function.update s.running_sum rd (wt record rd))).bind fun g =>
        (order_loop record rand fuel fuel rd g.2.1
          { s with next := Function.update s.next g.1 none, running_sum := g.2.2 }).bind fun r =>
        sort_loop record rand fuel turns (s.next g.1) (link r.2 r.1 none) := by
  rw [sort_loop, if_pos hrd]
  cases s.next rd <;> rfl

/-- **One group.** -/
theorem Sorts.group (h : Sorts s (some rd) (rd :: l)) (hrd : isSrv (record rd) = true)
    (hg : group record (prio record rd) l = some (same, rest)) (hfuel : l.length + 1 < fuel) : ∃ s',
      (∀ turns, sort_loop record rand fuel (turns + 1) (some rd) s =
        sort_loop record rand fuel turns rest.head? s') ∧
      s'.log = s.log ++ order (wt record) rand same.length s.drawn (total (wt record) 0 (rd :: same))
        (sums (wt record) 0 (rd :: same)) ∧
      s'.drawn = s.drawn + same.length ∧ Sorts s' rest.head? rest := by
  obtain ⟨hb, hlinked, hnd⟩ := h
  obtain ⟨rfl, hsame, -⟩ := group_spec hg
  have halone := (alone_spec).2 same rest hg
  rw [← hlinked.2.head] at halone
  have hrdlog : rd ∉ s.log.map Choice.crt := fun hm => (nodup_append.1 hnd).2.2 rd hm rd mem_cons_self rfl
  by_cases he : same = []
  · subst he
    -- the record is alone
    have hnext : s.next rd = rest.head? := hlinked.2.head
    have hrest : rd ∉ rest := (nodup_cons.1 (nodup_append.1 hnd).2.1).1
    have h0 : Built { s with next := Function.update s.next rd none } := ⟨hb.linked.update hrdlog _, hb.tail⟩
    obtain ⟨hb', hframe⟩ := h0.link (d := none) hrdlog (update_self ..)
    refine ⟨link { s with next := Function.update s.next rd none } rd none, fun turns => ?_, ?_, ?_, hb', ?_, ?_⟩
    · rw [sort_loop_srv hrd, halone, bind_some, decide_eq_true rfl, if_pos rfl, hnext, hb.link_clear hrdlog]
    · rw [link_log, order_last (by simp [sums])]
      rfl
    · exact link_drawn
    · rw [← hnext]
      refine hlinked.2.congr fun y hy => (hframe y fun hm => ?_).trans (update_of_ne (fun e => ?_) _ _)
      · exact (nodup_append.1 hnd).2.2 y hm y (mem_cons_of_mem _ hy) rfl
      · exact hrest (by rw [← e]; exact hy)
    · rw [link_log, map_append, append_assoc]
      exact hnd
  · -- the group is found, and taken off the list
    have hnd' := (nodup_append.1 hnd).2.1
    rw [← cons_append] at hnd hnd' hlinked
    obtain ⟨hndg, -, hgr⟩ := nodup_append.1 hnd'
    obtain ⟨hrdsame, hndsame⟩ := nodup_cons.1 hndg
    obtain ⟨-, hscan⟩ := @scan_spec _ _ _
      (Function.update s.running_sum rd (wt record rd)) _ _ _ (prio record rd) _ _ hlinked.2
      (Nat.lt_of_succ_lt hfuel) (nodup_cons.1 hnd').2
    obtain ⟨rs', last, hrun, hlast, hsums, hframe⟩ := hscan same rest hg
    obtain ⟨front, hsplit⟩ : ∃ front, rd :: same = front ++ [last] := by
      obtain ⟨front, hf⟩ := getLast?_eq_some_iff.1 hlast
      exact ⟨front, hf⟩
    have hzero : (0 : UInt32) + (wt record rd).toUInt32 = (wt record rd).toUInt32 := UInt32.zero_add _
    have hpool : pool rs' (rd :: same) = sums (wt record) 0 (rd :: same) := by
      rw [pool, map_cons, hframe rd hrdsame, update_self, sums, hzero, UInt16.toUInt16_toUInt32]
      exact congrArg _ hsums
    have htotal : total (wt record) (wt record rd).toUInt32 same = total (wt record) 0 (rd :: same) := by
      rw [total, total, foldl_cons, hzero]
    obtain ⟨r, hgroup, hrest⟩ := Linked.append.1 hlinked
    have hr : s.next last = rest.head? := by
      rw [hsplit] at hgroup
      rw [hgroup.next_last, hrest.head]
    have hlastmem : last ∈ rd :: same := by
      rw [hsplit]
      exact mem_concat_self
    have hlog : last ∉ s.log.map Choice.crt := fun hm =>
      (nodup_append.1 hnd).2.2 last hm last (mem_append_left _ hlastmem) rfl
    have horders : Orders { s with next := Function.update s.next last none, running_sum := rs' } rd (rd :: same) := by
      refine ⟨⟨hb.linked.update hlog _, hb.tail⟩, ?_, ?_⟩
      · show Linked (Function.update s.next last none) (some rd) (rd :: same) none
        rw [hsplit] at hgroup hndg ⊢
        exact hgroup.redirect (fun hm => (nodup_append.1 hndg).2.2 last hm last mem_cons_self rfl) _
      · rw [← append_assoc] at hnd
        exact (nodup_append.1 hnd).1
    have hlen : (rd :: same).length = same.length + 1 := rfl
    rw [length_append] at hfuel
    obtain ⟨rd', s', hloop, hb', hlog', hdrawn, hperm, hoff⟩ := @order_loop_spec
      _ _ _ _ fuel fuel _ _ _ _ _ horders hlen (by omega)
      (by omega)
    refine ⟨link s' rd' none, fun turns => ?_, ?_, hdrawn, hb', ?_, ?_⟩
    · rw [sort_loop_srv hrd, halone, bind_some, decide_eq_false he, if_neg Bool.false_ne_true, hrun,
        bind_some, htotal, hloop, bind_some, hr]
    · rw [hlog', ← hpool]
    · rw [← hrest.head]
      refine hrest.congr fun y hy => (hoff y fun hm => ?_).trans (update_of_ne (fun e => ?_) _ _)
      · rcases mem_append.1 hm with hm | hm
        · exact (nodup_append.1 hnd).2.2 y hm y (mem_append_right _ hy) rfl
        · exact hgr y hm y hy rfl
      · exact hgr last hlastmem y hy e.symm
    · refine Perm.nodup ?_ hnd
      rw [← append_assoc]
      exact (hperm.append_right rest).symm

/-- **The list-level `sort` is what happens in memory.** -/
theorem sort_loop_refines {n : ℕ} (h : Sorts s p l) (hn : s.drawn = n) (hturns : l.length < turns)
    (hfuel : l.length < fuel) :
    (sort record rand n l = none → sort_loop record rand fuel turns p s = none) ∧
    ∀ choices, sort record rand n l = some choices →
      ∃ s', sort_loop record rand fuel turns p s = some s' ∧ s'.log = s.log ++ choices ∧ Built s' := by
  induction n, l using sort.induct record generalizing s p turns with
  | case1 n =>
    obtain ⟨turns, rfl⟩ : ∃ t, turns = t + 1 := ⟨turns - 1, by omega⟩
    obtain rfl : p = none := h.linked
    rw [sort]
    refine ⟨fun h => (by cases h), fun choices hc => ?_⟩
    cases hc
    exact ⟨s, rfl, (append_nil _).symm, h.built⟩
  | case2 n x l hx hg =>
    obtain ⟨turns, rfl⟩ : ∃ t, turns = t + 1 := ⟨turns - 1, by omega⟩
    obtain ⟨rfl, hl⟩ := h.linked
    rw [sort_none hx hg, sort_loop_srv hx, hl.head]
    refine ⟨fun _ => ?_, fun choices hc => (by cases hc)⟩
    have hnd := (nodup_cons.1 (nodup_append.1 h.apart).2.1).2
    cases ha : alone record x l.head? with
    | none => rfl
    | some a =>
      have ha' : ¬ a = true := fun e => alone_spec.1 hg (ha.trans (congrArg some e))
      rw [bind_some, if_neg ha', (scan_spec hl (Nat.lt_of_succ_lt hfuel) hnd).1 hg]
      rfl
  | case3 n x l hx same rest hg ih =>
    obtain ⟨turns, rfl⟩ : ∃ t, turns = t + 1 := ⟨turns - 1, by omega⟩
    obtain rfl : p = some x := h.linked.1
    obtain ⟨s', hloop, hlog, hdrawn, hs'⟩ := h.group hx hg hfuel
    have hle : rest.length ≤ l.length := by
      rw [(group_spec hg).1, length_append]
      exact Nat.le_add_left _ _
    rw [length_cons] at hturns hfuel
    obtain ⟨h1, h2⟩ := @ih _ _ turns hs' (hdrawn.trans (by rw [hn])) (by omega) (by omega)
    rw [sort_some hx hg, hloop]
    refine ⟨fun hc => h1 (map_eq_none_iff.1 hc), fun choices hc => ?_⟩
    obtain ⟨tail, ht, rfl⟩ := map_eq_some_iff.1 hc
    obtain ⟨s₂, hrun, hlog₂, hb⟩ := h2 tail ht
    refine ⟨s₂, hrun, ?_, hb⟩
    rw [hlog₂, hlog, hn, append_assoc]
  | case4 n x l hx ih =>
    obtain ⟨turns, rfl⟩ : ∃ t, turns = t + 1 := ⟨turns - 1, by omega⟩
    obtain rfl : p = some x := h.linked.1
    rw [length_cons] at hturns hfuel
    rw [sort_other hx, sort_loop, if_neg hx]
    exact ih h.other hn (by omega) (by omega)

/-- **What is promised of `sort_srvs`**: the list that it leaves ends, and has the SRV records, in the order of
their priorities, each draw as the weights say. -/
def Promised (record : α → Rdata) (l : List α)
    (result : Option ((α → Option α) × Option α × List (Choice α))) : Prop :=
  ∃ next head choices, result = some (next, head, choices) ∧ Linked next head (choices.map Choice.crt) none ∧
    Chosen record l choices

/-- Servers of one priority whose weights are large. -/
def heavy (x : ℕ) : Rdata := .T_SRV ⟨1, 40000, 5060, [chr 'a' + UInt8.ofNat x, 0], 3⟩

def heavy_next (x : ℕ) : Option ℕ := if x < 2 then some (x + 1) else none

theorem heavy_ordered : Ordered heavy [1, 2] := by
  unfold Ordered
  decide

end OpenSips.Resolve.SortSrvs
