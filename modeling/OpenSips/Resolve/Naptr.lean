import OpenSips.Lib.NextList
import OpenSips.Resolve.Parsers

/-!
# OpenSips.Resolve.Naptr — the NAPTR records in memory (`core/resolve/parsers.c`)

`filter_and_sort_naptr` on the nodes of its list: each one is taken off, and put into the list of the
usable records or into the list of the others.
-/

namespace OpenSips.Resolve

open List Function

open Lib (Linked)

namespace Naptr

/-- `struct rdata`, as far as `filter_and_sort_naptr` reads it: the data of a NAPTR record may be missing. -/
structure Node where
  type : UInt16
  rdata : Option NaptrRdata

/-- The record without its place in memory. -/
def Node.record (a : Node) : Rdata :=
  if a.type = T_NAPTR then
    match a.rdata with
    | some n => .T_NAPTR n
    | none => .other a.type.toNat none
  else .other a.type.toNat none

/-- The variables of `filter_and_sort_naptr`, and the `next` fields. -/
structure Sorting (α : Type) where
  next : α → Option α
  head : Option α
  last : Option α
  out : Option α

section Model

variable {α : Type} (node : α → Node)

/-- The loop that looks for the node to insert behind. -/
def place (next : α → Option α) (prio : ℕ) : ℕ → α → Option α → Option α
  | 0, _, _ => none
  | _ + 1, itp, none => some itp
  | fuel + 1, itp, some it =>
    match next it with
    | none => some itp
    | some next' => do
      let n ← (node it).rdata
      if prio ≤ naptr_prio n then some itp else place next prio fuel it (some next')

variable [DecidableEq α]

/-- A usable record is added to the list according to its order. -/
def add (fuel : ℕ) (s : Sorting α) (l : α) (naptr : NaptrRdata) : Option (Sorting α) :=
  let prio := naptr_prio naptr
  match s.head with
  | none => some { s with next := Function.update s.next l none, head := some l, last := some l }
  | some head => do
    let first ← (node head).rdata
    if prio ≤ naptr_prio first then
      some { s with next := Function.update s.next l (some head), head := some l }
    else
      let last ← s.last
      let final ← (node last).rdata
      if naptr_prio final ≤ prio then
        some { s with next := Function.update (Function.update s.next l none) last (some l), last := some l }
      else
        let itp ← place node s.next prio fuel head (s.next head)
        some { s with next := Function.update (Function.update s.next l (s.next itp)) itp (some l) }

/-- `skip0` -/
def skip0 (s : Sorting α) (l : α) : Sorting α :=
  { s with next := Function.update s.next l s.out, out := some l }

def filter_loop (cfg : Config) (is_sips : Bool) (fuel : ℕ) : ℕ → Option α → Sorting α → Option (Sorting α)
  | 0, _, _ => none
  | _ + 1, none, s => some s
  | turns + 1, some l, s =>
    let ln := s.next l
    if (node l).type ≠ T_NAPTR then filter_loop cfg is_sips fuel turns ln (skip0 s l)
    else
      match (node l).rdata with
      -- "null rdata"
      | none => filter_loop cfg is_sips fuel turns ln (skip0 s l)
      | some naptr =>
        if naptr_usable cfg is_sips naptr then do
          let s ← add node fuel s l naptr
          filter_loop cfg is_sips fuel turns ln s
        else filter_loop cfg is_sips fuel turns ln (skip0 s l)

/-- `filter_and_sort_naptr`: the `next` fields, `*head_p` and `*filtered_p` when it returns. -/
def filter_and_sort_naptr (cfg : Config) (is_sips : Bool) (fuel : ℕ) (next : α → Option α) (head : Option α) :
    Option ((α → Option α) × Option α × Option α) := do
  let s ← filter_loop node cfg is_sips fuel fuel head ⟨next, none, none, none⟩
  some (s.next, s.head, s.out)

end Model

/-! ### The order -/

def Sorted (vs : List NaptrRdata) : Prop := vs.Pairwise fun n m => naptr_prio n ≤ naptr_prio m

/-- The order and the preference of records as numbers of sixteen bits. -/
def Before (n m : NaptrRdata) : Prop := n.order < m.order ∨ n.order = m.order ∧ n.pref ≤ m.pref

theorem naptr_prio_le {n m : NaptrRdata} : naptr_prio n ≤ naptr_prio m ↔ Before n m := by
  have h1 := n.pref.toNat_lt
  have h2 := m.pref.toNat_lt
  rw [Before, UInt16.lt_iff_toNat_lt, UInt16.le_iff_toNat_le, ← UInt16.toNat_inj]
  unfold naptr_prio
  constructor
  · intro h
    omega
  · rintro (h | ⟨h, h'⟩)
    · omega
    · omega

variable {cfg : Config} {is_sips : Bool} {n v : NaptrRdata} {vs : List NaptrRdata}

theorem insert_between_sorted (h : Sorted vs) (hlast : ∀ m ∈ vs.getLast?, naptr_prio n ≤ naptr_prio m) :
    Sorted (insert_between n vs) := by
  induction vs with
  | nil => exact pairwise_singleton _ _
  | cons it rest ih =>
    obtain ⟨hit, hrest⟩ := pairwise_cons.1 h
    have hfront : naptr_prio n ≤ naptr_prio it → Sorted (n :: it :: rest) := by
      intro hle
      refine pairwise_cons.2 ⟨fun m hm => ?_, h⟩
      rcases mem_cons.1 hm with rfl | hm
      · exact hle
      · exact hle.trans (hit m hm)
    cases rest with
    | nil => exact hfront (hlast it rfl)
    | cons it' rest =>
      rw [insert_between]
      split_ifs with hle
      · exact hfront hle
      · refine pairwise_cons.2 ⟨fun m hm => ?_, ih hrest fun m hm => hlast m ?_⟩
        · rcases mem_insert_between.1 hm with rfl | hm
          · exact le_of_not_ge hle
          · exact hit m hm
        · rw [getLast?_cons_cons]
          exact hm

theorem insert_naptr_sorted (h : Sorted vs) : Sorted (insert_naptr vs n) := by
  cases vs with
  | nil => exact pairwise_singleton _ _
  | cons head rest =>
    obtain ⟨hhead, hrest⟩ := pairwise_cons.1 h
    rw [insert_naptr]
    split_ifs with h1 h2
    · refine pairwise_cons.2 ⟨fun m hm => ?_, h⟩
      rcases mem_cons.1 hm with rfl | hm
      · exact h1
      · exact h1.trans (hhead m hm)
    · -- the last record is above all others
      refine pairwise_append.2 ⟨h, pairwise_singleton _ _, fun m hm k hk => ?_⟩
      rw [mem_singleton.1 hk]
      refine le_trans ?_ h2
      rw [getLastD_cons]
      rcases eq_nil_or_concat' rest with rfl | ⟨front, final, rfl⟩
      · rw [mem_singleton.1 hm]
        exact le_rfl
      · rw [getLastD_concat]
        rw [← cons_append] at h hm
        rcases mem_append.1 hm with hm | hm
        · exact (pairwise_append.1 h).2.2 m hm final mem_cons_self
        · rw [mem_singleton.1 hm]
    · refine pairwise_cons.2 ⟨fun m hm => ?_, insert_between_sorted hrest fun m hm => ?_⟩
      · rcases mem_insert_between.1 hm with rfl | hm
        · exact le_of_not_ge h1
        · exact hhead m hm
      · rw [getLastD_cons, getLastD_eq_getLast?, hm] at h2
        exact le_of_not_ge h2

/-! ### The list in memory -/

section Memory

variable {α : Type} {node : α → Node} {next : α → Option α} {s s' : Sorting α} {x : α} {found l rest outs : List α} {fuel turns : ℕ}

/-- The nodes `l` have the data `vs`. -/
def Holds (node : α → Node) (l : List α) (vs : List NaptrRdata) : Prop :=
  l.map (fun x => (node x).rdata) = vs.map some

theorem Holds.cons_iff {a : α} : Holds node (a :: l) (v :: vs) ↔ (node a).rdata = some v ∧ Holds node l vs := by
  rw [Holds, map_cons, map_cons, cons.injEq]
  rfl

theorem Holds.length_eq (h : Holds node l vs) : l.length = vs.length := by
  have := congrArg List.length h
  rwa [length_map, length_map] at this

theorem Holds.append {l' : List α} {vs' : List NaptrRdata} (h : Holds node l vs) (h' : Holds node l' vs') :
    Holds node (l ++ l') (vs ++ vs') := by
  rw [Holds, map_append, map_append, h, h']

theorem Holds.last (h : Holds node l vs) (hx : x ∈ l.getLast?) : (node x).rdata = vs.getLast? := by
  have := congrArg List.getLast? h
  rw [getLast?_map, getLast?_map, hx] at this
  cases hv : vs.getLast? with
  | none =>
    rw [hv] at this
    cases this
  | some v =>
    rw [hv] at this
    exact Option.some_inj.1 this

/-- **Where the loop stops**: behind this node the record comes to the place that `insert_between` gives it. -/
theorem place_spec {itp : α} {it : Option α} (hit : Linked next it rest none) (hv : (node itp).rdata = some v)
    (hvs : Holds node rest vs) (hx : (node x).rdata = some n) (hfuel : rest.length < fuel) :
    ∃ A y B, place node next (naptr_prio n) fuel itp it = some y ∧ itp :: rest = A ++ y :: B ∧
      Holds node (A ++ y :: x :: B) (v :: insert_between n vs) ∧ (rest ≠ [] → B ≠ []) := by
  induction rest generalizing fuel itp it v vs with
  | nil =>
    obtain ⟨fuel, rfl⟩ := Nat.exists_eq_add_of_lt hfuel
    obtain rfl : vs = [] := map_eq_nil_iff.1 hvs.symm
    obtain rfl : it = none := hit
    refine ⟨[], itp, [], by rw [place], rfl, ?_, fun h => h⟩
    exact Holds.cons_iff.2 ⟨hv, Holds.cons_iff.2 ⟨hx, rfl⟩⟩
  | cons a rest ih =>
    obtain ⟨fuel, rfl⟩ : ∃ k, fuel = k + 1 := ⟨fuel - 1, by omega⟩
    obtain ⟨rfl, hit⟩ := hit
    obtain ⟨w, vs, rfl⟩ : ∃ w ws, vs = w :: ws :=
      exists_cons_of_length_pos (by rw [← hvs.length_eq]; exact Nat.succ_pos _)
    obtain ⟨hw, hvs'⟩ := Holds.cons_iff.1 hvs
    have hhere : Holds node ([] ++ itp :: x :: a :: rest) (v :: n :: w :: vs) :=
      Holds.cons_iff.2 ⟨hv, Holds.cons_iff.2 ⟨hx, hvs⟩⟩
    rw [place]
    cases rest with
    | nil =>
      obtain rfl : vs = [] := map_eq_nil_iff.1 hvs'.symm
      have hend : next a = none := hit
      exact ⟨[], itp, [a], by rw [hend], rfl, hhere, fun _ => cons_ne_nil _ _⟩
    | cons b rest =>
      obtain ⟨w', vs, rfl⟩ : ∃ w ws, vs = w :: ws :=
        exists_cons_of_length_pos (by rw [← hvs'.length_eq]; exact Nat.succ_pos _)
      have hnext : next a = some b := hit.1
      rw [hnext, hw, insert_between]
      change ∃ A y B, (if naptr_prio n ≤ naptr_prio w then some itp
        else place node next (naptr_prio n) fuel a (some b)) = some y ∧ _
      split_ifs with hle
      · exact ⟨[], itp, a :: b :: rest, rfl, rfl, hhere, fun _ => cons_ne_nil _ _⟩
      · rw [← hnext]
        obtain ⟨A, y, B, hp, he, hh, hB⟩ := ih hit hw hvs' (Nat.lt_of_succ_lt_succ hfuel)
        refine ⟨itp :: A, y, B, hp, congrArg (itp :: ·) he, Holds.cons_iff.2 ⟨hv, hh⟩, fun _ => ?_⟩
        exact hB (cons_ne_nil _ _)

variable [DecidableEq α]

/-- The usable records: their nodes, and what they hold. -/
structure Kept (node : α → Node) (s : Sorting α) (found : List α) (vs : List NaptrRdata) : Prop where
  linked : Linked s.next s.head found none
  last : found ≠ [] → s.last = found.getLast?
  holds : Holds node found vs

/-- **One record is added**: to the list of the usable ones, and nothing else is written. -/
theorem add_spec (h : Kept node s found vs) (hx : x ∉ found) (hn : (node x).rdata = some n)
    (hfuel : found.length < fuel) : ∃ s' found', add node fuel s x n = some s' ∧
      Kept node s' found' (insert_naptr vs n) ∧ found'.Perm (x :: found) ∧ s'.out = s.out ∧
      ∀ y, y ∉ x :: found → s'.next y = s.next y := by
  obtain ⟨hl, hlast, hh⟩ := h
  have hoff : ∀ y, y ∉ x :: found → y ≠ x ∧ ∀ z ∈ found, y ≠ z := fun y hy =>
    ⟨fun e => hy (e ▸ mem_cons_self), fun z hz e => hy (e ▸ mem_cons_of_mem _ hz)⟩
  cases found with
  | nil =>
    have hhead : s.head = none := hl
    obtain rfl : vs = [] := map_eq_nil_iff.1 hh.symm
    rw [add, hhead]
    refine ⟨_, [x], rfl, ⟨⟨rfl, ?_⟩, fun _ => rfl, ?_⟩, .refl _, rfl, fun y hy => ?_⟩
    · exact update_self ..
    · exact Holds.cons_iff.2 ⟨hn, rfl⟩
    · exact update_of_ne (hoff y hy).1 _ _
  | cons head found =>
    have hhead : s.head = some head := hl.1
    obtain ⟨w, vs, rfl⟩ : ∃ w ws, vs = w :: ws :=
      exists_cons_of_length_pos (by rw [← hh.length_eq]; exact Nat.succ_pos _)
    obtain ⟨hw, hh'⟩ := Holds.cons_iff.1 hh
    have hlast := hlast (cons_ne_nil _ _)
    rw [add, hhead, insert_naptr]
    simp only [hw, bind, Option.bind]
    by_cases h1 : naptr_prio n ≤ naptr_prio w
    · rw [if_pos h1, if_pos h1]
      refine ⟨_, x :: head :: found, rfl, ⟨?_, fun _ => ?_, ?_⟩, .refl _, rfl, fun y hy => ?_⟩
      · rw [← hhead]
        exact hl.push hx
      · exact hlast.trans getLast?_cons_cons.symm
      · exact Holds.cons_iff.2 ⟨hn, hh⟩
      · exact update_of_ne (hoff y hy).1 _ _
    · rw [if_neg h1, if_neg h1]
      obtain ⟨front, final, he⟩ := (eq_nil_or_concat' (head :: found)).resolve_left (cons_ne_nil _ _)
      have hfinal : (head :: found).getLast? = some final := by
        rw [he]
        exact getLast?_concat ..
      have hdata : (node final).rdata = some ((w :: vs).getLastD w) := by
        rw [hh.last hfinal, getLastD_eq_getLast?, getLast?_cons]
        rfl
      rw [hlast, hfinal]
      simp only [hdata]
      by_cases h2 : naptr_prio ((w :: vs).getLastD w) ≤ naptr_prio n
      · rw [if_pos h2, if_pos h2]
        have hl' := hl
        rw [he] at hl'
        have hfront : final ∉ front := fun hm => (nodup_append.1 hl'.nodup).2.2 _ hm final mem_cons_self rfl
        have hne : ∀ y, y ∉ head :: found → y ≠ final := fun y hy e =>
          hy (e ▸ mem_of_mem_getLast? hfinal)
        refine ⟨_, head :: found ++ [x], rfl, ⟨?_, fun _ => ?_, ?_⟩, perm_append_singleton _ _, rfl,
          fun y hy => ?_⟩
        · show Linked (Function.update (Function.update s.next x none) final (some x)) (some head)
            (head :: found ++ [x]) none
          rw [Linked.append, ← hhead]
          refine ⟨some x, ?_, rfl, ?_⟩
          · rw [he]
            exact (hl'.update (he ▸ hx) none).redirect hfront (some x)
          · rw [update_of_ne (hne x hx), update_self]
            rfl
        · exact (getLast?_concat ..).symm
        · exact hh.append (Holds.cons_iff.2 ⟨hn, rfl⟩)
        · refine (update_of_ne (hne y fun hm => hy (mem_cons_of_mem _ hm)) _ _).trans ?_
          exact update_of_ne (hoff y hy).1 _ _
      · rw [if_neg h2, if_neg h2]
        have hfound : found ≠ [] := by
          rintro rfl
          obtain rfl : vs = [] := map_eq_nil_iff.1 hh'.symm
          exact h2 (le_of_not_ge h1)
        obtain ⟨A, y, B, hp, hsplit, hholds, hB⟩ := place_spec hl.2 hw hh' hn (Nat.lt_of_succ_lt hfuel)
        rw [hp]
        have hmem : y ∈ head :: found := by
          rw [hsplit]
          exact mem_append_right _ mem_cons_self
        refine ⟨_, A ++ y :: x :: B, rfl, ⟨?_, fun _ => ?_, hholds⟩, ?_, rfl, fun z hz => ?_⟩
        · show Linked (Function.update (Function.update s.next x (s.next y)) y (some x)) (some head)
            (A ++ y :: x :: B) none
          rw [hsplit] at hl hx
          rw [← hhead]
          exact hl.insert hl.nodup hx
        · obtain ⟨b, B, rfl⟩ := exists_cons_of_ne_nil (hB hfound)
          show some final = _
          rw [← hfinal, hsplit]
          simp
        · rw [hsplit]
          exact (((Perm.swap x y B).append_left A).trans perm_middle)
        · exact (update_of_ne ((hoff z hz).2 y hmem) _ _).trans (update_of_ne (hoff z hz).1 _ _)

/-- The loop goes on with `rest`: the usable records and the others are two lists, apart from it. -/
structure Sorts (node : α → Node) (s : Sorting α) (p : Option α) (found outs rest : List α)
    (vs : List NaptrRdata) : Prop where
  kept : Kept node s found vs
  others : Linked s.next s.out outs none
  pending : Linked s.next p rest none
  nodup : (found ++ outs ++ rest).Nodup

def usable (cfg : Config) (is_sips : Bool) (node : α → Node) (x : α) : Bool :=
  (node x).type = T_NAPTR ∧ (node x).rdata.any (naptr_usable cfg is_sips)

theorem Sorts.skip {p : Option α} (h : Sorts node s p found outs (x :: rest) vs) :
    Sorts node (skip0 s x) (s.next x) found (x :: outs) rest vs := by
  obtain ⟨⟨hl, hlast, hh⟩, hout, hrest, hnd⟩ := h
  have hnd' : (x :: (found ++ outs ++ rest)).Nodup := perm_middle.nodup_iff.1 hnd
  have hx := (nodup_cons.1 hnd').1
  simp only [mem_append, not_or] at hx
  refine ⟨⟨hl.update hx.1.1 _, hlast, hh⟩, hout.push hx.1.2, hrest.2.update hx.2 _, ?_⟩
  refine Perm.nodup ?_ hnd'
  rw [append_assoc, append_assoc]
  exact (perm_middle (a := x)).symm

theorem Sorts.keep {p : Option α} (h : Sorts node s p found outs (x :: rest) vs)
    (hn : (node x).rdata = some n) (hfuel : found.length < fuel) :
    ∃ s' found', add node fuel s x n = some s' ∧ found'.Perm (x :: found) ∧
      Sorts node s' (s.next x) found' outs rest (insert_naptr vs n) ∧
      ∀ y, y ∉ x :: found → s'.next y = s.next y := by
  obtain ⟨hk, hout, hrest, hnd⟩ := h
  have hnd' : (x :: (found ++ outs ++ rest)).Nodup := perm_middle.nodup_iff.1 hnd
  have hx := (nodup_cons.1 hnd').1
  simp only [mem_append, not_or] at hx
  obtain ⟨s', found', hs', hk', hperm, ho, hframe⟩ := add_spec hk hx.1.1 hn hfuel
  have hoff : ∀ y ∈ outs ++ rest, s'.next y = s.next y := fun y hy => by
    rw [append_assoc, ← cons_append] at hnd'
    exact hframe y fun hm => (nodup_append.1 hnd').2.2 y hm y hy rfl
  refine ⟨s', found', hs', hperm, ⟨hk', ?_, ?_, ?_⟩, hframe⟩
  · rw [ho]
    exact hout.congr fun y hy => hoff y (mem_append_left _ hy)
  · exact hrest.2.congr fun y hy => hoff y (mem_append_right _ hy)
  · refine Perm.nodup ?_ hnd'
    rw [← cons_append, ← cons_append]
    exact (hperm.symm.append_right _).append_right _

/-- The records `l` went from the pending ones to the two lists, and nothing else was written. -/
structure Moved (cfg : Config) (is_sips : Bool) (node : α → Node) (s s' : Sorting α)
    (found outs l found' outs' : List α) : Prop where
  kept : found'.Perm (l.filter (usable cfg is_sips node) ++ found)
  others : outs'.Perm ((l.filter fun x => ! usable cfg is_sips node x) ++ outs)
  frame : ∀ y, y ∉ found ++ outs ++ l → s'.next y = s.next y

theorem Moved.trans {s₁ : Sorting α} {l₁ l₂ found₁ outs₁ found' outs' : List α}
    (h : Moved cfg is_sips node s s₁ found outs l₁ found₁ outs₁)
    (h' : Moved cfg is_sips node s₁ s' found₁ outs₁ l₂ found' outs') :
    Moved cfg is_sips node s s' found outs (l₁ ++ l₂) found' outs' := by
  refine ⟨?_, ?_, fun y hy => (h'.frame y fun hm => hy ?_).trans (h.frame y fun hm => hy ?_)⟩
  · rw [filter_append, append_assoc]
    exact h'.kept.trans ((h.kept.append_left _).trans (perm_append_comm_assoc ..))
  · rw [filter_append, append_assoc]
    exact h'.others.trans ((h.others.append_left _).trans (perm_append_comm_assoc ..))
  · have hfound : y ∈ found₁ → y ∈ l₁ ++ found := fun hm =>
      (mem_append.1 (h.kept.mem_iff.1 hm)).elim
        (fun hm => mem_append_left _ (mem_of_mem_filter hm)) (mem_append_right _)
    have houts : y ∈ outs₁ → y ∈ l₁ ++ outs := fun hm => (mem_append.1 (h.others.mem_iff.1 hm)).elim
        (fun hm => mem_append_left _ (mem_of_mem_filter hm)) (mem_append_right _)
    simp only [mem_append] at hm hfound houts ⊢
    tauto
  · simp only [mem_append] at hm ⊢
    tauto

/-- One turn of the loop. -/
def turn (cfg : Config) (is_sips : Bool) (node : α → Node) (fuel : ℕ) (s : Sorting α) (x : α) :
    Option (Sorting α) :=
  match (node x).record with
  | .T_NAPTR n => if naptr_usable cfg is_sips n then Naptr.add node fuel s x n else some (skip0 s x)
  | _ => some (skip0 s x)

theorem filter_loop_some : filter_loop node cfg is_sips fuel (turns + 1) (some x) s =
    (turn cfg is_sips node fuel s x).bind (filter_loop node cfg is_sips fuel turns (s.next x)) := by
  rw [filter_loop, turn, Node.record]
  by_cases ht : (node x).type = T_NAPTR
  · rw [if_neg (not_not_intro ht), if_pos ht]
    cases (node x).rdata with
    | none => rfl
    | some n =>
      simp only
      split_ifs <;> rfl
  · rw [if_pos ht, if_neg ht]
    rfl

/-- **One turn.** -/
theorem Sorts.turn {p : Option α} (h : Sorts node s p found outs (x :: rest) vs) (hfuel : found.length < fuel) :
    ∃ s' found' outs', turn cfg is_sips node fuel s x = some s' ∧ Sorts node s' (s.next x) found' outs' rest
        (Resolve.filter_and_sort_naptr cfg is_sips vs [(node x).record]) ∧
      Moved cfg is_sips node s s' found outs [x] found' outs' := by
  have hskip : usable cfg is_sips node x = false →
      Moved cfg is_sips node s (skip0 s x) found outs [x] found (x :: outs) := fun hu => by
    refine ⟨?_, ?_, fun y hy => ?_⟩
    · rw [filter_cons_of_neg (by rw [hu]; exact Bool.false_ne_true)]
      rfl
    · rw [filter_cons_of_pos (by rw [hu]; rfl)]
      rfl
    · exact update_of_ne (fun e => hy (mem_append_right _ (mem_singleton.2 e))) _ _
  rw [Naptr.turn]
  by_cases ht : (node x).type = T_NAPTR
  · cases hr : (node x).rdata with
    | none =>
      have hrec : (node x).record = .other T_NAPTR.toNat none := by
        rw [Node.record, if_pos ht, hr, ht]
      rw [hrec]
      refine ⟨_, _, _, rfl, h.skip, hskip ?_⟩
      simp [usable, hr]
    | some n =>
      have hrec : (node x).record = .T_NAPTR n := by
        rw [Node.record, if_pos ht, hr]
      rw [hrec]
      simp only [Resolve.filter_and_sort_naptr]
      by_cases hu : naptr_usable cfg is_sips n = true
      · rw [if_pos hu, if_pos hu]
        obtain ⟨s', found', hs', hperm, hnew, hframe⟩ := h.keep hr hfuel
        have huse : usable cfg is_sips node x = true := by simp [usable, ht, hr, hu]
        refine ⟨s', found', outs, hs', hnew, ⟨?_, ?_, fun y hy => hframe y fun hm => hy ?_⟩⟩
        · rw [filter_cons_of_pos huse]
          exact hperm
        · rw [filter_cons_of_neg (by rw [huse]; exact Bool.false_ne_true)]
          rfl
        · rcases mem_cons.1 hm with rfl | hm
          · exact mem_append_right _ mem_cons_self
          · exact mem_append_left _ (mem_append_left _ hm)
      · rw [if_neg hu, if_neg hu]
        refine ⟨_, _, _, rfl, h.skip, hskip ?_⟩
        simp [usable, hr, hu]
  · have hrec : (node x).record = .other (node x).type.toNat none := by
      rw [Node.record, if_neg ht]
    rw [hrec]
    refine ⟨_, _, _, rfl, h.skip, hskip ?_⟩
    simp [usable, ht]

theorem filter_and_sort_cons (rd : Rdata) (rds : List Rdata) :
    Resolve.filter_and_sort_naptr cfg is_sips vs (rd :: rds) =
      Resolve.filter_and_sort_naptr cfg is_sips (Resolve.filter_and_sort_naptr cfg is_sips vs [rd]) rds := by
  cases rd with
  | T_NAPTR n =>
    simp only [Resolve.filter_and_sort_naptr]
    split_ifs <;> rfl
  | T_SRV srv => simp [Resolve.filter_and_sort_naptr]
  | other type priority => simp [Resolve.filter_and_sort_naptr]

/-- **The whole loop.** -/
theorem Sorts.filter_loop {p : Option α} (h : Sorts node s p found outs rest vs) (hturns : rest.length < turns)
    (hfuel : found.length + rest.length < fuel) : ∃ s' found' outs',
      filter_loop node cfg is_sips fuel turns p s = some s' ∧
      Sorts node s' none found' outs' []
        (Resolve.filter_and_sort_naptr cfg is_sips vs (rest.map fun x => (node x).record)) ∧
      Moved cfg is_sips node s s' found outs rest found' outs' := by
  induction rest generalizing p s found outs vs turns with
  | nil =>
    obtain ⟨turns, rfl⟩ : ∃ k, turns = k + 1 := ⟨turns - 1, by omega⟩
    obtain rfl : p = none := h.pending
    exact ⟨s, found, outs, rfl, h, .refl _, .refl _, fun _ _ => rfl⟩
  | cons x rest ih =>
    obtain ⟨turns, rfl⟩ : ∃ k, turns = k + 1 := ⟨turns - 1, by omega⟩
    obtain rfl : p = some x := h.pending.1
    rw [length_cons] at hturns hfuel
    obtain ⟨s₁, found₁, outs₁, hs₁, h₁, hm₁⟩ := @Sorts.turn _ _ _ _ _ _ _ _ _ _ fuel _ _ h (by omega)
    have hlen : found₁.length ≤ found.length + 1 := by
      have hle := length_filter_le (usable cfg is_sips node) [x]
      rw [hm₁.kept.length_eq, length_append]
      simpa [add_comm] using hle
    obtain ⟨s', found', outs', hs', h', hm'⟩ := ih h₁ (Nat.lt_of_succ_lt_succ hturns) (by omega)
    refine ⟨s', found', outs', ?_, ?_, hm₁.trans hm'⟩
    · rw [filter_loop_some, hs₁]
      exact hs'
    · rw [map_cons, filter_and_sort_cons]
      exact h'

end Memory

/-! ### The records that are kept -/

theorem tolower_letter {a c : UInt8} (h : 97 ≤ a.toNat ∧ a.toNat ≤ 122) :
    tolower c = a ↔ c = a ∨ c.toNat + 32 = a.toNat := by
  have hlt := c.toNat_lt
  unfold tolower
  rw [← UInt8.toNat_inj, ← UInt8.toNat_inj]
  split_ifs with hc
  · have h1 : 65 ≤ c.toNat := hc.1
    have h2 : c.toNat ≤ 90 := hc.2
    rw [UInt8.toNat_add]
    change (c.toNat + 32) % 256 = a.toNat ↔ _
    omega
  · have h1 : ¬ (65 ≤ c.toNat ∧ c.toNat ≤ 90) := hc
    omega

def Service (services : Str) (text : String) : Prop := services.map tolower = text.toList.map chr

/-- What a NAPTR record says that can be used: its flag is `s`, it has a replacement and no regexp, and its
service is SIP, or SIPS, over a transport that is there. -/
structure Qualifies (cfg : Config) (is_sips : Bool) (n : NaptrRdata) : Prop where
  flags : n.flags.map tolower = [chr 's']
  repl : n.repl_len ≠ 0
  regexp : n.regexp = []
  services : if is_sips then
      cfg.USE_TCP ∧ ¬ cfg.tcp_disable ∧ Service n.services "sips+d2t" ∨
        cfg.USE_SCTP ∧ ¬ cfg.sctp_disable ∧ Service n.services "sips+d2s"
    else Service n.services "sip+d2u" ∨ cfg.USE_TCP ∧ ¬ cfg.tcp_disable ∧ Service n.services "sip+d2t" ∨
        cfg.USE_SCTP ∧ ¬ cfg.sctp_disable ∧ Service n.services "sip+d2s"

theorem service_iff {s f : Str} {a : UInt8} {text : String} (htext : text.toList.map chr = f ++ [a])
    (hf : f.map tolower = f) :
    Service s text ↔ s.length = f.length + 1 ∧ strncaseeq s f f.length = true ∧ tolower (last_char s) = a := by
  rw [Service, htext, strncaseeq, decide_eq_true_iff, take_length, hf]
  rcases eq_nil_or_concat' s with rfl | ⟨s, c, rfl⟩
  · simp
  · have hlast : last_char (s ++ [c]) = c := getLastD_concat ..
    rw [hlast, map_append, map_singleton, length_append, length_singleton]
    constructor
    · intro h
      obtain ⟨hs, hc⟩ := append_inj' h rfl
      have hlen : s.length = f.length := by rw [← hs, length_map]
      rw [take_append_of_le_length hlen.ge, ← hlen, take_length]
      exact ⟨rfl, hs, singleton_inj.1 hc⟩
    · rintro ⟨hlen, hs, rfl⟩
      have hlen : s.length = f.length := Nat.succ_injective hlen
      rw [take_append_of_le_length hlen.ge, ← hlen, take_length] at hs
      rw [hs]

theorem tolower_chr {small capital : Char} (h : 97 ≤ (chr small).toNat ∧ (chr small).toNat ≤ 122)
    (hcap : (chr capital).toNat + 32 = (chr small).toNat) (c : UInt8) :
    tolower c = chr small ↔ c = chr capital ∨ c = chr small := by
  rw [tolower_letter h, or_comm, ← hcap, Nat.add_right_cancel_iff, UInt8.toNat_inj]

/-- **The test of the code.** -/
theorem naptr_usable_iff : naptr_usable cfg is_sips n = true ↔ Qualifies cfg is_sips n := by
  have hu := @tolower_chr 'u' 'U' (by decide) (by decide)
  have ht := @tolower_chr 't' 'T' (by decide) (by decide)
  have hs := @tolower_chr 's' 'S' (by decide) (by decide)
  have hflags : n.flags.map tolower = [chr 's'] ↔ n.flags = [chr 's'] ∨ n.flags = [chr 'S'] := by
    match n.flags with
    | [] => simp
    | [c] => simp [hs, or_comm]
    | c :: d :: r => simp
  have hsip : ("sip+d2".toList.map chr).map tolower = "sip+d2".toList.map chr := by decide
  have hsips : ("sips+d2".toList.map chr).map tolower = "sips+d2".toList.map chr := by decide
  have hdu := @service_iff n.services _ (chr 'u') "sip+d2u" rfl hsip
  have hdt := @service_iff n.services _ (chr 't') "sip+d2t" rfl hsip
  have hds := @service_iff n.services _ (chr 's') "sip+d2s" rfl hsip
  have hst := @service_iff n.services _ (chr 't') "sips+d2t" rfl hsips
  have hss := @service_iff n.services _ (chr 's') "sips+d2s" rfl hsips
  have htu : chr 't' ≠ chr 'u' := by decide
  have hsu : chr 's' ≠ chr 'u' := by decide
  rw [naptr_usable, decide_eq_true_iff, ← hflags]
  simp only [← or_assoc, ← hu, ← ht, ← hs]
  constructor
  · rintro ⟨hf, hr, hx, hsv, hp, hno⟩
    refine ⟨hf, hr, hx, ?_⟩
    cases is_sips with
    | false =>
      obtain ⟨-, hlen, hc⟩ := hsv.resolve_right (by simp)
      rw [if_neg Bool.false_ne_true, hdu, hdt, hds]
      rcases hp with (hp | ⟨h1, h2, hp⟩) | ⟨h1, h2, hp⟩
      · exact .inl ⟨hlen, hc, hp⟩
      · exact .inr (.inl ⟨h1, h2, hlen, hc, hp⟩)
      · exact .inr (.inr ⟨h1, h2, hlen, hc, hp⟩)
    | true =>
      obtain ⟨-, hlen, hc⟩ := hsv.resolve_left (by simp)
      rw [if_pos rfl, hst, hss]
      rcases hp with (hp | ⟨h1, h2, hp⟩) | ⟨h1, h2, hp⟩
      · exact absurd ⟨hlen, hp⟩ hno
      · exact .inl ⟨h1, h2, hlen, hc, hp⟩
      · exact .inr ⟨h1, h2, hlen, hc, hp⟩
  · rintro ⟨hf, hr, hx, hsv⟩
    refine ⟨hf, hr, hx, ?_⟩
    cases is_sips with
    | false =>
      rw [if_neg Bool.false_ne_true, hdu, hdt, hds] at hsv
      rcases hsv with ⟨hlen, hc, hp⟩ | ⟨h1, h2, hlen, hc, hp⟩ | ⟨h1, h2, hlen, hc, hp⟩
      · exact ⟨.inl ⟨by simp, hlen, hc⟩, .inl (.inl hp), fun h => by have := hlen.symm.trans h.1; cases this⟩
      · exact ⟨.inl ⟨by simp, hlen, hc⟩, .inl (.inr ⟨h1, h2, hp⟩), fun h => htu (hp.symm.trans h.2)⟩
      · exact ⟨.inl ⟨by simp, hlen, hc⟩, .inr ⟨h1, h2, hp⟩, fun h => hsu (hp.symm.trans h.2)⟩
    | true =>
      rw [if_pos rfl, hst, hss] at hsv
      rcases hsv with ⟨h1, h2, hlen, hc, hp⟩ | ⟨h1, h2, hlen, hc, hp⟩
      · exact ⟨.inr ⟨rfl, hlen, hc⟩, .inl (.inr ⟨h1, h2, hp⟩), fun h => htu (hp.symm.trans h.2)⟩
      · exact ⟨.inr ⟨rfl, hlen, hc⟩, .inr ⟨h1, h2, hp⟩, fun h => hsu (hp.symm.trans h.2)⟩

/-! ### Lists of any length -/

section Lists

variable {α : Type}

def InOrder (node : α → Node) (l : List α) : Prop :=
  l.Pairwise fun x y => ∀ n ∈ (node x).rdata, ∀ m ∈ (node y).rdata, Before n m

theorem Holds.inOrder {node : α → Node} {l : List α} (h : Holds node l vs) (hs : Sorted vs) : InOrder node l := by
  have hs' : (l.map fun x => (node x).rdata).Pairwise fun a b => ∀ n ∈ a, ∀ m ∈ b, Before n m := by
    rw [h, pairwise_map]
    refine hs.imp fun hle n hn m hm => ?_
    cases hn
    cases hm
    exact naptr_prio_le.1 hle
  exact pairwise_map.1 hs'

theorem filter_and_sort_sorted {rds : List Rdata} (h : Sorted vs) :
    Sorted (Resolve.filter_and_sort_naptr cfg is_sips vs rds) := by
  induction rds generalizing vs with
  | nil => exact h
  | cons rd rds ih =>
    rw [filter_and_sort_cons]
    refine ih ?_
    cases rd with
    | T_NAPTR n =>
      rw [Resolve.filter_and_sort_naptr]
      split_ifs
      · exact insert_naptr_sorted h
      · exact h
    | T_SRV srv => exact h
    | other type priority => exact h

variable [DecidableEq α]

/-- **The list-level filter is what happens in memory.** -/
theorem filter_and_sort_refines (node : α → Node) (next : α → Option α) (head : Option α) (l : List α)
    (hl : Linked next head l none) {fuel : ℕ} (hfuel : l.length < fuel) : ∃ next' kept filtered,
      filter_and_sort_naptr node cfg is_sips fuel next head = some (next', kept.head?, filtered.head?) ∧
      Linked next' kept.head? kept none ∧ Linked next' filtered.head? filtered none ∧
      Holds node kept (Resolve.filter_and_sort_naptr cfg is_sips [] (l.map fun x => (node x).record)) ∧
      kept.Perm (l.filter (usable cfg is_sips node)) ∧
      filtered.Perm (l.filter fun x => ! usable cfg is_sips node x) ∧
      ∀ y, y ∉ l → next' y = next y := by
  have hstart : Sorts node ⟨next, none, none, none⟩ head [] [] l [] :=
    ⟨⟨rfl, fun h => absurd rfl h, rfl⟩, rfl, hl, hl.nodup⟩
  obtain ⟨s', kept, filtered, hs', ⟨hk, ho, -, -⟩, hm⟩ := hstart.filter_loop
    hfuel (by simpa using hfuel)
  refine ⟨s'.next, kept, filtered, ?_, ?_, ?_, hk.holds, ?_, ?_, fun y hy => hm.frame y hy⟩
  · rw [filter_and_sort_naptr, hs', ← hk.linked.head, ← ho.head]
    rfl
  · rw [← hk.linked.head]
    exact hk.linked
  · rw [← ho.head]
    exact ho
  · have := hm.kept
    rwa [append_nil] at this
  · have := hm.others
    rwa [append_nil] at this

/-- **Two lists**: whatever the list of records, `filter_and_sort_naptr` makes of its nodes one list of the
records that qualify, in order, and one of the others; both end. -/
theorem filter_and_sort_naptr_sorts (cfg : Config) (is_sips : Bool) (node : α → Node) (next : α → Option α)
    (head : Option α) (l : List α) (fuel : ℕ) (hl : Linked next head l none) (hfuel : l.length < fuel) :
    ∃ next' head_p filtered_p kept filtered,
      filter_and_sort_naptr node cfg is_sips fuel next head = some (next', head_p, filtered_p) ∧
      Linked next' head_p kept none ∧ Linked next' filtered_p filtered none ∧
      (kept ++ filtered).Perm l ∧ InOrder node kept ∧
      ∀ x, x ∈ kept ↔ x ∈ l ∧ (node x).type = T_NAPTR ∧ ∃ n ∈ (node x).rdata, Qualifies cfg is_sips n := by
  obtain ⟨next', kept, filtered, hrun, hk, hf, hholds, hperm, hperm', -⟩ :=
    filter_and_sort_refines node next head l hl hfuel
  refine ⟨next', _, _, kept, filtered, hrun, hk, hf, ?_, ?_, fun x => ?_⟩
  · exact (hperm.append hperm').trans (filter_append_perm _ _)
  · exact hholds.inOrder (filter_and_sort_sorted Pairwise.nil)
  · rw [hperm.mem_iff, mem_filter, usable, decide_eq_true_iff]
    refine and_congr_right fun _ => and_congr_right fun _ => ?_
    cases (node x).rdata with
    | none => simp
    | some n => simp [naptr_usable_iff]

end Lists

/-- Three services of a domain, and a record of another type between them. -/
def three (x : ℕ) : Node :=
  let naptr (order : UInt16) (services : String) : NaptrRdata :=
    ⟨order, 0, [chr 's'], services.toList.map chr, [], [chr 'a', 0], 3⟩
  match x with
  | 1 => ⟨T_NAPTR, some (naptr 20 "SIP+D2U")⟩
  | 2 => ⟨T_A, none⟩
  | 3 => ⟨T_NAPTR, some (naptr 10 "SIPS+D2T")⟩
  | _ => ⟨T_NAPTR, some (naptr 10 "SIP+D2T")⟩

def three_next (x : ℕ) : Option ℕ := if x < 4 then some (x + 1) else none

theorem filter_and_sort_naptr_sorts_three :
    Linked three_next (some 1) [1, 2, 3, 4] none ∧ [1, 2, 3, 4].length < 5 ∧
    ∃ next' head_p filtered_p kept filtered,
      filter_and_sort_naptr three ⟨true, true, false, false, false, false, true⟩ false 5 three_next (some 1) =
        some (next', head_p, filtered_p) ∧
      Linked next' head_p kept none ∧ Linked next' filtered_p filtered none ∧
      (kept ++ filtered).Perm [1, 2, 3, 4] ∧ InOrder three kept ∧
      ∀ x, x ∈ kept ↔ x ∈ [1, 2, 3, 4] ∧ (three x).type = T_NAPTR ∧
        ∃ n ∈ (three x).rdata, Qualifies ⟨true, true, false, false, false, false, true⟩ false n := by
  have hl : Linked three_next (some 1) [1, 2, 3, 4] none := ⟨rfl, rfl, rfl, rfl, rfl⟩
  exact ⟨hl, by decide, filter_and_sort_naptr_sorts _ false three three_next (some 1) [1, 2, 3, 4] 5 hl (by decide)⟩

end Naptr

end OpenSips.Resolve
