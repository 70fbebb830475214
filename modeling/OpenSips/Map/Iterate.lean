import OpenSips.Map.Refine
import OpenSips.Lib.InOrder

/-!
# OpenSips.Map.Iterate — iterators and `map_for_each`

`iterator_next` and `iterator_prev` are mirror images and one definition with the side `d` they go
to; so are `map_first` and `map_last`.  The iterators walk the entries in the order of the keys, in
every shape of the tree.  `map_for_each` looks at `ret_code` on entering a subtree only, so behind a
result that is not zero it still calls its function on every node to whose left it was.
-/

namespace OpenSips.Map

open Lib Lib.AvlTree List

/-! ### The code -/

/-- `while (s->avl_link[d]) s = s->avl_link[d]`. -/
def outermost (d : Bool) (h : Heap) : ℕ → Ref → Option Ref
  | 0, _ => none
  | fuel + 1, s => do
    match (← h s).avl_link d with
    | none => some s
    | some s' => outermost d h fuel s'

/-- The outermost node on side `d`. -/
def map_end (d : Bool) (m : AvlTable) : Option AvlIterator :=
  match m.avl_root with
  | none => some none
  | some r => do return some (← outermost d m.heap (m.avl_count + 1) r)

/-- `map_first`. -/
def map_first (m : AvlTable) : Option AvlIterator := map_end false m

/-- `map_last`. -/
def map_last (m : AvlTable) : Option AvlIterator := map_end true m

/-- `for (p = it->node, q = p->avl_parent; ; p = q, q = q->avl_parent)`, which ends above the root
or above a link on side `d`. -/
def climb (d : Bool) (h : Heap) : ℕ → Ref → Option Ref → Option AvlIterator
  | 0, _, _ => none
  | fuel + 1, p, q =>
    match q with
    | none => some none
    | some q => do
      let n ← h q
      if n.avl_link d = some p then some (some q) else climb d h fuel q n.avl_parent

/-- One step to side `d`: the new position and the return code. -/
def iterator_step (d : Bool) (m : AvlTable) (it : AvlIterator) : Option (AvlIterator × ℤ) :=
  match it with
  | none => some (none, -1)
  | some p => do
    let n ← m.heap p
    match n.avl_link d with
    | some r => do return (some (← outermost (!d) m.heap (m.avl_count + 1) r), 0)
    | none => do return (← climb (!d) m.heap (m.avl_count + 1) p n.avl_parent, 0)

/-- `iterator_next`. -/
def iterator_next (m : AvlTable) (it : AvlIterator) : Option (AvlIterator × ℤ) :=
  iterator_step true m it

/-- `iterator_prev`. -/
def iterator_prev (m : AvlTable) (it : AvlIterator) : Option (AvlIterator × ℤ) :=
  iterator_step false m it

/-- The client's loop from `it` on: the nodes it visits until the iterator is invalid. -/
def visitLoop (m : AvlTable) : ℕ → AvlIterator → Option (List Ref)
  | 0, _ => none
  | fuel + 1, it =>
    match it with
    | none => some []
    | some p => do
      let (it, _) ← iterator_next m (some p)
      return p :: (← visitLoop m fuel it)

/-- `for (map_first(m, &it); iterator_is_valid(&it); iterator_next(&it))`. -/
def visit (m : AvlTable) : Option (List Ref) := do
  visitLoop m (m.avl_count + 1) (← map_first m)

/-- The function given to `map_for_each`: what it returns depends on the calls before. -/
abbrev ProcessEach := List (Str × Ptr) → Str → Ptr → BitVec 32

/-- The calls made so far and `tree->ret_code`. -/
structure Progress where
  calls : List (Str × Ptr)
  ret_code : BitVec 32

/-- `tree->ret_code |= f(param, p->key, p->val)`. -/
def Progress.call (f : ProcessEach) (s : Progress) (key : Str) (val : Ptr) : Progress :=
  ⟨s.calls ++ [(key, val)], s.ret_code ||| f s.calls key val⟩

/-- `process_all`. -/
def process_all (h : Heap) (f : ProcessEach) : ℕ → Ref → Progress → Option Progress
  | 0, _, _ => none
  | fuel + 1, p, s =>
    if s.ret_code ≠ 0 then some s
    else do
      let n ← h p
      let s ← match n.avl_link false with
        | some l => process_all h f fuel l s
        | none => some s
      let s := s.call f n.key n.val
      match n.avl_link true with
      | some r => process_all h f fuel r s
      | none => some s

/-- `map_for_each`: the calls it made and what it returns. -/
def map_for_each (m : AvlTable) (f : ProcessEach) : Option Progress :=
  match m.avl_root with
  | none => some ⟨[], 0⟩
  | some r => process_all m.heap f (m.avl_count + 1) r ⟨[], 0⟩

/-! ### One step of an iterator -/

variable {h : Heap} {fuel : ℕ}

theorem outermost_spec (d : Bool) {par : Option Ref} {t : Tree} (ht : Rep h par t) (hf : t.toList.length ≤ fuel) {a : Ref} (ha : root t = some a) :
    outermost d h fuel a = (order (!d) t).head?.map Cell.ref := by
  induction t generalizing par fuel a with
  | nil => cases ha
  | node x b c ih =>
    cases ha
    have hlen : ∀ e, (c e).toList.length < fuel := by
      intro e
      have : (toList (.node x b c)).length = (c false).toList.length + ((c true).toList.length + 1) := by
        simp [toList]
      cases e <;> omega
    obtain ⟨fuel, rfl⟩ : ∃ k, fuel = k + 1 := ⟨fuel - 1, by have := hlen d; omega⟩
    obtain ⟨hx, hc⟩ := ht
    simp only [outermost, hx, Option.bind_eq_bind, Option.bind_some, obj_link, order, Bool.not_not]
    cases hd : c d with
    | nil => rfl
    | node y b' c' =>
      have hr : root (c d) = some y.ref := by rw [hd]; rfl
      have hle : (c d).toList.length ≤ fuel := by have := hlen d; omega
      have ho := ih d (hc d) hle hr
      rw [hd] at ho
      simp only [root_node, ho]
      simp [order]

theorem climb_cons {d : Bool} {p q : Ref} {n : AvlNode} (hq : h q = some n) :
    climb d h (fuel + 1) p (some q) =
      if n.avl_link d = some p then some (some q) else climb d h fuel q n.avl_parent := by
  simp only [climb, hq, Option.bind_eq_bind, Option.bind_some]

theorem climb_spec (d : Bool) {rt : Option Ref} {fs : Path} {p : Ref}
    (hp : RepPath h rt fs (some p)) (hn : (pathRefs fs).Nodup) (hout : p ∉ pathRefs fs)
    (hf : fs.length < fuel) :
    climb (!d) h fuel p (parentOf fs) = some ((beyond d fs).head?.map Cell.ref) := by
  induction fs generalizing p fuel with
  | nil =>
    obtain ⟨fuel, rfl⟩ : ∃ k, fuel = k + 1 := ⟨fuel - 1, by omega⟩
    rfl
  | cons f fs ih =>
    obtain ⟨fuel, rfl⟩ : ∃ k, fuel = k + 1 := ⟨fuel - 1, by omega⟩
    obtain ⟨hx, -, hp'⟩ := hp
    obtain ⟨-, n2, -, n4, -⟩ := nodup_path.1 hn
    rw [parentOf_cons, climb_cons hx, beyond]
    by_cases hd : f.dir = d
    · -- the sibling hangs on the other side, and it does not begin at `p`
      rw [if_neg, if_pos hd, nil_append]
      · exact ih hp' n4 n2 (by simpa using hf)
      · rw [obj_link, hd, pair_not]
        intro e
        exact hout (mem_pathRefs.2 (.inr (.inl (root_mem e))))
    · have hd' : f.dir = !d := Bool.eq_not.2 hd
      rw [if_pos, if_neg hd]
      · rfl
      · rw [obj_link, hd', pair_same]

section Holds

variable {m : AvlTable} {T : Tree}

theorem map_end_spec (d : Bool) (hT : Holds m T) :
    map_end d m = some ((order (!d) T).head?.map Cell.ref) := by
  rw [map_end, hT.root]
  cases T with
  | nil => rfl
  | node x b c =>
    have hle : (toList (.node x b c)).length ≤ m.avl_count + 1 := by rw [hT.count]; omega
    have ho := outermost_spec d hT.rep hle (root_node x b c)
    simp only [root_node, ho, Option.bind_eq_bind]
    cases ho : order (!d) (node x b c) with
    | nil => simp [order] at ho
    | cons y L => rfl

variable {A B : List Cell} {x : Cell}

/-- **One step of an iterator** goes to the neighbour of its entry. -/
theorem iterator_step_spec (d : Bool) (hT : Holds m T) (hs : order d T = A ++ x :: B) :
    iterator_step d m (some x.ref) = some (B.head?.map Cell.ref, 0) := by
  obtain ⟨fs, b, c, rfl, rfl⟩ := exists_plug_split hs
  obtain ⟨rp, rt⟩ := rep_plug.1 ⟨hT.rep, hT.root⟩
  obtain ⟨n1, n2, n3⟩ := nodup_plug.1 hT.nodup
  have hlen := length_plug fs (.node x b c)
  rw [← hT.count] at hlen
  obtain ⟨hx, hc⟩ := rt
  simp only [iterator_step, hx, Option.bind_eq_bind, Option.bind_some, obj_link, obj_parent]
  cases hd : c d with
  | nil =>
    have hle : fs.length < m.avl_count + 1 := by omega
    have hcl := climb_spec d rp n2 (n3 _ (root_mem rfl)) hle
    simp only [root_nil, hcl, Option.bind_some, order_nil, nil_append]
    rfl
  | node y b' c' =>
    have hr : root (c d) = some y.ref := by rw [hd]; rfl
    have hsub : (c d).toList.length ≤ (toList (.node x b c)).length := by
      rw [← length_order d, ← length_order d (.node x b c), order, length_append, length_cons]
      omega
    have hle : (c d).toList.length ≤ m.avl_count + 1 := by omega
    have ho := outermost_spec (!d) (hc d) hle hr
    rw [hd, Bool.not_not] at ho
    simp only [root_node, ho]
    simp [order]

theorem iterator_next_spec (hT : Holds m T) (hs : T.toList = A ++ x :: B) :
    iterator_next m (some x.ref) = some (B.head?.map Cell.ref, 0) :=
  iterator_step_spec true hT ((order_true T).trans hs)

theorem iterator_prev_spec (hT : Holds m T) (hs : T.toList = A ++ x :: B) :
    iterator_prev m (some x.ref) = some (A.getLast?.map Cell.ref, 0) := by
  have hs' : order false T = B.reverse ++ x :: A.reverse := by
    rw [order_false, hs]
    simp
  rw [iterator_prev, iterator_step_spec false hT hs', head?_reverse]

theorem visitLoop_spec (hT : Holds m T) (hs : T.toList = A ++ B) {fuel : ℕ}
    (hf : B.length < fuel) : visitLoop m fuel (B.head?.map Cell.ref) = some (B.map Cell.ref) := by
  induction B generalizing A fuel with
  | nil =>
    obtain ⟨fuel, rfl⟩ : ∃ k, fuel = k + 1 := ⟨fuel - 1, by omega⟩
    rfl
  | cons x B ih =>
    obtain ⟨fuel, rfl⟩ : ∃ k, fuel = k + 1 := ⟨fuel - 1, by omega⟩
    have hs' : T.toList = (A ++ [x]) ++ B := by rw [hs]; simp
    have hrest := ih hs' (by simpa using hf)
    simp only [head?_cons, Option.map_some, visitLoop, iterator_next_spec hT hs,
      Option.bind_eq_bind, Option.bind_some, hrest]
    rfl

theorem visit_spec (hT : Holds m T) : visit m = some (T.toList.map Cell.ref) := by
  have hend := map_end_spec false hT
  rw [Bool.not_false, order_true] at hend
  have hf : T.toList.length < m.avl_count + 1 := by rw [hT.count]; omega
  have hall : T.toList = [] ++ T.toList := rfl
  simp only [visit, map_first, hend, Option.bind_eq_bind, Option.bind_some]
  exact visitLoop_spec hT hall hf

end Holds

/-! ### `map_for_each` -/

def callsUntil (f : ProcessEach) : List (Str × Ptr) → List Cell → List (Str × Ptr)
  | _, [] => []
  | log, x :: L =>
    (x.key, x.val) :: if f log x.key x.val ≠ 0 then [] else callsUntil f (log ++ [(x.key, x.val)]) L

def stopAt (f : ProcessEach) : List (Str × Ptr) → List Cell → Option Cell
  | _, [] => none
  | log, x :: L =>
    if f log x.key x.val ≠ 0 then some x else stopAt f (log ++ [(x.key, x.val)]) L

/-- The call for one entry. -/
def entry (x : Cell) : Str × Ptr := (x.key, x.val)

section ForEach

variable (f : ProcessEach)

variable {log : List (Str × Ptr)}

theorem callsUntil_of_none {L : List Cell} (h : stopAt f log L = none) :
    callsUntil f log L = L.map entry := by
  induction L generalizing log with
  | nil => rfl
  | cons x L ih =>
    rw [stopAt] at h
    by_cases hx : f log x.key x.val = 0
    · rw [if_neg (by simpa using hx)] at h
      rw [callsUntil, if_neg (by simpa using hx), ih h]
      rfl
    · rw [if_pos hx] at h
      cases h

theorem stopAt_append (log : List (Str × Ptr)) (A B : List Cell) :
    stopAt f log (A ++ B) = (stopAt f log A).or (stopAt f (log ++ A.map entry) B) := by
  induction A generalizing log with
  | nil => simp [stopAt]
  | cons x A ih =>
    simp only [cons_append, stopAt]
    by_cases hx : f log x.key x.val ≠ 0
    · simp only [if_pos hx, Option.some_or]
    · simp only [if_neg hx, ih]
      simp [entry]

theorem callsUntil_append (log : List (Str × Ptr)) (A B : List Cell) :
    callsUntil f log (A ++ B) = callsUntil f log A ++
      if (stopAt f log A).isSome then [] else callsUntil f (log ++ A.map entry) B := by
  induction A generalizing log with
  | nil => simp [stopAt, callsUntil]
  | cons x A ih =>
    simp only [cons_append, stopAt, callsUntil]
    by_cases hx : f log x.key x.val ≠ 0
    · simp only [if_pos hx]
      simp
    · simp only [if_neg hx, ih]
      simp [entry]

theorem stopAt_mem {L : List Cell} {x : Cell} (h : stopAt f log L = some x) : x ∈ L := by
  induction L generalizing log with
  | nil => cases h
  | cons y L ih =>
    rw [stopAt] at h
    split_ifs at h with hy
    · cases h
      exact mem_cons_self
    · exact mem_cons_of_mem _ (ih h)

/-- What `process_all` does on a tree. -/
def walk : Tree → Progress → Progress
  | .nil, s => s
  | .node x _ c, s =>
    if s.ret_code ≠ 0 then s else walk (c true) ((walk (c false) s).call f x.key x.val)

def spine : Tree → List Cell
  | .nil => []
  | .node x _ c => x :: spine (c true)

variable {t : Tree}

theorem spine_sub {x : Cell} (h : x ∈ spine t) : x ∈ t.toList := by
  induction t with
  | nil => cases h
  | node y b c ih =>
    rw [spine, mem_cons] at h
    rw [mem_toList_node true]
    exact h.imp id fun h => .inl (ih true h)

theorem process_all_spec {h : Heap} {par : Option Ref} (ht : Rep h par t) {fuel : ℕ}
    (hf : t.toList.length ≤ fuel) {a : Ref} (ha : root t = some a) (s : Progress) :
    process_all h f fuel a s = some (walk f t s) := by
  induction t generalizing par fuel a s with
  | nil => cases ha
  | node x b c ih =>
    cases ha
    rw [toList, length_append, length_cons] at hf
    obtain ⟨fuel, rfl⟩ : ∃ k, fuel = k + 1 := ⟨fuel - 1, by omega⟩
    obtain ⟨hx, hc⟩ := ht
    have sub : ∀ d, (c d).toList.length ≤ fuel → ∀ s, (match root (c d) with
          | some r => process_all h f fuel r s
          | none => some s) = some (walk f (c d) s) := by
      intro d hle s
      cases hd : c d with
      | nil => rfl
      | node y b' c' =>
        have hr : root (c d) = some y.ref := by rw [hd]; rfl
        have := ih d (hc d) hle hr s
        rw [hd] at this
        exact this
    rw [process_all, walk]
    by_cases h0 : s.ret_code = 0
    · simp only [h0, ne_eq, not_true_eq_false, if_false, hx, Option.bind_eq_bind, Option.bind_some,
        obj_link, obj_key, obj_val]
      have hl := sub false (by omega) s
      cases hroot : root (c false) with
      | none =>
        rw [hroot, Option.some.injEq] at hl
        rw [← hl]
        exact sub true (by omega) _
      | some l =>
        rw [hroot] at hl
        simp only [hl, Option.bind_some]
        exact sub true (by omega) _
    · simp only [h0, ne_eq, not_false_eq_true, if_true]

theorem walk_stopped {s : Progress} (h : s.ret_code ≠ 0) : walk f t s = s := by
  cases t with
  | nil => rfl
  | node x b c => rw [walk, if_pos h]

theorem walk_all (h : stopAt f log t.toList = none) :
    walk f t ⟨log, 0⟩ = ⟨log ++ t.toList.map entry, 0⟩ := by
  induction t generalizing log with
  | nil => simp [walk]
  | node x b c ih =>
    rw [toList, stopAt_append, Option.or_eq_none_iff] at h
    obtain ⟨h1, h2⟩ := h
    rw [stopAt] at h2
    by_cases hx : f (log ++ (c false).toList.map entry) x.key x.val = 0
    · rw [if_neg (by simpa using hx)] at h2
      have hcall : (⟨log ++ (c false).toList.map entry, 0⟩ : Progress).call f x.key x.val =
          ⟨log ++ (c false).toList.map entry ++ [(x.key, x.val)], 0⟩ := by
        simp [Progress.call, hx]
      rw [walk, if_neg (by simp), ih false h1, hcall, ih true h2]
      simp [toList, entry]
    · rw [if_pos hx] at h2
      cases h2

/-- Behind the first result that is not zero nothing is called, unless the entry lies to the left
of a node. -/
theorem walk_stop (hn : t.toList.Nodup) {x : Cell} (h : stopAt f log t.toList = some x) :
    ∃ extra r, walk f t ⟨log, 0⟩ = ⟨log ++ callsUntil f log t.toList ++ extra, r⟩ ∧ r ≠ 0 ∧
      (extra = [] ↔ x ∈ spine t) := by
  induction t generalizing log with
  | nil => cases h
  | node y b c ih =>
    have hor : ∀ a b : BitVec 32, a ≠ 0 → a ||| b ≠ 0 := by
      intro a b ha hab
      exact ha (BitVec.or_eq_zero_iff.1 hab).1
    rw [toList, nodup_append, nodup_cons] at hn
    obtain ⟨n1, ⟨n2, n3⟩, n4⟩ := hn
    rw [toList, stopAt_append] at h
    rw [walk, if_neg (by simp), toList, callsUntil_append, spine]
    cases h1 : stopAt f log (c false).toList with
    | some z =>
      -- the left subtree stopped: this node is called all the same
      rw [h1, Option.some_or] at h
      cases h
      obtain ⟨extra, r, e, hr, -⟩ := ih false n1 h1
      have hx := stopAt_mem f h1
      refine ⟨extra ++ [(y.key, y.val)], r ||| f (log ++ callsUntil f log (c false).toList ++ extra)
        y.key y.val, ?_, hor _ _ hr, ?_⟩
      · rw [e, walk_stopped]
        · simp [Progress.call]
        · exact hor _ _ hr
      · have hxy : x ≠ y := fun e => n4 x hx y mem_cons_self e
        have hxr : x ∉ spine (c true) := by
          intro hs
          exact n4 x hx x (mem_cons_of_mem _ (spine_sub hs)) rfl
        simp [hxy, hxr]
    | none =>
      rw [h1, Option.none_or, stopAt] at h
      rw [walk_all f h1, callsUntil_of_none f h1, callsUntil]
      by_cases hy : f (log ++ (c false).toList.map entry) y.key y.val = 0
      · rw [if_neg (by simpa using hy)] at h
        obtain ⟨extra, r, e, hr, hex⟩ := ih true n3 h
        have hxy : x ≠ y := by
          rintro rfl
          exact n2 (stopAt_mem f h)
        refine ⟨extra, r, ?_, hr, by simp [hxy, hex]⟩
        have hcall : (⟨log ++ (c false).toList.map entry, 0⟩ : Progress).call f y.key y.val =
            ⟨log ++ (c false).toList.map entry ++ [(y.key, y.val)], 0⟩ := by
          simp [Progress.call, hy]
        simp only [hcall, e, Option.isSome_none, Bool.false_eq_true, if_false]
        rw [if_neg (not_not.2 hy)]
        simp
      · rw [if_pos hy] at h
        cases h
        refine ⟨[], f (log ++ (c false).toList.map entry) x.key x.val, ?_, hy, by simp⟩
        rw [walk_stopped, if_pos hy]
        · simp [Progress.call]
        · simpa [Progress.call] using hy

/-- **The calls of `map_for_each`** stop at the first result that is not zero exactly when it comes
on the right spine. -/
theorem map_for_each_iff {m : AvlTable} {T : Tree} (hT : Holds m T) :
    (∃ r, map_for_each m f = some ⟨callsUntil f [] T.toList, r⟩) ↔
      ∀ x, stopAt f [] T.toList = some x → x ∈ spine T := by
  have hrun : map_for_each m f = some (walk f T ⟨[], 0⟩) := by
    rw [map_for_each, hT.root]
    cases T with
    | nil => rfl
    | node x b c =>
      exact process_all_spec f hT.rep (by rw [hT.count]; omega) (root_node x b c) _
  have hn : T.toList.Nodup := Nodup.of_map _ hT.nodup
  rw [hrun]
  cases hs : stopAt f [] T.toList with
  | none =>
    rw [walk_all f hs, callsUntil_of_none f hs]
    simp
  | some x =>
    obtain ⟨extra, r, e, -, hex⟩ := walk_stop f hn hs
    rw [e]
    simp [hex]

end ForEach

inductive RightSpine (h : Heap) : Option Ref → Ref → Prop
  | here (a : Ref) : RightSpine h (some a) a
  | right {a c : Ref} {n : AvlNode} (hn : h a = some n) (hc : RightSpine h (n.avl_link true) c) :
      RightSpine h (some a) c

theorem rightSpine_iff {par : Option Ref} {t : Tree} (ht : Rep h par t) (a : Ref) :
    RightSpine h (root t) a ↔ a ∈ (spine t).map Cell.ref := by
  induction t generalizing par with
  | nil =>
    constructor
    · intro hs
      cases hs
    · intro hs
      simp [spine] at hs
  | node x b c ih =>
    obtain ⟨hx, hc⟩ := ht
    have ih' := ih true (hc true)
    rw [root_node, spine, map_cons, mem_cons, ← ih']
    constructor
    · intro hs
      cases hs with
      | here => exact .inl rfl
      | right hn hs =>
        rw [hx] at hn
        cases hn
        exact .inr hs
    · rintro (rfl | hs)
      · exact .here _
      · exact .right hx hs

/-- The list `L` is the entries of the map, and iterators walk it. -/
structure Iterates (m : AvlTable) (L : List Cell) : Prop where
  entries : ∀ x ∈ L, iterator_key m x.ref = some x.key ∧ slotVal m x.ref = some x.val
  all : ∀ a, m.heap a ≠ none → ∃ x ∈ L, x.ref = a
  once : (L.map Cell.ref).Nodup
  ascending : Sorted L
  visited : visit m = some (L.map Cell.ref)
  last : map_last m = some (L.getLast?.map Cell.ref)
  prev_next : ∀ p q, iterator_next m (some p) = some (some q, 0) →
    iterator_prev m (some q) = some (some p, 0)
  next_prev : ∀ p q, iterator_prev m (some p) = some (some q, 0) →
    iterator_next m (some q) = some (some p, 0)

theorem allocated_of_step {d : Bool} {m : AvlTable} {p : Ref} {r : AvlIterator × ℤ}
    (h : iterator_step d m (some p) = some r) : m.heap p ≠ none := by
  intro hp
  simp [iterator_step, hp] at h

theorem iterates {m : AvlTable} {T : Tree} (hT : Inv m T) : Iterates m T.toList where
  entries := fun x hx => ⟨iterator_key_cell hT.toHolds hx, slotVal_cell hT.toHolds hx⟩
  all := fun a ha => hT.cell ha
  once := hT.nodup
  ascending := hT.sorted
  visited := visit_spec hT.toHolds
  last := by
    rw [map_last, map_end_spec true hT.toHolds, Bool.not_true, order_false, head?_reverse]
  prev_next := by
    intro p q h
    obtain ⟨x, hx, rfl⟩ := hT.cell (allocated_of_step h)
    obtain ⟨A, B, hs⟩ := append_of_mem hx
    rw [iterator_next_spec hT.toHolds hs] at h
    cases B with
    | nil => simp at h
    | cons y B =>
      have hy : y.ref = q := by simpa using h
      have hs' : T.toList = (A ++ [x]) ++ y :: B := by rw [hs]; simp
      rw [← hy, iterator_prev_spec hT.toHolds hs']
      simp
  next_prev := by
    intro p q h
    obtain ⟨x, hx, rfl⟩ := hT.cell (allocated_of_step h)
    obtain ⟨A, B, hs⟩ := append_of_mem hx
    rw [iterator_prev_spec hT.toHolds hs] at h
    rcases eq_nil_or_concat A with rfl | ⟨A, y, rfl⟩
    · simp at h
    · have hy : y.ref = q := by simpa using h
      have hs' : T.toList = A ++ y :: (x :: B) := by rw [hs]; simp
      rw [← hy, iterator_next_spec hT.toHolds hs']
      simp

/-- **Iteration.**  In every state that a run reaches, the iterators visit every entry once in the
order of the keys, forwards and backwards; `map_for_each` makes exactly the calls up to the first
result that is not zero if and only if that result, if there is one, comes at a node that right
links alone reach from the root. -/
theorem map_iteration {m : AvlTable} {g : Contents} (hr : Reachable m g) :
    ∃ L, Iterates m L ∧ ∀ f : ProcessEach, (∃ r, map_for_each m f = some ⟨callsUntil f [] L, r⟩) ↔
        ∀ x, stopAt f [] L = some x → RightSpine m.heap m.avl_root x.ref := by
  obtain ⟨⟨T, hT, -⟩, -⟩ := reachable_spec hr
  refine ⟨T.toList, iterates hT, fun f => ?_⟩
  rw [map_for_each_iff f hT.toHolds, hT.root]
  refine forall_congr' fun x => ?_
  constructor
  · intro h hs
    exact (rightSpine_iff hT.rep x.ref).2 (List.mem_map_of_mem (h hs))
  · intro h hs
    obtain ⟨y, hy, e⟩ := List.mem_map.1 ((rightSpine_iff hT.rep x.ref).1 (h hs))
    have hxy := inj_on_of_nodup_map hT.nodup (spine_sub hy) (stopAt_mem f hs) e
    rwa [← hxy]

theorem map_iteration_one : ∃ m L, map_put map_create [97] 5 0 = some (m, NULL) ∧ Iterates m L := by
  have ok : Allowed map_create (.put [97] 5 0) := rfl
  obtain ⟨L, hL, -⟩ := map_iteration (Run.step .init ok rfl)
  exact ⟨_, L, rfl, hL⟩

/-- The function fails at the key `a` only. -/
def failAt : ProcessEach := fun _ key _ => if key = [97] then 1 else 0

/-- With `a` to the left of `b`, the function is called on `b` behind its failure on `a`. -/
theorem map_for_each_goes_on : ∃ m g L, Reachable m g ∧ Iterates m L ∧
    callsUntil failAt [] L = [([97], 5)] ∧
    map_for_each m failAt = some ⟨[([97], 5), ([98], 6)], 1⟩ := by
  have ok1 : Allowed map_create (.put [98] 6 0) := rfl
  obtain ⟨m1, e1⟩ : ∃ m1, exec map_create (.put [98] 6 0) = some (m1, .val NULL) := ⟨_, rfl⟩
  have r1 : Reachable m1 _ := Run.step .init ok1 e1
  cases e1
  have r2 : Reachable _ _ := Run.step r1 (show Allowed _ (.put [97] 5 1) from rfl) rfl
  obtain ⟨⟨T, hT, -⟩, -⟩ := reachable_spec r2
  have hI := iterates hT
  refine ⟨_, _, T.toList, r2, hI, ?_, rfl⟩
  have hv := hI.visited.symm.trans (show visit _ = some [1, 0] from rfl)
  obtain ⟨x, L, hL⟩ : ∃ x L, T.toList = x :: L := by
    cases hc : T.toList with
    | nil => rw [hc] at hv; cases hv
    | cons x L => exact ⟨x, L, rfl⟩
  rw [hL] at hv ⊢
  have hx : x.ref = 1 := by simpa using congrArg (fun o => o.bind List.head?) hv
  obtain ⟨hk, hval⟩ := hI.entries x (by rw [hL]; exact mem_cons_self)
  rw [hx] at hk hval
  have hk' : x.key = [97] := (Option.some.inj hk).symm
  have hval' : x.val = 5 := (Option.some.inj hval).symm
  rw [callsUntil, hk', hval']
  rfl

end OpenSips.Map
