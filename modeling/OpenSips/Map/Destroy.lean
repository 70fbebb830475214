import OpenSips.Map.Memory

/-!
# OpenSips.Map.Destroy — `map_destroy`

The loop rotates right as long as there is a left child and frees the node otherwise, so it turns
the tree into its right spine while eating it from the top.  A step takes a node away or moves one
onto the right spine.
-/

namespace OpenSips.Map

open Lib Lib.AvlTree List Function

/-! ### The code -/

/-- What `map_destroy` does to the world, one call each. -/
inductive Effect where
  | destroy (val : Ptr)
  | free_key (k : Option Ref)
  | free_node (p : Ref)
  | free_table
deriving DecidableEq

/-- The branch `p->avl_link[0] == NULL`: destroy the value, free the key copy and the node `p`. -/
def free_node (destroy : Bool) (m : MapMem) (p : Ref) (n : AvlNode) : Option (MapMem × List Effect) := do
  let val := if destroy ∧ n.val ≠ NULL then [.destroy n.val] else []
  let key := if m.no_duplicate then [] else [.free_key (m.key_s p)]
  let m ← Map.free_key m p
  return ({ m with heap := Function.update m.heap p none }, val ++ key ++ [.free_node p])

/-- The other branch: rotate right at `p` with its left child `q`. -/
def rotate_right (m : MapMem) (p q : Ref) : Option MapMem := do
  let h ← store m.heap p (.setLink false ((← m.heap q).avl_link true))
  let h ← store h q (.setLink true (some p))
  return { m with heap := h }

/-- The loop of `map_destroy`. -/
def destroyLoop (destroy : Bool) : ℕ → MapMem → Option Ref → Option (MapMem × List Effect)
  | 0, _, _ => none
  | fuel + 1, m, p =>
    match p with
    | none => some (m, [])
    | some p => do
      let n ← m.heap p
      match n.avl_link false with
      | none =>
        let (m, es) ← free_node destroy m p n
        let (m, es') ← destroyLoop destroy fuel m (n.avl_link true)
        return (m, es ++ es')
      | some q =>
        let m ← rotate_right m p q
        destroyLoop destroy fuel m (some q)

/-- `map_destroy`; `destroy` says whether a destructor was given. -/
def map_destroy (m : MapMem) (destroy : Bool) : Option (MapMem × List Effect) := do
  let (m, es) ← destroyLoop destroy (2 * m.avl_count + 1) m m.avl_root
  return (m, es ++ [.free_table])

/-! ### Trees of any shape -/

/-- The links, keys and values of the tree `t` are in the heap. -/
def Linked (h : Heap) : Tree → Prop
  | .nil => True
  | .node x _ c =>
    (∃ n, h x.ref = some n ∧ n.key = x.key ∧ n.val = x.val ∧ n.avl_link = fun d => root (c d)) ∧
      ∀ d, Linked h (c d)

theorem Rep.linked {h : Heap} {par : Option Ref} {t : Tree} (ht : Rep h par t) : Linked h t := by
  induction t generalizing par with
  | nil => trivial
  | node x b c ih =>
    obtain ⟨hx, hc⟩ := ht
    exact ⟨⟨_, hx, rfl, rfl, rfl⟩, fun d => ih d (hc d)⟩

theorem Linked.congr {h h' : Heap} {t : Tree} (ht : Linked h t) (hc : ∀ a ∈ refs t, h' a = h a) :
    Linked h' t := by
  induction t with
  | nil => trivial
  | node x b c ih =>
    obtain ⟨⟨n, hn, hrest⟩, h2⟩ := ht
    refine ⟨⟨n, ?_, hrest⟩, fun d => ih d (h2 d) fun a ha => ?_⟩
    · rw [hc _ ((mem_refs_node true).2 (.inl rfl)), hn]
    · exact hc a ((mem_refs_node d).2 (.inr (.inl ha)))

/-- The map consists of the tree `T`, of any shape: its nodes are distinct and counted, nothing else
is allocated, and they own the key copies. -/
structure Whole (m : MapMem) (T : Tree) : Prop where
  linked : Linked m.heap T
  nodup : (refs T).Nodup
  live : ∀ a, m.heap a ≠ none → a ∈ refs T
  owned : Owned m T.toList

def spineLength : Tree → ℕ
  | .nil => 0
  | .node _ _ c => spineLength (c true) + 1

theorem spineLength_le (t : Tree) : spineLength t ≤ t.toList.length := by
  induction t with
  | nil => simp [spineLength]
  | node x b c ih =>
    have := ih true
    simp only [spineLength, toList, length_append, length_cons]
    omega

def effectsOf (m : MapMem) (destroy : Bool) (x : Cell) : List Effect :=
  (if destroy ∧ x.val ≠ NULL then [.destroy x.val] else []) ++
    (if m.no_duplicate then [] else [.free_key (m.key_s x.ref)]) ++ [.free_node x.ref]

section Loop

variable {m : MapMem} {x y : Cell} {b b' : ℤ} {c c' : Bool → Tree}

theorem free_node_spec (hT : Whole m (.node x b c)) (hc : c false = .nil) (destroy : Bool) :
    ∃ n m', m.heap x.ref = some n ∧ n.avl_link false = none ∧ n.avl_link true = root (c true) ∧
      free_node destroy m x.ref n = some (m', effectsOf m destroy x) ∧ Whole m' (c true) ∧
      m'.no_duplicate = m.no_duplicate ∧ m'.key_s = m.key_s := by
  obtain ⟨⟨n, hn, -, hval, hlink⟩, hsub⟩ := hT.linked
  obtain ⟨-, n2, -, n4, -⟩ := (nodup_node false).1 hT.nodup
  rw [Bool.not_false] at n2 n4
  have hl : toList (.node x b c) = x :: (c true).toList := by
    rw [toList, hc]
    rfl
  have ho := hT.owned
  rw [hl] at ho
  have hne : ∀ z ∈ (c true).toList, z.ref ≠ x.ref := by
    intro z hz e
    exact n2 (e ▸ List.mem_map_of_mem hz)
  obtain ⟨blocks, ef, ho'⟩ := ho.freed hne
  refine ⟨n, { m with blocks := blocks, heap := Function.update m.heap x.ref none }, hn, ?_, ?_, ?_,
    ⟨?_, n4, fun a ha => ?_, ⟨ho'.holds, ho'.distinct, ho'.owned⟩⟩, rfl, rfl⟩
  · simp [hlink, hc]
  · simp [hlink]
  · simp [free_node, ef, effectsOf, hval]
  · exact (hsub true).congr fun a ha => update_off n2 ha
  · have hax : a ≠ x.ref := by
      rintro rfl
      simp at ha
    dsimp only at ha
    rw [update_of_ne hax] at ha
    rcases (mem_refs_node true).1 (hT.live a ha) with h | h | h
    · exact absurd h hax
    · exact h
    · rw [Bool.not_true, hc] at h
      simp at h

def rotated (x y : Cell) (b b' : ℤ) (c c' : Bool → Tree) : Tree :=
  .node y b' (pair true (.node x b (pair false (c' true) (c true))) (c' false))

theorem toList_rotated (hc : c false = .node y b' c') :
    (rotated x y b b' c c').toList = toList (.node x b c) := by
  simp [rotated, toList, hc, pair]

theorem spineLength_rotated : spineLength (rotated x y b b' c c') = spineLength (.node x b c) + 1 := by
  simp [rotated, spineLength, pair]

theorem rotate_right_spec (hT : Whole m (.node x b c)) (hc : c false = .node y b' c') :
    ∃ n m', m.heap x.ref = some n ∧ n.avl_link false = some y.ref ∧
      rotate_right m x.ref y.ref = some m' ∧ Whole m' (rotated x y b b' c c') ∧
      m'.no_duplicate = m.no_duplicate ∧ m'.key_s = m.key_s := by
  obtain ⟨⟨n, hn, hkey, hval, hlink⟩, hsub⟩ := hT.linked
  have hyT := hsub false
  rw [hc] at hyT
  obtain ⟨⟨ny, hny, hkey', hval', hlink'⟩, hsub'⟩ := hyT
  have hlist := toList_rotated (x := x) (b := b) hc
  have hnd : (refs (rotated x y b b' c c')).Nodup := by
    rw [refs, hlist]
    exact hT.nodup
  -- the nodes of the rotated tree are where its parts say
  obtain ⟨n1, n2, n3, n4, n5⟩ := (nodup_node true).1 hnd
  simp only [pair, if_true, Bool.not_true, Bool.false_eq_true, if_false] at n1 n2 n3 n4 n5
  obtain ⟨p1, p2, p3, p4, p5⟩ := (nodup_node false).1 n3
  simp only [pair, if_true, Bool.not_false, Bool.true_eq_false, if_false] at p1 p2 p3 p4 p5
  have hxy : y.ref ≠ x.ref := fun e => n1 (by rw [e]; exact root_mem rfl)
  set h1 := Function.update m.heap x.ref (some (n.setLink false (ny.avl_link true))) with hh1
  set h2 := Function.update h1 y.ref (some (ny.setLink true (some x.ref))) with hh2
  have hny1 : h1 y.ref = some ny := by rw [hh1, update_of_ne hxy, hny]
  have hout : ∀ a, a ≠ x.ref → a ≠ y.ref → h2 a = m.heap a := by
    intro a hax hay
    rw [hh2, update_of_ne hay, hh1, update_of_ne hax]
  have hkeep : ∀ t : Tree, Linked m.heap t → x.ref ∉ refs t → y.ref ∉ refs t → Linked h2 t := by
    intro t ht hx hy
    refine ht.congr fun a ha => hout a ?_ ?_
    · rintro rfl
      exact hx ha
    · rintro rfl
      exact hy ha
  have hyc : ∀ a, a ∈ refs (c' true) ∨ a ∈ refs (c true) →
      a ∈ refs (.node x b (pair false (c' true) (c true))) := by
    intro a ha
    rw [mem_refs_node false]
    simpa [pair] using .inr ha
  refine ⟨n, { m with heap := h2 }, hn, by simp [hlink, hc], ?_, ⟨⟨?_, ?_⟩, hnd, fun a ha => ?_, ?_⟩, rfl, rfl⟩
  · have e1 : store m.heap x.ref (.setLink false (ny.avl_link true)) = some h1 := store_of _ hn
    have e2 : store h1 y.ref (.setLink true (some x.ref)) = some h2 := store_of _ hny1
    simp [rotate_right, hny, e1, e2]
  · refine ⟨ny.setLink true (some x.ref), update_self .., hkey', hval', ?_⟩
    funext d
    cases d <;> simp [AvlNode.setLink, hlink', pair]
  · intro d
    cases d with
    | false =>
      refine hkeep _ (hsub' false) (fun hx => n5 x.ref (root_mem rfl) hx) n2
    | true =>
      refine ⟨⟨n.setLink false (ny.avl_link true), ?_, hkey, hval, ?_⟩, fun d => ?_⟩
      · dsimp only
        rw [hh2, update_of_ne (Ne.symm hxy), hh1, update_self]
      · funext d
        cases d <;> simp [AvlNode.setLink, hlink, hlink', pair]
      · cases d with
        | false => exact hkeep _ (hsub' true) p1 fun hy => n1 (hyc _ (.inl hy))
        | true => exact hkeep _ (hsub true) p2 fun hy => n1 (hyc _ (.inr hy))
  · have hlive : m.heap a ≠ none := by
      intro h0
      have hax : a ≠ x.ref := by
        rintro rfl
        rw [hn] at h0
        cases h0
      have hay : a ≠ y.ref := by
        rintro rfl
        rw [hny] at h0
        cases h0
      exact ha ((hout a hax hay).trans h0)
    rw [refs, hlist]
    exact hT.live a hlive
  · have := hT.owned
    rw [← hlist] at this
    exact ⟨this.holds, this.distinct, this.owned⟩

end Loop

theorem effectsOf_congr {m m' : MapMem} (h1 : m'.no_duplicate = m.no_duplicate)
    (h2 : m'.key_s = m.key_s) (destroy : Bool) : effectsOf m' destroy = effectsOf m destroy := by
  funext x
  rw [effectsOf, effectsOf, h1, h2]

/-- **The loop ends with nothing allocated**; the measure is twice the number of nodes less the
right spine. -/
theorem destroyLoop_spec (destroy : Bool) {fuel : ℕ} {m : MapMem} {T : Tree} (hT : Whole m T)
    (hf : 2 * T.toList.length < fuel + spineLength T) :
    ∃ m', destroyLoop destroy fuel m (root T) =
        some (m', T.toList.flatMap (effectsOf m destroy)) ∧ Whole m' .nil := by
  induction fuel generalizing m T with
  | zero =>
    have := spineLength_le T
    omega
  | succ fuel ih =>
    cases T with
    | nil => exact ⟨m, rfl, hT⟩
    | node x b c =>
      cases hc : c false with
      | nil =>
        obtain ⟨n, m1, hn, hl, hr, e1, hT1, hd, hk⟩ := free_node_spec hT hc destroy
        have hlist : toList (.node x b c) = x :: (c true).toList := by
          rw [toList, hc]
          rfl
        have hm : 2 * (c true).toList.length < fuel + spineLength (c true) := by
          rw [hlist, length_cons, spineLength] at hf
          omega
        obtain ⟨m', e2, hT'⟩ := ih hT1 hm
        refine ⟨m', ?_, hT'⟩
        rw [effectsOf_congr hd hk] at e2
        simp only [root_node, destroyLoop, hn, hl, hr, e1, e2, Option.bind_eq_bind,
          Option.bind_some, hlist, flatMap_cons]
        rfl
      | node y b' c' =>
        obtain ⟨n, m1, hn, hl, e1, hT1, hd, hk⟩ := rotate_right_spec hT hc
        have hlist := toList_rotated (x := x) (b := b) hc
        have hm : 2 * (rotated x y b b' c c').toList.length < fuel + spineLength (rotated x y b b' c c') := by
          rw [hlist, spineLength_rotated]
          omega
        obtain ⟨m', e2, hT'⟩ := ih hT1 hm
        refine ⟨m', ?_, hT'⟩
        rw [effectsOf_congr hd hk, hlist] at e2
        simp only [root_node, destroyLoop, hn, hl, e1, Option.bind_eq_bind, Option.bind_some]
        exact e2

theorem Sound.whole {m : MapMem} {g : Contents} (hs : Sound m g) :
    ∃ T, Whole m T ∧ m.avl_root = root T ∧ m.avl_count = T.toList.length ∧ Sorted T.toList := by
  obtain ⟨T, hT, -, ho⟩ := hs
  exact ⟨T, ⟨hT.rep.linked, hT.nodup, hT.live, ho⟩, hT.root, hT.count, hT.sorted⟩

/-- **`map_destroy`.**  On a tree of any shape it ends without a fault, so that no freed node is
touched and nothing is freed twice; entry by entry, from left to right, it destroys the value if
there is one and a destructor, frees the key copy and the node, and then the table; afterwards
neither a node nor a key copy is allocated.  Every state that a run reaches is such a tree, with its
keys ascending. -/
theorem map_destroy_spec (m : MapMem) (destroy : Bool) :
    (∀ T, Whole m T → m.avl_root = root T → m.avl_count = T.toList.length → ∃ m', map_destroy m destroy =
          some (m', T.toList.flatMap (effectsOf m destroy) ++ [.free_table]) ∧
        (∀ a, m'.heap a = none) ∧ ∀ k, m'.blocks k = none) ∧
    ∀ no_duplicate g, ReachableMem no_duplicate m g →
      ∃ T, Whole m T ∧ m.avl_root = root T ∧ m.avl_count = T.toList.length ∧ Sorted T.toList := by
  constructor
  · intro T hT hr hc
    have hf : 2 * T.toList.length < 2 * m.avl_count + 1 + spineLength T := by
      rw [hc]
      omega
    obtain ⟨m', e, hT'⟩ := destroyLoop_spec destroy hT hf
    refine ⟨m', ?_, fun a => ?_, fun k => ?_⟩
    · simp [map_destroy, hr, e]
    · by_contra ha
      have := hT'.live a ha
      simp at this
    · by_contra hk
      obtain ⟨x, hx, -⟩ := hT'.owned.owned k hk
      simp at hx
  · intro no_duplicate g hr
    exact (reachable_sound hr).whole

theorem map_destroy_spec_one : ∃ m m', map_put_mem (MapMem.create false) [97] 5 (some 0) (some 0) =
      some (m, NULL) ∧
    map_destroy m true = some (m', [.destroy 5, .free_key (some 0), .free_node 0, .free_table]) ∧
    ∀ a, m'.heap a = none := by
  obtain ⟨m, em⟩ : ∃ m, map_put_mem (MapMem.create false) [97] 5 (some 0) (some 0) =
      some (m, NULL) := ⟨_, rfl⟩
  obtain ⟨m1, e1⟩ : ∃ m1, map_destroy m true =
      some (m1, [.destroy 5, .free_key (some 0), .free_node 0, .free_table]) := by
    cases em
    exact ⟨_, rfl⟩
  have ok : AllowedMem (MapMem.create false) (.put [97] 5 (some 0) (some 0)) :=
    ⟨fun _ _ => rfl, fun _ _ => rfl⟩
  have ee : exec_mem (MapMem.create false) (.put [97] 5 (some 0) (some 0)) = some (m, .val NULL) := by
    rw [exec_mem, em]
    rfl
  have hr : ReachableMem false m _ := Run.step .init ok ee
  obtain ⟨T, h1, h2, h3, -⟩ := (map_destroy_spec m true).2 _ _ hr
  obtain ⟨m', e, h4, -⟩ := (map_destroy_spec m true).1 T h1 h2 h3
  obtain ⟨rfl, -⟩ := Prod.mk.inj (Option.some.inj (e1.symm.trans e))
  exact ⟨m, m1, em, e1, h4⟩

end OpenSips.Map
