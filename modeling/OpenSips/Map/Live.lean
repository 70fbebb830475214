import OpenSips.Map.Delete

/-!
# OpenSips.Map.Live — which objects are allocated

Apart from the allocation in `map_get` and the `avl_free` in `delete_node`, no write of `map.c`
changes which addresses hold a node.
-/

namespace OpenSips.Map

open Lib Lib.AvlTree Option Function

def SameLive (h h' : Heap) : Prop := ∀ a, h' a = none ↔ h a = none

theorem SameLive.refl (h : Heap) : SameLive h h := fun _ => Iff.rfl

theorem SameLive.trans {h h' h'' : Heap} (h1 : SameLive h h') (h2 : SameLive h' h'') :
    SameLive h h'' := fun a => (h2 a).trans (h1 a)

/-- A run that ends leaves the same addresses allocated, `π` being the heap of its result. -/
def Keeps {β : Type*} (π : β → Heap) (h : Heap) (o : Option β) : Prop :=
  ∀ r, o = some r → SameLive h (π r)

section Keeps

variable {β γ : Type*} {π : β → Heap} {ρ : γ → Heap} {h : Heap}

theorem keeps_pure {r : β} (hr : SameLive h (π r)) : Keeps π h (some r) := by
  intro r' e
  cases e
  exact hr

theorem keeps_none : Keeps π h none := fun _ e => nomatch e

theorem keeps_read {o : Option γ} {k : γ → Option β} (hk : ∀ x, Keeps π h (k x)) :
    Keeps π h (o.bind k) := by
  cases o with
  | none => exact keeps_none
  | some x => exact hk x

theorem keeps_write {o : Option γ} {k : γ → Option β} (ho : Keeps ρ h o)
    (hk : ∀ r, Keeps π (ρ r) (k r)) : Keeps π h (o.bind k) := by
  cases o with
  | none => exact keeps_none
  | some r => exact fun r' e => (ho r rfl).trans (hk r r' e)

theorem keeps_store (a : Ref) (f : AvlNode → AvlNode) : Keeps id h (store h a f) := by
  intro h' e b
  simp only [store, map_eq_some_iff] at e
  obtain ⟨n, hn, rfl⟩ := e
  by_cases hb : b = a
  · subst hb; simp [hn]
  · simp [update_of_ne hb]

theorem keeps_reparent (p a : Option Ref) : Keeps id h (reparent h p a) := by
  cases p with
  | none => exact keeps_pure (SameLive.refl h)
  | some p => exact keeps_store p _

theorem keeps_setSlot (root q : Option Ref) (dir : Bool) (p : Option Ref) :
    Keeps Prod.fst h (setSlot h root q dir p) := by
  cases q with
  | some q => exact keeps_write (keeps_store q _) fun r => keeps_pure (SameLive.refl _)
  | none =>
    cases dir with
    | false => exact keeps_pure (SameLive.refl h)
    | true => exact keeps_none

end Keeps

/-! ### Insertion -/

theorem keeps_bumpLoop (fuel : ℕ) (h : Heap) (p y : Ref) : Keeps id h (bumpLoop fuel h p y) := by
  induction fuel generalizing h p with
  | zero => exact keeps_none
  | succ fuel ih =>
    rw [bumpLoop]
    split_ifs
    · exact keeps_pure (SameLive.refl h)
    · exact keeps_read fun _ => keeps_read fun _ => keeps_read fun _ =>
        keeps_write (keeps_store _ _) fun h' => ih h' _

theorem keeps_doubleLinks (d : Bool) (h : Heap) (y x : Ref) :
    Keeps Prod.fst h (doubleLinks d h y x) := by
  refine keeps_read fun _ => keeps_read fun w => keeps_read fun _ => ?_
  refine keeps_write (keeps_store _ _) fun h => keeps_write (keeps_store _ _) fun h => ?_
  refine keeps_read fun _ => keeps_write (keeps_store _ _) fun h => ?_
  refine keeps_write (keeps_store _ _) fun h => keeps_read fun _ => ?_
  refine keeps_write (keeps_store _ _) fun h => keeps_write (keeps_store _ _) fun h => ?_
  refine keeps_write (keeps_store _ _) fun h => keeps_read fun _ => ?_
  refine keeps_write (keeps_store _ _) fun h => keeps_write (keeps_store _ _) fun h => ?_
  exact keeps_write (keeps_store _ _) fun h => keeps_pure (SameLive.refl _)

theorem keeps_doubleRotate (d : Bool) (h : Heap) (y x : Ref) :
    Keeps Prod.fst h (doubleRotate d h y x) := by
  refine keeps_write (keeps_doubleLinks d h y x) fun r => keeps_read fun _ => ?_
  refine keeps_write (keeps_reparent _ _) fun h => keeps_read fun _ => ?_
  exact keeps_write (keeps_reparent _ _) fun h => keeps_pure (SameLive.refl _)

theorem keeps_insertSingle (d : Bool) (h : Heap) (y x : Ref) : Keeps id h (insertSingle d h y x) := by
  refine keeps_read fun _ => keeps_write (keeps_store _ _) fun h => ?_
  refine keeps_write (keeps_store _ _) fun h => keeps_write (keeps_store _ _) fun h => ?_
  refine keeps_write (keeps_store _ _) fun h => keeps_read fun _ => ?_
  exact keeps_write (keeps_store _ _) fun h => keeps_store _ _

theorem keeps_deleteSingle (d : Bool) (h : Heap) (y x : Ref) : Keeps id h (deleteSingle d h y x) := by
  refine keeps_read fun _ => keeps_write (keeps_store _ _) fun h => ?_
  refine keeps_write (keeps_store _ _) fun h => keeps_read fun _ => ?_
  exact keeps_write (keeps_store _ _) fun h => keeps_store _ _

theorem keeps_insertRotate (d : Bool) (h : Heap) (y : Ref) : Keeps Prod.fst h (insertRotate d h y) := by
  refine keeps_read fun _ => keeps_read fun x => keeps_read fun _ => ?_
  split_ifs
  · refine keeps_write (keeps_insertSingle d h y x) fun h => keeps_read fun _ => ?_
    exact keeps_write (keeps_reparent _ _) fun h => keeps_pure (SameLive.refl _)
  · exact keeps_read fun _ => keeps_read fun _ => keeps_doubleRotate d h y x

theorem keeps_relink (h : Heap) (root : Option Ref) (y w : Ref) :
    Keeps Prod.fst h (relink h root y w) := by
  refine keeps_read fun n => ?_
  cases n.avl_parent with
  | none => exact keeps_pure (SameLive.refl h)
  | some p =>
    exact keeps_read fun _ => keeps_write (keeps_store _ _) fun h => keeps_pure (SameLive.refl _)

theorem keeps_insertRebalance (h : Heap) (root : Option Ref) (y : Ref) :
    Keeps Prod.fst h (insertRebalance h root y) := by
  refine keeps_read fun n => ?_
  dsimp only
  split_ifs
  · exact keeps_write (keeps_insertRotate _ h y) fun r => keeps_relink _ _ _ _
  · exact keeps_write (keeps_insertRotate _ h y) fun r => keeps_relink _ _ _ _
  · exact keeps_pure (SameLive.refl h)

/-- `map_get` allocates the node it returns, or nothing. -/
theorem live_map_get {m m' : AvlTable} {key : Str} {n p : Ref}
    (e : map_get m key n = some (m', p)) {a : Ref} (ha : m'.heap a ≠ none) :
    m.heap a ≠ none ∨ a = p := by
  have keep : ∀ nd, SameLive (Function.update m.heap n (some nd)) m'.heap → m.heap a ≠ none ∨ a = n :=
    fun nd hk => by
      by_cases hn : a = n
      · exact .inr hn
      · have := (hk a).not.1 ha
        rw [update_of_ne hn] at this
        exact .inl this
  rw [map_get, bind_eq_bind, bind_eq_some_iff] at e
  obtain ⟨s, -, e⟩ := e
  cases s with
  | found q => cases e; exact .inl ha
  | absent q y dir =>
    cases q with
    | none => cases e; exact keep _ (SameLive.refl _)
    | some q =>
      have hk : Keeps (fun r : AvlTable × Ref => r.1.heap)
          (Function.update m.heap n (some ⟨fun _ => none, some q, key, NULL, 0⟩)) (some (m', p)) := by
        rw [← e]
        refine keeps_write (keeps_store _ _) fun h => keeps_read fun _ => ?_
        refine keeps_write (keeps_bumpLoop _ _ _ _) fun h => ?_
        exact keeps_write (keeps_insertRebalance _ _ _) fun r => keeps_pure (SameLive.refl _)
      have hp : p = n := by
        simp only [bind_eq_bind, bind_eq_some_iff] at e
        obtain ⟨_, _, _, _, _, _, _, _, e⟩ := e
        cases e
        rfl
      rw [hp]
      exact keep _ (hk _ rfl)

/-! ### Deletion -/

theorem keeps_deleteLoop (fuel : ℕ) (h : Heap) (root q : Option Ref) (dir : Bool) :
    Keeps Prod.fst h (deleteLoop fuel h root q dir) := by
  induction fuel generalizing h root q dir with
  | zero => exact keeps_none
  | succ fuel ih =>
    cases q with
    | none => exact keeps_pure (SameLive.refl h)
    | some y =>
      refine keeps_read fun ny => keeps_read fun s => keeps_read fun _ => ?_
      refine keeps_write (keeps_store _ _) fun h => ?_
      split_ifs
      · exact keeps_pure (SameLive.refl h)
      · refine keeps_read fun _ => keeps_read fun x => keeps_read fun nx => ?_
        by_cases hx : nx.avl_balance = sgn dir
        · simp only [if_pos hx]
          exact keeps_write (keeps_doubleRotate _ _ _ _) fun r =>
            keeps_write (keeps_setSlot _ _ _ _) fun r => ih _ _ _ _
        · simp only [if_neg hx]
          refine keeps_write (keeps_deleteSingle _ _ _ _) fun h => keeps_read fun _ => ?_
          refine keeps_write (keeps_reparent _ _) fun h => ?_
          refine keeps_write (keeps_setSlot _ _ _ _) fun r => ?_
          split_ifs
          · exact keeps_write (keeps_store _ _) fun h => keeps_write (keeps_store _ _) fun h =>
              keeps_pure (SameLive.refl _)
          · exact keeps_write (keeps_store _ _) fun h => keeps_write (keeps_store _ _) fun h =>
              ih _ _ _ _
      · exact ih _ _ _ _

theorem keeps_detach (fuel : ℕ) (h : Heap) (root : Option Ref) (p : Ref) :
    Keeps Prod.fst h (detach fuel h root p) := by
  refine keeps_read fun np => keeps_read fun dir => ?_
  cases np.avl_link true with
  | none =>
    exact keeps_write (keeps_setSlot _ _ _ _) fun r =>
      keeps_write (keeps_reparent _ _) fun h => keeps_pure (SameLive.refl _)
  | some r =>
    refine keeps_read fun nr => ?_
    cases nr.avl_link false with
    | none =>
      refine keeps_write (keeps_store _ _) fun h => keeps_write (keeps_setSlot _ _ _ _) fun r => ?_
      refine keeps_write (keeps_store _ _) fun h => keeps_write (keeps_reparent _ _) fun h => ?_
      exact keeps_write (keeps_store _ _) fun h => keeps_pure (SameLive.refl _)
    | some s =>
      refine keeps_read fun s => keeps_read fun _ => keeps_read fun r => keeps_read fun _ => ?_
      refine keeps_write (keeps_store _ _) fun h => keeps_write (keeps_store _ _) fun h => ?_
      refine keeps_write (keeps_store _ _) fun h => keeps_write (keeps_setSlot _ _ _ _) fun r => ?_
      refine keeps_write (keeps_reparent _ _) fun h => keeps_read fun _ => keeps_read fun _ => ?_
      refine keeps_write (keeps_store _ _) fun h => keeps_write (keeps_store _ _) fun h => ?_
      refine keeps_read fun _ => keeps_write (keeps_reparent _ _) fun h => ?_
      exact keeps_write (keeps_store _ _) fun h => keeps_pure (SameLive.refl _)

/-- `delete_node` frees its node and nothing else. -/
theorem live_delete_node {m m' : AvlTable} {p : Ref} {v : Ptr}
    (e : delete_node m p = some (m', v)) {a : Ref} (ha : m'.heap a ≠ none) :
    m.heap a ≠ none ∧ a ≠ p := by
  simp only [delete_node, bind_eq_bind, bind_eq_some_iff] at e
  obtain ⟨_, _, ⟨h1, r1, q, dir⟩, e1, ⟨h2, r2⟩, e2, e⟩ := e
  cases e
  have k1 := keeps_detach _ _ _ _ _ e1
  have k2 := (keeps_deleteLoop _ _ _ _ _ _ e2 a).not.1 ha
  by_cases hp : a = p
  · subst hp; simp at k2
  · rw [update_of_ne hp] at k2
    exact ⟨(k1 a).not.1 k2, hp⟩

end OpenSips.Map
