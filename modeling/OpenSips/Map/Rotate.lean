import OpenSips.Map.Repr

/-!
# OpenSips.Map.Rotate — the pointer rotations do the tree rotations

Each rotation of `map.c` rewrites the links, parents and factors of two or three nodes (the
`..._spec` of its writes) and then the parent pointers of the subtrees that moved.
-/

namespace OpenSips.Map

open Lib Lib.AvlTree Option Function

/-! ### The writes to the rotated nodes -/

section Links

variable {h : Heap} {d : Bool} {par : Option Ref} {y x w : Cell} {b bx bw : ℤ}
  {s cd cn wd wn : Option Ref}

theorem insertSingle_spec (ey : h y.ref = some (obj par y b (pair d (some x.ref) s)))
    (ex : h x.ref = some (obj (some y.ref) x bx (pair d cd cn))) (hyx : y.ref ≠ x.ref) :
    ∃ h', insertSingle d h y.ref x.ref = some h' ∧ h' y.ref = some (obj (some x.ref) y 0 (pair d cn s)) ∧
      h' x.ref = some (obj par x 0 (pair d cd (some y.ref))) ∧
      ∀ a, a ≠ y.ref → a ≠ x.ref → h' a = h a := by
  simp only [insertSingle, store, ey, ex, hyx, hyx.symm, update_of_ne,
    update_self, map_some, bind_eq_bind, bind_some, obj_link,
    obj_setLink, obj_parent, obj_setParent, obj_setBalance, pair_not, update_pair_same,
    update_pair_not, ne_eq, not_false_eq_true]
  refine ⟨_, rfl, ?_, ?_, fun a h1 h2 => ?_⟩ <;>
    simp only [hyx.symm, update_of_ne, update_self, ne_eq, not_false_eq_true, *]

theorem deleteSingle_spec (ey : h y.ref = some (obj par y b (pair d (some x.ref) s)))
    (ex : h x.ref = some (obj (some y.ref) x bx (pair d cd cn))) (hyx : y.ref ≠ x.ref) :
    ∃ h', deleteSingle d h y.ref x.ref = some h' ∧ h' y.ref = some (obj (some x.ref) y b (pair d cn s)) ∧
      h' x.ref = some (obj par x bx (pair d cd (some y.ref))) ∧
      ∀ a, a ≠ y.ref → a ≠ x.ref → h' a = h a := by
  simp only [deleteSingle, store, ey, ex, hyx, hyx.symm, update_of_ne,
    update_self, map_some, bind_eq_bind, bind_some, obj_link,
    obj_setLink, obj_parent, obj_setParent, pair_not, update_pair_same, update_pair_not, ne_eq,
    not_false_eq_true]
  refine ⟨_, rfl, ?_, ?_, fun a h1 h2 => ?_⟩ <;>
    simp only [hyx.symm, update_of_ne, update_self, ne_eq, not_false_eq_true, *]

theorem doubleLinks_spec (ey : h y.ref = some (obj par y b (pair d (some x.ref) s)))
    (ex : h x.ref = some (obj (some y.ref) x bx (pair d cd (some w.ref))))
    (ew : h w.ref = some (obj (some x.ref) w bw (pair d wd wn)))
    (hyx : y.ref ≠ x.ref) (hyw : y.ref ≠ w.ref) (hxw : x.ref ≠ w.ref) :
    ∃ h', doubleLinks d h y.ref x.ref = some (h', w.ref) ∧
      h' y.ref = some (obj (some w.ref) y (dblY d bw) (pair d wn s)) ∧
      h' x.ref = some (obj (some w.ref) x (dblX d bw) (pair d cd wd)) ∧
      h' w.ref = some (obj par w 0 (pair d (some x.ref) (some y.ref))) ∧
      ∀ a, a ≠ y.ref → a ≠ x.ref → a ≠ w.ref → h' a = h a := by
  simp only [doubleLinks, store, ey, ex, ew, hyx, hyw, hxw, hyx.symm, hyw.symm, hxw.symm,
    update_of_ne, update_self, map_some, bind_eq_bind,
    bind_some, obj_link, obj_setLink, obj_parent, obj_setParent, obj_balance,
    obj_setBalance, pair_same, pair_not, update_pair_same, update_pair_not, ne_eq,
    not_false_eq_true]
  refine ⟨_, rfl, ?_, ?_, ?_, fun a h1 h2 h3 => ?_⟩ <;>
    simp only [hyw.symm, hxw.symm, update_of_ne, update_self, ne_eq, not_false_eq_true, *]

end Links

/-! ### Whole rotations -/

section Rotations

variable {h : Heap} {par : Option Ref} {d : Bool} {y x w : Cell} {b bx bw : ℤ} {cx cw : Bool → Tree} {s : Tree}

theorem mem_rotated {a : Ref} : a ∈ refs (.node y b (pair d (.node x bx cx) s)) ↔
      a = y.ref ∨ a = x.ref ∨ a ∈ refs (cx d) ∨ a ∈ refs (cx !d) ∨ a ∈ refs s := by
  rw [mem_refs_node d, pair_same, pair_not, mem_refs_node d]
  tauto

/-- The single rotation, `k` being its writes and `bx'`, `by'` the factors they leave. -/
theorem single_spec {bx' by' : ℤ} {h1 : Heap} (ht : Rep h par (.node y b (pair d (.node x bx cx) s)))
    (hn : (refs (.node y b (pair d (.node x bx cx) s))).Nodup)
    (ey : h1 y.ref = some (obj (some x.ref) y by' (pair d (root (cx !d)) (root s))))
    (ex : h1 x.ref = some (obj par x bx' (pair d (root (cx d)) (some y.ref))))
    (hf : ∀ a, a ≠ y.ref → a ≠ x.ref → h1 a = h a) :
    ∃ h', reparent h1 (root (cx !d)) (some y.ref) = some h' ∧ Rep h' par (rotSingle d y by' x bx' cx s) ∧
      (∀ a, a ∉ refs (.node y b (pair d (.node x bx cx) s)) → h' a = h a) := by
  obtain ⟨-, rx, rs⟩ := (rep_node d).1 ht
  simp only [pair_same, pair_not] at rx rs
  obtain ⟨-, rxd, rxn⟩ := (rep_node d).1 rx
  obtain ⟨n1, n2, n3, n4, n5⟩ := (nodup_node d).1 hn
  simp only [pair_same, pair_not] at n1 n2 n3 n4 n5
  obtain ⟨m1, m2, m3, m4, m5⟩ := (nodup_node d).1 n3
  simp only [mem_refs_node d, not_or] at n1
  have hx : x.ref ∉ refs s := n5 x.ref ((mem_refs_node d).2 (.inl rfl))
  have keep : ∀ t : Tree, y.ref ∉ refs t → x.ref ∉ refs t → ∀ a ∈ refs t, h1 a = h a :=
    fun t hy hx a ha => hf a (by rintro rfl; exact hy ha) (by rintro rfl; exact hx ha)
  obtain ⟨h', e1, e2, e3⟩ :=
    reparent_spec (rxn.congr (keep _ n1.2.2 m2)) m4 (some y.ref)
  have keep' : ∀ t : Tree, y.ref ∉ refs t → x.ref ∉ refs t → (∀ a ∈ refs t, a ∉ refs (cx !d)) →
      ∀ a ∈ refs t, h' a = h a :=
    fun t hy hx hd a ha => (e3 a (hd a ha)).trans (keep t hy hx a ha)
  refine ⟨h', e1, ?_, fun a ha => ?_⟩
  · rw [rotSingle, rep_node d, pair_same, pair_not, rep_node d, pair_same, pair_not]
    refine ⟨(e3 _ m2).trans ex, rxd.congr (keep' _ n1.2.1 m1 m5),
      (e3 _ n1.2.2).trans ey, e2, rs.congr (keep' _ n2 hx ?_)⟩
    exact fun a ha hb => n5 a ((mem_refs_node d).2 (.inr (.inr hb))) ha
  · simp only [mem_rotated, not_or] at ha
    exact (e3 a ha.2.2.2.1).trans (hf a ha.1 ha.2.1)

theorem doubleRotate_spec (ht : Rep h par (.node y b (pair d (.node x bx cx) s)))
    (hn : (refs (.node y b (pair d (.node x bx cx) s))).Nodup) (hw : cx (!d) = .node w bw cw) :
    ∃ h', doubleRotate d h y.ref x.ref = some (h', w.ref) ∧ Rep h' par (rotDouble d y x cx w bw cw s) ∧
      ∀ a, a ∉ refs (.node y b (pair d (.node x bx cx) s)) → h' a = h a := by
  obtain ⟨ey, rx, rs⟩ := (rep_node d).1 ht
  simp only [pair_same, pair_not, root_node] at ey rx rs
  obtain ⟨ex, rxd, rxn⟩ := (rep_node d).1 rx
  rw [hw] at ex rxn
  obtain ⟨ew, rwd, rwn⟩ := (rep_node d).1 rxn
  obtain ⟨n1, n2, n3, n4, n5⟩ := (nodup_node d).1 hn
  simp only [pair_same, pair_not] at n1 n2 n3 n4 n5
  obtain ⟨m1, m2, m3, m4, m5⟩ := (nodup_node d).1 n3
  rw [hw] at m2 m4 m5
  obtain ⟨k1, k2, k3, k4, k5⟩ := (nodup_node d).1 m4
  simp only [mem_refs_node d, hw, not_or] at n1 m2 m5
  simp only [mem_refs_node d, hw] at n5
  obtain ⟨hyx, hycd, hyw, hywd, hywn⟩ := n1
  obtain ⟨hxw, hxwd, hxwn⟩ := m2
  obtain ⟨h1, e1, y1, x1, w1, f1⟩ := doubleLinks_spec ey ex ew hyx hyw hxw
  have keep : ∀ t : Tree, y.ref ∉ refs t → x.ref ∉ refs t → w.ref ∉ refs t →
      ∀ a ∈ refs t, h1 a = h a := fun t hy hx hw a ha =>
    f1 a (by rintro rfl; exact hy ha) (by rintro rfl; exact hx ha) (by rintro rfl; exact hw ha)
  obtain ⟨h2, e2, r2, f2⟩ :=
    reparent_spec (rwd.congr (keep _ hywd hxwd k1)) k3 (some x.ref)
  have hdis : ∀ a ∈ refs (cw !d), a ∉ refs (cw d) := fun a ha hb => k5 a hb ha
  obtain ⟨h3, e3, r3, f3⟩ :=
    reparent_spec ((rwn.congr (keep _ hywn hxwn k2)).congr fun a ha => f2 a (hdis a ha)) k4 (some y.ref)
  have hs : ∀ a ∈ refs s, a ≠ y.ref ∧ a ≠ x.ref ∧ a ≠ w.ref ∧ a ∉ refs (cw d) ∧ a ∉ refs (cw !d) :=
    fun a ha => ⟨by rintro rfl; exact n2 ha, by rintro rfl; exact n5 _ (.inl rfl) ha,
      by rintro rfl; exact n5 _ (.inr (.inr (.inl rfl))) ha,
      fun hb => n5 a (.inr (.inr (.inr (.inl hb)))) ha,
      fun hb => n5 a (.inr (.inr (.inr (.inr hb)))) ha⟩
  have hcd : ∀ a ∈ refs (cx d), a ≠ y.ref ∧ a ≠ x.ref ∧ a ≠ w.ref ∧ a ∉ refs (cw d) ∧
      a ∉ refs (cw !d) := fun a ha =>
    ⟨by rintro rfl; exact hycd ha, by rintro rfl; exact m1 ha, (m5 a ha).1, (m5 a ha).2.1, (m5 a ha).2.2⟩
  have frame : ∀ a, a ≠ y.ref → a ≠ x.ref → a ≠ w.ref → a ∉ refs (cw d) → a ∉ refs (cw !d) →
      h3 a = h a := fun a g1 g2 g3 g4 g5 => (f3 a g5).trans ((f2 a g4).trans (f1 a g1 g2 g3))
  refine ⟨h3, ?_, ?_, fun a ha => ?_⟩
  · have y2 : h2 y.ref = h1 y.ref := f2 _ hywd
    simp only [doubleRotate, e1, x1, y2, y1, e2, e3, bind_eq_bind, bind_some, obj_link, pair_same, pair_not]
    rfl
  · rw [rotDouble, rep_node d, pair_same, pair_not, rep_node d, rep_node d]
    simp only [pair_same, pair_not]
    refine ⟨((f3 _ k2).trans (f2 _ k1)).trans w1,
      ⟨((f3 _ hxwn).trans (f2 _ hxwd)).trans x1, rxd.congr fun a ha => ?_, r2.congr fun a ha => f3 a (k5 a ha)⟩,
      ((f3 _ hywn).trans (f2 _ hywd)).trans y1, r3, rs.congr fun a ha => ?_⟩
    · obtain ⟨g1, g2, g3, g4, g5⟩ := hcd a ha
      exact frame a g1 g2 g3 g4 g5
    · obtain ⟨g1, g2, g3, g4, g5⟩ := hs a ha
      exact frame a g1 g2 g3 g4 g5
  · simp only [mem_rotated, hw, mem_refs_node d (x := w), not_or] at ha
    exact frame a ha.1 ha.2.1 ha.2.2.2.1.1 ha.2.2.2.1.2.1 ha.2.2.2.1.2.2

end Rotations

end OpenSips.Map
