import OpenSips.Lib.AvlTree

/-!
# OpenSips.Lib.InOrder — a tree walked from left to right and back

`order d t` lists the values of a tree in the direction `d`, `beyond d fs` those that lie in that
direction from a hole, the nearest first.  A split of the one at a value is a zipper at its node, so
that the neighbour of a node can be read off its subtree or off the path above it.
-/

namespace OpenSips.Lib.AvlTree

open List

variable {α : Type*}

/-- The values from left to right (`true`) or from right to left (`false`). -/
def order (d : Bool) : AvlTree α → List α
  | nil => []
  | node x _ c => order d (c !d) ++ x :: order d (c d)

/-- The values in direction `d` from a hole, the nearest first. -/
def beyond (d : Bool) : List (Frame α) → List α
  | [] => []
  | f :: fs => (if f.dir = d then [] else f.x :: order d f.sib) ++ beyond d fs

@[simp] theorem order_nil (d : Bool) : order d (nil : AvlTree α) = [] := rfl
@[simp] theorem beyond_nil (d : Bool) : beyond d ([] : List (Frame α)) = [] := rfl

theorem order_true (t : AvlTree α) : order true t = t.toList := by
  induction t with
  | nil => rfl
  | node x b c ih => simp [order, toList, ih]

theorem order_not (d : Bool) (t : AvlTree α) : order (!d) t = (order d t).reverse := by
  induction t with
  | nil => rfl
  | node x b c ih =>
    simp only [order, Bool.not_not, ih, reverse_append, reverse_cons, append_assoc, singleton_append]

theorem order_false (t : AvlTree α) : order false t = t.toList.reverse := by
  rw [← order_true, ← order_not]
  rfl

theorem length_order (d : Bool) (t : AvlTree α) : (order d t).length = t.toList.length := by
  cases d with
  | true => rw [order_true]
  | false => rw [order_false, length_reverse]

theorem beyond_append (d : Bool) (fs gs : List (Frame α)) :
    beyond d (fs ++ gs) = beyond d fs ++ beyond d gs := by
  induction fs with
  | nil => rfl
  | cons f fs ih => simp only [cons_append, beyond, ih, append_assoc]

theorem length_plug (fs : List (Frame α)) (t : AvlTree α) :
    fs.length + t.toList.length ≤ (plug fs t).toList.length := by
  induction fs generalizing t with
  | nil => simp
  | cons f fs ih =>
    have h := ih (f.fill t)
    have hf : t.toList.length < (f.fill t).toList.length := by
      cases hd : f.dir with
      | true =>
        simp [Frame.fill, toList, pair, hd]
        omega
      | false => simp [Frame.fill, toList, pair, hd]
    rw [plug_cons, length_cons]
    omega

theorem append_cons_eq {L R A B : List α} {y x : α} (h : L ++ y :: R = A ++ x :: B) :
    (∃ B', L = A ++ x :: B' ∧ B = B' ++ y :: R) ∨ (A = L ∧ x = y ∧ B = R) ∨
      ∃ A', A = L ++ y :: A' ∧ R = A' ++ x :: B := by
  rcases append_eq_append_iff.1 h with ⟨u, rfl, hu⟩ | ⟨u, rfl, hu⟩
  · cases u with
    | nil =>
      rw [nil_append, cons.injEq] at hu
      exact .inr (.inl ⟨append_nil L, hu.1.symm, hu.2.symm⟩)
    | cons z u =>
      rw [cons_append, cons.injEq] at hu
      exact .inr (.inr ⟨u, by rw [hu.1], hu.2⟩)
  · cases u with
    | nil =>
      rw [nil_append, cons.injEq] at hu
      exact .inr (.inl ⟨(append_nil A).symm, hu.1, hu.2⟩)
    | cons z u =>
      rw [cons_append, cons.injEq] at hu
      exact .inl ⟨u, by rw [hu.1], hu.2⟩

/-- **A split of the values is a zipper.** -/
theorem exists_plug_split {d : Bool} {t : AvlTree α} {A B : List α} {x : α} (h : order d t = A ++ x :: B) :
    ∃ fs b c, t = plug fs (node x b c) ∧ B = order d (c d) ++ beyond d fs := by
  induction t generalizing A B with
  | nil => simp at h
  | node y b c ih =>
    rcases append_cons_eq h with ⟨B', hl, rfl⟩ | ⟨-, rfl, rfl⟩ | ⟨A', -, hr⟩
    · obtain ⟨fs, b', c', e, rfl⟩ := ih (!d) hl
      refine ⟨fs ++ [⟨!d, y, b, c d⟩], b', c', ?_, ?_⟩
      · rw [plug_append, ← e]
        simp only [plug_cons, plug_nil, Frame.fill]
        have hp := pair_eta (!d) c
        rw [Bool.not_not] at hp
        rw [hp]
      · rw [beyond_append, ← append_assoc]
        simp [beyond]
    · exact ⟨[], b, c, rfl, by simp⟩
    · obtain ⟨fs, b', c', e, rfl⟩ := ih d hr
      refine ⟨fs ++ [⟨d, y, b, c !d⟩], b', c', ?_, ?_⟩
      · rw [plug_append, ← e]
        simp only [plug_cons, plug_nil, Frame.fill, pair_eta]
      · rw [beyond_append]
        simp [beyond]

end OpenSips.Lib.AvlTree
