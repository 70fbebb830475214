import Mathlib.Data.List.Nodup

/-!
# OpenSips.Lib.NextList — lists whose nodes know the next one

`Linked next p l q`: the pointer `p` leads over the nodes `l` to the pointer `q`; `none` is the null
pointer.
-/

namespace OpenSips.Lib

open List Function

variable {α : Type*}

def Linked (next : α → Option α) : Option α → List α → Option α → Prop
  | p, [], q => p = q
  | p, x :: l, q => p = some x ∧ Linked next (next x) l q

variable {next next' : α → Option α} {p q : Option α} {x y : α} {A B l : List α}

namespace Linked

theorem congr (h : Linked next p l q) (hn : ∀ x ∈ l, next' x = next x) : Linked next' p l q := by
  induction l generalizing p with
  | nil => exact h
  | cons x l ih =>
    refine ⟨h.1, ?_⟩
    rw [hn x mem_cons_self]
    exact ih h.2 fun y hy => hn y (mem_cons_of_mem _ hy)

theorem append : Linked next p (A ++ B) q ↔ ∃ r, Linked next p A r ∧ Linked next r B q := by
  induction A generalizing p with
  | nil => exact ⟨fun h => ⟨p, rfl, h⟩, fun ⟨r, hr, h⟩ => by subst hr; exact h⟩
  | cons x A ih =>
    constructor
    · rintro ⟨hp, h⟩
      obtain ⟨r, hA, hB⟩ := ih.1 h
      exact ⟨r, ⟨hp, hA⟩, hB⟩
    · rintro ⟨r, ⟨hp, hA⟩, hB⟩
      exact ⟨hp, ih.2 ⟨r, hA, hB⟩⟩

theorem unique (h : Linked next p A none) (h' : Linked next p B none) : A = B := by
  induction A generalizing p B with
  | nil =>
    cases B with
    | nil => rfl
    | cons y B => exact absurd (h.symm.trans h'.1) (by simp)
  | cons x A ih =>
    cases B with
    | nil => exact absurd (h'.symm.trans h.1) (by simp)
    | cons y B =>
      obtain rfl : x = y := Option.some_inj.1 (h.1.symm.trans h'.1)
      rw [ih h.2 h'.2]

/-- **A list that ends has no node twice.** -/
theorem nodup (h : Linked next p l none) : l.Nodup := by
  induction l generalizing p with
  | nil => exact nodup_nil
  | cons x l ih =>
    refine nodup_cons.2 ⟨fun hx => ?_, ih h.2⟩
    obtain ⟨A, B, rfl⟩ := append_of_mem hx
    obtain ⟨r, -, hr, hB⟩ := append.1 h.2
    -- the node would lead to the end over `B` and over `A ++ x :: B`
    have e := congrArg List.length (unique h.2 hB)
    rw [length_append, length_cons] at e
    omega

theorem middle (h : Linked next p (A ++ x :: B) q) : Linked next p A (some x) ∧ Linked next (next x) B q := by
  obtain ⟨r, hA, hr, hB⟩ := append.1 h
  exact ⟨hr ▸ hA, hB⟩

theorem head (h : Linked next p l none) : p = l.head? := by
  cases l with
  | nil => exact h
  | cons x l => exact h.1

theorem next_last (h : Linked next p (A ++ [x]) q) : next x = q := h.middle.2

section Writes

variable [DecidableEq α]

theorem update (h : Linked next p l q) (hx : x ∉ l) (r : Option α) :
    Linked (Function.update next x r) p l q :=
  h.congr fun y hy => update_of_ne (fun e => hx (by rw [← e]; exact hy)) _ _

theorem push (h : Linked next p l q) (hx : x ∉ l) :
    Linked (Function.update next x p) (some x) (x :: l) q := by
  refine ⟨rfl, ?_⟩
  rw [update_self]
  exact h.update hx p

theorem redirect (h : Linked next p (A ++ [x]) q) (hx : x ∉ A) (r : Option α) :
    Linked (Function.update next x r) p (A ++ [x]) r := by
  rw [append]
  exact ⟨some x, h.middle.1.update hx r, rfl, update_self ..⟩

/-- **A node is put behind `y`.** -/
theorem insert (h : Linked next p (A ++ y :: B) q) (hnd : (A ++ y :: B).Nodup) (hx : x ∉ A ++ y :: B) :
    Linked (Function.update (Function.update next x (next y)) y (some x)) p (A ++ y :: x :: B) q := by
  obtain ⟨hA, hB⟩ := h.middle
  obtain ⟨-, hyB, hAB⟩ := nodup_append.1 hnd
  rw [mem_append, mem_cons, not_or, not_or] at hx
  have hyA : y ∉ A := fun hy => hAB y hy y mem_cons_self rfl
  rw [append]
  refine ⟨some y, (hA.update hx.1 _).update hyA _, rfl, ?_⟩
  rw [update_self]
  refine ⟨rfl, ?_⟩
  rw [update_of_ne hx.2.1, update_self]
  exact (hB.update hx.2.2 _).update (nodup_cons.1 hyB).1 _

/-- **The node behind `y` is taken out.** -/
theorem remove (h : Linked next p (A ++ y :: x :: B) q) (hnd : (A ++ y :: x :: B).Nodup) :
    Linked (Function.update next y (next x)) p (A ++ y :: B) q := by
  obtain ⟨hA, hy⟩ := h.middle
  obtain ⟨-, hyB, hAB⟩ := nodup_append.1 hnd
  have hyA : y ∉ A := fun hy => hAB y hy y mem_cons_self rfl
  have hyB : y ∉ B := fun hy => (nodup_cons.1 hyB).1 (mem_cons_of_mem _ hy)
  rw [append]
  refine ⟨some y, hA.update hyA _, rfl, ?_⟩
  rw [update_self]
  exact hy.2.update hyB _

end Writes

end Linked

end OpenSips.Lib
