import Mathlib.Algebra.Order.Group.Nat
import Mathlib.Data.List.Nodup

/-!
# OpenSips.Lib.Tiling — pieces that lie one after the other

Each piece has a position and a width; `Tiled a l e` says that the pieces of `l` fill what is between `a`
and `e`, in this order.
-/

namespace OpenSips.Lib

open List

variable {α : Type*} (pos width : α → ℕ)

def Tiled : ℕ → List α → ℕ → Prop
  | a, [], e => a = e
  | a, x :: l, e => pos x = a ∧ Tiled (a + width x) l e

variable {pos width} {a e m : ℕ} {l l' : List α} {x y : α}

theorem tiled_append : Tiled pos width a (l ++ l') e ↔ ∃ m, Tiled pos width a l m ∧ Tiled pos width m l' e := by
  induction l generalizing a with
  | nil => exact ⟨fun h => ⟨a, rfl, h⟩, fun ⟨_, rfl, h⟩ => h⟩
  | cons x l ih =>
    rw [cons_append, Tiled, ih]
    constructor
    · rintro ⟨h, m, h1, h2⟩
      exact ⟨m, ⟨h, h1⟩, h2⟩
    · rintro ⟨m, ⟨h, h1⟩, h2⟩
      exact ⟨h, m, h1, h2⟩

section

variable (h : Tiled pos width a l e)
include h

theorem Tiled.le : a ≤ e := by
  induction l generalizing a with
  | nil => exact h.le
  | cons x l ih => exact (Nat.le_add_right _ _).trans (ih h.2)

theorem Tiled.mem (hx : x ∈ l) : a ≤ pos x ∧ pos x + width x ≤ e := by
  induction l generalizing a with
  | nil => exact absurd hx not_mem_nil
  | cons y l ih =>
    obtain ⟨h1, h2⟩ := h
    rcases mem_cons.1 hx with rfl | hx
    · exact ⟨h1.ge, h1 ▸ h2.le⟩
    · obtain ⟨h3, h4⟩ := ih h2 hx
      exact ⟨(Nat.le_add_right _ _).trans h3, h4⟩

theorem Tiled.apart (hx : x ∈ l) (hy : y ∈ l) :
    x = y ∨ pos x + width x ≤ pos y ∨ pos y + width y ≤ pos x := by
  induction l generalizing a with
  | nil => exact absurd hx not_mem_nil
  | cons z l ih =>
    obtain ⟨h1, h2⟩ := h
    rcases mem_cons.1 hx with rfl | hx'
    · rcases mem_cons.1 hy with rfl | hy'
      · exact .inl rfl
      · exact .inr (.inl (h1 ▸ (h2.mem hy').1))
    · rcases mem_cons.1 hy with rfl | hy'
      · exact .inr (.inr (h1 ▸ (h2.mem hx').1))
      · exact ih h2 hx' hy'

theorem Tiled.inj (hw : ∀ x ∈ l, 0 < width x) (hx : x ∈ l) (hy : y ∈ l) (heq : pos x = pos y) : x = y := by
  rcases h.apart hx hy with hxy | hlt | hlt
  · exact hxy
  · exact absurd hlt (by have := hw x hx; omega)
  · exact absurd hlt (by have := hw y hy; omega)

theorem Tiled.nodup (hw : ∀ x ∈ l, 0 < width x) : (l.map pos).Nodup := by
  induction l generalizing a with
  | nil => exact nodup_nil
  | cons x l ih =>
    obtain ⟨h1, h2⟩ := h
    rw [map_cons, nodup_cons]
    refine ⟨fun hx => ?_, ih h2 fun y hy => hw y (mem_cons_of_mem _ hy)⟩
    obtain ⟨y, hy, heq⟩ := List.mem_map.1 hx
    have hle := (h2.mem hy).1
    have hpos := hw x mem_cons_self
    omega

theorem Tiled.length_le (hw : ∀ x ∈ l, 0 < width x) : a + l.length ≤ e := by
  induction l generalizing a with
  | nil => exact h.le
  | cons x l ih =>
    have hle := ih h.2 fun y hy => hw y (mem_cons_of_mem _ hy)
    have hpos := hw x mem_cons_self
    rw [length_cons]
    omega

theorem Tiled.unique (h' : Tiled pos width a l m) : e = m := by
  induction l generalizing a with
  | nil => exact h.symm.trans h'
  | cons x l ih => exact ih h.2 h'.2

end

theorem Tiled.replace {u v w : List α} (h : Tiled pos width a (u ++ (v ++ w)) e)
    (hv : ∀ m n, Tiled pos width m v n → Tiled pos width m l n) :
    Tiled pos width a (u ++ (l ++ w)) e := by
  obtain ⟨m, h1, h2⟩ := tiled_append.1 h
  obtain ⟨n, h3, h4⟩ := tiled_append.1 h2
  exact tiled_append.2 ⟨m, h1, tiled_append.2 ⟨n, hv m n h3, h4⟩⟩

end OpenSips.Lib
