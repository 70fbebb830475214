import Mathlib.Data.List.Pairwise
import Mathlib.Data.List.Nodup
import Mathlib.Data.Int.Notation

/-!
# OpenSips.Lib.KeyOrder — three-way comparisons and lists sorted by key

A C style comparison `cmp a b` (negative, zero, positive) that orders its arguments totally, the
keys `a`, `b` with `cmp a b = 0` being the same key.  A list sorted by key is a finite map; `find`
looks a key up, and the lemmas say what inserting or removing one entry does to every lookup.
-/

namespace OpenSips.Lib

open List

variable {κ α : Type*}

/-- `cmp` is a total preorder given by signs. -/
structure LawfulCmp (cmp : κ → κ → ℤ) : Prop where
  neg : ∀ a b, cmp b a = -cmp a b
  trans : ∀ a b c, cmp a b ≤ 0 → cmp b c ≤ 0 → cmp a c ≤ 0

namespace LawfulCmp

variable {cmp : κ → κ → ℤ} (hc : LawfulCmp cmp)

include hc

theorem self (a : κ) : cmp a a = 0 := by
  have := hc.neg a a
  omega

theorem eq_symm {a b : κ} (h : cmp a b = 0) : cmp b a = 0 := by
  rw [hc.neg a b, h]; rfl

variable {a b c : κ}

theorem lt_of_lt_of_le (h1 : cmp a b < 0) (h2 : cmp b c ≤ 0) : cmp a c < 0 := by
  by_contra h
  have h3 : cmp c a ≤ 0 := by have := hc.neg a c; omega
  have h4 := hc.trans b c a h2 h3
  have := hc.neg a b
  omega

theorem lt_of_le_of_lt (h1 : cmp a b ≤ 0) (h2 : cmp b c < 0) : cmp a c < 0 := by
  by_contra h
  have h3 : cmp c a ≤ 0 := by have := hc.neg a c; omega
  have h4 := hc.trans c a b h3 h1
  have := hc.neg b c
  omega

theorem eq_trans (h1 : cmp a b = 0) (h2 : cmp b c = 0) : cmp a c = 0 := by
  have h3 := hc.trans a b c (by omega) (by omega)
  have h4 := hc.trans c b a (by have := hc.neg b c; omega) (by have := hc.neg a b; omega)
  have := hc.neg a c
  omega

end LawfulCmp

section Sorted

variable (cmp : κ → κ → ℤ) (key : α → κ)

def SortedBy (L : List α) : Prop := L.Pairwise fun x y => cmp (key x) (key y) < 0

/-- The entry of a key. -/
def find (k : κ) (L : List α) : Option α := L.find? fun x => decide (cmp k (key x) = 0)

variable {cmp key}

theorem find_isSome {k : κ} {L : List α} : (find cmp key k L).isSome ↔ ∃ x ∈ L, cmp k (key x) = 0 := by
  simp [find, find?_isSome]

variable {x : α}

theorem find_some {k : κ} {L : List α} (h : find cmp key k L = some x) : x ∈ L ∧ cmp k (key x) = 0 :=
  ⟨mem_of_find?_eq_some h, by simpa using find?_some h⟩

theorem find_append (k : κ) (A B : List α) :
    find cmp key k (A ++ B) = (find cmp key k A).or (find cmp key k B) :=
  find?_append

theorem find_congr (hc : LawfulCmp cmp) {k k' : κ} (h : cmp k k' = 0) (L : List α) :
    find cmp key k L = find cmp key k' L := by
  unfold find
  congr 1
  funext x
  have h1 : cmp k (key x) = 0 ↔ cmp k' (key x) = 0 :=
    ⟨fun e => hc.eq_trans (hc.eq_symm h) e, fun e => hc.eq_trans h e⟩
  simp [h1]

variable {A B : List α}

theorem sortedBy_middle : SortedBy cmp key (A ++ x :: B) ↔
      SortedBy cmp key (A ++ B) ∧ (∀ a ∈ A, cmp (key a) (key x) < 0) ∧ ∀ b ∈ B, cmp (key x) (key b) < 0 := by
  simp only [SortedBy, pairwise_append, pairwise_cons, mem_cons, forall_eq_or_imp]
  constructor
  · rintro ⟨h1, ⟨h2, h3⟩, h4⟩
    exact ⟨⟨h1, h3, fun a ha b hb => (h4 a ha).2 b hb⟩, fun a ha => (h4 a ha).1, h2⟩
  · rintro ⟨⟨h1, h3, h4⟩, h5, h2⟩
    exact ⟨h1, ⟨h2, h3⟩, fun a ha => ⟨h5 a ha, h4 a ha⟩⟩

theorem sortedBy_replace {x x' : α} (hx : key x' = key x)
    (h : SortedBy cmp key (A ++ x :: B)) : SortedBy cmp key (A ++ x' :: B) := by
  obtain ⟨h1, h2, h3⟩ := sortedBy_middle.1 h
  exact sortedBy_middle.2 ⟨h1, fun a ha => by rw [hx]; exact h2 a ha, fun b hb => by rw [hx]; exact h3 b hb⟩

theorem find_middle (hc : LawfulCmp cmp) (hs : SortedBy cmp key (A ++ x :: B)) (k : κ) :
    find cmp key k (A ++ x :: B) = if cmp k (key x) = 0 then some x else find cmp key k (A ++ B) := by
  obtain ⟨-, hA, -⟩ := sortedBy_middle.1 hs
  unfold find
  split_ifs with h
  · have hno : A.find? (fun y => decide (cmp k (key y) = 0)) = none := by
      rw [find?_eq_none]
      intro a ha
      have hax := hA a ha
      have : cmp k (key a) ≠ 0 := by
        intro e
        have := hc.eq_trans (hc.eq_symm e) h
        omega
      simpa using this
    rw [find?_append, hno, find?_cons]
    simp [h]
  · rw [find?_append, find?_append, find?_cons]
    simp [h]

theorem find_removed (hc : LawfulCmp cmp)
    (hs : SortedBy cmp key (A ++ x :: B)) {k : κ} (hk : cmp k (key x) = 0) :
    find cmp key k (A ++ B) = none := by
  obtain ⟨-, hA, hB⟩ := sortedBy_middle.1 hs
  have hxk := hc.eq_symm hk
  unfold find
  rw [find?_eq_none]
  intro y hy
  have : cmp k (key y) ≠ 0 := by
    intro e
    have hxy := hc.eq_trans hxk e
    rcases mem_append.1 hy with hy | hy
    · have h1 := hA y hy
      have h2 := hc.neg (key x) (key y)
      omega
    · have := hB y hy; omega
  simpa using this

end Sorted

end OpenSips.Lib
