import OpenSips.Map.Repr
import OpenSips.Lib.KeyOrder

/-!
# OpenSips.Map.Order — `str_cmp` orders the keys

`strncmp` stops behind a common NUL, so two keys of equal length that agree up to a NUL are the
same key; still the comparison is a total order on the keys it tells apart.
-/

namespace OpenSips.Map

open Lib Lib.AvlTree List

theorem str_cmp_nil_left (t : Str) : str_cmp [] t = -(t.length : ℤ) := by
  simp [str_cmp, strncmp]

theorem str_cmp_nil_right (s : Str) : str_cmp s [] = s.length := by
  cases s <;> simp [str_cmp, strncmp]

theorem toNat_sub_ne_zero {a b : UInt8} (h : a ≠ b) : (a.toNat : ℤ) - b.toNat ≠ 0 := by
  intro e
  exact h (UInt8.toNat_inj.1 (by omega))

theorem str_cmp_cons (a b : UInt8) (s t : Str) : str_cmp (a :: s) (b :: t) =
      if a ≠ b then (a.toNat : ℤ) - b.toNat
      else if a = 0 then (s.length : ℤ) - t.length
      else str_cmp s t := by
  unfold str_cmp
  simp only [length_cons, Nat.add_min_add_right, strncmp]
  by_cases hab : a = b
  · subst hab
    by_cases h0 : a = 0
    · simp [h0]
    · simp [h0]
  · simp [hab, toNat_sub_ne_zero hab]

theorem str_cmp_neg (s t : Str) : str_cmp t s = -str_cmp s t := by
  induction s generalizing t with
  | nil => rw [str_cmp_nil_left, str_cmp_nil_right]; omega
  | cons a s ih =>
    cases t with
    | nil => rw [str_cmp_nil_left, str_cmp_nil_right]
    | cons b t =>
      rw [str_cmp_cons, str_cmp_cons]
      by_cases hab : a = b
      · subst hab
        by_cases h0 : a = 0
        · simp [h0]
        · simp [h0, ih t]
      · rw [if_pos hab, if_pos (Ne.symm hab)]
        omega

theorem str_cmp_trans (s t u : Str) (h1 : str_cmp s t ≤ 0) (h2 : str_cmp t u ≤ 0) : str_cmp s u ≤ 0 := by
  induction s generalizing t u with
  | nil => rw [str_cmp_nil_left]; omega
  | cons a s ih =>
    cases t with
    | nil =>
      rw [str_cmp_nil_right, length_cons] at h1
      omega
    | cons b t =>
      cases u with
      | nil =>
        rw [str_cmp_nil_right, length_cons] at h2
        omega
      | cons c u =>
        rw [str_cmp_cons] at h1 h2 ⊢
        have inj : ∀ x y : UInt8, x.toNat = y.toNat → x = y := fun x y => UInt8.toNat_inj.1
        by_cases hab : a = b
        · subst hab
          by_cases hac : a = c
          · subst hac
            by_cases h0 : a = 0
            · simp only [h0, ne_eq, not_true_eq_false, if_false, if_true] at h1 h2 ⊢
              omega
            · simp only [h0, ne_eq, not_true_eq_false, if_false] at h1 h2 ⊢
              exact ih t u h1 h2
          · rw [if_pos hac] at h2 ⊢
            exact h2
        · rw [if_pos hab] at h1
          have hlt : (a.toNat : ℤ) - b.toNat ≠ 0 := toNat_sub_ne_zero hab
          by_cases hbc : b = c
          · subst hbc
            rw [if_pos hab]
            exact h1
          · rw [if_pos hbc] at h2
            have hac : a ≠ c := by
              rintro rfl
              omega
            rw [if_pos hac]
            omega

/-- **`str_cmp` is a total order** on the keys it tells apart. -/
theorem str_cmp_lawful : LawfulCmp str_cmp := ⟨str_cmp_neg, str_cmp_trans⟩

example : str_cmp [97, 0, 98] [97, 0, 99] = 0 ∧ str_cmp [97] [97, 0] < 0 := by decide

/-! ### Search trees -/

abbrev Sorted (L : List Cell) : Prop := SortedBy str_cmp Cell.key L

/-- The search for `key` went to side `f.dir` at every node of the path. -/
def Turned (key : Str) (fs : Path) : Prop :=
  ∀ f ∈ fs, str_cmp key f.x.key ≠ 0 ∧ f.dir = decide (str_cmp key f.x.key > 0)

theorem turned_split {key : Str} {fs : Path} {M : List Cell} (ht : Turned key fs)
    (hs : Sorted (pathL fs ++ M ++ pathR fs)) :
    (∀ a ∈ pathL fs, str_cmp a.key key < 0) ∧ ∀ b ∈ pathR fs, str_cmp key b.key < 0 := by
  induction fs generalizing M with
  | nil => simp [pathL, pathR]
  | cons f fs ih =>
    obtain ⟨hne, hdir⟩ := ht f (by simp)
    have hfs : Turned key fs := fun g hg => ht g (by simp [hg])
    have hneg := str_cmp_neg key f.x.key
    cases hd : f.dir with
    | true =>
      rw [hd] at hdir
      have hpos : str_cmp key f.x.key > 0 := by simpa using hdir.symm
      simp only [pathL, pathR, hd, if_true, nil_append] at hs ⊢
      have hs' : Sorted (pathL fs ++ (f.sib.toList ++ [f.x] ++ M) ++ pathR fs) := by
        simpa using hs
      obtain ⟨i1, i2⟩ := ih hfs hs'
      refine ⟨fun a ha => ?_, i2⟩
      rcases mem_append.1 ha with ha | ha
      · exact i1 a ha
      · rcases mem_append.1 ha with ha | ha
        · -- left of `f.x`, which is below the key
          have hax : str_cmp a.key f.x.key < 0 := by
            have hs2 : Sorted ((pathL fs ++ f.sib.toList) ++ f.x :: (M ++ pathR fs)) := by
              simpa using hs
            exact (sortedBy_middle.1 hs2).2.1 a (mem_append_right _ ha)
          exact str_cmp_lawful.lt_of_lt_of_le hax (by omega)
        · rw [mem_singleton] at ha
          subst ha
          omega
    | false =>
      rw [hd] at hdir
      have hlt : str_cmp key f.x.key < 0 := by
        have : ¬ str_cmp key f.x.key > 0 := by simpa using hdir.symm
        omega
      simp only [pathL, pathR, hd, Bool.false_eq_true, if_false, append_nil] at hs ⊢
      have hs' : Sorted (pathL fs ++ (M ++ f.x :: f.sib.toList) ++ pathR fs) := by
        simpa using hs
      obtain ⟨i1, i2⟩ := ih hfs hs'
      refine ⟨i1, fun b hb => ?_⟩
      rcases mem_append.1 hb with hb | hb
      · rcases mem_cons.1 hb with rfl | hb
        · exact hlt
        · have hxb : str_cmp f.x.key b.key < 0 := by
            have hs2 : Sorted ((pathL fs ++ M) ++ f.x :: (f.sib.toList ++ pathR fs)) := by
              simpa using hs
            exact (sortedBy_middle.1 hs2).2.2 b (mem_append_left _ hb)
          exact str_cmp_lawful.lt_of_lt_of_le hlt (by omega)
      · exact i2 b hb

theorem sorted_insert {key : Str} {fs : Path} {x : Cell} (hk : x.key = key) (ht : Turned key fs)
    (hs : Sorted (plug fs .nil).toList) :
    Sorted (pathL fs ++ x :: pathR fs) ∧ find str_cmp Cell.key key (plug fs .nil).toList = none := by
  rw [toList_plug, toList_nil] at hs
  obtain ⟨h1, h2⟩ := turned_split ht hs
  rw [append_nil] at hs
  subst hk
  have hm : Sorted (pathL fs ++ x :: pathR fs) := sortedBy_middle.2 ⟨hs, h1, h2⟩
  refine ⟨hm, ?_⟩
  rw [toList_plug, toList_nil, append_nil]
  exact find_removed str_cmp_lawful hm (str_cmp_lawful.self _)

end OpenSips.Map
