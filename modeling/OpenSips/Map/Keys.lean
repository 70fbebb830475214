import OpenSips.Map.Refine

/-!
# OpenSips.Map.Keys — which keys the map keeps apart

`strncmp` looks no further than a common NUL, so `str_cmp` tells two keys apart exactly when their
lengths or their texts in front of the first NUL differ.  Keys that it does not tell apart share one
entry.
-/

namespace OpenSips.Map

open Lib List Option

def front (k : Str) : Str := k.takeWhile (· ≠ 0)

@[simp] theorem front_nil : front [] = [] := rfl

theorem front_cons (a : UInt8) (k : Str) : front (a :: k) = if a = 0 then [] else a :: front k := by
  by_cases h : a = 0
  · simp [front, h]
  · simp [front, h]

def Apart (k1 k2 : Str) : Prop := List.length k1 ≠ List.length k2 ∨ front k1 ≠ front k2

instance (k1 k2 : Str) : Decidable (Apart k1 k2) := inferInstanceAs (Decidable (_ ∨ _))

/-- **Which keys `str_cmp` takes for the same.** -/
theorem str_cmp_eq_zero (s t : Str) : str_cmp s t = 0 ↔ s.length = t.length ∧ front s = front t := by
  induction s generalizing t with
  | nil =>
    rw [str_cmp_nil_left]
    constructor
    · intro h
      have ht : t = [] := length_eq_zero_iff.1 (by omega)
      simp [ht]
    · rintro ⟨h, -⟩
      rw [← h]
      rfl
  | cons a s ih =>
    cases t with
    | nil =>
      rw [str_cmp_nil_right, length_cons]
      constructor
      · intro h
        omega
      · rintro ⟨h, -⟩
        simp at h
    | cons b t =>
      rw [str_cmp_cons, front_cons, front_cons]
      simp only [length_cons, Nat.add_right_cancel_iff]
      by_cases hab : a = b
      · subst hab
        by_cases h0 : a = 0
        · simp only [h0, ne_eq, not_true_eq_false, if_false, if_true, and_true]
          omega
        · simp [h0, ih]
      · have hne : (if a = 0 then [] else a :: front s) ≠ if b = 0 then [] else b :: front t := by
          by_cases ha : a = 0
          · have hb : b ≠ 0 := fun hb => hab (ha.trans hb.symm)
            simp [ha, hb]
          · by_cases hb : b = 0
            · simp [ha, hb]
            · simp [ha, hb, hab]
        rw [if_pos hab]
        exact ⟨fun h => absurd h (toNat_sub_ne_zero hab), fun h => absurd h.2 hne⟩

theorem apart_iff (k1 k2 : Str) : Apart k1 k2 ↔ str_cmp k1 k2 ≠ 0 := by
  rw [Apart, ne_eq (str_cmp k1 k2), str_cmp_eq_zero]
  tauto

/-- Two stores, then: each key has its own value, and removing the first key leaves the second.
`n1` and `n2` are the addresses the allocator has for the two nodes. -/
def Separate (m : AvlTable) (k1 k2 : Str) (v1 v2 : Ptr) (n1 n2 : Ref) : Prop :=
  ∃ m1 r1 m2 r2 m3 r3 p1 p2 p3,
    map_put m k1 v1 n1 = some (m1, r1) ∧ map_put m1 k2 v2 n2 = some (m2, r2) ∧
    (map_find m2 k1 = some (some p1) ∧ slotVal m2 p1 = some v1) ∧
    (map_find m2 k2 = some (some p2) ∧ slotVal m2 p2 = some v2) ∧
    map_remove m2 k1 = some (m3, r3) ∧
    (map_find m3 k2 = some (some p3) ∧ slotVal m3 p3 = some v2)

section Runs

variable {m : AvlTable} {g : Contents}

/-- What `map_find` answers in a reached state. -/
theorem found_iff (hr : Reachable m g) (key : Str) (v : Ptr) :
    (∃ p, map_find m key = some (some p) ∧ slotVal m p = some v) ↔ g key = some v := by
  obtain ⟨p, hp, hv, -⟩ := (map_refines hr).1 key
  constructor
  · rintro ⟨q, hq, hqv⟩
    rw [hp] at hq
    cases hq
    rw [← hv]
    exact hqv
  · intro hg
    rw [hg] at hv
    obtain ⟨q, rfl, hqv⟩ := bind_eq_some_iff.1 hv
    exact ⟨q, hp, hqv⟩

theorem put_reaches (hr : Reachable m g) (key : Str) (v : Ptr) {n : Ref} (hn : m.heap n = none) :
    ∃ m' r, map_put m key v n = some (m', r) ∧ Reachable m' (g.put key v) := by
  obtain ⟨m', r, e, -, hr'⟩ := (map_refines hr).2.1 (.put key v n) hn
  obtain ⟨⟨m1, r1⟩, e1, e2⟩ := map_eq_some_iff.1 e
  cases e2
  exact ⟨m1, r1, e1, hr'⟩

theorem remove_reaches (hr : Reachable m g) (key : Str) :
    ∃ m' r, map_remove m key = some (m', r) ∧ Reachable m' (g.erase key) := by
  obtain ⟨m', r, e, -, hr'⟩ := (map_refines hr).2.1 (.remove key) trivial
  obtain ⟨⟨m1, r1⟩, e1, e2⟩ := map_eq_some_iff.1 e
  cases e2
  exact ⟨m1, r1, e1, hr'⟩

end Runs

theorem separate_of {m : AvlTable} {g : Contents} (hr : Reachable m g) {k1 k2 : Str} (v1 v2 : Ptr)
    {n1 n2 : Ref} (h1 : m.heap n1 = none)
    (h2 : ∀ m1 r, map_put m k1 v1 n1 = some (m1, r) → m1.heap n2 = none) (hc : Apart k1 k2) :
    Separate m k1 k2 v1 v2 n1 n2 := by
  rw [apart_iff] at hc
  have hc' : str_cmp k2 k1 ≠ 0 := fun h => hc (str_cmp_lawful.eq_symm h)
  obtain ⟨m1, r1, e1, hr1⟩ := put_reaches hr k1 v1 h1
  obtain ⟨m2, r2, e2, hr2⟩ := put_reaches hr1 k2 v2 (h2 m1 r1 e1)
  obtain ⟨m3, r3, e3, hr3⟩ := remove_reaches hr2 k1
  obtain ⟨p1, hp1⟩ := (found_iff hr2 k1 v1).2 (by simp [Contents.put, hc, str_cmp_lawful.self k1])
  obtain ⟨p2, hp2⟩ := (found_iff hr2 k2 v2).2 (by simp [Contents.put, str_cmp_lawful.self k2])
  obtain ⟨p3, hp3⟩ := (found_iff hr3 k2 v2).2
    (by simp [Contents.erase, Contents.put, hc', str_cmp_lawful.self k2])
  exact ⟨m1, r1, m2, r2, m3, r3, p1, p2, p3, e1, e2, hp1, hp2, e3, hp3⟩

/-- Keys that are not apart share one entry: the second store replaces the first value, and
removing the first key removes the second. -/
theorem not_separate {m : AvlTable} {g : Contents} (hr : Reachable m g) {k1 k2 : Str}
    (h0 : ¬ Apart k1 k2) (v1 v2 : Ptr) {n1 n2 : Ref} (h1 : m.heap n1 = none)
    (h2 : ∀ m1 r, map_put m k1 v1 n1 = some (m1, r) → m1.heap n2 = none) :
    ¬ Separate m k1 k2 v1 v2 n1 n2 := by
  rw [apart_iff, not_not] at h0
  rintro ⟨m1, r1, m2, r2, m3, r3, p1, p2, p3, e1, e2, -, -, e3, hp3⟩
  obtain ⟨m1', r1', e1', hr1⟩ := put_reaches hr k1 v1 h1
  rw [e1] at e1'
  cases e1'
  obtain ⟨m2', r2', e2', hr2⟩ := put_reaches hr1 k2 v2 (h2 m1 r1 e1)
  rw [e2] at e2'
  cases e2'
  obtain ⟨m3', r3', e3', hr3⟩ := remove_reaches hr2 k1
  rw [e3] at e3'
  cases e3'
  have := (found_iff hr3 k2 v2).1 ⟨p3, hp3⟩
  rw [Contents.erase, if_pos (str_cmp_lawful.eq_symm h0)] at this
  cases this

/-- **Which keys the map keeps apart.**  `str_cmp` is a total order; in every state that a run
reaches, two different keys are told apart exactly when their lengths or their texts in front of the
first NUL differ, and then only they keep a value each and survive each other's removal. -/
theorem map_keys_separate {m : AvlTable} {g : Contents} (hr : Reachable m g) {k1 k2 : Str}
    (hne : k1 ≠ k2) (v1 v2 : Ptr) {n1 n2 : Ref} (h1 : m.heap n1 = none)
    (h2 : ∀ m1 r, map_put m k1 v1 n1 = some (m1, r) → m1.heap n2 = none) :
    LawfulCmp str_cmp ∧ ((str_cmp k1 k2 = 0 ↔ k1 = k2) ↔ Apart k1 k2) ∧
      (Separate m k1 k2 v1 v2 n1 n2 ↔ Apart k1 k2) := by
  refine ⟨str_cmp_lawful, ?_, ?_, separate_of hr v1 v2 h1 h2⟩
  · rw [apart_iff]
    exact ⟨fun h h0 => hne (h.1 h0), fun hc => ⟨fun h => absurd h hc, fun h => absurd h hne⟩⟩
  · intro hs
    by_contra h0
    exact not_separate hr h0 v1 v2 h1 h2 hs

theorem map_keys_separate_two : Separate map_create [97] [98] 5 6 0 1 := by
  have h2 : ∀ m1 r, map_put map_create [97] 5 0 = some (m1, r) → m1.heap 1 = none := by
    rintro m1 r e
    cases e
    rfl
  exact (map_keys_separate .init (by decide) 5 6 rfl h2).2.2.2 (by decide)

/-- The keys `00 61` and `00 62` differ in a byte; the map merges them. -/
theorem map_keys_merged :
    str_cmp [0, 97] [0, 98] = 0 ∧ ¬ Separate map_create [0, 97] [0, 98] 5 6 0 1 := by
  have h2 : ∀ m1 r, map_put map_create [0, 97] 5 0 = some (m1, r) → m1.heap 1 = none := by
    rintro m1 r e
    cases e
    rfl
  exact ⟨by decide, not_separate .init (by decide) 5 6 rfl h2⟩

end OpenSips.Map
