import Mathlib.GroupTheory.Perm.Support

/-!
# OpenSips.Lib.Heap — binary heaps in an array

The array is a function on indices, its first `n` entries are the heap.  A sift moves one entry: on
the way up every pair but the one above the entry is in order, on the way down every pair but the
ones below it.
-/

namespace OpenSips.Lib.Heap

open Function

variable {α κ : Type*}

def parent (i : ℕ) : ℕ := (i - 1) / 2

def swap (a : ℕ → α) (i j : ℕ) : ℕ → α :=
  Function.update (Function.update a i (a j)) j (a i)

/-- What the first `n` entries hold. -/
def bag (a : ℕ → α) (n : ℕ) : Multiset α := (Multiset.range n).map a

theorem parent_lt {i : ℕ} (h : 0 < i) : parent i < i := by
  unfold parent
  omega

theorem swap_apply (a : ℕ → α) (i j k : ℕ) :
    swap a i j k = if k = j then a i else if k = i then a j else a k := by
  simp only [swap, update_apply]

theorem swap_eq_comp (a : ℕ → α) (i j : ℕ) : swap a i j = a ∘ Equiv.swap i j := by
  funext k
  rw [swap_apply, comp_apply, Equiv.swap_apply_def]
  by_cases hi : k = i
  · subst hi
    by_cases hj : k = j
    · rw [if_pos hj, if_pos rfl, hj]
    · rw [if_neg hj, if_pos rfl, if_pos rfl]
  · rw [if_neg hi, if_neg hi]
    by_cases hj : k = j
    · rw [if_pos hj, if_pos hj]
    · rw [if_neg hj, if_neg hj]

theorem bag_swap (a : ℕ → α) {i j n : ℕ} (hi : i < n) (hj : j < n) : bag (swap a i j) n = bag a n := by
  have hs : {k | Equiv.swap i j k ≠ k} ⊆ ((Finset.range n : Finset ℕ) : Set ℕ) := by
    intro k hk
    rw [Finset.coe_range, Set.mem_Iio]
    by_cases h1 : k = i
    · omega
    · by_cases h2 : k = j
      · omega
      · exact absurd (Equiv.swap_apply_of_ne_of_ne h1 h2) hk
  have hm : (Multiset.range n).map (Equiv.swap i j) = Multiset.range n :=
    congrArg Finset.val (Finset.map_perm hs)
  rw [bag, swap_eq_comp, ← Multiset.map_map, hm, bag]

theorem bag_succ (a : ℕ → α) (n : ℕ) : bag a (n + 1) = a n ::ₘ bag a n := by
  rw [bag, Multiset.range_succ, Multiset.map_cons, bag]

theorem bag_congr {a b : ℕ → α} {n : ℕ} (h : ∀ k < n, a k = b k) : bag a n = bag b n :=
  Multiset.map_congr rfl fun k hk => h k (Multiset.mem_range.1 hk)

theorem mem_bag {a : ℕ → α} {n : ℕ} {x : α} : x ∈ bag a n ↔ ∃ k < n, a k = x := by
  simp only [bag, Multiset.mem_map, Multiset.mem_range]

section Order

variable [LinearOrder κ] (p : α → κ)

def Ordered (a : ℕ → α) (n : ℕ) : Prop := ∀ i, 0 < i → i < n → p (a i) ≤ p (a (parent i))

/-- The same but for the pair above `c`; the sons of `c` are below the parent of `c`. -/
structure UpTo (a : ℕ → α) (n c : ℕ) : Prop where
  others : ∀ i, 0 < i → i < n → i ≠ c → p (a i) ≤ p (a (parent i))
  grand : ∀ i, 0 < i → i < n → parent i = c → 0 < c → p (a i) ≤ p (a (parent c))

/-- The same but for the pairs below `c`; the sons of `c` are below the parent of `c`. -/
structure DownFrom (a : ℕ → α) (n c : ℕ) : Prop where
  others : ∀ i, 0 < i → i < n → parent i ≠ c → p (a i) ≤ p (a (parent i))
  grand : ∀ i, 0 < i → i < n → parent i = c → 0 < c → p (a i) ≤ p (a (parent c))

variable {p} {a : ℕ → α} {n c : ℕ}

theorem Ordered.root_max (h : Ordered p a n) {i : ℕ} (hi : i < n) : p (a i) ≤ p (a 0) := by
  induction i using Nat.strong_induction_on with
  | _ i ih =>
    rcases Nat.eq_zero_or_pos i with rfl | h0
    · exact le_rfl
    · have := parent_lt h0
      exact (h i h0 hi).trans (ih _ this (by omega))

theorem Ordered.upTo (h : Ordered p a n) : UpTo p a (n + 1) n := by
  constructor
  · intro i h0 hi hc
    exact h i h0 (by omega)
  · intro i h0 hi hp hc
    have := parent_lt h0
    omega

theorem UpTo.done (h : UpTo p a n c) (hc : 0 < c → p (a c) ≤ p (a (parent c))) : Ordered p a n := by
  intro i h0 hi
  by_cases hic : i = c
  · subst hic
    exact hc h0
  · exact h.others i h0 hi hic

theorem UpTo.swap (h : UpTo p a n c) (h0 : 0 < c) (hc : c < n) (hlt : p (a (parent c)) < p (a c)) :
    UpTo p (swap a (parent c) c) n (parent c) := by
  have hpc := parent_lt h0
  constructor
  · intro i hi0 hi hne
    rw [swap_apply, swap_apply]
    by_cases hic : i = c
    · subst hic
      rw [if_pos rfl, if_neg hpc.ne, if_pos rfl]
      exact hlt.le
    · rw [if_neg hic, if_neg hne]
      by_cases h1 : parent i = c
      · rw [if_pos h1]
        exact h.grand i hi0 hi h1 h0
      · have hi' := h.others i hi0 hi hic
        rw [if_neg h1]
        by_cases h2 : parent i = parent c
        · rw [if_pos h2]
          rw [h2] at hi'
          exact hi'.trans hlt.le
        · rwa [if_neg h2]
  · intro i hi0 hi hp hpp
    have hg := h.others (parent c) hpp (by omega) hpc.ne
    have hgl := parent_lt hpp
    rw [swap_apply, swap_apply, if_neg (show parent (parent c) ≠ c by omega), if_neg hgl.ne]
    by_cases hic : i = c
    · rwa [if_pos hic]
    · rw [if_neg hic]
      by_cases hip : i = parent c
      · have := parent_lt hi0
        omega
      · rw [if_neg hip]
        have hi' := h.others i hi0 hi hic
        rw [hp] at hi'
        exact hi'.trans hg

theorem Ordered.downFrom {b : ℕ → α} {m : ℕ} (h : Ordered p b m) (hm : n ≤ m)
    (hab : ∀ i, 0 < i → i < n → a i = b i) : DownFrom p a n 0 := by
  constructor
  · intro i h0 hi hp
    have := parent_lt h0
    rw [hab i h0 hi, hab (parent i) (Nat.pos_of_ne_zero hp) (by omega)]
    exact h i h0 (by omega)
  · intro i h0 hi hp hc
    exact absurd hc (lt_irrefl 0)

theorem DownFrom.done (h : DownFrom p a n c)
    (hc : ∀ i, 0 < i → i < n → parent i = c → p (a i) ≤ p (a c)) : Ordered p a n := by
  intro i h0 hi
  by_cases hp : parent i = c
  · rw [hp]
    exact hc i h0 hi hp
  · exact h.others i h0 hi hp

theorem DownFrom.swap {s : ℕ} (h : DownFrom p a n c) (hs0 : 0 < s) (hs : s < n)
    (hsc : parent s = c) (hmax : ∀ i, 0 < i → i < n → parent i = c → p (a i) ≤ p (a s))
    (hlt : p (a c) < p (a s)) : DownFrom p (swap a c s) n s := by
  have hcs : c < s := hsc ▸ parent_lt hs0
  constructor
  · intro i hi0 hi hp
    rw [swap_apply, swap_apply, if_neg hp]
    by_cases his : i = s
    · rw [if_pos his, his, hsc, if_pos rfl]
      exact hlt.le
    · rw [if_neg his]
      by_cases hic : i = c
      · rw [if_pos hic]
        have hpc : parent i ≠ c := by
          have := parent_lt hi0
          omega
        rw [if_neg hpc, hic]
        exact h.grand s hs0 hs hsc (by omega)
      · rw [if_neg hic]
        by_cases hpi : parent i = c
        · rw [if_pos hpi]
          exact hmax i hi0 hi hpi
        · rw [if_neg hpi]
          exact h.others i hi0 hi hpi
  · intro i hi0 hi hp hs0
    have := parent_lt hi0
    rw [hsc, swap_apply, swap_apply, if_neg (show i ≠ s by omega), if_neg (show i ≠ c by omega),
      if_neg hcs.ne, if_pos rfl]
    have hi' := h.others i hi0 hi (by omega)
    rwa [hp] at hi'

end Order

end OpenSips.Lib.Heap
