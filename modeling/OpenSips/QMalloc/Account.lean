import OpenSips.QMalloc.Split
import Mathlib.Data.ZMod.Basic
import Mathlib.Tactic.LinearCombination
import Mathlib.Tactic.Ring

/-!
# OpenSips.QMalloc.Account — `used` and `real_used`

The counters are kept modulo `2 ^ 64`.  `Booked` says that a step charged exactly what it changed;
since a block has less than `2 ^ 64` bytes, a block booked from the start has exact counters
(`Account.used_eq`, `Account.free_eq`).
-/

namespace OpenSips.QMalloc

open List

variable {b : Build} {q q' q'' : QmBlock} {frs frs' frs'' : List Frag}

/-- The fragments on no list, and those on one. -/
def lives (frs : List Frag) : List Frag := frs.filter fun f => !f.free
def frees (frs : List Frag) : List Frag := frs.filter fun f => f.free

/-- The sum of the sizes. -/
def bytes (frs : List Frag) : ℕ := (frs.map Frag.size).sum

section Bytes

variable {A B : List Frag} {f : Frag}

@[simp] theorem lives_append : lives (A ++ B) = lives A ++ lives B := filter_append ..

theorem lives_cons (hf : f.free = false) : lives (f :: A) = f :: lives A := by
  rw [lives, filter_cons, if_pos (by rw [hf]; rfl)]
  rfl

theorem lives_cons_free (hf : f.free = true) : lives (f :: A) = lives A := by
  rw [lives, filter_cons, if_neg (by rw [hf]; decide)]
  rfl

theorem lives_free (h : ∀ g ∈ A, g.free = true) : lives A = [] := by
  rw [lives, filter_eq_nil_iff]
  intro g hg
  rw [h g hg]
  decide

theorem mem_lives : f ∈ lives A ↔ f ∈ A ∧ f.free = false := by
  rw [lives, mem_filter, Bool.not_eq_true']

theorem mem_frees : f ∈ frees A ↔ f ∈ A ∧ f.free = true := mem_filter

@[simp] theorem bytes_append : bytes (A ++ B) = bytes A + bytes B := by
  rw [bytes, map_append, sum_append]
  rfl

@[simp] theorem bytes_cons : bytes (f :: A) = f.size + bytes A := rfl

@[simp] theorem bytes_nil : bytes [] = 0 := rfl

theorem bytes_split (frs : List Frag) : bytes (lives frs) + bytes (frees frs) = bytes frs := by
  induction frs with
  | nil => rfl
  | cons f frs ih =>
    unfold lives frees at ih ⊢
    cases hf : f.free <;> simp only [filter_cons, hf, Bool.not_true, Bool.not_false, if_true,
      Bool.false_eq_true, if_false, bytes_cons] <;> omega

theorem size_le_bytes (hf : f ∈ A) : f.size ≤ bytes A :=
  le_sum_of_mem (List.mem_map_of_mem hf)

theorem bytes_perm (h : A.Perm B) : bytes A = bytes B := (h.map Frag.size).sum_eq

theorem tiled_bytes {a e : ℕ} (h : Tiled b a frs e) :
    a + bytes frs + FRAG_OVERHEAD b * frs.length = e := by
  induction frs generalizing a with
  | nil => simpa [Tiled] using h
  | cons f frs ih =>
    have := ih h.2
    rw [length_cons, bytes_cons, mul_add, mul_one]
    unfold span at this
    rw [FRAG_OVERHEAD] at this ⊢
    omega

end Bytes

/-! ### Counters modulo `2 ^ 64` -/

/-- The values of an `unsigned long`. -/
abbrev Word := ZMod (2 ^ 64)

theorem cast_wrap (n : ℕ) : ((wrap n : ℕ) : Word) = n := ZMod.natCast_mod n _

theorem cast_wsub (m n : ℕ) : ((wsub m n : ℕ) : Word) = m - n := by
  have h : wrap n ≤ 2 ^ 64 := (Nat.mod_lt n (by decide)).le
  rw [wsub, cast_wrap, Nat.cast_add, Nat.cast_sub h, cast_wrap, ZMod.natCast_self]
  ring

theorem wrap_lt (n : ℕ) : wrap n < 2 ^ 64 := Nat.mod_lt n (by decide)

theorem wsub_lt (m n : ℕ) : wsub m n < 2 ^ 64 := wrap_lt _

theorem word_inj {m n : ℕ} (hm : m < 2 ^ 64) (hn : n < 2 ^ 64) (h : (m : Word) = n) : m = n := by
  rw [ZMod.natCast_eq_natCast_iff', Nat.mod_eq_of_lt hm, Nat.mod_eq_of_lt hn] at h
  exact h

theorem wsub_eq {m n : ℕ} (hm : m < 2 ^ 64) (h : n ≤ m) : wsub m n = m - n := by
  refine word_inj (wsub_lt _ _) (by omega) ?_
  rw [cast_wsub, Nat.cast_sub h]

/-- From `q` to `q'` the counters changed as the live fragments did. -/
structure Booked (b : Build) (q : QmBlock) (frs : List Frag) (q' : QmBlock) (frs' : List Frag) :
    Prop where
  used : (q'.used : Word) + bytes (lives frs) = q.used + bytes (lives frs')
  real : (q'.real_used : Word) + bytes (lives frs) + FRAG_OVERHEAD b * frs.length =
    q.real_used + bytes (lives frs') + FRAG_OVERHEAD b * frs'.length
  used_lt : q.used < 2 ^ 64 → q'.used < 2 ^ 64
  real_lt : q.real_used < 2 ^ 64 → q'.real_used < 2 ^ 64

theorem Booked.trans (h : Booked b q frs q' frs') (h' : Booked b q' frs' q'' frs'') :
    Booked b q frs q'' frs'' :=
  ⟨by linear_combination h.used + h'.used, by linear_combination h.real + h'.real,
    fun l => h'.used_lt (h.used_lt l), fun l => h'.real_lt (h.real_lt l)⟩

/-- The counters of a block: what the control block takes, what the fragments take. -/
structure Account (b : Build) (q : QmBlock) (frs : List Frag) : Prop where
  used : (q.used : Word) = bytes (lives frs)
  real : (q.real_used : Word) =
    (q.first_frag - q.qm : ℕ) + bytes (lives frs) + FRAG_OVERHEAD b * frs.length
  used_lt : q.used < 2 ^ 64
  real_lt : q.real_used < 2 ^ 64
  wide : q.qm + q.size = q.last_frag_end + sizeof_frag_end b
  size_lt : q.size < 2 ^ 64

theorem Account.booked (h : Account b q frs) (hb : Booked b q frs q' frs') (ha : SameArena q q') :
    Account b q' frs' := by
  obtain ⟨a1, a2, a3, a4⟩ := ha
  refine ⟨?_, ?_, hb.used_lt h.used_lt, hb.real_lt h.real_lt, by rw [a1, a2, a4]; exact h.wide,
    by rw [a2]; exact h.size_lt⟩
  · linear_combination hb.used + h.used
  · rw [a1, a3]
    linear_combination hb.real + h.real

section Exact

variable {L : ℕ → List ℕ} (hB : Base b q frs) (h : Account b q frs)
include hB h

theorem Account.total :
    (q.first_frag - q.qm) + bytes (lives frs) + bytes (frees frs) + FRAG_OVERHEAD b * frs.length = q.size := by
  have h1 := tiled_bytes hB.tiled
  have h2 := bytes_split frs
  have h3 := h.wide
  have h4 := hB.ctl
  have h5 : q.qm ≤ q.first_frag := by unfold free_hash at h4; omega
  omega

/-- **`used` is what the live fragments hold.** -/
theorem Account.used_eq : q.used = bytes (lives frs) := by
  have h1 := h.total hB
  have h2 := h.size_lt
  exact word_inj h.used_lt (by omega) h.used

theorem Account.real_eq : q.real_used =
    (q.first_frag - q.qm) + bytes (lives frs) + FRAG_OVERHEAD b * frs.length := by
  have h1 := h.total hB
  have h2 := h.size_lt
  refine word_inj h.real_lt (by omega) ?_
  push_cast
  exact h.real

/-- **`size - real_used` is what the free fragments hold.** -/
theorem Account.free_eq : q.size - q.real_used = bytes (frees frs) := by
  have h1 := h.total hB
  rw [h.real_eq hB]
  omega

/-- The early test of `qm_malloc` sees the free bytes. -/
theorem Account.avail : wsub q.size q.real_used = bytes (frees frs) := by
  have h1 := h.total hB
  have h2 := h.real_eq hB
  rw [wsub_eq h.size_lt (by omega), h.free_eq hB]

end Exact

end OpenSips.QMalloc
