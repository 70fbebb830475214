import Mathlib.Data.List.GetD

/-!
# OpenSips.Lib.Attempt — functions that can be refused and can go out of bounds

A computation over a text that gives a value, takes its error return, or reads or writes where it must
not.  `check` is a test with an error return, `bytes` a copy out of the text, `put` one into a field.
-/

namespace OpenSips.Lib

open List

inductive Attempt (α : Type) where
  | ok (a : α)
  | error
  | fault

namespace Attempt

variable {α β : Type}

def bind (x : Attempt α) (f : α → Attempt β) : Attempt β :=
  match x with
  | ok a => f a
  | error => error
  | fault => fault

instance : Monad Attempt where
  pure := ok
  bind := bind

section Rules

variable {x : Attempt α} {f : α → Attempt β} {a : α} {b : β}

@[simp] theorem ok_bind : (ok a >>= f) = f a := rfl

@[simp] theorem error_bind : ((error : Attempt α) >>= f) = error := rfl

@[simp] theorem fault_bind : ((fault : Attempt α) >>= f) = fault := rfl

@[simp] theorem pure_eq : (pure a : Attempt α) = ok a := rfl

theorem bind_eq_ok : (x >>= f) = ok b ↔ ∃ a, x = ok a ∧ f a = ok b := by
  constructor
  · intro h
    cases x with
    | ok a => exact ⟨a, rfl, h⟩
    | error => exact absurd h (by simp)
    | fault => exact absurd h (by simp)
  · rintro ⟨a, rfl, h⟩
    exact h

/-- The first fault is that of `x`, or one behind its value. -/
theorem bind_eq_fault : (x >>= f) = fault ↔ x = fault ∨ ∃ a, x = ok a ∧ f a = fault := by
  constructor
  · intro h
    cases x with
    | ok a => exact .inr ⟨a, rfl, h⟩
    | error => exact absurd h (by simp)
    | fault => exact .inl rfl
  · rintro (rfl | ⟨a, rfl, h⟩)
    · rfl
    · exact h

/-- **What does not fault goes on without one.** -/
theorem bind_ne_fault (hx : x ≠ fault) (hf : ∀ a, x = ok a → f a ≠ fault) : (x >>= f) ≠ fault := by
  intro h
  rcases bind_eq_fault.1 h with h | ⟨a, ha, h⟩
  · exact hx h
  · exact hf a ha h

end Rules

/-- `if (!c) goto error;` -/
def check (c : Prop) [Decidable c] : Attempt Unit := if c then ok () else error

theorem error_ne_fault : (error : Attempt β) ≠ fault := nofun

theorem ok_ne_fault {a : α} : ok a ≠ fault := nofun

theorem map_eq_fault {g : α → β} {x : Attempt α} : g <$> x = fault ↔ x = fault := by
  cases x with
  | ok a => exact iff_of_false ok_ne_fault ok_ne_fault
  | error => exact iff_of_false error_ne_fault error_ne_fault
  | fault => exact iff_of_true rfl rfl

theorem map_eq_ok {g : α → β} {x : Attempt α} {b : β} : g <$> x = ok b ↔ ∃ a, x = ok a ∧ g a = b := by
  cases x with
  | ok a =>
    constructor
    · intro h
      exact ⟨a, rfl, Attempt.ok.inj h⟩
    · rintro ⟨c, h, rfl⟩
      rw [Attempt.ok.inj h]
      rfl
  | error => exact ⟨fun h => (by cases h), fun ⟨_, h, _⟩ => (by cases h)⟩
  | fault => exact ⟨fun h => (by cases h), fun ⟨_, h, _⟩ => (by cases h)⟩

section Checks

variable {c : Prop} [Decidable c] {f : Unit → Attempt β}

theorem check_ok (h : c) : check c = ok () := if_pos h

theorem check_error (h : ¬ c) : check c = error := if_neg h

theorem check_bind_of (h : c) : (check c >>= f) = f () := by rw [check_ok h, ok_bind]

theorem check_bind_of_not (h : ¬ c) : (check c >>= f) = error := by rw [check_error h, error_bind]

theorem check_bind_ne_fault (h : c → f () ≠ fault) : (check c >>= f) ≠ fault := by
  by_cases hc : c
  · rw [check_bind_of hc]
    exact h hc
  · rw [check_bind_of_not hc]
    exact error_ne_fault

theorem check_bind_fault : (check c >>= f) = fault ↔ c ∧ f () = fault := by
  by_cases hc : c
  · rw [check_bind_of hc]
    exact (and_iff_right hc).symm
  · rw [check_bind_of_not hc]
    exact iff_of_false error_ne_fault fun h => hc h.1

end Checks

section Texts

variable {s t u : List α} {i n : ℕ} {f : List α → Attempt β}

/-- `memcpy` of `n` bytes from the `i`-th on. -/
def bytes (s : List α) (i n : ℕ) : Attempt (List α) :=
  if i + n ≤ s.length then ok ((s.drop i).take n) else fault

/-- The `i`-th byte. -/
def byte (s : List α) (i : ℕ) : Attempt α :=
  match s[i]? with
  | some a => ok a
  | none => fault

/-- A text is written to a field of `cap` bytes. -/
def put (cap : ℕ) (s : List α) : Attempt (List α) := if s.length ≤ cap then ok s else fault

theorem bytes_of (h : i + n ≤ s.length) : bytes s i n = ok ((s.drop i).take n) := if_pos h

theorem put_of (h : s.length ≤ n) : put n s = ok s := if_pos h

theorem byte_of (h : i < s.length) : byte s i = ok s[i] := by
  rw [byte, getElem?_eq_getElem h]

theorem byte_getD {d : α} (h : i < s.length) : byte s i = ok (s.getD i d) := by
  rw [byte_of h, getD_eq_getElem _ _ h]

theorem bytes_bind_ne_fault (h : i + n ≤ s.length) (hf : ∀ t, t.length = n → f t ≠ fault) :
    (bytes s i n >>= f) ≠ fault := by
  rw [bytes_of h, ok_bind]
  apply hf
  rw [length_take, length_drop]
  omega

theorem byte_bind_ne_fault {f : α → Attempt β} (h : i < s.length) (hf : ∀ a, f a ≠ fault) :
    (byte s i >>= f) ≠ fault := by
  rw [byte_of h, ok_bind]
  exact hf _

end Texts

section At

variable {s t u : List α} {p n : ℕ}

/-- The text `t` stands at `p`. -/
def At (s : List α) (p : ℕ) (t : List α) : Prop := ∃ pre post, s = pre ++ (t ++ post) ∧ pre.length = p

theorem At.le (h : At s p t) : p + t.length ≤ s.length := by
  obtain ⟨pre, post, rfl, rfl⟩ := h
  rw [length_append, length_append]
  omega

theorem At.left (h : At s p (t ++ u)) : At s p t := by
  obtain ⟨pre, post, rfl, hp⟩ := h
  exact ⟨pre, u ++ post, by rw [append_assoc], hp⟩

theorem At.right (h : At s p (t ++ u)) (hn : t.length = n) : At s (p + n) u := by
  obtain ⟨pre, post, rfl, rfl⟩ := h
  refine ⟨pre ++ t, post, by simp only [append_assoc], ?_⟩
  rw [length_append, hn]

theorem At.tail {a : α} (h : At s p (a :: t)) : At s (p + 1) t := At.right (t := [a]) h rfl

theorem At.bytes (h : At s p t) (hn : t.length = n) : bytes s p n = ok t := by
  have hle := h.le
  obtain ⟨pre, post, rfl, rfl⟩ := h
  subst hn
  rw [bytes_of hle, drop_left, take_left]

theorem At.byte {a : α} (h : At s p (a :: t)) : byte s p = ok a := by
  obtain ⟨pre, post, rfl, rfl⟩ := h
  simp [Attempt.byte]

end At

end Attempt

end OpenSips.Lib
