import OpenSips.Lib.Bytes
import Mathlib.Tactic.Common

/-!
# OpenSips.Lib.Printing — texts printed into a buffer of limited size

A printer begins at a position, writes blocks, and fails or returns the position behind its text.  Printers are put one
behind the other, and what each of them does in the room that is left says what they do together.
-/

namespace OpenSips.Lib

open List Option Function

variable {β : Type*}

/-- The blocks that are written, with their positions, in order; and the position behind the text, or a failure. -/
structure Printed (β : Type*) where
  blocks : List (ℕ × List β)
  pos : Option ℕ
  deriving DecidableEq

abbrev Printer (β : Type*) := ℕ → Printed β

section Printers

/-- The memory behind some blocks. -/
def writes (blocks : List (ℕ × List β)) (m : ℕ → β) : ℕ → β := blocks.foldl (fun m x => write m x.1 x.2) m

def Printer.fail : Printer β := fun _ => ⟨[], none⟩

def Printer.skip : Printer β := fun n => ⟨[], some n⟩

/-- A block, of which the first `k` elements belong to the text. -/
def Printer.put (xs : List β) (k : ℕ) : Printer β := fun n => ⟨[(n, xs)], some (n + k)⟩

def Printed.shift (o : Printed β) (n : ℕ) : Printed β :=
  ⟨o.blocks.map fun x => (n + x.1, x.2), o.pos.map (n + ·)⟩

def Printer.seq (p q : Printer β) : Printer β := fun n =>
  match (p n).pos with
  | none => p n
  | some k => ⟨(p n).blocks ++ (q k).blocks, (q k).pos⟩

/-- The printer `p` fails or prints `text`, and writes only between its beginning and `l`. -/
structure Prints (l : ℤ) (n : ℕ) (text : List β) (o : Printed β) : Prop where
  inside : ∀ x ∈ o.blocks, n ≤ x.1 ∧ x.1 + x.2.length ≤ l
  behind : ∀ k, o.pos = some k → k = n + text.length ∧ k ≤ l
  text : o.pos ≠ none → ∀ m, read (writes o.blocks m) n text.length = text

def Good (l : ℤ) (p : Printer β) (text : List β) : Prop := ∀ n : ℕ, n ≤ l → Prints l n text (p n)

end Printers

section Rules

variable {l : ℤ} {n a k : ℕ} {s t xs : List β} {p q : Printer β} {o : Printed β} {blocks blocks' : List (ℕ × List β)}
  {m : ℕ → β}

theorem writes_append : writes (blocks ++ blocks') m = writes blocks' (writes blocks m) := foldl_append

theorem writes_outside {i : ℕ} (h : ∀ x ∈ blocks, i < x.1) : writes blocks m i = m i := by
  induction blocks generalizing m with
  | nil => rfl
  | cons x blocks ih =>
    have hstep : writes (x :: blocks) m i = writes blocks (write m x.1 x.2) i := rfl
    rw [hstep, ih fun y hy => h y (mem_cons_of_mem x hy)]
    exact write_outside (.inl (h x mem_cons_self))

theorem read_writes (h : ∀ x ∈ blocks, a + n ≤ x.1) : read (writes blocks m) a n = read m a n :=
  read_congr fun _ hi => writes_outside fun x hx => lt_of_lt_of_le hi.2 (h x hx)

theorem prints_fail (h : ∀ x ∈ blocks, n ≤ x.1 ∧ x.1 + x.2.length ≤ l) : Prints l n s ⟨blocks, none⟩ :=
  ⟨h, fun k hk => absurd hk (by simp), fun hk => absurd rfl hk⟩

theorem prints_skip (h : n ≤ l) : Prints l n ([] : List β) (Printer.skip n) := by
  refine ⟨fun x hx => absurd hx not_mem_nil, fun k hk => ?_, fun _ m => rfl⟩
  cases hk
  exact ⟨rfl, h⟩

theorem prints_put (hk : k ≤ xs.length) (h : n + xs.length ≤ l) : Prints l n (xs.take k) (Printer.put xs k n) := by
  have hlen : (xs.take k).length = k := length_take_of_le hk
  refine ⟨fun x hx => ?_, fun j hj => ?_, fun _ m => ?_⟩
  · obtain rfl := mem_singleton.1 hx
    exact ⟨Nat.le_refl n, h⟩
  · cases hj
    exact ⟨by rw [hlen], by push_cast; omega⟩
  · have hread : read (write m n xs) n (k + (xs.length - k)) = xs := by
      rw [Nat.add_sub_of_le hk]
      exact read_write
    rw [read_append] at hread
    have htake := congrArg (List.take k) hread
    rw [take_left' length_read] at htake
    rw [hlen]
    exact htake

theorem prints_seq (hp : Prints l n s (p n)) (hq : ∀ k, (p n).pos = some k → Prints l k t (q k)) :
    Prints l n (s ++ t) (p.seq q n) := by
  rw [Printer.seq]
  cases hk : (p n).pos with
  | none => exact ⟨hp.inside, fun k hk' => absurd (hk.symm.trans hk') (by simp), fun hne => absurd hk hne⟩
  | some k =>
    obtain ⟨rfl, hle⟩ := hp.behind k hk
    have hqk := hq _ hk
    refine ⟨fun x hx => ?_, fun j hj => ?_, fun hj m => ?_⟩
    · obtain hx | hx := mem_append.1 hx
      · exact hp.inside x hx
      · obtain ⟨h1, h2⟩ := hqk.inside x hx
        exact ⟨by omega, h2⟩
    · obtain ⟨rfl, hj'⟩ := hqk.behind j hj
      exact ⟨by rw [length_append]; omega, hj'⟩
    · dsimp only
      rw [writes_append, length_append, read_append, hqk.text hj, read_writes fun x hx => (hqk.inside x hx).1,
        hp.text (by rw [hk]; simp)]

theorem Good.seq (hp : Good l p s) (hq : Good l q t) : Good l (p.seq q) (s ++ t) :=
  fun n hn => prints_seq (hp n hn) fun k hk => hq k ((hp n hn).behind k hk).2

theorem writes_shift (blocks : List (ℕ × List β)) (m : ℕ → β) (i : ℕ) :
    writes (blocks.map fun x => (n + x.1, x.2)) m (n + i) = writes blocks (fun i => m (n + i)) i := by
  induction blocks generalizing m with
  | nil => rfl
  | cons x blocks ih =>
    have hstep : (fun i => write m (n + x.1) x.2 (n + i)) = write (fun i => m (n + i)) x.1 x.2 := by
      ext i
      unfold write
      by_cases hx : x.1 ≤ i
      · rw [if_pos hx, if_pos (Nat.add_le_add_left hx n), Nat.add_sub_add_left]
      · rw [if_neg hx, if_neg fun h => hx (Nat.le_of_add_le_add_left h)]
    exact (ih _).trans (congrArg (fun m => writes blocks m i) hstep)

/-- What is printed from 0 on, with less room, is printed from `n` on. -/
theorem prints_shift (h : Prints (l - n) 0 s o) : Prints l n s (o.shift n) := by
  refine ⟨fun x hx => ?_, fun k hk => ?_, fun hk m => ?_⟩
  · obtain ⟨y, hy, rfl⟩ := List.mem_map.1 hx
    have hle := (h.inside y hy).2
    exact ⟨Nat.le_add_right n _, by push_cast; omega⟩
  · obtain ⟨j, hj, rfl⟩ := map_eq_some_iff.1 hk
    obtain ⟨rfl, hle⟩ := h.behind j hj
    exact ⟨by omega, by push_cast at hle ⊢; omega⟩
  · have hpos : o.pos ≠ none := fun hnone => hk (by rw [Printed.shift, hnone]; rfl)
    refine Eq.trans ?_ (h.text hpos fun i => m (n + i))
    rw [read, read, range'_eq_map_range, range'_eq_map_range, List.map_map, List.map_map]
    refine map_congr_left fun i _ => ?_
    change writes _ m (n + i) = writes _ _ (0 + i)
    rw [Nat.zero_add]
    exact writes_shift o.blocks m i

end Rules

/-! ### What is behind the text -/

/-- What `p` prints is followed by `x`, whatever was in the buffer. -/
def Ends (x : β) (p : Printer β) : Prop := ∀ n k, (p n).pos = some k → ∀ m, writes (p n).blocks m k = x

/-- What begins in front of `l` goes on, and writes no more than one place behind its text. -/
def Tidy (l : ℤ) (p : Printer β) : Prop := ∀ n : ℕ, n ≤ l → ∀ k, (p n).pos = some k →
  n ≤ k ∧ ∀ y ∈ (p n).blocks, y.1 + y.2.length ≤ k + 1

section Behind

variable {l : ℤ} {n k : ℕ} {x : β} {s t : List β} {p q r : Printer β} {m : ℕ → β}

theorem seq_of_some (h : (p n).pos = some k) :
    p.seq q n = ⟨(p n).blocks ++ (q k).blocks, (q k).pos⟩ := by
  rw [Printer.seq, h]

theorem seq_of_none (h : (p n).pos = none) : p.seq q n = p n := by
  rw [Printer.seq, h]

theorem seq_pos : (p.seq q n).pos = some k ↔ ∃ j, (p n).pos = some j ∧ (q j).pos = some k := by
  cases h : (p n).pos with
  | none =>
    rw [seq_of_none h, h]
    exact ⟨(fun hk => nomatch hk), fun ⟨_, hj, _⟩ => nomatch hj⟩
  | some j =>
    rw [seq_of_some h]
    constructor
    · exact fun hk => ⟨j, rfl, hk⟩
    · rintro ⟨j', hj, hk⟩
      cases hj
      exact hk

theorem seq_skip : p.seq Printer.skip = p := by
  ext1 n
  cases h : (p n).pos with
  | none => exact seq_of_none h
  | some j =>
    rw [seq_of_some h, Printer.skip, append_nil, ← h]

theorem seq_assoc : (p.seq q).seq r = p.seq (q.seq r) := by
  ext1 n
  cases h : (p n).pos with
  | none =>
    have hpq : (p.seq q n).pos = none := by rw [seq_of_none h, h]
    rw [seq_of_none hpq, seq_of_none h, seq_of_none h]
  | some j =>
    rw [seq_of_some h]
    cases h' : (q j).pos with
    | none =>
      have hpq : (p.seq q n).pos = none := by rw [seq_of_some h, h']
      rw [seq_of_none hpq, seq_of_some h, seq_of_none h']
    | some k =>
      have hpq : (p.seq q n).pos = some k := by rw [seq_of_some h, h']
      rw [seq_of_some hpq, seq_of_some h, seq_of_some h', append_assoc]

theorem Ends.seq (h : Ends x q) : Ends x (p.seq q) := by
  intro n k hk m
  obtain ⟨j, hj, hk⟩ := seq_pos.1 hk
  rw [seq_of_some hj, writes_append]
  exact h j k hk _

theorem Tidy.seq (hg : Good l p s) (hp : Tidy l p) (hq : Tidy l q) : Tidy l (p.seq q) := by
  intro n hn k hk
  obtain ⟨j, hj, hk⟩ := seq_pos.1 hk
  obtain ⟨h1, h2⟩ := hp n hn j hj
  obtain ⟨h3, h4⟩ := hq j ((hg n hn).behind j hj).2 k hk
  refine ⟨h1.trans h3, fun y hy => ?_⟩
  rw [seq_of_some hj] at hy
  rcases mem_append.1 hy with hy | hy
  · have := h2 y hy
    omega
  · exact h4 y hy

theorem writes_below {blocks : List (ℕ × List β)} {i : ℕ} (h : ∀ y ∈ blocks, y.1 + y.2.length ≤ i) :
    writes blocks m i = m i := by
  induction blocks generalizing m with
  | nil => rfl
  | cons y blocks ih =>
    have hstep : writes (y :: blocks) m i = writes blocks (write m y.1 y.2) i := rfl
    rw [hstep, ih fun z hz => h z (mem_cons_of_mem y hz)]
    exact write_outside (.inr (h y mem_cons_self))

theorem Tidy.outside (h : Tidy l p) (hn : n ≤ l) (hk : (p n).pos = some k) {i : ℕ} (hi : k < i) :
    writes (p n).blocks m i = m i := by
  refine writes_below fun y hy => ?_
  have := (h n hn k hk).2 y hy
  omega

theorem shift_shift (o : Printed β) (k n : ℕ) : (o.shift k).shift n = o.shift (n + k) := by
  unfold Printed.shift
  rw [List.map_map, Option.map_map]
  congr 1
  · refine map_congr_left fun y _ => ?_
    simp only [comp_apply, Nat.add_assoc]
  · congr 1
    ext j
    simp only [comp_apply, Nat.add_assoc]

end Behind

end OpenSips.Lib
