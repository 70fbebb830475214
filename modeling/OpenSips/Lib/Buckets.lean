import Mathlib.Data.List.Nodup

/-!
# OpenSips.Lib.Buckets — doubly linked lists behind the heads of a hash table

Every key has a head; a node knows the one behind it and the one before it, and the first node has none
before it.  Nodes come in at the head and are taken out anywhere.
-/

namespace OpenSips.Lib

open List Option Function

variable {κ ν : Type*}

structure Buckets (κ ν : Type*) where
  head : κ → Option ν
  next : ν → Option ν
  prev : ν → Option ν

namespace Buckets

def empty : Buckets κ ν := ⟨fun _ => none, fun _ => none, fun _ => none⟩

section Operations

variable [DecidableEq κ] [DecidableEq ν]

/-- `x` becomes the first node of `k`. -/
def push (t : Buckets κ ν) (x : ν) (k : κ) : Buckets κ ν :=
  match t.head k with
  | none =>
    { head := Function.update t.head k (some x), next := Function.update t.next x none,
      prev := Function.update t.prev x none }
  | some y =>
    { head := Function.update t.head k (some x), next := Function.update t.next x (some y),
      prev := Function.update (Function.update t.prev y (some x)) x none }

/-- `prev` of the node behind `x` is that of `x`. -/
def skipBack (t : Buckets κ ν) (x : ν) : Buckets κ ν :=
  match t.next x with
  | none => t
  | some y => { t with prev := Function.update t.prev y (t.prev x) }

/-- The node before `x`, or else the head of `k`, leads to the one behind it. -/
def skipOver (t : Buckets κ ν) (x : ν) (k : κ) : Buckets κ ν :=
  match t.prev x with
  | none => { t with head := Function.update t.head k (t.next x) }
  | some y => { t with next := Function.update t.next y (t.next x) }

def unlink (t : Buckets κ ν) (x : ν) (k : κ) : Buckets κ ν := (t.skipBack x).skipOver x k

end Operations

/-- The first node from `a` on with `p`; there is no result if a test has none, or the walk does not end. -/
def find (t : Buckets κ ν) (p : ν → Option Bool) : ℕ → Option ν → Option (Option ν)
  | 0, _ => none
  | _ + 1, none => some none
  | fuel + 1, some x =>
    match p x with
    | none => none
    | some true => some (some x)
    | some false => t.find p fuel (t.next x)

/-- The nodes `l`, linked from `a` on behind `b`. -/
def Linked (t : Buckets κ ν) : Option ν → Option ν → List ν → Prop
  | _, a, [] => a = none
  | b, a, x :: l => a = some x ∧ t.prev x = b ∧ t.Linked (some x) (t.next x) l

structure Holds (t : Buckets κ ν) (L : κ → List ν) : Prop where
  linked : ∀ k, t.Linked none (t.head k) (L k)
  nodup : ∀ k, (L k).Nodup
  apart : ∀ k k' x, x ∈ L k → x ∈ L k' → k = k'

variable {t t' : Buckets κ ν} {a b : Option ν} {x y : ν} {k : κ} {l : List ν} {L : κ → List ν}

section

variable (h : t.Linked b a l)
include h

theorem Linked.congr (hn : ∀ y ∈ l, t'.next y = t.next y)
    (hp : ∀ y ∈ l, t'.prev y = t.prev y) : t'.Linked b a l := by
  induction l generalizing a b with
  | nil => exact h
  | cons y l ih =>
    obtain ⟨h1, h2, h3⟩ := h
    refine ⟨h1, (hp y mem_cons_self).trans h2, ?_⟩
    rw [hn y mem_cons_self]
    exact ih h3 (fun z hz => hn z (mem_cons_of_mem _ hz)) fun z hz => hp z (mem_cons_of_mem _ hz)

theorem Linked.behind {b' : Option ν} (hn : ∀ y ∈ l, t'.next y = t.next y)
    (hp : ∀ y ∈ l, a ≠ some y → t'.prev y = t.prev y) (ha : ∀ y, a = some y → t'.prev y = b')
    (hnd : l.Nodup) : t'.Linked b' a l := by
  cases l with
  | nil => exact h
  | cons y l =>
    obtain ⟨rfl, _, h3⟩ := h
    obtain ⟨hy, _⟩ := nodup_cons.1 hnd
    refine ⟨rfl, ha y rfl, ?_⟩
    rw [hn y mem_cons_self]
    refine h3.congr (fun z hz => hn z (mem_cons_of_mem _ hz)) fun z hz => ?_
    refine hp z (mem_cons_of_mem _ hz) ?_
    intro heq
    rw [some_inj] at heq
    exact hy (heq ▸ hz)

theorem Linked.head_eq : a = l.head? := by
  cases l with
  | nil => exact h
  | cons y l => exact h.1

theorem Linked.unique {b' : Option ν} {l' : List ν} (h' : t.Linked b' a l') : l = l' := by
  induction l generalizing a b b' l' with
  | nil =>
    obtain rfl : a = none := h
    cases l' with
    | nil => rfl
    | cons y l' => exact absurd h'.1 (by simp)
  | cons x l ih =>
    obtain ⟨rfl, _, h3⟩ := h
    cases l' with
    | nil => exact absurd h' (by simp [Linked])
    | cons y l' =>
      obtain ⟨heq, _, h3'⟩ := h'
      cases heq
      rw [ih h3 h3']

theorem Linked.find {p : ν → Option Bool} {q : ν → Bool} {fuel : ℕ}
    (hp : ∀ y ∈ l, p y = some (q y)) (hfuel : l.length < fuel) :
    t.find p fuel a = some (l.find? q) := by
  induction l generalizing a b fuel with
  | nil =>
    obtain rfl : a = none := h
    cases fuel with
    | zero => exact absurd hfuel (Nat.not_lt_zero _)
    | succ fuel => rfl
  | cons y l ih =>
    obtain ⟨rfl, _, h3⟩ := h
    cases fuel with
    | zero => exact absurd hfuel (Nat.not_lt_zero _)
    | succ fuel =>
      rw [Buckets.find, hp y mem_cons_self]
      cases hq : q y with
      | true => rw [find?_cons_of_pos hq]
      | false =>
        rw [find?_cons_of_neg (by rw [hq]; exact Bool.false_ne_true)]
        exact ih h3 (fun z hz => hp z (mem_cons_of_mem _ hz)) (Nat.lt_of_succ_lt_succ hfuel)

end

theorem Holds.mem_of_head (h : t.Holds L) (hk : t.head k = some y) : y ∈ L k :=
  mem_of_head? ((h.linked k).head_eq.symm.trans hk)

theorem holds_empty : (empty : Buckets κ ν).Holds fun _ => [] :=
  ⟨fun _ => rfl, fun _ => nodup_nil, fun _ _ _ h => absurd h not_mem_nil⟩

section Push

variable [DecidableEq κ] [DecidableEq ν]

theorem push_head : (t.push x k).head = Function.update t.head k (some x) := by
  unfold push
  split <;> rfl

theorem push_next : (t.push x k).next = Function.update t.next x (t.head k) := by
  unfold push
  split <;> simp_all

theorem push_prev_self : (t.push x k).prev x = none := by
  unfold push
  split <;> exact update_self ..

theorem push_prev (hy : y ≠ x) (hk : t.head k ≠ some y) : (t.push x k).prev y = t.prev y := by
  unfold push
  split
  · exact update_of_ne hy ..
  · next z hz =>
    rw [hz, ne_eq, some_inj] at hk
    show Function.update (Function.update t.prev z (some x)) x none y = _
    rw [update_of_ne hy, update_of_ne (Ne.symm hk)]

theorem push_prev_head (hy : y ≠ x) (hk : t.head k = some y) : (t.push x k).prev y = some x := by
  unfold push
  rw [hk]
  show Function.update (Function.update t.prev y (some x)) x none y = _
  rw [update_of_ne hy, update_self]

/-- **A new node.** -/
theorem Holds.push (h : t.Holds L) (hx : ∀ k, x ∉ L k) :
    (t.push x k).Holds (Function.update L k (x :: L k)) := by
  have hne : ∀ k' y, y ∈ L k' → y ≠ x := fun k' y hy heq => hx k' (heq ▸ hy)
  refine ⟨fun k' => ?_, fun k' => ?_, fun k₁ k₂ y h1 h2 => ?_⟩
  · by_cases hk : k' = k
    · subst hk
      rw [push_head, update_self, update_self]
      refine ⟨rfl, push_prev_self, ?_⟩
      rw [push_next, update_self]
      refine (h.linked k').behind (fun y hy => ?_) (fun y hy hhead => ?_) (fun y hhead => ?_) (h.nodup k')
      · rw [push_next, update_of_ne (hne k' y hy)]
      · exact push_prev (hne k' y hy) hhead
      · exact push_prev_head (hne k' y (h.mem_of_head hhead)) hhead
    · rw [push_head, update_of_ne hk, update_of_ne hk]
      refine (h.linked k').congr (fun y hy => ?_) fun y hy => ?_
      · rw [push_next, update_of_ne (hne k' y hy)]
      · exact push_prev (hne k' y hy) fun hhead => hk (h.apart k' k y hy (h.mem_of_head hhead))
  · by_cases hk : k' = k
    · subst hk
      rw [update_self]
      exact nodup_cons.2 ⟨hx k', h.nodup k'⟩
    · rw [update_of_ne hk]
      exact h.nodup k'
  · have hmem : ∀ k', y ∈ Function.update L k (x :: L k) k' → y = x ∧ k' = k ∨ y ∈ L k' := by
      intro k' hy
      by_cases hk : k' = k
      · subst hk
        rw [update_self, mem_cons] at hy
        exact hy.imp_left fun heq => ⟨heq, rfl⟩
      · rw [update_of_ne hk] at hy
        exact .inr hy
    rcases hmem k₁ h1 with ⟨rfl, rfl⟩ | h1
    · rcases hmem k₂ h2 with ⟨_, rfl⟩ | h2
      · rfl
      · exact absurd h2 (hx k₂)
    · rcases hmem k₂ h2 with ⟨heq, _⟩ | h2
      · exact absurd (heq ▸ h1) (hx k₁)
      · exact h.apart k₁ k₂ y h1 h2

end Push

section Unlink

variable {A B : List ν}

theorem Linked.at (h : t.Linked b a (A ++ x :: B)) :
    t.prev x = A.getLast?.or b ∧ t.next x = B.head? := by
  induction A generalizing a b with
  | nil =>
    obtain ⟨_, h2, h3⟩ := h
    exact ⟨h2, h3.head_eq⟩
  | cons y A ih =>
    obtain ⟨_, _, h3⟩ := h
    obtain ⟨h4, h5⟩ := ih h3
    refine ⟨h4.trans ?_, h5⟩
    cases A with
    | nil => rfl
    | cons z A => rw [getLast?_cons_cons]; cases hA : (z :: A).getLast? <;> simp_all

theorem Linked.without (h : t.Linked b a (A ++ x :: B)) (hnd : (A ++ x :: B).Nodup)
    (hn : ∀ y ∈ A ++ B, A.getLast? ≠ some y → t'.next y = t.next y)
    (hl : ∀ y, A.getLast? = some y → t'.next y = t.next x)
    (hp : ∀ y ∈ A ++ B, B.head? ≠ some y → t'.prev y = t.prev y)
    (hb : ∀ y, B.head? = some y → t'.prev y = t.prev x) :
    t'.Linked b (if A = [] then t.next x else a) (A ++ B) := by
  induction A generalizing a b with
  | nil =>
    obtain ⟨_, h2, h3⟩ := h
    rw [if_pos rfl]
    refine h3.behind (fun y hy => hn y hy (by simp)) (fun y hy hy' => hp y hy ?_) (fun y hy => ?_)
      (nodup_cons.1 hnd).2
    · rwa [← h3.head_eq]
    · rw [hb y (h3.head_eq.symm.trans hy), h2]
  | cons z A ih =>
    obtain ⟨rfl, h2, h3⟩ := h
    obtain ⟨hz, hnd'⟩ := nodup_cons.1 hnd
    rw [if_neg (cons_ne_nil z A)]
    have hzB : B.head? ≠ some z := fun heq =>
      hz (mem_append_right _ (mem_cons_of_mem _ (mem_of_head? heq)))
    refine ⟨rfl, (hp z mem_cons_self hzB).trans h2, ?_⟩
    have hnext : t'.next z = if A = [] then t.next x else t.next z := by
      cases A with
      | nil => exact hl z rfl
      | cons w A =>
        rw [if_neg (cons_ne_nil w A)]
        refine hn z mem_cons_self fun hlast => hz ?_
        rw [getLast?_cons_cons] at hlast
        exact mem_append_left _ (mem_of_getLast? hlast)
    rw [hnext]
    refine ih h3 hnd' (fun y hy hlast => hn y (mem_cons_of_mem _ hy) ?_) (fun y hlast => hl y ?_)
      (fun y hy => hp y (mem_cons_of_mem _ hy))
    · cases A with
      | nil =>
        intro heq
        obtain rfl : z = y := by simpa using heq
        exact hz (mem_cons_of_mem _ hy)
      | cons w A => rwa [getLast?_cons_cons]
    · cases A with
      | nil => exact absurd hlast (by simp)
      | cons w A => rwa [getLast?_cons_cons]

variable [DecidableEq κ] [DecidableEq ν]

theorem unlink_spec (h : t.Linked none (t.head k) (A ++ x :: B)) (hnd : (A ++ x :: B).Nodup) :
    (t.unlink x k).head = Function.update t.head k (if A = [] then t.next x else t.head k) ∧
      (∀ y, A.getLast? ≠ some y → (t.unlink x k).next y = t.next y) ∧
      (∀ y, A.getLast? = some y → (t.unlink x k).next y = t.next x) ∧
      (∀ y, B.head? ≠ some y → (t.unlink x k).prev y = t.prev y) ∧
      ∀ y, B.head? = some y → (t.unlink x k).prev y = t.prev x := by
  obtain ⟨hprev, hnext⟩ := h.at
  rw [or_none] at hprev
  have hxB : B.head? ≠ some x := fun heq => by
    have := (nodup_append.1 hnd).2.1
    exact (nodup_cons.1 this).1 (mem_of_head? heq)
  obtain ⟨t₁, ht₁⟩ : ∃ t₁, t₁ = t.skipBack x := ⟨_, rfl⟩
  have hback : t₁.head = t.head ∧ t₁.next = t.next ∧ (∀ y, B.head? ≠ some y → t₁.prev y = t.prev y) ∧
      ∀ y, B.head? = some y → t₁.prev y = t.prev x := by
    rw [ht₁, skipBack, hnext]
    cases hB : B.head? with
    | none => exact ⟨rfl, rfl, fun _ _ => rfl, fun y hy => by cases hy⟩
    | some z =>
      refine ⟨rfl, rfl, fun y hy => ?_, fun y hy => ?_⟩
      · exact update_of_ne (fun heq => hy (congrArg some heq.symm)) ..
      · cases hy
        exact update_self ..
  obtain ⟨h1, h2, h3, h4⟩ := hback
  rw [hprev] at h4 ⊢
  rw [unlink, ← ht₁, skipOver, h3 x hxB, hprev, h1, h2]
  cases hA : A.getLast? with
  | none =>
    obtain rfl := getLast?_eq_none_iff.1 hA
    exact ⟨rfl, fun _ _ => rfl, fun y hy => absurd hy (by simp), h3, h4⟩
  | some z =>
    have hne : A ≠ [] := by
      rintro rfl
      cases hA
    rw [if_neg hne, update_eq_self]
    rw [hA] at h4
    refine ⟨rfl, fun y hy => ?_, fun y hy => ?_, h3, h4⟩
    · exact update_of_ne (fun heq => hy (congrArg some heq.symm)) ..
    · cases hy
      exact update_self ..

/-- **A node is taken out.** -/
theorem Holds.unlink (h : t.Holds L) (hx : x ∈ L k) :
    (t.unlink x k).Holds (Function.update L k ((L k).erase x)) := by
  obtain ⟨A, B, hL⟩ := append_of_mem hx
  have hlinked := h.linked k
  have hnd := h.nodup k
  rw [hL] at hlinked hnd
  obtain ⟨h1, h2, h3, h4, h5⟩ := unlink_spec hlinked hnd
  have herase : (L k).erase x = A ++ B := by
    have hxA : x ∉ A := fun hmem => (nodup_append.1 hnd).2.2 x hmem x mem_cons_self rfl
    rw [hL, erase_append_right _ hxA, erase_cons_head]
  refine ⟨fun k' => ?_, fun k' => ?_, fun k₁ k₂ y hy₁ hy₂ => ?_⟩
  · by_cases hk : k' = k
    · subst hk
      rw [h1, update_self, update_self, herase]
      exact hlinked.without hnd (fun y _ => h2 y) h3 (fun y _ => h4 y) h5
    · rw [h1, update_of_ne hk, update_of_ne hk]
      refine (h.linked k').congr (fun y hy => h2 y fun heq => ?_) fun y hy => h4 y fun heq => ?_
      · refine hk (h.apart k' k y hy ?_)
        rw [hL]
        exact mem_append_left _ (mem_of_getLast? heq)
      · refine hk (h.apart k' k y hy ?_)
        rw [hL]
        exact mem_append_right _ (mem_cons_of_mem _ (mem_of_head? heq))
  · by_cases hk : k' = k
    · subst hk
      rw [update_self]
      exact (h.nodup k').erase x
    · rw [update_of_ne hk]
      exact h.nodup k'
  · have hmem : ∀ k', y ∈ Function.update L k ((L k).erase x) k' → y ∈ L k' := by
      intro k' hy
      by_cases hk : k' = k
      · subst hk
        rw [update_self] at hy
        exact mem_of_mem_erase hy
      · rwa [update_of_ne hk] at hy
    exact h.apart k₁ k₂ y (hmem k₁ hy₁) (hmem k₂ hy₂)

end Unlink

end Buckets

end OpenSips.Lib
