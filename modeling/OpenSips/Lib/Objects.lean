import Mathlib.Data.List.Nodup
import Mathlib.Data.List.Range

/-!
# OpenSips.Lib.Objects — objects that are allocated and freed, and lists threaded through them

An access to an object that is not live is a fault (`none`): no address is handed out twice, so a run
without faults frees every object at most once and uses none that was freed.
-/

namespace OpenSips.Lib

open List Option

variable {α : Type*}

/-- The live objects; the addresses from `fresh` on were not handed out yet. -/
structure Objects (α : Type*) where
  get : ℕ → Option α
  fresh : ℕ

namespace Objects

def empty : Objects α := ⟨fun _ => none, 0⟩

/-- A new object at the address `fresh`. -/
def alloc (m : Objects α) (x : α) : Objects α :=
  ⟨fun r => if r = m.fresh then some x else m.get r, m.fresh + 1⟩

/-- A write to a live object. -/
def set (m : Objects α) (r : ℕ) (x : α) : Option (Objects α) :=
  if (m.get r).isSome then some ⟨fun i => if i = r then some x else m.get i, m.fresh⟩ else none

/-- A live object is freed. -/
def free (m : Objects α) (r : ℕ) : Option (Objects α) :=
  if (m.get r).isSome then some ⟨fun i => if i = r then none else m.get i, m.fresh⟩ else none

def Valid (m : Objects α) : Prop := ∀ r x, m.get r = some x → r < m.fresh

/-- What is live outside of `l` stays as it is, and new objects come from the fresh addresses only. -/
structure Frame (l : List ℕ) (m m' : Objects α) : Prop where
  get : ∀ r, r ∉ l → r < m.fresh → m'.get r = m.get r
  fresh : m.fresh ≤ m'.fresh
  valid : m.Valid → m'.Valid

section Frame

variable {m m' m'' : Objects α} {l l' : List ℕ} {r i : ℕ} {x y : α}

theorem Frame.refl (l : List ℕ) (m : Objects α) : Frame l m m := ⟨fun _ _ _ => rfl, le_rfl, id⟩

/-- One change after another; the second may also touch objects that are new since the first. -/
theorem Frame.trans (h : Frame l m m') (h' : Frame l' m' m'')
    (hl : ∀ r ∈ l', r < m.fresh → r ∈ l) : Frame l m m'' :=
  ⟨fun r hr hlt => (h'.get r (fun hmem => hr (hl r hmem hlt))
    (lt_of_lt_of_le hlt h.fresh)).trans (h.get r hr hlt),
    le_trans h.fresh h'.fresh, fun hv => h'.valid (h.valid hv)⟩

theorem Frame.mono (h : Frame l m m') (hl : ∀ r ∈ l, r ∈ l') : Frame l' m m' :=
  ⟨fun r hr hlt => h.get r (fun hmem => hr (hl r hmem)) hlt, h.fresh, h.valid⟩

theorem get_alloc_self : (m.alloc x).get m.fresh = some x := if_pos rfl

theorem get_alloc (h : r ≠ m.fresh) : (m.alloc x).get r = m.get r := if_neg h

theorem Valid.ne_fresh (hv : m.Valid) (h : m.get r = some x) : r ≠ m.fresh :=
  ne_of_lt (hv r x h)

theorem frame_alloc (l : List ℕ) (m : Objects α) (x : α) : Frame l m (m.alloc x) := by
  refine ⟨fun r _ hlt => get_alloc (ne_of_lt hlt), Nat.le_succ _, fun hv r y h => ?_⟩
  by_cases hr : r = m.fresh
  · subst hr
    exact Nat.lt_succ_self _
  · rw [get_alloc hr] at h
    exact Nat.lt_succ_of_lt (hv r y h)

theorem set_spec (h : m.get r = some x) (y : α) : ∃ m', m.set r y = some m' ∧ Frame [r] m m' ∧
    m'.get r = some y ∧ (∀ i, i ≠ r → m'.get i = m.get i) ∧ m'.fresh = m.fresh := by
  have hlive : (m.get r).isSome = true := by rw [h]; rfl
  refine ⟨_, if_pos hlive, ⟨fun i hi _ => if_neg fun e => hi (by simp [e]), le_rfl, ?_⟩,
    if_pos rfl, fun i hi => if_neg hi, rfl⟩
  intro hv i z hz
  by_cases hi : i = r
  · subst hi
    exact hv i x h
  · exact hv i z ((if_neg hi).symm.trans hz)

theorem free_spec (h : m.get r = some x) : ∃ m', m.free r = some m' ∧ Frame [r] m m' ∧
    m'.get r = none ∧ (∀ i, i ≠ r → m'.get i = m.get i) ∧ m'.fresh = m.fresh := by
  have hlive : (m.get r).isSome = true := by rw [h]; rfl
  refine ⟨_, if_pos hlive, ⟨fun i hi _ => if_neg fun e => hi (by simp [e]), le_rfl, ?_⟩,
    if_pos rfl, fun i hi => if_neg hi, rfl⟩
  intro hv i z hz
  by_cases hi : i = r
  · subst hi
    exact absurd ((if_pos rfl).symm.trans hz) (by simp)
  · exact hv i z ((if_neg hi).symm.trans hz)

end Frame

section Segment

variable (next : α → Option ℕ)

/-- The objects `l` are linked by `next`, from the pointer `p` to the pointer `q`. -/
def Segment (m : Objects α) : Option ℕ → List ℕ → Option ℕ → Prop
  | p, [], q => p = q
  | p, r :: l, q => p = some r ∧ ∃ x, m.get r = some x ∧ Segment m (next x) l q

variable {next} {m m' : Objects α} {l l' : List ℕ} {p q : Option ℕ} {r : ℕ} {x : α}

theorem segment_append :
    Segment next m p (l ++ l') q ↔ ∃ s, Segment next m p l s ∧ Segment next m s l' q := by
  induction l generalizing p with
  | nil =>
    constructor
    · exact fun h => ⟨p, rfl, h⟩
    · rintro ⟨s, rfl, h⟩
      exact h
  | cons r l ih =>
    constructor
    · rintro ⟨hp, x, hx, h⟩
      obtain ⟨s, hs, hs'⟩ := ih.1 h
      exact ⟨s, ⟨hp, x, hx, hs⟩, hs'⟩
    · rintro ⟨s, ⟨hp, x, hx, hs⟩, hs'⟩
      exact ⟨hp, x, hx, ih.2 ⟨s, hs, hs'⟩⟩

theorem Segment.congr (h : Segment next m p l q) (hm : ∀ r ∈ l, m'.get r = m.get r) :
    Segment next m' p l q := by
  induction l generalizing p with
  | nil => exact h
  | cons r l ih =>
    obtain ⟨hp, x, hx, h⟩ := h
    exact ⟨hp, x, (hm r mem_cons_self).trans hx, ih h fun i hi => hm i (mem_cons_of_mem _ hi)⟩

theorem Segment.unique (h : Segment next m p l none) (h' : Segment next m p l' none) : l = l' := by
  induction l generalizing p l' with
  | nil =>
    cases l' with
    | nil => rfl
    | cons r l' => exact absurd (h.symm.trans h'.1) (by simp)
  | cons r l ih =>
    obtain ⟨rfl, x, hx, h⟩ := h
    cases l' with
    | nil => exact absurd h' (by simp [Segment])
    | cons r' l' =>
      obtain ⟨hr, x', hx', h'⟩ := h'
      cases hr
      obtain rfl := some.inj (hx.symm.trans hx')
      rw [ih h h']

theorem Segment.live (h : Segment next m p l q) (hr : r ∈ l) : ∃ x, m.get r = some x := by
  induction l generalizing p with
  | nil => cases hr
  | cons i l ih =>
    obtain ⟨-, x, hx, h⟩ := h
    rcases mem_cons.1 hr with rfl | hr
    · exact ⟨x, hx⟩
    · exact ih h hr

theorem Segment.frame (h : Segment next m p l q) (hf : Frame l' m m') (hv : m.Valid)
    (hd : ∀ r ∈ l, r ∉ l') : Segment next m' p l q :=
  h.congr fun r hr => by
    obtain ⟨x, hx⟩ := h.live hr
    exact hf.get r (hd r hr) (hv r x hx)

theorem Segment.relink (h : Segment next m p (l ++ [r]) q) (hx : m'.get r = some x)
    (hm : ∀ i ∈ l, m'.get i = m.get i) : Segment next m' p (l ++ [r]) (next x) := by
  obtain ⟨s, hs, hr', -⟩ := segment_append.1 h
  exact segment_append.2 ⟨s, hs.congr hm, hr', x, hx, rfl⟩

end Segment

section Tally

/-- How many live objects there are with `p`. -/
def tally (m : Objects α) (p : α → Bool) : ℕ := (List.range m.fresh).countP fun r => (m.get r).any p

variable {m m' : Objects α} {r : ℕ} {x y : α} {p : α → Bool} {l : List ℕ}

theorem countP_off {f g : ℕ → Bool} (h : ∀ i ∈ l, i ≠ r → f i = g i) (hr : r ∉ l) :
    l.countP f = l.countP g :=
  countP_congr fun i hi => by rw [h i hi fun heq => hr (heq ▸ hi)]

theorem countP_at {f g : ℕ → Bool} (h : ∀ i ∈ l, i ≠ r → f i = g i) (hnd : l.Nodup) (hr : r ∈ l) :
    l.countP f + (g r).toNat = l.countP g + (f r).toNat := by
  induction l with
  | nil => exact absurd hr not_mem_nil
  | cons i l ih =>
    obtain ⟨hi, hnd⟩ := nodup_cons.1 hnd
    have hl : ∀ j ∈ l, j ≠ r → f j = g j := fun j hj => h j (mem_cons_of_mem _ hj)
    rw [countP_cons, countP_cons]
    by_cases heq : i = r
    · subst heq
      rw [countP_off hl hi]
      cases f i <;> cases g i <;> simp
    · have hrest := ih hl hnd ((mem_cons.1 hr).resolve_left fun e => heq e.symm)
      rw [h i mem_cons_self heq]
      omega

theorem tally_alloc : (m.alloc x).tally p = m.tally p + (p x).toNat := by
  show (List.range (m.fresh + 1)).countP _ = _
  rw [range_succ, countP_append, countP_singleton, get_alloc_self]
  have hrest : (List.range m.fresh).countP (fun r => ((m.alloc x).get r).any p) = m.tally p := by
    apply countP_congr
    intro r hr
    rw [get_alloc (ne_of_lt (mem_range.1 hr))]
  rw [hrest, any_some]
  cases p x <;> rfl

theorem tally_set (hv : m.Valid) (h : m.get r = some x) (hset : m.set r y = some m') :
    m'.tally p + (p x).toNat = m.tally p + (p y).toNat := by
  obtain ⟨m₁, hset₁, _, hself, hother, hfresh⟩ := set_spec h y
  obtain rfl := some_inj.1 (hset₁.symm.trans hset)
  have hcount := countP_at (l := List.range m.fresh) (f := fun i => (m₁.get i).any p)
    (g := fun i => (m.get i).any p) (r := r) (fun i _ hi => by rw [hother i hi]) nodup_range
    (mem_range.2 (hv r x h))
  rw [hself, h, any_some, any_some] at hcount
  rw [tally, tally, hfresh]
  exact hcount

theorem tally_free (hv : m.Valid) (h : m.get r = some x) (hfree : m.free r = some m') :
    m'.tally p + (p x).toNat = m.tally p := by
  obtain ⟨m₁, hfree₁, _, hself, hother, hfresh⟩ := free_spec h
  obtain rfl := some_inj.1 (hfree₁.symm.trans hfree)
  have hcount := countP_at (l := List.range m.fresh) (f := fun i => (m₁.get i).any p)
    (g := fun i => (m.get i).any p) (r := r) (fun i _ hi => by rw [hother i hi]) nodup_range
    (mem_range.2 (hv r x h))
  rw [hself, h, any_some, any_none] at hcount
  rw [tally, tally, hfresh]
  exact hcount

end Tally

end Objects

end OpenSips.Lib
