import OpenSips.Parser.Msg
import OpenSips.Lib.Ring
import Mathlib.Data.List.Perm.Subperm

/-!
# OpenSips.Parser.Shape — the linked structures of a message

The header list is a ring through `NULL`: `headers` and `last_header` are its links there.  A chain
of siblings is a ring through its hook.
-/

namespace OpenSips.Parser

open Lib List Option Function

namespace SipMsg

def Live (m : SipMsg) (h : ℕ) : Prop := m.hdr h ≠ none

variable {m : SipMsg} {h k : ℕ} {x : HdrField}

theorem Live.hdr_eq (hl : m.Live h) : m.hdr h = some (m.field h) := by
  obtain ⟨x, hx⟩ := ne_none_iff_exists'.1 hl
  rw [field, hx, getD_some]

theorem Live.upd (hl : m.Live h) (f : HdrField → HdrField) :
    m.upd h f = some (m.set h (f (m.field h))) := by
  rw [SipMsg.upd, hl.hdr_eq, map_some]

theorem Live.upd_bind {α : Type} (hl : m.Live h) (f : HdrField → HdrField)
    (g : SipMsg → Option α) : (m.upd h f >>= g) = g (m.set h (f (m.field h))) := by
  rw [hl.upd, bind_eq_bind, bind_some]

theorem hdr_set (m : SipMsg) (h : ℕ) (x : HdrField) (k : ℕ) :
    (m.set h x).hdr k = if k = h then some x else m.hdr k :=
  update_apply m.hdr h (some x) k

theorem field_set (m : SipMsg) (h : ℕ) (x : HdrField) (k : ℕ) :
    (m.set h x).field k = if k = h then x else m.field k := by
  rw [field, hdr_set]
  by_cases hk : k = h
  · rw [if_pos hk, if_pos hk, getD_some]
  · rw [if_neg hk, if_neg hk, field]

@[simp] theorem field_set_self (m : SipMsg) (h : ℕ) (x : HdrField) : (m.set h x).field h = x := by
  rw [field_set, if_pos rfl]

theorem field_set_ne (m : SipMsg) (x : HdrField) (hk : k ≠ h) : (m.set h x).field k = m.field k := by
  rw [field_set, if_neg hk]

theorem live_set : (m.set h x).Live k ↔ k = h ∨ m.Live k := by
  rw [Live, hdr_set, Live]
  by_cases hk : k = h
  · simp [hk]
  · simp [hk]

/-- The links of the header list, through `NULL`. -/
def nxt (m : SipMsg) (h : ℕ) : ℕ := if h = 0 then m.headers else (m.field h).next

def prv (m : SipMsg) (h : ℕ) : ℕ := if h = 0 then m.last_header else (m.field h).prev

/-- The links of the siblings `S` of a type. -/
def nxtSib (m : SipMsg) (t : HdrType) (h : ℕ) : ℕ :=
  if h = 0 then m.hook t else (m.field h).next_sibling

def prvSib (m : SipMsg) (S : List ℕ) (h : ℕ) : ℕ :=
  if h = 0 then S.getLastD 0 else (m.field h).prev_sibling

/-- The siblings `S` hang on the hook of `t`, linked in this order. -/
def Siblings (m : SipMsg) (t : HdrType) (S : List ℕ) : Prop :=
  Ring (m.nxtSib t) (m.prvSib S) 0 S

def ofType (m : SipMsg) (t : HdrType) (L : List ℕ) : List ℕ :=
  L.filter fun h => (m.field h).type = t

end SipMsg

/-- Each hook points at the first header of its type, and siblings are linked in list order. -/
structure Hooked (m : SipMsg) (L : List ℕ) : Prop where
  single : ∀ t : HdrType, t.hookKind = .single → m.hook t = (m.ofType t L).headD 0
  siblings : ∀ t : HdrType, t.hookKind = .siblings → m.Siblings t (m.ofType t L)

/-- **The header list of a message is well formed**: `L` is linked both ways between `headers` and
`last_header`, it has all headers, and hooks and siblings follow its order. -/
structure WellFormed (m : SipMsg) (L : List ℕ) : Prop where
  list : Ring m.nxt m.prv 0 L
  live : ∀ h, h ∈ L ↔ m.Live h
  nodup : L.Nodup
  ids : ∀ h ∈ L, h ≠ 0 ∧ h < m.fresh
  hooked : Hooked m L

/-- What is left of a header field without its links to siblings, without its links in the list, and
without both. -/
def HdrField.strip (x : HdrField) : HdrField := { x with next_sibling := 0, prev_sibling := 0 }

def HdrField.unlist (x : HdrField) : HdrField := { x with next := 0, prev := 0 }

def HdrField.core (x : HdrField) : HdrField := x.strip.unlist

/-- The same headers, up to `f`. -/
def SameHdrs (f : HdrField → HdrField) (m m' : SipMsg) : Prop :=
  ∀ k, (m'.hdr k).map f = (m.hdr k).map f

namespace SameHdrs

variable {f g : HdrField → HdrField} {m m' m'' : SipMsg}

theorem trans (h1 : SameHdrs f m m') (h2 : SameHdrs f m' m'') : SameHdrs f m m'' := fun k => (h2 k).trans (h1 k)

theorem of_set {h : ℕ} {x : HdrField} (hl : m.Live h) (hx : f x = f (m.field h)) :
    SameHdrs f m (m.set h x) := by
  intro k
  rw [SipMsg.hdr_set]
  by_cases hk : k = h
  · rw [if_pos hk, hk, hl.hdr_eq, map_some, map_some, hx]
  · rw [if_neg hk]

theorem live_iff (h : SameHdrs f m m') (k : ℕ) : m'.Live k ↔ m.Live k := by
  have := congrArg Option.isSome (h k)
  rw [isSome_map, isSome_map] at this
  rw [SipMsg.Live, SipMsg.Live, ← isSome_iff_ne_none, ← isSome_iff_ne_none, this]

theorem field_eq (h : SameHdrs f m m') (k : ℕ) : f (m'.field k) = f (m.field k) := by
  have := h k
  rw [SipMsg.field, SipMsg.field]
  cases h1 : m'.hdr k with
  | none =>
    cases h2 : m.hdr k with
    | none => rfl
    | some y => simp [h1, h2] at this
  | some x =>
    cases h2 : m.hdr k with
    | none => simp [h1, h2] at this
    | some y => simpa [h1, h2] using this

end SameHdrs

def SibFrame (m m' : SipMsg) : Prop :=
  SameHdrs HdrField.strip m m' ∧ ∃ hdr hook, m' = { m with hdr := hdr, hook := hook }

def ListFrame (m m' : SipMsg) : Prop :=
  SameHdrs HdrField.unlist m m' ∧
    ∃ hdr first last, m' = { m with hdr := hdr, headers := first, last_header := last }

namespace SibFrame

variable {m m' m'' : SipMsg}

theorem refl (m : SipMsg) : SibFrame m m := ⟨fun _ => rfl, m.hdr, m.hook, rfl⟩

theorem trans (h1 : SibFrame m m') (h2 : SibFrame m' m'') : SibFrame m m'' := by
  refine ⟨h1.1.trans h2.1, ?_⟩
  obtain ⟨-, hdr1, hook1, rfl⟩ := h1
  obtain ⟨-, hdr2, hook2, rfl⟩ := h2
  exact ⟨hdr2, hook2, rfl⟩

theorem of_hook (m : SipMsg) (t : HdrType) (h : ℕ) : SibFrame m (m.setHook t h) :=
  ⟨fun _ => rfl, m.hdr, Function.update m.hook t h, rfl⟩

theorem of_set {h : ℕ} {x : HdrField} (hl : m.Live h) (hx : x.strip = (m.field h).strip) :
    SibFrame m (m.set h x) := ⟨.of_set hl hx, _, m.hook, rfl⟩

theorem strip_eq (h : SibFrame m m') (k : ℕ) : (m'.field k).strip = (m.field k).strip :=
  h.1.field_eq k

theorem live_iff (h : SibFrame m m') (k : ℕ) : m'.Live k ↔ m.Live k := h.1.live_iff k

theorem core_eq (h : SibFrame m m') (k : ℕ) : (m'.field k).core = (m.field k).core :=
  congrArg HdrField.unlist (h.strip_eq k)

theorem type_eq (h : SibFrame m m') (k : ℕ) : (m'.field k).type = (m.field k).type := by
  have := congrArg HdrField.type (h.strip_eq k)
  exact this

theorem next_eq (h : SibFrame m m') (k : ℕ) : (m'.field k).next = (m.field k).next := by
  have := congrArg HdrField.next (h.strip_eq k)
  exact this

theorem prev_eq (h : SibFrame m m') (k : ℕ) : (m'.field k).prev = (m.field k).prev := by
  have := congrArg HdrField.prev (h.strip_eq k)
  exact this

theorem headers_eq (h : SibFrame m m') : m'.headers = m.headers := by
  obtain ⟨-, _, _, rfl⟩ := h
  rfl

theorem last_header_eq (h : SibFrame m m') : m'.last_header = m.last_header := by
  obtain ⟨-, _, _, rfl⟩ := h
  rfl

theorem ofType_eq (h : SibFrame m m') (t : HdrType) (L : List ℕ) : m'.ofType t L = m.ofType t L := by
  simp only [SipMsg.ofType, h.type_eq]

end SibFrame

namespace ListFrame

variable {m m' m'' : SipMsg}

theorem refl (m : SipMsg) : ListFrame m m := ⟨fun _ => rfl, m.hdr, m.headers, m.last_header, rfl⟩

theorem trans (h1 : ListFrame m m') (h2 : ListFrame m' m'') : ListFrame m m'' := by
  refine ⟨h1.1.trans h2.1, ?_⟩
  obtain ⟨-, _, _, _, rfl⟩ := h1
  obtain ⟨-, hdr, first, last, rfl⟩ := h2
  exact ⟨hdr, first, last, rfl⟩

theorem of_set {h : ℕ} {x : HdrField} (hl : m.Live h) (hx : x.unlist = (m.field h).unlist) :
    ListFrame m (m.set h x) := ⟨.of_set hl hx, _, m.headers, m.last_header, rfl⟩

theorem of_ends (m : SipMsg) (first last : ℕ) :
    ListFrame m { m with headers := first, last_header := last } :=
  ⟨fun _ => rfl, m.hdr, first, last, rfl⟩

theorem unlist_eq (h : ListFrame m m') (k : ℕ) : (m'.field k).unlist = (m.field k).unlist :=
  h.1.field_eq k

theorem live_iff (h : ListFrame m m') (k : ℕ) : m'.Live k ↔ m.Live k := h.1.live_iff k

theorem core_eq (h : ListFrame m m') (k : ℕ) : (m'.field k).core = (m.field k).core :=
  congrArg HdrField.strip (h.unlist_eq k)

theorem hook_eq (h : ListFrame m m') : m'.hook = m.hook := by
  obtain ⟨-, _, _, _, rfl⟩ := h
  rfl

end ListFrame

namespace SipMsg

variable {m : SipMsg} {t : HdrType} {S : List ℕ} {h : ℕ}

theorem mem_ofType {L : List ℕ} : h ∈ m.ofType t L ↔ h ∈ L ∧ (m.field h).type = t := by
  rw [ofType, mem_filter, decide_eq_true_iff]

theorem Siblings.congr {m' : SipMsg} (hs : m.Siblings t S) (hh : m'.hook t = m.hook t)
    (hf : ∀ k ∈ S, (m'.field k).unlist = (m.field k).unlist) : m'.Siblings t S := by
  refine Chain.congr hs (fun y hy => ?_) fun y hy => ?_
  · rw [nxtSib, nxtSib, hh]
    by_cases h0 : y = 0
    · rw [if_pos h0, if_pos h0]
    · have := congrArg HdrField.next_sibling (hf y ((mem_cons.1 hy).resolve_left h0))
      rw [if_neg h0, if_neg h0]
      exact this
  · rw [prvSib, prvSib]
    by_cases h0 : y = 0
    · rw [if_pos h0, if_pos h0]
    · have := congrArg HdrField.prev_sibling (hf y (hy.resolve_right h0))
      rw [if_neg h0, if_neg h0]
      exact this

theorem Siblings.hook_eq (hs : m.Siblings t S) : m.hook t = S.headD 0 := by
  have := (Chain.mid [] hs).1
  rwa [getLastD_nil, nxtSib, if_pos rfl] at this

/-- The loop of `link_sibling_hdr` stops at the last sibling. -/
theorem last_sibling_chain {a : ℕ} {xs : List ℕ} {fuel : ℕ}
    (hc : Chain (m.nxtSib t) (m.prvSib S) a xs 0) (ha : a ≠ 0) (hx : ∀ k ∈ a :: xs, k ≠ 0 ∧ m.Live k)
    (hf : xs.length < fuel) : last_sibling m fuel a = some (xs.getLastD a) := by
  induction xs generalizing a fuel with
  | nil =>
    obtain ⟨fuel, rfl⟩ : ∃ n, fuel = n + 1 := ⟨fuel - 1, by simp at hf; omega⟩
    have hn : (m.field a).next_sibling = 0 := by
      have := hc.1
      rwa [nxtSib, if_neg ha] at this
    rw [last_sibling, (hx a (mem_cons_self ..)).2.hdr_eq, bind_eq_bind, bind_some, if_pos hn, getLastD_nil]
  | cons y ys ih =>
    obtain ⟨fuel, rfl⟩ : ∃ n, fuel = n + 1 := ⟨fuel - 1, by simp at hf; omega⟩
    obtain ⟨h1, h2, h3⟩ := hc
    have hy := hx y (by simp)
    have hn : (m.field a).next_sibling = y := by rwa [nxtSib, if_neg ha] at h1
    rw [last_sibling, (hx a (mem_cons_self ..)).2.hdr_eq, bind_eq_bind,
      bind_some, hn, if_neg hy.1, getLastD_cons]
    exact ih h3 hy.1 (fun k hk => hx k (mem_cons_of_mem _ hk)) (by rw [length_cons] at hf; omega)

theorem length_le_fresh (hnd : S.Nodup) (hlt : ∀ k ∈ S, k < m.fresh) : S.length ≤ m.fresh := by
  have := (subperm_of_subset hnd fun k hk => mem_range.2 (hlt k hk)).length_le
  rwa [length_range] at this

/-- **`link_sibling_hdr`** puts the header behind its siblings. -/
theorem link_sibling_spec (hs : m.Siblings t S) (hnd : S.Nodup)
    (hS : ∀ k ∈ S, k ≠ 0 ∧ k < m.fresh ∧ m.Live k) (h0 : h ≠ 0) (hl : m.Live h) (hS' : h ∉ S)
    (hn : (m.field h).next_sibling = 0) (hp : (m.field h).prev_sibling = 0) :
    ∃ m', link_sibling_hdr m t h = some m' ∧ SibFrame m m' ∧ m'.Siblings t (S ++ [h]) ∧
      (∀ u ≠ t, m'.hook u = m.hook u) ∧ ∀ k, k ∉ S → k ≠ h → m'.field k = m.field k := by
  have hne0 : (0 : ℕ) ∉ S := fun hm => (hS 0 hm).1 rfl
  cases S with
  | nil =>
    have hk : m.hook t = 0 := by simpa [nxtSib] using hs.1
    refine ⟨m.setHook t h, by rw [link_sibling_hdr, if_pos hk], .of_hook m t h, ?_, ?_, fun _ _ _ => rfl⟩
    · refine ⟨?_, ?_, ?_, ?_⟩
      · rw [nxtSib, if_pos rfl]
        exact update_self ..
      · rw [prvSib, if_neg h0]
        exact hp
      · rw [nxtSib, if_neg h0]
        exact hn
      · rw [prvSib, if_pos rfl]
        rfl
    · intro u hu
      exact update_of_ne hu _ _
  | cons y ys =>
    obtain ⟨h1, h2, h3⟩ := hs
    have hy := hS y (mem_cons_self ..)
    have hk : m.hook t = y := by simpa [nxtSib] using h1
    have hlast : last_sibling m m.fresh (m.hook t) = some (ys.getLastD y) := by
      rw [hk]
      refine last_sibling_chain h3 hy.1 (fun k hk => ⟨(hS k hk).1, (hS k hk).2.2⟩) ?_
      have := length_le_fresh hnd fun k hk => (hS k hk).2.1
      rw [length_cons] at this
      omega
    obtain ⟨z, hz⟩ : ∃ z, z = ys.getLastD y := ⟨_, rfl⟩
    have hzS : z ∈ y :: ys := by
      rw [hz]
      exact getLastD_mem_cons
    have hzh : z ≠ h := fun e => hS' (e ▸ hzS)
    rw [← hz] at hlast
    have hl' : (m.set z { m.field z with next_sibling := h }).Live h := live_set.2 (.inr hl)
    refine ⟨(m.set z { m.field z with next_sibling := h }).set h
      { m.field h with prev_sibling := z }, ?_, ?_, ?_, fun _ _ => rfl, ?_⟩
    · rw [link_sibling_hdr, if_neg (by rw [hk]; exact hy.1), hlast, bind_eq_bind,
        bind_some, (hS z hzS).2.2.upd_bind, hl'.upd, field_set_ne _ _ hzh.symm]
    · have f1 : SibFrame m (m.set z { m.field z with next_sibling := h }) :=
        SibFrame.of_set (hS z hzS).2.2 rfl
      refine f1.trans (SibFrame.of_set hl' ?_)
      rw [field_set_ne _ _ hzh.symm]
      rfl
    · have hfz : ∀ k, k ≠ h → ((m.set z { m.field z with next_sibling := h }).set h
          { m.field h with prev_sibling := z }).field k =
          if k = z then { m.field z with next_sibling := h } else m.field k := by
        intro k hk
        rw [field_set_ne _ _ hk, field_set]
      have hc : Ring (m.nxtSib t) (m.prvSib (y :: ys)) 0 ((y :: ys) ++ []) := by
        rw [append_nil]
        exact ⟨h1, h2, h3⟩
      refine Chain.insert hc (by rw [append_nil]; exact hnd) (by rw [append_nil]; exact hne0)
        (by rw [append_nil]; exact hne0) ?_ ?_ ?_ ?_ ?_ ?_
      · rw [getLastD_cons, ← hz, nxtSib, if_neg (hS z hzS).1, hfz z hzh, if_pos rfl]
      · rw [nxtSib, if_neg h0, field_set_self]
        exact hn
      · rw [getLastD_cons, ← hz, prvSib, if_neg h0, field_set_self]
      · rw [headD_nil, prvSib, if_pos rfl, getLastD_concat]
      · intro k hk hne
        rw [append_nil, mem_cons] at hk
        rw [getLastD_cons, ← hz] at hne
        rw [nxtSib, nxtSib]
        by_cases hk0 : k = 0
        · rw [if_pos hk0, if_pos hk0]
          rfl
        · have hkS := hk.resolve_left hk0
          rw [if_neg hk0, if_neg hk0, hfz k fun e => hS' (e ▸ hkS), if_neg hne]
      · intro k hk hne
        rw [append_nil] at hk
        have hkS := hk.resolve_right hne
        have hkh : k ≠ h := fun e => hS' (e ▸ hkS)
        rw [prvSib, prvSib, if_neg (hS k hkS).1, if_neg (hS k hkS).1, hfz k hkh]
        by_cases hkz : k = z
        · rw [if_pos hkz, hkz]
        · rw [if_neg hkz]
    · intro k hkS hkh
      rw [field_set_ne _ _ hkh, field_set_ne]
      rintro rfl
      exact hkS hzS

theorem ofType_congr {m' : SipMsg} {L : List ℕ}
    (hf : ∀ k ∈ L, (m'.field k).type = (m.field k).type) : m'.ofType t L = m.ofType t L := by
  refine filter_congr fun k hk => ?_
  rw [hf k hk]

end SipMsg

open SipMsg

variable {m m' : SipMsg} {L L' : List ℕ} {h : ℕ} {t : HdrType}

theorem Hooked.congr (hk : Hooked m L) (hh : m'.hook = m.hook)
    (hf : ∀ k ∈ L, (m'.field k).unlist = (m.field k).unlist) : Hooked m' L := by
  have hT : ∀ t, m'.ofType t L = m.ofType t L := fun t => ofType_congr fun k hk => by
    have := congrArg HdrField.type (hf k hk)
    exact this
  constructor
  · intro t ht
    rw [hh, hT, hk.single t ht]
  · intro t ht
    rw [hT]
    exact (hk.siblings t ht).congr (by rw [hh]) fun k hk => hf k (mem_ofType.1 hk).1

/-- **`link_hook`** for a header behind which no other of its type stands. -/
theorem link_hook_spec (L' : List ℕ) (hk : Hooked m L) (ha : ∀ k ∈ L, k ≠ 0 ∧ k < m.fresh ∧ m.Live k)
    (hnd : L.Nodup) (h0 : h ≠ 0) (hl : m.Live h) (hL : h ∉ L)
    (hn : (m.field h).next_sibling = 0) (hp : (m.field h).prev_sibling = 0)
    (ht : (m.field h).type.hookKind ≠ .bad)
    (hsame : m.ofType (m.field h).type L' = m.ofType (m.field h).type L ++ [h])
    (hother : ∀ u ≠ (m.field h).type, m.ofType u L' = m.ofType u L) :
    ∃ m', link_hook m (m.field h).type h = some m' ∧ SibFrame m m' ∧ Hooked m' L' := by
  obtain ⟨t, htt⟩ : ∃ t, t = (m.field h).type := ⟨_, rfl⟩
  rw [← htt] at ht hsame hother ⊢
  cases hkind : t.hookKind with
  | bad => exact absurd hkind ht
  | none =>
    refine ⟨m, by rw [link_hook, hkind], .refl m, ?_, ?_⟩
    · intro u hu
      rw [hother u (by rintro rfl; rw [hkind] at hu; exact absurd hu (by decide)), hk.single u hu]
    · intro u hu
      rw [hother u (by rintro rfl; rw [hkind] at hu; exact absurd hu (by decide))]
      exact hk.siblings u hu
  | single =>
    have hfr : SibFrame m (if m.hook t = 0 then m.setHook t h else m) := by
      by_cases hz : m.hook t = 0
      · rw [if_pos hz]
        exact .of_hook m t h
      · rw [if_neg hz]
        exact .refl m
    have hhook : ∀ u, (if m.hook t = 0 then m.setHook t h else m).hook u =
        if u = t ∧ m.hook t = 0 then h else m.hook u := by
      intro u
      by_cases hz : m.hook t = 0
      · rw [if_pos hz]
        by_cases hu : u = t
        · rw [if_pos ⟨hu, hz⟩, hu]
          exact update_self ..
        · rw [if_neg fun h => hu h.1]
          exact update_of_ne hu _ _
      · rw [if_neg hz, if_neg fun h => hz h.2]
    have hfield : ∀ k, (if m.hook t = 0 then m.setHook t h else m).field k = m.field k := by
      intro k
      by_cases hz : m.hook t = 0
      · rw [if_pos hz]
        rfl
      · rw [if_neg hz]
    refine ⟨_, by rw [link_hook, hkind], hfr, ?_, ?_⟩
    · intro u hu
      rw [hhook, hfr.ofType_eq]
      have hhead := hk.single t hkind
      by_cases hut : u = t
      · subst hut
        rw [hsame]
        cases hS : m.ofType u L with
        | nil =>
          rw [hS] at hhead
          rw [if_pos ⟨rfl, hhead⟩]
          rfl
        | cons y ys =>
          rw [hS] at hhead
          have hy : y ∈ m.ofType u L := by
            rw [hS]
            exact mem_cons_self ..
          rw [if_neg fun hz => (ha y (mem_ofType.1 hy).1).1 (hhead.symm.trans hz.2), hhead]
          rfl
      · rw [if_neg fun h => hut h.1, hother u hut, hk.single u hu]
    · intro u hu
      have hut : u ≠ t := by
        rintro rfl
        rw [hkind] at hu
        exact absurd hu (by decide)
      rw [hfr.ofType_eq, hother u hut]
      exact (hk.siblings u hu).congr (by rw [hhook, if_neg fun h => hut h.1]) fun k _ => by rw [hfield]
  | siblings =>
    obtain ⟨m', e, hfr, hS', hhook, hfield⟩ :=
      link_sibling_spec (hk.siblings t hkind) (hnd.filter _)
        (fun k hk => ha k (mem_ofType.1 hk).1) h0 hl (fun hm => hL (mem_ofType.1 hm).1) hn hp
    refine ⟨m', by rw [link_hook, hkind]; exact e, hfr, ?_, ?_⟩
    · intro u hu
      have hut : u ≠ t := by
        rintro rfl
        rw [hkind] at hu
        exact absurd hu (by decide)
      rw [hfr.ofType_eq, hother u hut, hhook u hut, hk.single u hu]
    · intro u hu
      rw [hfr.ofType_eq]
      by_cases hut : u = t
      · subst hut
        rw [hsame]
        exact hS'
      · rw [hother u hut]
        refine (hk.siblings u hu).congr (hhook u hut) fun k hk => congrArg _ (hfield k ?_ ?_)
        · intro hm
          exact hut ((mem_ofType.1 hk).2.symm.trans (mem_ofType.1 hm).2)
        · rintro rfl
          exact hL (mem_ofType.1 hk).1

end OpenSips.Parser
