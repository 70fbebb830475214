import Mathlib.Data.List.Basic

/-!
# OpenSips.Lib.Trie — words in a table of first sons and next siblings

The first son of a node stands behind it in the table, its next sibling where `next` says.  A word is walked
down from the first node: the siblings are searched for its letter, and the walk goes on at the first son of
the node found, or stays at a leaf.  When all leaves are only sons, a walk to the leaf of a word `w a` is one
along `w` and then any number of `a`'s.
-/

namespace OpenSips.Lib.Trie

open List Option

variable {α β γ : Type*}

structure Node (α β : Type*) where
  c : α
  final : β
  nr_sons : ℕ
  next : Option ℕ

section Walk

variable (tree : List (Node α β))

/-- The first of the siblings from `i` on with a letter of `p`. -/
def search (p : α → Bool) : ℕ → Option ℕ → Option ℕ
  | 0, _ => none
  | fuel + 1, i => i.bind fun i => (tree[i]?).bind fun x =>
    if p x.c then some i else search p fuel x.next

/-- One letter: no sibling is passed twice. -/
def step (eq : γ → α → Bool) (i : Option ℕ) (g : γ) : Option ℕ :=
  (search tree (eq g) tree.length i).bind fun j => (tree[j]?).map fun x => if x.nr_sons ≠ 0 then j + 1 else j

def walk (eq : γ → α → Bool) (i : Option ℕ) (w : List γ) : Option ℕ := w.foldl (step tree eq) i

/-- What the node says that the walk ends at. -/
def code (eq : γ → α → Bool) (unknown : β) (w : List γ) : β :=
  (((walk tree eq (some 0) w).bind fun i => tree[i]?).map Node.final).getD unknown

/-- The words of the leaves, `path i` being what is in front of node `i`. -/
def words (path : ℕ → List α) : List (List α × β) :=
  (List.range tree.length).filterMap fun i =>
    (tree[i]?).bind fun x => if x.nr_sons = 0 then some (path i ++ [x.c], x.final) else none

end Walk

/-- `path i` is the word in front of node `i`, and leaves are only sons. -/
structure Spelled [DecidableEq α] (tree : List (Node α β)) (unknown : β) (path : ℕ → List α) : Prop where
  root : path 0 = []
  son : ∀ i x, tree[i]? = some x → x.nr_sons ≠ 0 → path (i + 1) = path i ++ [x.c] ∧ x.final = unknown
  sibling : ∀ i x j, tree[i]? = some x → x.next = some j → path j = path i
  leaf : ∀ i x, tree[i]? = some x → x.nr_sons = 0 → x.next = none ∧ x.final ≠ unknown ∧
    walk tree (fun a b => decide (a = b)) (some 0) (path i) = some i

section Spelled

variable [DecidableEq α] {tree : List (Node α β)} {unknown : β} {path : ℕ → List α} {eq : γ → α → Bool}
  {key : γ → α} {p : α → Bool} {i j : ℕ} {x : Node α β} {g : γ} {t : List γ} {u w : List α} {a : α} {f : β}

omit [DecidableEq α] in
theorem mem_words : (w, f) ∈ words tree path ↔
    ∃ i x, tree[i]? = some x ∧ x.nr_sons = 0 ∧ w = path i ++ [x.c] ∧ f = x.final := by
  rw [words, mem_filterMap]
  constructor
  · rintro ⟨i, -, hi⟩
    obtain ⟨x, hx, hw⟩ := bind_eq_some_iff.1 hi
    split_ifs at hw with hleaf
    cases hw
    exact ⟨i, x, hx, hleaf, rfl, rfl⟩
  · rintro ⟨i, x, hx, hleaf, rfl, rfl⟩
    have hlt : i < tree.length := (List.getElem?_eq_some_iff.1 hx).1
    exact ⟨i, mem_range.2 hlt, by rw [hx, bind_some, if_pos hleaf]⟩

theorem search_spec (hs : Spelled tree unknown path) : ∀ {fuel i}, search tree p fuel (some i) = some j →
    ∃ x, tree[j]? = some x ∧ p x.c = true ∧ path j = path i ∧ (∀ y, tree[i]? = some y → y.nr_sons = 0 → j = i)
  | 0, _, h => by cases h
  | fuel + 1, i, h => by
    rw [search, bind_some] at h
    obtain ⟨y, hy, h⟩ := bind_eq_some_iff.1 h
    split_ifs at h with hp
    · cases h
      exact ⟨y, hy, hp, rfl, fun _ _ _ => rfl⟩
    · cases hn : y.next with
      | none =>
        rw [hn] at h
        cases fuel <;> cases h
      | some k =>
        rw [hn] at h
        obtain ⟨x, hx, hpx, hpath, -⟩ := search_spec hs h
        refine ⟨x, hx, hpx, hpath.trans (hs.sibling i y k hy hn), fun z hz hleaf => ?_⟩
        obtain rfl := some.inj (hy.symm.trans hz)
        rw [(hs.leaf i y hy hleaf).1] at hn
        cases hn

def Reached (tree : List (Node α β)) (path : ℕ → List α) (i : ℕ) (w : List α) : Prop :=
  w = path i ∨ ∃ x k, tree[i]? = some x ∧ x.nr_sons = 0 ∧ w = path i ++ List.replicate k x.c

theorem step_reached (hs : Spelled tree unknown path) (hkey : ∀ g a, eq g a = true ↔ key g = a)
    (hr : Reached tree path i w) (h : step tree eq (some i) g = some j) : Reached tree path j (w ++ [key g]) := by
  obtain ⟨k, hk, h⟩ := bind_eq_some_iff.1 h
  obtain ⟨x, hx, h⟩ := map_eq_some_iff.1 h
  obtain ⟨x', hx', hc, hpath, hleaf⟩ := search_spec hs hk
  obtain rfl := some.inj (hx.symm.trans hx')
  have hg : key g = x.c := (hkey g x.c).1 hc
  rw [hg]
  subst h
  by_cases hsons : x.nr_sons = 0
  · rw [if_neg (not_not_intro hsons)]
    rcases hr with rfl | ⟨y, n, hy, hy0, rfl⟩
    · exact .inr ⟨x, 1, hx, hsons, by rw [hpath]; rfl⟩
    · obtain rfl := hleaf y hy hy0
      obtain rfl := some.inj (hx.symm.trans hy)
      exact .inr ⟨x, n + 1, hx, hsons, by rw [append_assoc, ← replicate_succ']⟩
  · rw [if_pos hsons]
    rcases hr with rfl | ⟨y, n, hy, hy0, rfl⟩
    · exact .inl (by rw [(hs.son k x hx hsons).1, hpath])
    · obtain rfl := hleaf y hy hy0
      obtain rfl := some.inj (hx.symm.trans hy)
      exact absurd hy0 hsons

/-- **A walk** reads the word in front of the node where it ends, but that it goes on at a leaf. -/
theorem walk_reached (hs : Spelled tree unknown path) (hkey : ∀ g a, eq g a = true ↔ key g = a) :
    ∀ {t i w}, Reached tree path i w → walk tree eq (some i) t = some j → Reached tree path j (w ++ t.map key)
  | [], i, w, hr, h => by
    cases h
    rwa [map_nil, append_nil]
  | g :: t, i, w, hr, h => by
    rw [walk, foldl_cons] at h
    cases hg : step tree eq (some i) g with
    | none =>
      exfalso
      rw [hg] at h
      have hnone : ∀ t : List γ, t.foldl (step tree eq) none = none := by
        intro t
        induction t with
        | nil => rfl
        | cons g t ih =>
          rw [foldl_cons, step]
          cases tree.length <;> exact ih
      rw [hnone] at h
      cases h
    | some k =>
      rw [hg] at h
      have hw := walk_reached hs hkey (step_reached hs hkey hr hg) h
      rwa [append_assoc] at hw

theorem walk_key (hkey : ∀ g a, eq g a = true ↔ key g = a) (i : Option ℕ) (t : List γ) :
    walk tree eq i t = walk tree (fun a b => decide (a = b)) i (t.map key) := by
  have heq : ∀ g, eq g = fun b => decide (key g = b) := fun g => by
    funext b
    rw [Bool.eq_iff_iff, hkey, decide_eq_true_iff]
  rw [walk, walk, foldl_map]
  congr 1
  funext i g
  rw [step, step, heq]

theorem walk_stays (hx : tree[i]? = some x) (hleaf : x.nr_sons = 0) (k : ℕ) :
    walk tree (fun a b => decide (a = b)) (some i) (List.replicate k x.c) = some i := by
  have hlt : i < tree.length := (List.getElem?_eq_some_iff.1 hx).1
  have hstep : step tree (fun a b => decide (a = b)) (some i) x.c = some i := by
    obtain ⟨n, hn⟩ := Nat.exists_eq_succ_of_ne_zero (Nat.ne_of_gt (Nat.lt_of_le_of_lt (Nat.zero_le i) hlt))
    rw [step, hn, search]
    simp [hx, hleaf]
  induction k with
  | zero => rfl
  | succ k ih =>
    rw [replicate_succ, walk, foldl_cons, hstep]
    exact ih

omit [DecidableEq α] in
theorem walk_append (i : Option ℕ) (t t' : List γ) :
    walk tree eq i (t ++ t') = walk tree eq (walk tree eq i t) t' := foldl_append

/-- **The words of a code**: the word of its leaf, its last letter any number of times. -/
theorem code_iff (hs : Spelled tree unknown path) (hkey : ∀ g a, eq g a = true ↔ key g = a) (hf : f ≠ unknown) :
    code tree eq unknown t = f ↔
      ∃ w a k, (w ++ [a], f) ∈ words tree path ∧ t.map key = w ++ List.replicate k a := by
  constructor
  · intro h
    rw [code] at h
    cases hw : walk tree eq (some 0) t with
    | none =>
      rw [hw] at h
      exact absurd h.symm hf
    | some i =>
      rw [hw, bind_some] at h
      cases hx : tree[i]? with
      | none =>
        rw [hx] at h
        exact absurd h.symm hf
      | some x =>
        rw [hx, map_some, getD_some] at h
        have hleaf : x.nr_sons = 0 := by
          by_contra hsons
          exact hf (h.symm.trans (hs.son i x hx hsons).2)
        have hmem : (path i ++ [x.c], f) ∈ words tree path := mem_words.2 ⟨i, x, hx, hleaf, rfl, h.symm⟩
        have hr := walk_reached hs hkey (.inl hs.root.symm) hw
        rw [nil_append] at hr
        rcases hr with heq | ⟨y, k, hy, -, heq⟩
        · exact ⟨path i, x.c, 0, hmem, by rw [heq, replicate_zero, append_nil]⟩
        · obtain rfl := some.inj (hx.symm.trans hy)
          exact ⟨path i, x.c, k, hmem, heq⟩
  · rintro ⟨w, a, k, hmem, heq⟩
    obtain ⟨i, x, hx, hleaf, hw, rfl⟩ := mem_words.1 hmem
    obtain ⟨rfl, ha⟩ := append_inj' hw rfl
    obtain ⟨rfl, -⟩ := cons.inj ha
    rw [code, walk_key hkey, heq, walk_append, (hs.leaf i x hx hleaf).2.2, walk_stays hx hleaf, bind_some,
      hx, map_some, getD_some]

/-- The code of a word that is meant. -/
def lookup (ws : List (List α × β)) (unknown : β) (w : List α) : β :=
  ((ws.find? fun n => decide (n.1 = w)).map Prod.snd).getD unknown

def Blurred (ws : List (List α × β)) (w : List α) : Prop :=
  ∃ u a f k, (u ++ [a], f) ∈ ws ∧ k ≠ 1 ∧ w = u ++ List.replicate k a

/-- **The code is that of the word** but for blurred ones. -/
theorem code_exact (hs : Spelled tree unknown path) (hkey : ∀ g a, eq g a = true ↔ key g = a)
    (hinj : ∀ n ∈ words tree path, ∀ n' ∈ words tree path, n.2 = n'.2 → n = n') :
    code tree eq unknown t = lookup (words tree path) unknown (t.map key) ↔
      ¬ Blurred (words tree path) (t.map key) := by
  have hknown : ∀ w f, (w, f) ∈ words tree path → f ≠ unknown ∧ ∃ u a, w = u ++ [a] := by
    intro w f hmem
    obtain ⟨i, x, hx, hleaf, rfl, rfl⟩ := mem_words.1 hmem
    exact ⟨(hs.leaf i x hx hleaf).2.1, _, _, rfl⟩
  have hfind : ∀ w, (∃ f, (w, f) ∈ words tree path ∧ lookup (words tree path) unknown w = f) ∨
      (∀ f, (w, f) ∉ words tree path) ∧ lookup (words tree path) unknown w = unknown := by
    intro w
    rw [lookup]
    cases hn : (words tree path).find? fun n => decide (n.1 = w) with
    | none => exact .inr ⟨fun f hmem => by simpa using find?_eq_none.1 hn _ hmem, rfl⟩
    | some n =>
      obtain ⟨w', f⟩ := n
      have hw : decide (w' = w) = true := find?_some (p := fun n : List α × β => decide (n.1 = w)) hn
      have hw : w' = w := of_decide_eq_true hw
      exact .inl ⟨f, hw ▸ mem_of_find?_eq_some hn, rfl⟩
  constructor
  · rintro hcode ⟨u, a, f, k, hmem, hk, heq⟩
    have hf := (code_iff hs hkey (hknown _ f hmem).1).2 ⟨u, a, k, hmem, heq⟩
    rcases hfind (t.map key) with ⟨f', hmem', hl⟩ | ⟨-, hl⟩
    · obtain rfl : f' = f := hl.symm.trans (hcode.symm.trans hf)
      have hsame := (Prod.mk.inj (hinj _ hmem _ hmem' rfl)).1
      rw [heq] at hsame
      have hlen := congrArg List.length (append_cancel_left hsame)
      rw [length_singleton, length_replicate] at hlen
      exact hk hlen.symm
    · exact (hknown _ f hmem).1 (hf.symm.trans (hcode.trans hl))
  · intro hb
    rcases hfind (t.map key) with ⟨f, hmem, hl⟩ | ⟨hno, hl⟩
    · obtain ⟨hf, u, a, hw⟩ := hknown _ f hmem
      rw [hl]
      exact (code_iff hs hkey hf).2 ⟨u, a, 1, hw ▸ hmem, hw⟩
    · rw [hl]
      by_contra hf
      obtain ⟨u, a, k, hmem, heq⟩ := (code_iff hs hkey hf).1 rfl
      by_cases hk : k = 1
      · subst hk
        exact hno _ (heq ▸ hmem)
      · exact hb ⟨u, a, _, k, hmem, hk, heq⟩

end Spelled

end OpenSips.Lib.Trie
