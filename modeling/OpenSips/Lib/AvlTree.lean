import Mathlib.Data.List.Nodup
import Mathlib.Data.List.Pairwise
import Mathlib.Tactic.Ring
import Mathlib.Tactic.Linarith
import Mathlib.Data.Nat.Fib.Basic

/-!
# OpenSips.Lib.AvlTree — height-balanced trees with stored balance factors

Binary trees whose children are indexed by a side (`false` left, `true` right), so that mirror
images are one statement.  Zippers (`plug`), the two rotations, and the two rebalancing passes:
`bump` after a leaf was added and `shrink` after a subtree lost one level.  Nothing here knows how
a tree is stored.
-/

namespace OpenSips.Lib

open List

/-- A binary tree with a stored balance factor in every node. -/
inductive AvlTree (α : Type*) where
  | nil : AvlTree α
  | node (x : α) (b : ℤ) (c : Bool → AvlTree α) : AvlTree α

/-- The sign of a side: growing on side `d` changes the balance factor by `sgn d`. -/
def sgn (d : Bool) : ℤ := if d then 1 else -1

@[simp] theorem sgn_true : sgn true = 1 := rfl
@[simp] theorem sgn_false : sgn false = -1 := rfl
@[simp] theorem sgn_not (d : Bool) : sgn (!d) = -sgn d := by cases d <;> rfl

theorem sgn_eq (d : Bool) : sgn d = 1 ∨ sgn d = -1 := by cases d <;> simp

/-- The two children with `a` on side `d` and `b` on the other side. -/
def pair {β : Type*} (d : Bool) (a b : β) : Bool → β := fun e => if e = d then a else b

section Pair

variable {β : Type*} (d : Bool) (a b : β)

@[simp] theorem pair_same : pair d a b d = a := by simp [pair]
@[simp] theorem pair_not : pair d a b (!d) = b := by cases d <;> simp [pair]

theorem pair_of_ne {e : Bool} (h : e ≠ d) : pair d a b e = b := by simp [pair, h]

@[simp] theorem pair_eta (c : Bool → β) : pair d (c d) (c !d) = c := by
  funext e
  by_cases h : e = d
  · subst h; simp
  · have : e = !d := by cases e <;> cases d <;> simp_all
    subst this; simp

theorem pair_flip : pair (!d) a b = pair d b a := by
  funext e
  cases d <;> cases e <;> rfl

theorem pair_comp {γ : Type*} (f : β → γ) (e : Bool) : f (pair d a b e) = pair d (f a) (f b) e := by
  by_cases h : e = d <;> simp [pair, h]

theorem update_pair (a' : β) : Function.update (pair d a b) d a' = pair d a' b := by
  funext e
  by_cases h : e = d
  · subst h; simp
  · simp [Function.update_of_ne h, pair_of_ne d _ _ h]

end Pair

namespace AvlTree

variable {α : Type*}

/-- Height in levels: `0` for the empty tree. -/
def height : AvlTree α → ℤ
  | nil => 0
  | node _ _ c => max (height (c false)) (height (c true)) + 1

def toList : AvlTree α → List α
  | nil => []
  | node x _ c => toList (c false) ++ x :: toList (c true)

/-- Every stored balance factor is the difference of the heights and lies in `{-1, 0, 1}`. -/
def Balanced : AvlTree α → Prop
  | nil => True
  | node _ b c => b = height (c true) - height (c false) ∧ -1 ≤ b ∧ b ≤ 1 ∧ ∀ d, Balanced (c d)

@[simp] theorem height_nil : height (nil : AvlTree α) = 0 := rfl
@[simp] theorem toList_nil : toList (nil : AvlTree α) = [] := rfl
@[simp] theorem balanced_nil : Balanced (nil : AvlTree α) := trivial

theorem height_nonneg (t : AvlTree α) : 0 ≤ height t := by
  induction t with
  | nil => exact le_rfl
  | node x b c ih =>
    have := ih false
    have := ih true
    simp only [height]
    omega

/-- The height of a node seen from side `d`. -/
theorem height_node (d : Bool) (x : α) (b : ℤ) (c : Bool → AvlTree α) :
    height (node x b c) = max (height (c d)) (height (c !d)) + 1 := by
  cases d <;> simp [height, max_comm]

/-- The balance condition of a node seen from side `d`. -/
theorem balanced_node (d : Bool) (x : α) (b : ℤ) (c : Bool → AvlTree α) : Balanced (node x b c) ↔
      b = sgn d * (height (c d) - height (c !d)) ∧ -1 ≤ b ∧ b ≤ 1 ∧ Balanced (c d) ∧ Balanced (c !d) := by
  cases d <;> simp [Balanced, and_comm]

theorem height_le_length (t : AvlTree α) : height t ≤ t.toList.length := by
  induction t with
  | nil => simp
  | node x b c ih =>
    have := ih false
    have := ih true
    simp only [height, toList, length_append, length_cons]
    push_cast
    omega

/-- A balanced tree has at least as many nodes as a Fibonacci tree of its height. -/
theorem fib_height_le {t : AvlTree α} (h : Balanced t) : Nat.fib ((height t).toNat + 2) ≤ t.toList.length + 1 := by
  induction t with
  | nil => exact Nat.le_refl 1
  | node x b c ih =>
    obtain ⟨hb, h1, h2, hc⟩ := h
    have hl := ih false (hc false)
    have hr := ih true (hc true)
    have := height_nonneg (c false)
    have := height_nonneg (c true)
    -- one side reaches the height, the other one is a level lower at most
    have hsplit : ∀ p q : ℕ, p ≤ q → q ≤ p + 1 → Nat.fib (q + 3) ≤ Nat.fib (p + 2) + Nat.fib (q + 2) := by
      intro p q _ hqp
      rw [Nat.fib_add_two (n := q + 1)]
      exact Nat.add_le_add_right (Nat.fib_mono (by omega)) _
    simp only [height, toList, length_append, length_cons]
    rcases le_total (height (c false)) (height (c true)) with hle | hle
    · have := hsplit (height (c false)).toNat (height (c true)).toNat (by omega) (by omega)
      rw [show (max (height (c false)) (height (c true)) + 1).toNat + 2 = (height (c true)).toNat + 3 by omega]
      omega
    · have := hsplit (height (c true)).toNat (height (c false)).toNat (by omega) (by omega)
      rw [show (max (height (c false)) (height (c true)) + 1).toNat + 2 = (height (c false)).toNat + 3 by omega]
      omega

theorem mem_toList_node {x y : α} {b : ℤ} {c : Bool → AvlTree α} (d : Bool) :
    y ∈ (node x b c).toList ↔ y = x ∨ y ∈ (c d).toList ∨ y ∈ (c !d).toList := by
  cases d <;> simp [toList] <;> tauto

/-! ### Zippers -/

/-- One step of the path from a hole to the root: the node above the hole, the side `dir` on which
the hole hangs, and the subtree on the other side. -/
structure Frame (α : Type*) where
  dir : Bool
  x : α
  b : ℤ
  sib : AvlTree α

namespace Frame

/-- The tree obtained by filling the hole of one frame. -/
def fill (f : Frame α) (t : AvlTree α) : AvlTree α := node f.x f.b (pair f.dir t f.sib)

def withB (f : Frame α) (b : ℤ) : Frame α := { f with b := b }

@[simp] theorem withB_dir (f : Frame α) (b : ℤ) : (f.withB b).dir = f.dir := rfl
@[simp] theorem withB_x (f : Frame α) (b : ℤ) : (f.withB b).x = f.x := rfl
@[simp] theorem withB_b (f : Frame α) (b : ℤ) : (f.withB b).b = b := rfl
@[simp] theorem withB_sib (f : Frame α) (b : ℤ) : (f.withB b).sib = f.sib := rfl

/-- The frame is balanced around a hole of height `n`. -/
def Bal (f : Frame α) (n : ℤ) : Prop :=
  f.b = sgn f.dir * (n - height f.sib) ∧ -1 ≤ f.b ∧ f.b ≤ 1 ∧ Balanced f.sib

/-- The height of the filled frame, from the height of the hole. -/
def up (f : Frame α) (n : ℤ) : ℤ := max n (height f.sib) + 1

theorem height_fill (f : Frame α) (t : AvlTree α) : height (f.fill t) = f.up (height t) := by
  rw [fill, height_node f.dir]; simp [up]

theorem balanced_fill {f : Frame α} {t : AvlTree α} :
    Balanced (f.fill t) ↔ Balanced t ∧ f.Bal (height t) := by
  rw [fill, balanced_node f.dir]; simp [Bal]; tauto

end Frame

/-- Fill a hole; the innermost frame comes first. -/
def plug : List (Frame α) → AvlTree α → AvlTree α
  | [], t => t
  | f :: fs, t => plug fs (f.fill t)

/-- The path is balanced around a hole of height `n`. -/
def PathBal : List (Frame α) → ℤ → Prop
  | [], _ => True
  | f :: fs, n => f.Bal n ∧ PathBal fs (f.up n)

@[simp] theorem plug_nil (t : AvlTree α) : plug [] t = t := rfl
@[simp] theorem plug_cons (f : Frame α) (fs : List (Frame α)) (t : AvlTree α) :
    plug (f :: fs) t = plug fs (f.fill t) := rfl

theorem plug_append (fs gs : List (Frame α)) (t : AvlTree α) :
    plug (fs ++ gs) t = plug gs (plug fs t) := by
  induction fs generalizing t with
  | nil => rfl
  | cons f fs ih => simp [ih]

variable {t : AvlTree α} {fs : List (Frame α)}

theorem balanced_plug : Balanced (plug fs t) ↔ Balanced t ∧ PathBal fs (height t) := by
  induction fs generalizing t with
  | nil => simp [PathBal]
  | cons f fs ih =>
    simp only [plug_cons, ih, Frame.balanced_fill, Frame.height_fill, PathBal]
    tauto

def pathL : List (Frame α) → List α
  | [] => []
  | f :: fs => pathL fs ++ if f.dir then f.sib.toList ++ [f.x] else []

def pathR : List (Frame α) → List α
  | [] => []
  | f :: fs => (if f.dir then [] else f.x :: f.sib.toList) ++ pathR fs

theorem toList_plug (fs : List (Frame α)) (t : AvlTree α) :
    (plug fs t).toList = pathL fs ++ t.toList ++ pathR fs := by
  induction fs generalizing t with
  | nil => simp [pathL, pathR]
  | cons f fs ih =>
    rw [plug_cons, ih]
    cases hd : f.dir <;> simp [Frame.fill, toList, pathL, pathR, pair, hd]

theorem exists_plug {x : α} (h : x ∈ t.toList) : ∃ fs b c, t = plug fs (node x b c) := by
  induction t with
  | nil => simp at h
  | node y b c ih =>
    rcases (mem_toList_node true).1 h with rfl | h | h
    · exact ⟨[], b, c, rfl⟩
    · obtain ⟨fs, b', c', e⟩ := ih true h
      refine ⟨fs ++ [⟨true, y, b, c false⟩], b', c', ?_⟩
      rw [plug_append, ← e]
      simp only [plug_cons, plug_nil, Frame.fill]
      rw [← Bool.not_true, pair_eta]
    · obtain ⟨fs, b', c', e⟩ := ih (!true) h
      refine ⟨fs ++ [⟨false, y, b, c true⟩], b', c', ?_⟩
      rw [plug_append, ← e]
      simp only [plug_cons, plug_nil, Frame.fill, Bool.not_true]
      rw [show c true = c (!false) from rfl, pair_eta]

/-! ### Rotations -/

/-- The single rotation at `y` whose child `x` on side `d` is too high. -/
def rotSingle (d : Bool) (y : α) (by' : ℤ) (x : α) (bx' : ℤ) (cx : Bool → AvlTree α)
    (s : AvlTree α) : AvlTree α :=
  node x bx' (pair d (cx d) (node y by' (pair d (cx !d) s)))

/-- The new balance factors of `x` and `y` after a double rotation, from that of `w`. -/
def dblX (d : Bool) (bw : ℤ) : ℤ := if bw = sgn d then 0 else if bw = 0 then 0 else sgn d
def dblY (d : Bool) (bw : ℤ) : ℤ := if bw = sgn d then -sgn d else 0

/-- The double rotation at `y`: the inner grandchild `w` becomes the root. -/
def rotDouble (d : Bool) (y x : α) (cx : Bool → AvlTree α) (w : α) (bw : ℤ)
    (cw : Bool → AvlTree α) (s : AvlTree α) : AvlTree α :=
  node w 0 (pair d (node x (dblX d bw) (pair d (cx d) (cw d)))
    (node y (dblY d bw) (pair d (cw !d) s)))

theorem toList_rotSingle (d : Bool) (y : α) (b b' : ℤ) (x : α) (bx bx' : ℤ)
    (cx : Bool → AvlTree α) (s : AvlTree α) :
    (rotSingle d y b' x bx' cx s).toList = (node y b (pair d (node x bx cx) s)).toList := by
  cases d <;> simp [rotSingle, toList, pair]

theorem toList_rotDouble (d : Bool) (y : α) (b : ℤ) (x : α) (bx : ℤ) (cx : Bool → AvlTree α)
    (w : α) (bw : ℤ) (cw : Bool → AvlTree α) (s : AvlTree α) (hw : cx (!d) = node w bw cw) :
    (rotDouble d y x cx w bw cw s).toList = (node y b (pair d (node x bx cx) s)).toList := by
  cases d <;> simp only [Bool.not_true, Bool.not_false] at hw <;>
    simp [rotDouble, toList, pair, hw]

variable {cx : Bool → AvlTree α} {s : AvlTree α} {bx : ℤ} {y x : α}

theorem rotSingle_bal {d : Bool}
    (hx : Balanced (node x bx cx)) (hs : Balanced s) (hh : height (node x bx cx) = height s + 2)
    (hb : bx = sgn d) :
    Balanced (rotSingle d y 0 x 0 cx s) ∧ height (rotSingle d y 0 x 0 cx s) = height s + 2 := by
  obtain ⟨h1, -, -, h2, h3⟩ := (balanced_node d x bx cx).1 hx
  rw [height_node d] at hh
  have e : height (cx d) = height s + 1 ∧ height (cx !d) = height s := by
    rcases sgn_eq d with hd | hd <;> rw [hd] at h1 hb <;> omega
  have hy : Balanced (node y 0 (pair d (cx !d) s)) := by
    rw [balanced_node d]; simp [e.2, h3, hs]
  have hyh : height (node y 0 (pair d (cx !d) s)) = height s + 1 := by
    rw [height_node d]; simp [e.2]
  constructor
  · rw [rotSingle, balanced_node d]
    simp [h2, hy, hyh, e.1]
  · rw [rotSingle, height_node d]
    simp only [pair_same, pair_not]
    omega

theorem rotSingle_bal_even {d : Bool}
    (hx : Balanced (node x bx cx)) (hs : Balanced s) (hh : height (node x bx cx) = height s + 2)
    (hb : bx = 0) :
    Balanced (rotSingle d y (sgn d) x (-sgn d) cx s) ∧
      height (rotSingle d y (sgn d) x (-sgn d) cx s) = height s + 3 := by
  obtain ⟨h1, -, -, h2, h3⟩ := (balanced_node d x bx cx).1 hx
  rw [height_node d] at hh
  have e : height (cx d) = height s + 1 ∧ height (cx !d) = height s + 1 := by
    rcases sgn_eq d with hd | hd <;> rw [hd] at h1 <;> omega
  have hy : Balanced (node y (sgn d) (pair d (cx !d) s)) := by
    rw [balanced_node d]
    rcases sgn_eq d with hd | hd <;> simp [hd, e.2, h3, hs]
  have hyh : height (node y (sgn d) (pair d (cx !d) s)) = height s + 2 := by
    rw [height_node d]; simp [e.2]; omega
  constructor
  · rw [rotSingle, balanced_node d]
    simp only [pair_same, pair_not, h2, hy, hyh, e.1, and_true]
    rcases sgn_eq d with hd | hd <;> rw [hd] <;> omega
  · rw [rotSingle, height_node d]
    simp only [pair_same, pair_not]
    omega

theorem inner_exists {d : Bool} {x : α}
    (hx : Balanced (node x bx cx)) (hb : bx = -sgn d) : ∃ w bw cw, cx (!d) = node w bw cw := by
  obtain ⟨h1, -⟩ := (balanced_node d x bx cx).1 hx
  have h := height_nonneg (cx d)
  cases hc : cx (!d) with
  | node w bw cw => exact ⟨w, bw, cw, rfl⟩
  | nil =>
    rw [hc, height_nil, hb] at h1
    rcases sgn_eq d with hd | hd <;> rw [hd] at h1 <;> omega

theorem rotDouble_bal {d : Bool}
    {w : α} {bw : ℤ} {cw : Bool → AvlTree α} (hx : Balanced (node x bx cx)) (hs : Balanced s)
    (hh : height (node x bx cx) = height s + 2) (hb : bx = -sgn d) (hw : cx (!d) = node w bw cw) :
    Balanced (rotDouble d y x cx w bw cw s) ∧ height (rotDouble d y x cx w bw cw s) = height s + 2 := by
  obtain ⟨h1, -, -, h2, h3⟩ := (balanced_node d x bx cx).1 hx
  rw [height_node d] at hh
  rw [hw] at h1 h3 hh
  obtain ⟨g1, g2, g3, g4, g5⟩ := (balanced_node d w bw cw).1 h3
  rw [height_node d] at h1 hh
  have e : height (cx d) = height s ∧ max (height (cw d)) (height (cw !d)) = height s := by
    rcases sgn_eq d with hd | hd <;> rw [hd] at h1 hb <;> omega
  have hX : Balanced (node x (dblX d bw) (pair d (cx d) (cw d))) ∧
      height (node x (dblX d bw) (pair d (cx d) (cw d))) = height s + 1 := by
    rw [balanced_node d, height_node d]
    simp only [pair_same, pair_not, h2, g4, and_true]
    unfold dblX
    rcases sgn_eq d with hd | hd <;> rw [hd] at g1 ⊢ <;> split_ifs <;> omega
  have hY : Balanced (node y (dblY d bw) (pair d (cw !d) s)) ∧
      height (node y (dblY d bw) (pair d (cw !d) s)) = height s + 1 := by
    rw [balanced_node d, height_node d]
    simp only [pair_same, pair_not, g5, hs, and_true]
    unfold dblY
    rcases sgn_eq d with hd | hd <;> rw [hd] at g1 ⊢ <;> split_ifs <;> omega
  constructor
  · rw [rotDouble, balanced_node d]
    simp [hX.1, hX.2, hY.1, hY.2]
  · rw [rotDouble, height_node d]
    simp only [pair_same, pair_not, hX.2, hY.2]
    omega

/-! ### Insertion: the path below the last unbalanced node grows, that node is rotated -/

/-- The path after its hole grew by one level, when all its factors were `0`. -/
def bump (fs : List (Frame α)) : List (Frame α) := fs.map fun f => f.withB (f.b + sgn f.dir)

def pathUp : List (Frame α) → ℤ → ℤ
  | [], n => n
  | f :: fs, n => pathUp fs (f.up n)

theorem height_plug (fs : List (Frame α)) (t : AvlTree α) :
    height (plug fs t) = pathUp fs (height t) := by
  induction fs generalizing t with
  | nil => rfl
  | cons f fs ih => rw [plug_cons, ih, Frame.height_fill, pathUp]

variable {n : ℤ}

theorem pathBal_append {fs gs : List (Frame α)} :
    PathBal (fs ++ gs) n ↔ PathBal fs n ∧ PathBal gs (pathUp fs n) := by
  induction fs generalizing n with
  | nil => simp [PathBal, pathUp]
  | cons f fs ih => simp [PathBal, pathUp, ih, and_assoc]

theorem bump_bal (hf : PathBal fs n) (h0 : ∀ f ∈ fs, f.b = 0) :
    PathBal (bump fs) (n + 1) ∧ pathUp (bump fs) (n + 1) = pathUp fs n + 1 := by
  induction fs generalizing n with
  | nil => simp [bump, PathBal, pathUp]
  | cons f fs ih =>
    obtain ⟨⟨h1, h2, h3, h4⟩, h5⟩ := hf
    have hb : f.b = 0 := h0 f (by simp)
    rw [hb] at h1
    have hn : n = height f.sib := by rcases sgn_eq f.dir with hd | hd <;> rw [hd] at h1 <;> omega
    have hu : (f.withB (f.b + sgn f.dir)).up (n + 1) = f.up n + 1 := by
      simp only [Frame.up, Frame.withB_sib]; omega
    obtain ⟨i1, i2⟩ := ih h5 fun g hg => h0 g (by simp [hg])
    simp only [bump, map_cons, PathBal, pathUp, hu] at i1 i2 ⊢
    refine ⟨⟨⟨?_, ?_, ?_, h4⟩, i1⟩, i2⟩ <;>
      simp only [Frame.withB_b, Frame.withB_dir, Frame.withB_sib, hb] <;>
      rcases sgn_eq f.dir with hd | hd <;> rw [hd] <;> omega

theorem path_bump (fs : List (Frame α)) : pathL (bump fs) = pathL fs ∧ pathR (bump fs) = pathR fs := by
  induction fs with
  | nil => exact ⟨rfl, rfl⟩
  | cons f fs ih =>
    simp only [bump, map_cons, pathL, pathR] at ih ⊢
    rw [ih.1, ih.2]
    exact ⟨rfl, rfl⟩

theorem toList_plug_bump (fs : List (Frame α)) (t : AvlTree α) :
    (plug (bump fs) t).toList = (plug fs t).toList := by
  rw [toList_plug, toList_plug, (path_bump fs).1, (path_bump fs).2]

theorem plug_bump_root (h0 : ∀ f ∈ fs, f.b = 0)
    (hne : fs ≠ []) : ∃ x b c, plug (bump fs) t = node x b c ∧ b ≠ 0 := by
  obtain ⟨gs, f, rfl⟩ := eq_nil_or_concat fs |>.resolve_left hne
  have hb : f.b = 0 := h0 f (by simp)
  refine ⟨f.x, f.b + sgn f.dir, pair f.dir (plug (bump gs) t) f.sib, ?_, ?_⟩
  · simp [bump, plug_append, Frame.fill]
  · rw [hb]; rcases sgn_eq f.dir with hd | hd <;> rw [hd] <;> decide

/-- The node `y` after its subtree `t` grew by one level: adjust its factor and rotate if it left
`{-1, 0, 1}`.  The two trees without a child to rotate are left alone. -/
def settle (f : Frame α) (t : AvlTree α) : AvlTree α :=
  if f.b + sgn f.dir = 2 * sgn f.dir then
    match t with
    | nil => (f.withB (f.b + sgn f.dir)).fill t
    | node x bx cx =>
      if bx = sgn f.dir then rotSingle f.dir f.x 0 x 0 cx f.sib
      else match cx (!f.dir) with
        | nil => (f.withB (f.b + sgn f.dir)).fill t
        | node w bw cw => rotDouble f.dir f.x x cx w bw cw f.sib
  else (f.withB (f.b + sgn f.dir)).fill t

theorem toList_withB_fill (f : Frame α) (b : ℤ) (t : AvlTree α) :
    ((f.withB b).fill t).toList = (f.fill t).toList := rfl

theorem toList_settle (f : Frame α) (t : AvlTree α) : (settle f t).toList = (f.fill t).toList := by
  unfold settle
  split_ifs with h
  · cases t with
    | nil => rfl
    | node x bx cx =>
      dsimp only
      split_ifs with hx
      · exact toList_rotSingle _ _ _ _ _ _ _ _ _
      · cases hw : cx (!f.dir) with
        | nil => rfl
        | node w bw cw => exact toList_rotDouble _ _ _ _ _ _ _ _ _ _ hw
  · rfl

variable {f : Frame α}

/-- Where the factor of the node left `{-1, 0, 1}`, one of the two rotations applies. -/
theorem settle_cases (hf : f.Bal n) (ht : Balanced t)
    (hn : height t = n + 1) (hx : ∀ x b c, t = node x b c → f.b = sgn f.dir → b ≠ 0)
    (h : f.b + sgn f.dir = 2 * sgn f.dir) :
    height t = height f.sib + 2 ∧ f.up n = height f.sib + 2 ∧ ∃ x bx cx, t = node x bx cx ∧
      ((bx = sgn f.dir ∧ settle f t = rotSingle f.dir f.x 0 x 0 cx f.sib) ∨
        (bx ≠ sgn f.dir ∧ bx = -sgn f.dir ∧ ∃ w bw cw, cx (!f.dir) = node w bw cw ∧
          settle f t = rotDouble f.dir f.x x cx w bw cw f.sib)) := by
  obtain ⟨h1, h2, h3, h4⟩ := hf
  have hb : f.b = sgn f.dir := by omega
  have hs : height t = height f.sib + 2 := by
    rcases sgn_eq f.dir with hd | hd <;> rw [hd] at h1 hb <;> omega
  have hu : f.up n = height f.sib + 2 := by simp only [Frame.up]; omega
  refine ⟨hs, hu, ?_⟩
  cases t with
  | nil =>
    have := height_nonneg f.sib
    rw [height_nil] at hs
    omega
  | node x bx cx =>
    refine ⟨x, bx, cx, rfl, ?_⟩
    by_cases hxb : bx = sgn f.dir
    · exact .inl ⟨hxb, by simp only [settle, if_pos h, if_pos hxb]⟩
    · have hx0 := hx x bx cx rfl hb
      have hxn : bx = -sgn f.dir := by
        obtain ⟨-, b1, b2, -⟩ := ht
        rcases sgn_eq f.dir with hd | hd <;> rw [hd] at hxb ⊢ <;> omega
      obtain ⟨w, bw, cw, hw⟩ := inner_exists ht hxn
      exact .inr ⟨hxb, hxn, w, bw, cw, hw, by simp only [settle, if_pos h, if_neg hxb, hw]⟩

/-- After `settle` the node is balanced; if its factor was nonzero the height is the old one. -/
theorem settle_bal (hf : f.Bal n) (ht : Balanced t) (hn : height t = n + 1)
    (hx : ∀ x b c, t = node x b c → f.b = sgn f.dir → b ≠ 0) :
    Balanced (settle f t) ∧ (f.b ≠ 0 → height (settle f t) = f.up n) := by
  by_cases h : f.b + sgn f.dir = 2 * sgn f.dir
  · obtain ⟨hs, hu, x, bx, cx, rfl, ⟨hxb, e⟩ | ⟨-, hxn, w, bw, cw, hw, e⟩⟩ :=
      settle_cases hf ht hn hx h
    · have := rotSingle_bal (y := f.x) ht hf.2.2.2 hs hxb
      exact ⟨e ▸ this.1, fun _ => e ▸ this.2.trans hu.symm⟩
    · have := rotDouble_bal (y := f.x) ht hf.2.2.2 hs hxn hw
      exact ⟨e ▸ this.1, fun _ => e ▸ this.2.trans hu.symm⟩
  · obtain ⟨h1, h2, h3, h4⟩ := hf
    have e : settle f t = (f.withB (f.b + sgn f.dir)).fill t := if_neg h
    rw [e]
    have hub : (f.withB (f.b + sgn f.dir)).Bal (n + 1) := by
      refine ⟨?_, ?_, ?_, h4⟩ <;>
        simp only [Frame.withB_b, Frame.withB_dir, Frame.withB_sib] <;>
        rcases sgn_eq f.dir with hd | hd <;> rw [hd] at h1 h ⊢ <;> omega
    refine ⟨Frame.balanced_fill.2 ⟨ht, hn ▸ hub⟩, fun h0 => ?_⟩
    rw [Frame.height_fill, hn]
    simp only [Frame.up, Frame.withB_sib]
    rcases sgn_eq f.dir with hd | hd <;> rw [hd] at h1 h <;> omega

/-- What `settle` meets in an insertion: below the node `f` every factor was `0`, and the hole of
the balanced tree was filled with a leaf. -/
theorem insert_settle {low up : List (Frame α)} {leaf : AvlTree α}
    (hb : Balanced (plug (low ++ f :: up) nil)) (h0 : ∀ g ∈ low, g.b = 0)
    (hl : Balanced leaf) (hh : height leaf = 1) :
    f.Bal (pathUp low 0) ∧ PathBal up (f.up (pathUp low 0)) ∧ Balanced (plug (bump low) leaf) ∧
      height (plug (bump low) leaf) = pathUp low 0 + 1 ∧
      ∀ x b c, plug (bump low) leaf = node x b c → f.b = sgn f.dir → b ≠ 0 := by
  obtain ⟨-, hp⟩ := balanced_plug.1 hb
  obtain ⟨hlow, hfb, hup⟩ := pathBal_append.1 hp
  rw [height_nil] at hlow hfb hup
  obtain ⟨k1, k2⟩ := bump_bal hlow h0
  refine ⟨hfb, hup, balanced_plug.2 ⟨hl, by rw [hh]; exact k1⟩, by rw [height_plug, hh]; exact k2, ?_⟩
  intro x b c e hs
  cases low with
  | cons g gs =>
    obtain ⟨x', b', c', e', hne⟩ := plug_bump_root (t := leaf) h0 (by simp)
    rw [e] at e'
    cases e'
    exact hne
  | nil =>
    -- the hole is a child of `f`, so `f` is not already higher on that side
    obtain ⟨h1, -⟩ := hfb
    have := height_nonneg f.sib
    rw [hs] at h1
    simp only [pathUp] at h1
    rcases sgn_eq f.dir with hd | hd <;> rw [hd] at h1 <;> omega

/-- **Insertion keeps the tree balanced**: the hole of a balanced tree is filled with a leaf, the
path `low` of even nodes above it grows, and the node `f` above `low` is settled. -/
theorem insert_bal {low up : List (Frame α)} {leaf : AvlTree α}
    (hb : Balanced (plug (low ++ f :: up) nil)) (h0 : ∀ g ∈ low, g.b = 0)
    (hf : f.b ≠ 0 ∨ up = []) (hl : Balanced leaf) (hh : height leaf = 1) :
    Balanced (plug up (settle f (plug (bump low) leaf))) := by
  obtain ⟨hfb, hup, ht, hth, hroot⟩ := insert_settle hb h0 hl hh
  obtain ⟨s1, s2⟩ := settle_bal hfb ht hth hroot
  rcases hf with hf | rfl
  · exact balanced_plug.2 ⟨s1, by rw [s2 hf]; exact hup⟩
  · exact s1

theorem toList_insert (low up : List (Frame α)) (f : Frame α) (leaf : AvlTree α) :
    (plug up (settle f (plug (bump low) leaf))).toList = (plug (low ++ f :: up) leaf).toList := by
  rw [plug_append, plug_cons, toList_plug, toList_settle, toList_plug up]
  congr 2
  simp only [Frame.fill, toList]
  cases f.dir <;> simp [pair, toList_plug_bump]

/-! ### Deletion: rebalance upwards while the height shrinks -/

/-- The frame rebuilt around a subtree `t` that lost one level, and whether the result lost one. -/
def shrinkStep (f : Frame α) (t : AvlTree α) : AvlTree α × Bool :=
  if f.b - sgn f.dir = -sgn f.dir then ((f.withB (f.b - sgn f.dir)).fill t, false)
  else if f.b - sgn f.dir = -2 * sgn f.dir then
    match f.sib with
    | nil => (f.fill t, false)
    | node x bx cx =>
      if bx = sgn f.dir then
        match cx f.dir with
        | nil => (f.fill t, false)
        | node w bw cw => (rotDouble (!f.dir) f.x x cx w bw cw t, true)
      else if bx = 0 then (rotSingle (!f.dir) f.x (-sgn f.dir) x (sgn f.dir) cx t, false)
      else (rotSingle (!f.dir) f.x 0 x 0 cx t, true)
  else ((f.withB (f.b - sgn f.dir)).fill t, true)

/-- The tree obtained when the subtree in the hole, now `t`, has lost one level. -/
def shrink : List (Frame α) → AvlTree α → AvlTree α
  | [], t => t
  | f :: fs, t =>
    if (shrinkStep f t).2 then shrink fs (shrinkStep f t).1 else plug fs (shrinkStep f t).1

theorem toList_shrinkStep (f : Frame α) (t : AvlTree α) : (shrinkStep f t).1.toList = (f.fill t).toList := by
  have hfill : f.fill t = node f.x f.b (pair (!f.dir) f.sib t) := by rw [pair_flip]; rfl
  rw [shrinkStep]
  split_ifs with h1 h2
  · rfl
  · cases hs : f.sib with
    | nil => rfl
    | node x bx cx =>
      rw [hs] at hfill
      dsimp only
      split_ifs with h3 h4
      · cases hw : cx f.dir with
        | nil => rfl
        | node w bw cw =>
          dsimp only
          rw [toList_rotDouble (!f.dir) _ f.b _ bx _ _ _ _ _ (by simpa using hw), hfill]
      · dsimp only
        rw [toList_rotSingle (!f.dir) _ f.b _ _ bx, hfill]
      · dsimp only
        rw [toList_rotSingle (!f.dir) _ f.b _ _ bx, hfill]
  · rfl

theorem shrinkStep_cases (hf : f.Bal (height t + 1)) : (f.b - sgn f.dir = -sgn f.dir ∧
      shrinkStep f t = ((f.withB (f.b - sgn f.dir)).fill t, false)) ∨
    (f.b - sgn f.dir ≠ -sgn f.dir ∧ f.b - sgn f.dir ≠ -2 * sgn f.dir ∧
      shrinkStep f t = ((f.withB (f.b - sgn f.dir)).fill t, true)) ∨
    (f.b - sgn f.dir ≠ -sgn f.dir ∧ f.b - sgn f.dir = -2 * sgn f.dir ∧
      height f.sib = height t + 2 ∧ ∃ x bx cx, f.sib = node x bx cx ∧
        ((bx = sgn f.dir ∧ ∃ w bw cw, cx f.dir = node w bw cw ∧
            shrinkStep f t = (rotDouble (!f.dir) f.x x cx w bw cw t, true)) ∨
          (bx = 0 ∧ bx ≠ sgn f.dir ∧
            shrinkStep f t = (rotSingle (!f.dir) f.x (-sgn f.dir) x (sgn f.dir) cx t, false)) ∨
          (bx = -sgn f.dir ∧ bx ≠ sgn f.dir ∧ bx ≠ 0 ∧
            shrinkStep f t = (rotSingle (!f.dir) f.x 0 x 0 cx t, true)))) := by
  obtain ⟨h1, h2, h3, h4⟩ := hf
  have hd := sgn_eq f.dir
  by_cases c1 : f.b - sgn f.dir = -sgn f.dir
  · exact .inl ⟨c1, by rw [shrinkStep, if_pos c1]⟩
  refine .inr ?_
  by_cases c2 : f.b - sgn f.dir = -2 * sgn f.dir
  · refine .inr ⟨c1, c2, ?_⟩
    have hsib : height f.sib = height t + 2 := by
      rcases hd with hd | hd <;> rw [hd] at h1 c2 <;> omega
    refine ⟨hsib, ?_⟩
    cases hs : f.sib with
    | nil =>
      have := height_nonneg t
      rw [hs, height_nil] at hsib
      omega
    | node x bx cx =>
      refine ⟨x, bx, cx, rfl, ?_⟩
      rw [hs] at h4
      obtain ⟨-, b1, b2, -⟩ := id h4
      by_cases c3 : bx = sgn f.dir
      · obtain ⟨w, bw, cw, hw⟩ := inner_exists (d := !f.dir) h4 (by simpa using c3)
        have hw' : cx f.dir = node w bw cw := by simpa using hw
        refine .inl ⟨c3, w, bw, cw, hw', ?_⟩
        rw [shrinkStep, if_neg c1, if_pos c2, hs]
        dsimp only
        rw [if_pos c3, hw']
      · refine .inr ?_
        by_cases c4 : bx = 0
        · refine .inl ⟨c4, c3, ?_⟩
          rw [shrinkStep, if_neg c1, if_pos c2, hs]
          dsimp only
          rw [if_neg c3, if_pos c4]
        · refine .inr ⟨?_, c3, c4, ?_⟩
          · rcases hd with hd | hd <;> rw [hd] at c3 ⊢ <;> omega
          · rw [shrinkStep, if_neg c1, if_pos c2, hs]
            dsimp only
            rw [if_neg c3, if_neg c4]
  · exact .inl ⟨c1, c2, by rw [shrinkStep, if_neg c1, if_neg c2]⟩

theorem shrinkStep_bal (hf : f.Bal (height t + 1)) (ht : Balanced t) : Balanced (shrinkStep f t).1 ∧
      height (shrinkStep f t).1 + (if (shrinkStep f t).2 then 1 else 0) = f.up (height t + 1) := by
  have hd := sgn_eq f.dir
  have fill : ∀ b, b = f.b - sgn f.dir → -1 ≤ b → b ≤ 1 → Balanced ((f.withB b).fill t) := by
    rintro b rfl b1 b2
    refine Frame.balanced_fill.2 ⟨ht, ?_, b1, b2, hf.2.2.2⟩
    obtain ⟨h1, -⟩ := hf
    simp only [Frame.withB_b, Frame.withB_dir, Frame.withB_sib]
    rcases hd with hd | hd <;> rw [hd] at h1 ⊢ <;> omega
  rcases shrinkStep_cases hf with ⟨c1, e⟩ | ⟨c1, c2, e⟩ | ⟨-, -, hsib, x, bx, cx, hs, hcase⟩
  · obtain ⟨h1, -⟩ := hf
    refine ⟨e ▸ fill _ rfl ?_ ?_, ?_⟩
    · rcases hd with hd | hd <;> rw [hd] at c1 ⊢ <;> omega
    · rcases hd with hd | hd <;> rw [hd] at c1 ⊢ <;> omega
    · rw [e, Frame.height_fill]
      simp only [Frame.up, Frame.withB_sib, Bool.false_eq_true, if_false]
      rcases hd with hd | hd <;> rw [hd] at h1 c1 <;> omega
  · obtain ⟨h1, h2, h3, -⟩ := hf
    refine ⟨e ▸ fill _ rfl ?_ ?_, ?_⟩
    · rcases hd with hd | hd <;> rw [hd] at c1 c2 ⊢ <;> omega
    · rcases hd with hd | hd <;> rw [hd] at c1 c2 ⊢ <;> omega
    · rw [e, Frame.height_fill]
      simp only [Frame.up, Frame.withB_sib, if_true]
      rcases hd with hd | hd <;> rw [hd] at h1 c1 c2 <;> omega
  · have hup : f.up (height t + 1) = height t + 3 := by simp only [Frame.up]; omega
    have h4 := hf.2.2.2
    rw [hs] at hsib h4
    rcases hcase with ⟨c3, w, bw, cw, hw, e⟩ | ⟨c4, -, e⟩ | ⟨c3, -, -, e⟩
    · have := rotDouble_bal (d := !f.dir) (y := f.x) h4 ht hsib (by simpa using c3)
        (by simpa using hw)
      rw [e, hup]
      exact ⟨this.1, by rw [this.2]; simp; ring⟩
    · have := rotSingle_bal_even (d := !f.dir) (y := f.x) h4 ht hsib c4
      rw [sgn_not, neg_neg] at this
      rw [e, hup]
      exact ⟨this.1, by rw [this.2]; simp⟩
    · have := rotSingle_bal (d := !f.dir) (y := f.x) h4 ht hsib (by simpa using c3)
      rw [e, hup]
      exact ⟨this.1, by rw [this.2]; simp; ring⟩

theorem toList_shrink (fs : List (Frame α)) (t : AvlTree α) : (shrink fs t).toList = (plug fs t).toList := by
  induction fs generalizing t with
  | nil => rfl
  | cons f fs ih =>
    have key : (plug fs (shrinkStep f t).1).toList = (plug fs (f.fill t)).toList := by
      rw [toList_plug, toList_shrinkStep, ← toList_plug]
    rw [plug_cons, shrink]
    split_ifs
    · rw [ih, key]
    · exact key

/-- **Deletion keeps the tree balanced**: `t` is one level lower than the path expects. -/
theorem shrink_bal (hp : PathBal fs (height t + 1)) (ht : Balanced t) : Balanced (shrink fs t) := by
  induction fs generalizing t with
  | nil => exact ht
  | cons f fs ih =>
    obtain ⟨h1, h2⟩ := hp
    obtain ⟨b, e⟩ := shrinkStep_bal h1 ht
    rw [← e] at h2
    rw [shrink]
    split_ifs with hl
    · rw [if_pos hl] at h2
      exact ih h2 b
    · rw [if_neg hl, add_zero] at h2
      exact balanced_plug.2 ⟨b, h2⟩

end AvlTree

end OpenSips.Lib
