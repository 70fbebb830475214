import OpenSips.Map.Model

/-!
# OpenSips.Map.Repr — which tree a heap of `avl_node` objects holds

`Rep h par t`: the objects of `t` are in the heap with the links, parent pointer, key, value and
balance factor that `t` gives them, the parent of the root being `par`.  `RepPath` says the same of
a zipper: everything around a hole.  A heap operation is verified by naming the tree and the path
before and after it.
-/

namespace OpenSips.Map

open Lib Lib.AvlTree List Function

/-- What a node of the tree holds: its address and its entry. -/
structure Cell where
  ref : Ref
  key : Str
  val : Ptr

abbrev Tree := AvlTree Cell
abbrev Path := List (Frame Cell)

/-- The pointer to a tree. -/
def root : Tree → Option Ref
  | .nil => none
  | .node x _ _ => some x.ref

@[simp] theorem root_nil : root .nil = none := rfl
@[simp] theorem root_node (x : Cell) (b : ℤ) (c : Bool → Tree) : root (.node x b c) = some x.ref :=
  rfl

def obj (par : Option Ref) (x : Cell) (b : ℤ) (link : Bool → Option Ref) : AvlNode :=
  ⟨link, par, x.key, x.val, b⟩

@[simp] theorem obj_link (par : Option Ref) (x : Cell) (b : ℤ) (l : Bool → Option Ref) :
    (obj par x b l).avl_link = l := rfl
@[simp] theorem obj_parent (par : Option Ref) (x : Cell) (b : ℤ) (l : Bool → Option Ref) :
    (obj par x b l).avl_parent = par := rfl
@[simp] theorem obj_key (par : Option Ref) (x : Cell) (b : ℤ) (l : Bool → Option Ref) :
    (obj par x b l).key = x.key := rfl
@[simp] theorem obj_val (par : Option Ref) (x : Cell) (b : ℤ) (l : Bool → Option Ref) :
    (obj par x b l).val = x.val := rfl
@[simp] theorem obj_balance (par : Option Ref) (x : Cell) (b : ℤ) (l : Bool → Option Ref) :
    (obj par x b l).avl_balance = b := rfl
@[simp] theorem obj_setLink (par : Option Ref) (x : Cell) (b : ℤ) (l : Bool → Option Ref)
    (d : Bool) (p : Option Ref) :
    (obj par x b l).setLink d p = obj par x b (Function.update l d p) := rfl
@[simp] theorem obj_setParent (par q : Option Ref) (x : Cell) (b : ℤ) (l : Bool → Option Ref) :
    (obj par x b l).setParent q = obj q x b l := rfl
@[simp] theorem obj_setBalance (par : Option Ref) (x : Cell) (b b' : ℤ) (l : Bool → Option Ref) :
    (obj par x b l).setBalance b' = obj par x b' l := rfl

@[simp] theorem update_pair_same (d : Bool) (a b a' : Option Ref) :
    Function.update (pair d a b) d a' = pair d a' b := update_pair d a b a'
@[simp] theorem update_pair_not (d : Bool) (a b b' : Option Ref) :
    Function.update (pair d a b) (!d) b' = pair d a b' := by
  rw [← pair_flip, update_pair, pair_flip]

/-- The links of a node, seen from side `d`. -/
theorem root_comp_pair (d : Bool) (t s : Tree) : (fun e => root (pair d t s e)) = pair d (root t) (root s) :=
  funext fun e => pair_comp d t s root e

theorem root_comp_eta (d : Bool) (c : Bool → Tree) :
    (fun e => root (c e)) = pair d (root (c d)) (root (c !d)) := by
  rw [← root_comp_pair, pair_eta]

/-- The heap holds the tree `t` under the parent `par`. -/
def Rep (h : Heap) : Option Ref → Tree → Prop
  | _, .nil => True
  | par, .node x b c =>
    h x.ref = some (obj par x b fun e => root (c e)) ∧ ∀ d, Rep h (some x.ref) (c d)

def parentOf : Path → Option Ref
  | [] => none
  | f :: _ => some f.x.ref

@[simp] theorem parentOf_nil : parentOf [] = none := rfl
@[simp] theorem parentOf_cons (f : Frame Cell) (fs : Path) : parentOf (f :: fs) = some f.x.ref := rfl

/-- The heap and the root pointer `rt` hold everything around a hole that `p` points into. -/
def RepPath (h : Heap) (rt : Option Ref) : Path → Option Ref → Prop
  | [], p => rt = p
  | f :: fs, p =>
    h f.x.ref = some (obj (parentOf fs) f.x f.b (pair f.dir p (root f.sib))) ∧
      Rep h (some f.x.ref) f.sib ∧ RepPath h rt fs (some f.x.ref)

variable {par : Option Ref} {h : Heap} {c : Bool → Tree} {x : Cell} {b : ℤ}

theorem rep_node (d : Bool) : Rep h par (.node x b c) ↔
      h x.ref = some (obj par x b (pair d (root (c d)) (root (c !d)))) ∧
        Rep h (some x.ref) (c d) ∧ Rep h (some x.ref) (c !d) := by
  rw [Rep, ← root_comp_eta]
  cases d <;> simp [and_comm]

variable {t : Tree} {f : Frame Cell}

theorem rep_fill : Rep h par (f.fill t) ↔
      h f.x.ref = some (obj par f.x f.b (pair f.dir (root t) (root f.sib))) ∧
        Rep h (some f.x.ref) t ∧ Rep h (some f.x.ref) f.sib := by
  rw [Frame.fill, rep_node f.dir]; simp

variable {fs : Path} {rt : Option Ref}

theorem rep_plug : (Rep h none (plug fs t) ∧ rt = root (plug fs t)) ↔
      RepPath h rt fs (root t) ∧ Rep h (parentOf fs) t := by
  induction fs generalizing t with
  | nil => simp [RepPath, and_comm]
  | cons f fs ih =>
    rw [plug_cons, ih, rep_fill, RepPath]
    simp only [Frame.fill, root_node, parentOf_cons]
    tauto

/-! ### Addresses and frames -/

def refs (t : Tree) : List Ref := t.toList.map Cell.ref
def pathRefs : Path → List Ref
  | [] => []
  | f :: fs => f.x.ref :: refs f.sib ++ pathRefs fs

@[simp] theorem refs_nil : refs .nil = [] := rfl

variable {a : Ref}

theorem mem_refs_node (d : Bool) :
    a ∈ refs (.node x b c) ↔ a = x.ref ∨ a ∈ refs (c d) ∨ a ∈ refs (c !d) := by
  simp only [refs, List.mem_map, mem_toList_node d]
  constructor
  · rintro ⟨y, rfl | hy | hy, rfl⟩
    · exact .inl rfl
    · exact .inr (.inl ⟨y, hy, rfl⟩)
    · exact .inr (.inr ⟨y, hy, rfl⟩)
  · rintro (rfl | ⟨y, hy, rfl⟩ | ⟨y, hy, rfl⟩)
    · exact ⟨x, .inl rfl, rfl⟩
    · exact ⟨y, .inr (.inl hy), rfl⟩
    · exact ⟨y, .inr (.inr hy), rfl⟩

theorem refs_node_perm (d : Bool) (x : Cell) (b : ℤ) (c : Bool → Tree) :
    (refs (.node x b c)).Perm (x.ref :: (refs (c d) ++ refs (c !d))) := by
  cases d <;> simp only [refs, toList, map_append, map_cons, Bool.not_true, Bool.not_false]
  · exact perm_middle
  · exact perm_middle.trans (Perm.cons _ perm_append_comm)

theorem refs_plug_perm (fs : Path) (t : Tree) : (refs (plug fs t)).Perm (refs t ++ pathRefs fs) := by
  induction fs generalizing t with
  | nil => simp [pathRefs]
  | cons f fs ih =>
    have hp := refs_node_perm f.dir f.x f.b (pair f.dir t f.sib)
    rw [pair_same, pair_not] at hp
    refine (ih (f.fill t)).trans ((Perm.append_right _ hp).trans ?_)
    simp only [pathRefs, cons_append, append_assoc]
    exact perm_middle.symm

theorem nodup_plug : (refs (plug fs t)).Nodup ↔
      (refs t).Nodup ∧ (pathRefs fs).Nodup ∧ ∀ a ∈ refs t, a ∉ pathRefs fs := by
  rw [(refs_plug_perm fs t).nodup_iff, nodup_append]
  refine and_congr_right fun _ => and_congr_right fun _ => ?_
  exact ⟨fun h a ha hb => h a ha a hb rfl, fun h a ha b hb e => h a ha (e ▸ hb)⟩

theorem nodup_node (d : Bool) : (refs (.node x b c)).Nodup ↔
      x.ref ∉ refs (c d) ∧ x.ref ∉ refs (c !d) ∧ (refs (c d)).Nodup ∧ (refs (c !d)).Nodup ∧
        ∀ a ∈ refs (c d), a ∉ refs (c !d) := by
  rw [(refs_node_perm d x b c).nodup_iff, nodup_cons, nodup_append, mem_append]
  constructor
  · rintro ⟨h1, h2, h3, h4⟩
    exact ⟨fun h => h1 (.inl h), fun h => h1 (.inr h), h2, h3, fun a ha hb => h4 a ha a hb rfl⟩
  · rintro ⟨h1, h2, h3, h4, h5⟩
    exact ⟨fun h => h.elim h1 h2, h3, h4, fun a ha b hb e => h5 a ha (e ▸ hb)⟩

theorem nodup_path : (pathRefs (f :: fs)).Nodup ↔
      f.x.ref ∉ refs f.sib ∧ f.x.ref ∉ pathRefs fs ∧ (refs f.sib).Nodup ∧ (pathRefs fs).Nodup ∧
        ∀ a ∈ refs f.sib, a ∉ pathRefs fs := by
  rw [pathRefs, cons_append, nodup_cons, nodup_append, mem_append]
  constructor
  · rintro ⟨h1, h2, h3, h4⟩
    exact ⟨fun h => h1 (.inl h), fun h => h1 (.inr h), h2, h3, fun a ha hb => h4 a ha a hb rfl⟩
  · rintro ⟨h1, h2, h3, h4, h5⟩
    exact ⟨fun h => h.elim h1 h2, h3, h4, fun a ha b hb e => h5 a ha (e ▸ hb)⟩

theorem mem_pathRefs : a ∈ pathRefs (f :: fs) ↔ a = f.x.ref ∨ a ∈ refs f.sib ∨ a ∈ pathRefs fs := by
  simp [pathRefs]

theorem refs_plug_fill_withB (fs : Path) (f : Frame Cell) (b : ℤ) (t : Tree) :
    refs (plug fs ((f.withB b).fill t)) = refs (plug fs (f.fill t)) := by
  simp only [refs, toList_plug, toList_withB_fill]

theorem root_mem (h : root t = some a) : a ∈ refs t := by
  cases t with
  | nil => cases h
  | node x b c => cases h; exact (mem_refs_node true).2 (.inl rfl)

theorem Rep.get (ht : Rep h par t) (ha : a ∈ refs t) : ∃ n, h a = some n := by
  induction t generalizing par with
  | nil => simp at ha
  | node x b c ih =>
    obtain ⟨h1, h2⟩ := ht
    rcases (mem_refs_node true).1 ha with rfl | ha | ha
    · exact ⟨_, h1⟩
    · exact ih _ (h2 _) ha
    · exact ih _ (h2 _) ha

theorem Rep.congr {h h' : Heap} (ht : Rep h par t) (hc : ∀ a ∈ refs t, h' a = h a) : Rep h' par t := by
  induction t generalizing par with
  | nil => trivial
  | node x b c ih =>
    obtain ⟨h1, h2⟩ := ht
    refine ⟨?_, fun d => ih d (h2 d) fun a ha => ?_⟩
    · rw [hc _ ((mem_refs_node true).2 (.inl rfl)), h1]
    · exact hc a ((mem_refs_node d).2 (.inr (.inl ha)))

theorem RepPath.congr {h h' : Heap} {p : Option Ref}
    (hp : RepPath h rt fs p) (hc : ∀ a ∈ pathRefs fs, h' a = h a) : RepPath h' rt fs p := by
  induction fs generalizing p with
  | nil => exact hp
  | cons f fs ih =>
    obtain ⟨h1, h2, h3⟩ := hp
    refine ⟨?_, h2.congr fun a ha => ?_, ih h3 fun a ha => ?_⟩
    · rw [hc _ (mem_pathRefs.2 (.inl rfl)), h1]
    · exact hc a (mem_pathRefs.2 (.inr (.inl ha)))
    · exact hc a (mem_pathRefs.2 (.inr (.inr ha)))

/-! ### Single writes -/

theorem update_off {b : Ref} {v : Option AvlNode} {l : List Ref} (hb : b ∉ l)
    (ha : a ∈ l) : Function.update h b v a = h a :=
  update_of_ne (by rintro rfl; exact hb ha) _ _

theorem store_of {n : AvlNode} (f : AvlNode → AvlNode) (hn : h a = some n) :
    store h a f = some (Function.update h a (some (f n))) := by
  simp [store, hn]

theorem reparent_spec (ht : Rep h par t) (hn : (refs t).Nodup) (q : Option Ref) :
    ∃ h', reparent h (root t) q = some h' ∧ Rep h' q t ∧ ∀ a, a ∉ refs t → h' a = h a := by
  cases t with
  | nil => exact ⟨h, rfl, trivial, fun _ _ => rfl⟩
  | node x b c =>
    obtain ⟨h1, h2⟩ := ht
    refine ⟨Function.update h x.ref (some (obj q x b fun e => root (c e))), ?_, ⟨?_, fun d => ?_⟩, ?_⟩
    · simp [reparent, store_of _ h1]
    · simp
    · exact (h2 d).congr fun a ha => update_off ((nodup_node d).1 hn).1 ha
    · intro a ha
      refine update_of_ne ?_ _ _
      rintro rfl
      exact ha ((mem_refs_node true).2 (.inl rfl))

theorem setSlot_spec {p : Option Ref}
    (hp : RepPath h rt fs p) (hn : (pathRefs fs).Nodup) (p' : Option Ref) (dir : Bool)
    (hd : ∀ f ∈ fs.head?, dir = f.dir) (hd' : fs = [] → dir = false) :
    ∃ h' rt', setSlot h rt (parentOf fs) dir p' = some (h', rt') ∧ RepPath h' rt' fs p' ∧
      (∀ a, a ∉ pathRefs fs → h' a = h a) ∧ (parentOf fs ≠ none → rt' = rt) := by
  cases fs with
  | nil =>
    rw [hd' rfl]
    exact ⟨h, p', rfl, rfl, fun _ _ => rfl, fun hne => absurd rfl hne⟩
  | cons f fs =>
    obtain ⟨h1, h2, h3⟩ := hp
    obtain ⟨n1, n2, n3, n4, n5⟩ := nodup_path.1 hn
    have hdir : dir = f.dir := hd f rfl
    refine ⟨Function.update h f.x.ref (some (obj (parentOf fs) f.x f.b (pair f.dir p' (root f.sib)))), rt, ?_,
      ⟨?_, ?_, ?_⟩, ?_, fun _ => rfl⟩
    · simp [setSlot, store_of _ h1, hdir]
    · simp
    · exact h2.congr fun a ha => update_off n1 ha
    · exact h3.congr fun a ha => update_off n2 ha
    · intro a ha
      exact update_of_ne (by rintro rfl; exact ha (mem_pathRefs.2 (.inl rfl))) _ _

end OpenSips.Map
