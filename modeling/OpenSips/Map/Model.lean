import OpenSips.Str
import OpenSips.Lib.AvlTree

/-!
# OpenSips.Map.Model — the AVL map of `core/map.c`

The nodes live in a heap of `struct avl_node` objects linked by addresses.  Everything runs in
`Option`: `none` is a fault (a NULL or dangling pointer was followed, an `assert` failed, or a loop
did not end).  Where the source has two mirrored branches, one definition takes the side `d`:
`false` is `avl_link[0]`, `true` is `avl_link[1]`.
-/

namespace OpenSips.Map

open Lib

/-- The comparison of keys: `strncmp` on the common length, then the difference of the lengths. -/
def str_cmp (s1 s2 : Str) : ℤ :=
  let ret := strncmp s1 s2 (min s1.length s2.length)
  if ret = 0 then (s1.length : ℤ) - s2.length else ret

/-- `struct avl_node`. -/
structure AvlNode where
  avl_link : Bool → Option Ref
  avl_parent : Option Ref
  key : Str
  val : Ptr
  avl_balance : ℤ

abbrev Heap := Ref → Option AvlNode

/-- `struct avl_table` together with the heap its nodes live in. -/
structure AvlTable where
  heap : Heap
  avl_root : Option Ref
  avl_count : ℕ

/-- `struct avl_iterator` over one map. -/
abbrev AvlIterator := Option Ref

def AvlNode.setLink (d : Bool) (p : Option Ref) (n : AvlNode) : AvlNode :=
  { n with avl_link := Function.update n.avl_link d p }
def AvlNode.setParent (p : Option Ref) (n : AvlNode) : AvlNode := { n with avl_parent := p }
def AvlNode.setBalance (b : ℤ) (n : AvlNode) : AvlNode := { n with avl_balance := b }
def AvlNode.setVal (v : Ptr) (n : AvlNode) : AvlNode := { n with val := v }

/-- An assignment `a->field = ...`. -/
def store (h : Heap) (a : Ref) (f : AvlNode → AvlNode) : Option Heap :=
  (h a).map fun n => Function.update h a (some (f n))

/-- `if (p != NULL) p->avl_parent = a`. -/
def reparent (h : Heap) (p : Option Ref) (a : Option Ref) : Option Heap :=
  match p with
  | none => some h
  | some p => store h p (.setParent a)

/-- `map_create` (the allocation succeeds). -/
def map_create : AvlTable := ⟨fun _ => none, none, 0⟩

def map_size (t : AvlTable) : ℕ := t.avl_count

/-- The loop of `map_find`. -/
def findLoop (h : Heap) (key : Str) : ℕ → Option Ref → Option (Option Ref)
  | 0, _ => none
  | fuel + 1, p =>
    match p with
    | none => some none
    | some p => do
      let n ← h p
      let cmp := str_cmp key n.key
      if cmp < 0 then findLoop h key fuel (n.avl_link false)
      else if cmp > 0 then findLoop h key fuel (n.avl_link true)
      else some (some p)

/-- `map_find`: the node whose `val` the returned pointer points at. -/
def map_find (t : AvlTable) (key : Str) : Option (Option Ref) :=
  findLoop t.heap key (t.avl_count + 1) t.avl_root

/-- How the search of `map_get` ends: at a node with the key, or below `q` on side `dir`. -/
inductive Search where
  | found (p : Ref)
  | absent (q y : Option Ref) (dir : Bool)

/-- The search loop of `map_get`; `y` follows the last node with a nonzero balance factor. -/
def getLoop (h : Heap) (key : Str) : ℕ → (q p y : Option Ref) → Bool → Option Search
  | 0, _, _, _, _ => none
  | fuel + 1, q, p, y, dir =>
    match p with
    | none => some (.absent q y dir)
    | some p => do
      let n ← h p
      let cmp := str_cmp key n.key
      if cmp = 0 then some (.found p)
      else
        let dir := decide (cmp > 0)
        let y := if n.avl_balance ≠ 0 then some p else y
        getLoop h key fuel (some p) (n.avl_link dir) y dir

/-- `for (p = n; p != y; p = q)`: adjust the balance factors from the new node up to `y`. -/
def bumpLoop : ℕ → Heap → Ref → Ref → Option Heap
  | 0, _, _, _ => none
  | fuel + 1, h, p, y =>
    if p = y then some h
    else do
      let q ← (← h p).avl_parent
      let dir := (← h q).avl_link false != some p
      let h ← store h q fun n => n.setBalance (n.avl_balance + sgn dir)
      bumpLoop fuel h q y

/-- The double rotation at `y` with child `x` on side `d`, shared by `map_get` and `delete_node`, up
to the parent pointers of the subtrees that moved; returns the new subtree root `w`. -/
def doubleLinks (d : Bool) (h : Heap) (y x : Ref) : Option (Heap × Ref) := do
  let w ← (← h x).avl_link (!d)
  let h ← store h x (.setLink (!d) ((← h w).avl_link d))
  let h ← store h w (.setLink d (some x))
  let h ← store h y (.setLink d ((← h w).avl_link (!d)))
  let h ← store h w (.setLink (!d) (some y))
  let bw := (← h w).avl_balance
  let h ← store h x (.setBalance (AvlTree.dblX d bw))
  let h ← store h y (.setBalance (AvlTree.dblY d bw))
  let h ← store h w (.setBalance 0)
  let h ← store h w (.setParent (← h y).avl_parent)
  let h ← store h y (.setParent (some w))
  let h ← store h x (.setParent (some w))
  return (h, w)

def doubleRotate (d : Bool) (h : Heap) (y x : Ref) : Option (Heap × Ref) := do
  let (h, w) ← doubleLinks d h y x
  let h ← reparent h ((← h x).avl_link (!d)) (some x)
  let h ← reparent h ((← h y).avl_link d) (some y)
  return (h, w)

/-- The single rotation of `map_get`, up to the parent pointer of the subtree that moved. -/
def insertSingle (d : Bool) (h : Heap) (y x : Ref) : Option Heap := do
  let h ← store h y (.setLink d ((← h x).avl_link (!d)))
  let h ← store h x (.setLink (!d) (some y))
  let h ← store h y (.setBalance 0)
  let h ← store h x (.setBalance 0)
  let h ← store h x (.setParent (← h y).avl_parent)
  store h y (.setParent (some x))

/-- The single rotation of `delete_node`, up to the parent pointer of the subtree that moved; the
balance factors are written later. -/
def deleteSingle (d : Bool) (h : Heap) (y x : Ref) : Option Heap := do
  let h ← store h y (.setLink d ((← h x).avl_link (!d)))
  let h ← store h x (.setLink (!d) (some y))
  let h ← store h x (.setParent (← h y).avl_parent)
  store h y (.setParent (some x))

/-- The rotation of `map_get` at `y`, whose balance factor became `2 * sgn d`. -/
def insertRotate (d : Bool) (h : Heap) (y : Ref) : Option (Heap × Ref) := do
  let x ← (← h y).avl_link d
  if (← h x).avl_balance = sgn d then
    let h ← insertSingle d h y x
    let h ← reparent h ((← h y).avl_link d) (some y)
    return (h, x)
  else
    -- `assert(x->avl_balance == ...)`
    guard ((← h x).avl_balance = -sgn d)
    doubleRotate d h y x

/-- The end of `map_get`: hang the rotated subtree `w` where `y` was. -/
def relink (h : Heap) (root : Option Ref) (y w : Ref) : Option (Heap × Option Ref) := do
  match (← h w).avl_parent with
  | some p =>
    let dir := (← h p).avl_link false != some y
    let h ← store h p (.setLink dir (some w))
    return (h, root)
  | none => return (h, some w)

/-- The rotations of `map_get` at `y`, if its balance factor left `{-1, 0, 1}`. -/
def insertRebalance (h : Heap) (root : Option Ref) (y : Ref) : Option (Heap × Option Ref) := do
  let by' := (← h y).avl_balance
  if by' = -2 then
    let (h, w) ← insertRotate false h y
    relink h root y w
  else if by' = 2 then
    let (h, w) ← insertRotate true h y
    relink h root y w
  else return (h, root)

/-- `map_get`; `n` is the address the allocator returns if a node is needed.  The result is the
node whose `val` the returned pointer points at. -/
def map_get (t : AvlTable) (key : Str) (n : Ref) : Option (AvlTable × Ref) := do
  match ← getLoop t.heap key (t.avl_count + 1) none t.avl_root t.avl_root false with
  | .found p => return (t, p)
  | .absent q y dir =>
    let count := t.avl_count + 1
    let h := Function.update t.heap n (some ⟨fun _ => none, q, key, NULL, 0⟩)
    match q with
    | none => return (⟨h, some n, count⟩, n)
    | some q =>
      let h ← store h q (.setLink dir (some n))
      let y ← y
      let h ← bumpLoop (count + 1) h n y
      let (h, root) ← insertRebalance h t.avl_root y
      return (⟨h, root, count⟩, n)

/-- `map_put`. -/
def map_put (t : AvlTable) (key : Str) (item : Ptr) (n : Ref) : Option (AvlTable × Ptr) := do
  let (t, p) ← map_get t key n
  let ret := (← t.heap p).val
  let h ← store t.heap p (.setVal item)
  return ({ t with heap := h }, if ret = item then NULL else ret)

/-- `q->avl_link[dir] = p`, where `q = none` is `(struct avl_node *) & tree->avl_root`: its
`avl_link[0]` is the root pointer and it has no `avl_link[1]`. -/
def setSlot (h : Heap) (root q : Option Ref) (dir : Bool) (p : Option Ref) :
    Option (Heap × Option Ref) :=
  match q, dir with
  | some q, dir => do return (← store h q (.setLink dir p), root)
  | none, false => some (h, p)
  | none, true => none

/-- `q->avl_link[0]` for the same `q`. -/
def slot0 (h : Heap) (root q : Option Ref) : Option (Option Ref) :=
  match q with
  | some q => do return (← h q).avl_link false
  | none => some root

/-- `while (s->avl_link[0] != NULL) s = s->avl_link[0]`. -/
def leftmost (h : Heap) : ℕ → Ref → Option Ref
  | 0, _ => none
  | fuel + 1, s => do
    match (← h s).avl_link false with
    | none => some s
    | some s' => leftmost h fuel s'

/-- The rebalancing loop of `delete_node`: the subtree on side `dir` of `q` lost one level. -/
def deleteLoop : ℕ → Heap → (root q : Option Ref) → Bool → Option (Heap × Option Ref)
  | 0, _, _, _, _ => none
  | fuel + 1, h, root, q, dir =>
    match q with
    | none => some (h, root)
    | some y => do
      let q := (← h y).avl_parent
      let dir' := (← slot0 h root q) != some y
      let by' := (← h y).avl_balance - sgn dir
      let h ← store h y (.setBalance by')
      if by' = -sgn dir then return (h, root)
      else if by' = -2 * sgn dir then
        let x ← (← h y).avl_link (!dir)
        let bx := (← h x).avl_balance
        if bx = sgn dir then
          let (h, w) ← doubleRotate (!dir) h y x
          let (h, root) ← setSlot h root q dir' (some w)
          deleteLoop fuel h root q dir'
        else
          let h ← deleteSingle (!dir) h y x
          let h ← reparent h ((← h y).avl_link (!dir)) (some y)
          let (h, root) ← setSlot h root q dir' (some x)
          if bx = 0 then
            let h ← store h x (.setBalance (sgn dir))
            let h ← store h y (.setBalance (-sgn dir))
            return (h, root)
          else
            let h ← store h x (.setBalance 0)
            let h ← store h y (.setBalance 0)
            deleteLoop fuel h root q dir'
      else deleteLoop fuel h root q dir'

/-- The side of `q` on which `p` hangs. -/
def sideOf (h : Heap) (q : Option Ref) (p : Ref) : Option Bool :=
  match q with
  | none => some false
  | some q => do return (← h q).avl_link false != some p

/-- The branch of `delete_node` for a node `np` on side `dir` of its parent, without right child. -/
def detachLeft (h : Heap) (root : Option Ref) (np : AvlNode) (dir : Bool) :
    Option (Heap × Option Ref × Option Ref × Bool) := do
  let q := np.avl_parent
  let (h, root) ← setSlot h root q dir (np.avl_link false)
  let h ← reparent h (np.avl_link false) np.avl_parent
  return (h, root, q, dir)

/-- The branch for a right child `r` that has no left child. -/
def detachRight (h : Heap) (root : Option Ref) (np : AvlNode) (dir : Bool) (r : Ref) :
    Option (Heap × Option Ref × Option Ref × Bool) := do
  let q := np.avl_parent
  let h ← store h r (.setLink false (np.avl_link false))
  let (h, root) ← setSlot h root q dir (some r)
  let h ← store h r (.setParent np.avl_parent)
  let h ← reparent h (np.avl_link false) (some r)
  let h ← store h r (.setBalance np.avl_balance)
  return (h, root, some r, true)

/-- The branch for a successor `s` deeper in the right subtree. -/
def detachSucc (h : Heap) (root : Option Ref) (np : AvlNode) (dir : Bool) (s : Ref) :
    Option (Heap × Option Ref × Option Ref × Bool) := do
  let q := np.avl_parent
  let r ← (← h s).avl_parent
  let h ← store h r (.setLink false ((← h s).avl_link true))
  let h ← store h s (.setLink false (np.avl_link false))
  let h ← store h s (.setLink true (np.avl_link true))
  let (h, root) ← setSlot h root q dir (some s)
  let h ← reparent h (np.avl_link false) (some s)
  let h ← store h (← (← h s).avl_link true) (.setParent (some s))
  let h ← store h s (.setParent np.avl_parent)
  let h ← reparent h ((← h r).avl_link false) (some r)
  let h ← store h s (.setBalance np.avl_balance)
  return (h, root, some r, false)

/-- The first half of `delete_node`: unlink `p` and say below which node a level was lost.  `p`
itself is not written, so its fields `np` are read once. -/
def detach (fuel : ℕ) (h : Heap) (root : Option Ref) (p : Ref) :
    Option (Heap × Option Ref × Option Ref × Bool) := do
  let np ← h p
  let dir ← sideOf h np.avl_parent p
  match np.avl_link true with
  | none => detachLeft h root np dir
  | some r =>
    match (← h r).avl_link false with
    | none => detachRight h root np dir r
    | some s => detachSucc h root np dir (← leftmost h fuel s)

/-- `delete_node`. -/
def delete_node (t : AvlTable) (p : Ref) : Option (AvlTable × Ptr) := do
  let val := (← t.heap p).val
  let (h, root, q, dir) ← detach t.avl_count t.heap t.avl_root p
  let h := Function.update h p none
  let (h, root) ← deleteLoop (t.avl_count + 1) h root q dir
  return (⟨h, root, t.avl_count - 1⟩, val)

/-- `map_remove`; its descent is that of `map_find`. -/
def map_remove (t : AvlTable) (key : Str) : Option (AvlTable × Ptr) := do
  match ← findLoop t.heap key (t.avl_count + 1) t.avl_root with
  | none => return (t, NULL)
  | some p => delete_node t p

/-- `iterator_delete`; an invalid iterator deletes nothing. -/
def iterator_delete (t : AvlTable) (it : AvlIterator) : Option (AvlTable × Ptr) :=
  match it with
  | none => some (t, NULL)
  | some p => delete_node t p

end OpenSips.Map
