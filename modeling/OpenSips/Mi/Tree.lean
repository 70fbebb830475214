import OpenSips.Lib.Objects
import OpenSips.Mi.Rendering

/-!
# OpenSips.Mi.Tree — building a reply and flushing it (`mi/tree.c`, `mi_stream/mi_writer.c`)

The nodes of a reply are objects.  The end of a list of brothers is looked up in `last`, which only the
brother a node was added through gets to know.  `mi_flush_tree` writes what is complete; a node counts as
complete when `MI_NOT_COMPLETED` is not set, and that is the bit of `MI_WRITTEN`.
-/

namespace OpenSips.Mi.Tree

open Lib

def MI_DUP_NAME : UInt32 := (1 : UInt32) <<< 0
def MI_DUP_VALUE : UInt32 := (1 : UInt32) <<< 1

/-- A `struct mi_node` with its links. -/
structure MiCell extends MiNode where
  kids : Option ℕ
  next : Option ℕ
  last : ℕ

abbrev MiHeap := Objects MiCell

/-- The arguments of a node, and whether `shm_malloc` succeeds; an empty text is `NULL`. -/
structure NodeArgs where
  name : Str
  value : Str
  flags : UInt32
  mem : Bool

/-- A text of a new node, which is copied if `dup` is set. -/
def node_text (dup : UInt32) (xs : Str) : Option Str :=
  if xs = [] then none else some (if dup = 0 then xs else strncpy xs)

def create_mi_node (m : MiHeap) (c : NodeArgs) : MiHeap × Option ℕ :=
  if (c.name = [] ∧ c.value = []) ∨ c.mem = false then (m, none)
  else
    (m.alloc {
        name := node_text (c.flags &&& MI_DUP_NAME) c.name
        value := node_text (c.flags &&& MI_DUP_VALUE) c.value
        flags := c.flags, attributes := [], kids := none, next := none, last := m.fresh }, some m.fresh)

/-- `brother->last->next = new; brother->last = new;` -/
def link_last (m : MiHeap) (brother new : ℕ) : Option MiHeap := do
  let x ← m.get brother
  let l ← m.get x.last
  let m ← m.set x.last { l with next := some new }
  let x ← m.get brother
  m.set brother { x with last := new }

/-- `add_next`, which is also `add_mi_node_sibling`; the outer `none` is a fault. -/
def add_next (m : MiHeap) (brother : ℕ) (c : NodeArgs) : Option (MiHeap × Option ℕ) :=
  match create_mi_node m c with
  | (m, none) => some (m, none)
  | (m, some new) => (link_last m brother new).map fun m => (m, some new)

def add_mi_node_child (m : MiHeap) (parent : ℕ) (c : NodeArgs) : Option (MiHeap × Option ℕ) := do
  let p ← m.get parent
  match p.kids with
  | some k => add_next m k c
  | none =>
    let (m, new) := create_mi_node m c
    let p ← m.get parent
    let m ← m.set parent { p with kids := new }
    return (m, new)

/-- `node->flags |= MI_WRITTEN`. -/
def mark_written (m : MiHeap) (a : ℕ) : Option MiHeap := do
  let x ← m.get a
  m.set a { x with flags := x.flags ||| MI_WRITTEN }

/-- A completed kid leaves the tree, and is freed if it has no kids (left). -/
def drop_kid (m : MiHeap) (tree kid : ℕ) : Option (MiHeap × Option ℕ) := do
  let x ← m.get kid
  let t ← m.get tree
  let m ← m.set tree { t with kids := x.next }
  let x' ← m.get kid
  let m ← if x'.kids = none then m.free kid else some m
  return (m, x.next)

section Flush

variable (works : ℕ → Bool) (indent : Option Str)

/-- The loop of `recur_flush_tree` over the kids of `tree`, from `kid` on; the integer is what it
returns. -/
def recur_flush_tree : ℕ → MiHeap → Writer → ℕ → Option ℕ → ℕ → Option (MiHeap × Writer × ℤ)
  | 0, _, _, _, _, _ => none
  | _ + 1, m, w, _, none, _ => some (m, w, 0)
  | fuel + 1, m, w, tree, some kid, level => do
    let x ← m.get kid
    let r := if x.flags &&& MI_WRITTEN = 0 then write_or_flush works indent x.toMiNode level w else (w, true)
    if r.2 then
      let m ← if x.flags &&& MI_WRITTEN = 0 then mark_written m kid else some m
      let (m, w, ret) ← recur_flush_tree fuel m r.1 kid x.kids (level + 1)
      if ret < 0 then return (m, w, -1)
      else if ret > 0 then return (m, w, ret)
      else
        let x ← m.get kid
        if x.flags &&& MI_NOT_COMPLETED = 0 then
          let (m, next) ← drop_kid m tree kid
          recur_flush_tree fuel m w tree next level
        else return (m, w, 1)
    else return (m, r.1, -1)

/-- A `struct mi_root` whose node is the object `root`. -/
structure MiReply where
  heap : MiHeap
  root : ℕ
  code : ℕ
  reason : Str

/-- The reply `init_mi_tree` makes. -/
def new_reply (code : ℕ) (reason : Str) : MiReply :=
  { heap := Objects.empty.alloc {
        value := none, name := none, flags := MI_NOT_COMPLETED, attributes := [], kids := none
        next := some 0, last := 0 }
    root := 0, code := code, reason := reason }

/-- `mi_flush_tree`, with what is in the buffer before. -/
def mi_flush_tree (t : MiReply) (bytes : ℕ → UInt8) : Option (MiHeap × Writer × Bool) := do
  let x ← t.heap.get t.root
  let r := if x.flags &&& MI_WRITTEN = 0 then
      write_status { code := t.code, reason := t.reason, flags := x.flags, kids := .null } (start bytes)
    else (start bytes, true)
  if r.2 then
    let m ← if x.flags &&& MI_WRITTEN = 0 then mark_written t.heap t.root else some t.heap
    let (m, w, ret) ← recur_flush_tree works indent (m.fresh + 1) m r.1 t.root x.kids 0
    if ret < 0 then return (m, w, false)
    else
      let (w, ok) := write_end works w
      return (m, w, ok)
  else return (t.heap, r.1, false)

end Flush

end OpenSips.Mi.Tree
