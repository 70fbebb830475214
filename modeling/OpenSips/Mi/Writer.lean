import OpenSips.Lib.Bytes
import OpenSips.Mi.Model
import OpenSips.Utils

/-!
# OpenSips.Mi.Writer — replies (`mi_stream/mi_writer.c`, `mi/tree.c`)

A reply is a tree of nodes.  Each is one line; lines are put into a buffer of `MAX_MI_FIFO_BUFFER` bytes,
and when the next one does not fit the buffer is handed to `mi_fifofd_reply`.  Whether a call of that
succeeds depends on the peer: `works k` says so for the call with number `k`.
-/

namespace OpenSips.Mi

open Lib

def MI_NOT_COMPLETED : UInt32 := (1 : UInt32) <<< 3

def MI_WRITTEN : UInt32 := (1 : UInt32) <<< 3

/-- A `struct mi_attr`; a text that is `NULL` is `none`. -/
structure MiAttr where
  name : Option Str
  value : Option Str

/-- A `struct mi_node` without its links. -/
structure MiNode where
  value : Option Str
  name : Option Str
  flags : UInt32
  attributes : List MiAttr

/-- What a `struct mi_node *` leads to: a node, its `kids` and its `next`. -/
inductive MiTree where
  | null
  | node (n : MiNode) (kids next : MiTree)

/-- A `struct mi_root`; of its own node, the flags and the kids. -/
structure MiRoot where
  code : ℕ
  reason : Str
  flags : UInt32
  kids : MiTree

def init_mi_tree (code : ℕ) (reason : Str) : MiRoot :=
  { code := code, reason := reason, flags := MI_NOT_COMPLETED, kids := .null }

/-- The reply buffer, with the first position behind everything that was ever written to it. -/
structure Buffer where
  bytes : ℕ → UInt8
  extent : ℕ

def Buffer.memcpy (b : Buffer) (p : ℕ) (xs : Str) : Buffer :=
  { bytes := write b.bytes p xs, extent := max b.extent (p + xs.length) }

/-- `if (p+n>end) return -1;` and the copy of these `n` bytes to `p`; there is no `p` after a return. -/
def copy (e : ℤ) (xs : Str) : Buffer × Option ℕ → Buffer × Option ℕ
  | (b, none) => (b, none)
  | (b, some p) => if p + xs.length > e then (b, none) else (b.memcpy p xs, some (p + xs.length))

/-- The copy of a text that may be `NULL`, with what is written around it. -/
def copy_text (e : ℤ) (f : Str → Str) (t : Option Str) (r : Buffer × Option ℕ) : Buffer × Option ℕ :=
  match t with
  | none => r
  | some xs => copy e (f xs) r

def name_text (xs : Str) : Str := xs ++ [MI_ATTR_VAL_SEP1, MI_ATTR_VAL_SEP2, chr ' ']

def attr_text (xs : Str) : Str := chr ' ' :: xs ++ [chr '=']

def copy_attr (e : ℤ) (r : Buffer × Option ℕ) (a : MiAttr) : Buffer × Option ℕ :=
  copy_text e id a.value (copy_text e attr_text a.name r)

/-- `mi_write_buffer` with `buf`: its `s` as a position and its `len`; what was handed to
`mi_fifofd_reply`. -/
structure Writer where
  buffer : Buffer
  s : ℕ
  len : ℤ
  blocks : List Str

/-- Nothing is in the buffer. -/
def start (bytes : ℕ → UInt8) : Writer :=
  { buffer := ⟨bytes, 0⟩, s := 0, len := MAX_MI_FIFO_BUFFER, blocks := [] }

variable (works : ℕ → Bool) (indent : Option Str)

def mi_write_node (n : MiNode) (level : ℕ) (w : Writer) : Writer × Bool :=
  let e := w.s + w.len
  let r := copy_text e (fun i => (List.replicate level i).flatten) indent (w.buffer, some w.s)
  let r := copy_text e name_text n.name r
  let r := copy_text e id n.value r
  let r := n.attributes.foldl (copy_attr e) r
  match copy e [LF] r with
  | (b, none) => ({ w with buffer := b }, false)
  | (b, some p) => ({ w with buffer := b, s := p, len := w.len - (p - w.s) }, true)

def mi_fifofd_reply (w : Writer) : Writer × Bool :=
  ({ w with blocks := w.blocks ++ [read w.buffer.bytes 0 w.s] }, works w.blocks.length)

/-- `if (r!=0) return -1;` and the rest. -/
def and_then (r : Writer × Bool) (rest : Writer → Writer × Bool) : Writer × Bool :=
  if r.2 then rest r.1 else (r.1, false)

/-- A node of `recur_write_tree`: once more with the buffer empty if it does not fit. -/
def write_or_flush (n : MiNode) (level : ℕ) (w : Writer) : Writer × Bool :=
  let r := mi_write_node indent n level w
  if r.2 then r
  else
    and_then (mi_fifofd_reply works r.1) fun w =>
      mi_write_node indent n level { w with s := 0, len := MAX_MI_FIFO_BUFFER }

def recur_write_tree : MiTree → ℕ → Writer → Writer × Bool
  | .null, _, w => (w, true)
  | .node n kids next, level, w =>
    and_then (if n.flags &&& MI_WRITTEN = 0 then write_or_flush works indent n level w else (w, true))
      fun w => and_then (recur_write_tree kids (level + 1) w) (recur_write_tree next level)

/-- The status line of `mi_write_tree`; the test leaves out the byte of the newline. -/
def write_status (tree : MiRoot) (w : Writer) : Writer × Bool :=
  let code := int2str tree.code
  if code.length + tree.reason.length + 1 > w.len then (w, false)
  else
    ({ w with
        buffer := w.buffer.memcpy w.s (code ++ chr ' ' :: tree.reason ++ [LF]),
        s := w.s + (code.length + 1 + tree.reason.length + 1),
        len := w.len - (code.length + 1 + tree.reason.length + 1) }, true)

def write_end (w : Writer) : Writer × Bool :=
  if w.len ≤ 0 then (w, false)
  else
    mi_fifofd_reply works
      { w with buffer := w.buffer.memcpy w.s [LF], s := w.s + 1, len := w.len - 1 }

def mi_write_tree (tree : MiRoot) (bytes : ℕ → UInt8) : Writer × Bool :=
  let w := start bytes
  and_then (if tree.flags &&& MI_WRITTEN = 0 then write_status tree w else (w, true)) fun w =>
    and_then (recur_write_tree works indent tree.kids 0 w) (write_end works)

end OpenSips.Mi
