import Mathlib.Logic.Function.Basic
import Mathlib.Data.Nat.Notation
import Mathlib.Algebra.GroupWithZero.Nat
import Mathlib.Algebra.Group.Int.Defs

/-!
# OpenSips.QMalloc.Model — the allocator of `core/mem/q_malloc.c`

The arena is a memory of 64-bit words at 8-aligned addresses; headers, footers, links and the heads
of the free lists live in it at the offsets of `struct qm_frag`, `struct qm_frag_end` and `struct
qm_frag_lnk`.  The scalars of `struct qm_block` and the counters `free_hash[h].no` are a record.
`none` is an `abort()` or a walk that does not end; the pointer 0 is `NULL`.  Sizes and addresses of
fragments stay inside the arena; what can wrap at 64 bits (rounding, the accounting) is written with
`wrap`.
-/

namespace OpenSips.QMalloc

/-- The build options `DBG_QM_MALLOC` and `QM_JOIN_FREE`. -/
structure Build where
  dbg : Bool
  join : Bool

/-- `unsigned long` arithmetic. -/
def wrap (n : ℕ) : ℕ := n % 2 ^ 64
def wsub (m n : ℕ) : ℕ := wrap (m + (2 ^ 64 - wrap n))

section Layout

variable (b : Build)

def ROUNDTO : ℕ := if b.dbg then 8 else 16
def sizeof_frag : ℕ := if b.dbg then 48 else 16
def sizeof_frag_end : ℕ := if b.dbg then 48 else 16
def FRAG_OVERHEAD : ℕ := sizeof_frag b + sizeof_frag_end b
def MIN_FRAG_SIZE : ℕ := ROUNDTO b

/-- Offset of `size` in `struct qm_frag_end`; `prev_free` follows it. -/
def end_size : ℕ := if b.dbg then 32 else 0
def end_prev : ℕ := end_size b + 8

def QM_MALLOC_OPTIMIZE_FACTOR : ℕ := 14
def QM_MALLOC_OPTIMIZE : ℕ := 2 ^ QM_MALLOC_OPTIMIZE_FACTOR
def QM_HASH_SIZE : ℕ := QM_MALLOC_OPTIMIZE / ROUNDTO b + (64 - QM_MALLOC_OPTIMIZE_FACTOR) + 1

/-- `sizeof(struct qm_frag_lnk)`: head, tail and counter. -/
def sizeof_lnk : ℕ := FRAG_OVERHEAD b + 8
/-- `sizeof(struct qm_block)`. -/
def sizeof_block : ℕ := 48 + QM_HASH_SIZE b * sizeof_lnk b

def ROUNDDOWN (s : ℕ) : ℕ := s / ROUNDTO b * ROUNDTO b
def ROUNDUP (s : ℕ) : ℕ := ROUNDDOWN b (wrap (s + (ROUNDTO b - 1)))

/-- The loop of `big_hash_idx`: shift until the top bit is set. -/
def bigHashLoop : ℕ → ℕ → ℕ → ℕ
  | 0, _, idx => idx
  | fuel + 1, s, idx => if 2 ^ 63 ≤ s then idx else bigHashLoop fuel (wrap (2 * s)) (idx - 1)

/-- `big_hash_idx`, for `s > 0`. -/
def big_hash_idx (s : ℕ) : ℕ := bigHashLoop 64 s 63

def GET_HASH (s : ℕ) : ℕ :=
  if s ≤ QM_MALLOC_OPTIMIZE then s / ROUNDTO b
  else QM_MALLOC_OPTIMIZE / ROUNDTO b + big_hash_idx s - QM_MALLOC_OPTIMIZE_FACTOR + 1

end Layout

def ST_CHECK_PATTERN : ℕ := 0xf0f0f0f0
def END_CHECK_PATTERN1 : ℕ := 0xc0c0c0c0
def END_CHECK_PATTERN2 : ℕ := 0xabcdefed

abbrev Mem := ℕ → ℕ

/-- `struct qm_block` at address `qm`. -/
structure QmBlock where
  mem : Mem
  qm : ℕ
  size : ℕ
  used : ℕ
  real_used : ℕ
  max_real_used : ℕ
  first_frag : ℕ
  last_frag_end : ℕ
  no : ℕ → ℕ

def QmBlock.store (q : QmBlock) (a v : ℕ) : QmBlock := { q with mem := Function.update q.mem a v }

section Ops

variable (b : Build)

def FRAG_END (q : QmBlock) (f : ℕ) : ℕ := f + sizeof_frag b + q.mem f
def FRAG_NEXT (q : QmBlock) (f : ℕ) : ℕ := f + sizeof_frag b + q.mem f + sizeof_frag_end b
def PREV_FRAG_END (f : ℕ) : ℕ := f - sizeof_frag_end b
def FRAG_PREV (q : QmBlock) (f : ℕ) : ℕ :=
  PREV_FRAG_END b f - q.mem (PREV_FRAG_END b f + end_size b) - sizeof_frag b

/-- `&(qm->free_hash[hash].head)`; its tail is its `FRAG_END`, since its size is 0. -/
def free_hash (q : QmBlock) (hash : ℕ) : ℕ := q.qm + 48 + hash * sizeof_lnk b

/-- `f->u.nxt_free`, the same word as `f->u.is_free`. -/
def nxt_free (q : QmBlock) (f : ℕ) : ℕ := q.mem (f + 8)
/-- `FRAG_END(f)->prev_free`. -/
def prev_free (q : QmBlock) (f : ℕ) : ℕ := q.mem (FRAG_END b q f + end_prev b)

def headOk (q : QmBlock) (f : ℕ) : Bool := q.mem (f + 40) = ST_CHECK_PATTERN
def endOk (q : QmBlock) (e : ℕ) : Bool :=
  q.mem e = END_CHECK_PATTERN1 ∧ q.mem (e + 8) = END_CHECK_PATTERN2

/-- `qm_debug_frag`, which only exists under `DBG_QM_MALLOC`. -/
def qm_debug_frag (q : QmBlock) (f : ℕ) : Option Unit :=
  if b.dbg then
    guard (headOk q f ∧ endOk q (FRAG_END b q f) ∧ (f > q.first_frag → endOk q (PREV_FRAG_END b f)))
  else some ()

/-- Steps that bound every walk over fragments: there are no more of them than bytes. -/
def steps (q : QmBlock) : ℕ := q.last_frag_end + 1

/-- The loop of `qm_insert_free`: the first fragment of the list that is not smaller. -/
def insertLoop (q : QmBlock) (head size : ℕ) : ℕ → ℕ → Option ℕ
  | 0, _ => none
  | fuel + 1, f =>
    if f = head then some f
    else if size ≤ q.mem f then some f
    else insertLoop q head size fuel (nxt_free q f)

def qm_insert_free (q : QmBlock) (frag : ℕ) : Option QmBlock := do
  let hash := GET_HASH b (q.mem frag)
  let head := free_hash b q hash
  let f ← insertLoop q head (q.mem frag) (steps q) (nxt_free q head)
  let prev := prev_free b q f
  let q := q.store (prev + 8) frag
  let q := q.store (FRAG_END b q frag + end_prev b) prev
  let q := q.store (frag + 8) f
  let q := q.store (FRAG_END b q f + end_prev b) frag
  return { q with no := Function.update q.no hash (q.no hash + 1) }

def qm_detach_free (q : QmBlock) (frag : ℕ) : QmBlock :=
  let prev := prev_free b q frag
  let next := nxt_free q frag
  let q := q.store (prev + 8) next
  q.store (FRAG_END b q next + end_prev b) prev

/-- `qm->free_hash[hash].no--`. -/
def decNo (q : QmBlock) (hash : ℕ) : QmBlock :=
  { q with no := Function.update q.no hash (q.no hash - 1) }

/-- The list heads of `qm_malloc_init`, up to bucket `n`. -/
def initHeads (q : QmBlock) : ℕ → QmBlock
  | 0 => q
  | n + 1 =>
    let q := initHeads q n
    let head := free_hash b q n
    let q := q.store (head + 8) head
    let q := q.store (head + sizeof_frag b + end_prev b) head
    let q := q.store head 0
    q.store (head + sizeof_frag b + end_size b) 0

/-- The check words of a new fragment. -/
def mark (q : QmBlock) (f e : ℕ) : QmBlock :=
  if b.dbg then
    ((q.store (f + 40) ST_CHECK_PATTERN).store e END_CHECK_PATTERN1).store (e + 8)
      END_CHECK_PATTERN2
  else q

/-- The memory a block is set up in: a piece of the address space, whose end is an address too. -/
structure Region where
  address : ℕ
  size : ℕ
  fits : address + size < 2 ^ 64

/-- `qm_malloc_init`; the outer `none` is a fault, the inner one the `NULL` it returns. -/
def qm_malloc_init (mem : Mem) (region : Region) : Option (Option QmBlock) := do
  let address := region.address
  let size := region.size
  let start := ROUNDUP b address
  if size < wsub start address then return none
  let size := size - wsub start address
  if size < MIN_FRAG_SIZE b + FRAG_OVERHEAD b then return none
  let size := ROUNDDOWN b size
  let init_overhead := ROUNDUP b (sizeof_block b) + FRAG_OVERHEAD b
  if size < init_overhead then return none
  -- `memset(qm, 0, sizeof(struct qm_block))`
  let mem : Mem := fun a => if start ≤ a ∧ a < start + sizeof_block b then 0 else mem a
  let first := start + ROUNDUP b (sizeof_block b)
  let last := start + size - sizeof_frag_end b
  let q : QmBlock := ⟨mem, start, size, 0, init_overhead, init_overhead, first, last, fun _ => 0⟩
  let q := q.store first (size - init_overhead)
  let q := q.store (last + end_size b) (size - init_overhead)
  let q := mark b q first last
  let q := initHeads b q (QM_HASH_SIZE b)
  return some (← qm_insert_free b q first)

/-- The inner loop of `qm_find_free`: the first fragment of a bucket that is large enough. -/
def bucketLoop (q : QmBlock) (head size : ℕ) : ℕ → ℕ → Option (Option ℕ)
  | 0, _ => none
  | fuel + 1, f =>
    if f = head then some none
    else if size ≤ q.mem f then some (some f)
    else bucketLoop q head size fuel (nxt_free q f)

/-- The outer loop of `qm_find_free`, over `n` buckets from `hash` on. -/
def findLoop (q : QmBlock) (size : ℕ) : ℕ → ℕ → Option (Option (ℕ × ℕ))
  | 0, _ => some none
  | n + 1, hash => do
    let head := free_hash b q hash
    match ← bucketLoop q head size (steps q) (nxt_free q head) with
    | some f => return some (f, hash)
    | none => findLoop q size n (hash + 1)

/-- `qm_find_free`: a fragment and its bucket. -/
def qm_find_free (q : QmBlock) (size : ℕ) : Option (Option (ℕ × ℕ)) :=
  findLoop b q size (QM_HASH_SIZE b - GET_HASH b size) (GET_HASH b size)

/-- `split_frag`; the flag is `true` when it returns 0, that is on success. -/
def split_frag (q : QmBlock) (f new_size : ℕ) : Option (QmBlock × Bool) := do
  let rest := q.mem f - new_size
  -- `MEM_FRAG_AVOIDANCE` is defined
  if rest > FRAG_OVERHEAD b + QM_MALLOC_OPTIMIZE ∨ rest ≥ FRAG_OVERHEAD b + new_size then
    let q := q.store f new_size
    let e := FRAG_END b q f
    let q := q.store (e + end_size b) new_size
    let n := e + sizeof_frag_end b
    let q := q.store n (rest - FRAG_OVERHEAD b)
    let q := q.store (FRAG_END b q n + end_size b) (q.mem n)
    let q := { q with real_used := wrap (q.real_used + FRAG_OVERHEAD b) }
    let q := mark b q n e
    return (← qm_insert_free b q n, true)
  else return (q, false)

def qm_malloc (q : QmBlock) (size : ℕ) : Option (QmBlock × ℕ) := do
  let size := ROUNDUP b size
  if size > wsub q.size q.real_used then return (q, 0)
  match ← qm_find_free b q size with
  | none => return (q, 0)
  | some (f, hash) =>
    qm_debug_frag b q f
    let q := qm_detach_free b q f
    let q := q.store (f + 8) 0
    let q := decNo q hash
    let (q, _) ← split_frag b q f size
    let q := { q with real_used := wrap (q.real_used + q.mem f), used := wrap (q.used + q.mem f) }
    let q := { q with max_real_used := max q.max_real_used q.real_used }
    let q := if b.dbg then q.store (f + 40) ST_CHECK_PATTERN else q
    return (q, f + sizeof_frag b)

/-- The range check of `qm_free` and `qm_realloc` under `DBG_QM_MALLOC`. -/
def inBlock (q : QmBlock) (p : ℕ) : Option Unit :=
  if b.dbg then guard (¬ (p > q.last_frag_end ∨ p < q.first_frag)) else some ()

/-- `if (f->u.is_free) abort()` under `DBG_QM_MALLOC`. -/
def notFree (q : QmBlock) (f : ℕ) : Option Unit :=
  if b.dbg then guard (q.mem (f + 8) = 0) else some ()

/-- One join of `qm_free` under `QM_JOIN_FREE`: the free neighbour `g` leaves its list, and `size`
grows by it. -/
def joinFrag (q : QmBlock) (g size : ℕ) : QmBlock × ℕ :=
  let q := qm_detach_free b q g
  let size := size + q.mem g + FRAG_OVERHEAD b
  let q := { q with real_used := wsub q.real_used (FRAG_OVERHEAD b) }
  (decNo q (GET_HASH b (q.mem g)), size)

def joinNext (q : QmBlock) (f size : ℕ) : Option (QmBlock × ℕ) := do
  let next := FRAG_NEXT b q f
  if next < q.last_frag_end ∧ q.mem (next + 8) ≠ 0 then
    qm_debug_frag b q next
    return joinFrag b q next size
  else return (q, size)

def joinPrev (q : QmBlock) (f size : ℕ) : Option (QmBlock × ℕ × ℕ) := do
  if f > q.first_frag then
    let prev := FRAG_PREV b q f
    qm_debug_frag b q prev
    if q.mem (prev + 8) ≠ 0 then
      let (q, size) := joinFrag b q prev size
      return (q, prev, size)
    else return (q, f, size)
  else return (q, f, size)

def qm_free (q : QmBlock) (p : ℕ) : Option QmBlock := do
  inBlock b q p
  if p = 0 then return q
  let f := p - sizeof_frag b
  qm_debug_frag b q f
  notFree b q f
  let size := q.mem f
  let q := { q with used := wsub q.used size, real_used := wsub q.real_used size }
  if b.join then
    let (q, size) ← joinNext b q f size
    let (q, f, size) ← joinPrev b q f size
    let q := q.store f size
    let q := q.store (FRAG_END b q f + end_size b) (q.mem f)
    qm_insert_free b q f
  else qm_insert_free b q f

/-- `memcpy(dst, src, n)` of whole words. -/
def memcpy (q : QmBlock) (dst src n : ℕ) : QmBlock :=
  { q with mem := fun a => if dst ≤ a ∧ a < dst + n then q.mem (src + (a - dst)) else q.mem a }

/-- The shrinking branch of `qm_realloc`.  The source tests `split_frag(...) != 0`, which is a split
that was *not* made. -/
def realloc_shrink (q : QmBlock) (f size : ℕ) : Option QmBlock := do
  let orig_size := q.mem f
  let (q, split) ← split_frag b q f size
  if split then return q
  else
    let q := { q with
      real_used := wsub q.real_used (wsub (wsub orig_size (q.mem f)) (FRAG_OVERHEAD b)) }
    return { q with used := wsub q.used (wsub orig_size (q.mem f)) }

/-- Growing into the free fragment `n` that follows. -/
def realloc_join (q : QmBlock) (f n size : ℕ) : Option QmBlock := do
  let orig_size := q.mem f
  let q := qm_detach_free b q n
  let q := decNo q (GET_HASH b (q.mem n))
  let q := q.store f (q.mem f + (q.mem n + FRAG_OVERHEAD b))
  let q := { q with real_used := wsub q.real_used (FRAG_OVERHEAD b) }
  let q := q.store (FRAG_END b q f + end_size b) (q.mem f)
  let q ← if q.mem f > size then (do return (← split_frag b q f size).1) else some q
  let q := { q with real_used := wrap (q.real_used + (q.mem f - orig_size)) }
  return { q with used := wrap (q.used + (q.mem f - orig_size)) }

def realloc_move (q : QmBlock) (p f size : ℕ) : Option (QmBlock × ℕ) := do
  let orig_size := q.mem f
  let (q, ptr) ← qm_malloc b q size
  if ptr ≠ 0 then
    let q := memcpy q ptr p orig_size
    return (← qm_free b q p, ptr)
  else return (q, ptr)

def qm_realloc (q : QmBlock) (p size : ℕ) : Option (QmBlock × ℕ) := do
  if p ≠ 0 then inBlock b q p
  if size = 0 then
    if p ≠ 0 then return (← qm_free b q p, 0) else return (q, 0)
  else if p = 0 then qm_malloc b q size
  else
    let f := p - sizeof_frag b
    qm_debug_frag b q f
    notFree b q f
    let size := ROUNDUP b size
    if q.mem f > size then return (← realloc_shrink b q f size, p)
    else if q.mem f < size then
      let diff := size - q.mem f
      let n := FRAG_NEXT b q f
      if n < q.last_frag_end ∧ q.mem (n + 8) ≠ 0 ∧ q.mem n + FRAG_OVERHEAD b ≥ diff then
        return (← realloc_join b q f n size, p)
      else realloc_move b q p f size
    else return (q, p)

end Ops

end OpenSips.QMalloc
