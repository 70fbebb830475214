import OpenSips.QMalloc.Model
import OpenSips.Lib.CellList

/-!
# OpenSips.FMalloc.Model — the allocator of `core/mem/f_malloc.c`

As for `q_malloc.c`, the arena is a memory of 64-bit words at 8-aligned addresses, and the scalars of
`struct fm_block` and the counters `free_hash[h].no` are a record.  A free list is linked through
cells: `free_hash[h].first` and every `u.nxt_free` are one, and `prev` is the address of the cell that
has the fragment.  `none` is an `abort()` or a walk that does not end; the pointer 0 is `NULL`.
-/

namespace OpenSips.FMalloc

open QMalloc (wrap wsub big_hash_idx Mem Region)

/-- The build options `DBG_F_MALLOC` and `STATISTICS`, and the address of the text that marks the
fragments a split makes. -/
structure Build where
  dbg : Bool
  statistics : Bool
  text : ℕ

/-- The accounting exists. -/
def Build.counts (b : Build) : Bool := b.dbg || b.statistics

/-- `file`, `func` and `line`, which a call passes under `DBG_F_MALLOC`. -/
structure Caller where
  file : ℕ
  func : ℕ
  line : ℕ

def ROUNDTO : ℕ := 8
def MIN_FRAG_SIZE : ℕ := ROUNDTO
def F_MALLOC_OPTIMIZE_FACTOR : ℕ := 14
def F_MALLOC_OPTIMIZE : ℕ := 2 ^ F_MALLOC_OPTIMIZE_FACTOR
def F_HASH_SIZE : ℕ := F_MALLOC_OPTIMIZE / ROUNDTO + (64 - F_MALLOC_OPTIMIZE_FACTOR) + 1
def F_MALLOC_LARGE_LIMIT : ℕ := 65536
def F_MALLOC_DEFRAG_LIMIT : ℕ := F_MALLOC_LARGE_LIMIT * 20
def F_MALLOC_DEFRAG_PERCENT : ℕ := 10
def ST_CHECK_PATTERN : ℕ := 0xf0f0f0f0
def END_CHECK_PATTERN1 : ℕ := 0xc0c0c0c0

def ROUNDDOWN (s : ℕ) : ℕ := s / ROUNDTO * ROUNDTO
def ROUNDUP (s : ℕ) : ℕ := ROUNDDOWN (wrap (s + (ROUNDTO - 1)))

def GET_HASH (s : ℕ) : ℕ :=
  if s ≤ F_MALLOC_OPTIMIZE then s / ROUNDTO
  else F_MALLOC_OPTIMIZE / ROUNDTO + big_hash_idx s - F_MALLOC_OPTIMIZE_FACTOR + 1

/-- `struct fm_block` at address `qm`. -/
structure FmBlock where
  mem : Mem
  qm : ℕ
  size : ℕ
  large_space : ℕ
  large_limit : ℕ
  used : ℕ
  real_used : ℕ
  max_real_used : ℕ
  first_frag : ℕ
  last_frag : ℕ
  no : ℕ → ℕ

def FmBlock.store (q : FmBlock) (a v : ℕ) : FmBlock := { q with mem := Function.update q.mem a v }

/-- `free_hash[hash].no`. -/
def FmBlock.setNo (q : FmBlock) (hash n : ℕ) : FmBlock := { q with no := Function.update q.no hash n }

/-! ### Fields of `struct fm_frag` -/

/-- `&f->u.nxt_free` and `&f->prev`. -/
def nxt_free (f : ℕ) : ℕ := f + 8
def prev (f : ℕ) : ℕ := f + 16

/-- `f->file`, `f->func` and `f->line`. -/
def tag (q : FmBlock) (f : ℕ) (c : Caller) : FmBlock :=
  ((q.store (f + 24) c.file).store (f + 32) c.func).store (f + 40) c.line

/-- `f->check`. -/
def check (f : ℕ) : ℕ := f + 48

section Ops

variable (b : Build)

def sizeof_frag : ℕ := if b.dbg then 56 else 24
def FRAG_OVERHEAD : ℕ := sizeof_frag b

/-- The offset of `free_hash` in `struct fm_block`, and `sizeof(struct fm_block)`. -/
def free_hash_off : ℕ := if b.counts then 64 else 40
def sizeof_block : ℕ := free_hash_off b + F_HASH_SIZE * 16

def FRAG_NEXT (q : FmBlock) (f : ℕ) : ℕ := f + sizeof_frag b + q.mem f

/-- `&(qm->free_hash[hash].first)`. -/
def free_hash (q : FmBlock) (hash : ℕ) : ℕ := q.qm + free_hash_off b + hash * 16

/-- Steps that bound every walk over fragments: there are no more of them than bytes. -/
def steps (q : FmBlock) : ℕ := q.last_frag + 1

def free_minus (q : FmBlock) (size : ℕ) : FmBlock :=
  let q := if size > F_MALLOC_LARGE_LIMIT then { q with large_space := wsub q.large_space size } else q
  if b.counts then { q with real_used := wrap (q.real_used + size), used := wrap (q.used + size) }
  else q

def free_plus (q : FmBlock) (size : ℕ) : FmBlock :=
  let q := if size > F_MALLOC_LARGE_LIMIT then { q with large_space := wrap (q.large_space + size) }
    else q
  if b.counts then { q with real_used := wsub q.real_used size, used := wsub q.used size } else q

/-- The loop of `fm_insert_free`: the cell of the first fragment of the list that is not smaller. -/
def insertLoop (q : FmBlock) (size : ℕ) : ℕ → ℕ → Option ℕ
  | 0, _ => none
  | fuel + 1, f =>
    if q.mem f = 0 then some f
    else if size ≤ q.mem (q.mem f) then some f
    else insertLoop q size fuel (nxt_free (q.mem f))

/-- The cell at which `fm_insert_free` inserts. -/
def insertCell (q : FmBlock) (frag : ℕ) : Option ℕ :=
  let f := free_hash b q (GET_HASH (q.mem frag))
  if q.mem frag > F_MALLOC_OPTIMIZE then insertLoop q (q.mem frag) (steps q) f else some f

def fm_insert_free (q : FmBlock) (frag : ℕ) : Option FmBlock := do
  let hash := GET_HASH (q.mem frag)
  let f ← insertCell b q frag
  let q := q.store (prev frag) f
  let q := q.store (nxt_free frag) (q.mem f)
  let q := if q.mem f ≠ 0 then q.store (prev (q.mem f)) (nxt_free frag) else q
  let q := q.store f frag
  let q := q.setNo hash (q.no hash + 1)
  return free_plus b q (q.mem frag)

def fm_remove_free (q : FmBlock) (n : ℕ) : FmBlock :=
  let pf := q.mem (prev n)
  let hash := GET_HASH (q.mem n)
  let q := q.store pf (q.mem (nxt_free n))
  let q := if q.mem (nxt_free n) ≠ 0 then q.store (prev (q.mem (nxt_free n))) pf else q
  let q := q.setNo hash (q.no hash - 1)
  let q := q.store (prev n) 0
  free_minus b q (q.mem n)

/-- `fm_split_frag`; `MEM_FRAG_AVOIDANCE` is defined. -/
def fm_split_frag (q : FmBlock) (frag size : ℕ) (c : Caller) : Option FmBlock := do
  let rest := q.mem frag - size
  if rest > FRAG_OVERHEAD b + F_MALLOC_OPTIMIZE ∨ rest ≥ FRAG_OVERHEAD b + size then
    let q := q.store frag size
    let n := FRAG_NEXT b q frag
    let q := q.store n (rest - FRAG_OVERHEAD b)
    let q := if b.counts then { q with real_used := wrap (q.real_used + FRAG_OVERHEAD b) } else q
    let q := if b.dbg then (tag q n ⟨c.file, b.text, c.line⟩).store (check n) ST_CHECK_PATTERN else q
    fm_insert_free b q n
  else return q

/-- `fm_malloc_init`; the outer `none` is a fault, the inner one the `NULL` it returns. -/
def fm_malloc_init (mem : Mem) (region : Region) : Option (Option FmBlock) := do
  let address := region.address
  let size := region.size
  let start := ROUNDUP address
  if size < wsub start address then return none
  let size := size - wsub start address
  if size < MIN_FRAG_SIZE + FRAG_OVERHEAD b then return none
  let size := ROUNDDOWN size
  let init_overhead := ROUNDUP (sizeof_block b) + sizeof_frag b
  if size < init_overhead then return none
  -- `memset(qm, 0, sizeof(struct fm_block))`
  let mem : Mem := fun a => if start ≤ a ∧ a < start + sizeof_block b then 0 else mem a
  let first := start + ROUNDUP (sizeof_block b)
  let last := start + size - sizeof_frag b
  let q : FmBlock := ⟨mem, start, size, 0, 0, 0, 0, 0, first, last, fun _ => 0⟩
  let q := if b.counts then
      { q with used := size, real_used := wrap (size + init_overhead), max_real_used := init_overhead }
    else q
  let q := q.store first (size - init_overhead)
  let q := q.store last 0
  let q := q.store (prev last) 0
  let q := q.store (prev first) 0
  let q := if b.dbg then
      (q.store (check first) ST_CHECK_PATTERN).store (check last) END_CHECK_PATTERN1 else q
  let q := { q with large_space := 0, large_limit := q.size / 100 * F_MALLOC_DEFRAG_PERCENT }
  let q := if q.large_limit < F_MALLOC_DEFRAG_LIMIT then { q with large_limit := F_MALLOC_DEFRAG_LIMIT }
    else q
  return some (← fm_insert_free b q first)

/-- The inner loop of the search in `fm_malloc`: the first fragment of a bucket that is large enough. -/
def bucketLoop (q : FmBlock) (size : ℕ) : ℕ → ℕ → Option (Option ℕ)
  | 0, _ => none
  | fuel + 1, frag =>
    if frag = 0 then some none
    else if q.mem frag ≥ size then some (some frag)
    else bucketLoop q size fuel (q.mem (nxt_free frag))

/-- The outer loop, over `n` buckets from `hash` on. -/
def findLoop (q : FmBlock) (size : ℕ) : ℕ → ℕ → Option (Option ℕ)
  | 0, _ => some none
  | n + 1, hash => do
    match ← bucketLoop q size (steps q) (q.mem (free_hash b q hash)) with
    | some frag => return some frag
    | none => findLoop q size n (hash + 1)

/-- The fragment `n` behind `f` leaves its list and becomes a part of `f`. -/
def joinFrag (q : FmBlock) (f n : ℕ) : FmBlock :=
  let q := fm_remove_free b q n
  let q := q.store f (q.mem f + (q.mem n + FRAG_OVERHEAD b))
  if b.counts then { q with real_used := wsub q.real_used (FRAG_OVERHEAD b) } else q

/-- The inner loop of the defragmentation: `frag` takes the free fragments behind it, from `n` on, until
it is larger than `size`.  The last one looked at is returned, and whether `frag` is large enough. -/
def mergeLoop (q : FmBlock) (size frag : ℕ) : ℕ → ℕ → Option (FmBlock × ℕ × Bool)
  | 0, _ => none
  | fuel + 1, n =>
    let q := joinFrag b q frag n
    if q.mem frag > size then some (q, n, true)
    else
      let n := FRAG_NEXT b q frag
      if n < q.last_frag ∧ q.mem (prev n) ≠ 0 then mergeLoop q size frag fuel n
      else some (q, n, false)

/-- The defragmentation of `fm_malloc`, from `frag` on. -/
def defragLoop (q : FmBlock) (size : ℕ) : ℕ → ℕ → Option (FmBlock × Option ℕ)
  | 0, _ => none
  | fuel + 1, frag =>
    if frag < q.last_frag then
      let n := FRAG_NEXT b q frag
      if n < q.last_frag ∧ q.mem (prev n) ≠ 0 ∧ q.mem (prev frag) ≠ 0 then do
        let (q, n, solved) ← mergeLoop b (fm_remove_free b q frag) size frag (steps q) n
        if solved then return (q, some frag)
        else
          let q ← fm_insert_free b q frag
          defragLoop q size fuel n
      else defragLoop q size fuel n
    else some (q, none)

/-- `max_real_used` follows `real_used`. -/
def peak (q : FmBlock) : FmBlock :=
  if b.counts then
    if q.max_real_used < q.real_used then { q with max_real_used := q.real_used } else q
  else q

/-- `fm_malloc`; `ATTEMPT_DEFRAG` is defined. -/
def fm_malloc (q : FmBlock) (size : ℕ) (c : Caller) : Option (FmBlock × ℕ) := do
  let size := ROUNDUP size
  match ← findLoop b q size (F_HASH_SIZE - GET_HASH size) (GET_HASH size) with
  | some frag =>
    let q := fm_remove_free b q frag
    let q ← fm_split_frag b q frag size c
    let q := if b.dbg then (tag q frag c).store (check frag) ST_CHECK_PATTERN else q
    return (peak b q, frag + sizeof_frag b)
  | none =>
    match ← defragLoop b q size (steps q) q.first_frag with
    | (q, some frag) => return (peak b q, frag + sizeof_frag b)
    | (q, none) => return (q, 0)

/-- The range check of `fm_free` and `fm_realloc` under `DBG_F_MALLOC`. -/
def inBlock (q : FmBlock) (p : ℕ) : Option Unit :=
  if b.dbg then guard (¬ (p > q.last_frag ∨ p < q.first_frag)) else some ()

/-- The joins of `fm_free`. -/
def joinLoop (q : FmBlock) (f : ℕ) : ℕ → Option FmBlock
  | 0 => none
  | fuel + 1 =>
    if q.large_limit < q.large_space then some q
    else
      let n := FRAG_NEXT b q f
      if n < q.last_frag ∧ q.mem (prev n) ≠ 0 then joinLoop (joinFrag b q f n) f fuel
      else some q

def fm_free (q : FmBlock) (p : ℕ) (c : Caller) : Option FmBlock := do
  inBlock b q p
  if p = 0 then return q
  let f := p - sizeof_frag b
  let q := if b.dbg then tag q f c else q
  let q ← joinLoop b q f (steps q)
  fm_insert_free b q f

/-- `memcpy(dst, src, n)` of whole words. -/
def memcpy (q : FmBlock) (dst src n : ℕ) : FmBlock :=
  { q with mem := fun a => if dst ≤ a ∧ a < dst + n then q.mem (src + (a - dst)) else q.mem a }

def fm_realloc (q : FmBlock) (p size : ℕ) (c : Caller) : Option (FmBlock × ℕ) := do
  if p ≠ 0 then inBlock b q p
  if size = 0 then
    if p ≠ 0 then return (← fm_free b q p c, 0) else return (q, 0)
  else if p = 0 then fm_malloc b q size c
  else
    let f := p - sizeof_frag b
    let size := ROUNDUP size
    let orig_size := q.mem f
    if q.mem f > size then
      -- shrink
      let q ← fm_split_frag b q f size c
      return (peak b q, p)
    else if q.mem f < size then
      -- grow
      let diff := size - q.mem f
      let n := FRAG_NEXT b q f
      if n < q.last_frag ∧ q.mem (prev n) ≠ 0 ∧ q.mem n + FRAG_OVERHEAD b ≥ diff then
        let q := joinFrag b q f n
        let q ← if q.mem f > size then fm_split_frag b q f size c else some q
        return (peak b q, p)
      else
        let (q, ptr) ← fm_malloc b q size c
        if ptr ≠ 0 then
          let q := memcpy q ptr p orig_size
          let q ← fm_free b q p c
          return (peak b q, ptr)
        else return (peak b q, ptr)
    else return (peak b q, p)

end Ops

end OpenSips.FMalloc
