import OpenSips.Str
import Mathlib.Data.List.Induction

/-!
# OpenSips.Db.Binds — the values of a prepared statement (`db_mysql/dbase.c`, `db_mysql/val.c`)

A statement is one block with a bind and an `in_buf` for each value, and a `MYSQL_TIME` for each value that is a time.
The binds of times are linked to their slots when the block is made, and never again.
-/

namespace OpenSips.DbBind

open Function List Option

section Source

/-- The types of `db_val.h`, and every other number. -/
inductive db_type_t where
  | DB_INT
  | DB_DOUBLE
  | DB_STRING
  | DB_STR
  | DB_DATETIME
  | DB_BLOB
  | DB_BITMAP
  | other (n : ℤ)
  deriving DecidableEq

/-- A value with the members of its union, of which the type tells the one that is there.  A C string is what
stands in memory from its first byte on. -/
structure db_val_t where
  type : db_type_t
  nul : Bool
  int_val : BitVec 32
  double_val : BitVec 64
  time_val : ℤ
  string_val : Str
  str_val : Str
  blob_val : Str
  bitmap_val : BitVec 32

/-- `struct tm` -/
structure Tm where
  tm_year : ℤ
  tm_mon : ℤ
  tm_mday : ℤ
  tm_hour : ℤ
  tm_min : ℤ
  tm_sec : ℤ

/-- The members of `MYSQL_TIME` that are written, each an `unsigned int`. -/
structure MYSQL_TIME where
  year : ℕ
  month : ℕ
  day : ℕ
  hour : ℕ
  minute : ℕ
  second : ℕ
  deriving DecidableEq

inductive enum_field_types where
  | MYSQL_TYPE_DECIMAL
  | MYSQL_TYPE_LONG
  | MYSQL_TYPE_DOUBLE
  | MYSQL_TYPE_DATETIME
  | MYSQL_TYPE_BLOB
  | MYSQL_TYPE_STRING
  deriving DecidableEq

/-- Where a bind's `buffer` points to: nowhere, to what stands in or behind a value, or to a `MYSQL_TIME`. -/
inductive Buffer where
  | NULL
  | word (x : BitVec 32)
  | double (x : BitVec 64)
  | chars (s : Str)
  | time (mt : ℤ)
  deriving DecidableEq

/-- `length` and `is_null` point to the members of an `in_buf`, if they are set. -/
structure MYSQL_BIND where
  length : Option ℕ
  is_null : Option ℕ
  buffer : Buffer
  buffer_type : enum_field_types

structure bind_icontent where
  len : ℕ
  null : Bool

/-- The arrays of a statement by index, and its `MYSQL_TIME`s by address. -/
structure prep_stmt where
  bind_in : ℕ → MYSQL_BIND
  in_bufs : ℕ → bind_icontent
  times : ℤ → MYSQL_TIME

/-- `sizeof` -/
structure Sizes where
  prep_stmt : ℕ
  MYSQL_BIND : ℕ
  bind_icontent : ℕ
  MYSQL_TIME : ℕ
  time_pos : 0 < MYSQL_TIME

variable (z : Sizes) (localtime : ℤ → Option Tm)

/-- `time_no++` for each time of a list. -/
def time_no (v : List db_val_t) : ℕ := v.countP (·.type = .DB_DATETIME)

/-- The loop over one list: `i` is the index of its first bind, and `time_no` is counted down. -/
def link_loop (mt : ℤ) : List db_val_t → ℕ → ℤ → (ℕ → MYSQL_BIND) → ℤ × (ℕ → MYSQL_BIND)
  | [], _, time_no, b => (time_no, b)
  | v :: vs, i, time_no, b =>
    let x : MYSQL_BIND := { b i with length := some i, is_null := some i }
    if v.type = .DB_DATETIME then
      link_loop mt vs (i + 1) (time_no - 1) (update b i { x with buffer := .time (mt + (time_no - 1) * z.MYSQL_TIME) })
    else link_loop mt vs (i + 1) time_no (update b i x)

/-- `memset(pq_ptr, 0, len)` -/
def zeroed : prep_stmt where
  bind_in _ := ⟨none, none, .NULL, .MYSQL_TYPE_DECIMAL⟩
  in_bufs _ := ⟨0, false⟩
  times _ := ⟨0, 0, 0, 0, 0, 0⟩

/-- The `len` of the block, with `total` values. -/
def block_len (total time_no : ℕ) : ℕ := z.prep_stmt + time_no * z.MYSQL_TIME + total * (z.bind_icontent + z.MYSQL_BIND)

def alloc_new_prepared_stmt (shm_malloc : ℕ → Option ℤ) (v uv : List db_val_t) : Option prep_stmt :=
  let total := v.length + uv.length
  let times := time_no v + time_no uv
  match shm_malloc (block_len z total times) with
  | none => none
  | some pq_ptr =>
    if total = 0 then some zeroed
    else
      let bind_in := pq_ptr + z.prep_stmt
      let in_bufs := bind_in + total * z.MYSQL_BIND
      let mt := in_bufs + total * z.bind_icontent
      let first := link_loop z mt v 0 times zeroed.bind_in
      let second := link_loop z mt uv v.length first.1 first.2
      if second.1 ≠ 0 then none else some { zeroed with bind_in := second.2 }

/-- `*(binds[i].is_null) = b` -/
def prep_stmt.set_null (s : prep_stmt) (i : ℕ) (b : Bool) : Option prep_stmt :=
  (s.bind_in i).is_null.map fun k => { s with in_bufs := update s.in_bufs k { s.in_bufs k with null := b } }

/-- `*(binds[i].length) = n` -/
def prep_stmt.set_length (s : prep_stmt) (i n : ℕ) : Option prep_stmt :=
  (s.bind_in i).length.map fun k => { s with in_bufs := update s.in_bufs k { s.in_bufs k with len := n } }

def prep_stmt.set_buffer (s : prep_stmt) (i : ℕ) (b : Buffer) : prep_stmt :=
  { s with bind_in := update s.bind_in i { s.bind_in i with buffer := b } }

def prep_stmt.set_type (s : prep_stmt) (i : ℕ) (t : enum_field_types) : prep_stmt :=
  { s with bind_in := update s.bind_in i { s.bind_in i with buffer_type := t } }

/-- The conversion to `unsigned int`. -/
def unsigned (x : ℤ) : ℕ := (x % 2 ^ 32).toNat

/-- What is written through `mt`. -/
def Tm.mysql (t : Tm) : MYSQL_TIME where
  year := unsigned (1900 + t.tm_year)
  month := unsigned (t.tm_mon + 1)
  day := unsigned t.tm_mday
  hour := unsigned t.tm_hour
  minute := unsigned t.tm_min
  second := unsigned t.tm_sec

def strlen (s : Str) : ℕ := (s.takeWhile (· ≠ 0)).length

/-- Where nothing is returned, a pointer is used that is NULL. -/
def db_mysql_val2bind (v : db_val_t) (i : ℕ) (s : prep_stmt) : Option (ℤ × prep_stmt) :=
  if v.nul = true then do
    let s ← s.set_null i true
    let s ← s.set_length i 0
    let s := s.set_buffer i .NULL
    match v.type with
    | .DB_INT => some (0, s.set_type i .MYSQL_TYPE_LONG)
    | .DB_BITMAP => some (0, s.set_type i .MYSQL_TYPE_LONG)
    | .DB_DOUBLE => some (0, s.set_type i .MYSQL_TYPE_DOUBLE)
    | .DB_STRING => some (0, s.set_type i .MYSQL_TYPE_STRING)
    | .DB_STR => some (0, s.set_type i .MYSQL_TYPE_STRING)
    | .DB_DATETIME => some (0, s.set_type i .MYSQL_TYPE_DATETIME)
    | .DB_BLOB => some (0, s.set_type i .MYSQL_TYPE_BLOB)
    | .other _ => some (-10, s)
  else do
    let s ← s.set_null i false
    match v.type with
    | .DB_INT =>
      let s ← ((s.set_type i .MYSQL_TYPE_LONG).set_buffer i (.word v.int_val)).set_length i 4
      some (0, s)
    | .DB_BITMAP =>
      let s ← ((s.set_type i .MYSQL_TYPE_LONG).set_buffer i (.word v.bitmap_val)).set_length i 4
      some (0, s)
    | .DB_DOUBLE =>
      let s ← ((s.set_type i .MYSQL_TYPE_DOUBLE).set_buffer i (.double v.double_val)).set_length i 8
      some (0, s)
    | .DB_STRING =>
      let s ← ((s.set_type i .MYSQL_TYPE_STRING).set_buffer i (.chars v.string_val)).set_length i (strlen v.string_val)
      some (0, s)
    | .DB_STR =>
      let s ← ((s.set_type i .MYSQL_TYPE_STRING).set_buffer i (.chars v.str_val)).set_length i v.str_val.length
      some (0, s)
    | .DB_DATETIME =>
      let s := s.set_type i .MYSQL_TYPE_DATETIME
      let t ← localtime v.time_val
      match (s.bind_in i).buffer with
      | .time mt =>
        let s ← { s with times := update s.times mt t.mysql }.set_length i z.MYSQL_TIME
        some (0, s)
      | _ => none
    | .DB_BLOB =>
      let s ← ((s.set_type i .MYSQL_TYPE_BLOB).set_buffer i (.chars v.blob_val)).set_length i v.blob_val.length
      some (0, s)
    | .other _ => some (-9, s)

/-- The loop that sets one list of values, the first at `i`. -/
def set_loop : List db_val_t → ℕ → prep_stmt → Option (ℤ × prep_stmt)
  | [], _, s => some (0, s)
  | v :: vs, i, s => do
    let (code, s) ← db_mysql_val2bind z localtime v i s
    if code < 0 then some (-1, s) else set_loop vs (i + 1) s

structure Execution where
  v : List db_val_t
  uv : List db_val_t

/-- `db_mysql_do_prepared_query` up to the `do`: both sets of values. -/
def set_values (e : Execution) (s : prep_stmt) : Option (ℤ × prep_stmt) := do
  let (code, s) ← set_loop z localtime e.v 0 s
  if code < 0 then some (-1, s) else set_loop z localtime e.uv e.v.length s

/-- A statement that is used again and again. -/
def run (s : prep_stmt) (es : List Execution) : Option prep_stmt :=
  es.foldlM (fun s e => (set_values z localtime e s).map Prod.snd) s

end Source

section Reference

/-- What is given to the server for one mark. -/
inductive Content where
  | word (x : BitVec 32)
  | double (x : BitVec 64)
  | chars (s : Str)
  | time (t : MYSQL_TIME)
  deriving DecidableEq

structure Parameter where
  type : enum_field_types
  null : Bool
  length : ℕ
  content : Option Content
  deriving DecidableEq

/-- What is read from a buffer. -/
def Buffer.content (times : ℤ → MYSQL_TIME) (length : ℕ) : Buffer → Option Content
  | .NULL => none
  | .word x => some (.word x)
  | .double x => some (.double x)
  | .chars s => some (.chars (s.take length))
  | .time mt => some (.time (times mt))

/-- What a bind describes: its type, and what its three pointers lead to. -/
def prep_stmt.parameter (s : prep_stmt) (i : ℕ) : Option Parameter := do
  let b := s.bind_in i
  let null ← b.is_null
  let length ← b.length
  let length := (s.in_bufs length).len
  some ⟨b.buffer_type, (s.in_bufs null).null, length, b.buffer.content s.times length⟩

variable (z : Sizes) (localtime : ℤ → Option Tm)

def db_type_t.field_type : db_type_t → Option enum_field_types
  | .DB_INT => some .MYSQL_TYPE_LONG
  | .DB_BITMAP => some .MYSQL_TYPE_LONG
  | .DB_DOUBLE => some .MYSQL_TYPE_DOUBLE
  | .DB_STRING => some .MYSQL_TYPE_STRING
  | .DB_STR => some .MYSQL_TYPE_STRING
  | .DB_DATETIME => some .MYSQL_TYPE_DATETIME
  | .DB_BLOB => some .MYSQL_TYPE_BLOB
  | .other _ => none

/-- The value itself, with its length. -/
def db_val_t.content (v : db_val_t) : Option (ℕ × Content) :=
  match v.type with
  | .DB_INT => some (4, .word v.int_val)
  | .DB_BITMAP => some (4, .word v.bitmap_val)
  | .DB_DOUBLE => some (8, .double v.double_val)
  | .DB_STRING => some (strlen v.string_val, .chars (v.string_val.takeWhile (· ≠ 0)))
  | .DB_STR => some (v.str_val.length, .chars v.str_val)
  | .DB_DATETIME => (localtime v.time_val).map fun t => (z.MYSQL_TIME, .time t.mysql)
  | .DB_BLOB => some (v.blob_val.length, .chars v.blob_val)
  | .other _ => none

/-- What the bind of a value has to describe. -/
def db_val_t.parameter (v : db_val_t) : Option Parameter := do
  let t ← v.type.field_type
  if v.nul = true then some ⟨t, true, 0, none⟩
  else do
    let (length, c) ← v.content z localtime
    some ⟨t, false, length, some c⟩

def Execution.values (e : Execution) : List db_val_t := e.v ++ e.uv

def SameTypes (e e' : Execution) : Prop := e.v.map (·.type) = e'.v.map (·.type) ∧ e.uv.map (·.type) = e'.uv.map (·.type)

/-- The value at `i` is a time. -/
def TimeAt (e : Execution) (i : ℕ) (v : db_val_t) : Prop := e.values[i]? = some v ∧ v.type = .DB_DATETIME

/-- Each time of a statement has a slot of its own in the block, behind the binds and the `in_buf`s. -/
def SlotsApart (base : ℤ) (e : Execution) (s : prep_stmt) : Prop :=
  let total := e.v.length + e.uv.length
  ∀ i v, TimeAt e i v → ∃ mt, (s.bind_in i).buffer = .time mt ∧
    base + z.prep_stmt + total * (z.MYSQL_BIND + z.bind_icontent) ≤ mt ∧
    mt + z.MYSQL_TIME ≤ base + block_len z total (time_no e.values) ∧
    ∀ j w, TimeAt e j w → j ≠ i → ∃ mt', (s.bind_in j).buffer = .time mt' ∧
      (mt + z.MYSQL_TIME ≤ mt' ∨ mt' + z.MYSQL_TIME ≤ mt)

/-- The binds describe the values, and the times that are there stand in the slots that `s₀` has for them. -/
def Describes (s₀ s : prep_stmt) (e : Execution) : Prop :=
  ∀ i v, e.values[i]? = some v → s.parameter i = v.parameter z localtime ∧
    (v.type = .DB_DATETIME → v.nul = false → (s.bind_in i).buffer = (s₀.bind_in i).buffer)

/-- No execution uses a NULL, and one that goes through all values describes them. -/
def BindsRight (s₀ : prep_stmt) (es : List Execution) : Prop :=
  ∀ before e, before ++ [e] <+: es → ∃ s code s', run z localtime s₀ before = some s ∧
    set_values z localtime e s = some (code, s') ∧ (0 ≤ code → Describes z localtime s₀ s' e)

/-- The types in front of a value, and its own, are such as `db_mysql_val2bind` knows. -/
def Reached (vs : List db_val_t) (i : ℕ) : Prop := ∀ v ∈ vs.take (i + 1), v.type.field_type ≠ none

/-- A time that is there can be told by `localtime`, and was there in all executions before. -/
def TimesStay (es : List Execution) : Prop :=
  ∀ before e, before ++ [e] <+: es → ∀ i v, TimeAt e i v → Reached e.values i → v.nul = false →
    localtime v.time_val ≠ none ∧ ∀ e' ∈ before, ∀ v', e'.values[i]? = some v' → v'.nul = false

end Reference

section OneValue

variable {z : Sizes} {localtime : ℤ → Option Tm} {s s' : prep_stmt} {i j n len : ℕ} {code : ℤ} {v : db_val_t}
  {b : Buffer} {t : enum_field_types} {c : Content} {null : Bool} {times : ℤ → MYSQL_TIME}

structure Wired (s : prep_stmt) (i : ℕ) : Prop where
  length : (s.bind_in i).length = some i
  is_null : (s.bind_in i).is_null = some i

def Writable (localtime : ℤ → Option Tm) (s : prep_stmt) (i : ℕ) (v : db_val_t) : Prop :=
  v.type = .DB_DATETIME → v.nul = false →
    localtime v.time_val ≠ none ∧ ∃ mt, (s.bind_in i).buffer = .time mt

/-- Of the binds and `in_buf`s those from `lo` to `hi` are written, with the `MYSQL_TIME`s they lead to.  No bind is
linked to a slot it did not have. -/
structure Elsewhere (s s' : prep_stmt) (lo hi : ℕ) : Prop where
  bind_in : ∀ j, ¬ (lo ≤ j ∧ j < hi) → s'.bind_in j = s.bind_in j
  in_bufs : ∀ j, ¬ (lo ≤ j ∧ j < hi) → s'.in_bufs j = s.in_bufs j
  wired : ∀ j, Wired s j → Wired s' j
  times : ∀ mt, (∀ j, lo ≤ j → j < hi → (s.bind_in j).buffer ≠ .time mt) → s'.times mt = s.times mt
  slot : ∀ j mt, (s'.bind_in j).buffer = .time mt → (s.bind_in j).buffer = .time mt

/-- What `db_mysql_val2bind` does with a value at `i`. -/
structure Bound (z : Sizes) (localtime : ℤ → Option Tm) (s s' : prep_stmt) (i : ℕ) (v : db_val_t) (code : ℤ) : Prop where
  elsewhere : Elsewhere s s' i (i + 1)
  known : 0 ≤ code ↔ v.type.field_type ≠ none
  parameter : 0 ≤ code → s'.parameter i = v.parameter z localtime
  buffer : v.type = .DB_DATETIME → (s'.bind_in i).buffer = if v.nul = true then .NULL else (s.bind_in i).buffer

/-- The state with a new bind at `i`. -/
def put (s : prep_stmt) (i : ℕ) (b : Buffer) (t : enum_field_types) (len : ℕ) (null : Bool)
    (times : ℤ → MYSQL_TIME) : prep_stmt where
  bind_in := update s.bind_in i ⟨some i, some i, b, t⟩
  in_bufs := update s.in_bufs i ⟨len, null⟩
  times := times

@[simp] theorem put_bind_in : (put s i b t len null times).bind_in i = ⟨some i, some i, b, t⟩ :=
  update_self i _ s.bind_in

@[simp] theorem put_parameter :
    (put s i b t len null times).parameter i = some ⟨t, null, len, b.content times len⟩ := by
  simp [put, prep_stmt.parameter]

theorem put_bind_in_of_ne (h : j ≠ i) : (put s i b t len null times).bind_in j = s.bind_in j :=
  update_of_ne h _ s.bind_in

theorem elsewhere_put (hb : ∀ mt, b = .time mt → (s.bind_in i).buffer = .time mt)
    (ht : ∀ mt, (s.bind_in i).buffer ≠ .time mt → times mt = s.times mt) :
    Elsewhere s (put s i b t len null times) i (i + 1) where
  bind_in j hj := put_bind_in_of_ne (by omega)
  in_bufs j hj := update_of_ne (by omega) _ s.in_bufs
  wired j hj := by
    by_cases he : j = i
    · subst he
      exact ⟨by rw [put_bind_in], by rw [put_bind_in]⟩
    · exact ⟨by rw [put_bind_in_of_ne he, hj.length], by rw [put_bind_in_of_ne he, hj.is_null]⟩
  times mt h := ht mt (h i (Nat.le_refl i) (Nat.lt_succ_self i))
  slot j mt h := by
    by_cases he : j = i
    · subst he
      rw [put_bind_in] at h
      exact hb mt h
    · rwa [put_bind_in_of_ne he] at h

theorem val2bind_null (hs : Wired s i) (hv : v.nul = true) : db_mysql_val2bind z localtime v i s =
      some (v.type.field_type.elim (-10) fun _ => 0,
        put s i .NULL (v.type.field_type.getD (s.bind_in i).buffer_type) 0 true s.times) := by
  obtain ⟨hl, hn⟩ := hs
  rw [db_mysql_val2bind, if_pos hv]
  cases v.type <;>
    simp [prep_stmt.set_null, prep_stmt.set_length, prep_stmt.set_buffer, prep_stmt.set_type, hl, hn, put,
      db_type_t.field_type]

/-- Where a value stands that is there and no time. -/
def db_val_t.buffer (v : db_val_t) : Buffer :=
  match v.type with
  | .DB_INT => .word v.int_val
  | .DB_BITMAP => .word v.bitmap_val
  | .DB_DOUBLE => .double v.double_val
  | .DB_STRING => .chars v.string_val
  | .DB_STR => .chars v.str_val
  | .DB_BLOB => .chars v.blob_val
  | _ => .NULL

theorem buffer_ne_time (v : db_val_t) (mt : ℤ) : v.buffer ≠ .time mt := by
  rw [db_val_t.buffer]
  cases v.type <;> simp

theorem take_strlen (s : Str) : s.take (strlen s) = s.takeWhile (· ≠ 0) :=
  (prefix_iff_eq_take.1 (List.takeWhile_prefix _)).symm

theorem buffer_content (hc : v.content z localtime = some (len, c)) (hne : v.type ≠ .DB_DATETIME) :
    v.buffer.content times len = some c := by
  rw [db_val_t.content] at hc
  rw [db_val_t.buffer]
  cases hty : v.type with
  | DB_DATETIME => exact absurd hty hne
  | DB_STRING =>
    simp only [hty, some.injEq, Prod.mk.injEq] at hc
    obtain ⟨rfl, rfl⟩ := hc
    simp only [Buffer.content, take_strlen]
  | DB_STR | DB_BLOB =>
    simp only [hty, some.injEq, Prod.mk.injEq] at hc
    obtain ⟨rfl, rfl⟩ := hc
    simp only [Buffer.content, take_length]
  | _ => simp_all [Buffer.content]

theorem val2bind_there (hs : Wired s i) (hv : v.nul = false) (ht : v.type.field_type = some t)
    (hc : v.content z localtime = some (len, c)) (hne : v.type ≠ .DB_DATETIME) :
    db_mysql_val2bind z localtime v i s = some (0, put s i v.buffer t len false s.times) := by
  obtain ⟨hl, hn⟩ := hs
  rw [db_mysql_val2bind, if_neg (by simp [hv])]
  rw [db_val_t.content] at hc
  rw [db_val_t.buffer]
  cases hty : v.type <;>
    simp_all [prep_stmt.set_null, prep_stmt.set_length, prep_stmt.set_buffer, prep_stmt.set_type, put,
      db_type_t.field_type]

theorem val2bind_time {tm : Tm} {mt : ℤ} (hs : Wired s i) (hv : v.nul = false) (hty : v.type = .DB_DATETIME)
    (htm : localtime v.time_val = some tm) (hb : (s.bind_in i).buffer = .time mt) :
    db_mysql_val2bind z localtime v i s = some (0, put s i (.time mt) .MYSQL_TYPE_DATETIME z.MYSQL_TIME false
      (update s.times mt tm.mysql)) := by
  obtain ⟨hl, hn⟩ := hs
  rw [db_mysql_val2bind, if_neg (by simp [hv])]
  simp [prep_stmt.set_null, prep_stmt.set_length, prep_stmt.set_type, put, hty, htm, hb, hl, hn]

theorem val2bind_other (hs : Wired s i) (hv : v.nul = false) (ht : v.type.field_type = none) :
    db_mysql_val2bind z localtime v i s = some (-9, put s i (s.bind_in i).buffer (s.bind_in i).buffer_type
      (s.in_bufs i).len false s.times) := by
  obtain ⟨hl, hn⟩ := hs
  have hself : (⟨some i, some i, (s.bind_in i).buffer, (s.bind_in i).buffer_type⟩ : MYSQL_BIND) = s.bind_in i := by
    conv_rhs => rw [← show (⟨_, _, _, _⟩ : MYSQL_BIND) = s.bind_in i from rfl, hl, hn]
  rw [db_mysql_val2bind, if_neg (by simp [hv]), put, hself, update_eq_self]
  cases hty : v.type <;> simp_all [prep_stmt.set_null, db_type_t.field_type]

theorem content_known (z : Sizes) (localtime : ℤ → Option Tm) (ht : v.type.field_type = some t)
    (hne : v.type ≠ .DB_DATETIME) : ∃ len c, v.content z localtime = some (len, c) := by
  rw [db_val_t.content]
  cases hty : v.type <;> simp_all [db_type_t.field_type]

theorem parameter_null (hv : v.nul = true) (ht : v.type.field_type = some t) :
    v.parameter z localtime = some ⟨t, true, 0, none⟩ := by
  simp [db_val_t.parameter, ht, hv]

theorem parameter_there (hv : v.nul = false) (ht : v.type.field_type = some t)
    (hc : v.content z localtime = some (len, c)) : v.parameter z localtime = some ⟨t, false, len, some c⟩ := by
  simp [db_val_t.parameter, ht, hv, hc]

/-- **One value**, which may be written. -/
theorem val2bind_bound (hs : Wired s i) (hw : Writable localtime s i v) :
    ∃ code s', db_mysql_val2bind z localtime v i s = some (code, s') ∧ Bound z localtime s s' i v code := by
  cases hv : v.nul with
  | true =>
    refine ⟨_, _, val2bind_null hs hv, elsewhere_put (fun mt h => nomatch h) fun mt _ => rfl, ?_, ?_, ?_⟩
    · cases v.type.field_type <;> simp
    · cases ht : v.type.field_type with
      | none => exact fun h => absurd h (by decide)
      | some t => exact fun _ => put_parameter.trans (parameter_null hv ht).symm
    · intro _
      rw [put_bind_in, if_pos hv]
  | false =>
    have hnul : ¬ v.nul = true := by simp [hv]
    cases ht : v.type.field_type with
    | none =>
      refine ⟨_, _, val2bind_other hs hv ht, elsewhere_put (fun mt h => h) fun mt _ => rfl, ?_, ?_, ?_⟩
      · simp [ht]
      · exact fun h => absurd h (by decide)
      · intro _
        rw [put_bind_in, if_neg hnul]
    | some t =>
      by_cases hty : v.type = .DB_DATETIME
      · obtain ⟨htm, mt, hb⟩ := hw hty hv
        obtain ⟨tm, htm⟩ := ne_none_iff_exists'.1 htm
        obtain rfl : t = .MYSQL_TYPE_DATETIME := by
          rw [hty] at ht
          exact (some.inj ht).symm
        have hc : v.content z localtime = some (z.MYSQL_TIME, .time tm.mysql) := by
          simp [db_val_t.content, hty, htm]
        refine ⟨_, _, val2bind_time hs hv hty htm hb, elsewhere_put (fun mt' h => hb.trans h) ?_, ?_, ?_, ?_⟩
        · intro mt' hmt
          exact update_of_ne (fun h => hmt (by rw [hb, h])) _ s.times
        · simp [ht]
        · intro _
          rw [put_parameter, parameter_there hv ht hc, Buffer.content, update_self]
        · intro _
          rw [put_bind_in, hb, if_neg hnul]
      · obtain ⟨len, c, hc⟩ := content_known z localtime ht hty
        refine ⟨_, _, val2bind_there hs hv ht hc hty,
          elsewhere_put (fun mt h => absurd h (buffer_ne_time v mt)) fun mt _ => rfl, ?_, ?_, ?_⟩
        · simp [ht]
        · intro _
          rw [put_parameter, buffer_content hc hty, parameter_there hv ht hc]
        · exact fun h => absurd h hty

theorem val2bind_stuck (hs : Wired s i) (hw : ¬ Writable localtime s i v) :
    db_mysql_val2bind z localtime v i s = none := by
  obtain ⟨hl, hn⟩ := hs
  rw [Writable, not_forall] at hw
  obtain ⟨hty, hw⟩ := hw
  rw [Classical.not_imp] at hw
  obtain ⟨hv, hw⟩ := hw
  rw [db_mysql_val2bind, if_neg (by simp [hv])]
  cases htm : localtime v.time_val with
  | none => simp [prep_stmt.set_null, hn, hty]
  | some tm =>
    cases hb : (s.bind_in i).buffer with
    | time mt => exact absurd ⟨by simp [htm], mt, hb⟩ hw
    | _ => simp [prep_stmt.set_null, prep_stmt.set_type, hn, hty, hb]

end OneValue

section Lists

variable {z : Sizes} {localtime : ℤ → Option Tm} {s s' s'' : prep_stmt} {i j n lo mid hi : ℕ} {code : ℤ} {v : db_val_t}
  {vs : List db_val_t}

theorem Elsewhere.rfl : Elsewhere s s lo hi where
  bind_in _ _ := .refl _
  in_bufs _ _ := .refl _
  wired _ h := h
  times _ _ := .refl _
  slot _ _ h := h

theorem Elsewhere.trans (h : Elsewhere s s' lo mid) (h' : Elsewhere s' s'' mid hi) (hl : lo ≤ mid) (hm : mid ≤ hi) :
    Elsewhere s s'' lo hi where
  bind_in j hj := (h'.bind_in j (by omega)).trans (h.bind_in j (by omega))
  in_bufs j hj := (h'.in_bufs j (by omega)).trans (h.in_bufs j (by omega))
  wired j hj := h'.wired j (h.wired j hj)
  times mt hmt := by
    have hfirst : s'.times mt = s.times mt := h.times mt fun j hlo hlt => hmt j hlo (by omega)
    rw [← hfirst]
    apply h'.times
    intro j hle hlt he
    exact hmt j (by omega) hlt (h.slot j mt he)
  slot j mt hmt := h.slot j mt (h'.slot j mt hmt)

/-- The pointers of the first `n` binds, no two of which lead to one slot. -/
structure Ready (s : prep_stmt) (n : ℕ) : Prop where
  wired : ∀ i < n, Wired s i
  apart : ∀ i < n, ∀ j < n, ∀ mt, (s.bind_in i).buffer = .time mt → (s.bind_in j).buffer = .time mt → i = j

theorem Elsewhere.ready (h : Elsewhere s s' lo hi) (hs : Ready s n) : Ready s' n where
  wired i hi := h.wired i (hs.wired i hi)
  apart i hi j hj mt hmt hmt' := hs.apart i hi j hj mt (h.slot i mt hmt) (h.slot j mt hmt')

theorem Elsewhere.parameter (h : Elsewhere s s' lo hi) (hs : Ready s n) (hi : hi ≤ n) (hj : j < lo) (hn : j < n) :
    s'.parameter j = s.parameter j := by
  have hbind : s'.bind_in j = s.bind_in j := h.bind_in j (by omega)
  have hbuf : s'.in_bufs j = s.in_bufs j := h.in_bufs j (by omega)
  have hcontent : ∀ len, (s.bind_in j).buffer.content s'.times len = (s.bind_in j).buffer.content s.times len := by
    intro len
    cases hb : (s.bind_in j).buffer with
    | time mt =>
      have hsame : s'.times mt = s.times mt := by
        apply h.times
        intro k hle hlt he
        have := hs.apart j hn k (by omega) mt hb he
        omega
      rw [Buffer.content, Buffer.content, hsame]
    | _ => rfl
  simp [prep_stmt.parameter, hbind, (hs.wired j hn).length, (hs.wired j hn).is_null, hbuf, hcontent]

/-- What the loop over a list does from `i` on. -/
structure Done (z : Sizes) (localtime : ℤ → Option Tm) (s s' : prep_stmt) (i : ℕ) (vs : List db_val_t) (code : ℤ) :
    Prop where
  elsewhere : Elsewhere s s' i (i + vs.length)
  known : 0 ≤ code → ∀ v ∈ vs, v.type.field_type ≠ none
  parameter : 0 ≤ code → ∀ k v, vs[k]? = some v → s'.parameter (i + k) = v.parameter z localtime
  buffer : ∀ k v, vs[k]? = some v → Reached vs k → v.type = .DB_DATETIME →
    (s'.bind_in (i + k)).buffer = if v.nul = true then .NULL else (s.bind_in (i + k)).buffer

theorem reached_cons {k : ℕ} : Reached (v :: vs) (k + 1) ↔ v.type.field_type ≠ none ∧ Reached vs k := by
  rw [Reached, Reached, take_succ_cons, forall_mem_cons]

theorem Reached.head {k : ℕ} (h : Reached (v :: vs) k) : v.type.field_type ≠ none :=
  h v (by simp)

def AllWritable (localtime : ℤ → Option Tm) (s : prep_stmt) (i : ℕ) (vs : List db_val_t) : Prop :=
  ∀ k v, vs[k]? = some v → Reached vs k → Writable localtime s (i + k) v

theorem allWritable_cons (ht : v.type.field_type ≠ none) :
    AllWritable localtime s i (v :: vs) ↔ Writable localtime s i v ∧ AllWritable localtime s (i + 1) vs := by
  have hreached : Reached (v :: vs) 0 := by
    intro w hw
    rwa [mem_singleton.1 hw]
  constructor
  · intro h
    refine ⟨h 0 v rfl hreached, fun k w hk hr => ?_⟩
    rw [Nat.add_assoc, Nat.add_comm 1]
    exact h (k + 1) w hk (reached_cons.2 ⟨ht, hr⟩)
  · rintro ⟨hv, hvs⟩ (_ | k) w hk hr
    · obtain rfl := some.inj hk
      exact hv
    · rw [← Nat.add_assoc, Nat.add_right_comm]
      exact hvs k w hk (reached_cons.1 hr).2

theorem Elsewhere.allWritable (h : Elsewhere s s' lo hi) (hi : hi ≤ i) :
    AllWritable localtime s' i vs ↔ AllWritable localtime s i vs := by
  have hbind : ∀ k, s'.bind_in (i + k) = s.bind_in (i + k) := fun k => h.bind_in (i + k) (by omega)
  simp only [AllWritable, Writable, hbind]

theorem writable_of_unknown (ht : v.type.field_type = none) : Writable localtime s i v := by
  intro hty
  rw [hty] at ht
  cases ht

/-- **One list of values**, of which all that are reached may be written. -/
theorem set_loop_done (hs : Ready s n) (hn : i + vs.length ≤ n) (hw : AllWritable localtime s i vs) :
    ∃ code s', set_loop z localtime vs i s = some (code, s') ∧ Done z localtime s s' i vs code := by
  induction vs generalizing i s with
  | nil => exact ⟨0, s, rfl, .rfl, by simp, by simp, by simp⟩
  | cons v vs ih =>
    rw [length_cons] at hn
    have hvw : Writable localtime s i v := by
      by_cases ht : v.type.field_type = none
      · exact writable_of_unknown ht
      · exact ((allWritable_cons ht).1 hw).1
    obtain ⟨code, s₁, hv, hb⟩ := val2bind_bound (z := z) (hs.wired i (by omega)) hvw
    by_cases hcode : code < 0
    · have ht : v.type.field_type = none := by
        by_contra ht
        have := hb.known.2 ht
        omega
      refine ⟨-1, s₁, by simp [set_loop, hv, hcode], hb.elsewhere.trans .rfl (by omega) ?_, by simp, by simp, ?_⟩
      · rw [length_cons]
        omega
      · intro k w _ hr
        exact absurd ht hr.head
    · have ht : v.type.field_type ≠ none := hb.known.1 (by omega)
      have hs₁ : Ready s₁ n := hb.elsewhere.ready hs
      obtain ⟨code', s', hvs, hd⟩ := ih hs₁ (by omega)
        ((hb.elsewhere.allWritable (Nat.le_refl _)).2 ((allWritable_cons ht).1 hw).2)
      have hshift : ∀ k, i + (k + 1) = i + 1 + k := fun k => by omega
      refine ⟨code', s', by simp [set_loop, hv, hcode, hvs], ?_, ?_, ?_, ?_⟩
      · rw [length_cons, hshift]
        exact hb.elsewhere.trans hd.elsewhere (by omega) (by omega)
      · intro hc
        exact forall_mem_cons.2 ⟨ht, hd.known hc⟩
      · rintro hc (_ | k) w hk
        · obtain rfl := some.inj hk
          exact (hd.elsewhere.parameter hs₁ (by omega) (by omega) (by omega)).trans (hb.parameter (by omega))
        · rw [hshift]
          exact hd.parameter hc k w hk
      · rintro (_ | k) w hk hr hty
        · obtain rfl := some.inj hk
          rw [Nat.add_zero, hd.elsewhere.bind_in i (by omega)]
          exact hb.buffer hty
        · rw [hshift, hd.buffer k w hk (reached_cons.1 hr).2 hty, hb.elsewhere.bind_in _ (by omega)]

/-- **A time that is reached and may not be written** stops the loop. -/
theorem set_loop_stuck (hs : Ready s n) (hn : i + vs.length ≤ n) (hw : ¬ AllWritable localtime s i vs) :
    set_loop z localtime vs i s = none := by
  induction vs generalizing i s with
  | nil => exact absurd (fun k v hk => by cases hk) hw
  | cons v vs ih =>
    rw [length_cons] at hn
    by_cases hvw : Writable localtime s i v
    · obtain ⟨code, s₁, hv, hb⟩ := val2bind_bound (z := z) (hs.wired i (by omega)) hvw
      have ht : v.type.field_type ≠ none := by
        rintro ht
        exact hw fun k w _ hr => absurd ht hr.head
      have hcode : ¬ code < 0 := by
        have := hb.known.2 ht
        omega
      rw [allWritable_cons ht, not_and] at hw
      have hvs : set_loop z localtime vs (i + 1) s₁ = none :=
        ih (hb.elsewhere.ready hs) (by omega) fun h => hw hvw ((hb.elsewhere.allWritable (Nat.le_refl _)).1 h)
      simp [set_loop, hv, hcode, hvs]
    · simp [set_loop, val2bind_stuck (hs.wired i (by omega)) hvw]

theorem set_loop_append (vs ws : List db_val_t) :
    set_loop z localtime (vs ++ ws) i s = (set_loop z localtime vs i s).bind fun r =>
      if r.1 < 0 then some (-1, r.2) else set_loop z localtime ws (i + vs.length) r.2 := by
  induction vs generalizing i s with
  | nil => simp [set_loop]
  | cons v vs ih =>
    rw [cons_append, set_loop, set_loop]
    cases db_mysql_val2bind z localtime v i s with
    | none => rfl
    | some r =>
      obtain ⟨code, s'⟩ := r
      by_cases hcode : code < 0
      · simp [hcode]
      · simp [hcode, ih, add_assoc, add_comm 1]

theorem set_values_eq (e : Execution) (s : prep_stmt) :
    set_values z localtime e s = set_loop z localtime e.values 0 s := by
  rw [Execution.values, set_loop_append, zero_add]
  rfl

end Lists

section Block

variable {z : Sizes} {mt : ℤ} {s : prep_stmt} {i j k c : ℕ} {v w : db_val_t} {vs ws : List db_val_t}
  {b : ℕ → MYSQL_BIND} {e : Execution} {base : ℤ} {shm_malloc : ℕ → Option ℤ}

theorem time_no_append : time_no (vs ++ ws) = time_no vs + time_no ws := countP_append

theorem time_no_time (hty : v.type = .DB_DATETIME) : time_no (v :: vs) = time_no vs + 1 :=
  countP_cons_of_pos (by simpa using hty)

theorem time_no_other (hty : v.type ≠ .DB_DATETIME) : time_no (v :: vs) = time_no vs :=
  countP_cons_of_neg (by simpa using hty)

theorem time_no_drop (hv : vs[j]? = some v) (hty : v.type = .DB_DATETIME) (hij : i ≤ j) :
    time_no (vs.drop (j + 1)) < time_no (vs.drop i) := by
  have hdrop : vs.drop j = v :: vs.drop (j + 1) := by
    obtain ⟨hj, rfl⟩ := List.getElem?_eq_some_iff.1 hv
    exact drop_eq_getElem_cons hj
  have hle : time_no (vs.drop j) ≤ time_no (vs.drop i) := (drop_sublist_drop_left vs hij).countP_le
  rw [hdrop, time_no_time hty] at hle
  omega

theorem link_loop_append (time_no : ℤ) : link_loop z mt (vs ++ ws) i time_no b =
      link_loop z mt ws (i + vs.length) (link_loop z mt vs i time_no b).1 (link_loop z mt vs i time_no b).2 := by
  induction vs generalizing i time_no b with
  | nil => rfl
  | cons v vs ih =>
    rw [cons_append, link_loop, link_loop]
    split
    · rw [ih, length_cons, add_assoc, add_comm 1]
    · rw [ih, length_cons, add_assoc, add_comm 1]

/-- The bind of a value with `n` times behind it. -/
def linked (z : Sizes) (mt : ℤ) (x : MYSQL_BIND) (i : ℕ) (v : db_val_t) (n : ℕ) : MYSQL_BIND where
  length := some i
  is_null := some i
  buffer := if v.type = .DB_DATETIME then .time (mt + n * z.MYSQL_TIME) else x.buffer
  buffer_type := x.buffer_type

theorem link_loop_cons : link_loop z mt (v :: vs) i (time_no (v :: vs) + c) b =
      link_loop z mt vs (i + 1) (time_no vs + c) (update b i (linked z mt (b i) i v (time_no vs + c))) := by
  rw [link_loop]
  by_cases hty : v.type = .DB_DATETIME
  · have hno : (time_no (v :: vs) + c : ℤ) - 1 = time_no vs + c := by
      rw [time_no_time hty]
      push_cast
      omega
    rw [if_pos hty, hno, linked, if_pos hty]
    push_cast
    rfl
  · rw [if_neg hty, time_no_other hty, linked, if_neg hty]

theorem link_loop_linked :
    (link_loop z mt vs i (time_no vs + c) b).1 = c ∧ (∀ j < i, (link_loop z mt vs i (time_no vs + c) b).2 j = b j) ∧
      ∀ k v, vs[k]? = some v → (link_loop z mt vs i (time_no vs + c) b).2 (i + k) =
        linked z mt (b (i + k)) (i + k) v (time_no (vs.drop (k + 1)) + c) := by
  induction vs generalizing i b with
  | nil => exact ⟨by simp [link_loop, time_no], fun j _ => rfl, by simp⟩
  | cons v vs ih =>
    rw [link_loop_cons]
    obtain ⟨hc, hlow, hvs⟩ := @ih (i + 1) (update b i (linked z mt (b i) i v (time_no vs + c)))
    refine ⟨hc, ?_, ?_⟩
    · intro j hj
      rw [hlow j (by omega), update_of_ne (by omega)]
    · rintro (_ | k) w hk
      · cases hk
        exact (hlow i (by omega)).trans (update_self i _ b)
      · rw [show i + (k + 1) = i + 1 + k by omega, hvs k w hk, update_of_ne (by omega)]
        rfl

def times_at (z : Sizes) (base : ℤ) (total : ℕ) : ℤ :=
  base + z.prep_stmt + total * z.MYSQL_BIND + total * z.bind_icontent

theorem alloc_eq (hblock : shm_malloc (block_len z (e.v.length + e.uv.length) (time_no e.values)) = some base) :
    alloc_new_prepared_stmt z shm_malloc e.v e.uv = some { zeroed with
      bind_in := (link_loop z (times_at z base (e.v.length + e.uv.length)) e.values 0 (time_no e.values + (0 : ℕ))
        zeroed.bind_in).2 } := by
  have hzero := (@link_loop_linked z (times_at z base (e.v.length + e.uv.length)) 0 0 e.values zeroed.bind_in).1
  rw [Execution.values, link_loop_append, zero_add] at hzero ⊢
  rw [Execution.values, time_no_append] at hblock
  simp only [alloc_new_prepared_stmt, hblock]
  split
  · next htotal =>
    obtain ⟨hv, huv⟩ := Nat.add_eq_zero_iff.1 htotal
    rw [length_eq_zero_iff.1 hv, length_eq_zero_iff.1 huv]
    rfl
  · rw [time_no_append, Int.natCast_zero, Int.add_zero] at hzero ⊢
    exact if_neg (not_not.2 hzero)

/-- The address of the slot of the value at `i`. -/
def slot (z : Sizes) (base : ℤ) (vs : List db_val_t) (i : ℕ) : ℤ :=
  times_at z base vs.length + time_no (vs.drop (i + 1)) * z.MYSQL_TIME

/-- **The binds of a new statement.** -/
theorem alloc_linked (hblock : shm_malloc (block_len z (e.v.length + e.uv.length) (time_no e.values)) = some base) :
    ∃ s, alloc_new_prepared_stmt z shm_malloc e.v e.uv = some s ∧ ∀ i v, e.values[i]? = some v → Wired s i ∧
      (s.bind_in i).buffer = if v.type = .DB_DATETIME then .time (slot z base e.values i) else .NULL := by
  refine ⟨_, alloc_eq hblock, fun i v hv => ?_⟩
  have hbind := (@link_loop_linked z (times_at z base e.values.length) 0 0 e.values zeroed.bind_in).2.2 i v hv
  rw [zero_add, Execution.values, length_append] at hbind
  rw [slot, Execution.values, length_append]
  constructor
  · exact ⟨congrArg MYSQL_BIND.length hbind, congrArg MYSQL_BIND.is_null hbind⟩
  · exact congrArg MYSQL_BIND.buffer hbind

theorem slot_before (z : Sizes) (base : ℤ) (hij : i < j) (hw : vs[j]? = some w) (hty : w.type = .DB_DATETIME) :
    slot z base vs j + z.MYSQL_TIME ≤ slot z base vs i := by
  have hlt : time_no (vs.drop (j + 1)) < time_no (vs.drop (i + 1)) := time_no_drop hw hty hij
  have hmul := Int.ofNat_le.2 (Nat.mul_le_mul_right z.MYSQL_TIME hlt)
  rw [Nat.succ_mul] at hmul
  push_cast at hmul
  rw [slot, slot]
  omega

theorem slot_in_block (hv : vs[i]? = some v) (hty : v.type = .DB_DATETIME) :
    slot z base vs i + z.MYSQL_TIME ≤ base + block_len z vs.length (time_no vs) := by
  have hlt : time_no (vs.drop (i + 1)) < time_no vs := time_no_drop hv hty (Nat.zero_le i)
  have hmul := Int.ofNat_le.2 (Nat.mul_le_mul_right z.MYSQL_TIME hlt)
  rw [Nat.succ_mul] at hmul
  push_cast at hmul
  rw [slot, times_at, block_len, Nat.mul_add]
  push_cast
  omega

/-- **The slots of a new statement.** -/
theorem slots_apart (hs : ∀ i v, e.values[i]? = some v → v.type = .DB_DATETIME →
    (s.bind_in i).buffer = .time (slot z base e.values i)) : SlotsApart z base e s := by
  intro i v hv
  have hlength : e.values.length = e.v.length + e.uv.length := length_append
  refine ⟨_, hs i v hv.1 hv.2, ?_, ?_, ?_⟩
  · have hno : (0 : ℤ) ≤ time_no (e.values.drop (i + 1)) * z.MYSQL_TIME :=
      Int.mul_nonneg (Int.natCast_nonneg _) (Int.natCast_nonneg _)
    rw [slot, times_at, hlength, Int.mul_add]
    omega
  · rw [← hlength]
    exact slot_in_block hv.1 hv.2
  · intro j w hw hne
    refine ⟨_, hs j w hw.1 hw.2, ?_⟩
    rcases Nat.lt_or_gt_of_ne hne with hlt | hlt
    · exact .inl (slot_before z base hlt hv.1 hv.2)
    · exact .inr (slot_before z base hlt hw.1 hw.2)

theorem ready_of_linked (hs : ∀ i v, vs[i]? = some v → Wired s i ∧
    (s.bind_in i).buffer = if v.type = .DB_DATETIME then .time (slot z base vs i) else .NULL) :
    Ready s vs.length := by
  have hslot : ∀ i v mt, vs[i]? = some v → (s.bind_in i).buffer = .time mt →
      v.type = .DB_DATETIME ∧ mt = slot z base vs i := by
    intro i v mt hv hmt
    rw [(hs i v hv).2] at hmt
    split at hmt
    · next hty => exact ⟨hty, (Buffer.time.inj hmt).symm⟩
    · cases hmt
  refine ⟨fun i hi => (hs i _ (getElem?_eq_getElem hi)).1, fun i hi j hj mt hmt hmt' => ?_⟩
  obtain ⟨htyi, hi⟩ := hslot i _ mt (getElem?_eq_getElem hi) hmt
  obtain ⟨htyj, hj⟩ := hslot j _ mt (getElem?_eq_getElem hj) hmt'
  have hpos := z.time_pos
  rcases Nat.lt_trichotomy i j with hlt | heq | hlt
  · have := slot_before z base hlt (getElem?_eq_getElem ‹j < vs.length›) htyj
    omega
  · exact heq
  · have := slot_before z base hlt (getElem?_eq_getElem ‹i < vs.length›) htyi
    omega

end Block

section Executions

variable {z : Sizes} {localtime : ℤ → Option Tm} {s₀ s s' : prep_stmt} {i n : ℕ} {code : ℤ} {v w : db_val_t}
  {e e' e₀ : Execution} {before es : List Execution}

/-- A value is NULL in one of the executions. -/
def Lost (es : List Execution) (i : ℕ) : Prop := ∃ e ∈ es, ∃ v, e.values[i]? = some v ∧ v.nul = true

theorem lost_append : Lost (before ++ [e]) i ↔ Lost before i ∨ ∃ v, e.values[i]? = some v ∧ v.nul = true := by
  simp only [Lost, mem_append, mem_singleton, or_and_right, exists_or, exists_eq_left]

theorem not_lost : ¬ Lost before i ↔ ∀ e ∈ before, ∀ v, e.values[i]? = some v → v.nul = false := by
  simp only [Lost, not_exists, not_and, Bool.not_eq_true]

section

variable (h : SameTypes e e')
include h

theorem SameTypes.values : e.values.map (·.type) = e'.values.map (·.type) := by
  rw [Execution.values, Execution.values, map_append, map_append, h.1, h.2]

theorem SameTypes.length : e.values.length = e'.values.length := by
  rw [← length_map (f := db_val_t.type), h.values, length_map]

theorem SameTypes.value (hv : e.values[i]? = some v) :
    ∃ w, e'.values[i]? = some w ∧ w.type = v.type := by
  have htype : (e'.values.map (·.type))[i]? = some v.type := by
    rw [← h.values, getElem?_map, hv]
    rfl
  rwa [getElem?_map, map_eq_some_iff] at htype

theorem SameTypes.symm : SameTypes e' e := ⟨h.1.symm, h.2.symm⟩

theorem SameTypes.reached (hr : Reached e.values i) : Reached e'.values i := by
  have htake : (e.values.take (i + 1)).map (·.type) = (e'.values.take (i + 1)).map (·.type) := by
    rw [map_take, map_take, h.values]
  intro w hw
  obtain ⟨v, hv, hty⟩ := List.mem_map.1 (htake ▸ List.mem_map_of_mem hw)
  rw [← hty]
  exact hr v hv

end

/-- The statement between two executions: a time that was NULL has lost its slot. -/
structure Linked (s₀ : prep_stmt) (e₀ : Execution) (before : List Execution) (s : prep_stmt) : Prop where
  ready : Ready s e₀.values.length
  kept : ∀ i v, TimeAt e₀ i v → Reached e₀.values i → ¬ Lost before i → (s.bind_in i).buffer = (s₀.bind_in i).buffer
  lost : ∀ i v, TimeAt e₀ i v → Reached e₀.values i → Lost before i → (s.bind_in i).buffer = .NULL

section

variable (hl : Linked s₀ e₀ before s)
include hl

/-- **One execution** of those that use no NULL. -/
theorem Linked.step (he : SameTypes e₀ e) (hd : Done z localtime s s' 0 e.values code) :
    Linked s₀ e₀ (before ++ [e]) s' := by
  have hbuffer : ∀ i v, TimeAt e₀ i v → Reached e₀.values i → ∃ w, e.values[i]? = some w ∧
      (s'.bind_in i).buffer = if w.nul = true then .NULL else (s.bind_in i).buffer := by
    intro i v hv hr
    obtain ⟨w, hw, hty⟩ := he.value hv.1
    refine ⟨w, hw, ?_⟩
    have := hd.buffer i w hw (he.reached hr) (hty.trans hv.2)
    rwa [zero_add] at this
  refine ⟨hd.elsewhere.ready hl.ready, fun i v hv hr hn => ?_, fun i v hv hr hlost => ?_⟩
  · obtain ⟨w, hw, hb⟩ := hbuffer i v hv hr
    rw [lost_append, not_or] at hn
    rw [hb, if_neg fun hnul => hn.2 ⟨w, hw, hnul⟩]
    exact hl.kept i v hv hr hn.1
  · obtain ⟨w, hw, hb⟩ := hbuffer i v hv hr
    rw [hb]
    split
    · rfl
    · next hnul =>
      rcases lost_append.1 hlost with hlost | ⟨w', hw', hnul'⟩
      · exact hl.lost i v hv hr hlost
      · obtain rfl := some.inj (hw.symm.trans hw')
        exact absurd hnul' hnul

theorem Linked.allWritable (he : SameTypes e₀ e)
    (hslots : ∀ i v, TimeAt e₀ i v → ∃ mt, (s₀.bind_in i).buffer = .time mt) :
    AllWritable localtime s 0 e.values ↔ ∀ i v, TimeAt e i v → Reached e.values i → v.nul = false →
      localtime v.time_val ≠ none ∧ ¬ Lost before i := by
  constructor
  · intro hw i v hv hr hnul
    obtain ⟨w, hw', hty⟩ := he.symm.value hv.1
    obtain ⟨htm, mt, hmt⟩ := hw i v hv.1 hr hv.2 hnul
    refine ⟨htm, fun hlost => ?_⟩
    rw [zero_add, hl.lost i w ⟨hw', hty.trans hv.2⟩ (he.symm.reached hr) hlost] at hmt
    cases hmt
  · intro h i v hv hr hty hnul
    obtain ⟨w, hw', hty'⟩ := he.symm.value hv
    have hw : TimeAt e₀ i w := ⟨hw', hty'.trans hty⟩
    obtain ⟨htm, hlost⟩ := h i v ⟨hv, hty⟩ hr hnul
    obtain ⟨mt, hmt⟩ := hslots i w hw
    refine ⟨htm, mt, ?_⟩
    rw [zero_add, hl.kept i w hw (he.symm.reached hr) hlost, hmt]

theorem Linked.done (he : SameTypes e₀ e) (hw : AllWritable localtime s 0 e.values) :
    ∃ code s', set_values z localtime e s = some (code, s') ∧ Done z localtime s s' 0 e.values code := by
  rw [set_values_eq]
  exact set_loop_done hl.ready (by rw [he.length]; omega) hw

theorem Linked.of_some (he : SameTypes e₀ e) (h : set_values z localtime e s = some (code, s')) :
    AllWritable localtime s 0 e.values ∧ Done z localtime s s' 0 e.values code := by
  have hw : AllWritable localtime s 0 e.values := by
    by_contra hw
    rw [set_values_eq, set_loop_stuck hl.ready (by rw [he.length]; omega) hw] at h
    cases h
  obtain ⟨code', s'', h', hd⟩ := hl.done (z := z) he hw
  rw [h, some.injEq, Prod.mk.injEq] at h'
  obtain ⟨rfl, rfl⟩ := h'
  exact ⟨hw, hd⟩

end

theorem run_append : run z localtime s (before ++ [e]) =
    (run z localtime s before).bind fun s => (set_values z localtime e s).map Prod.snd := by
  simp [run, foldlM_append]

/-- **Every run** leaves the statement linked. -/
theorem run_linked (h₀ : Linked s₀ e₀ [] s₀) (he : ∀ e ∈ es, SameTypes e₀ e) (h : run z localtime s₀ es = some s) :
    Linked s₀ e₀ es s := by
  induction es using List.reverseRecOn generalizing s with
  | nil =>
    cases h
    exact h₀
  | append_singleton es e ih =>
    rw [run_append, bind_eq_some_iff] at h
    obtain ⟨s₁, hrun, h⟩ := h
    rw [map_eq_some_iff] at h
    obtain ⟨⟨code, s'⟩, hset, rfl⟩ := h
    have hl : Linked s₀ e₀ es s₁ := ih (fun e he' => he e (mem_append_left _ he')) hrun
    have hsame : SameTypes e₀ e := he e (by simp)
    exact hl.step hsame (hl.of_some hsame hset).2

theorem Linked.describes (hl : Linked s₀ e₀ before s) (he : SameTypes e₀ e)
    (hslots : ∀ i v, TimeAt e₀ i v → ∃ mt, (s₀.bind_in i).buffer = .time mt)
    (hw : AllWritable localtime s 0 e.values) (hd : Done z localtime s s' 0 e.values code) (hcode : 0 ≤ code) :
    Describes z localtime s₀ s' e := by
  intro i v hv
  have hparameter := hd.parameter hcode i v hv
  have hreached : Reached e.values i := fun w hw => hd.known hcode w (mem_of_mem_take hw)
  rw [zero_add] at hparameter
  refine ⟨hparameter, fun hty hnul => ?_⟩
  obtain ⟨w, hw', hty'⟩ := he.symm.value hv
  have hlost : ¬ Lost before i := ((hl.allWritable he hslots).1 hw i v ⟨hv, hty⟩ hreached hnul).2
  have hbuffer := hd.buffer i v hv hreached hty
  rw [zero_add, if_neg (by simp [hnul])] at hbuffer
  rw [hbuffer, hl.kept i w ⟨hw', hty'.trans hty⟩ (he.symm.reached hreached) hlost]

/-- **All executions** are right exactly when the times stay. -/
theorem bindsRight_iff (h₀ : Linked s₀ e₀ [] s₀) (he : ∀ e ∈ es, SameTypes e₀ e)
    (hslots : ∀ i v, TimeAt e₀ i v → ∃ mt, (s₀.bind_in i).buffer = .time mt) :
    BindsRight z localtime s₀ es ↔ TimesStay localtime es := by
  have hmem : ∀ {before e}, before ++ [e] <+: es → (∀ e' ∈ before, SameTypes e₀ e') ∧ SameTypes e₀ e := fun h =>
    ⟨fun e' he' => he e' (h.subset (mem_append_left _ he')), he _ (h.subset (by simp))⟩
  constructor
  · intro h before e hpre i v hv hr hnul
    obtain ⟨s, code, s', hrun, hset, -⟩ := h before e hpre
    have hl := run_linked h₀ (hmem hpre).1 hrun
    obtain ⟨hw, -⟩ := hl.of_some (hmem hpre).2 hset
    rw [← not_lost]
    exact (hl.allWritable (hmem hpre).2 hslots).1 hw i v hv hr hnul
  · intro h
    have hnext : ∀ before e s, before ++ [e] <+: es → run z localtime s₀ before = some s →
        Linked s₀ e₀ before s ∧ AllWritable localtime s 0 e.values := by
      intro before e s hpre hrun
      have hl := run_linked h₀ (hmem hpre).1 hrun
      refine ⟨hl, (hl.allWritable (hmem hpre).2 hslots).2 fun i v hv hr hnul => ?_⟩
      rw [not_lost]
      exact h before e hpre i v hv hr hnul
    have hrun : ∀ before, before <+: es → ∃ s, run z localtime s₀ before = some s := by
      intro before hpre
      induction before using List.reverseRecOn with
      | nil => exact ⟨s₀, rfl⟩
      | append_singleton before e ih =>
        obtain ⟨s, hrun⟩ := ih ((prefix_append before [e]).trans hpre)
        obtain ⟨hl, hw⟩ := hnext before e s hpre hrun
        obtain ⟨code, s', hset, -⟩ := hl.done (z := z) (hmem hpre).2 hw
        exact ⟨s', by rw [run_append, hrun, bind_some, hset]; rfl⟩
    intro before e hpre
    obtain ⟨s, hs⟩ := hrun before ((prefix_append before [e]).trans hpre)
    obtain ⟨hl, hw⟩ := hnext before e s hpre hs
    obtain ⟨code, s', hset, hd⟩ := hl.done (z := z) (hmem hpre).2 hw
    exact ⟨s, code, s', hs, hset, hl.describes (hmem hpre).2 hslots hw hd⟩

end Executions

section Statement

variable (z : Sizes) (localtime : ℤ → Option Tm) (shm_malloc : ℕ → Option ℤ) (base : ℤ) (e : Execution)
  (es : List Execution)

/-- **A statement and its executions** with values of the same types. -/
theorem prepared_values_bound
    (hblock : shm_malloc (block_len z (e.v.length + e.uv.length) (time_no e.values)) = some base)
    (he : ∀ e' ∈ es, SameTypes e e') :
    (∃ s, alloc_new_prepared_stmt z shm_malloc e.v e.uv = some s ∧ SlotsApart z base e s ∧
        BindsRight z localtime s (e :: es)) ↔ TimesStay localtime (e :: es) := by
  obtain ⟨s, hs, hbinds⟩ := alloc_linked hblock
  have hslot : ∀ i v, e.values[i]? = some v → v.type = .DB_DATETIME →
      (s.bind_in i).buffer = .time (slot z base e.values i) := by
    intro i v hv hty
    rw [(hbinds i v hv).2, if_pos hty]
  have h₀ : Linked s e [] s := by
    refine ⟨ready_of_linked hbinds, fun _ _ _ _ _ => rfl, ?_⟩
    rintro _ _ _ _ ⟨_, hmem, _⟩
    cases hmem
  have hiff : BindsRight z localtime s (e :: es) ↔ TimesStay localtime (e :: es) :=
    bindsRight_iff h₀ (forall_mem_cons.2 ⟨⟨rfl, rfl⟩, he⟩) fun i v hv => ⟨_, hslot i v hv.1 hv.2⟩
  rw [← hiff]
  constructor
  · rintro ⟨s', hs', -, h⟩
    obtain rfl := some.inj (hs.symm.trans hs')
    exact h
  · exact fun h => ⟨s, hs, slots_apart hslot, h⟩

end Statement

def sizes_64 : Sizes := ⟨64, 112, 16, 40, by decide⟩

/-- The first second of 1970. -/
def expires (nul : Bool) : db_val_t := ⟨.DB_DATETIME, nul, 0, 0, 0, [], [], [], 0⟩

def gmt (time : ℤ) : Option Tm := if time = 0 then some ⟨70, 0, 1, 0, 0, 0⟩ else none

/-- The time is there twice. -/
theorem prepared_values_bound_twice :
    ∃ s, alloc_new_prepared_stmt sizes_64 (fun _ => some 4096) [expires false] [] = some s ∧
      SlotsApart sizes_64 4096 ⟨[expires false], []⟩ s ∧
      BindsRight sizes_64 gmt s [⟨[expires false], []⟩, ⟨[expires false], []⟩] := by
  have hone : ∀ e ∈ [(⟨[expires false], []⟩ : Execution), ⟨[expires false], []⟩], e = ⟨[expires false], []⟩ := by
    simp
  have hvalue : ∀ e ∈ [(⟨[expires false], []⟩ : Execution), ⟨[expires false], []⟩], ∀ (i : ℕ) (v : db_val_t),
      e.values[i]? = some v → v = expires false := by
    intro e he i v hv
    rw [hone e he] at hv
    exact mem_singleton.1 (mem_of_getElem? hv)
  refine (prepared_values_bound sizes_64 gmt (fun _ => some 4096) 4096 ⟨[expires false], []⟩
    [⟨[expires false], []⟩] rfl fun e' he' => ?_).2 fun before e hpre i v hv _ _ => ⟨?_, fun e' he' v' hv' => ?_⟩
  · rw [mem_singleton.1 he']
    exact ⟨rfl, rfl⟩
  · rw [hvalue e (hpre.subset (by simp)) i v hv.1]
    decide
  · rw [hvalue e' (hpre.subset (mem_append_left _ he')) i v' hv']
    rfl

/-- The time is NULL first, and then it is there: its buffer is gone. -/
theorem null_unlinks_time :
    ¬ ∃ s, alloc_new_prepared_stmt sizes_64 (fun _ => some 4096) [expires true] [] = some s ∧
      SlotsApart sizes_64 4096 ⟨[expires true], []⟩ s ∧
      BindsRight sizes_64 gmt s [⟨[expires true], []⟩, ⟨[expires false], []⟩] := by
  rintro ⟨s, hs, -, h⟩
  obtain ⟨s₁, code, s₂, hrun, hset, -⟩ := h [⟨[expires true], []⟩] ⟨[expires false], []⟩ (prefix_refl _)
  obtain rfl := some.inj hs
  obtain rfl := some.inj hrun
  cases hset

end OpenSips.DbBind
