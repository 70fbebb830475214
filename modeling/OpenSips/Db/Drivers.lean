import OpenSips.Db.Print
import OpenSips.Utils

/-!
# OpenSips.Db.Drivers — values as SQL (`db_mysql/val.c`, `db_postgres/val.c`)

A text is asked for twice its length and three bytes, which is enough for what escapes each character by one more.
The escaped form of a PostgreSQL blob may be longer, and is checked once more when its length is known.
-/

namespace OpenSips.DbPrint

open Lib List Option

/-- `db_val_t`; the texts of C strings are up to their NULs, and an integer is what is given to `db_int2str`. -/
inductive DbVal (δ τ : Type) where
  | null
  | int (v : ℤ)
  | bitmap (v : ℤ)
  | double (v : δ)
  | string (s : Name)
  | str (s : Str)
  | datetime (t : τ)
  | blob (s : Str)
  | unknown

/-- What `snprintf` makes of `%-10.2f`, and `strftime` of `%Y-%m-%d %H:%M:%S`. -/
structure Formats (δ τ : Type) where
  double : δ → Str
  time : τ → Str

/-- `mysql_real_escape_string`: at most two characters for each one. -/
structure MysqlClient where
  escape : Str → Str
  escape_length : ∀ s, (escape s).length ≤ 2 * s.length

/-- `PQescapeStringConn`, whose error is the second component, and `PQescapeByteaConn`, which may give NULL. -/
structure PgClient where
  escape : Str → Str × Bool
  escape_length : ∀ s, (escape s).1.length ≤ 2 * s.length
  bytea : Str → Option Name

section Source

variable {δ τ : Type}

/-- `%-d` -/
def decimal (v : ℤ) : Str := if v < 0 then chr '-' :: int2str v.natAbs else int2str v.natAbs

/-- `db_int2str` and `db_double2str`, with what `snprintf` prints. -/
def db_number2str (text : Str) (l : ℤ) : Printed UInt8 := if l = 0 then ⟨[], none⟩ else checked l text 0

/-- `db_time2str_nq` behind the quote: `strftime` may write, and returns 0, when there is too little room. -/
def db_time2str_nq (text : Str) (l : ℤ) : Printer UInt8 := fun n =>
  if l < 2 then ⟨[], none⟩
  else if (text.length : ℤ) + 1 ≤ l - 1 ∧ text ≠ [] then Printer.put (text ++ [0]) text.length n
  else ⟨[(n, text.take (l - 1).toNat)], none⟩

def db_time2str (text : Str) (l : ℤ) : Printed UInt8 :=
  if l < 2 then ⟨[], none⟩ else ((char '\'').seq ((db_time2str_nq text l).seq (char '\''))) 0

/-- A text that is escaped into the buffer, between quotes, with a NUL behind it. -/
def quoted (text : Str) : Printer UInt8 :=
  (char '\'').seq ((Printer.put (text ++ [0]) text.length).seq ((char '\'').seq (Printer.put [0] 0)))

variable (f : Formats δ τ)

def db_mysql_val2str (m : MysqlClient) (v : DbVal δ τ) (l : ℤ) : Printed UInt8 :=
  if l = 0 then ⟨[], none⟩
  else
    match v with
    -- `*_len < sizeof("NULL")` compares unsigned numbers
    | .null => if 0 ≤ l ∧ l < 5 then ⟨[], none⟩ else Printer.put ("NULL".toList.map chr ++ [0]) 4 0
    | .int v | .bitmap v => db_number2str (decimal v) l
    | .double v => db_number2str (f.double v) l
    | .string s => if l < s.s.length * 2 + 3 then ⟨[], none⟩ else quoted (m.escape s.s) 0
    | .str s | .blob s => if l < s.length * 2 + 3 then ⟨[], none⟩ else quoted (m.escape s) 0
    | .datetime t => db_time2str (f.time t) l
    | .unknown => ⟨[], none⟩

def pg_string (c : PgClient) (s : Str) (l : ℤ) : Printed UInt8 :=
  if l < s.length * 2 + 3 then ⟨[], none⟩
  else if (c.escape s).2 = true then
    ((char '\'').seq ((Printer.put ((c.escape s).1 ++ [0]) 0).seq Printer.fail)) 0
  else quoted (c.escape s).1 0

def db_postgres_val2str (c : PgClient) (v : DbVal δ τ) (l : ℤ) : Printed UInt8 :=
  if l = 0 then ⟨[], none⟩
  else
    match v with
    | .null => if l < 4 then ⟨[], none⟩ else Printer.put ("NULL".toList.map chr) 4 0
    | .int v | .bitmap v => db_number2str (decimal v) l
    | .double v => db_number2str (f.double v) l
    | .string s => pg_string c s.s l
    | .str s => pg_string c s l
    | .datetime t => db_time2str (f.time t) l
    | .blob s =>
      if l < s.length * 2 + 3 then ⟨[], none⟩
      else
        match c.bytea s with
        | none => ⟨(char '\'' 0).blocks, none⟩
        -- `tmp_len` counts the NUL, and `*_len` the quote that is there already
        | some b => if (b.s.length : ℤ) + 1 > l then ⟨(char '\'' 0).blocks, none⟩ else quoted b.s 0
    | .unknown => ⟨[], none⟩

end Source

section Texts

variable {δ τ : Type} (f : Formats δ τ)

def in_quotes (text : Str) : Str := chr '\'' :: (text ++ [chr '\''])

/-- The text of a value, whose escaped form is given. -/
def DbVal.text (escape : Str → Str) (blob : Str → Str) : DbVal δ τ → Str
  | .null => "NULL".toList.map chr
  | .int v | .bitmap v => decimal v
  | .double v => f.double v
  | .string s => in_quotes (escape s.s)
  | .str s => in_quotes (escape s)
  | .datetime t => in_quotes (f.time t)
  | .blob s => in_quotes (blob s)
  | .unknown => []

def mysql_text (m : MysqlClient) (v : DbVal δ τ) : Str := v.text f m.escape m.escape

def pg_text (c : PgClient) (v : DbVal δ τ) : Str := v.text f (fun s => (c.escape s).1) fun s => (c.bytea s).elim [] Name.s

/-- A blob's escaped form does not fit with its quotes and NUL, unless it is found to be too long. -/
def Blob (c : PgClient) (l : ℤ) (v : DbVal δ τ) : Prop :=
  ∀ s, v = .blob s → s.length * 2 + 3 ≤ l → ∀ b ∈ c.bytea s, l < b.s.length + 1 ∨ b.s.length + 3 ≤ l

end Texts

section Respected

variable {δ τ : Type} {f : Formats δ τ} {l : ℤ} {n : ℕ} {text s : Str} {v : DbVal δ τ}

theorem prints_none : Prints l n text (⟨[], none⟩ : Printed UInt8) :=
  prints_fail fun _ hx => absurd hx not_mem_nil

theorem prints_number (hl : 0 ≤ l) : Prints l 0 text (db_number2str text l) :=
  prints_guarded l fun _ => good_checked l text 0 hl

theorem prints_quote_fail (h : n < l) : Prints l n text ⟨(char '\'' n).blocks, none⟩ := by
  refine prints_fail fun x hx => ?_
  obtain rfl := mem_singleton.1 hx
  refine ⟨Nat.le_refl n, ?_⟩
  rw [length_singleton]
  push_cast
  omega

theorem prints_quoted : Prints l 0 (in_quotes text) (quoted text 0) ↔ text.length + 3 ≤ l := by
  constructor
  · intro h
    have hlast : (0 + 1 + text.length + 1, [0]) ∈ (quoted text 0).blocks :=
      mem_cons_of_mem _ (mem_cons_of_mem _ (mem_cons_of_mem _ mem_cons_self))
    have hle := (h.inside _ hlast).2
    rw [length_singleton] at hle
    push_cast at hle
    omega
  · intro h
    refine prints_seq (s := [chr '\'']) (prints_char (by push_cast; omega)) fun k hk => ?_
    obtain rfl := some.inj hk
    refine prints_seq (prints_nul (by push_cast; omega)) fun k hk => ?_
    obtain rfl := some.inj hk
    refine prints_seq (s := [chr '\'']) (t := []) (prints_char (by push_cast; omega)) fun k hk => ?_
    obtain rfl := some.inj hk
    have hput : Prints l (0 + 1 + text.length + 1) (([0] : Str).take 0) (Printer.put [0] 0 (0 + 1 + text.length + 1)) := by
      apply prints_put
      · exact Nat.zero_le _
      · rw [length_singleton]
        push_cast
        omega
    exact hput

theorem prints_time : Prints l 0 (in_quotes text) (db_time2str text l) := by
  refine prints_guarded l fun h2 => ?_
  refine prints_seq (s := [chr '\'']) (prints_char (by push_cast; omega)) fun k hk => ?_
  cases hk
  by_cases hfit : (text.length : ℤ) + 1 ≤ l - 1 ∧ text ≠ []
  · have hnq : db_time2str_nq text l (0 + 1) = Printer.put (text ++ [0]) text.length (0 + 1) := by
      rw [db_time2str_nq, if_neg h2, if_pos hfit]
    refine prints_seq (hnq ▸ prints_nul (by push_cast; omega)) fun k hk => ?_
    rw [hnq] at hk
    cases hk
    exact prints_char (by push_cast; omega)
  · have hnq : db_time2str_nq text l (0 + 1) = ⟨[(0 + 1, text.take (l - 1).toNat)], none⟩ := by
      rw [db_time2str_nq, if_neg h2, if_neg hfit]
    rw [seq_fail hnq]
    refine prints_fail fun x hx => ?_
    obtain rfl := mem_singleton.1 hx
    refine ⟨le_rfl, ?_⟩
    rw [length_take]
    push_cast
    omega

end Respected

section Exact

variable {δ τ : Type} {f : Formats δ τ} {l : ℤ}

theorem prints_escaped {text s : Str} (he : text.length ≤ 2 * s.length) :
    Prints l 0 (in_quotes text) (if l < s.length * 2 + 3 then ⟨[], none⟩ else quoted text 0) :=
  prints_guarded l fun h => prints_quoted.2 (by omega)

theorem db_mysql_val2str_prints (f : Formats δ τ) (m : MysqlClient) (v : DbVal δ τ) (hl : 0 ≤ l) :
    Prints l 0 (mysql_text f m v) (db_mysql_val2str f m v l) := by
  refine prints_guarded l fun h0 => ?_
  cases v with
  | null =>
    refine prints_guarded l fun h => ?_
    exact prints_nul (by change (0 : ℤ) + 4 + 1 ≤ l; omega)
  | int v => exact prints_number hl
  | bitmap v => exact prints_number hl
  | double v => exact prints_number hl
  | string s => exact prints_escaped (m.escape_length s.s)
  | str s => exact prints_escaped (m.escape_length s)
  | datetime t => exact prints_time
  | blob s => exact prints_escaped (m.escape_length s)
  | unknown => exact prints_none

theorem prints_pg_string (c : PgClient) (s : Str) : Prints l 0 (in_quotes (c.escape s).1) (pg_string c s l) := by
  refine prints_guarded l fun h => ?_
  have hlen := c.escape_length s
  by_cases herr : (c.escape s).2 = true
  · rw [if_pos herr]
    refine prints_seq (s := [chr '\'']) (t := (c.escape s).1 ++ [chr '\'']) (prints_char (by push_cast; omega)) fun k hk => ?_
    cases hk
    refine prints_fail fun x hx => ?_
    obtain rfl := mem_singleton.1 hx
    refine ⟨le_rfl, ?_⟩
    rw [length_append, length_singleton]
    push_cast
    omega
  · rw [if_neg herr]
    exact prints_quoted.2 (by omega)

theorem db_postgres_val2str_iff (f : Formats δ τ) (c : PgClient) (v : DbVal δ τ) (hl : 0 ≤ l) :
    Prints l 0 (pg_text f c v) (db_postgres_val2str f c v l) ↔ Blob c l v := by
  unfold db_postgres_val2str
  by_cases h0 : l = 0
  · rw [if_pos h0]
    exact ⟨fun _ s _ hle => absurd hle (by omega), fun _ => prints_none⟩
  rw [if_neg h0]
  have hother : (∀ s, v ≠ .blob s) → Blob c l v := fun h s hs => absurd hs (h s)
  cases v with
  | null =>
    refine ⟨fun _ => hother (by simp), fun _ => prints_guarded l fun h => ?_⟩
    have hput : Prints l 0 (("NULL".toList.map chr).take 4) (Printer.put ("NULL".toList.map chr) 4 0) := by
      apply prints_put
      · decide
      · change (0 : ℤ) + 4 ≤ l
        omega
    exact hput
  | int v => exact ⟨fun _ => hother (by simp), fun _ => prints_number hl⟩
  | bitmap v => exact ⟨fun _ => hother (by simp), fun _ => prints_number hl⟩
  | double v => exact ⟨fun _ => hother (by simp), fun _ => prints_number hl⟩
  | string s => exact ⟨fun _ => hother (by simp), fun _ => prints_pg_string c s.s⟩
  | str s => exact ⟨fun _ => hother (by simp), fun _ => prints_pg_string c s⟩
  | datetime t => exact ⟨fun _ => hother (by simp), fun _ => prints_time⟩
  | unknown => exact ⟨fun _ => hother (by simp), fun _ => prints_none⟩
  | blob s =>
    have hblob : Blob c l (.blob s : DbVal δ τ) ↔
        (s.length * 2 + 3 ≤ l → ∀ b ∈ c.bytea s, l < b.s.length + 1 ∨ b.s.length + 3 ≤ l) := by
      refine ⟨fun h => h s rfl, fun h s' hs' => ?_⟩
      obtain rfl := DbVal.blob.inj hs'
      exact h
    rw [hblob]
    dsimp only
    by_cases hshort : l < s.length * 2 + 3
    · rw [if_pos hshort]
      exact ⟨fun _ hle => absurd hle (by omega), fun _ => prints_none⟩
    rw [if_neg hshort, pg_text, DbVal.text]
    cases c.bytea s with
    | none => exact ⟨fun _ _ b hb => absurd hb (by simp), fun _ => prints_quote_fail (by push_cast; omega)⟩
    | some b =>
      dsimp only
      by_cases hlong : (b.s.length : ℤ) + 1 > l
      · rw [if_pos hlong]
        refine ⟨fun _ _ b' hb' => .inl ?_, fun _ => prints_quote_fail (by push_cast; omega)⟩
        cases hb'
        exact hlong
      · rw [if_neg hlong, elim_some, prints_quoted]
        constructor
        · intro h _ b' hb'
          cases hb'
          exact .inr h
        · exact fun h => (h (by omega) b rfl).resolve_left (by omega)

def no_formats : Formats Empty Empty := ⟨nofun, nofun⟩

def plain : MysqlClient := ⟨id, fun s => Nat.le_mul_of_pos_left s.length Nat.two_pos⟩

def nulls : Val2str Unit where
  val2str _ l := db_mysql_val2str no_formats plain .null l
  text _ := mysql_text no_formats plain .null
  respects _ _ hl := db_mysql_val2str_prints no_formats plain .null hl

end Exact

end OpenSips.DbPrint
