import OpenSips.Lib.Printing
import OpenSips.Str
import Mathlib.Data.List.Flatten

/-!
# OpenSips.Db.Print — the texts of SQL statements (`db/db_ut.c`, `db/db_query.c`)

Names, operators and separators are printed by `snprintf`, and what it returns is checked; `?` and `,` are stored
without a look at what is left of the buffer, but where a check was made just before.
-/

namespace OpenSips.DbPrint

open Lib List Option

/-- The text of a key, an operator or a table, up to its NUL. -/
structure Name where
  s : Str
  no_nul : (0 : UInt8) ∉ s

/-- A driver's `val2str`, which is given a value and `*_len`, with the text of each value.  It respects the length. -/
structure Val2str (V : Type) where
  val2str : V → ℤ → Printed UInt8
  text : V → Str
  respects : ∀ v (l : ℤ), 0 ≤ l → Prints l 0 (text v) (val2str v l)

/-- A condition or an assignment: `_o` is there or not. -/
structure Item (V : Type) where
  key : Name
  op : Option Name
  v : V

section Source

variable {V : Type} (d : Val2str V) (ps : Bool) (l : ℤ)

/-- `snprintf(_b + len, _l - len, ..)`, whose size is unsigned, and the test of what it returns. -/
def checked (text : Str) : Printer UInt8 := fun n =>
  let size := l - n
  ⟨if size = 0 then [] else [(n, if size < 0 then text ++ [0] else text.take (size.toNat - 1) ++ [0])],
    if text.length < size then some (n + text.length) else none⟩

/-- `*(_b + len++) = c` -/
def char (c : Char) : Printer UInt8 := Printer.put [chr c] 1

/-- The call of `val2str` with what is left. -/
def value (v : V) : Printer UInt8 := fun n => (d.val2str v (l - n)).shift n

/-- A `?` with a prepared statement, else the value. -/
def value_or_mark (v : V) : Printer UInt8 := if ps = true then char '?' else value d l v

def columns_loop : List Name → Printer UInt8
  | [] => Printer.skip
  | [c] => checked l (c.s ++ [chr ' '])
  | c :: cs => (checked l (c.s ++ [chr ','])).seq (columns_loop cs)

def db_print_columns (c : List Name) : Printed UInt8 :=
  if c = [] ∨ l = 0 then ⟨[], none⟩ else columns_loop l c 0

def values_loop : List V → Printer UInt8
  | [] => Printer.skip
  | [v] => value_or_mark d ps l v
  | v :: vs => (value_or_mark d ps l v).seq ((char ',').seq (values_loop vs))

def db_print_values (v : List V) : Printed UInt8 :=
  if v.length = 0 ∨ l = 0 then ⟨[], none⟩ else values_loop d ps l v 0

/-- `key op value`, and `key=value` without operators. -/
def print_item (x : Item V) : Printer UInt8 :=
  (checked l (x.key.s ++ x.op.elim [chr '='] Name.s)).seq (value_or_mark d ps l x.v)

def AND : Str := " AND ".toList.map chr

def where_loop : List (Item V) → Printer UInt8
  | [] => Printer.skip
  | [x] => print_item d ps l x
  | x :: xs => (print_item d ps l x).seq ((checked l AND).seq (where_loop xs))

def db_print_where (x : List (Item V)) : Printed UInt8 :=
  if x.length = 0 ∨ l = 0 then ⟨[], none⟩ else where_loop d ps l x 0

/-- `if ((_l - len) >= 1) *(_b + len++) = ','` -/
def comma_if_room : Printer UInt8 := fun n => if 1 ≤ l - n then char ',' n else Printer.skip n

def set_loop : List (Item V) → Printer UInt8
  | [] => Printer.skip
  | [x] => print_item d ps l { x with op := none }
  | x :: xs => (print_item d ps l { x with op := none }).seq ((comma_if_room l).seq (set_loop xs))

def db_print_set (x : List (Item V)) : Printed UInt8 :=
  if x.length = 0 ∨ l = 0 then ⟨[], none⟩ else set_loop d ps l x 0

/-- What `db_do_query` is to select. -/
structure Query (V : Type) where
  table : Name
  columns : Option (List Name)
  conditions : List (Item V)
  order : Option Name

/-- The call of a printer with what is left. -/
def call (f : ℤ → Printed UInt8) : Printer UInt8 := fun n => (f (l - n)).shift n

/-- `db_do_query` up to the end of the statement. -/
def print_query (q : Query V) : Printer UInt8 :=
  let select := match q.columns with
    | none => checked l ("select * from ".toList.map chr ++ q.table.s ++ [chr ' '])
    | some c => (checked l ("select ".toList.map chr)).seq
        ((call l fun l => db_print_columns l c).seq (checked l ("from ".toList.map chr ++ q.table.s ++ [chr ' '])))
  let where_ := if q.conditions.length = 0 then Printer.skip
    else (checked l ("where ".toList.map chr)).seq (call l fun l => db_print_where d ps l q.conditions)
  let order := match q.order with
    | none => Printer.skip
    | some o => checked l (" order by ".toList.map chr ++ o.s)
  select.seq (where_.seq order)

/-- `if (off + 1 >= SQL_BUF_LEN) goto error; sql_buf[off + 1] = '\0'` -/
def terminate : Printer UInt8 := fun off => if (off : ℤ) + 1 ≥ l then ⟨[], none⟩ else ⟨[(off + 1, [0])], some off⟩

def SQL_BUF_LEN : ℤ := 65536

/-- `db_do_query`: the statement in `sql_buf`. -/
def db_do_query (q : Query V) : Printed UInt8 := (print_query d ps SQL_BUF_LEN q).seq (terminate SQL_BUF_LEN) 0

end Source

section Reference

variable {V : Type} (d : Val2str V) (ps : Bool)

def shown (v : V) : Str := if ps = true then [chr '?'] else d.text v

def columns_text (c : List Name) : Str := [chr ','].intercalate (c.map Name.s) ++ [chr ' ']

def values_text (v : List V) : Str := [chr ','].intercalate (v.map (shown d ps))

def item_text (x : Item V) : Str := x.key.s ++ x.op.elim [chr '='] Name.s ++ shown d ps x.v

def where_text (x : List (Item V)) : Str := AND.intercalate (x.map (item_text d ps))

/-- `key=value`, whatever the operator. -/
def assignment_text (x : Item V) : Str := item_text d ps { x with op := none }

def set_text (x : List (Item V)) : Str := [chr ','].intercalate (x.map (assignment_text d ps))

def query_text (q : Query V) : Str :=
  let select := match q.columns with
    | none => "select * from ".toList.map chr ++ q.table.s ++ [chr ' ']
    | some c => "select ".toList.map chr ++ (columns_text c ++ ("from ".toList.map chr ++ q.table.s ++ [chr ' ']))
  let where_ := if q.conditions.length = 0 then [] else "where ".toList.map chr ++ where_text d ps q.conditions
  select ++ (where_ ++ q.order.elim [] fun o => " order by ".toList.map chr ++ o.s)

end Reference

section Checked

variable {V : Type} {d : Val2str V} {ps : Bool} {l : ℤ} {text s t : Str} {n k : ℕ} {c : Char} {p q : Printer UInt8}

theorem prints_nul (h : (n : ℤ) + text.length + 1 ≤ l) :
    Prints l n text (Printer.put (text ++ [0]) text.length n) := by
  have hput : Prints l n ((text ++ [0]).take text.length) (Printer.put (text ++ [0]) text.length n) := by
    apply prints_put
    · rw [length_append]
      omega
    · rw [length_append, length_singleton]
      push_cast
      omega
  rwa [take_left] at hput

theorem good_checked (l : ℤ) (text : Str) : Good l (checked l text) text := by
  intro n hn
  rw [checked]
  by_cases h0 : l - n = 0
  · rw [if_pos h0, if_neg (by omega)]
    exact prints_fail fun x hx => absurd hx not_mem_nil
  rw [if_neg h0, if_neg (show ¬ l - n < 0 by omega)]
  by_cases hlt : (text.length : ℤ) < l - n
  · rw [if_pos hlt, take_of_length_le (by omega)]
    exact prints_nul (by omega)
  · rw [if_neg hlt]
    refine prints_fail fun x hx => ?_
    obtain rfl := mem_singleton.1 hx
    refine ⟨Nat.le_refl n, ?_⟩
    rw [length_append, length_take, length_singleton]
    omega

theorem checked_room (h : (checked l text n).pos = some k) : k < l := by
  rw [checked] at h
  dsimp only at h
  split at h
  · cases h
    omega
  · exact absurd h (by simp)

theorem checked_end (h : (n : ℤ) = l) : checked l text n = ⟨[], none⟩ := by
  rw [checked, if_pos (by omega), if_neg (by omega)]

theorem good_value (l : ℤ) (v : V) : Good l (value d l v) (d.text v) :=
  fun n hn => prints_shift (d.respects v (l - n) (by omega))

theorem prints_char (h : n < l) : Prints l n [chr c] (char c n) := by
  have hput : Prints l n ([chr c].take 1) (Printer.put [chr c] 1 n) := by
    apply prints_put
    · exact Nat.le_refl 1
    · rw [length_singleton]
      omega
  exact hput

/-- A value, or a `?`, behind a check. -/
theorem prints_shown (v : V) (h : k < l) : Prints l k (shown d ps v) (value_or_mark d ps l v k) := by
  rw [shown, value_or_mark]
  by_cases hps : ps = true
  · rw [if_pos hps, if_pos hps]
    exact prints_char h
  · rw [if_neg hps, if_neg hps]
    exact good_value l v k (by omega)

theorem good_item (x : Item V) : Good l (print_item d ps l x) (item_text d ps x) :=
  fun n hn => prints_seq (good_checked l _ n hn) fun _ hk => prints_shown x.v (checked_room hk)

theorem good_comma (hq : Good l q t) (hend : ∀ n : ℕ, (n : ℤ) = l → q n = ⟨[], none⟩) :
    Good l ((comma_if_room l).seq q) (chr ',' :: t) := by
  intro n hn
  by_cases hroom : 1 ≤ l - n
  · have hcomma : comma_if_room l n = char ',' n := if_pos hroom
    refine prints_seq (s := [chr ',']) (hcomma ▸ prints_char (by omega)) fun k hk => hq k ?_
    rw [hcomma] at hk
    cases hk
    push_cast
    omega
  · have hskip : comma_if_room l n = Printer.skip n := if_neg hroom
    have hnone : (comma_if_room l).seq q n = ⟨[], none⟩ := by
      rw [Printer.seq, hskip]
      change (⟨[] ++ (q n).blocks, (q n).pos⟩ : Printed UInt8) = _
      rw [hend n (by omega)]
      rfl
    rw [hnone]
    exact prints_fail fun x hx => absurd hx not_mem_nil

end Checked

section Lists

variable {V : Type} (d : Val2str V) (ps : Bool) (l : ℤ)

theorem prints_guarded {o : Printed UInt8} {text : Str} {b : Prop} [Decidable b] (h : ¬ b → Prints l 0 text o) :
    Prints l 0 text (if b then ⟨[], none⟩ else o) := by
  by_cases hb : b
  · rw [if_pos hb]
    exact prints_fail fun x hx => absurd hx not_mem_nil
  · rw [if_neg hb]
    exact h hb

theorem good_columns : ∀ c : List Name, c ≠ [] → Good l (columns_loop l c) (columns_text c)
  | [], h => absurd rfl h
  | [c], _ => by
    rw [columns_text, map_singleton, intercalate_singleton]
    exact good_checked l _
  | c :: c' :: cs, _ => by
    rw [columns_text, map_cons, map_cons, intercalate_cons_cons, append_assoc, append_assoc,
      ← append_assoc c.s, ← map_cons]
    exact (good_checked l _).seq (good_columns (c' :: cs) (by simp))

theorem good_where : ∀ x : List (Item V), x ≠ [] → Good l (where_loop d ps l x) (where_text d ps x)
  | [], h => absurd rfl h
  | [x], _ => by
    rw [where_text, map_singleton, intercalate_singleton]
    exact good_item x
  | x :: x' :: xs, _ => by
    rw [where_text, map_cons, map_cons, intercalate_cons_cons, append_assoc, ← map_cons]
    exact (good_item x).seq ((good_checked l AND).seq (good_where (x' :: xs) (by simp)))

theorem seq_fail {p q : Printer UInt8} {n : ℕ} {blocks : List (ℕ × Str)} (h : p n = ⟨blocks, none⟩) :
    p.seq q n = ⟨blocks, none⟩ := by
  rw [Printer.seq, h]

theorem set_end : ∀ x : List (Item V), x ≠ [] → ∀ n : ℕ, (n : ℤ) = l → set_loop d ps l x n = ⟨[], none⟩
  | [], h, _, _ => absurd rfl h
  | [_], _, _, hn => seq_fail (checked_end hn)
  | _ :: _ :: _, _, _, hn => seq_fail (seq_fail (checked_end hn))

theorem good_set : ∀ x : List (Item V), x ≠ [] → Good l (set_loop d ps l x) (set_text d ps x)
  | [], h => absurd rfl h
  | [x], _ => by
    rw [set_text, map_singleton, intercalate_singleton]
    exact good_item _
  | x :: x' :: xs, _ => by
    rw [set_text, map_cons, map_cons, intercalate_cons_cons, append_assoc, ← map_cons]
    exact (good_item _).seq (good_comma (good_set (x' :: xs) (by simp)) (set_end d ps l (x' :: xs) (by simp)))

/-- Behind every value but the last there is room for the `,`. -/
def Fits : List V → ℕ → Prop
  | [], _ => True
  | [_], _ => True
  | v :: vs, n => ∀ k, (value d l v n).pos = some k → k < l ∧ Fits vs (k + 1)

theorem fits_of_inside : ∀ (v : List V) (n : ℕ),
    (∀ x ∈ (values_loop d false l v n).blocks, x.1 + x.2.length ≤ l) → Fits d l v n
  | [], _, _ => trivial
  | [_], _, _ => trivial
  | v :: v' :: vs, n, h => by
    intro k hk
    have hloop : (values_loop d false l (v :: v' :: vs) n).blocks = (value d l v n).blocks ++
        ([(k, [chr ','])] ++ (values_loop d false l (v' :: vs) (k + 1)).blocks) := by
      change ((value d l v).seq _ n).blocks = _
      rw [Printer.seq, hk]
      rfl
    rw [hloop] at h
    have hcomma := h (k, [chr ',']) (mem_append_right _ (mem_append_left _ mem_cons_self))
    rw [length_singleton] at hcomma
    exact ⟨by omega, fits_of_inside (v' :: vs) (k + 1) fun x hx =>
      h x (mem_append_right _ (mem_append_right _ hx))⟩

theorem prints_of_fits : ∀ (v : List V) (n : ℕ), v ≠ [] → n ≤ l → Fits d l v n →
    Prints l n (values_text d false v) (values_loop d false l v n)
  | [], _, h, _, _ => absurd rfl h
  | [v], n, _, hn, _ => by
    rw [values_text, map_singleton, intercalate_singleton]
    exact good_value l v n hn
  | v :: v' :: vs, n, _, hn, h => by
    rw [values_text, map_cons, map_cons, intercalate_cons_cons, append_assoc, ← map_cons]
    refine prints_seq (good_value l v n hn) fun k hk => ?_
    obtain ⟨hlt, hrest⟩ := h k hk
    refine prints_seq (prints_char hlt) fun j hj => ?_
    cases hj
    exact prints_of_fits (v' :: vs) (k + 1) (by simp) (by push_cast; omega) hrest

theorem last_mark : ∀ (v : List V) (n : ℕ), v ≠ [] →
    (n + 2 * (v.length - 1), [chr '?']) ∈ (values_loop d true l v n).blocks
  | [], _, h => absurd rfl h
  | [_], _, _ => mem_cons_self
  | _ :: v' :: vs, n, _ => by
    have hrest := last_mark (v' :: vs) (n + 2) (by simp)
    rw [show n + 2 + 2 * ((v' :: vs).length - 1) = n + 2 * ((v' :: vs).length + 1 - 1) by
      rw [length_cons]; omega] at hrest
    exact mem_cons_of_mem _ (mem_cons_of_mem _ hrest)

theorem prints_marks : ∀ (v : List V) (n : ℕ), v ≠ [] → n + 2 * v.length - 1 ≤ l →
    Prints l n (values_text d true v) (values_loop d true l v n)
  | [], _, h, _ => absurd rfl h
  | [v], n, _, hn => by
    rw [values_text, map_singleton, intercalate_singleton]
    rw [length_singleton] at hn
    exact prints_shown v (by omega)
  | v :: v' :: vs, n, _, hn => by
    rw [length_cons, length_cons] at hn
    rw [values_text, map_cons, map_cons, intercalate_cons_cons, append_assoc, ← map_cons]
    refine prints_seq (prints_shown v (by omega)) fun k hk => ?_
    cases hk
    refine prints_seq (prints_char (by push_cast; omega)) fun j hj => ?_
    cases hj
    exact prints_marks (v' :: vs) (n + 1 + 1) (by simp) (by rw [length_cons]; push_cast at hn ⊢; omega)

/-- The values that `db_print_values` prints as it should: `?` and `,` have room, or each value but the last leaves
room for the `,` behind it. -/
def Room (v : List V) : Prop := l = 0 ∨ v = [] ∨ if ps = true then 2 * v.length - 1 ≤ l else Fits d l v 0

theorem db_print_values_iff (hl : 0 ≤ l) (v : List V) :
    Prints l 0 (values_text d ps v) (db_print_values d ps l v) ↔ Room d ps l v := by
  rw [db_print_values, Room, ← length_eq_zero_iff (l := v)]
  by_cases h : v.length = 0 ∨ l = 0
  · rw [if_pos h]
    refine ⟨fun _ => ?_, fun _ => prints_fail fun x hx => absurd hx not_mem_nil⟩
    exact h.elim (fun h => .inr (.inl h)) .inl
  obtain ⟨hv, hl0⟩ := not_or.1 h
  have hne : v ≠ [] := fun hnil => hv (congrArg List.length hnil)
  have hpos := length_pos_iff.2 hne
  rw [if_neg h, or_iff_right hl0, or_iff_right hv]
  cases ps with
  | true =>
    rw [if_pos rfl]
    constructor
    · intro hp
      have hin := (hp.inside _ (last_mark d l v 0 hne)).2
      rw [length_singleton] at hin
      push_cast at hin
      omega
    · intro hle
      exact prints_marks d l v 0 hne (by push_cast; omega)
  | false =>
    rw [if_neg Bool.false_ne_true]
    exact ⟨fun hp => fits_of_inside d l v 0 fun x hx => (hp.inside x hx).2, prints_of_fits d l v 0 hne hl⟩

end Lists

section Statements

variable {V : Type} (d : Val2str V) (ps : Bool) {l : ℤ}

theorem db_print_columns_prints (hl : 0 ≤ l) (c : List Name) : Prints l 0 (columns_text c) (db_print_columns l c) :=
  prints_guarded l fun h => good_columns l c (fun hc => h (.inl hc)) 0 hl

theorem db_print_where_prints (hl : 0 ≤ l) (x : List (Item V)) :
    Prints l 0 (where_text d ps x) (db_print_where d ps l x) :=
  prints_guarded l fun h => good_where d ps l x (fun hx => h (.inl (congrArg List.length hx))) 0 hl

theorem db_print_set_prints (hl : 0 ≤ l) (x : List (Item V)) : Prints l 0 (set_text d ps x) (db_print_set d ps l x) :=
  prints_guarded l fun h => good_set d ps l x (fun hx => h (.inl (congrArg List.length hx))) 0 hl

theorem good_skip (l : ℤ) : Good l (Printer.skip (β := UInt8)) [] := fun _ hn => prints_skip hn

theorem good_call {f : ℤ → Printed UInt8} {text : Str} (h : ∀ l, 0 ≤ l → Prints l 0 text (f l)) : Good l (call l f) text :=
  fun n hn => prints_shift (h (l - n) (by omega))

theorem good_query (q : Query V) : Good l (print_query d ps l q) (query_text d ps q) := by
  rw [print_query, query_text]
  apply Good.seq
  · cases q.columns with
    | none => exact good_checked l _
    | some c =>
      exact (good_checked l _).seq ((good_call fun l hl => db_print_columns_prints hl c).seq (good_checked l _))
  · apply Good.seq
    · by_cases hx : q.conditions.length = 0
      · rw [if_pos hx, if_pos hx]
        exact good_skip l
      · rw [if_neg hx, if_neg hx]
        exact (good_checked l _).seq (good_call fun l hl => db_print_where_prints d ps hl q.conditions)
    · cases q.order with
      | none => exact good_skip l
      | some o => exact good_checked l _

theorem good_terminate : Good l (terminate l) [] := by
  intro n hn
  rw [terminate]
  by_cases h : (n : ℤ) + 1 ≥ l
  · rw [if_pos h]
    exact prints_fail fun x hx => absurd hx not_mem_nil
  · rw [if_neg h]
    refine ⟨fun x hx => ?_, fun k hk => ?_, fun _ m => rfl⟩
    · obtain rfl := mem_singleton.1 hx
      refine ⟨Nat.le_succ n, ?_⟩
      rw [length_singleton]
      push_cast
      omega
    · cases hk
      exact ⟨rfl, hn⟩

/-- A statement stays in `sql_buf` and is the whole text. -/
theorem db_do_query_prints (q : Query V) : Prints SQL_BUF_LEN 0 (query_text d ps q) (db_do_query d ps q) := by
  have h := (good_query d ps (l := SQL_BUF_LEN) q).seq good_terminate 0 (by decide)
  rw [append_nil] at h
  exact h

end Statements

end OpenSips.DbPrint
