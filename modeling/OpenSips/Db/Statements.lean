import OpenSips.Db.Drivers

/-!
# OpenSips.Db.Statements — the statements that are submitted (`db/db_query.c`)

A driver may take the length of a statement or look for its NUL.  `db_do_insert`, `db_do_delete` and
`db_do_update` put the NUL behind the text, `db_do_query` one place further: there it is what was printed
last that ends the text, which is a value, or the `?` for one, if there are conditions and no order.
-/

namespace OpenSips.DbPrint

open Lib List Option

section Source

variable {V : Type} (d : Val2str V) (ps : Bool) (l : ℤ)

/-- `sql_buf[off] = '\0'` -/
def nul : Printer UInt8 := Printer.put [0] 0

/-- `if (off + 1 > SQL_BUF_LEN) goto error; sql_buf[off] = '\0'` -/
def finish : Printer UInt8 := fun off => if (off : ℤ) + 1 > l then ⟨[], none⟩ else nul off

/-- `if (off + 2 > SQL_BUF_LEN) goto error; sql_buf[off++] = ')'; sql_buf[off] = '\0'` -/
def close : Printer UInt8 := fun off => if (off : ℤ) + 2 > l then ⟨[], none⟩ else (char ')').seq nul off

/-- `db_do_insert` up to the `)`. -/
def print_insert (table : Name) (cells : List (Name × V)) : Printer UInt8 :=
  (checked l ("insert into ".toList.map chr ++ table.s ++ " (".toList.map chr)).seq
    ((call l fun l => db_print_columns l (cells.map Prod.fst)).seq
      ((checked l (") values (".toList.map chr)).seq (call l fun l => db_print_values d ps l (cells.map Prod.snd))))

def db_do_insert (table : Name) (cells : List (Name × V)) : Printed UInt8 :=
  if cells.length = 0 then ⟨[], none⟩ else (print_insert d ps SQL_BUF_LEN table cells).seq (close SQL_BUF_LEN) 0

/-- The conditions of `db_do_delete` and `db_do_update`. -/
def print_conditions (x : List (Item V)) : Printer UInt8 :=
  if x.length = 0 then Printer.skip
  else (checked l (" where ".toList.map chr)).seq (call l fun l => db_print_where d ps l x)

def db_do_delete (table : Name) (conditions : List (Item V)) : Printed UInt8 :=
  ((checked SQL_BUF_LEN ("delete from ".toList.map chr ++ table.s)).seq
    ((print_conditions d ps SQL_BUF_LEN conditions).seq (finish SQL_BUF_LEN))) 0

def db_do_update (table : Name) (cells conditions : List (Item V)) : Printed UInt8 :=
  if cells.length = 0 then ⟨[], none⟩
  else ((checked SQL_BUF_LEN ("update ".toList.map chr ++ table.s ++ " set ".toList.map chr)).seq
    ((call SQL_BUF_LEN fun l => db_print_set d ps l cells).seq
      ((print_conditions d ps SQL_BUF_LEN conditions).seq (finish SQL_BUF_LEN)))) 0

end Source

inductive Statement (V : Type) where
  | query (q : Query V)
  | insert (table : Name) (cells : List (Name × V))
  | delete (table : Name) (conditions : List (Item V))
  | update (table : Name) (cells conditions : List (Item V))

section Reference

variable {V : Type} (d : Val2str V) (ps : Bool)

def Statement.build : Statement V → Printed UInt8
  | query q => db_do_query d ps q
  | insert table cells => db_do_insert d ps table cells
  | delete table conditions => db_do_delete d ps table conditions
  | update table cells conditions => db_do_update d ps table cells conditions

def conditions_text (x : List (Item V)) : Str :=
  if x.length = 0 then [] else " where ".toList.map chr ++ where_text d ps x

def Statement.text : Statement V → Str
  | query q => query_text d ps q
  | insert table cells => "insert into ".toList.map chr ++ table.s ++ " (".toList.map chr ++
      (columns_text (cells.map Prod.fst) ++ (") values (".toList.map chr ++
        (values_text d ps (cells.map Prod.snd) ++ [chr ')'])))
  | delete table conditions => "delete from ".toList.map chr ++ table.s ++ conditions_text d ps conditions
  | update table cells conditions => "update ".toList.map chr ++ table.s ++ " set ".toList.map chr ++
      (set_text d ps cells ++ conditions_text d ps conditions)

/-- The buffer that is submitted holds the text and a NUL behind it, whatever it held before. -/
def Terminated (o : Printed UInt8) (text : Str) : Prop := o.pos = some text.length ∧
  ∀ m, read (writes o.blocks m) 0 text.length = text ∧ writes o.blocks m text.length = 0

end Reference

section Endings

variable {V : Type} {d : Val2str V} {ps : Bool} {l : ℤ} {n k : ℕ} {text : Str} {p : Printer UInt8}

theorem good_conditions (x : List (Item V)) : Good l (print_conditions d ps l x) (conditions_text d ps x) := by
  unfold print_conditions conditions_text
  by_cases hx : x.length = 0
  · rw [if_pos hx, if_pos hx]
    exact good_skip l
  · rw [if_neg hx, if_neg hx]
    exact (good_checked l _).seq (good_call fun l hl => db_print_where_prints d ps hl x)

/-- **A text with the NUL behind it** is terminated. -/
theorem terminated_nul (hp : Prints l 0 text (p 0)) (hk : (p 0).pos = some k) :
    Terminated (p.seq nul 0) text := by
  obtain ⟨rfl, -⟩ := hp.behind k hk
  rw [zero_add] at hk
  rw [seq_of_some hk]
  refine ⟨rfl, fun m => ?_⟩
  have hnul : writes (nul text.length).blocks (writes (p 0).blocks m) =
      write (writes (p 0).blocks m) text.length [0] := rfl
  rw [writes_append, hnul]
  constructor
  · rw [read_write_of_disjoint (.inl (zero_add _).le)]
    exact hp.text (by rw [hk]; exact some_ne_none _) m
  · exact write_inside (by decide : 0 < [(0 : UInt8)].length)

theorem terminated_finish (hp : Prints l 0 text (p 0)) (h : (p.seq (finish l) 0).pos = some k) :
    Terminated (p.seq (finish l) 0) text := by
  obtain ⟨j, hj, hk⟩ := seq_pos.1 h
  have hroom : ¬ (j : ℤ) + 1 > l := fun hlt => by
    rw [finish, if_pos hlt] at hk
    cases hk
  have heq : p.seq (finish l) 0 = p.seq nul 0 := by
    rw [seq_of_some hj, seq_of_some hj, finish, if_neg hroom]
  rw [heq]
  exact terminated_nul hp hj

theorem terminated_close (hp : Prints l 0 text (p 0)) (h : (p.seq (close l) 0).pos = some k) :
    Terminated (p.seq (close l) 0) (text ++ [chr ')']) := by
  obtain ⟨j, hj, hk⟩ := seq_pos.1 h
  have hroom : ¬ (j : ℤ) + 2 > l := fun hlt => by
    rw [close, if_pos hlt] at hk
    cases hk
  have heq : p.seq (close l) 0 = (p.seq (char ')')).seq nul 0 := by
    rw [seq_assoc, seq_of_some hj, seq_of_some hj, close, if_neg hroom]
  rw [heq]
  have hp' : Prints l 0 (text ++ [chr ')']) (p.seq (char ')') 0) :=
    prints_seq hp fun i hi => prints_char (by rw [hj] at hi; obtain rfl := some.inj hi; omega)
  exact terminated_nul hp' (seq_pos.2 ⟨j, hj, rfl⟩)

/-! ### The values of an insert -/

theorem value_forward {v : V} (h : (value d l v n).pos = some k) : n ≤ k := by
  obtain ⟨j, -, rfl⟩ := map_eq_some_iff.1 h
  exact Nat.le_add_right n j

theorem fits_of_pos : ∀ (v : List V) (n : ℕ), (values_loop d false l v n).pos = some k → k ≤ l →
    n ≤ k ∧ Fits d l v n
  | [], n, h, _ => by
    cases h
    exact ⟨le_rfl, trivial⟩
  | [v], n, h, _ => ⟨value_forward h, trivial⟩
  | v :: v' :: vs, n, h, hk => by
    obtain ⟨j, hj, h⟩ := seq_pos.1 h
    obtain ⟨i, hi, h⟩ := seq_pos.1 h
    cases hi
    obtain ⟨h1, h2⟩ := fits_of_pos (v' :: vs) (j + 1) h hk
    have hle : n ≤ j := value_forward hj
    refine ⟨by omega, fun i hi => ?_⟩
    obtain rfl := some.inj (hj.symm.trans hi)
    exact ⟨by omega, h2⟩

theorem marks_pos : ∀ (v : List V) (n : ℕ), v ≠ [] →
    (values_loop d true l v n).pos = some (n + (2 * v.length - 1))
  | [], _, h => absurd rfl h
  | [_], _, _ => rfl
  | v :: v' :: vs, n, _ => by
    refine seq_pos.2 ⟨n + 1, rfl, seq_pos.2 ⟨n + 2, rfl, ?_⟩⟩
    rw [marks_pos (v' :: vs) (n + 2) (by simp)]
    simp only [length_cons]
    congr 1
    omega

theorem prints_values (hl : 0 ≤ l) {v : List V} (h : (db_print_values d ps l v).pos = some k) (hk : k ≤ l) :
    Prints l 0 (values_text d ps v) (db_print_values d ps l v) := by
  refine (db_print_values_iff d ps l hl v).2 ?_
  rw [db_print_values] at h
  split_ifs at h with h0
  obtain ⟨hv, -⟩ := not_or.1 h0
  have hne : v ≠ [] := fun hnil => hv (congrArg List.length hnil)
  refine .inr (.inr ?_)
  cases ps with
  | true =>
    rw [if_pos rfl]
    rw [marks_pos v 0 hne] at h
    cases h
    have := length_pos_iff.2 hne
    push_cast at hk
    omega
  | false =>
    rw [if_neg Bool.false_ne_true]
    exact (fits_of_pos v 0 h hk).2

theorem prints_insert {table : Name} {cells : List (Name × V)} (hl : 0 ≤ l)
    (h : (print_insert d ps l table cells 0).pos = some k) (hk : k ≤ l) :
    Prints l 0 ("insert into ".toList.map chr ++ table.s ++ " (".toList.map chr ++
      (columns_text (cells.map Prod.fst) ++ (") values (".toList.map chr ++
        values_text d ps (cells.map Prod.snd)))) (print_insert d ps l table cells 0) := by
  obtain ⟨k₁, h₁, h⟩ := seq_pos.1 h
  obtain ⟨k₂, h₂, h⟩ := seq_pos.1 h
  obtain ⟨k₃, h₃, h⟩ := seq_pos.1 h
  refine prints_seq (good_checked l _ 0 hl) fun j hj => ?_
  obtain rfl := some.inj (h₁.symm.trans hj)
  have hle₁ := ((good_checked l _ 0 hl).behind k₁ h₁).2
  have hcols := good_call (fun l hl => db_print_columns_prints hl (cells.map Prod.fst)) k₁ hle₁
  refine prints_seq hcols fun j hj => ?_
  obtain rfl := some.inj (h₂.symm.trans hj)
  have hle₂ := (hcols.behind k₂ h₂).2
  refine prints_seq (good_checked l _ k₂ hle₂) fun j hj => ?_
  obtain rfl := some.inj (h₃.symm.trans hj)
  have hle₃ := ((good_checked l _ k₂ hle₂).behind k₃ h₃).2
  obtain ⟨i, hi, rfl⟩ := map_eq_some_iff.1 h
  exact prints_shift (prints_values (by omega) hi (by push_cast at hk; omega))

/-- **An insert.** -/
theorem terminated_insert {table : Name} {cells : List (Name × V)} (hl : 0 ≤ l)
    (h : ((print_insert d ps l table cells).seq (close l) 0).pos = some k) :
    Terminated ((print_insert d ps l table cells).seq (close l) 0)
      ((Statement.insert table cells).text d ps) := by
  obtain ⟨j, hj, hk⟩ := seq_pos.1 h
  have hroom : ¬ (j : ℤ) + 2 > l := fun hlt => by
    rw [close, if_pos hlt] at hk
    cases hk
  have happ : ∀ a b c e f : Str, a ++ (b ++ (c ++ (e ++ f))) = a ++ (b ++ (c ++ e)) ++ f := by
    intro a b c e f
    simp only [append_assoc]
  have htext : (Statement.insert table cells).text d ps = ("insert into ".toList.map chr ++ table.s ++
      " (".toList.map chr ++ (columns_text (cells.map Prod.fst) ++ (") values (".toList.map chr ++
        values_text d ps (cells.map Prod.snd)))) ++ [chr ')'] :=
    happ _ _ _ _ _
  have hle : (j : ℤ) ≤ l := by omega
  have hprints := prints_insert hl hj hle
  rw [htext]
  exact terminated_close hprints h

/-- **A delete.** -/
theorem terminated_delete {table : Name} {x : List (Item V)} (hl : 0 ≤ l)
    (h : ((checked l ("delete from ".toList.map chr ++ table.s)).seq
      ((print_conditions d ps l x).seq (finish l)) 0).pos = some k) :
    Terminated ((checked l ("delete from ".toList.map chr ++ table.s)).seq
      ((print_conditions d ps l x).seq (finish l)) 0) ((Statement.delete table x).text d ps) := by
  rw [← Lib.seq_assoc] at h ⊢
  exact terminated_finish ((good_checked _ _).seq (good_conditions x) 0 hl) h

/-- **An update.** -/
theorem terminated_update {table : Name} {cells x : List (Item V)} (hl : 0 ≤ l)
    (h : ((checked l ("update ".toList.map chr ++ table.s ++ " set ".toList.map chr)).seq
      ((call l fun l => db_print_set d ps l cells).seq ((print_conditions d ps l x).seq (finish l))) 0).pos = some k) :
    Terminated ((checked l ("update ".toList.map chr ++ table.s ++ " set ".toList.map chr)).seq
      ((call l fun l => db_print_set d ps l cells).seq ((print_conditions d ps l x).seq (finish l))) 0)
      ((Statement.update table cells x).text d ps) := by
  rw [← Lib.seq_assoc (p := call _ _), ← Lib.seq_assoc] at h ⊢
  exact terminated_finish ((good_checked _ _).seq ((good_call fun l hl =>
    db_print_set_prints d ps hl cells).seq (good_conditions x)) 0 hl) h

end Endings

/-! ### The end of a query -/

section Last

variable {V : Type}

/-- A value printer that writes its text and, behind it, at most a terminator. -/
structure TidyVal2str (V : Type) extends Val2str V where
  tidy : ∀ v (l : ℤ), 0 ≤ l → ∀ k, (val2str v l).pos = some k →
    ∀ y ∈ (val2str v l).blocks, y.1 + y.2.length ≤ k + 1

/-- Given a place with a NUL and `room`, the printer leaves one behind its text. -/
def LeavesNul (d : Val2str V) (v : V) (room : ℤ) : Prop :=
  ∀ m : ℕ → UInt8, m 0 = 0 → writes (d.val2str v room).blocks m (d.text v).length = 0

section Source

variable (d : Val2str V) (ps : Bool) (l : ℤ)

/-- `db_do_query` up to the conditions. -/
def print_select (q : Query V) : Printer UInt8 :=
  match q.columns with
  | none => checked l ("select * from ".toList.map chr ++ q.table.s ++ [chr ' '])
  | some c => (checked l ("select ".toList.map chr)).seq
      ((call l fun l => db_print_columns l c).seq (checked l ("from ".toList.map chr ++ q.table.s ++ [chr ' '])))

def upto_last : List (Item V) → Printer UInt8
  | [] => Printer.skip
  | [x] => checked l (x.key.s ++ x.op.elim [chr '='] Name.s)
  | x :: xs => (print_item d ps l x).seq ((checked l AND).seq (upto_last xs))

def print_upto_last (x : List (Item V)) : Printed UInt8 :=
  if x.length = 0 ∨ l = 0 then ⟨[], none⟩ else upto_last d ps l x 0

/-- `db_do_query` up to the value of the last condition. -/
def before_last (q : Query V) : Printer UInt8 :=
  (print_select l q).seq ((checked l ("where ".toList.map chr)).seq
    (call l fun l => print_upto_last d ps l q.conditions))

theorem where_loop_last : ∀ (x : List (Item V)) (h : x ≠ []),
    where_loop d ps l x = (upto_last d ps l x).seq (value_or_mark d ps l (x.getLast h).v)
  | [], h => absurd rfl h
  | [_], _ => rfl
  | x :: x' :: xs, _ => by
    have hloop : where_loop d ps l (x :: x' :: xs) =
      (print_item d ps l x).seq ((checked l AND).seq (where_loop d ps l (x' :: xs))) := rfl
    have hupto : upto_last d ps l (x :: x' :: xs) =
      (print_item d ps l x).seq ((checked l AND).seq (upto_last d ps l (x' :: xs))) := rfl
    rw [hloop, hupto, where_loop_last (x' :: xs) (by simp), seq_assoc, seq_assoc, getLast_cons_cons]

theorem value_or_mark_shift (v : V) (k n : ℕ) :
    (value_or_mark d ps (l - n) v k).shift n = value_or_mark d ps l v (n + k) := by
  unfold value_or_mark
  split_ifs
  · rfl
  · unfold value
    rw [shift_shift, Int.sub_sub, ← Int.natCast_add]

theorem call_where_last {x : List (Item V)} (h : x ≠ []) : (call l fun l => db_print_where d ps l x) =
    (call l fun l => print_upto_last d ps l x).seq (value_or_mark d ps l (x.getLast h).v) := by
  ext1 n
  have hW : call l (fun l => db_print_where d ps l x) n = (db_print_where d ps (l - n) x).shift n := rfl
  have hU : call l (fun l => print_upto_last d ps l x) n = (print_upto_last d ps (l - n) x).shift n := rfl
  by_cases hg : x.length = 0 ∨ l - n = 0
  · have hw : db_print_where d ps (l - n) x = ⟨[], none⟩ := if_pos hg
    have hu : print_upto_last d ps (l - n) x = ⟨[], none⟩ := if_pos hg
    rw [seq_of_none (by rw [hU, hu]; rfl), hW, hU, hw, hu]
  · have hw : db_print_where d ps (l - n) x = where_loop d ps (l - n) x 0 := if_neg hg
    have hu : print_upto_last d ps (l - n) x = upto_last d ps (l - n) x 0 := if_neg hg
    rw [hu] at hU
    rw [hW, hw, where_loop_last d ps (l - n) x h]
    cases hk : (upto_last d ps (l - n) x 0).pos with
    | none => rw [seq_of_none hk, seq_of_none (by rw [hU, Printed.shift, hk]; rfl), hU]
    | some k =>
      have hpos : (call l (fun l => print_upto_last d ps l x) n).pos = some (n + k) := by
        rw [hU, Printed.shift, hk]
        rfl
      rw [seq_of_some hk, seq_of_some hpos, hU, ← value_or_mark_shift d ps l _ k n]
      unfold Printed.shift
      rw [map_append]

/-- **A query without an order** ends with the value of its last condition. -/
theorem print_query_last {q : Query V} (h : q.conditions ≠ []) (ho : q.order = none) :
    print_query d ps l q = (before_last d ps l q).seq (value_or_mark d ps l (q.conditions.getLast h).v) := by
  have hx : ¬ q.conditions.length = 0 := fun h0 => h (length_eq_zero_iff.1 h0)
  have hq : print_query d ps l q = (print_select l q).seq (((checked l ("where ".toList.map chr)).seq
      (call l fun l => db_print_where d ps l q.conditions)).seq Printer.skip) := by
    unfold print_query
    rw [if_neg hx, ho]
    rfl
  rw [hq, seq_skip, call_where_last d ps l h, before_last, seq_assoc, seq_assoc]

end Source

section Rules

variable {l : ℤ} {n k : ℕ} {text s t : Str} {p : Printer UInt8}

/-- What a successful `snprintf` wrote. -/
theorem checked_blocks (h : (checked l text n).pos = some k) :
    k = n + text.length ∧ (checked l text n).blocks = [(n, text ++ [0])] := by
  unfold checked at h ⊢
  dsimp only at h ⊢
  split_ifs at h with hlt
  cases h
  refine ⟨rfl, ?_⟩
  rw [if_neg (by omega), if_neg (by omega), take_of_length_le (by omega)]

theorem ends_checked (l : ℤ) (text : Str) : Ends 0 (checked l text) := by
  intro n k hk m
  obtain ⟨rfl, hb⟩ := checked_blocks hk
  rw [hb]
  have hw : writes [(n, text ++ [0])] m = write m n (text ++ [0]) := rfl
  rw [hw, write_inside (by rw [length_append]; exact Nat.lt_succ_self _)]
  simp

theorem tidy_checked (l : ℤ) (text : Str) : Tidy l (checked l text) := by
  intro n _ k hk
  obtain ⟨rfl, hb⟩ := checked_blocks hk
  refine ⟨Nat.le_add_right _ _, fun y hy => ?_⟩
  rw [hb, mem_singleton] at hy
  rw [hy, length_append, length_singleton, Nat.add_assoc]

theorem tidy_call {f : ℤ → Printed UInt8} (h : ∀ l, 0 ≤ l → ∀ k, (f l).pos = some k →
    ∀ y ∈ (f l).blocks, y.1 + y.2.length ≤ k + 1) : Tidy l (call l f) := by
  intro n hn k hk
  obtain ⟨j, hj, rfl⟩ := map_eq_some_iff.1 hk
  refine ⟨Nat.le_add_right _ _, fun y hy => ?_⟩
  obtain ⟨z, hz, rfl⟩ := List.mem_map.1 hy
  have := h (l - n) (by omega) j hj z hz
  dsimp only
  omega

theorem ends_call {f : ℤ → Printed UInt8} (h : ∀ l k, (f l).pos = some k →
    ∀ m, writes (f l).blocks m k = 0) : Ends 0 (call l f) := by
  intro n k hk m
  obtain ⟨j, hj, rfl⟩ := map_eq_some_iff.1 hk
  exact (writes_shift _ _ _).trans (h (l - n) j hj _)

theorem tidy_char (l : ℤ) (c : Char) : Tidy l (char c) := by
  intro n _ k hk
  cases hk
  refine ⟨Nat.le_succ n, fun y hy => ?_⟩
  obtain rfl := mem_singleton.1 hy
  exact Nat.le_succ (n + 1)

variable {V : Type} (d : TidyVal2str V) (ps : Bool)

theorem tidy_value_or_mark (v : V) : Tidy l (value_or_mark d.toVal2str ps l v) := by
  unfold value_or_mark
  split_ifs
  · exact tidy_char l '?'
  · exact tidy_call (f := fun l => d.val2str v l) fun l hl k hk => d.tidy v l hl k hk

theorem tidy_item (x : Item V) : Tidy l (print_item d.toVal2str ps l x) :=
  Tidy.seq (good_checked l _) (tidy_checked l _) (tidy_value_or_mark d ps x.v)

theorem tidy_upto_last : ∀ x : List (Item V), Tidy l (upto_last d.toVal2str ps l x)
  | [] => fun n _ k hk => by
    cases hk
    exact ⟨le_rfl, fun y hy => absurd hy not_mem_nil⟩
  | [_] => tidy_checked l _
  | x :: x' :: xs => Tidy.seq (good_item x) (tidy_item d ps x)
      (Tidy.seq (good_checked l _) (tidy_checked l _) (tidy_upto_last (x' :: xs)))

theorem ends_upto_last : ∀ x : List (Item V), x ≠ [] → Ends 0 (upto_last d.toVal2str ps l x)
  | [], h => absurd rfl h
  | [_], _ => ends_checked l _
  | _ :: x' :: xs, _ => (ends_upto_last (x' :: xs) (by simp)).seq.seq

theorem tidy_columns : ∀ c : List Name, Tidy l (columns_loop l c)
  | [] => fun n _ k hk => by
    cases hk
    exact ⟨le_rfl, fun y hy => absurd hy not_mem_nil⟩
  | [_] => tidy_checked l _
  | _ :: c' :: cs => Tidy.seq (good_checked l _) (tidy_checked l _) (tidy_columns (c' :: cs))

theorem select_rules (q : Query V) : (∃ text, Good l (print_select l q) text) ∧
    Tidy l (print_select l q) ∧ Ends 0 (print_select l q) := by
  unfold print_select
  cases q.columns with
  | none => exact ⟨⟨_, good_checked l _⟩, tidy_checked l _, ends_checked l _⟩
  | some c =>
    have hg := good_call (l := l) fun l hl => db_print_columns_prints hl c
    refine ⟨⟨_, (good_checked l _).seq (hg.seq (good_checked l _))⟩,
      Tidy.seq (good_checked l _) (tidy_checked l _) (Tidy.seq hg (tidy_call fun l hl k hk => ?_) (tidy_checked l _)),
      (ends_checked l _).seq.seq⟩
    unfold db_print_columns at hk ⊢
    split_ifs at hk ⊢
    exact (tidy_columns c 0 hl k hk).2

theorem before_last_rules (q : Query V) (hq : q.conditions ≠ []) :
    Tidy l (before_last d.toVal2str ps l q) ∧ Ends 0 (before_last d.toVal2str ps l q) := by
  obtain ⟨⟨text, hg⟩, ht, -⟩ := select_rules (l := l) q
  constructor
  · refine Tidy.seq hg ht (Tidy.seq (good_checked l _) (tidy_checked l _) (tidy_call fun l hl k hk => ?_))
    unfold print_upto_last at hk ⊢
    split_ifs at hk ⊢
    exact (tidy_upto_last d ps q.conditions 0 hl k hk).2
  · refine Ends.seq (Ends.seq (ends_call fun l k hk => ?_))
    unfold print_upto_last at hk ⊢
    split_ifs at hk ⊢
    exact ends_upto_last d ps q.conditions hq 0 k hk

/-- **What stands behind the last value**: it is the printer's own NUL. -/
theorem ends_value_iff {v : V} (ht : Tidy l p) (he : Ends 0 p) (hn : (0 : ℤ) ≤ l) (hp : (p 0).pos = some n) :
    (∀ m, writes (p.seq (value d.toVal2str l v) 0).blocks m (n + (d.text v).length) = 0) ↔
      LeavesNul d.toVal2str v (l - n) := by
  have hw : ∀ m, writes (p.seq (value d.toVal2str l v) 0).blocks m (n + (d.text v).length) =
      writes (d.val2str v (l - n)).blocks (fun i => writes (p 0).blocks m (n + i)) (d.text v).length := fun m => by
    rw [seq_of_some hp, writes_append]
    exact writes_shift _ _ _
  simp only [hw]
  constructor
  · intro h m hm
    have heq : (fun i => writes (p 0).blocks (fun i => m (i - n)) (n + i)) = m := by
      ext1 i
      by_cases hi : i = 0
      · rw [hi, hm]
        exact he 0 n hp _
      · rw [ht.outside hn hp (by omega), Nat.add_sub_cancel_left]
    have := h fun i => m (i - n)
    rwa [heq] at this
  · exact fun h m => h _ (he 0 n hp m)

/-- Nothing stands behind a `?`. -/
theorem not_ends_mark (ht : Tidy l p) (hn : (0 : ℤ) ≤ l) (hp : (p 0).pos = some n) :
    ¬ ∀ m, writes (p.seq (char '?') 0).blocks m (n + 1) = 0 := by
  intro h
  have h1 := h fun _ => 1
  rw [seq_of_some hp, writes_append] at h1
  have hmark : writes (char '?' n).blocks (writes (p 0).blocks fun _ => 1) (n + 1) =
      write (writes (p 0).blocks fun _ => 1) n [chr '?'] (n + 1) := rfl
  rw [hmark, write_outside (.inr (by rw [length_singleton])), ht.outside hn hp (Nat.lt_succ_self n)] at h1
  exact absurd h1 (by decide)

end Rules

section Submitted

variable (d : TidyVal2str V) (ps : Bool)

/-- The query has an order, no condition, or a value in its last condition that leaves a NUL behind its text. -/
def Query.EndsWithNul (q : Query V) : Prop :=
  q.order ≠ none ∨ ∀ h : q.conditions ≠ [], ps = false ∧
    LeavesNul d.toVal2str (q.conditions.getLast h).v (SQL_BUF_LEN -
      ((query_text d.toVal2str ps q).length - (d.text (q.conditions.getLast h).v).length : ℕ))

/-- What is behind a query before `terminate`. -/
theorem query_ends_iff {q : Query V} {off : ℕ}
    (h : (print_query d.toVal2str ps SQL_BUF_LEN q 0).pos = some off) :
    (∀ m, writes (print_query d.toVal2str ps SQL_BUF_LEN q 0).blocks m off = 0) ↔ q.EndsWithNul d ps := by
  obtain ⟨-, hts, hes⟩ := select_rules (l := SQL_BUF_LEN) q
  have hoff := ((good_query d.toVal2str ps (l := SQL_BUF_LEN) q 0 (by decide)).behind off h).1
  rw [zero_add] at hoff
  unfold Query.EndsWithNul
  cases ho : q.order with
  | some o =>
    refine iff_of_true ?_ (.inl (some_ne_none o))
    have hends : Ends 0 (print_query d.toVal2str ps SQL_BUF_LEN q) := by
      unfold print_query
      rw [ho]
      exact (ends_checked _ _).seq.seq
    exact hends 0 off h
  | none =>
    rw [or_iff_right fun h => h rfl]
    by_cases hx : q.conditions = []
    · refine iff_of_true ?_ fun h => absurd hx h
      have hq : print_query d.toVal2str ps SQL_BUF_LEN q =
          (print_select SQL_BUF_LEN q).seq (Printer.skip.seq Printer.skip) := by
        unfold print_query
        rw [if_pos (length_eq_zero_iff.2 hx), ho]
        rfl
      rw [hq, seq_skip, seq_skip] at h ⊢
      exact hes 0 off h
    · obtain ⟨ht, he⟩ := before_last_rules (l := SQL_BUF_LEN) d ps q hx
      rw [forall_prop_of_true hx]
      rw [print_query_last d.toVal2str ps SQL_BUF_LEN hx ho] at h ⊢
      obtain ⟨n, hn, hlast⟩ := seq_pos.1 h
      cases ps with
      | true =>
        have hmark : value_or_mark d.toVal2str true SQL_BUF_LEN (q.conditions.getLast hx).v = char '?' := if_pos rfl
        rw [hmark] at hlast ⊢
        cases hlast
        exact iff_of_false (not_ends_mark ht (by decide) hn) fun h => nomatch h.1
      | false =>
        have hvalue : value_or_mark d.toVal2str false SQL_BUF_LEN (q.conditions.getLast hx).v =
            value d.toVal2str SQL_BUF_LEN (q.conditions.getLast hx).v := if_neg Bool.false_ne_true
        rw [hvalue] at hlast ⊢
        have hnl : (n : ℤ) ≤ SQL_BUF_LEN := by
          have h1 := ((good_query d.toVal2str false (l := SQL_BUF_LEN) q 0 (by decide)).behind off (by
            rw [print_query_last d.toVal2str false SQL_BUF_LEN hx ho, hvalue]
            exact h)).2
          have h2 : n ≤ off := value_forward hlast
          omega
        obtain ⟨rfl, -⟩ := (good_value SQL_BUF_LEN (q.conditions.getLast hx).v n hnl).behind off hlast
        rw [ends_value_iff d ht he (by decide) hn, ← hoff, Nat.add_sub_cancel, and_iff_right rfl]

def Statement.EndsWithNul : Statement V → Prop
  | query q => q.EndsWithNul d ps
  | _ => True

/-- **The statements that are submitted** hold their text and a NUL at its end: an insert, a delete and an
update always, a query if and only if it has an order or no condition or the printer of its last value
leaves a NUL. -/
theorem statement_terminated (s : Statement V) {off : ℕ} (h : (s.build d.toVal2str ps).pos = some off) :
    Terminated (s.build d.toVal2str ps) (s.text d.toVal2str ps) ↔ s.EndsWithNul d ps := by
  have hlen : (0 : ℤ) ≤ SQL_BUF_LEN := by decide
  cases s with
  | query q =>
    have hprints := db_do_query_prints d.toVal2str ps q
    simp only [Statement.build] at h ⊢
    obtain ⟨j, hj, hk⟩ := seq_pos.1 h
    have hroom : ¬ (j : ℤ) + 1 ≥ SQL_BUF_LEN := fun hge => by
      rw [terminate, if_pos hge] at hk
      cases hk
    rw [Statement.EndsWithNul, ← query_ends_iff d ps hj]
    have hlast : ∀ m, writes (db_do_query d.toVal2str ps q).blocks m j =
        writes (print_query d.toVal2str ps SQL_BUF_LEN q 0).blocks m j := fun m => by
      rw [db_do_query, seq_of_some hj, writes_append, terminate, if_neg hroom]
      exact write_outside (.inl (Nat.lt_succ_self j))
    have hjl := ((good_query d.toVal2str ps (l := SQL_BUF_LEN) q 0 hlen).behind j hj).1
    rw [Nat.zero_add] at hjl
    have hpos : (db_do_query d.toVal2str ps q).pos = some j := by
      rw [db_do_query, seq_of_some hj, terminate, if_neg hroom]
    simp only [← hlast]
    unfold Terminated Statement.text
    rw [← hjl, and_iff_right hpos]
    refine forall_congr' fun m => and_iff_right ?_
    have hread := hprints.text (by rw [hpos]; exact some_ne_none j) m
    rwa [← hjl] at hread
  | insert table cells =>
    refine iff_of_true ?_ trivial
    simp only [Statement.build, db_do_insert] at h ⊢
    split_ifs at h ⊢
    exact terminated_insert hlen h
  | delete table conditions =>
    refine iff_of_true ?_ trivial
    simp only [Statement.build, db_do_delete] at h ⊢
    exact terminated_delete hlen h
  | update table cells conditions =>
    refine iff_of_true ?_ trivial
    simp only [Statement.build, db_do_update] at h ⊢
    split_ifs at h ⊢
    exact terminated_update hlen h

def plain_pg : PgClient := ⟨fun s => (s, false), plain.escape_length, fun _ => none⟩

def pg_nulls : TidyVal2str Unit where
  val2str _ l := db_postgres_val2str no_formats plain_pg .null l
  text _ := pg_text no_formats plain_pg .null
  respects _ _ hl := (db_postgres_val2str_iff no_formats plain_pg .null hl).2 fun _ h => nomatch h
  tidy _ l _ k hk y hy := by
    unfold db_postgres_val2str at hk hy
    dsimp only at hk hy
    split_ifs at hk hy
    obtain rfl := some.inj hk
    obtain rfl := mem_singleton.1 hy
    decide

def name_of (c : Char) (h : chr c ≠ 0) : Name := ⟨[chr c], fun h0 => h (mem_singleton.1 h0).symm⟩

/-- `insert into t (a ) values (NULL)` -/
theorem statement_terminated_insert : Terminated
    ((Statement.insert (name_of 't' (by decide)) [(name_of 'a' (by decide), ())]).build pg_nulls.toVal2str false)
    ((Statement.insert (name_of 't' (by decide)) [(name_of 'a' (by decide), ())]).text pg_nulls.toVal2str false) := by
  have hpos : ((Statement.insert (name_of 't' (by decide)) [(name_of 'a' (by decide), ())]).build
      pg_nulls.toVal2str false).pos = some 32 := by decide
  exact (statement_terminated pg_nulls false _ hpos).2 trivial

/-- `select * from t where a=NULL` ends with what was in the buffer. -/
theorem query_unterminated : ∃ q : Query Unit, (db_do_query pg_nulls.toVal2str false q).pos = some 28 ∧
    writes (db_do_query pg_nulls.toVal2str false q).blocks (fun _ => 1) 28 = 1 := by
  refine ⟨⟨name_of 't' (by decide), none, [⟨name_of 'a' (by decide), none, ()⟩], none⟩, ?_, ?_⟩
  · decide
  · decide

end Submitted

end Last

end OpenSips.DbPrint
