import OpenSips.Mi.Tree
import OpenSips.Parser.FirstLine

/-!
# OpenSips.Mi.Attributes — the attributes of a node (`mi/attr.c`)

The list of a node grows at its end.  An attribute is known by its place in the list, which is what
stands for its address here.
-/

namespace OpenSips.Mi.Attributes

open Tree List Option

/-- `strncasecmp(s, t, n) == 0`, which ends at a NUL. -/
def strncasecmp_eq (s t : Str) (n : ℕ) : Bool :=
  (cstr (s.take n)).map FirstLine.tolower = (cstr (t.take n)).map FirstLine.tolower

/-- `len == head->name.len && !strncasecmp(name, head->name.s, head->name.len)` -/
def same_name (name stored : Str) : Bool :=
  name.length = stored.length && strncasecmp_eq name stored stored.length

/-- The loop to the last attribute, and `p->next = new`. -/
def append_attr (new : MiAttr) : List MiAttr → List MiAttr
  | [] => [new]
  | p :: rest => p :: append_attr new rest

/-- The arguments are those of a node too. -/
def add_mi_attr (node : MiNode) (c : NodeArgs) : MiNode × Option ℕ :=
  if (c.name = [] ∧ c.value = []) ∨ c.mem = false then (node, none)
  else
    ({ node with attributes := append_attr {
          name := node_text (c.flags &&& MI_DUP_NAME) c.name
          value := node_text (c.flags &&& MI_DUP_VALUE) c.value } node.attributes },
      some node.attributes.length)

/-- `for(head = node->attributes; head->next; head = head->next)`, at the attribute `i`. -/
def attr_loop (name : Str) : List MiAttr → ℕ → Option ℕ
  | [], _ | [_], _ => none
  | head :: rest, i => if same_name name (head.name.getD []) then some i else attr_loop name rest (i + 1)

def get_mi_attr_by_name (node : MiNode) (name : Option Str) : Option ℕ :=
  name.bind fun name => attr_loop name node.attributes 0

/-- The node after the calls of `add_mi_attr`. -/
def add_attrs (node : MiNode) (calls : List NodeArgs) : MiNode :=
  calls.foldl (fun node c => (add_mi_attr node c).1) node

/-- The calls that add an attribute. -/
def adds (c : NodeArgs) : Bool := !decide ((c.name = [] ∧ c.value = []) ∨ c.mem = false)

/-- The names that a node has and is given, in this order. -/
def names (node : MiNode) (calls : List NodeArgs) : List Str :=
  node.attributes.map (·.name.getD []) ++ (calls.filter adds).map (·.name)

variable {node : MiNode} {name : Str}

theorem append_attr_eq (new : MiAttr) (l : List MiAttr) : append_attr new l = l ++ [new] := by
  induction l with
  | nil => rfl
  | cons p l ih => exact congrArg (p :: ·) ih

theorem attr_loop_eq (name : Str) (l : List MiAttr) (i : ℕ) : attr_loop name l i =
    (l.dropLast.findIdx? fun a => same_name name (a.name.getD [])).map (· + i) := by
  induction l generalizing i with
  | nil => rfl
  | cons head l ih =>
    cases l with
    | nil => rfl
    | cons next rest =>
      rw [attr_loop, dropLast_cons_cons, findIdx?_cons]
      by_cases h : same_name name (head.name.getD []) = true
      · rw [if_pos h, if_pos h, map_some, Nat.zero_add]
      · rw [if_neg h, if_neg h, ih (i + 1), Option.map_map]
        congr 1
        funext j
        exact (Nat.add_right_comm j 1 i).symm
      · exact fun h => cons_ne_nil _ _ h

theorem strncpy_length (s : Str) : (strncpy s).length = s.length := by
  have hle : (cstr s).length ≤ s.length := (takeWhile_sublist _).length_le
  rw [strncpy, length_append, length_replicate, Nat.add_sub_cancel' hle]

theorem cstr_strncpy (s : Str) : cstr (strncpy s) = cstr s := by
  have hc : ∀ c ∈ cstr s, decide (c ≠ 0) = true := fun c hc =>
    mem_takeWhile_imp (p := fun c => decide (c ≠ 0)) hc
  show ((cstr s ++ _).takeWhile fun c => decide (c ≠ 0)) = _
  rw [takeWhile_append_of_pos hc]
  cases s.length - (cstr s).length <;> exact append_nil _

theorem same_name_text (name given : Str) (dup : UInt32) :
    same_name name ((node_text dup given).getD []) = same_name name given := by
  rw [node_text]
  by_cases hg : given = []
  · rw [if_pos hg, hg]
    rfl
  · rw [if_neg hg, getD_some]
    by_cases hd : dup = 0
    · rw [if_pos hd]
    · rw [if_neg hd, same_name, same_name, strncpy_length, strncasecmp_eq, strncasecmp_eq,
        take_length, take_of_length_le (strncpy_length given).le, cstr_strncpy]

theorem names_add (node : MiNode) (calls : List NodeArgs) :
    (add_attrs node calls).attributes.map (fun a => same_name name (a.name.getD [])) =
      (names node calls).map (same_name name) := by
  induction calls generalizing node with
  | nil =>
    show node.attributes.map _ = (node.attributes.map _ ++ []).map _
    rw [append_nil, List.map_map]
    rfl
  | cons c calls ih =>
    show (add_attrs (add_mi_attr node c).1 calls).attributes.map _ = _
    rw [ih, names, names, add_mi_attr]
    by_cases hc : (c.name = [] ∧ c.value = []) ∨ c.mem = false
    · have ha : ¬adds c = true := by rw [adds, decide_eq_true hc]; exact Bool.false_ne_true
      rw [if_pos hc, filter_cons_of_neg ha]
    · have ha : adds c = true := by rw [adds, decide_eq_false hc]; rfl
      rw [if_neg hc, filter_cons_of_pos ha]
      rw [append_attr_eq]
      simp only [map_append, map_cons, map_nil, same_name_text, append_assoc, cons_append, nil_append]

/-- The first of a list that has a property is missed without the last element if and only if that is the
only one. -/
theorem findIdx?_dropLast {α : Type*} (p : α → Bool) (l : List α) :
    l.dropLast.findIdx? p = l.findIdx? p ↔
      ¬∃ before last, l = before ++ [last] ∧ p last = true ∧ ∀ x ∈ before, p x = false := by
  rcases l.eq_nil_or_concat with rfl | ⟨before, last, rfl⟩
  · refine iff_of_true rfl ?_
    rintro ⟨before, last, hl, -⟩
    exact absurd hl.symm (append_ne_nil_of_right_ne_nil before (cons_ne_nil last []))
  · rw [concat_eq_append, dropLast_concat, findIdx?_append]
    cases hb : before.findIdx? p with
    | some i =>
      refine iff_of_true rfl ?_
      rintro ⟨before', last', hl, -, hno⟩
      obtain ⟨rfl, -⟩ := append_inj' hl rfl
      have hn : before.findIdx? p = none := findIdx?_eq_none_iff.2 hno
      exact absurd (hb.symm.trans hn) (some_ne_none i)
    | none =>
      have hno : ∀ x ∈ before, p x = false := findIdx?_eq_none_iff.1 hb
      rw [findIdx?_singleton]
      by_cases hl : p last = true
      · rw [if_pos hl]
        refine iff_of_false (some_ne_none _).symm ?_
        exact not_not.2 ⟨before, last, rfl, hl, hno⟩
      · rw [if_neg hl]
        refine iff_of_true rfl ?_
        rintro ⟨before', last', he, hp, -⟩
        obtain ⟨-, he⟩ := append_inj' he rfl
        exact hl ((cons.inj he).1 ▸ hp)

theorem get_mi_attr_eq (node : MiNode) (calls : List NodeArgs) (name : Str) :
    get_mi_attr_by_name (add_attrs node calls) (some name) =
      (names node calls).dropLast.findIdx? (same_name name) := by
  show attr_loop name _ 0 = _
  have hm := congrArg List.dropLast (@names_add name node calls)
  rw [← map_dropLast, ← map_dropLast] at hm
  have hf := congrArg (List.findIdx? id) hm
  rw [findIdx?_map, findIdx?_map] at hf
  rw [attr_loop_eq]
  exact Option.map_id'.trans hf

/-- **The attributes of a node.**  A name finds the first attribute that has it, or none if there is none,
if and only if it is not the last attribute alone that has it. -/
theorem attributes_found (node : MiNode) (calls : List NodeArgs) (name : Str) :
    get_mi_attr_by_name (add_attrs node calls) (some name) =
      (names node calls).findIdx? (same_name name) ↔
    ¬∃ before last, names node calls = before ++ [last] ∧ same_name name last = true ∧
      ∀ n ∈ before, same_name name n = false := by
  rw [get_mi_attr_eq]
  exact findIdx?_dropLast _ _

/-- `ID`, the only attribute. -/
def idOnly : NodeArgs := { name := [73, 68], value := [49], flags := 0, mem := true }

theorem only_attribute_missed : ¬∀ (node : MiNode) (calls : List NodeArgs) (name : Str),
    (∀ c ∈ calls, c.name ≠ []) → get_mi_attr_by_name (add_attrs node calls) (some name) =
      (names node calls).findIdx? (same_name name) := by
  intro h
  have hc := h { value := none, name := none, flags := 0, attributes := [] } [idOnly] [105, 100]
    (by decide)
  revert hc
  decide

end OpenSips.Mi.Attributes
