import OpenSips.Uri.Words
import Mathlib.Data.List.TakeWhile

/-!
# OpenSips.Uri.Params — what is recorded of one parameter

A parameter `name=value` is recorded when its name is one of the known ones, in any case, and its
value is neither empty nor starts with a colon; `lr` also without a value.
-/

namespace OpenSips.Uri

open Lib List Option

/-- The name of a parameter, up to the first `=`. -/
def pname (q : Str) : Str := q.takeWhile (· ≠ chr '=')

/-- What is behind the first `=`. -/
def pvalue (q : Str) : Str := q.drop ((pname q).length + 1)

def Named (k : Param) (q : Str) : Prop := (pname q).map lower = param_name k

def Valued (q : Str) : Prop := ∃ c, (pvalue q).head? = some c ∧ c ≠ chr ':'

instance (k : Param) (q : Str) : Decidable (Named k q) :=
  inferInstanceAs (Decidable (_ = _))

instance (q : Str) : Decidable (Valued q) :=
  match h : (pvalue q).head? with
  | none => isFalse fun ⟨c, hc, _⟩ => by rw [h] at hc; cases hc
  | some c =>
    if hc : c = chr ':' then isFalse fun ⟨d, hd, hne⟩ => by
      rw [h] at hd
      cases hd
      exact hne hc
    else isTrue ⟨c, h, hc⟩

def proto_named (value : Str) : Proto :=
  if value.map lower = ['u', 'd', 'p'].map chr then .PROTO_UDP
  else if value.map lower = ['t', 'c', 'p'].map chr then .PROTO_TCP
  else if value.map lower = ['t', 'l', 's'].map chr then .PROTO_TLS
  else if value.map lower = ['s', 'c', 't', 'p'].map chr then .PROTO_SCTP
  else .PROTO_NONE

theorem pname_cons {n val : Str} (hn : chr '=' ∉ n) : pname (n ++ chr '=' :: val) = n := by
  rw [pname, takeWhile_append_of_pos]
  · rw [takeWhile_cons_of_neg (by simp), append_nil]
  · intro c hc
    simp only [ne_eq, decide_not, Bool.not_eq_eq_eq_not, Bool.not_true, decide_eq_false_iff_not]
    rintro rfl
    exact hn hc

theorem pvalue_cons {n val : Str} (hn : chr '=' ∉ n) : pvalue (n ++ chr '=' :: val) = val := by
  rw [pvalue, pname_cons hn, drop_append, drop_eq_nil_of_le (Nat.le_succ _)]
  simp

/-- Every text with an `=` is a name and a value. -/
theorem split_at_eq {q : Str} (h : chr '=' ∈ q) :
    q = pname q ++ chr '=' :: pvalue q ∧ chr '=' ∉ pname q := by
  obtain ⟨n, val, rfl, hn⟩ := eq_append_cons_of_mem h
  rw [pname_cons hn, pvalue_cons hn]
  exact ⟨rfl, hn⟩

theorem pname_of_no_eq {q : Str} (h : chr '=' ∉ q) : pname q = q ∧ pvalue q = [] := by
  have hn : pname q = q := by
    refine takeWhile_eq_self_iff.2 fun c hc => ?_
    simp only [ne_eq, decide_not, Bool.not_eq_eq_eq_not, Bool.not_true, decide_eq_false_iff_not]
    rintro rfl
    exact h hc
  exact ⟨hn, by rw [pvalue, hn, drop_eq_nil_of_le (Nat.le_succ _)]⟩

theorem param_name_inj {k k' : Param} (h : param_name k = param_name k') : k = k' := by
  revert h
  cases k <;> cases k' <;> decide

section States

/-- The states of `r2`: no character leads to them. -/
def of_r2 : State → Bool
  | .PR2_R | .PR2_2_FIN | .PR2_eq => true
  | _ => false

variable {st : State} {ch : UInt8}

/-- A value starts behind `name=`, unless with a colon, and lasts to the end of the parameter. -/
theorem in_value_move (h : in_params st = true) (hch : ¬ ends ch) :
    in_value (move st ch) = (in_value st || ((behind_eq st).isSome && decide (ch ≠ chr ':'))) := by
  obtain ⟨h1, h2, h3⟩ : ch ≠ chr '@' ∧ ch ≠ chr ';' ∧ ch ≠ chr '?' := by
    simpa only [ends, not_or] using hch
  by_cases hc : ch = chr ':'
  · subst hc
    cases st <;> first | exact absurd h Bool.false_ne_true | rfl
  · cases st <;> first
      | exact absurd h Bool.false_ne_true
      | (simp only [move, turn, param_switch, param_switch1, param_switch_big, value_switch,
          value_switch_big, transport_fin, value_start, flag_fin, param_common_cases,
          value_common_cases, h1, h2, h3, hc, if_false]
         (try split_ifs) <;> simp [in_value, behind_eq, hc])

theorem of_r2_move (h : in_params st = true) (hch : ¬ ends ch) (hr : of_r2 st = false) :
    of_r2 (move st ch) = false := by
  obtain ⟨h1, h2, h3⟩ : ch ≠ chr '@' ∧ ch ≠ chr ';' ∧ ch ≠ chr '?' := by
    simpa only [ends, not_or] using hch
  cases st <;> first
    | exact absurd h Bool.false_ne_true
    | exact absurd hr.symm Bool.false_ne_true
    | (simp only [move, turn, param_switch, param_switch1, param_switch_big, value_switch,
        value_switch_big, transport_fin, value_start, flag_fin, param_common_cases,
        value_common_cases, h1, h2, h3, if_false]
       split_ifs <;> rfl)

/-- The state behind `name=`. -/
def eq_state : Param → State
  | .transport => .PT_eq
  | .ttl => .PTTL_eq
  | .user_param => .PU_eq
  | .maddr => .PMA_eq
  | .method => .PM_eq
  | .lr => .PLR_eq
  | .r2 => .PR2_eq

theorem behind_eq_word {k : Param} (h : behind_eq st = some k) (hr : of_r2 st = false) :
    k ≠ .r2 ∧ word st = some (param_name k ++ [chr '=']) := by
  cases st <;> first
    | exact absurd (show none = some k from h).symm (some_ne_none _)
    | exact absurd hr.symm Bool.false_ne_true
    | (cases h
       exact ⟨by decide, rfl⟩)

theorem eq_state_word {k : Param} (hk : k ≠ .r2) :
    behind_eq (eq_state k) = some k ∧ word (eq_state k) = some (param_name k ++ [chr '=']) := by
  cases k <;> first | exact absurd rfl hk | exact ⟨rfl, rfl⟩

theorem behind_proto_word {pr : Proto} (h : behind_proto st = some pr) :
    ∃ value, word st = some (param_name .transport ++ chr '=' :: value) ∧
      value.map lower = value ∧ proto_named value = pr := by
  cases st <;> first
    | exact absurd (show none = some pr from h).symm (some_ne_none _)
    | (cases h
       exact ⟨_, rfl, rfl, rfl⟩)

theorem behind_flag_word {k : Param} (h : behind_flag st = some k) (hr : of_r2 st = false) :
    k = .lr ∧ word st = some (param_name .lr) := by
  cases st <;> first
    | exact absurd (show none = some k from h).symm (some_ne_none _)
    | exact absurd hr.symm Bool.false_ne_true
    | (cases h
       exact ⟨rfl, rfl⟩)

/-- Only the state of `lr=` records more at the end of the uri. -/
theorem recorded_last_eq {u : Vars} {p : ℕ} (hr : of_r2 u.state = false) :
    recorded_last u p = if u.state = .PLR_eq then flag_set u .lr p else recorded u p := by
  unfold recorded_last
  split
  · next h => rw [if_pos h]
  · next h => rw [h] at hr; exact absurd hr.symm Bool.false_ne_true
  · next h _ => rw [if_neg h]

end States

end OpenSips.Uri
