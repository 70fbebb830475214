import OpenSips.Uri.Turns

/-!
# OpenSips.Uri.Words — the states that spell the name or the value of a parameter

Inside a parameter a state stands for the text read since its start, in lower case; where the text
is no longer a beginning of a known parameter the states are `URI_PARAM_P` and `URI_VAL_P`.
-/

namespace OpenSips.Uri

open Lib List Option

def param_name : Param → Str
  | .transport => ['t', 'r', 'a', 'n', 's', 'p', 'o', 'r', 't'].map chr
  | .ttl => ['t', 't', 'l'].map chr
  | .user_param => ['u', 's', 'e', 'r'].map chr
  | .maddr => ['m', 'a', 'd', 'd', 'r'].map chr
  | .method => ['m', 'e', 't', 'h', 'o', 'd'].map chr
  | .lr => ['l', 'r'].map chr
  | .r2 => ['r', '2'].map chr

def transport_word (value : List Char) : Option Str :=
  some (param_name .transport ++ chr '=' :: value.map chr)

def name_word (k : Param) (n : ℕ) : Option Str := some ((param_name k).take n)

def word : State → Option Str
  | .URI_PARAM => some []
  | .PT_T => name_word .transport 1
  | .PT_R => name_word .transport 2
  | .PT_A => name_word .transport 3
  | .PT_N => name_word .transport 4
  | .PT_S => name_word .transport 5
  | .PT_P => name_word .transport 6
  | .PT_O => name_word .transport 7
  | .PT_R2 => name_word .transport 8
  | .PT_T2 => name_word .transport 9
  | .PT_eq => transport_word []
  | .VU_U => transport_word ['u']
  | .VU_D => transport_word ['u', 'd']
  | .VU_P_FIN => transport_word ['u', 'd', 'p']
  | .VT_T => transport_word ['t']
  | .VT_C => transport_word ['t', 'c']
  | .VT_P_FIN => transport_word ['t', 'c', 'p']
  | .VTLS_L => transport_word ['t', 'l']
  | .VTLS_S_FIN => transport_word ['t', 'l', 's']
  | .VS_S => transport_word ['s']
  | .VS_C => transport_word ['s', 'c']
  | .VS_T => transport_word ['s', 'c', 't']
  | .VS_P_FIN => transport_word ['s', 'c', 't', 'p']
  | .PTTL_T2 => name_word .ttl 2
  | .PTTL_L => name_word .ttl 3
  | .PTTL_eq => some (param_name .ttl ++ [chr '='])
  | .PU_U => name_word .user_param 1
  | .PU_S => name_word .user_param 2
  | .PU_E => name_word .user_param 3
  | .PU_R => name_word .user_param 4
  | .PU_eq => some (param_name .user_param ++ [chr '='])
  | .PM_M => name_word .method 1
  | .PM_E => name_word .method 2
  | .PM_T => name_word .method 3
  | .PM_H => name_word .method 4
  | .PM_O => name_word .method 5
  | .PM_D => name_word .method 6
  | .PM_eq => some (param_name .method ++ [chr '='])
  | .PMA_A => name_word .maddr 2
  | .PMA_D => name_word .maddr 3
  | .PMA_D2 => name_word .maddr 4
  | .PMA_R => name_word .maddr 5
  | .PMA_eq => some (param_name .maddr ++ [chr '='])
  | .PLR_L => name_word .lr 1
  | .PLR_R_FIN => name_word .lr 2
  | .PLR_eq => some (param_name .lr ++ [chr '='])
  | _ => none

/-- The state in front of the last character of its word. -/
def prev : State → State
  | .PT_T | .PU_U | .PM_M | .PLR_L => .URI_PARAM
  | .PT_R | .PTTL_T2 => .PT_T
  | .PT_A => .PT_R
  | .PT_N => .PT_A
  | .PT_S => .PT_N
  | .PT_P => .PT_S
  | .PT_O => .PT_P
  | .PT_R2 => .PT_O
  | .PT_T2 => .PT_R2
  | .PT_eq => .PT_T2
  | .VU_U | .VT_T | .VS_S => .PT_eq
  | .VU_D => .VU_U
  | .VU_P_FIN => .VU_D
  | .VT_C | .VTLS_L => .VT_T
  | .VT_P_FIN => .VT_C
  | .VTLS_S_FIN => .VTLS_L
  | .VS_C => .VS_S
  | .VS_T => .VS_C
  | .VS_P_FIN => .VS_T
  | .PTTL_L => .PTTL_T2
  | .PTTL_eq => .PTTL_L
  | .PU_S => .PU_U
  | .PU_E => .PU_S
  | .PU_R => .PU_E
  | .PU_eq => .PU_R
  | .PM_E | .PMA_A => .PM_M
  | .PM_T => .PM_E
  | .PM_H => .PM_T
  | .PM_O => .PM_H
  | .PM_D => .PM_O
  | .PM_eq => .PM_D
  | .PMA_D => .PMA_A
  | .PMA_D2 => .PMA_D
  | .PMA_R => .PMA_D2
  | .PMA_eq => .PMA_R
  | .PLR_R_FIN => .PLR_L
  | .PLR_eq => .PLR_R_FIN
  | st => st

theorem eq_of_lower {ch x : UInt8} (h : lower ch = x) : ch = x ∨ ch = x - 32 := by
  unfold lower at h
  split at h
  · refine .inr ?_
    rw [← h, UInt8.add_sub_cancel]
  · exact .inl h

theorem word_move {st : State} {ch : UInt8} (hch : ¬ ends ch) {w : Str}
    (hw : word (move st ch) = some w) : ∃ v, word st = some v ∧ w = v ++ [lower ch] := by
  obtain ⟨h1, h2, h3⟩ : ch ≠ chr '@' ∧ ch ≠ chr ';' ∧ ch ≠ chr '?' := by
    simpa only [ends, not_or] using hch
  cases st <;> simp only [move, turn, param_switch, param_switch1, param_switch_big, value_switch,
    value_switch_big, transport_fin, value_start, flag_fin, param_common_cases,
    value_common_cases, check_host_end, case_port, h1, h2, h3, if_false] at hw
  all_goals
    try split_ifs at hw
  all_goals first
    | exact absurd (show none = some w from hw).symm (some_ne_none w)
    | (cases hw
       rcases ‹ch = _ ∨ ch = _› with rfl | rfl <;> exact ⟨_, rfl, rfl⟩)
    | (cases hw
       obtain rfl := ‹ch = _›
       exact ⟨_, rfl, rfl⟩)

theorem word_prev {t : State} {v : Str} {x : UInt8} (h : word t = some (v ++ [x])) :
    ∃ s, word s = some v ∧ ∀ c, lower c = x → move s c = t := by
  have hv : (word t).map List.dropLast = some v := by
    rw [h, map_some, dropLast_concat]
  have hx : (word t).bind List.getLast? = some x := by
    rw [h, bind_some, getLast?_concat]
  refine ⟨prev t, ?_⟩
  clear h
  cases t <;> first
    | exact absurd (show none = some v from hv).symm (some_ne_none _)
    | exact absurd (show none = some x from hx).symm (some_ne_none _)
    | (refine ⟨hv, fun c hc => ?_⟩
       cases hx
       rcases eq_of_lower hc with rfl | rfl <;> first
         | rfl
         | exact absurd hc (by decide))

/-- **The state behind a text stands for it.** -/
theorem foldl_move_iff {q : Str} (hq : ∀ c ∈ q, ¬ ends c) {t : State} {w : Str} (ht : word t = some w) :
    q.foldl move .URI_PARAM = t ↔ q.map lower = w := by
  constructor
  · intro e
    rw [← e] at ht
    have h0 : word .URI_PARAM = some [] := rfl
    exact (word_read h0 (fun c hc s w hw => word_move (hq c hc) hw) ht).symm
  · rintro rfl
    refine read_word _ (fun t h0 => ?_) (fun t v x hx => word_prev hx) ht
    cases t <;> first
      | rfl
      | exact absurd (show none = some [] from h0).symm (some_ne_none _)
      | exact absurd (some.inj h0) (cons_ne_nil _ _)

end OpenSips.Uri
