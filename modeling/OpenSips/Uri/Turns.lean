import OpenSips.Uri.Model

/-!
# OpenSips.Uri.Turns — what a character does inside the parameters

The states of the parameters differ in the state they go on with and in what they record when the
parameter ends; everything else is the same for all of them.
-/

namespace OpenSips.Uri

open Lib List

def in_params : State → Bool
  | .URI_INIT | .URI_USER | .URI_PASSWORD | .URI_PASSWORD_ALPHA | .URI_HOST | .URI_HOST_P
  | .URI_HOST6_P | .URI_HOST6_END | .URI_PORT | .URI_HEADERS => false
  | _ => true

def in_value : State → Bool
  | .URI_VAL_P | .VU_U | .VU_D | .VU_P_FIN | .VT_T | .VT_C | .VT_P_FIN | .VTLS_L | .VTLS_S_FIN
  | .VS_S | .VS_C | .VS_T | .VS_P_FIN => true
  | _ => false

/-- The states behind `name=`. -/
def behind_eq : State → Option Param
  | .PT_eq => some .transport
  | .PTTL_eq => some .ttl
  | .PU_eq => some .user_param
  | .PM_eq => some .method
  | .PMA_eq => some .maddr
  | .PLR_eq => some .lr
  | .PR2_eq => some .r2
  | _ => none

def behind_proto : State → Option Proto
  | .VU_P_FIN => some .PROTO_UDP
  | .VT_P_FIN => some .PROTO_TCP
  | .VTLS_S_FIN => some .PROTO_TLS
  | .VS_P_FIN => some .PROTO_SCTP
  | _ => none

def behind_flag : State → Option Param
  | .PLR_R_FIN => some .lr
  | .PR2_2_FIN => some .r2
  | _ => none

/-- A state behind `name=` sets `param`. -/
def entered (u : Vars) : Vars :=
  match behind_eq u.state with
  | some k => { u with param := some k }
  | none => u

def recorded (u : Vars) (p : ℕ) : Vars :=
  if in_value u.state then
    match behind_proto u.state with
    | some proto => proto_set (param_set u p) proto
    | none => param_set u p
  else
    match behind_flag u.state with
    | some k => flag_set u k p
    | none => u

/-- The state a character inside a parameter leads to. -/
def move (st : State) (ch : UInt8) : State :=
  match turn { start .SIP_URI_T 0 with state := st } 0 ch with
  | .ok u => u.state
  | .error _ => st

def went_on (u : Vars) (p : ℕ) (ch : UInt8) : Vars :=
  { entered u with
    state := move u.state ch
    b := if u.state = .URI_PARAM ∧ lower ch ∈ ['t', 'u', 'm', 'l', 'r'].map chr then p else u.b
    v := if (behind_eq u.state).isSome ∧ ch ≠ chr ':' then p else u.v }

/-- The characters that end a parameter, or the user. -/
def ends (ch : UInt8) : Prop := ch = chr '@' ∨ ch = chr ';' ∨ ch = chr '?'

instance (ch : UInt8) : Decidable (ends ch) := inferInstanceAs (Decidable (_ ∨ _ ∨ _))

theorem lower_eq {c : Char} (hc : 97 ≤ c.toNat ∧ c.toNat ≤ 122) (ch : UInt8) :
    lower ch = chr c ↔ ch = chr c ∨ ch = chr c - 32 := by
  have hcc : (chr c).toNat = c.toNat := by
    simp [chr]
    omega
  unfold lower
  simp only [UInt8.le_iff_toNat_le, ← UInt8.toNat_inj]
  have h1 : (chr 'A').toNat = 65 := rfl
  have h2 : (chr 'Z').toNat = 90 := rfl
  have h3 := ch.toNat_lt
  have h4 : (chr c - 32).toNat = c.toNat - 32 := by
    rw [UInt8.toNat_sub_of_le _ _ (by rw [UInt8.le_iff_toNat_le, hcc]; simp; omega), hcc]
    rfl
  rw [h1, h2, h4, hcc]
  by_cases h : 65 ≤ ch.toNat ∧ ch.toNat ≤ 90
  · rw [if_pos h, UInt8.toNat_add]
    simp
    omega
  · rw [if_neg h]
    omega

section Within

variable {u : Vars} {p : ℕ} {ch : UInt8}

theorem semicolon_case_set (u : Vars) (p : ℕ) :
    param_set (semicolon_case u) p = semicolon_case (param_set u p) := by
  cases hp : u.pass <;> cases hk : u.param <;> simp [param_set, semicolon_case, no_user, hp, hk]

theorem question_case_set (u : Vars) (p : ℕ) :
    param_set (question_case u p) p = question_case (param_set u p) p := by
  cases hp : u.pass <;> cases hk : u.param <;> simp [param_set, question_case, no_user, hp, hk]

theorem semicolon_case_flag (u : Vars) (k : Param) (p : ℕ) :
    flag_set (semicolon_case u) k p = semicolon_case (flag_set u k p) := by
  cases hp : u.pass <;> simp [flag_set, semicolon_case, no_user, hp]

theorem question_case_flag (u : Vars) (k : Param) (p : ℕ) :
    flag_set (question_case u p) k p = question_case (flag_set u k p) p := by
  cases hp : u.pass <;> simp [flag_set, question_case, no_user, hp]

theorem semicolon_case_proto (u : Vars) (proto : Proto) :
    proto_set (semicolon_case u) proto = semicolon_case (proto_set u proto) := by
  cases hp : u.pass <;> simp [proto_set, semicolon_case, no_user, hp]

theorem question_case_proto (u : Vars) (p : ℕ) (proto : Proto) :
    proto_set (question_case u p) proto = question_case (proto_set u proto) p := by
  cases hp : u.pass <;> simp [proto_set, question_case, no_user, hp]

section

variable (h : in_params u.state = true)
include h

/-- **The end of a parameter**: what is recorded depends on the state, nothing else does. -/
theorem turn_semicolon : turn u p (chr ';') = .ok (semicolon_case (recorded (entered u) p)) := by
  obtain ⟨st, s, b, v, param, port_no, pass, found_user, error_headers, uri⟩ := u
  cases st <;> first
    | exact absurd h Bool.false_ne_true
    | rfl
    | exact congrArg _ (semicolon_case_set _ p)
    | exact congrArg _ (semicolon_case_flag _ _ p)
    | exact congrArg _ ((congrArg (proto_set · _) (semicolon_case_set _ p)).trans (semicolon_case_proto _ _))

theorem turn_question : turn u p (chr '?') = .ok (question_case (recorded (entered u) p) p) := by
  obtain ⟨st, s, b, v, param, port_no, pass, found_user, error_headers, uri⟩ := u
  cases st <;> first
    | exact absurd h Bool.false_ne_true
    | rfl
    | exact congrArg _ (question_case_set _ p)
    | exact congrArg _ (question_case_flag _ _ p)
    | exact congrArg _ ((congrArg (proto_set · _) (question_case_set _ p)).trans (question_case_proto _ _ _))

theorem turn_at : turn u p (chr '@') = still_at_user (entered u) p := by
  obtain ⟨st, s, b, v, param, port_no, pass, found_user, error_headers, uri⟩ := u
  cases st <;> first | exact absurd h Bool.false_ne_true | rfl

theorem turn_colon : turn u p (chr ':') = .ok (went_on (colon u p) p (chr ':')) := by
  obtain ⟨st, s, b, v, param, port_no, pass, found_user, error_headers, uri⟩ := u
  cases st <;> first
    | exact absurd h Bool.false_ne_true
    | (cases found_user <;> cases pass <;> rfl)

theorem turn_other (hch : ¬ ends ch) (hc : ch ≠ chr ':') : turn u p ch = .ok (went_on u p ch) := by
  obtain ⟨h1, h2, h3⟩ : ch ≠ chr '@' ∧ ch ≠ chr ';' ∧ ch ≠ chr '?' := by
    simpa only [ends, not_or] using hch
  obtain ⟨st, s, b, v, param, port_no, pass, found_user, error_headers, uri⟩ := u
  cases st
  case URI_PARAM =>
    have hb : lower ch ∈ ['t', 'u', 'm', 'l', 'r'].map chr ↔
        (ch = chr 't' ∨ ch = chr 'T') ∨ (ch = chr 'u' ∨ ch = chr 'U') ∨
        (ch = chr 'm' ∨ ch = chr 'M') ∨ (ch = chr 'l' ∨ ch = chr 'L') ∨
        ch = chr 'r' ∨ ch = chr 'R' := by
      rw [map_cons, mem_cons, map_cons, mem_cons, map_cons, mem_cons,
        map_cons, mem_cons, map_cons, map_nil, mem_singleton,
        lower_eq (by decide), lower_eq (by decide), lower_eq (by decide), lower_eq (by decide),
        lower_eq (by decide)]
      rfl
    simp only [turn, param_common_cases, h1, h2, h3, hc, if_false, went_on, move, entered, behind_eq,
      hb, true_and]
    by_cases ht : ch = chr 't' ∨ ch = chr 'T'
    · simp only [ht, true_or, if_true]
      rfl
    · by_cases hu : ch = chr 'u' ∨ ch = chr 'U'
      · simp only [ht, hu, true_or, or_true, if_true, if_false]
        rfl
      · by_cases hm : ch = chr 'm' ∨ ch = chr 'M'
        · simp only [ht, hu, hm, true_or, or_true, if_true, if_false]
          rfl
        · by_cases hl : ch = chr 'l' ∨ ch = chr 'L'
          · simp only [ht, hu, hm, hl, true_or, or_true, if_true, if_false]
            rfl
          · by_cases hr : ch = chr 'r' ∨ ch = chr 'R'
            · simp only [ht, hu, hm, hl, hr, or_true, if_true, if_false]
              rfl
            · simp only [ht, hu, hm, hl, hr, or_self, if_false]
              rfl
  all_goals first
    | exact absurd h Bool.false_ne_true
    | (simp only [turn, param_switch, param_switch1, param_switch_big, value_switch,
        value_switch_big, transport_fin, value_start, flag_fin, param_common_cases,
        value_common_cases, h1, h2, h3, hc, if_false, if_true, went_on, move, entered, behind_eq,
        Option.isSome_some, Option.isSome_none, Bool.false_eq_true, false_and, true_and, ne_eq,
        not_false_iff, reduceCtorEq]
       try split_ifs <;> rfl)

end

end Within

section Fields

variable (u : Vars) (p : ℕ)

@[simp] theorem no_user_uri : (no_user u).uri = u.uri := by
  unfold no_user
  cases u.pass <;> rfl

@[simp] theorem no_user_s : (no_user u).s = u.s := by
  unfold no_user
  cases u.pass <;> rfl

@[simp] theorem no_user_b : (no_user u).b = u.b := by
  unfold no_user
  cases u.pass <;> rfl

@[simp] theorem no_user_v : (no_user u).v = u.v := by
  unfold no_user
  cases u.pass <;> rfl

@[simp] theorem no_user_param : (no_user u).param = u.param := by
  unfold no_user
  cases u.pass <;> rfl

@[simp] theorem no_user_state : (no_user u).state = u.state := by
  unfold no_user
  cases u.pass <;> rfl

@[simp] theorem no_user_pass : (no_user u).pass = none := by
  unfold no_user
  cases h : u.pass
  · exact h
  · rfl

@[simp] theorem colon_uri : (colon u p).uri = u.uri := by
  unfold colon
  cases u.found_user <;> cases u.pass <;> simp

@[simp] theorem colon_s : (colon u p).s = u.s := by
  unfold colon
  cases u.found_user <;> cases u.pass <;> simp

@[simp] theorem colon_b : (colon u p).b = u.b := by
  unfold colon
  cases u.found_user <;> cases u.pass <;> simp

@[simp] theorem colon_v : (colon u p).v = u.v := by
  unfold colon
  cases u.found_user <;> cases u.pass <;> simp

@[simp] theorem colon_param : (colon u p).param = u.param := by
  unfold colon
  cases u.found_user <;> cases u.pass <;> simp

@[simp] theorem colon_state : (colon u p).state = u.state := by
  unfold colon
  cases u.found_user <;> cases u.pass <;> simp

end Fields

/-- The variables that recording a parameter leaves alone. -/
structure Frame (u u' : Vars) : Prop where
  s : u'.s = u.s
  port_no : u'.port_no = u.port_no
  pass : u'.pass = u.pass
  found_user : u'.found_user = u.found_user
  error_headers : u'.error_headers = u.error_headers
  user : u'.uri.user = u.uri.user
  passwd : u'.uri.passwd = u.uri.passwd
  host : u'.uri.host = u.uri.host
  port : u'.uri.port = u.uri.port
  params : u'.uri.params = u.uri.params
  headers : u'.uri.headers = u.uri.headers
  uri_port_no : u'.uri.port_no = u.uri.port_no
  type : u'.uri.type = u.uri.type

theorem Frame.refl (u : Vars) : Frame u u := ⟨rfl, rfl, rfl, rfl, rfl, rfl, rfl, rfl, rfl, rfl, rfl, rfl, rfl⟩

theorem Frame.trans {u v w : Vars} (h : Frame u v) (h' : Frame v w) : Frame u w :=
  ⟨h'.s.trans h.s, h'.port_no.trans h.port_no, h'.pass.trans h.pass,
    h'.found_user.trans h.found_user, h'.error_headers.trans h.error_headers, h'.user.trans h.user,
    h'.passwd.trans h.passwd, h'.host.trans h.host, h'.port.trans h.port, h'.params.trans h.params,
    h'.headers.trans h.headers, h'.uri_port_no.trans h.uri_port_no, h'.type.trans h.type⟩

theorem entered_frame (u : Vars) : Frame u (entered u) := by
  unfold entered
  cases behind_eq u.state
  · exact .refl u
  · exact ⟨rfl, rfl, rfl, rfl, rfl, rfl, rfl, rfl, rfl, rfl, rfl, rfl, rfl⟩

theorem param_set_frame (u : Vars) (p : ℕ) : Frame u (param_set u p) := by
  unfold param_set
  cases u.param
  · exact .refl u
  · exact ⟨rfl, rfl, rfl, rfl, rfl, rfl, rfl, rfl, rfl, rfl, rfl, rfl, rfl⟩

theorem recorded_frame (u : Vars) (p : ℕ) : Frame u (recorded u p) := by
  unfold recorded
  by_cases hv : in_value u.state = true
  · rw [if_pos hv]
    cases behind_proto u.state with
    | none => exact param_set_frame u p
    | some proto =>
      exact (param_set_frame u p).trans ⟨rfl, rfl, rfl, rfl, rfl, rfl, rfl, rfl, rfl, rfl, rfl, rfl, rfl⟩
  · rw [if_neg hv]
    cases behind_flag u.state with
    | none => exact .refl u
    | some k => exact ⟨rfl, rfl, rfl, rfl, rfl, rfl, rfl, rfl, rfl, rfl, rfl, rfl, rfl⟩

theorem went_on_frame (u : Vars) (p : ℕ) (ch : UInt8) : Frame u (went_on u p ch) :=
  (entered_frame u).trans ⟨rfl, rfl, rfl, rfl, rfl, rfl, rfl, rfl, rfl, rfl, rfl, rfl, rfl⟩

structure SameRecords (uri uri' : SipUri) : Prop where
  given : uri'.given = uri.given
  value : uri'.value = uri.value
  proto : uri'.proto = uri.proto

theorem still_at_user_records {u u' : Vars} {p : ℕ} (e : still_at_user u p = .ok u') :
    u'.b = u.b ∧ u'.v = u.v ∧ u'.state = .URI_HOST ∧ u'.uri.given = (fun _ => .null) ∧
      u'.uri.value = (fun _ => .null) ∧ u'.uri.proto = .PROTO_NONE := by
  unfold still_at_user at e
  split_ifs at e
  cases hp : u.pass <;> rw [hp] at e <;> cases e <;> exact ⟨rfl, rfl, rfl, rfl, rfl, rfl⟩

theorem turn_outside {u u' : Vars} {p : ℕ} {ch : UInt8} (h : in_params u.state = false)
    (e : turn u p ch = .ok u') : still_at_user u p = .ok u' ∨
      u'.b = u.b ∧ u'.v = u.v ∧ SameRecords u.uri u'.uri := by
  cases hs : u.state <;> rw [hs] at h <;> first
    | exact absurd h.symm Bool.false_ne_true
    | (rw [turn, hs] at e
       dsimp only [check_host_end, case_port] at e
       split_ifs at e <;> first
         | exact .inl e
         | (cases e; exact .inr ⟨rfl, rfl, rfl, rfl, rfl⟩)
         | (cases e; exact .inr ⟨by simp, by simp, by simp, by simp, by simp⟩))

/-- The states of the parameters are left at `@` and `?` only. -/
theorem in_params_move {st : State} {ch : UInt8} (h : in_params st = true) (hch : ¬ ends ch) :
    in_params (move st ch) = true := by
  obtain ⟨h1, h2, h3⟩ : ch ≠ chr '@' ∧ ch ≠ chr ';' ∧ ch ≠ chr '?' := by
    simpa only [ends, not_or] using hch
  cases st <;> first
    | exact absurd h Bool.false_ne_true
    | (simp only [move, turn, param_switch, param_switch1, param_switch_big, value_switch,
        value_switch_big, transport_fin, value_start, flag_fin, param_common_cases,
        value_common_cases, h1, h2, h3, if_false]
       split_ifs <;> rfl)

/-- What is recorded at the end of the uri: `lr=` and `r2=` are enough there. -/
def recorded_last (u : Vars) (p : ℕ) : Vars :=
  match u.state with
  | .PLR_eq => flag_set u .lr p
  | .PR2_eq => flag_set u .r2 p
  | _ => recorded u p

theorem recorded_last_frame (u : Vars) (p : ℕ) : Frame u (recorded_last u p) := by
  unfold recorded_last
  split
  · exact ⟨rfl, rfl, rfl, rfl, rfl, rfl, rfl, rfl, rfl, rfl, rfl, rfl, rfl⟩
  · exact ⟨rfl, rfl, rfl, rfl, rfl, rfl, rfl, rfl, rfl, rfl, rfl, rfl, rfl⟩
  · exact recorded_frame u p

theorem end_of_params {u : Vars} {p : ℕ} {uri : SipUri} (h : in_params u.state = true)
    (e : end_of_uri u p = .ok uri) : uri = (recorded_last (params_set u p) p).uri := by
  obtain ⟨st, s, b, v, param, port_no, pass, found_user, error_headers, uri'⟩ := u
  cases st <;> first
    | exact absurd h Bool.false_ne_true
    | (cases e <;> rfl)

end OpenSips.Uri
