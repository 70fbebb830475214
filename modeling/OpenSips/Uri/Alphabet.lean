import OpenSips.Uri.Grammar
import OpenSips.Uri.Parameters
import Mathlib.Tactic.Ring

/-!
# OpenSips.Uri.Alphabet — the characters of host, user and port

The parts of an accepted uri as they can be read off its text: there is at most one `@`, the host ends
where it has to, and the port is what stands behind its colon.
-/

namespace OpenSips.Uri

open Lib List Option

def uri_text (buf : Str) : Str :=
  match read_scheme buf with
  | .ok (_, p) => buf.drop p
  | .error _ => []

/-- The text in front of the `@`. -/
def front_at (t : Str) : Str := if chr '@' ∈ t then t.takeWhile (· ≠ chr '@') else []

def behind_at (t : Str) : Str := if chr '@' ∈ t then (t.dropWhile (· ≠ chr '@')).tail else t

/-- The characters that end a host, unless they are its first. -/
def ends_host (c : UInt8) : Prop := c = chr ':' ∨ c = chr ';' ∨ c = chr '?'

instance (c : UInt8) : Decidable (ends_host c) := inferInstanceAs (Decidable (_ ∨ _))

def host_of : Str → Str
  | [] => []
  | c :: w =>
    if c = chr '[' then c :: (w.takeWhile (· ≠ chr ']') ++ [chr ']'])
    else c :: w.takeWhile fun c => ¬ ends_host c

def behind_host : Str → Str
  | [] => []
  | c :: w =>
    if c = chr '[' then (w.dropWhile (· ≠ chr ']')).tail else w.dropWhile fun c => ¬ ends_host c

def ends_port (c : UInt8) : Prop := c = chr ';' ∨ c = chr '?'

instance (c : UInt8) : Decidable (ends_port c) := inferInstanceAs (Decidable (_ ∨ _))

def port_of (t : Str) : Option Str :=
  match behind_host t with
  | [] => none
  | c :: r => if c = chr ':' then some (r.takeWhile fun c => ¬ ends_port c) else none

def behind_port (t : Str) : Str :=
  match behind_host t with
  | [] => []
  | c :: r => if c = chr ':' then r.dropWhile fun c => ¬ ends_port c else c :: r

def first_params : Str → Option Str
  | [] => none
  | c :: r => if c = chr ';' then some (r.takeWhile (· ≠ chr '?')) else none

def params_of (t : Str) : Option Str := first_params (behind_port t)

/-- The digits that a user leaves in `port_no`: the port behind a host in brackets. -/
def digits_left : Str → Str
  | [] => []
  | c :: w => if c = chr '[' then (port_of (c :: w)).getD [] else []

def decimal (d : Str) : ℕ := d.foldl (fun n c => n * 10 + (c.toNat - (chr '0').toNat)) 0

/-- Whether the last `user` parameter that has a value is `phone`. -/
def phone_text (t : Str) : Bool :=
  match params_of (behind_at t) with
  | none => false
  | some ps => ((ps.splitOn (chr ';')).filter fun q => Named .user_param q ∧ Valued q).getLast?.any fun q =>
      (pvalue q).map lower = ['p', 'h', 'o', 'n', 'e'].map chr

section Pieces

variable {w w' r d : Str} {c : UInt8} {p : UInt8 → Prop} [DecidablePred p]

theorem takeWhile_of (hw : ∀ c ∈ w, ¬ p c) (hr : ∀ c r', r = c :: r' → p c) :
    (w ++ r).takeWhile (fun c => ¬ p c) = w ∧ (w ++ r).dropWhile (fun c => ¬ p c) = r := by
  have hw' : ∀ c ∈ w, decide (¬ p c) = true := fun c hc => decide_eq_true (hw c hc)
  rw [takeWhile_append_of_pos hw', dropWhile_append_of_pos hw']
  cases r with
  | nil => exact ⟨append_nil w, rfl⟩
  | cons c r' =>
    have hc : p c := hr c r' rfl
    constructor
    · rw [takeWhile_cons_of_neg (by simpa using hc), append_nil]
    · rw [dropWhile_cons_of_neg (by simpa using hc)]

def Follow (r : Str) : Prop := ∀ c r', r = c :: r' → ends_host c

theorem host_of_bracketed (h : Bracketed w) : host_of (w ++ r) = w ∧ behind_host (w ++ r) = r := by
  obtain ⟨v, rfl, hv⟩ := h
  have hv' : ∀ c ∈ v, ¬ c = chr ']' := fun c hc e => hv c hc (e ▸ mem_cons_self)
  obtain ⟨h1, h2⟩ := takeWhile_of (p := (· = chr ']')) (r := chr ']' :: r) hv'
    fun c r' e => (cons.inj e).1.symm
  rw [cons_append, append_assoc, host_of, behind_host, if_pos rfl, if_pos rfl]
  constructor
  · exact congrArg (fun x => chr '[' :: (x ++ [chr ']'])) h1
  · exact congrArg List.tail h2

theorem host_of_plain (hc : c ≠ chr '[') (hw : Free [':', ';', '?'] w) (hr : Follow r) :
    host_of (c :: w ++ r) = c :: w ∧ behind_host (c :: w ++ r) = r := by
  have hw' : ∀ e ∈ w, ¬ ends_host e := fun e he h => hw e he (by simpa [ends_host] using h)
  obtain ⟨h1, h2⟩ := takeWhile_of hw' hr
  rw [cons_append, host_of, behind_host, if_neg hc, if_neg hc]
  exact ⟨congrArg (c :: ·) h1, h2⟩

theorem Early.split (h : Early w) : ∃ c v, w = c :: v ∧ c ≠ chr '[' ∧ Free [':', ';', '?'] v := by
  obtain ⟨c, v, rfl, h1, h2⟩ := h
  exact ⟨c, v, rfl, fun e => h1 (e ▸ mem_cons_self), h2.mono (by simp)⟩

theorem Late.split (h : Late w) : ∃ c v, w = c :: v ∧ c ≠ chr '[' ∧ Free [':', ';', '?'] v := by
  obtain ⟨c, v, rfl, h1, h2⟩ := h
  exact ⟨c, v, rfl, fun e => h1 (e ▸ mem_cons_self), h2.mono (by simp)⟩

theorem Lead.Ok.host_of {b : Lead} (hb : b.Ok) (hr : Follow r) :
    Uri.host_of (b.host ++ r) = b.host ∧ behind_host (b.host ++ r) = r := by
  rcases hb.host with hh | hh
  · exact host_of_bracketed hh
  · obtain ⟨c, v, hv, hc, hf⟩ : ∃ c v, b.host = c :: v ∧ c ≠ chr '[' ∧ Free [':', ';', '?'] v := by
      split_ifs at hh
      · exact hh.split
      · exact hh.split
    rw [hv]
    exact host_of_plain hc hf hr

theorem tail_starts {x z : Str} (hx : Semis x) (hz : Queries z) :
    ∀ c r, x ++ z = c :: r → ends_port c := by
  intro c r e
  rcases hx with rfl | ⟨x', rfl, -⟩
  · rcases hz with rfl | ⟨z', rfl, -⟩
    · cases e
    · exact .inr (cons.inj e).1.symm
  · exact .inl (cons.inj e).1.symm

theorem Digits.no_end (h : Digits d) : ∀ c ∈ d, ¬ ends_port c := by
  intro c hc he
  refine h.free c hc ?_
  rcases he with rfl | rfl <;> decide

theorem port_follows {b : Lead} (hr : ∀ c r', r = c :: r' → ends_port c) :
    Follow (b.port_text ++ r) := by
  intro c r' e
  unfold Lead.port_text at e
  cases hp : b.port with
  | none =>
    rw [hp] at e
    exact .inr (hr c r' e)
  | some d =>
    rw [hp] at e
    exact .inl (cons.inj e).1.symm

theorem port_of_eq {b : Lead} (hb : b.Ok) (hr : ∀ c r', r = c :: r' → ends_port c) :
    port_of (b.host ++ (b.port_text ++ r)) = b.port ∧ behind_port (b.host ++ (b.port_text ++ r)) = r := by
  have hbehind : behind_host (b.host ++ (b.port_text ++ r)) = b.port_text ++ r :=
    (hb.host_of (port_follows hr)).2
  rw [port_of, behind_port, hbehind]
  unfold Lead.port_text
  cases hp : b.port with
  | none =>
    cases r with
    | nil => exact ⟨rfl, rfl⟩
    | cons c r' =>
      have hc : c ≠ chr ':' := by
        rcases hr c r' rfl with rfl | rfl <;> decide
      exact ⟨if_neg hc, if_neg hc⟩
  | some d =>
    obtain ⟨h1, h2⟩ := takeWhile_of (hb.port d hp).no_end hr
    exact ⟨(if_pos rfl).trans (congrArg some h1), (if_pos rfl).trans h2⟩

end Pieces

section Users

variable {w user left d h : Str}

theorem Early.free (h : Early w) : Free ['@', ':', '[', ']'] w := by
  obtain ⟨c, v, rfl, h1, h2⟩ := h
  refine free_cons.2 ⟨fun hm => h1 ?_, h2.mono (by simp)⟩
  simp only [map_cons, map_nil, mem_cons, not_mem_nil, or_false] at hm ⊢
  tauto

theorem Late.no_at (h : Late w) : Free ['@'] w := by
  obtain ⟨c, v, rfl, h1, h2⟩ := h
  exact free_cons.2 ⟨fun hm => h1 (map_subset chr (by simp) hm), h2.mono (by simp)⟩

theorem Bracketed.no_at (h : Bracketed w) : Free ['@'] w := by
  obtain ⟨v, rfl, hv⟩ := h
  exact free_cons.2 ⟨by decide, free_append.2 ⟨hv.mono (by simp), free_cons.2 ⟨by decide, Free.nil⟩⟩⟩

theorem Taken.no_at (h : Taken w d) : Free ['@'] w := by
  cases h with
  | early h => exact h.free.mono (by simp)
  | bracketed h => exact h.no_at
  | port h hd => exact free_append.2 ⟨h.no_at, free_cons.2 ⟨by decide, hd.free.mono (by simp)⟩⟩

theorem free_takeWhile {cs : List Char} (h : Free cs w) (p : UInt8 → Bool) : Free cs (w.takeWhile p) :=
  fun c hc => h c ((takeWhile_sublist p).subset hc)

/-- A user has no `@`. -/
theorem IsUser.no_at (h : IsUser w user left) : Free ['@'] w ∧ Free ['@'] user := by
  cases h with
  | plain h => exact ⟨h.free.mono (by simp), h.free.mono (by simp)⟩
  | password h hw =>
    exact ⟨free_append.2 ⟨h.free.mono (by simp), free_cons.2 ⟨by decide, hw.mono (by simp)⟩⟩,
      h.free.mono (by simp)⟩
  | guess hb hy =>
    exact ⟨free_append.2 ⟨hb.no_at, hy.no_at⟩, free_append.2 ⟨hb.no_at, free_takeWhile hy.no_at _⟩⟩

theorem IsUser.initial (h : IsUser w user left) : user <+: w := by
  cases h with
  | plain h => exact prefix_refl _
  | password h hw => exact prefix_append _ _
  | guess hb hy => exact prefix_append_right_inj _ |>.mpr (List.takeWhile_prefix _)

theorem Bracketed.starts (h : Bracketed w) : ∃ v, w = chr '[' :: v := by
  obtain ⟨v, rfl, -⟩ := h
  exact ⟨_, rfl⟩

theorem Taken.starts (h : Taken w d) : Early w ∧ d = [] ∨ ∃ v, w = chr '[' :: v := by
  cases h with
  | early h => exact .inl ⟨h, rfl⟩
  | bracketed h => exact .inr h.starts
  | port h hd =>
    obtain ⟨v, rfl⟩ := h.starts
    exact .inr ⟨_, rfl⟩

/-- The user ends at the first colon, unless it starts with a bracket. -/
theorem IsUser.ends (h : IsUser w user left) : user = w.takeWhile (· ≠ chr ':') ∨
    (∃ v, user = chr '[' :: v) ∧ ∃ v, w.takeWhile (· ≠ chr ':') = chr '[' :: v := by
  cases h with
  | plain h => exact .inl (takeWhile_free (h.free.mono (by simp))).symm
  | password h hw => exact .inl (takeWhile_colon (h.free.mono (by simp))).symm
  | @guess b d y hb hy =>
    rcases hb.starts with ⟨he, -⟩ | ⟨v, rfl⟩
    · refine .inl (takeWhile_append_of_pos fun c hc => ?_).symm
      have hne : c ≠ chr ':' := fun e => he.free c hc (e ▸ by simp)
      simpa using hne
    · refine .inr ⟨⟨_, rfl⟩, (v ++ y).takeWhile (· ≠ chr ':'), ?_⟩
      rw [cons_append, takeWhile_cons_of_pos (by decide)]

theorem Early.head (h : Early w) (r : Str) : ∃ c v, w ++ r = c :: v ∧ c ≠ chr '[' := by
  obtain ⟨c, v, rfl, h1, -⟩ := h
  exact ⟨c, v ++ r, rfl, fun e => h1 (e ▸ mem_cons_self)⟩

theorem IsUser.digits_left (h : IsUser w user left) : Uri.digits_left w = left := by
  have hearly : ∀ {v r : Str}, Early v → Uri.digits_left (v ++ r) = [] := fun {v r} hv => by
    obtain ⟨c, v', hc, hne⟩ := hv.head r
    rw [hc]
    exact if_neg hne
  have hbr : ∀ {v : Str}, (∃ v', v = chr '[' :: v') → Uri.digits_left v = (port_of v).getD [] := by
    rintro v ⟨v', rfl⟩
    rw [Uri.digits_left, if_pos rfl]
  cases h with
  | plain h => exact append_nil w ▸ hearly h
  | password h hw => exact hearly h
  | @guess b d y hb hy =>
    have hends : ∀ c r', y = c :: r' → ends_port c := fun c r' e => by
      obtain ⟨c', y', hy', hc⟩ := hy.starts
      obtain rfl : c' = c := (cons.inj (hy'.symm.trans e)).1
      exact hc
    cases hb with
    | early h => exact hearly h
    | bracketed h =>
      have hok : (lead b none).Ok := lead_ok (.inr h) fun d hd => nomatch hd
      obtain ⟨v, hv⟩ := h.starts
      rw [hbr ⟨v ++ y, by rw [hv]; rfl⟩]
      exact congrArg (fun o => o.getD []) (port_of_eq hok hends).1
    | @port h _ hh hd =>
      have hok : (lead h (some left)).Ok := lead_ok (.inr hh) fun d' hd' => some.inj hd' ▸ hd
      obtain ⟨v, hv⟩ := hh.starts
      rw [hbr ⟨v ++ chr ':' :: left ++ y, by rw [hv]; rfl⟩, append_assoc]
      exact congrArg (fun o => o.getD []) (port_of_eq hok hends).1

theorem IsUser.left_digits (h : IsUser w user left) : Digits left := by
  have hnil : Digits [] := fun c hc => absurd hc not_mem_nil
  cases h with
  | guess ht hy =>
    cases ht with
    | port h hd => exact hd
    | _ => exact hnil
  | _ => exact hnil

end Users

/-- What `left_of` says of a whole uri. -/
def left_of (t : Str) : Str := digits_left (front_at t)

section Accepted

variable {buf t : Str} {p0 : ℕ} {uri parts : SipUri} {b : Lead} {x z : Str}

/-- Nothing behind the `@` has another one. -/
theorem no_at_behind (hb : b.Ok) (hx : Semis x) (hz : Queries z) :
    Free ['@'] (b.host ++ (b.port_text ++ (x ++ z))) := by
  have hport : Free ['@'] b.port_text := by
    unfold Lead.port_text
    cases hp : b.port with
    | none => exact Free.nil
    | some d => exact free_cons.2 ⟨by decide, (hb.port d hp).free.mono (by simp)⟩
  have hhost : Free ['@'] b.host := by
    rcases hb.host with hh | hh
    · exact hh.no_at
    · split_ifs at hh
      · exact hh.free.mono (by simp)
      · exact hh.no_at
  have hx' : Free ['@'] x := by
    rcases hx with rfl | ⟨x', rfl, hx⟩
    · exact Free.nil
    · exact free_cons.2 ⟨by decide, hx.mono (by simp)⟩
  have hz' : Free ['@'] z := by
    rcases hz with rfl | ⟨z', rfl, hz⟩
    · exact Free.nil
    · exact free_cons.2 ⟨by decide, hz.mono (by simp)⟩
  exact free_append.2 ⟨hhost, free_append.2 ⟨hport, free_append.2 ⟨hx', hz'⟩⟩⟩

/-- Where the `@` is. -/
theorem at_eq {r : Str} (hb : b.Ok) (hr : Free ['@'] r) : behind_at (b.front ++ r) = r ∧
    (b.front = [] ∧ front_at r = [] ∨
      ∃ w, b.front = w ++ [chr '@'] ∧ front_at (b.front ++ r) = w ∧ IsUser w b.user b.left) := by
  have hno : chr '@' ∉ r := fun hm => hr _ hm (mem_singleton.2 rfl)
  rcases hb.front with ⟨hf, -⟩ | ⟨w, hf, hw⟩
  · rw [hf]
    exact ⟨if_neg hno, .inl ⟨rfl, if_neg hno⟩⟩
  · have hmem : chr '@' ∈ w ++ [chr '@'] ++ r := by simp
    obtain ⟨h1, h2⟩ := takeWhile_of (w := w) (r := chr '@' :: r) (p := (· = chr '@'))
      (fun c hc e => hw.no_at.1 c hc (e ▸ mem_singleton.2 rfl)) fun c r' e => (cons.inj e).1.symm
    rw [hf]
    refine ⟨?_, .inr ⟨w, rfl, ?_, hw⟩⟩
    · rw [behind_at, if_pos hmem, append_assoc, singleton_append]
      exact congrArg List.tail h2
    · rw [front_at, if_pos hmem, append_assoc, singleton_append]
      exact h1

theorem Lead.Ok.left_digits (hb : b.Ok) : Digits b.left := by
  rcases hb.front with ⟨-, -, h⟩ | ⟨w, -, hw⟩
  · rw [h]
    exact fun c hc => absurd hc not_mem_nil
  · exact hw.left_digits

structure ReadOff (buf t : Str) (uri : SipUri) (b : Lead) (x : Str) : Prop where
  host : host_of (behind_at t) = b.host
  port : port_of (behind_at t) = b.port
  params : params_of (behind_at t) = if x = [] then none else some x.tail
  left : left_of t = b.left
  user : b.user = (front_at t).takeWhile (· ≠ chr ':') ∨
    (∃ v, b.user = chr '[' :: v) ∧ ∃ v, (front_at t).takeWhile (· ≠ chr ':') = chr '[' :: v
  no_at : Free ['@'] b.user
  uri_host : uri.host.text buf = b.host
  uri_port : uri.port.text buf = b.port.getD []
  uri_user : uri.user.text buf = b.user
  uri_params : uri.params.text buf = x.tail
  params_null : uri.params = .null ↔ x = []
  port_no : uri.port_no = b.port.elim 0 fun d => (number (number 0 b.left) d % 2 ^ 16).toNat

theorem first_params_eq (hx : Semis x) (hz : Queries z) :
    first_params (x ++ z) = if x = [] then none else some x.tail := by
  rcases hx with rfl | ⟨x', rfl, hx'⟩
  · rcases hz with rfl | ⟨z', rfl, -⟩
    · rfl
    · show (if chr '?' = chr ';' then some (z'.takeWhile (· ≠ chr '?')) else none) = none
      exact if_neg (by decide)
  · obtain ⟨h1, -⟩ := takeWhile_of (p := (· = chr '?')) (w := x') (r := z)
      (fun c hc e => hx' c hc (e ▸ by simp)) fun c r e => by
        rcases hz with rfl | ⟨z', rfl, -⟩
        · cases e
        · exact (cons.inj e).1.symm
    rw [cons_append, first_params, if_pos rfl, if_neg (cons_ne_nil _ _), tail_cons]
    exact congrArg some h1

theorem part_text {a w r : Str} (h : buf.drop p0 = a ++ (w ++ r)) :
    (Part.part (p0 + a.length) w.length).text buf = w := by
  rw [Part.text, ← drop_drop, h, drop_left, take_left]

/-- **The text of an accepted uri gives its parts.** -/
theorem reads_read_off (h : Reads p0 (buf.drop p0) uri) :
    ∃ b x, b.Ok ∧ Semis x ∧ ReadOff buf (buf.drop p0) uri b x := by
  obtain ⟨b, x, z, ht, hb, hin, hx, hz, hparams⟩ := h
  have hassoc : b.text ++ (x ++ z) = b.front ++ (b.host ++ (b.port_text ++ (x ++ z))) := by
    rw [Lead.text, append_assoc, append_assoc]
  obtain ⟨hbehind, hfront⟩ := at_eq hb (no_at_behind hb hx hz)
  have htail := tail_starts hx hz
  obtain ⟨hport, hrest⟩ := port_of_eq hb htail
  have hhost := (hb.host_of (port_follows (b := b) htail)).1
  rw [← hassoc, ← ht] at hbehind hfront
  have huser : (b.front = [] ∧ b.user = [] ∧ b.left = [] ∧ front_at (buf.drop p0) = []) ∨
      ∃ w, b.front = w ++ [chr '@'] ∧ front_at (buf.drop p0) = w ∧ IsUser w b.user b.left := by
    rcases hfront with ⟨h1, h2⟩ | hw
    · rcases hb.front with ⟨-, h3, h4⟩ | ⟨w, hw, -⟩
      · refine .inl ⟨h1, h3, h4, ?_⟩
        rw [ht, hassoc, h1]
        exact h2
      · exact absurd (hw.symm.trans h1) (by simp)
    · exact .inr hw
  refine ⟨b, x, hb, hx, ?_, ?_, ?_, ?_, ?_, ?_, ?_, ?_, ?_, ?_, ?_, hin.port_no⟩
  · rw [hbehind, hhost]
  · rw [hbehind, hport]
  · rw [hbehind, params_of, hrest]
    exact first_params_eq hx hz
  · rcases huser with ⟨-, -, h3, h4⟩ | ⟨w, -, h2, hw⟩
    · rw [left_of, h4, h3]
      rfl
    · rw [left_of, h2, hw.digits_left]
  · rcases huser with ⟨-, h2, -, h4⟩ | ⟨w, -, h2, hw⟩
    · exact .inl (by rw [h2, h4]; rfl)
    · rw [h2]
      exact hw.ends
  · rcases huser with ⟨-, h2, -⟩ | ⟨w, -, -, hw⟩
    · rw [h2]
      exact Free.nil
    · exact hw.no_at.2
  · rw [hin.host]
    exact part_text (ht.trans hassoc)
  · rw [hin.port]
    cases hp : b.port with
    | none => rfl
    | some d =>
      have htext : buf.drop p0 = b.front ++ (b.host ++ [chr ':']) ++ (d ++ (x ++ z)) := by
        rw [ht, hassoc, Lead.port_text, hp]
        simp
      have := part_text htext
      rwa [length_append, length_append] at this
  · rw [hin.user]
    rcases huser with ⟨h1, h2, -⟩ | ⟨w, h1, -, hw⟩
    · rw [if_pos h1, h2]
      rfl
    · obtain ⟨r, hr⟩ := hw.initial
      have htext : buf.drop p0 = [] ++ (b.user ++ (r ++ [chr '@'] ++ (b.host ++ (b.port_text ++ (x ++ z))))) := by
        rw [ht, hassoc, h1, ← hr]
        simp
      rw [if_neg (by simp [h1])]
      exact part_text htext
  · rw [hparams]
    rcases hx with rfl | ⟨x', rfl, -⟩
    · rfl
    · have htext : buf.drop p0 = b.text ++ [chr ';'] ++ (x' ++ z) := by
        rw [ht]
        simp
      have := part_text htext
      rwa [length_append] at this
  · rw [hparams, params_part]
    split_ifs with h
    · exact iff_of_true rfl h
    · exact iff_of_false (fun h => by cases h) h

theorem parse_parts_read_off (e : parse_parts buf = .ok uri) :
    ∃ b x, b.Ok ∧ Semis x ∧ ReadOff buf (uri_text buf) uri b x := by
  obtain ⟨type, p0, u, hsch, hscan, hend⟩ := parse_parts_ok e
  have htext : uri_text buf = buf.drop p0 := by
    rw [uri_text, hsch]
  have hlen : p0 + (buf.drop p0).length = buf.length := by
    rw [length_drop]
    exact Nat.add_sub_cancel' (read_scheme_le hsch)
  have hshape : Shape p0 (buf.drop p0) u := by
    refine scan_prefix (fun t u c u' h e => shape_turn h e) _ ?_ hscan
    exact ⟨rfl, rfl, rfl, rfl, rfl, rfl, rfl, rfl, rfl⟩
  rw [htext]
  exact reads_read_off (shape_end hshape (hlen.symm ▸ hend))

theorem move_params_fields (buf : Str) (v : SipUri) : (move_params buf v).port = v.port ∧
    (move_params buf v).port_no = v.port_no ∧ (move_params buf v).host = v.host ∧
      (move_params buf v).user.text buf = (v.user.text buf).takeWhile (· ≠ chr ';') := by
  unfold move_params
  cases hu : v.user with
  | part s len =>
    dsimp only
    have hpre : ((buf.drop s).take len).takeWhile (· ≠ chr ';') <+: (buf.drop s).take len :=
      takeWhile_prefix _
    split_ifs with hlt
    · exact ⟨rfl, rfl, rfl, text_of_prefix (hpre.trans (List.take_prefix _ _))⟩
    · refine ⟨rfl, rfl, rfl, ?_⟩
      rw [hu]
      refine (hpre.eq_of_length_le ?_).symm
      rw [length_take]
      exact (Nat.min_le_left _ _).trans (le_of_not_gt hlt)
  | null =>
    rw [hu]
    exact ⟨rfl, rfl, rfl, rfl⟩
  | empty =>
    rw [hu]
    exact ⟨rfl, rfl, rfl, rfl⟩

theorem parse_uri_fixed (e : parse_uri buf = .ok uri) : ∃ parts, parse_parts buf = .ok parts ∧
    uri.port = parts.port ∧ uri.port_no = parts.port_no ∧
      (parts.type = .SIP_URI_T ∨ parts.type = .SIPS_URI_T → uri.host = parts.host ∧
        uri.user.text buf = if is_phone buf parts then (parts.user.text buf).takeWhile (· ≠ chr ';')
          else parts.user.text buf) := by
  unfold parse_uri at e
  cases h1 : parse_parts buf with
  | error x =>
    rw [h1] at e
    cases e
  | ok parts =>
    rw [h1] at e
    change fix_type buf parts = .ok uri at e
    refine ⟨parts, rfl, ?_⟩
    unfold fix_type at e
    cases ht : parts.type with
    | SIP_URI_T | SIPS_URI_T =>
      rw [ht] at e
      dsimp only at e
      split_ifs at e with hph
      · cases e
        obtain ⟨h2, h3, h4, h5⟩ := move_params_fields buf { parts with type := _ }
        exact ⟨h2, h3, fun _ => ⟨h4, h5.trans (if_pos hph).symm⟩⟩
      · cases e
        exact ⟨rfl, rfl, fun _ => ⟨rfl, (if_neg hph).symm⟩⟩
    | TEL_URI_T | TELS_URI_T =>
      rw [ht] at e
      cases e
      exact ⟨rfl, rfl, fun h => absurd h (by simp)⟩
    | ERROR_URI_T =>
      rw [ht] at e
      cases e

end Accepted

section Port

variable {buf t d : Str} {uri : SipUri}

theorem decimal_concat (d : Str) (c : UInt8) :
    decimal (d ++ [c]) = decimal d * 10 + (c.toNat - (chr '0').toNat) := by
  rw [decimal, foldl_append]
  rfl

/-- The number of digits, as far as `port_no` keeps it. -/
theorem number_decimal (n : ℤ) (h : Digits d) :
    number n d % 2 ^ 16 = (n * 10 ^ d.length + decimal d) % 2 ^ 16 := by
  induction d using List.reverseRecOn with
  | nil => simp [number, decimal]
  | append_singleton d c ih =>
    have hc := (h c (by simp)).1
    have hd : Digits d := fun c hc => h c (mem_append_left _ hc)
    rw [UInt8.le_iff_toNat_le] at hc
    have hcast : ((c.toNat - (chr '0').toNat : ℕ) : ℤ) = (c.toNat : ℤ) - (chr '0').toNat := Int.ofNat_sub hc
    have h16 : ∀ m : ℤ, int32 m % 2 ^ 16 = m % 2 ^ 16 := fun m => by
      rw [int32, ← Int.emod_emod_of_dvd _ (show (2 : ℤ) ^ 16 ∣ 2 ^ 32 by decide)]
      show m.bmod (2 ^ 32) % ((2 ^ 32 : ℕ) : ℤ) % 2 ^ 16 = _
      rw [Int.bmod_emod]
      exact Int.emod_emod_of_dvd _ (show (2 : ℤ) ^ 16 ∣ 2 ^ 32 by decide)
    rw [number_concat, h16, decimal_concat, Int.add_emod, Int.mul_emod, ih hd, ← Int.mul_emod, ← Int.add_emod,
      length_append, length_singleton]
    push_cast
    rw [hcast]
    congr 1
    ring

/-- **The port is the number its text says**; without a text it is 0. -/
def PortRight (buf : Str) (uri : SipUri) : Prop :=
  (uri.port.text buf ≠ [] → Digits (uri.port.text buf) ∧ uri.port_no = decimal (uri.port.text buf) ∧
    decimal (uri.port.text buf) ≤ 65535) ∧
  (uri.port.text buf = [] → uri.port_no = 0)

/-- The port fits into 16 bits, and the digits left by a user add nothing to it. -/
def PortFits (t : Str) : Prop :=
  ∀ d, port_of (behind_at t) = some d → decimal d ≤ 65535 ∧ decimal (left_of t) * 10 ^ d.length % 65536 = 0

/-- **The port of an accepted uri is right**, exactly when it fits. -/
theorem parse_uri_port (e : parse_uri buf = .ok uri) : PortRight buf uri ↔ PortFits (uri_text buf) := by
  obtain ⟨parts, hparts, hport, hno, -⟩ := parse_uri_fixed e
  obtain ⟨b, x, hb, -, hr⟩ := parse_parts_read_off hparts
  rw [PortRight, PortFits, hport, hno, hr.uri_port, hr.port, hr.left, hr.port_no]
  cases hp : b.port with
  | none => exact iff_of_true ⟨fun h => absurd rfl h, fun _ => rfl⟩ fun d h => nomatch h
  | some d =>
    have hd := hb.port d hp
    have hval : (number (number 0 b.left) d % 2 ^ 16).toNat =
        (decimal b.left * 10 ^ d.length + decimal d) % 65536 := by
      have hl := number_decimal 0 hb.left_digits
      rw [Int.zero_mul, Int.zero_add] at hl
      have h : number (number 0 b.left) d % 2 ^ 16 =
          ((decimal b.left * 10 ^ d.length + decimal d : ℕ) : ℤ) % 2 ^ 16 := by
        rw [number_decimal _ hd, Int.add_emod, Int.mul_emod, hl, ← Int.mul_emod, ← Int.add_emod]
        push_cast
        rfl
      rw [h]
      omega
    show (d ≠ [] → Digits d ∧ _ = decimal d ∧ decimal d ≤ 65535) ∧ (d = [] → _ = 0) ↔ _
    rw [elim_some, hval]
    simp only [some.injEq, forall_eq']
    by_cases hnil : d = []
    · subst hnil
      have h0 : decimal [] = 0 := rfl
      simp only [ne_eq, not_true_eq_false, false_imp_iff, true_and, forall_const, h0]
      omega
    · simp only [hnil, ne_eq, not_false_eq_true, forall_const, false_imp_iff, and_true, hd, true_and]
      omega

set_option maxRecDepth 10000 in
theorem parse_uri_port_5060 : ∃ uri, parse_uri ("sip:a:5060".toList.map chr) = .ok uri ∧
    PortRight ("sip:a:5060".toList.map chr) uri := by
  refine ⟨_, rfl, (parse_uri_port rfl).2 fun d hd => ?_⟩
  obtain rfl : "5060".toList.map chr = d := some.inj hd
  decide

set_option maxRecDepth 10000 in
/-- Nothing checks the number: it is kept modulo 65536. -/
theorem port_wraps : ¬ ∀ buf uri, parse_uri buf = .ok uri → PortRight buf uri := by
  intro h
  obtain ⟨uri, e, hp, hn⟩ : ∃ uri, parse_uri ("sip:a:65537".toList.map chr) = .ok uri ∧
      uri.port = .part 6 5 ∧ uri.port_no = 1 := ⟨_, rfl, rfl, rfl⟩
  have hd := ((h _ uri e).1 (by rw [hp]; decide)).2.2
  rw [hp] at hd
  exact absurd hd (by decide)

end Port

section Alphabet

variable {buf t : Str} {uri parts : SipUri} {type : UriType} {p0 : ℕ}

/-- A reference to an IPv6 address in brackets, or a text without delimiters. -/
def HostText (h : Str) : Prop :=
  (∃ w, h = chr '[' :: (w ++ [chr ']']) ∧ w ≠ [] ∧
    ∀ c ∈ w, (HEX2I c).isSome = true ∨ c = chr ':' ∨ c = chr '.') ∨
  Free [':', ';', '?', '&', '@', '[', ']'] h

/-- **Host and user have no delimiters.** -/
def Delimited (buf : Str) (uri : SipUri) : Prop :=
  HostText (uri.host.text buf) ∧ Free ['@', '[', ']'] (uri.user.text buf)

/-- The text in front of the `@`, up to the password, and to the parameters of a telephone number. -/
def user_of (t : Str) : Str :=
  if phone_text t then ((front_at t).takeWhile (· ≠ chr ':')).takeWhile (· ≠ chr ';')
  else (front_at t).takeWhile (· ≠ chr ':')

theorem pieces_texts (buf : Str) (uri : SipUri) : (pieces buf uri).map Piece.text =
    (if uri.params = .null then [] else (uri.params.text buf).splitOn (chr ';')) := by
  have hplaces : ∀ pos ps, (places pos ps).map Piece.text = ps := by
    intro pos ps
    induction ps generalizing pos with
    | nil => rfl
    | cons q ps ih => rw [places, map_cons, ih]
  have hof : (pieces_of buf uri.params).map Piece.text =
      (if uri.params = .null then [] else (uri.params.text buf).splitOn (chr ';')) := by
    cases hp : uri.params with
    | null => rfl
    | part s len => exact hplaces _ _
    | empty => exact hplaces _ _
  rw [← hof, pieces]
  split_ifs
  · exact mark_last_map (fun _ q => q) _
  · rfl

theorem last_with_map {α β : Type*} (f : α → β) (p : β → Prop) [DecidablePred p] (xs : List α) :
    (last_with (fun x => p (f x)) xs).map f = last_with p (xs.map f) := by
  rw [last_with, last_with, List.filter_map, getLast?_map]
  rfl

/-- **A telephone uri is known by its text.** -/
theorem is_phone_eq {b : Lead} {x : Str} (e : parse_parts buf = .ok parts)
    (hr : ReadOff buf t parts b x) : is_phone buf parts = phone_text t := by
  have hval := (congrFun (congrArg Records.value (parse_parts_records e)) .user_param).trans
    (records_foldl_value (pieces buf parts) .user_param)
  change parts.value .user_param = _ at hval
  have htexts := pieces_texts buf parts
  rw [hr.uri_params] at htexts
  have hlast := last_with_map Piece.text (fun q => Named .user_param q ∧ Valued q) (pieces buf parts)
  rw [htexts] at hlast
  have hrec : last_with (Piece.RecordedValue .user_param) (pieces buf parts) =
      last_with (fun x : Piece => Named .user_param x.text ∧ Valued x.text) (pieces buf parts) := by
    unfold last_with
    congr 2
    funext y
    simp [Piece.RecordedValue]
  rw [phone_text, hr.params, is_phone, hval, hrec]
  by_cases hx : x = []
  · rw [if_pos hx]
    rw [if_pos (hr.params_null.2 hx)] at hlast
    rw [map_eq_none_iff.1 hlast]
    rfl
  · rw [if_neg hx]
    rw [if_neg fun h => hx (hr.params_null.1 h)] at hlast
    show _ = (last_with (fun q => Named .user_param q ∧ Valued q) (x.tail.splitOn (chr ';'))).any _
    rw [← hlast]
    cases hl : last_with (fun x : Piece => Named .user_param x.text ∧ Valued x.text) (pieces buf parts) with
    | none => rfl
    | some y =>
      obtain ⟨hy, -, hv⟩ := last_with_some hl
      rw [elim_some, value_text hy hv]
      rfl

/-- The uri starts with `sip:` or `sips:`. -/
def SipScheme (buf : Str) : Prop :=
  ∃ p0, read_scheme buf = .ok (.SIP_URI_T, p0) ∨ read_scheme buf = .ok (.SIPS_URI_T, p0)

theorem parse_parts_type (e : parse_parts buf = .ok parts) (hs : SipScheme buf) :
    parts.type = .SIP_URI_T ∨ parts.type = .SIPS_URI_T := by
  obtain ⟨type, p0, u, hsch, hscan, hend⟩ := parse_parts_ok e
  have hkept : Kept type buf.length u := by
    refine scan_invariant (fun p u ch u' _ h e => h.turn e) (read_scheme_le hsch) ?_ hscan
    exact ⟨rfl, Nat.zero_le _, Nat.zero_le _, fun _ => trivial, fun _ => trivial⟩
  rw [(hkept.end_of_uri hend).1]
  obtain ⟨p, h | h⟩ := hs
  · exact .inl (Prod.mk.inj (Except.ok.inj (hsch.symm.trans h))).1
  · exact .inr (Prod.mk.inj (Except.ok.inj (hsch.symm.trans h))).1

/-- **Host and user of an accepted uri have no delimiters**, exactly when its text has none there. -/
theorem parse_uri_delimited (e : parse_uri buf = .ok uri) (hs : SipScheme buf) : Delimited buf uri ↔
      HostText (host_of (behind_at (uri_text buf))) ∧ Free ['[', ']'] (user_of (uri_text buf)) := by
  obtain ⟨parts, hparts, -, -, hfix⟩ := parse_uri_fixed e
  obtain ⟨b, x, hb, hx, hr⟩ := parse_parts_read_off hparts
  obtain ⟨hhost, huser⟩ := hfix (parse_parts_type hparts hs)
  have hat : Free ['@'] (uri.user.text buf) := by
    rw [huser, hr.uri_user]
    split_ifs
    · exact free_takeWhile hr.no_at _
    · exact hr.no_at
  have hsplit : Free ['@', '[', ']'] (uri.user.text buf) ↔ Free ['[', ']'] (uri.user.text buf) :=
    ⟨fun h => h.mono (by simp), fun h c hc hm => (mem_cons.1 hm).elim
      (fun hm => hat c hc (mem_singleton.2 hm)) (h c hc)⟩
  rw [Delimited, hsplit, hhost, hr.uri_host, hr.host, huser, is_phone_eq hparts hr, hr.uri_user, user_of]
  refine and_congr_right fun _ => ?_
  rcases hr.user with hu | ⟨⟨v, hv⟩, v', hv'⟩
  · rw [hu]
  · -- a bracket stands at the start of both
    have hno : ∀ v : Str, ¬ Free ['[', ']'] (chr '[' :: v) ∧
        ¬ Free ['[', ']'] ((chr '[' :: v).takeWhile (· ≠ chr ';')) := fun v => by
      refine ⟨fun h => h _ mem_cons_self mem_cons_self, fun h => ?_⟩
      rw [takeWhile_cons_of_pos (by decide)] at h
      exact h _ mem_cons_self mem_cons_self
    rw [hv, hv']
    split_ifs
    · exact iff_of_false (hno v).2 (hno v').2
    · exact iff_of_false (hno v).1 (hno v').1

set_option maxRecDepth 10000 in
theorem parse_uri_delimited_bob : ∃ uri, parse_uri ("sip:bob@[::1]:5060".toList.map chr) = .ok uri ∧
    Delimited ("sip:bob@[::1]:5060".toList.map chr) uri := by
  refine ⟨_, rfl, (parse_uri_delimited rfl ⟨4, .inl rfl⟩).2 ⟨.inl ⟨"::1".toList.map chr, rfl, ?_, ?_⟩, ?_⟩⟩
  · decide
  · decide
  · decide

set_option maxRecDepth 10000 in
/-- A host in brackets that turns out to be the user keeps them. -/
theorem bracketed_user : ¬ ∀ buf uri, parse_uri buf = .ok uri → SipScheme buf → Delimited buf uri := by
  intro h
  obtain ⟨uri, e, hu⟩ : ∃ uri, parse_uri ("sip:[::1];x@h".toList.map chr) = .ok uri ∧
      uri.user = .part 4 7 := ⟨_, rfl, rfl⟩
  have hd := (h _ uri e ⟨4, .inl rfl⟩).2
  rw [hu] at hd
  exact absurd hd (by decide)

end Alphabet

end OpenSips.Uri
