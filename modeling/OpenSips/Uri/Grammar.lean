import OpenSips.Uri.Turns
import Mathlib.Data.List.TakeWhile

/-!
# OpenSips.Uri.Grammar — the texts `parse_uri` reads

What was read in front of each state of the character loop, as a text: a user that was found or guessed,
the host, a port, the parameters and the headers.  A guess leaves its digits behind in `port_no`.
-/

namespace OpenSips.Uri

open Lib List Option

/-- No character of `w` is one of `cs`. -/
def Free (cs : List Char) (w : Str) : Prop := ∀ c ∈ w, c ∉ cs.map chr

instance (cs : List Char) (w : Str) : Decidable (Free cs w) :=
  inferInstanceAs (Decidable (∀ c ∈ w, _))

def Digits (d : Str) : Prop := ∀ c ∈ d, chr '0' ≤ c ∧ c ≤ chr '9'

instance (d : Str) : Decidable (Digits d) := inferInstanceAs (Decidable (∀ c ∈ d, _))

def Early (h : Str) : Prop :=
  ∃ c w, h = c :: w ∧ c ∉ ['[', ']', ':', '@'].map chr ∧ Free ['@', ':', ';', '?', '[', ']'] w

def Late (h : Str) : Prop :=
  ∃ c w, h = c :: w ∧ c ∉ ['[', ':', ';', '?', '&', '@'].map chr ∧ Free [':', ';', '?', '&', '@'] w

def Bracketed (h : Str) : Prop :=
  ∃ w, h = chr '[' :: (w ++ [chr ']']) ∧ Free [']', '[', '&', '@', ';', '?'] w

/-- What may be a user although it was read as host and port, with the digits of the port. -/
inductive Taken : Str → Str → Prop
  | early {h : Str} : Early h → Taken h []
  | bracketed {h : Str} : Bracketed h → Taken h []
  | port {h d : Str} : Bracketed h → Digits d → Taken (h ++ chr ':' :: d) d

/-- Parameters and headers that may belong to the user: a colon would start the password. -/
structure Still (y : Str) : Prop where
  starts : ∃ c y', y = c :: y' ∧ (c = chr ';' ∨ c = chr '?')
  no_at : Free ['@'] y
  colon : ∀ y1 y2, y = y1 ++ chr ':' :: y2 → Free [':', ';', '?'] y2

/-- The text in front of an `@`, the user in it, and the digits that stay in `port_no`. -/
inductive IsUser : Str → Str → Str → Prop
  | plain {h : Str} : Early h → IsUser h h []
  | password {h w : Str} : Early h → Free ['@', ';', '?', '[', ']', ':'] w → IsUser (h ++ chr ':' :: w) h []
  | guess {b d y : Str} : Taken b d → Still y → IsUser (b ++ y) (b ++ y.takeWhile (· ≠ chr ':')) d

structure Lead where
  front : Str
  user : Str
  left : Str
  host : Str
  port : Option Str

def Lead.port_text (b : Lead) : Str := b.port.elim [] fun d => chr ':' :: d

def Lead.text (b : Lead) : Str := b.front ++ (b.host ++ b.port_text)

/-- There is a user with its `@`, or nothing in front of the host. -/
def Front (front user left : Str) : Prop :=
  (front = [] ∧ user = [] ∧ left = []) ∨ ∃ w, front = w ++ [chr '@'] ∧ IsUser w user left

structure Lead.Ok (b : Lead) : Prop where
  front : Front b.front b.user b.left
  host : Bracketed b.host ∨ (if b.front = [] then Early b.host else Late b.host)
  port : ∀ d, b.port = some d → Digits d

def Lead.Open (b : Lead) : Prop := b.front = [] ∧ (b.port = none ∨ Bracketed b.host)

/-- What `case_port` makes of digits. -/
def number (n : ℤ) (d : Str) : ℤ :=
  d.foldl (fun n c => int32 (n * 10 + ((c.toNat : ℤ) - (chr '0').toNat))) n

/-- The fields of the uri are those of the lead. -/
structure Lead.In (p0 : ℕ) (b : Lead) (uri : SipUri) : Prop where
  user : uri.user = if b.front = [] then .null else .part p0 b.user.length
  host : uri.host = .part (p0 + b.front.length) b.host.length
  port : uri.port = b.port.elim .null fun d => .part (p0 + (b.front.length + (b.host.length + 1))) d.length
  port_no : uri.port_no = b.port.elim 0 fun d => (number (number 0 b.left) d % 2 ^ 16).toNat

def Bare (uri : SipUri) : Prop := uri.port = .null ∧ uri.port_no = 0 ∧ uri.params = .null

/-- What `uri->params` is for parameters behind the position `n`. -/
def params_part (n : ℕ) (x : Str) : Part := if x = [] then .null else .part (n + 1) (x.length - 1)

structure Fresh (p0 : ℕ) (u : Vars) : Prop where
  s : u.s = p0
  port_no : u.port_no = 0
  pass : u.pass = none
  found_user : u.found_user = false
  user : u.uri.user = .null
  bare : Bare u.uri

structure Led (p0 : ℕ) (front user left : Str) (u : Vars) : Prop where
  ok : Front front user left
  s : u.s = p0 + front.length
  port_no : u.port_no = number 0 left
  found_user : u.found_user = false ↔ front = []
  pass : front = [] → u.pass = none
  user : u.uri.user = if front = [] then .null else .part p0 user.length
  bare : Bare u.uri

/-- The colon of a guessed password in the text behind the lead, which ends at `n`. -/
def Colon (n : ℕ) (y : Str) : Option ℕ → Prop
  | none => Free [':'] y
  | some q => ∃ y1 y2, y = y1 ++ chr ':' :: y2 ∧ Free [':'] y1 ∧ Free [':', ';', '?'] y2 ∧ q = n + y1.length

/-- The lead was read, and the text `y` behind it. -/
structure Behind (p0 : ℕ) (b : Lead) (y : Str) (u : Vars) : Prop where
  ok : b.Ok
  fields : b.In p0 u.uri
  port_no : u.port_no = number (number 0 b.left) (b.port.getD [])
  no_at : Free ['@'] y
  found_user : u.found_user = false → b.Open ∧ Colon (p0 + b.text.length) y u.pass

def Semis (x : Str) : Prop := x = [] ∨ ∃ x', x = chr ';' :: x' ∧ Free ['@', '?'] x'

def Shape (p0 : ℕ) (t : Str) (u : Vars) : Prop :=
  match u.state with
  | .URI_INIT => t = [] ∧ Fresh p0 u
  | .URI_USER => Early t ∧ Fresh p0 u
  | .URI_PASSWORD => ∃ h d, t = h ++ chr ':' :: d ∧ Early h ∧ Digits d ∧ u.s = p0 + h.length + 1 ∧
      u.port_no = number 0 d ∧ u.found_user = false ∧ u.pass = none ∧ u.uri.user = .part p0 h.length ∧
      Bare u.uri
  | .URI_PASSWORD_ALPHA => ∃ h w, t = h ++ chr ':' :: w ∧ Early h ∧ Free ['@', ';', '?', '[', ']', ':'] w ∧
      u.s = p0 + h.length + 1 ∧ u.port_no = 0 ∧ u.found_user = false ∧ u.pass = none ∧
      u.uri.user = .part p0 h.length ∧ Bare u.uri
  | .URI_HOST => ∃ user left, t ≠ [] ∧ Led p0 t user left u
  | .URI_HOST_P => ∃ f user left h, t = f ++ h ∧ f ≠ [] ∧ Led p0 f user left u ∧ Late h
  | .URI_HOST6_P => ∃ f user left w, t = f ++ chr '[' :: w ∧ Led p0 f user left u ∧
      Free [']', '[', '&', '@', ';', '?'] w
  | .URI_HOST6_END => ∃ f user left h, t = f ++ h ∧ Led p0 f user left u ∧ Bracketed h
  | .URI_PORT => ∃ f user left h d, t = f ++ (h ++ chr ':' :: d) ∧ Front f user left ∧
      (Bracketed h ∨ f ≠ [] ∧ Late h) ∧ Digits d ∧ u.s = p0 + (f.length + (h.length + 1)) ∧
      u.port_no = number (number 0 left) d ∧ (u.found_user = false ↔ f = []) ∧ (f = [] → u.pass = none) ∧
      u.uri.user = (if f = [] then .null else .part p0 user.length) ∧
      u.uri.host = .part (p0 + f.length) h.length ∧ u.uri.params = .null
  | .URI_HEADERS => ∃ b x z, t = b.text ++ (x ++ chr '?' :: z) ∧ Semis x ∧
      Behind p0 b (x ++ chr '?' :: z) u ∧ (u.error_headers = false → Free [';'] z) ∧
      u.uri.params = params_part (p0 + b.text.length) x
  | _ => ∃ b x q, t = b.text ++ (x ++ chr ';' :: q) ∧ Semis x ∧ (∀ c ∈ q, ¬ ends c) ∧
      u.state = q.foldl move .URI_PARAM ∧ Behind p0 b (x ++ chr ';' :: q) u ∧ u.s = p0 + b.text.length + 1

section Texts

variable {cs : List Char} {w w' h d : Str} {c : UInt8}

@[simp] theorem Free.nil : Free cs [] := fun _ h => absurd h not_mem_nil

@[simp] theorem free_append : Free cs (w ++ w') ↔ Free cs w ∧ Free cs w' := forall_mem_append

@[simp] theorem free_cons : Free cs (c :: w) ↔ c ∉ cs.map chr ∧ Free cs w := forall_mem_cons

theorem Free.mono {cs' : List Char} (h : Free cs w) (hs : cs' ⊆ cs) : Free cs' w :=
  fun c hc hm => h c hc (map_subset chr hs hm)

theorem Digits.concat (h : Digits d) (hc : chr '0' ≤ c ∧ c ≤ chr '9') : Digits (d ++ [c]) := by
  intro e he
  rcases mem_append.1 he with he | he
  · exact h e he
  · rw [mem_singleton.1 he]
    exact hc

theorem number_concat (n : ℤ) (d : Str) (c : UInt8) : number n (d ++ [c]) =
    int32 (number n d * 10 + ((c.toNat : ℤ) - (chr '0').toNat)) := by
  rw [number, foldl_append]
  rfl

theorem Digits.free (h : Digits d) : Free ['@', ';', '?', '[', ']', ':', '&'] d := by
  intro c hc hm
  have hd := h c hc
  have hlist : ∀ e ∈ ['@', ';', '?', '[', ']', ':', '&'].map chr, ¬ (chr '0' ≤ e ∧ e ≤ chr '9') := by
    decide +kernel
  exact hlist c hm hd

theorem Early.ne_nil (h : Early w) : w ≠ [] := by
  obtain ⟨c, w', rfl, -⟩ := h
  exact cons_ne_nil _ _

end Texts

section Steps

variable {p0 : ℕ} {t : Str} {u u' : Vars} {ch : UInt8}

theorem shape_init (hs : u.state = .URI_INIT) (h : Shape p0 t u) (e : turn u (p0 + t.length) ch = .ok u') :
    Shape p0 (t ++ [ch]) u' := by
  rw [Shape, hs] at h
  obtain ⟨rfl, hf⟩ := h
  rw [turn, hs] at e
  dsimp only at e
  split_ifs at e with h1 h2
  · -- a host in brackets
    cases e
    refine ⟨[], [], [], [], ?_, ⟨.inl ⟨rfl, rfl, rfl⟩, rfl, hf.port_no, ?_, fun _ => hf.pass, hf.user,
      hf.bare⟩, Free.nil⟩
    · rw [h1]
    · exact iff_of_true hf.found_user rfl
  · cases e
    refine ⟨⟨ch, [], rfl, fun hm => ?_, Free.nil⟩, hf.s, hf.port_no, hf.pass, hf.found_user, hf.user, hf.bare⟩
    simp only [map_cons, map_nil, mem_cons, not_mem_nil, or_false] at hm
    rcases hm with hm | hm | hm | hm
    · exact h1 hm
    · exact h2 (.inl hm)
    · exact h2 (.inr (.inl hm))
    · exact h2 (.inr (.inr hm))

theorem Early.concat {h : Str} (hh : Early h) (hc : ch ∉ ['@', ':', ';', '?', '[', ']'].map chr) :
    Early (h ++ [ch]) := by
  obtain ⟨c, w, rfl, h1, h2⟩ := hh
  exact ⟨c, w ++ [ch], rfl, h1, free_append.2 ⟨h2, free_cons.2 ⟨hc, Free.nil⟩⟩⟩

def lead (h : Str) (port : Option Str) : Lead := ⟨[], [], [], h, port⟩

theorem lead_ok {h : Str} {port : Option Str} (hh : Early h ∨ Bracketed h)
    (hp : ∀ d, port = some d → Digits d) : (lead h port).Ok :=
  ⟨.inl ⟨rfl, rfl, rfl⟩, hh.symm.imp_right fun hh => (if_pos rfl).symm ▸ hh, hp⟩

theorem shape_user (hs : u.state = .URI_USER) (h : Shape p0 t u) (e : turn u (p0 + t.length) ch = .ok u') :
    Shape p0 (t ++ [ch]) u' := by
  rw [Shape, hs] at h
  obtain ⟨ht, hf⟩ := h
  have hpos : p0 + t.length - u.s = t.length := by
    rw [hf.s, Nat.add_sub_cancel_left]
  have hne := ht.ne_nil
  rw [turn, hs] at e
  dsimp only at e
  rw [hpos, hf.s] at e
  -- the lead is what was read
  have hlead : ∀ c : Char, ∀ v : Vars, v.uri.user = .null → v.uri.host = .part p0 t.length →
      Bare v.uri → v.port_no = 0 → v.pass = none → c ≠ '@' ∧ c ≠ ':' → chr c ∉ ['@', ':'].map chr →
      Behind p0 (lead t none) ([] ++ [chr c]) v := by
    intro c v h1 h2 h3 h4 h5 h6 h7
    refine ⟨lead_ok (.inl ht) (fun d hd => by cases hd), ⟨h1, h2, h3.1, h3.2.1⟩, h4, ?_, fun _ => ⟨⟨rfl, .inl rfl⟩, ?_⟩⟩
    · exact free_cons.2 ⟨fun hm => h7 (mem_cons.2 (.inl (mem_singleton.1 hm))), Free.nil⟩
    · rw [h5]
      exact free_cons.2 ⟨fun hm => h7 (mem_cons_of_mem _ hm), Free.nil⟩
  have htext : (lead t none).text = t := append_nil t
  split_ifs at e with h1 h2 h3 h4 h5
  · -- the user is found
    cases e
    refine ⟨t, [], by simp, .inr ⟨t, by rw [h1], .plain ht⟩, ?_, hf.port_no, ?_, ?_, ?_, hf.bare⟩
    · rw [length_append]
      rfl
    · exact iff_of_false (by simp) (by simp)
    · exact fun h => absurd h (by simp)
    · rw [if_neg (by simp)]
  · cases e
    exact ⟨t, [], by rw [h2], ht, fun c hc => absurd hc not_mem_nil, rfl, hf.port_no, hf.found_user,
      hf.pass, rfl, hf.bare⟩
  · cases e
    refine ⟨lead t none, [], [], ?_, .inl rfl, fun c hc => absurd hc not_mem_nil, rfl, ?_, ?_⟩
    · rw [htext, h3]
      rfl
    · exact hlead ';' _ hf.user rfl hf.bare hf.port_no hf.pass (by decide) (by decide)
    · rw [htext]
  · cases e
    refine ⟨lead t none, [], [], ?_, .inl rfl, ?_, fun _ => Free.nil, hf.bare.2.2⟩
    · rw [htext, h4]
      rfl
    · exact hlead '?' _ hf.user rfl hf.bare hf.port_no hf.pass (by decide) (by decide)
  · cases e
    rw [Shape, hs]
    refine ⟨ht.concat fun hm => ?_, hf⟩
    simp only [map_cons, map_nil, mem_cons, not_mem_nil, or_false] at hm
    rcases hm with hm | hm | hm | hm | hm | hm
    · exact h1 hm
    · exact h2 hm
    · exact h3 hm
    · exact h4 hm
    · exact h5 (.inl hm)
    · exact h5 (.inr hm)

theorem notMem_of {cs : List Char} (h : ∀ c ∈ cs, ch ≠ chr c) : ch ∉ cs.map chr := by
  intro hm
  obtain ⟨c, hc, rfl⟩ := List.mem_map.1 hm
  exact h c hc rfl

theorem free_concat {cs : List Char} {w : Str} (hw : Free cs w) (h : ∀ c ∈ cs, ch ≠ chr c) :
    Free cs (w ++ [ch]) :=
  free_append.2 ⟨hw, free_cons.2 ⟨notMem_of h, Free.nil⟩⟩

theorem shape_password (hs : u.state = .URI_PASSWORD) (h : Shape p0 t u)
    (e : turn u (p0 + t.length) ch = .ok u') : Shape p0 (t ++ [ch]) u' := by
  rw [Shape, hs] at h
  obtain ⟨w, d, rfl, hw, hd, hs0, hn, hf, hp, hu, hport⟩ := h
  have hpos : p0 + (w ++ chr ':' :: d).length - u.s = d.length := by
    rw [hs0, length_append, length_cons]
    omega
  have hfree := hd.free
  rw [turn, hs] at e
  dsimp only [case_port] at e
  rw [hpos, set_port, hpos] at e
  have hlead : ∀ c : Char, ∀ v : Vars, v.uri.user = .null → v.uri.host = .part p0 w.length →
      v.uri.port = .part u.s d.length → v.uri.port_no = (u.port_no % 2 ^ 16).toNat →
      v.port_no = u.port_no → v.found_user = true → chr c ≠ chr '@' →
      Behind p0 (lead w (some d)) ([] ++ [chr c]) v := by
    intro c v h1 h2 h3 h4 h5 h6 h7
    refine ⟨lead_ok (.inl hw) fun d' hd' => some.inj hd' ▸ hd, ⟨h1, h2, ?_, ?_⟩, ?_, ?_, ?_⟩
    · rw [h3, hs0]
      show _ = Part.part (p0 + (0 + (w.length + 1))) d.length
      rw [zero_add, add_assoc]
    · rw [h4, hn]
      rfl
    · exact h5.trans hn
    · exact free_cons.2 ⟨fun hm => h7 (mem_singleton.1 hm), Free.nil⟩
    · rw [h6]
      exact fun h => absurd h (by simp)
  have htext : (lead w (some d)).text = w ++ chr ':' :: d := rfl
  split_ifs at e with h1 h2 h3 h4 h5
  · cases e
    refine ⟨w, [], by simp, .inr ⟨w ++ chr ':' :: d, by rw [h1], .password hw (hfree.mono (by simp))⟩,
      ?_, rfl, ?_, ?_, ?_, hport⟩
    · rw [@length_append _ _ [ch]]
      rfl
    · exact iff_of_false (by simp) (by simp)
    · exact fun h => absurd h (by simp)
    · rw [if_neg (by simp)]
      exact hu
  · cases e
    refine ⟨lead w (some d), [], [], ?_, .inl rfl, fun c hc => absurd hc not_mem_nil, rfl, ?_, ?_⟩
    · rw [htext, h2]
      rfl
    · exact hlead ';' _ rfl hu rfl rfl rfl rfl (by decide)
    · rw [htext]
  · cases e
    refine ⟨lead w (some d), [], [], ?_, .inl rfl, ?_, fun _ => Free.nil, hport.2.2⟩
    · rw [htext, h3]
      rfl
    · exact hlead '?' _ rfl hu rfl rfl rfl rfl (by decide)
  · cases e
    rw [Shape, hs]
    refine ⟨w, d ++ [ch], by simp, hw, hd.concat h4, hs0, ?_, hf, hp, hu, hport⟩
    rw [number_concat, ← hn]
  · cases e
    refine ⟨w, d ++ [ch], by simp, hw, ?_, hs0, rfl, hf, hp, hu, hport⟩
    refine free_concat (hfree.mono (by simp)) ?_
    simp only [mem_cons, not_mem_nil, or_false, forall_eq_or_imp, forall_eq]
    exact ⟨h1, h2, h3, fun h => h5 (.inl h), fun h => h5 (.inr (.inl h)), fun h => h5 (.inr (.inr h))⟩

theorem shape_password_alpha (hs : u.state = .URI_PASSWORD_ALPHA) (h : Shape p0 t u)
    (e : turn u (p0 + t.length) ch = .ok u') : Shape p0 (t ++ [ch]) u' := by
  rw [Shape, hs] at h
  obtain ⟨w, d, rfl, hw, hd, hs0, hn, hf, hp, hu, hport⟩ := h
  rw [turn, hs] at e
  dsimp only at e
  split_ifs at e with h1 h2 h3
  · cases e
    refine ⟨w, [], by simp, .inr ⟨w ++ chr ':' :: d, by rw [h1], .password hw hd⟩, ?_, hn, ?_, ?_, ?_, hport⟩
    · rw [@length_append _ _ [ch]]
      rfl
    · exact iff_of_false (by simp) (by simp)
    · exact fun h => absurd h (by simp)
    · rw [if_neg (by simp)]
      exact hu
  · cases e
    rw [Shape, hs]
    refine ⟨w, d ++ [ch], by simp, hw, free_concat hd ?_, hs0, hn, hf, hp, hu, hport⟩
    simp only [mem_cons, not_mem_nil, or_false, forall_eq_or_imp, forall_eq]
    exact ⟨h1, fun h => h2 (.inl h), fun h => h2 (.inr h), fun h => h3 (.inl h),
      fun h => h3 (.inr (.inl h)), fun h => h3 (.inr (.inr h))⟩

theorem Led.state {f user left : Str} (h : Led p0 f user left u) (st : State) :
    Led p0 f user left { u with state := st } :=
  ⟨h.ok, h.s, h.port_no, h.found_user, h.pass, h.user, h.bare⟩

theorem shape_host (hs : u.state = .URI_HOST) (h : Shape p0 t u)
    (e : turn u (p0 + t.length) ch = .ok u') : Shape p0 (t ++ [ch]) u' := by
  rw [Shape, hs] at h
  obtain ⟨user, left, hne, hl⟩ := h
  rw [turn, hs] at e
  dsimp only at e
  split_ifs at e with h1 h2
  · cases e
    exact ⟨t, user, left, [], by rw [h1], hl.state _, Free.nil⟩
  · cases e
    refine ⟨t, user, left, [ch], rfl, hne, hl.state _, ch, [], rfl, notMem_of ?_, Free.nil⟩
    simp only [mem_cons, not_mem_nil, or_false, forall_eq_or_imp, forall_eq]
    exact ⟨h1, fun h => h2 (.inl h), fun h => h2 (.inr (.inl h)),
      fun h => h2 (.inr (.inr (.inl h))), fun h => h2 (.inr (.inr (.inr (.inl h)))),
      fun h => h2 (.inr (.inr (.inr (.inr h))))⟩

theorem shape_host6 (hs : u.state = .URI_HOST6_P) (h : Shape p0 t u)
    (e : turn u (p0 + t.length) ch = .ok u') : Shape p0 (t ++ [ch]) u' := by
  rw [Shape, hs] at h
  obtain ⟨f, user, left, w, rfl, hl, hw⟩ := h
  rw [turn, hs] at e
  dsimp only at e
  split_ifs at e with h1 h2
  · cases e
    exact ⟨f, user, left, chr '[' :: (w ++ [ch]), by simp, hl.state _, w, by rw [h1], hw⟩
  · cases e
    rw [Shape, hs]
    refine ⟨f, user, left, w ++ [ch], by simp, hl, free_concat hw ?_⟩
    simp only [mem_cons, not_mem_nil, or_false, forall_eq_or_imp, forall_eq]
    exact ⟨h1, fun h => h2 (.inl h), fun h => h2 (.inr (.inl h)),
      fun h => h2 (.inr (.inr (.inl h))), fun h => h2 (.inr (.inr (.inr (.inl h)))),
      fun h => h2 (.inr (.inr (.inr (.inr h))))⟩

theorem shape_host_end {f user left h : Str} {other : Except UriError Vars} (hl : Led p0 f user left u)
    (hh : Bracketed h ∨ f ≠ [] ∧ Late h)
    (e : check_host_end u (p0 + (f ++ h).length) ch other = .ok u') :
    (other = .ok u' ∧ ∀ c ∈ [':', ';', '?', '&', '@'], ch ≠ chr c) ∨ Shape p0 (f ++ h ++ [ch]) u' := by
  have hpos : p0 + (f ++ h).length - u.s = h.length := by
    rw [hl.s, length_append]
    omega
  have hlead : ∀ c : Char, ∀ v : Vars, v.uri.user = u.uri.user → v.uri.host = .part u.s h.length →
      v.uri.port = u.uri.port → v.uri.port_no = u.uri.port_no → v.port_no = u.port_no →
      v.found_user = u.found_user → v.pass = u.pass → chr c ≠ chr '@' → chr c ≠ chr ':' →
      Behind p0 ⟨f, user, left, h, none⟩ ([] ++ [chr c]) v := by
    intro c v h1 h2 h3 h4 h5 h6 h7 h8 h9
    refine ⟨⟨hl.ok, hh.imp_right fun hh : f ≠ [] ∧ Late h => (if_neg hh.1).symm ▸ hh.2, fun d hd => nomatch hd⟩,
      ⟨h1.trans hl.user, ?_, h3.trans hl.bare.1, h4.trans hl.bare.2.1⟩, h5.trans hl.port_no, ?_, fun hf => ?_⟩
    · rw [h2, hl.s]
    · exact free_cons.2 ⟨fun hm => h8 (mem_singleton.1 hm), Free.nil⟩
    · have hnil := hl.found_user.1 (h6.symm.trans hf)
      refine ⟨⟨hnil, .inl rfl⟩, ?_⟩
      rw [h7, hl.pass hnil]
      exact free_cons.2 ⟨fun hm => h9 (mem_singleton.1 hm), Free.nil⟩
  have htext : (Lead.mk f user left h none).text = f ++ h := congrArg (f ++ ·) (append_nil h)
  unfold check_host_end at e
  dsimp only at e
  rw [hpos] at e
  split_ifs at e with h1 h2 h3 h4
  · cases e
    refine .inr ⟨f, user, left, h, [], by rw [h1, append_assoc], hl.ok, hh,
      fun c hc => absurd hc not_mem_nil, ?_, hl.port_no, hl.found_user, hl.pass, hl.user, ?_,
      hl.bare.2.2⟩
    · show p0 + (f ++ h).length + 1 = _
      rw [length_append]
      omega
    · show Part.part u.s h.length = _
      rw [hl.s]
  · cases e
    refine .inr ⟨⟨f, user, left, h, none⟩, [], [], ?_, .inl rfl, fun c hc => absurd hc not_mem_nil, rfl, ?_, ?_⟩
    · rw [htext, h2]
      rfl
    · exact hlead ';' _ rfl rfl rfl rfl rfl rfl rfl (by decide) (by decide)
    · rw [htext]
  · cases e
    refine .inr ⟨⟨f, user, left, h, none⟩, [], [], ?_, .inl rfl, ?_, fun _ => Free.nil, hl.bare.2.2⟩
    · rw [htext, h3]
      rfl
    · exact hlead '?' _ rfl rfl rfl rfl rfl rfl rfl (by decide) (by decide)
  · refine .inl ⟨e, ?_⟩
    simp only [mem_cons, not_mem_nil, or_false, forall_eq_or_imp, forall_eq]
    exact ⟨h1, h2, h3, fun h => h4 (.inl h), fun h => h4 (.inr h)⟩

theorem shape_host_p (hs : u.state = .URI_HOST_P) (h : Shape p0 t u)
    (e : turn u (p0 + t.length) ch = .ok u') : Shape p0 (t ++ [ch]) u' := by
  rw [Shape, hs] at h
  obtain ⟨f, user, left, h, rfl, hne, hl, hh⟩ := h
  rw [turn, hs] at e
  dsimp only at e
  obtain ⟨e, hch⟩ | h' := shape_host_end hl (.inr ⟨hne, hh⟩) e
  · cases e
    rw [Shape, hs]
    obtain ⟨c, w, rfl, hc, hw⟩ := hh
    exact ⟨f, user, left, c :: (w ++ [ch]), by simp, hne, hl, c, w ++ [ch], rfl, hc, free_concat hw hch⟩
  · exact h'

theorem shape_host6_end (hs : u.state = .URI_HOST6_END) (h : Shape p0 t u)
    (e : turn u (p0 + t.length) ch = .ok u') : Shape p0 (t ++ [ch]) u' := by
  rw [Shape, hs] at h
  obtain ⟨f, user, left, h, rfl, hl, hh⟩ := h
  rw [turn, hs] at e
  dsimp only at e
  obtain ⟨e, -⟩ | h' := shape_host_end hl (.inl hh) e
  · cases e
  · exact h'

theorem shape_port (hs : u.state = .URI_PORT) (h : Shape p0 t u)
    (e : turn u (p0 + t.length) ch = .ok u') : Shape p0 (t ++ [ch]) u' := by
  rw [Shape, hs] at h
  obtain ⟨f, user, left, h, d, rfl, hok, hh, hd, hs0, hn, hf, hp, hu, hhost, hparams⟩ := h
  have hpos : p0 + (f ++ (h ++ chr ':' :: d)).length - u.s = d.length := by
    rw [hs0]
    simp only [length_append, length_cons]
    omega
  rw [turn, hs] at e
  dsimp only [case_port] at e
  rw [set_port, hpos] at e
  have hlead : ∀ c : Char, ∀ v : Vars, v.uri.user = u.uri.user → v.uri.host = u.uri.host →
      v.uri.port = .part u.s d.length → v.uri.port_no = (u.port_no % 2 ^ 16).toNat →
      v.port_no = u.port_no → v.found_user = u.found_user → v.pass = u.pass → chr c ≠ chr '@' →
      chr c ≠ chr ':' → Behind p0 ⟨f, user, left, h, some d⟩ ([] ++ [chr c]) v := by
    intro c v h1 h2 h3 h4 h5 h6 h7 h8 h9
    refine ⟨⟨hok, hh.imp_right fun hh : f ≠ [] ∧ Late h => (if_neg hh.1).symm ▸ hh.2,
      fun d' hd' => some.inj hd' ▸ hd⟩, ⟨h1.trans hu, h2.trans hhost, ?_, ?_⟩, h5.trans hn, ?_,
      fun hfu => ?_⟩
    · rw [h3, hs0]
      rfl
    · rw [h4, hn]
      rfl
    · exact free_cons.2 ⟨fun hm => h8 (mem_singleton.1 hm), Free.nil⟩
    · have hnil := hf.1 (h6.symm.trans hfu)
      refine ⟨⟨hnil, .inr (hh.resolve_right fun h => h.1 hnil)⟩, ?_⟩
      rw [h7, hp hnil]
      exact free_cons.2 ⟨fun hm => h9 (mem_singleton.1 hm), Free.nil⟩
  have htext : (Lead.mk f user left h (some d)).text = f ++ (h ++ chr ':' :: d) := rfl
  split_ifs at e with h1 h2 h3
  · cases e
    refine ⟨⟨f, user, left, h, some d⟩, [], [], ?_, .inl rfl, fun c hc => absurd hc not_mem_nil, rfl, ?_, ?_⟩
    · rw [htext, h1]
      rfl
    · exact hlead ';' _ rfl rfl rfl rfl rfl rfl rfl (by decide) (by decide)
    · rw [htext]
  · cases e
    refine ⟨⟨f, user, left, h, some d⟩, [], [], ?_, .inl rfl, ?_, fun _ => Free.nil, hparams⟩
    · rw [htext, h2]
      rfl
    · exact hlead '?' _ rfl rfl rfl rfl rfl rfl rfl (by decide) (by decide)
  · cases e
    rw [Shape, hs]
    refine ⟨f, user, left, h, d ++ [ch], by simp, hok, hh, hd.concat h3, hs0, ?_, hf, hp, hu, hhost, hparams⟩
    rw [number_concat, ← hn]

variable {b : Lead}

/-- A guess that may still be a user is one when an `@` comes. -/
theorem taken_of_open (hb : b.Ok) (ho : b.Open) : Taken b.text (b.port.getD []) := by
  obtain ⟨hf, hp⟩ := ho
  have htext : b.text = b.host ++ b.port_text := by rw [Lead.text, hf, nil_append]
  have hnone : b.port = none → b.host ++ b.port_text = b.host := fun h => by
    rw [Lead.port_text, h]
    exact append_nil b.host
  rw [htext]
  rcases hb.host with hh | hh
  · cases hport : b.port with
    | none =>
      rw [hnone hport]
      exact .bracketed hh
    | some d =>
      rw [Lead.port_text, hport]
      exact .port hh (hb.port d hport)
  · rw [if_pos hf] at hh
    rcases hp with hp | hp
    · rw [hnone hp, hp]
      exact .early hh
    · obtain ⟨w, hw, -⟩ := hp
      obtain ⟨c, w', hc, hne, -⟩ := hh
      rw [hc] at hw
      exact absurd (cons.inj hw).1 fun h => hne (h ▸ mem_cons_self)

theorem takeWhile_colon {y1 y2 : Str} (h : Free [':'] y1) :
    (y1 ++ chr ':' :: y2).takeWhile (· ≠ chr ':') = y1 := by
  rw [takeWhile_append_of_pos, takeWhile_cons_of_neg (by simp), append_nil]
  exact fun c hc => decide_eq_true fun e => h c hc (mem_singleton.2 e)

variable {y : Str}

theorem takeWhile_free (h : Free [':'] y) : y.takeWhile (· ≠ chr ':') = y :=
  takeWhile_eq_self_iff.2 fun c hc => decide_eq_true fun e => h c hc (mem_singleton.2 e)

theorem colon_unique {y1 y2 z1 z2 : Str} (h1 : Free [':'] y1) (h2 : Free [':'] y2)
    (h : y1 ++ chr ':' :: y2 = z1 ++ chr ':' :: z2) : y2 = z2 :=
  ((append_cons_inj_of_notMem (fun hm => h1 _ hm mem_cons_self)
    fun hm => h2 _ hm mem_cons_self).1 h).2.2

/-- **What was read turns out to be the user.** -/
theorem shape_still_at_user (h : Behind p0 b y u) (hy : ∃ c y', y = c :: y' ∧ (c = chr ';' ∨ c = chr '?'))
    (e : still_at_user u (p0 + (b.text ++ y).length) = .ok u') : Shape p0 (b.text ++ y ++ [chr '@']) u' := by
  unfold still_at_user at e
  cases hf : u.found_user with
  | true =>
    rw [hf, if_pos rfl] at e
    cases e
  | false =>
    rw [hf, if_neg Bool.false_ne_true] at e
    obtain ⟨ho, hc⟩ := h.found_user hf
    have hfront : b.front = [] ∧ b.user = [] ∧ b.left = [] := by
      rcases h.ok.front with hfr | ⟨w, hw, -⟩
      · exact hfr
      · exact absurd (hw.symm.trans ho.1) (by simp)
    have hhost : u.uri.host.s = p0 := by
      rw [h.fields.host, hfront.1]
      rfl
    have hpn : u.port_no = number 0 (b.port.getD []) := by
      rw [h.port_no, hfront.2.2]
      rfl
    have hstill : Still y := by
      refine ⟨hy, h.no_at, fun z1 z2 hz => ?_⟩
      cases hp : u.pass with
      | none =>
        rw [hp] at hc
        exact absurd (mem_singleton.2 rfl) (hc (chr ':') (hz ▸ by simp))
      | some q =>
        rw [hp] at hc
        obtain ⟨y1, y2, rfl, h1, h2, -⟩ := hc
        exact colon_unique h1 (h2.mono (by simp)) hz ▸ h2
    have huser := IsUser.guess (taken_of_open h.ok ho) hstill
    have hlen : ∀ q, u.pass = some q → q - p0 = (b.text ++ y.takeWhile (· ≠ chr ':')).length := by
      intro q hp
      rw [hp] at hc
      obtain ⟨y1, y2, rfl, h1, -, rfl⟩ := hc
      rw [takeWhile_colon h1, length_append]
      omega
    have hlen' : u.pass = none → p0 + (b.text ++ y).length - p0 =
        (b.text ++ y.takeWhile (· ≠ chr ':')).length := by
      intro hp
      rw [hp] at hc
      rw [takeWhile_free hc, Nat.add_sub_cancel_left]
    rw [hhost] at e
    have hled : ∀ v : Vars, v.s = p0 + (b.text ++ y).length + 1 → v.port_no = u.port_no → v.found_user = true →
        v.uri.user = .part p0 (b.text ++ y.takeWhile (· ≠ chr ':')).length → Bare v.uri →
        Led p0 (b.text ++ y ++ [chr '@']) (b.text ++ y.takeWhile (· ≠ chr ':')) (b.port.getD []) v := by
      intro v h1 h2 h3 h4 h5
      refine ⟨.inr ⟨b.text ++ y, rfl, huser⟩, ?_, h2.trans hpn, ?_, fun h => absurd h (by simp), ?_, h5⟩
      · rw [h1, @length_append _ _ [chr '@'], ← add_assoc]
        rfl
      · exact iff_of_false (by simp [h3]) (by simp)
      · rw [if_neg (by simp), h4]
    cases hp : u.pass with
    | none =>
      rw [hp] at e
      cases e
      exact ⟨_, _, by simp, hled _ rfl rfl rfl (congrArg (Part.part p0) (hlen' hp)) ⟨rfl, rfl, rfl⟩⟩
    | some q =>
      rw [hp] at e
      cases e
      exact ⟨_, _, by simp, hled _ rfl rfl rfl (congrArg (Part.part p0) (hlen q hp)) ⟨rfl, rfl, rfl⟩⟩

theorem Lead.In.congr {uri uri' : SipUri} (h : b.In p0 uri) (h1 : uri'.user = uri.user)
    (h2 : uri'.host = uri.host) (h3 : uri'.port = uri.port) (h4 : uri'.port_no = uri.port_no) :
    b.In p0 uri' :=
  ⟨h1.trans h.user, h2.trans h.host, h3.trans h.port, h4.trans h.port_no⟩

theorem Behind.frame (h : Behind p0 b y u) (hf : Frame u u') : Behind p0 b y u' :=
  ⟨h.ok, h.fields.congr hf.user hf.host hf.port hf.uri_port_no, hf.port_no.trans h.port_no, h.no_at,
    hf.found_user ▸ hf.pass ▸ h.found_user⟩

theorem Behind.next (h : Behind p0 b y u) (hch : ch ≠ chr '@')
    (hin : b.In p0 u'.uri) (hn : u'.port_no = u.port_no)
    (hc : u'.found_user = false → u.found_user = false ∧
      (Colon (p0 + b.text.length) y u.pass → Colon (p0 + b.text.length) (y ++ [ch]) u'.pass)) :
    Behind p0 b (y ++ [ch]) u' := by
  refine ⟨h.ok, hin, hn.trans h.port_no, free_concat h.no_at ?_, fun hf => ?_⟩
  · simpa using hch
  · obtain ⟨hf', hc⟩ := hc hf
    obtain ⟨ho, hcol⟩ := h.found_user hf'
    exact ⟨ho, hc hcol⟩

variable {n : ℕ}

theorem Colon.other {pass : Option ℕ} (h : Colon n y pass)
    (hch : ∀ c ∈ [':', ';', '?'], ch ≠ chr c) : Colon n (y ++ [ch]) pass := by
  cases pass with
  | none => exact free_concat h fun c hc => hch c (mem_cons.2 (.inl (mem_singleton.1 hc)))
  | some q =>
    obtain ⟨y1, y2, rfl, h1, h2, rfl⟩ := h
    exact ⟨y1, y2 ++ [ch], by simp, h1, free_concat h2 hch, rfl⟩

@[simp] theorem no_user_port_no (u : Vars) : (no_user u).port_no = u.port_no := by
  unfold no_user
  cases u.pass <;> rfl

@[simp] theorem colon_port_no (u : Vars) (p : ℕ) : (colon u p).port_no = u.port_no := by
  unfold colon
  cases u.found_user <;> cases u.pass <;> simp

@[simp] theorem no_user_error_headers (u : Vars) : (no_user u).error_headers = u.error_headers := by
  unfold no_user
  cases u.pass <;> rfl

@[simp] theorem colon_error_headers (u : Vars) (p : ℕ) : (colon u p).error_headers = u.error_headers := by
  unfold colon
  cases u.found_user <;> cases u.pass <;> simp

theorem Colon.no_user (hch : ch ≠ chr ':') (hf : (no_user u).found_user = false) :
    u.found_user = false ∧ (Colon n y u.pass → Colon n (y ++ [ch]) (no_user u).pass) := by
  unfold Uri.no_user at hf ⊢
  cases hp : u.pass with
  | none =>
    rw [hp, if_neg (by simp)] at hf
    rw [if_neg (by simp), hp]
    exact ⟨hf, fun h => free_concat h (by simpa using hch)⟩
  | some q =>
    rw [hp] at hf
    exact absurd hf (by simp)

theorem Colon.colon (hf : (colon u (n + y.length)).found_user = false) : u.found_user = false ∧
      (Colon n y u.pass → Colon n (y ++ [chr ':']) (colon u (n + y.length)).pass) := by
  unfold Uri.colon at hf ⊢
  cases hfu : u.found_user with
  | true =>
    rw [hfu, if_pos rfl, hfu] at hf
    cases hf
  | false =>
    rw [hfu, if_neg Bool.false_ne_true] at hf
    refine ⟨rfl, fun h => ?_⟩
    rw [if_neg Bool.false_ne_true]
    cases hp : u.pass with
    | none =>
      rw [hp] at h
      exact ⟨y, [], rfl, h, Free.nil, rfl⟩
    | some q =>
      rw [hp] at hf
      unfold Uri.no_user at hf
      rw [hp] at hf
      exact absurd hf (by simp)

theorem shape_iff_params (hin : in_params u.state = true) : Shape p0 t u ↔
    ∃ b x q, t = b.text ++ (x ++ chr ';' :: q) ∧ Semis x ∧ (∀ c ∈ q, ¬ ends c) ∧
      u.state = q.foldl move .URI_PARAM ∧ Behind p0 b (x ++ chr ';' :: q) u ∧
      u.s = p0 + b.text.length + 1 := by
  unfold Shape
  cases hs : u.state <;> rw [hs] at hin <;> first | exact Iff.rfl | exact absurd hin Bool.false_ne_true

theorem Semis.snoc {x q : Str} (hx : Semis x) (hq : ∀ c ∈ q, ¬ ends c) : Semis (x ++ chr ';' :: q) := by
  have hq' : Free ['@', '?'] q := fun c hc hm => hq c hc <| by
    simp only [map_cons, map_nil, mem_cons, not_mem_nil, or_false] at hm
    exact hm.imp_right .inr
  rcases hx with rfl | ⟨x', rfl, hx'⟩
  · exact .inr ⟨q, rfl, hq'⟩
  · exact .inr ⟨x' ++ chr ';' :: q, rfl, free_append.2 ⟨hx', free_cons.2 ⟨by decide, hq'⟩⟩⟩

theorem Semis.starts {x z : Str} (hx : Semis x) {ch : UInt8} (hch : ch = chr ';' ∨ ch = chr '?') :
    ∃ c y, x ++ ch :: z = c :: y ∧ (c = chr ';' ∨ c = chr '?') := by
  rcases hx with rfl | ⟨x', rfl, -⟩
  · exact ⟨_, _, rfl, hch⟩
  · exact ⟨_, _, rfl, .inl rfl⟩

theorem shape_params (hin : in_params u.state = true) (h : Shape p0 t u)
    (e : turn u (p0 + t.length) ch = .ok u') : Shape p0 (t ++ [ch]) u' := by
  obtain ⟨b, x, q, rfl, hx, hq, hst, hb, hs0⟩ := (shape_iff_params hin).1 h
  have hsemis := hx.snoc hq
  have hpos : p0 + (b.text ++ (x ++ chr ';' :: q)).length =
      p0 + b.text.length + (x ++ chr ';' :: q).length := by
    rw [length_append, add_assoc]
  rw [hpos] at e
  have hfr := (entered_frame u).trans
    (recorded_frame (entered u) (p0 + b.text.length + (x ++ chr ';' :: q).length))
  by_cases hat : ch = chr '@'
  · subst hat
    rw [turn_at hin, ← hpos] at e
    exact shape_still_at_user (hb.frame (entered_frame u)) (hx.starts (.inl rfl)) e
  by_cases hsemi : ch = chr ';'
  · subst hsemi
    rw [turn_semicolon hin] at e
    cases e
    have hb' := hb.frame hfr
    refine ⟨b, x ++ chr ';' :: q, [], by simp, hsemis, fun c hc => absurd hc not_mem_nil, rfl, ?_, ?_⟩
    · exact hb'.next hat (hb'.fields.congr (by simp [semicolon_case]) (by simp [semicolon_case])
        (by simp [semicolon_case]) (by simp [semicolon_case])) (by simp [semicolon_case])
        (Colon.no_user (by decide))
    · exact (no_user_s _).trans (hfr.s.trans hs0)
  by_cases hques : ch = chr '?'
  · subst hques
    rw [turn_question hin] at e
    cases e
    have hb' := hb.frame hfr
    refine ⟨b, x ++ chr ';' :: q, [], by simp, hsemis, ?_, fun _ => Free.nil, ?_⟩
    · exact hb'.next hat (hb'.fields.congr (by simp [question_case]) (by simp [question_case])
        (by simp [question_case]) (by simp [question_case])) (by simp [question_case])
        (Colon.no_user (by decide))
    · rw [params_part, if_neg (by simp)]
      show Part.part (recorded (entered u) _).s (_ - (recorded (entered u) _).s) = _
      rw [hfr.s, hs0]
      congr 1
      omega
  -- the parameter goes on
  have hends : ¬ ends ch := by
    rintro (h | h | h)
    · exact hat h
    · exact hsemi h
    · exact hques h
  have hgo : ∀ v, v.state = u.state → v.s = u.s → Behind p0 b (x ++ chr ';' :: q ++ [ch]) v → ∀ n,
      Shape p0 (b.text ++ (x ++ chr ';' :: q) ++ [ch]) (went_on v n ch) := by
    intro v hv hvs hbv n
    have hstate : (went_on v n ch).state = (q ++ [ch]).foldl move .URI_PARAM := by
      rw [foldl_append, ← hst, ← hv]
      rfl
    refine (shape_iff_params ?_).2 ⟨b, x, q ++ [ch], by simp, hx, ?_, hstate, ?_,
      (went_on_frame v n ch).s.trans (hvs.trans hs0)⟩
    · show in_params (move v.state ch) = true
      rw [hv]
      exact in_params_move hin hends
    · intro c hc
      rcases mem_append.1 hc with hc | hc
      · exact hq c hc
      · rw [mem_singleton.1 hc]
        exact hends
    · have := hbv.frame (went_on_frame v n ch)
      rwa [append_assoc, cons_append] at this
  by_cases hcolon : ch = chr ':'
  · subst hcolon
    rw [turn_colon hin] at e
    cases e
    refine hgo _ (by simp) (by simp) ?_ _
    exact hb.next hat (hb.fields.congr (by simp) (by simp) (by simp) (by simp)) (by simp) Colon.colon
  · rw [turn_other hin hends hcolon] at e
    cases e
    refine hgo _ rfl rfl ?_ _
    refine hb.next hat hb.fields rfl fun hf => ⟨hf, fun hc => hc.other ?_⟩
    simp only [mem_cons, not_mem_nil, or_false, forall_eq_or_imp, forall_eq]
    exact ⟨hcolon, hsemi, hques⟩

theorem shape_headers (hs : u.state = .URI_HEADERS) (h : Shape p0 t u)
    (e : turn u (p0 + t.length) ch = .ok u') : Shape p0 (t ++ [ch]) u' := by
  rw [Shape, hs] at h
  obtain ⟨b, x, z, rfl, hx, hb, hz, hparams⟩ := h
  have hpos : p0 + (b.text ++ (x ++ chr '?' :: z)).length =
      p0 + b.text.length + (x ++ chr '?' :: z).length := by
    rw [length_append, add_assoc]
  rw [turn, hs] at e
  dsimp only at e
  have hgo : ∀ v, v.state = .URI_HEADERS → Behind p0 b (x ++ chr '?' :: z ++ [ch]) v →
      (v.error_headers = false → Free [';'] (z ++ [ch])) → v.uri.params = u.uri.params →
      Shape p0 (b.text ++ (x ++ chr '?' :: z) ++ [ch]) v := by
    intro v hv hbv hzv hpv
    rw [Shape, hv]
    refine ⟨b, x, z ++ [ch], by simp, hx, ?_, hzv, hpv.trans hparams⟩
    rwa [append_assoc, cons_append] at hbv
  rw [hpos] at e
  split_ifs at e with h1 h2 h3 h4 h5 h6
  · rw [h1]
    rw [← hpos] at e
    exact shape_still_at_user hb (hx.starts (.inr rfl)) e
  · -- a semicolon is an error, unless the user comes
    cases e
    have hnone : u.pass = none := not_isSome_iff_eq_none.1 h4
    refine hgo _ rfl (hb.next h1 hb.fields rfl fun hf => ⟨hf, fun hc => ?_⟩) (fun h => by cases h) rfl
    rw [hnone] at hc ⊢
    exact free_concat hc (by simp [h2]; decide)
  · cases e
    refine hgo _ (by simpa using hs) ?_ (fun h => free_concat (hz (by simpa using h)) (by simpa using h2))
      (by simp)
    exact hb.next h1 (hb.fields.congr (by simp) (by simp) (by simp) (by simp)) (by simp) (h5 ▸ Colon.colon)
  · cases e
    refine hgo _ (by simpa using hs) ?_ (fun h => free_concat (hz (by simpa using h)) (by simpa using h2))
      (by simp)
    exact hb.next h1 (hb.fields.congr (by simp) (by simp) (by simp) (by simp)) (by simp) (Colon.no_user h5)
  · cases e
    refine hgo _ hs (hb.next h1 hb.fields rfl fun hf => ⟨hf, fun hc => hc.other ?_⟩) (fun h => ?_) rfl
    · simp only [mem_cons, not_mem_nil, or_false, forall_eq_or_imp, forall_eq]
      exact ⟨h5, h2, h6⟩
    · exact free_concat (hz h) (by simpa using h2)

/-- **What the loop read, character by character.** -/
theorem shape_turn (h : Shape p0 t u) (e : turn u (p0 + t.length) ch = .ok u') : Shape p0 (t ++ [ch]) u' := by
  by_cases hin : in_params u.state = true
  · exact shape_params hin h e
  cases hs : u.state with
  | URI_INIT => exact shape_init hs h e
  | URI_USER => exact shape_user hs h e
  | URI_PASSWORD => exact shape_password hs h e
  | URI_PASSWORD_ALPHA => exact shape_password_alpha hs h e
  | URI_HOST => exact shape_host hs h e
  | URI_HOST_P => exact shape_host_p hs h e
  | URI_HOST6_P => exact shape_host6 hs h e
  | URI_HOST6_END => exact shape_host6_end hs h e
  | URI_PORT => exact shape_port hs h e
  | URI_HEADERS => exact shape_headers hs h e
  | _ =>
    rw [hs] at hin
    exact absurd rfl hin

def Queries (z : Str) : Prop := z = [] ∨ ∃ z', z = chr '?' :: z' ∧ Free ['@', ';'] z'

/-- **The text of an accepted uri**, with the parts the uri gets. -/
def Reads (p0 : ℕ) (t : Str) (uri : SipUri) : Prop :=
  ∃ (b : Lead) (x z : Str), t = b.text ++ (x ++ z) ∧ b.Ok ∧ b.In p0 uri ∧ Semis x ∧ Queries z ∧
    uri.params = params_part (p0 + b.text.length) x

theorem shape_end {uri : SipUri} (h : Shape p0 t u) (e : end_of_uri u (p0 + t.length) = .ok uri) :
    Reads p0 t uri := by
  by_cases hin : in_params u.state = true
  · obtain ⟨b, x, q, rfl, hx, hq, -, hb, hs0⟩ := (shape_iff_params hin).1 h
    obtain rfl := end_of_params hin e
    have hfr := recorded_last_frame (params_set u (p0 + (b.text ++ (x ++ chr ';' :: q)).length))
      (p0 + (b.text ++ (x ++ chr ';' :: q)).length)
    refine ⟨b, x ++ chr ';' :: q, [], by simp, hb.ok, ?_, hx.snoc hq, .inl rfl, hfr.params.trans ?_⟩
    · exact hb.fields.congr (hfr.user.trans rfl) (hfr.host.trans rfl) (hfr.port.trans rfl)
        (hfr.uri_port_no.trans rfl)
    · rw [params_part, if_neg (by simp)]
      show Part.part u.s (_ - u.s) = _
      rw [hs0, length_append]
      congr 1
      omega
  have hhost : ∀ {f user left h : Str}, t = f ++ h → Led p0 f user left u → (Bracketed h ∨ f ≠ [] ∧ Late h) →
      Reads p0 t { u.uri with host := .part u.s (p0 + t.length - u.s) } := by
    intro f user left h ht hl hh
    refine ⟨⟨f, user, left, h, none⟩, [], [], ?_, ⟨hl.ok, hh.imp_right fun hh : f ≠ [] ∧ Late h =>
      (if_neg hh.1).symm ▸ hh.2, fun d hd => nomatch hd⟩, ⟨hl.user, ?_, hl.bare.1, hl.bare.2.1⟩, .inl rfl,
      .inl rfl, hl.bare.2.2⟩
    · rw [ht]
      show f ++ h = f ++ (h ++ []) ++ ([] ++ [])
      simp
    · show Part.part u.s (p0 + t.length - u.s) = .part (p0 + f.length) h.length
      rw [hl.s, ht, length_append]
      congr 1
      omega
  cases hs : u.state with
  | URI_INIT =>
    rw [end_of_uri, hs] at e
    cases e
  | URI_USER =>
    rw [Shape, hs] at h
    rw [end_of_uri, hs, h.2.found_user] at e
    cases e
    obtain ⟨ht, hf⟩ := h
    refine ⟨lead t none, [], [], ?_, lead_ok (.inl ht) (fun d hd => nomatch hd),
      ⟨hf.user, ?_, hf.bare.1, hf.bare.2.1⟩, .inl rfl, .inl rfl, hf.bare.2.2⟩
    · show t = [] ++ (t ++ []) ++ ([] ++ [])
      simp
    · show Part.part u.s (p0 + t.length - u.s) = .part p0 t.length
      rw [hf.s, Nat.add_sub_cancel_left]
  | URI_PASSWORD =>
    rw [Shape, hs] at h
    obtain ⟨w, d, rfl, hw, hd, hs0, hn, hf, -, hu, hport⟩ := h
    rw [end_of_uri, hs, hf] at e
    cases e
    refine ⟨lead w (some d), [], [], ?_, lead_ok (.inl hw) fun d' hd' => some.inj hd' ▸ hd,
      ⟨rfl, hu, ?_, ?_⟩, .inl rfl, .inl rfl, hport.2.2⟩
    · show w ++ chr ':' :: d = [] ++ (w ++ chr ':' :: d) ++ ([] ++ [])
      simp
    · show Part.part u.s (p0 + (w ++ chr ':' :: d).length - u.s) = .part (p0 + (0 + (w.length + 1))) d.length
      rw [hs0, length_append, length_cons]
      congr 1
      all_goals omega
    · show (u.port_no % 2 ^ 16).toNat = _
      rw [hn]
      rfl
  | URI_PASSWORD_ALPHA =>
    rw [end_of_uri, hs] at e
    cases e
  | URI_HOST =>
    rw [end_of_uri, hs] at e
    cases e
  | URI_HOST_P =>
    rw [Shape, hs] at h
    rw [end_of_uri, hs] at e
    cases e
    obtain ⟨f, user, left, h, ht, hne, hl, hh⟩ := h
    exact hhost ht hl (.inr ⟨hne, hh⟩)
  | URI_HOST6_P =>
    rw [end_of_uri, hs] at e
    cases e
  | URI_HOST6_END =>
    rw [Shape, hs] at h
    rw [end_of_uri, hs] at e
    cases e
    obtain ⟨f, user, left, h, ht, hl, hh⟩ := h
    exact hhost ht hl (.inl hh)
  | URI_PORT =>
    rw [Shape, hs] at h
    rw [end_of_uri, hs] at e
    cases e
    obtain ⟨f, user, left, h, d, rfl, hok, hh, hd, hs0, hn, -, -, hu, hhost', hparams⟩ := h
    refine ⟨⟨f, user, left, h, some d⟩, [], [], ?_, ⟨hok, hh.imp_right fun hh : f ≠ [] ∧ Late h =>
      (if_neg hh.1).symm ▸ hh.2, fun d' hd' => some.inj hd' ▸ hd⟩, ⟨hu, hhost', ?_, ?_⟩,
      .inl rfl, .inl rfl, hparams⟩
    · show f ++ (h ++ chr ':' :: d) = f ++ (h ++ chr ':' :: d) ++ ([] ++ [])
      simp
    · show Part.part u.s (p0 + (f ++ (h ++ chr ':' :: d)).length - u.s) = .part _ d.length
      rw [hs0]
      simp only [length_append, length_cons]
      congr 1
      omega
    · show (u.port_no % 2 ^ 16).toNat = _
      rw [hn]
      rfl
  | URI_HEADERS =>
    rw [Shape, hs] at h
    obtain ⟨b, x, z, rfl, hx, hb, hz, hparams⟩ := h
    rw [end_of_uri, hs] at e
    dsimp only at e
    split_ifs at e with herr
    cases e
    have hz' := hz (Bool.eq_false_iff.2 herr)
    have hat := (free_cons.1 (free_append.1 hb.no_at).2).2
    refine ⟨b, x, chr '?' :: z, rfl, hb.ok, hb.fields.congr rfl rfl rfl rfl, hx, .inr ⟨z, rfl, ?_⟩, hparams⟩
    intro c hc hm
    rcases mem_cons.1 hm with hm | hm
    · exact hat c hc (mem_singleton.2 hm)
    · exact hz' c hc hm
  | _ =>
    rw [hs] at hin
    exact absurd rfl hin

end Steps

end OpenSips.Uri
