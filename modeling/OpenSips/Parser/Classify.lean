import OpenSips.Parser.Hname

/-!
# OpenSips.Parser.Classify — which header a name is that of (`parse_hname2.c`)

The leaves of the tree are listed with the bytes that the tests passed on the way to them say: they are the
names of a table, one of them without its `-`, and a line begins with a name and a byte that passes for `:` at
those that return at once.  With a name of the table in front of a `:` every leaf is one of its type.
-/

open OpenSips.Parser (HdrType)

namespace OpenSips.Hname

open Lib Decision List
open FirstLine (LF SPACE TAB forall_char tolower token_char)

section Tests

variable {mem : ℕ → UInt8} {p key : ℕ}

theorem or_step {v m k k0 : ℕ} (hk : k0 < 256) :
    v ||| (m * 256 + 0x20) = k * 256 + k0 ↔ v % 256 ||| 0x20 = k0 ∧ v / 256 ||| m = k := by
  have hmod : (v ||| (m * 256 + 0x20)) % 256 = v % 256 ||| 0x20 := by
    rw [show 256 = 2 ^ 8 from rfl, Nat.or_mod_two_pow, show (m * 2 ^ 8 + 0x20) % 2 ^ 8 = 0x20 by omega]
  have hdiv : (v ||| (m * 256 + 0x20)) / 256 = v / 256 ||| m := by
    rw [show 256 = 2 ^ 8 from rfl, Nat.or_div_two_pow, show (m * 2 ^ 8 + 0x20) / 2 ^ 8 = m by omega]
  constructor
  · intro h
    rw [← hmod, ← hdiv, h]
    omega
  · rintro ⟨h1, h2⟩
    rw [← hmod] at h1
    rw [← hdiv] at h2
    omega

theorem dword_iff {v k0 k1 k2 k3 : ℕ} (h0 : k0 < 256) (h1 : k1 < 256) (h2 : k2 < 256) :
    LOWER_DWORD v = ((k3 * 256 + k2) * 256 + k1) * 256 + k0 ↔
      v % 256 ||| 0x20 = k0 ∧ v / 256 % 256 ||| 0x20 = k1 ∧ v / 256 / 256 % 256 ||| 0x20 = k2 ∧
        v / 256 / 256 / 256 ||| 0x20 = k3 := by
  rw [LOWER_DWORD, show 0x20202020 = 0x202020 * 256 + 0x20 from rfl, or_step h0,
    show 0x202020 = 0x2020 * 256 + 0x20 from rfl, or_step h1, show 0x2020 = 0x20 * 256 + 0x20 from rfl, or_step h2]

theorem char_cases (c : UInt8) : c.toNat < 256 ∧ (c.toNat < 128 ∧ char c = c.toNat ∨
    128 ≤ c.toNat ∧ char c = c.toNat - 256) := by
  refine ⟨c.toNat_lt, ?_⟩
  by_cases h : c.toNat < 128
  · exact .inl ⟨h, if_pos h⟩
  · exact .inr ⟨le_of_not_gt h, if_neg h⟩

theorem val_bytes {b0 b1 b2 b3 : ℕ} (h0 : b0 < 128) (h1 : b1 < 128) (h2 : b2 < 128) (h3 : b3 < 128) :
    val mem p = ((b3 * 256 + b2) * 256 + b1) * 256 + b0 ↔
      (mem p).toNat = b0 ∧ (mem (p + 1)).toNat = b1 ∧ (mem (p + 2)).toNat = b2 ∧ (mem (p + 3)).toNat = b3 := by
  have hv : (val mem p : ℤ) = READ mem p % 2 ^ 32 := Int.toNat_of_nonneg (Int.emod_nonneg _ (by decide))
  rw [READ] at hv
  obtain ⟨hc0, hs0⟩ := char_cases (mem p)
  obtain ⟨hc1, hs1⟩ := char_cases (mem (p + 1))
  obtain ⟨hc2, hs2⟩ := char_cases (mem (p + 2))
  obtain ⟨hc3, hs3⟩ := char_cases (mem (p + 3))
  constructor
  · intro h
    rw [h] at hv
    have e0 : (mem p).toNat = b0 := by omega
    have e1 : (mem (p + 1)).toNat = b1 := by omega
    have e2 : (mem (p + 2)).toNat = b2 := by omega
    exact ⟨e0, e1, e2, by omega⟩
  · rintro ⟨e0, e1, e2, e3⟩
    omega

theorem lower_toNat (c : UInt8) : (LOWER_BYTE c).toNat = c.toNat ||| 0x20 := UInt8.toNat_or c 0x20

def atoms : Test → List (ℕ × UInt8)
  | .key key => [(0, .ofNat (key % 256)), (1, .ofNat (key / 256 % 256)), (2, .ofNat (key / 256 / 256 % 256)),
      (3, .ofNat (key / 256 / 256 / 256))]
  | .lower i c => [(i, chr c)]
  | .byte i c => [(i, LOWER_BYTE (chr c))]

def plain : Test → Bool
  | .key key => decide (key % 256 < 128 ∧ key / 256 % 256 < 128 ∧ key / 256 / 256 % 256 < 128 ∧
      key / 256 / 256 / 256 < 128)
  | _ => true

theorem holds_key (h : plain (.key key) = true) : holds mem (.key key) p = true ↔
    ∀ x ∈ atoms (.key key), LOWER_BYTE (mem (p + x.1)) = x.2 := by
  obtain ⟨h0, h1, h2, h3⟩ := of_decide_eq_true h
  have hbyte : ∀ {c : UInt8} {k : ℕ}, k < 128 → (LOWER_BYTE c = .ofNat k ↔ c.toNat ||| 0x20 = k) := by
    intro c k hk
    rw [← UInt8.toNat_inj, lower_toNat, UInt8.toNat_ofNat', Nat.mod_eq_of_lt (by omega)]
  have hkey : key = ((key / 256 / 256 / 256 * 256 + key / 256 / 256 % 256) * 256 + key / 256 % 256) * 256 +
      key % 256 := by
    omega
  have hlow : ∀ {x k : ℕ}, k < 128 → x ||| 0x20 = k → x < 128 := fun hk hx =>
    lt_of_le_of_lt (hx ▸ Nat.left_le_or) hk
  rw [holds, beq_iff_eq]
  simp only [atoms, forall_mem_cons, not_mem_nil, false_imp_iff, implies_true, and_true, add_zero,
    hbyte h0, hbyte h1, hbyte h2, hbyte h3]
  conv_lhs => rw [hkey]
  rw [dword_iff (by omega) (by omega) (by omega)]
  constructor
  · rintro ⟨e0, e1, e2, e3⟩
    have hsum : val mem p = ((val mem p / 256 / 256 / 256 * 256 + val mem p / 256 / 256 % 256) * 256 +
        val mem p / 256 % 256) * 256 + val mem p % 256 := by
      omega
    have hval := (val_bytes (hlow h0 e0) (hlow h1 e1) (hlow h2 e2) (hlow h3 e3)).1 hsum
    rw [hval.1, hval.2.1, hval.2.2.1, hval.2.2.2]
    exact ⟨e0, e1, e2, e3⟩
  · rintro ⟨e0, e1, e2, e3⟩
    have l0 := hlow h0 e0
    have l1 := hlow h1 e1
    have l2 := hlow h2 e2
    have l3 := hlow h3 e3
    have hval : val mem p = _ := (val_bytes l0 l1 l2 l3).2 ⟨rfl, rfl, rfl, rfl⟩
    have hv0 : val mem p % 256 = (mem p).toNat := by omega
    have hv1 : val mem p / 256 % 256 = (mem (p + 1)).toNat := by omega
    have hv2 : val mem p / 256 / 256 % 256 = (mem (p + 2)).toNat := by omega
    have hv3 : val mem p / 256 / 256 / 256 = (mem (p + 3)).toNat := by omega
    rw [hv0, hv1, hv2, hv3]
    exact ⟨e0, e1, e2, e3⟩

theorem holds_atoms {t : Test} (h : plain t = true) (ht : holds mem t p = true) :
    ∀ x ∈ atoms t, LOWER_BYTE (mem (p + x.1)) = x.2 := by
  cases t with
  | key key => exact (holds_key h).1 ht
  | lower i c => exact forall_mem_singleton.2 (beq_iff_eq.1 ht)
  | byte i c => exact forall_mem_singleton.2 (congrArg LOWER_BYTE (beq_iff_eq.1 ht))

end Tests
section Names

/-- Names that are read. -/
def common : List (String × HdrType) :=
  [("via", .VIA), ("v", .VIA), ("to", .TO), ("t", .TO), ("from", .FROM), ("f", .FROM), ("cseq", .CSEQ),
    ("call-id", .CALLID), ("i", .CALLID), ("contact", .CONTACT), ("m", .CONTACT), ("max-forwards", .MAXFORWARDS),
    ("route", .ROUTE), ("record-route", .RECORDROUTE), ("path", .PATH), ("content-type", .CONTENTTYPE),
    ("c", .CONTENTTYPE), ("content-length", .CONTENTLENGTH), ("l", .CONTENTLENGTH),
    ("authorization", .AUTHORIZATION), ("expires", .EXPIRES), ("proxy-authorization", .PROXYAUTH),
    ("supported", .SUPPORTED), ("k", .SUPPORTED), ("proxy-require", .PROXYREQUIRE),
    ("unsupported", .UNSUPPORTED), ("allow", .ALLOW), ("event", .EVENT), ("o", .EVENT), ("accept", .ACCEPT),
    ("accept-language", .ACCEPTLANGUAGE), ("organization", .ORGANIZATION), ("priority", .PRIORITY),
    ("subject", .SUBJECT), ("user-agent", .USERAGENT), ("content-disposition", .CONTENTDISPOSITION),
    ("diversion", .DIVERSION), ("remote-party-id", .RPID), ("refer-to", .REFER_TO),
    ("session-expires", .SESSION_EXPIRES), ("x", .SESSION_EXPIRES), ("min-se", .MIN_SE),
    ("p-preferred-identity", .PPI), ("p-asserted-identity", .PAI), ("privacy", .PRIVACY),
    ("retry-after", .RETRY_AFTER)]

def missed : List (String × HdrType) :=
  [("accept-disposition", .ACCEPTDISPOSITION), ("s", .SUBJECT), ("r", .REFER_TO)]

/-- What is read in the place of `accept-disposition`. -/
def mistaken : String × HdrType := ("acceptadisposition", .ACCEPTDISPOSITION)

/-- The headers, with their full and their compact names. -/
def names : List (String × HdrType) := common ++ missed

def read_names : List (String × HdrType) := mistaken :: common

/-- What a line begins with that is taken for a name and a `:`. -/
def sealed : List String :=
  ["via:", "to: ", "t:", "call-id:", "contact:", "content-length: ", "content-disposition:", "expires:",
    "proxy-authorization:", "unsupported:", "accept-language:", "subject:", "remote-party-id:",
    "session-expires:", "p-asserted-identity:", "privacy:", "retry-after:"]

def bytes (text : String) : Str := text.toList.map chr

def words (ns : List (String × HdrType)) : List (Str × HdrType) := ns.map fun n => (bytes n.1, n.2)

def name_type (ns : List (String × HdrType)) (name : Str) : HdrType :=
  ((ns.find? fun n => decide (ParseParam.Named name n.1)).map Prod.snd).getD .OTHER

end Names

section Leaves

/-- The bytes that the tests passed say, in lower case. -/
def letters (l : Leaf Test Goto) : List (ℕ × UInt8) :=
  l.passed.reverse.flatMap fun x => (atoms x.1).map fun a => (x.2 + a.1, a.2)

def reads (l : Leaf Test Goto) (w : Str) : Bool := (w.zipIdx.map Prod.swap).isPrefixOf (letters l)

/-- No `:` and no line end in front of position `n`. -/
def passes (l : Leaf Test Goto) (n : ℕ) : Bool :=
  ((letters l).take n).map Prod.fst == List.range n &&
    ((letters l).take n).all fun x => x.2 != chr ':' && x.2 != chr '*'

def names_type (l : Leaf Test Goto) (type : HdrType) (n : ℕ) : Bool :=
  (words read_names).any fun x => x.1.length == n && decide (x.2 = type) && reads l x.1

def sound (l : Leaf Test Goto) : Bool :=
  l.passed.all (fun x => plain x.1) &&
    match l.out with
    | .found type len n => passes l len && (letters l).contains (len, chr ':') && names_type l type len &&
        (l.passed.any (fun x => match x.1 with | .byte i c => c == ':' && x.2 + i == len | _ => false) ||
          sealed.any fun w => (bytes w).length == l.stop + n && reads l (bytes w))
    | .dc_end type => passes l l.stop &&
        (names_type l type l.stop || (letters l).any fun x => decide (x.1 < l.stop) && x.2 == SPACE)
    | .other => passes l l.stop

/-- What is known of a test of one byte when the text begins with `w`, in lower case. -/
def known_low (w : Str) (x : ℕ × UInt8) : Option Bool := (w[x.1]?).map (· == x.2)

/-- What is known of a test when, in addition, the byte at `n` is a `:`. -/
def known (w : Str) (n : Option ℕ) : Test → ℕ → Option Bool
  | .key key, p =>
    if plain (.key key) then
      let ks := (atoms (.key key)).map fun x => known_low w (p + x.1, x.2)
      if ks.contains (some false) then some false
      else if ks.all (· == some true) then some true
      else none
    else none
  | .lower i c, p => known_low w (p + i, chr c)
  | .byte i c, p =>
    if n = some (p + i) then some (chr ':' == chr c)
    else if known_low w (p + i, LOWER_BYTE (chr c)) = some false then some false
    else none

def name_switch : Code := switch FIRST_QUATERNIONS compact

theorem leaves_sound : (leaves (fun _ _ => none) name_switch 0 []).all sound = true := by
  decide +kernel

/-- The end of a name of the table. -/
def ends (type : HdrType) (n : ℕ) (l : Leaf Test Goto) : Bool :=
  match l.out with
  | .found type' len _ => decide (type' = type) && len == n
  | .dc_end type' => decide (type' = type) && l.stop == n
  | .other => false

theorem names_end : (words read_names).all (fun x => x.1.map tolower == x.1 &&
    x.1.all (fun c => c != chr '_' && c != 0x7f) &&
    (leaves (known (x.1 ++ [chr ':']) (some x.1.length)) name_switch 0 []).all (ends x.2 x.1.length)) = true := by
  decide +kernel

theorem sealed_end : sealed.all (fun w => (bytes w).all (fun c => c != chr '*') &&
    (leaves (known (bytes w) none) name_switch 0 []).all fun l =>
      match l.out with | .found _ _ _ => true | _ => false) = true := by
  decide +kernel

variable {mem : ℕ → UInt8} {w : Str} {n : Option ℕ} {p : ℕ} {b : Bool}

/-- The text begins with `w`, in lower case. -/
def Starts (mem : ℕ → UInt8) (w : Str) : Prop := ∀ j a, w[j]? = some a → LOWER_BYTE (mem j) = a

theorem known_low_spec (hw : Starts mem w) {x : ℕ × UInt8} (h : known_low w x = some b) :
    LOWER_BYTE (mem x.1) = x.2 ↔ b = true := by
  obtain ⟨a, ha, rfl⟩ := Option.map_eq_some_iff.1 h
  rw [hw _ a ha, beq_iff_eq]

/-- **What is known is so.** -/
theorem known_spec (hw : Starts mem w) (hn : ∀ j ∈ n, mem j = chr ':') (t : Test) (p : ℕ) (b : Bool)
    (h : known w n t p = some b) : holds mem t p = b := by
  cases t with
  | lower i c =>
    have hl := known_low_spec hw (x := (p + i, chr c)) h
    rw [Bool.eq_iff_iff, ← hl]
    exact beq_iff_eq
  | byte i c =>
    rw [known] at h
    split_ifs at h with hp hl
    · rw [holds, hn _ hp]
      exact Option.some.inj h
    · obtain rfl := Option.some.inj h
      refine Bool.eq_false_iff.2 fun hc => ?_
      have hc : mem (p + i) = chr c := beq_iff_eq.1 hc
      exact Bool.false_ne_true ((known_low_spec hw hl).1 (congrArg LOWER_BYTE hc))
  | key key =>
    rw [known] at h
    split_ifs at h with hplain
    dsimp only at h
    split_ifs at h with hf ht
    · obtain rfl := Option.some.inj h
      obtain ⟨x, hx, hlow⟩ := List.mem_map.1 (contains_iff_mem.1 hf)
      refine Bool.eq_false_iff.2 fun hk => ?_
      exact Bool.false_ne_true ((known_low_spec hw hlow).1 ((holds_key hplain).1 hk x hx))
    · obtain rfl := Option.some.inj h
      refine (holds_key hplain).2 fun x hx => ?_
      have hlow := List.all_eq_true.1 ht _ (List.mem_map_of_mem hx)
      exact (known_low_spec hw (beq_iff_eq.1 hlow)).2 rfl

/-- No `:` and no line end in front of position `n`. -/
def Passed (mem : ℕ → UInt8) (n : ℕ) : Prop := ∀ j < n, mem j ≠ chr ':' ∧ mem j ≠ LF

def NameRead (mem : ℕ → UInt8) (type : HdrType) (n : ℕ) : Prop :=
  ∃ x ∈ words read_names, x.2 = type ∧ x.1.length = n ∧ Starts mem x.1

inductive Ended (mem : ℕ → UInt8) : Goto × ℕ → Prop where
  | found {type : HdrType} {len n stop : ℕ} (passed : Passed mem len) (colon : LOWER_BYTE (mem len) = chr ':')
      (name : NameRead mem type len) (sealed : mem len = chr ':' ∨ ∃ w ∈ sealed, Starts mem (bytes w)) :
      Ended mem (.found type len n, stop)
  | dc_end {type : HdrType} {stop : ℕ} (passed : Passed mem stop)
      (name : NameRead mem type stop ∨ ∃ j < stop, LOWER_BYTE (mem j) = SPACE) : Ended mem (.dc_end type, stop)
  | other {stop : ℕ} (passed : Passed mem stop) : Ended mem (.other, stop)

variable {l : Leaf Test Goto} {k : ℕ} {type : HdrType}

theorem letters_spec (hplain : ∀ x ∈ l.passed, plain x.1 = true)
    (hpassed : ∀ x ∈ l.passed, holds mem x.1 x.2 = true) : ∀ x ∈ letters l, LOWER_BYTE (mem x.1) = x.2 := by
  intro x hx
  obtain ⟨t, ht, hx⟩ := mem_flatMap.1 hx
  obtain ⟨a, ha, rfl⟩ := List.mem_map.1 hx
  rw [mem_reverse] at ht
  exact holds_atoms (hplain t ht) (hpassed t ht) a ha

section

variable (hl : ∀ x ∈ letters l, LOWER_BYTE (mem x.1) = x.2)
include hl

theorem reads_spec (h : reads l w = true) : Starts mem w := by
  intro j a ha
  have hmem : (j, a) ∈ w.zipIdx.map Prod.swap :=
    List.mem_map.2 ⟨(a, j), mem_zipIdx_iff_getElem?.2 ha, rfl⟩
  exact hl _ ((List.isPrefixOf_iff_prefix.1 h).subset hmem)

theorem passes_spec (h : passes l k = true) : Passed mem k := by
  rw [passes, Bool.and_eq_true, beq_iff_eq, List.all_eq_true] at h
  intro j hj
  obtain ⟨x, hx, rfl⟩ := List.mem_map.1 (h.1 ▸ mem_range.2 hj)
  have hne := h.2 x hx
  rw [Bool.and_eq_true, bne_iff_ne, bne_iff_ne, ← hl x (mem_of_mem_take hx)] at hne
  refine ⟨fun hc => hne.1 (by rw [hc]; decide), fun hc => hne.2 (by rw [hc]; decide)⟩

theorem names_type_spec (h : names_type l type k = true) : NameRead mem type k := by
  obtain ⟨x, hx, h⟩ := List.any_eq_true.1 h
  rw [Bool.and_eq_true, Bool.and_eq_true, beq_iff_eq, decide_eq_true_iff] at h
  exact ⟨x, hx, h.1.2, h.1.1, reads_spec hl h.2⟩

end

/-- **The tree ends** where a name may end, or where no name of the table stands. -/
theorem run_ended (mem : ℕ → UInt8) : Ended mem (run (holds mem) name_switch 0) := by
  obtain ⟨l, hmem, hrun, hpassed⟩ := run_leaf (holds mem) (fun _ _ => none)
    (fun _ _ _ h => by cases h) name_switch 0 [] fun _ h => absurd h not_mem_nil
  have hsound := List.all_eq_true.1 leaves_sound l hmem
  rw [hrun]
  rw [sound, Bool.and_eq_true, List.all_eq_true] at hsound
  obtain ⟨hplain, hsound⟩ := hsound
  have hl := letters_spec hplain hpassed
  cases hout : l.out with
  | other =>
    rw [hout] at hsound
    exact .other (passes_spec hl hsound)
  | dc_end type =>
    rw [hout] at hsound
    simp only [Bool.and_eq_true, Bool.or_eq_true, List.any_eq_true, decide_eq_true_iff, beq_iff_eq] at hsound
    obtain ⟨hp, hname⟩ := hsound
    refine .dc_end (passes_spec hl hp) (hname.imp (names_type_spec hl) ?_)
    rintro ⟨x, hx, hlt, heq⟩
    exact ⟨x.1, hlt, (hl x hx).trans heq⟩
  | found type len n =>
    rw [hout] at hsound
    simp only [Bool.and_eq_true, Bool.or_eq_true, List.any_eq_true, beq_iff_eq, contains_iff_mem] at hsound
    obtain ⟨⟨⟨hp, hcolon⟩, hname⟩, hseal⟩ := hsound
    refine .found (passes_spec hl hp) (hl _ hcolon) (names_type_spec hl hname) (hseal.imp ?_ ?_)
    · rintro ⟨⟨t, p⟩, hx, ht⟩
      cases t with
      | key key => cases ht
      | lower i c => cases ht
      | byte i c =>
        simp only [Bool.and_eq_true, beq_iff_eq] at ht
        obtain ⟨rfl, rfl⟩ := ht
        exact beq_iff_eq.1 (hpassed _ hx)
    · rintro ⟨w, hw, -, hr⟩
      exact ⟨w, hw, reads_spec hl hr⟩

end Leaves

section Ends

variable {mem : ℕ → UInt8} {c : UInt8} {p q f size : ℕ}

theorem q_memchr_spec (mem : ℕ → UInt8) (c : UInt8) : ∀ p size, match q_memchr mem c p size with
    | some f => p ≤ f ∧ f < p + size ∧ mem f = c ∧ ∀ j, p ≤ j → j < f → mem j ≠ c
    | none => ∀ j, p ≤ j → j < p + size → mem j ≠ c
  | p, 0 => fun j h h' => absurd h' (by omega)
  | p, size + 1 => by
    rw [q_memchr]
    split_ifs with hp
    · exact ⟨Nat.le_refl p, by omega, hp, fun j h h' => absurd h' (by omega)⟩
    · have ih := q_memchr_spec mem c (p + 1) size
      cases hq : q_memchr mem c (p + 1) size with
      | none =>
        rw [hq] at ih
        intro j h h'
        rcases eq_or_lt_of_le h with rfl | h
        · exact hp
        · exact ih j h (by omega)
      | some f =>
        rw [hq] at ih
        obtain ⟨h1, h2, h3, h4⟩ := ih
        refine ⟨by omega, by omega, h3, fun j h h' => ?_⟩
        rcases eq_or_lt_of_le h with rfl | h
        · exact hp
        · exact h4 j h h'

/-- The first `:` is found. -/
theorem q_memchr_first (hf : mem f = c) (hpf : p ≤ f) (hsize : f < p + size)
    (hno : ∀ j, p ≤ j → j < f → mem j ≠ c) : q_memchr mem c p size = some f := by
  have hspec := q_memchr_spec mem c p size
  cases hq : q_memchr mem c p size with
  | none =>
    rw [hq] at hspec
    exact absurd hf (hspec f hpf hsize)
  | some g =>
    rw [hq] at hspec
    obtain ⟨hpg, -, hg, hfirst⟩ := hspec
    rcases lt_trichotomy f g with hlt | heq | hlt
    · exact absurd hf (hfirst f hpf hlt)
    · rw [heq]
    · exact absurd hg (hno g hpg hlt)

theorem skip_ws_spec (hf : mem f ≠ SPACE ∧ mem f ≠ TAB) : ∀ size p, p ≤ f →
    p ≤ skip_ws mem p size ∧ skip_ws mem p size ≤ f
  | 0, p, h => ⟨Nat.le_refl p, h⟩
  | size + 1, p, h => by
    rw [skip_ws]
    split_ifs with hp
    · exact ⟨Nat.le_refl p, h⟩
    · have hne : p ≠ f := fun heq => hp (heq ▸ hf)
      obtain ⟨h1, h2⟩ := skip_ws_spec hf size (p + 1) (by omega)
      exact ⟨by omega, h2⟩

theorem skip_ws_stay (hp : mem p ≠ SPACE ∧ mem p ≠ TAB) (size : ℕ) : skip_ws mem p size = p := by
  obtain ⟨h1, h2⟩ := skip_ws_spec hp size p (Nat.le_refl p)
  omega

theorem room_eq (hp : p ≤ size) (hsize : size < 2 ^ 32) : room size p = size - p := by
  rw [room]
  omega

/-- The first `:` of the text, and no byte in front of it that passes for one. -/
structure Colon (mem : ℕ → UInt8) (size f : ℕ) : Prop where
  colon : mem f = chr ':'
  first : ∀ j < f, mem j ≠ chr ':' ∧ mem j ≠ 0x1a
  inside : f < size
  size : 4 ≤ size ∧ size < 2 ^ 32

theorem Colon.le (h : Colon mem size f) (hp : Passed mem q) : q ≤ f := by
  by_contra hlt
  exact (hp f (lt_of_not_ge hlt)).1 h.colon

theorem Colon.unknown_eq (h : Colon mem size f) (hq : q ≤ f) :
    unknown mem size q = ⟨.OTHER, some f, some (f + 1)⟩ := by
  have hsize := h.size
  have hin := h.inside
  rw [unknown, room_eq (by omega) hsize.2, q_memchr_first h.colon hq (by omega) fun j _ hj => (h.first j hj).1]

theorem lower_colon (c : UInt8) : LOWER_BYTE c = chr ':' → c = chr ':' ∨ c = 0x1a :=
  forall_char (p := fun c => LOWER_BYTE c = chr ':' → c = chr ':' ∨ c = 0x1a) (by decide) c

theorem Colon.found (h : Colon mem size f) (hp : Passed mem q) (hq : LOWER_BYTE (mem q) = chr ':') : q = f := by
  rcases eq_or_lt_of_le (h.le hp) with heq | hlt
  · exact heq
  · rcases lower_colon _ hq with hc | hc
    · exact absurd hc (h.first q hlt).1
    · exact absurd hc (h.first q hlt).2

theorem Colon.parse (h : Colon mem size f) :
    parse_hname2 mem size = settle mem size (run (holds mem) name_switch 0) := by
  rw [parse_hname2, if_neg (not_lt.2 h.size.1)]
  rfl

/-- **The name goes up to the first `:`.** -/
theorem Colon.name (h : Colon mem size f) : (parse_hname2 mem size).name = some f := by
  have hend := run_ended mem
  rw [h.parse]
  generalize run (holds mem) name_switch 0 = r at hend
  cases hend with
  | found hp hc => exact congrArg some (h.found hp hc)
  | other hp =>
    rw [settle, h.unknown_eq (h.le hp)]
  | @dc_end type stop hp =>
    have hws : mem f ≠ SPACE ∧ mem f ≠ TAB := by
      rw [h.colon]
      decide
    obtain ⟨-, hle⟩ := skip_ws_spec hws (room size stop) stop (h.le hp)
    rw [settle]
    split_ifs with hc
    · rw [h.unknown_eq hle]
    · rw [not_not] at hc
      rcases eq_or_lt_of_le hle with heq | hlt
      · exact congrArg some heq
      · exact absurd hc (h.first _ hlt).1

/-- A name and the `:` behind it. -/
structure Header (mem : ℕ → UInt8) (size : ℕ) (name : Str) : Prop where
  text : ∀ j a, name[j]? = some a → mem j = a
  token : ∀ c ∈ name, token_char c = true
  colon : mem name.length = chr ':'
  size : name.length < size ∧ 4 ≤ size ∧ size < 2 ^ 32

variable {name : Str}

theorem token_colon (c : UInt8) : token_char c = true →
    (c ≠ chr ':' ∧ c ≠ 0x1a) ∧ (c ≠ SPACE ∧ c ≠ TAB) ∧ LOWER_BYTE c ≠ SPACE :=
  forall_char (p := fun c => token_char c = true →
    (c ≠ chr ':' ∧ c ≠ 0x1a) ∧ (c ≠ SPACE ∧ c ≠ TAB) ∧ LOWER_BYTE c ≠ SPACE) (by decide) c

/-- Letter case, for the bytes of a token but `_`. -/
theorem token_lower (c : UInt8) : token_char c = true →
    LOWER_BYTE c = tolower c ∨ LOWER_BYTE c = 0x7f ∧ tolower c = chr '_' :=
  forall_char (p := fun c => token_char c = true →
    LOWER_BYTE c = tolower c ∨ LOWER_BYTE c = 0x7f ∧ tolower c = chr '_') (by decide) c

theorem Header.at (h : Header mem size name) {j : ℕ} (hj : j < name.length) : token_char (mem j) = true := by
  have hmem := h.text j name[j] (getElem?_eq_getElem hj)
  rw [hmem]
  exact h.token _ (getElem_mem hj)

theorem Header.to_colon (h : Header mem size name) : Colon mem size name.length where
  colon := h.colon
  first _ hj := (token_colon _ (h.at hj)).1
  inside := h.size.1
  size := h.size.2

variable {x : Str × HdrType}

theorem word_facts (hx : x ∈ words read_names) :
    x.1.map tolower = x.1 ∧ (∀ c ∈ x.1, c ≠ chr '_' ∧ c ≠ 0x7f) ∧
      ∀ l ∈ leaves (known (x.1 ++ [chr ':']) (some x.1.length)) name_switch 0 [], ends x.2 x.1.length l = true := by
  have h := List.all_eq_true.1 names_end x hx
  simp only [Bool.and_eq_true, beq_iff_eq, List.all_eq_true, bne_iff_ne] at h
  exact ⟨h.1.1, h.1.2, h.2⟩

theorem named_iff {n : String × HdrType} (hn : n ∈ read_names) :
    ParseParam.Named name n.1 ↔ name.map tolower = bytes n.1 := by
  have hlow := (word_facts (List.mem_map_of_mem hn)).1
  rw [ParseParam.Named, FirstLine.same_case]
  exact iff_of_eq (congrArg _ hlow)

theorem Header.starts (h : Header mem size name) (hx : x ∈ words read_names)
    (hlen : x.1.length = name.length) : Starts mem x.1 ↔ name.map tolower = x.1 := by
  obtain ⟨-, hplain, -⟩ := word_facts hx
  have hbyte : ∀ {j a}, name[j]? = some a → ∀ {b}, x.1[j]? = some b →
      (LOWER_BYTE (mem j) = b ↔ tolower a = b) := by
    intro j a ha b hb
    rw [h.text j a ha]
    obtain ⟨h1, h2⟩ := hplain b (mem_of_getElem? hb)
    rcases token_lower a (h.token a (mem_of_getElem? ha)) with heq | ⟨hl, ht⟩
    · rw [heq]
    · rw [hl, ht]
      exact iff_of_false (fun he => h2 he.symm) fun he => h1 he.symm
  have hget : ∀ {j b}, x.1[j]? = some b → ∃ a, name[j]? = some a := fun {j b} hb =>
    ⟨_, getElem?_eq_getElem (hlen ▸ (List.getElem?_eq_some_iff.1 hb).1)⟩
  constructor
  · intro hs
    refine ext_getElem? fun j => ?_
    rw [getElem?_map]
    cases hb : x.1[j]? with
    | none =>
      rw [List.getElem?_eq_none_iff] at hb
      rw [getElem?_eq_none (hlen ▸ hb)]
      rfl
    | some b =>
      obtain ⟨a, ha⟩ := hget hb
      rw [ha]
      exact congrArg some ((hbyte ha hb).1 (hs j b hb))
  · intro heq j b hb
    obtain ⟨a, ha⟩ := hget hb
    refine (hbyte ha hb).2 (Option.some.inj ?_)
    rw [← hb, ← heq, getElem?_map, ha]
    rfl

/-- **A name of the table is read** to its end. -/
theorem Header.read (h : Header mem size name) (hx : x ∈ words read_names)
    (hname : name.map tolower = x.1) : ∃ stop,
      (∃ n, run (holds mem) name_switch 0 = (.found x.2 name.length n, stop)) ∨
        stop = name.length ∧ run (holds mem) name_switch 0 = (.dc_end x.2, stop) := by
  have hlen : x.1.length = name.length := by rw [← hname, length_map]
  have hstarts : Starts mem (x.1 ++ [chr ':']) := by
    intro j a ha
    rcases lt_or_ge j x.1.length with hj | hj
    · rw [getElem?_append_left hj] at ha
      exact (h.starts hx hlen).2 hname j a ha
    · rw [getElem?_append_right hj, getElem?_singleton] at ha
      split_ifs at ha with hz
      obtain rfl := Option.some.inj ha
      rw [show j = name.length by omega, h.colon]
      decide
  have hraw : ∀ j ∈ some x.1.length, mem j = chr ':' := by
    intro j hj
    rw [← Option.some.inj hj, hlen]
    exact h.colon
  obtain ⟨l, hl, hrun, -⟩ := run_leaf (holds mem) _ (known_spec hstarts hraw) name_switch 0 []
    fun _ h => absurd h not_mem_nil
  have hend := (word_facts hx).2.2 l hl
  rw [hrun]
  refine ⟨l.stop, ?_⟩
  cases hout : l.out with
  | other =>
    rw [ends, hout] at hend
    cases hend
  | found type len n =>
    rw [ends, hout, Bool.and_eq_true, decide_eq_true_iff, beq_iff_eq] at hend
    obtain ⟨rfl, rfl⟩ := hend
    exact .inl ⟨n, by rw [hlen]⟩
  | dc_end type =>
    rw [ends, hout, Bool.and_eq_true, decide_eq_true_iff, beq_iff_eq] at hend
    obtain ⟨rfl, hstop⟩ := hend
    exact .inr ⟨hstop.trans hlen, rfl⟩

/-- **The type** is that of the name as it is read. -/
theorem Header.classified (h : Header mem size name) : (parse_hname2 mem size).type = name_type read_names name := by
  have hc := h.to_colon
  have hws : mem name.length ≠ SPACE ∧ mem name.length ≠ TAB := by
    rw [h.colon]
    decide
  have hdc : ∀ type, (settle mem size (.dc_end type, name.length)).type = type := by
    intro type
    rw [settle, skip_ws_stay hws, if_neg (not_not_intro h.colon)]
  rw [hc.parse, name_type]
  cases hfind : read_names.find? fun n => decide (ParseParam.Named name n.1) with
  | some n =>
    have hn : n ∈ read_names := mem_of_find?_eq_some hfind
    have hnamed : decide (ParseParam.Named name n.1) = true :=
      find?_some (p := fun n : String × HdrType => decide (ParseParam.Named name n.1)) hfind
    obtain ⟨stop, ⟨k, hr⟩ | ⟨rfl, hr⟩⟩ := h.read (x := (bytes n.1, n.2)) (List.mem_map_of_mem hn)
      ((named_iff hn).1 (of_decide_eq_true hnamed))
    · rw [hr]
      rfl
    · rw [hr]
      exact hdc n.2
  | none =>
    have hno : ∀ {type}, ¬ NameRead mem type name.length := by
      rintro type ⟨x, hx, -, hlen, hs⟩
      obtain ⟨n, hn, rfl⟩ := List.mem_map.1 hx
      have hnot := find?_eq_none.1 hfind n hn
      exact hnot (decide_eq_true ((named_iff hn).2 ((h.starts hx hlen).1 hs)))
    have hend := run_ended mem
    generalize run (holds mem) name_switch 0 = r at hend
    cases hend with
    | found hp hcolon hname => exact absurd (hc.found hp hcolon ▸ hname) hno
    | other hp =>
      rw [settle, hc.unknown_eq (hc.le hp)]
      rfl
    | @dc_end type stop hp hname =>
      rcases eq_or_lt_of_le (hc.le hp) with rfl | hlt
      · rcases hname with hname | ⟨j, hj, hspace⟩
        · exact absurd hname hno
        · exact absurd hspace (token_colon _ (h.at hj)).2.2
      · obtain ⟨⟨hne, -⟩, hblank, -⟩ := token_colon _ (h.at hlt)
        rw [settle, skip_ws_stay hblank, if_pos hne, hc.unknown_eq (le_of_lt hlt)]
        rfl

end Ends

section Lines

variable {mem : ℕ → UInt8} {size e : ℕ} {row : Str}

/-- A line without a `:`, and its end. -/
structure NoColon (mem : ℕ → UInt8) (size : ℕ) (row : Str) : Prop where
  text : ∀ j a, row[j]? = some a → mem j = a
  plain : ∀ c ∈ row, c ≠ chr ':' ∧ c ≠ LF
  stop : mem row.length = LF
  size : row.length < size ∧ 4 ≤ size ∧ size < 2 ^ 32

/-- The line begins with a name and a byte that passes for a `:`, where the tree returns at once. -/
def Sealed (row : Str) : Prop := ∃ w ∈ sealed, bytes w <+: row.map LOWER_BYTE

theorem NoColon.byte (h : NoColon mem size row) {j : ℕ} (hj : j ≤ row.length) : mem j ≠ chr ':' := by
  rcases eq_or_lt_of_le hj with rfl | hlt
  · rw [h.stop]
    decide
  · rw [h.text j row[j] (getElem?_eq_getElem hlt)]
    exact (h.plain _ (getElem_mem hlt)).1

theorem NoColon.le (h : NoColon mem size row) {q : ℕ} (hp : Passed mem q) : q ≤ row.length := by
  by_contra hlt
  exact (hp _ (lt_of_not_ge hlt)).2 h.stop

theorem sealed_facts {w : String} (hw : w ∈ sealed) : (∀ c ∈ bytes w, c ≠ chr '*') ∧
    ∀ l ∈ leaves (known (bytes w) none) name_switch 0 [], ∃ type len n, l.out = .found type len n := by
  have h := List.all_eq_true.1 sealed_end w hw
  rw [Bool.and_eq_true, List.all_eq_true, List.all_eq_true] at h
  refine ⟨fun c hc => bne_iff_ne.1 (h.1 c hc), fun l hl => ?_⟩
  have hout := h.2 l hl
  cases ho : l.out with
  | found type len n => exact ⟨type, len, n, rfl⟩
  | dc_end type =>
    rw [ho] at hout
    cases hout
  | other =>
    rw [ho] at hout
    cases hout

theorem NoColon.starts (h : NoColon mem size row) {w : String} (hw : w ∈ sealed) :
    Starts mem (bytes w) ↔ bytes w <+: row.map LOWER_BYTE := by
  rw [prefix_iff_getElem?]
  constructor
  · intro hs j hj
    have hb : LOWER_BYTE (mem j) = (bytes w)[j] := hs j _ (getElem?_eq_getElem hj)
    have hle : (bytes w).length ≤ row.length := by
      by_contra hlt
      have hstar := hs row.length _ (getElem?_eq_getElem (lt_of_not_ge hlt))
      rw [h.stop] at hstar
      exact (sealed_facts hw).1 _ (getElem_mem _) hstar.symm
    have hlt : j < row.length := lt_of_lt_of_le hj hle
    rw [getElem?_map, getElem?_eq_getElem hlt, ← hb, h.text j row[j] (getElem?_eq_getElem hlt)]
    rfl
  · intro hp j a ha
    obtain ⟨hj, rfl⟩ := List.getElem?_eq_some_iff.1 ha
    have hl := hp j hj
    rw [getElem?_map] at hl
    obtain ⟨c, hc, hl⟩ := Option.map_eq_some_iff.1 hl
    rw [h.text j c hc, hl]

/-- What is found behind the line: the first `:` there. -/
theorem NoColon.unknown_within (h : NoColon mem size row) {q : ℕ} (hq : q ≤ row.length) :
    (∀ n, (unknown mem size q).name = some n → n ≤ row.length + 1) ↔
      (∀ j, row.length < j → j < size → mem j ≠ chr ':') ∨
        row.length + 1 < size ∧ mem (row.length + 1) = chr ':' := by
  have hspec := q_memchr_spec mem (chr ':') q (room size q)
  have hsize := h.size
  have hroom : q + room size q = size := by
    rw [room_eq (by omega) hsize.2.2]
    omega
  rw [unknown]
  cases hm : q_memchr mem (chr ':') q (room size q) with
  | none =>
    rw [hm] at hspec
    refine iff_of_true (fun n hn => by cases hn) (.inl fun j hj hlt => ?_)
    exact hspec j (by omega) (by omega)
  | some f =>
    rw [hm] at hspec
    obtain ⟨-, hlt, hf, hfirst⟩ := hspec
    have hbehind : row.length < f := lt_of_not_ge fun hle => h.byte hle hf
    constructor
    · intro hle
      have hfe := hle f rfl
      have heq : f = row.length + 1 := by omega
      exact .inr ⟨by omega, heq ▸ hf⟩
    · rintro (hno | ⟨-, hc⟩) n hn
      · exact absurd hf (hno f hbehind (by omega))
      · obtain rfl := Option.some.inj hn
        by_contra hlt'
        exact hfirst _ (by omega) (lt_of_not_ge hlt') hc

/-- **A line without a `:`** is not left, when there is none behind it or one that follows at once, or it is
sealed. -/
theorem NoColon.within (h : NoColon mem size row) :
    (∀ n, (parse_hname2 mem size).name = some n → n ≤ row.length + 1) ↔
      ((∀ j, row.length < j → j < size → mem j ≠ chr ':') ∨
        row.length + 1 < size ∧ mem (row.length + 1) = chr ':') ∨ Sealed row := by
  have hend := run_ended mem
  have hparse : parse_hname2 mem size = settle mem size (run (holds mem) name_switch 0) := by
    rw [parse_hname2, if_neg (not_lt.2 h.size.2.1)]
    rfl
  have hseal : Sealed row → ∃ type len n, (run (holds mem) name_switch 0).1 = .found type len n := by
    rintro ⟨w, hw, hpre⟩
    obtain ⟨l, hl, hrun, -⟩ := run_leaf (holds mem) _
      (known_spec (n := none) ((h.starts hw).2 hpre) fun j hj => by cases hj) name_switch 0 []
      fun _ h => absurd h not_mem_nil
    rw [hrun]
    exact (sealed_facts hw).2 l hl
  rw [hparse]
  generalize run (holds mem) name_switch 0 = r at hend hseal
  cases hend with
  | @found type len n stop hp hc _ hs =>
    have hlen := h.le hp
    refine iff_of_true (fun n hn => ?_) (.inr ?_)
    · rw [← Option.some.inj hn]
      omega
    · obtain ⟨w, hw, hst⟩ := hs.resolve_left (h.byte hlen)
      exact ⟨w, hw, (h.starts hw).1 hst⟩
  | @other stop hp =>
    rw [or_iff_left fun hs => by obtain ⟨_, _, _, heq⟩ := hseal hs; cases heq]
    exact h.unknown_within (h.le hp)
  | @dc_end type stop hp =>
    rw [or_iff_left fun hs => by obtain ⟨_, _, _, heq⟩ := hseal hs; cases heq]
    have hws : mem row.length ≠ SPACE ∧ mem row.length ≠ TAB := by
      rw [h.stop]
      decide
    obtain ⟨-, hle⟩ := skip_ws_spec hws (room size stop) stop (h.le hp)
    rw [settle, if_pos (h.byte hle)]
    exact h.unknown_within hle

end Lines

section Starts

open FirstLine (isLetter)

variable {c : ℕ → UInt8} {key i : ℕ}

theorem lower_letter (c : UInt8) : (isLetter (LOWER_BYTE c) = true → tolower c = LOWER_BYTE c) ∧
    (isLetter (tolower c) = true → LOWER_BYTE c = tolower c) :=
  forall_char (p := fun c => (isLetter (LOWER_BYTE c) = true → tolower c = LOWER_BYTE c) ∧
    (isLetter (tolower c) = true → LOWER_BYTE c = tolower c)) (by decide) c

theorem lower_iff {a : UInt8} (ha : isLetter a = true) (c : UInt8) : LOWER_BYTE c = a ↔ tolower c = a := by
  constructor
  · rintro rfl
    exact (lower_letter c).1 ha
  · rintro rfl
    exact (lower_letter c).2 ha

theorem key_starts {x : Str} (hplain : plain (.key key) = true)
    (hx : atoms (.key key) = x.zipIdx.map Prod.swap) :
    LOWER_DWORD (val c i) = key ↔ Starts (fun j => c (i + j)) x := by
  have h := @holds_key c i key hplain
  rw [holds, beq_iff_eq] at h
  rw [h, hx, Starts, List.forall_mem_map]
  constructor
  · intro hall j a ha
    exact hall (a, j) (mk_mem_zipIdx_iff_getElem?.2 ha)
  · rintro hall ⟨a, j⟩ hm
    exact hall j a (mk_mem_zipIdx_iff_getElem?.1 hm)

theorem starts_append {x y : Str} : Starts c (x ++ y) ↔ Starts c x ∧ Starts (fun j => c (x.length + j)) y := by
  constructor
  · intro h
    constructor
    · intro j a ha
      exact h j a (by rw [getElem?_append_left (List.getElem?_eq_some_iff.1 ha).1, ha])
    · intro j a ha
      exact h _ a (by rw [getElem?_append_right (Nat.le_add_right _ _), Nat.add_sub_cancel_left, ha])
  · rintro ⟨h, h'⟩ j a ha
    rcases Nat.lt_or_ge j x.length with hj | hj
    · rw [getElem?_append_left hj] at ha
      exact h j a ha
    · rw [getElem?_append_right hj] at ha
      have hc := h' _ a ha
      dsimp only at hc
      rwa [Nat.add_sub_cancel' hj] at hc

theorem starts_one {a : UInt8} : Starts c [a] ↔ LOWER_BYTE (c 0) = a := by
  constructor
  · exact fun h => h 0 a rfl
  · intro h j b hb
    cases j with
    | zero =>
      obtain rfl := Option.some.inj hb
      exact h
    | succ j => cases hb

end Starts

section Texts

variable {name name' ws rest row more : Str} {past : ℕ → UInt8}

/-- A text, and the bytes behind it. -/
def memory (s : Str) (past : ℕ → UInt8) (j : ℕ) : UInt8 := (s[j]?).getD (past j)

/-- `parse_hname2` on a text. -/
def parse (past : ℕ → UInt8) (s : Str) : HdrName := parse_hname2 (memory s past) s.length

/-- A token, white space and a `:`. -/
structure HeaderLine (name ws rest : Str) : Prop where
  token : ∀ c ∈ name, token_char c = true
  white : ∀ c ∈ ws, c = SPACE ∨ c = TAB
  size : (name ++ (ws ++ chr ':' :: rest)).length < 2 ^ 32

def Classified (past : ℕ → UInt8) (name ws rest : Str) : Prop :=
  (parse past (name ++ (ws ++ chr ':' :: rest))).type = name_type names name ∧
    (parse past (name ++ (ws ++ chr ':' :: rest))).name = some name.length

def Misread (name : Str) : Prop := ∃ m ∈ mistaken :: missed, ParseParam.Named name m.1

/-- A line without a `:`. -/
structure PlainLine (row more : Str) : Prop where
  plain : ∀ c ∈ row, c ≠ chr ':' ∧ c ≠ LF
  size : (row ++ LF :: more).length < 2 ^ 32

def Within (past : ℕ → UInt8) (row more : Str) : Prop :=
  ∀ n, (parse past (row ++ LF :: more)).name = some n → n ≤ row.length + 1

theorem memory_left {u v : Str} {j : ℕ} {a : UInt8} (h : u[j]? = some a) : memory (u ++ v) past j = a := by
  rw [memory, getElem?_append_left (List.getElem?_eq_some_iff.1 h).1, h, Option.getD_some]

theorem memory_mid {u v : Str} {c : UInt8} : memory (u ++ c :: v) past u.length = c := by
  rw [memory, getElem?_append_right (le_rfl), Nat.sub_self, getElem?_cons_zero, Option.getD_some]

theorem name_type_case (ns : List (String × HdrType)) (h : name.map tolower = name'.map tolower) :
    name_type ns name = name_type ns name' := by
  have hsame : (fun n : String × HdrType => decide (ParseParam.Named name n.1)) =
      fun n => decide (ParseParam.Named name' n.1) := funext fun n => by
    rw [decide_eq_decide, ParseParam.Named, ParseParam.Named, FirstLine.same_case, FirstLine.same_case, h]
  rw [name_type, name_type, hsame]

theorem misread_iff (name : Str) : name_type read_names name = name_type names name ↔ ¬ Misread name := by
  have hmist : name_type names (bytes mistaken.1) ≠ mistaken.2 := by decide
  have hmiss : ∀ m ∈ missed, name_type read_names (bytes m.1) = .OTHER ∧ name_type names (bytes m.1) = m.2 ∧
      m.2 ≠ .OTHER := by
    decide
  constructor
  · rintro heq ⟨m, hm, hnamed⟩
    rw [name_type_case read_names hnamed, name_type_case names hnamed] at heq
    rcases mem_cons.1 hm with rfl | hm
    · refine hmist (heq.symm.trans ?_)
      have hfound : decide (ParseParam.Named (bytes mistaken.1) mistaken.1) = true := decide_eq_true rfl
      exact congrArg (fun o => (Option.map Prod.snd o).getD HdrType.OTHER)
        (find?_cons_of_pos (p := fun n => decide (ParseParam.Named (bytes mistaken.1) n.1)) hfound)
    · obtain ⟨h1, h2, h3⟩ := hmiss m hm
      exact h3 (h2.symm.trans (heq.symm.trans h1))
  · intro hno
    have hfirst : decide (ParseParam.Named name mistaken.1) ≠ true := fun h =>
      hno ⟨mistaken, mem_cons_self, of_decide_eq_true h⟩
    have hlast : missed.find? (fun n => decide (ParseParam.Named name n.1)) = none :=
      find?_eq_none.2 fun m hm h => hno ⟨m, mem_cons_of_mem _ hm, of_decide_eq_true h⟩
    rw [name_type, name_type, read_names, names, find?_append, hlast, Option.or_none,
      find?_cons_of_neg (p := fun n : String × HdrType => decide (ParseParam.Named name n.1)) hfirst]

theorem HeaderLine.to_colon (h : HeaderLine name ws rest) (past : ℕ → UInt8)
    (hsize : 4 ≤ (name ++ (ws ++ chr ':' :: rest)).length) :
    Colon (memory (name ++ (ws ++ chr ':' :: rest)) past) (name ++ (ws ++ chr ':' :: rest)).length
      (name.length + ws.length) where
  colon := by
    rw [← append_assoc, ← length_append]
    exact memory_mid
  first j hj := by
    have hlt : j < (name ++ ws).length := by rwa [length_append]
    rw [← append_assoc, memory_left (getElem?_eq_getElem hlt)]
    rcases mem_append.1 (getElem_mem hlt) with hmem | hmem
    · exact (token_colon _ (h.token _ hmem)).1
    · rcases h.white _ hmem with hc | hc <;> rw [hc] <;> decide
  inside := by
    simp only [length_append, length_cons]
    omega
  size := ⟨hsize, h.size⟩

theorem HeaderLine.to_header (h : HeaderLine name [] rest) (past : ℕ → UInt8)
    (hsize : 4 ≤ (name ++ chr ':' :: rest).length) :
    Header (memory (name ++ chr ':' :: rest) past) (name ++ chr ':' :: rest).length name where
  text _ _ ha := memory_left ha
  token := h.token
  colon := memory_mid
  size := ⟨by rw [length_append, length_cons]; omega, hsize, h.size⟩

/-- **The header of a name** is known, and its name is the token. -/
theorem HeaderLine.classified (h : HeaderLine name ws rest) : Classified past name ws rest ↔
    ws = [] ∧ ¬ Misread name ∧ 4 ≤ (name ++ (ws ++ chr ':' :: rest)).length := by
  rw [Classified]
  by_cases hsize : 4 ≤ (name ++ (ws ++ chr ':' :: rest)).length
  · have hname := (h.to_colon past hsize).name
    by_cases hws : ws = []
    · subst hws
      have htype := (h.to_header past hsize).classified
      rw [← misread_iff]
      constructor
      · rintro ⟨ht, -⟩
        exact ⟨rfl, htype.symm.trans ht, hsize⟩
      · rintro ⟨-, ht, -⟩
        exact ⟨htype.trans ht, hname⟩
    · refine iff_of_false (fun hc => hws ?_) fun hc => hws hc.1
      have hlen := Option.some.inj (hname.symm.trans hc.2)
      exact length_eq_zero_iff.1 (by omega)
  · refine iff_of_false (fun hc => ?_) fun hc => hsize hc.2.2
    have hnone := hc.2
    rw [parse, parse_hname2, if_pos (lt_of_not_ge hsize)] at hnone
    cases hnone

/-- **No name goes into the next line**, when there is no `:` behind the line or it follows at once, or the line
begins with a name and a byte that passes for a `:`. -/
theorem PlainLine.within (h : PlainLine row more) : Within past row more ↔
    (row ++ LF :: more).length < 4 ∨ chr ':' ∉ more ∨ more.head? = some (chr ':') ∨ Sealed row := by
  rw [Within]
  by_cases hsize : 4 ≤ (row ++ LF :: more).length
  · have hno : NoColon (memory (row ++ LF :: more) past) (row ++ LF :: more).length row :=
      ⟨fun _ _ ha => memory_left ha, h.plain, memory_mid,
        by rw [length_append, length_cons]; omega, hsize, h.size⟩
    have hmore : ∀ j, memory (row ++ LF :: more) past (row.length + 1 + j) =
        (more[j]?).getD (past (row.length + 1 + j)) := by
      intro j
      rw [memory, getElem?_append_right (by omega), show row.length + 1 + j - row.length = j + 1 by omega,
        getElem?_cons_succ]
    rw [parse, hno.within, or_assoc, or_iff_right (a := (row ++ LF :: more).length < 4) (by omega)]
    refine or_congr ?_ (or_congr ?_ Iff.rfl)
    · constructor
      · intro hall hmem
        obtain ⟨j, hj, hc⟩ := getElem_of_mem hmem
        refine hall (row.length + 1 + j) (by omega) ?_ ?_
        · rw [length_append, length_cons]
          omega
        · rw [hmore, getElem?_eq_getElem hj, hc, Option.getD_some]
      · intro hmem j hj hlt hc
        rw [length_append, length_cons] at hlt
        obtain ⟨i, rfl⟩ := Nat.exists_eq_add_of_le (show row.length + 1 ≤ j by omega)
        rw [hmore, getElem?_eq_getElem (by omega), Option.getD_some] at hc
        exact hmem (hc ▸ getElem_mem _)
    · rw [length_append, length_cons, hmore 0]
      cases more with
      | nil => simp
      | cons c more => simp
  · refine iff_of_true (fun n hn => ?_) (.inl (lt_of_not_ge hsize))
    rw [parse, parse_hname2, if_pos (lt_of_not_ge hsize)] at hn
    cases hn

/-- **A header name is classified** with the token for its name exactly when there is no white space in front of
the `:`, the name is none that is misread, and the text has four bytes; and a line without a `:` is given no
name that goes into the next line exactly when there is no `:` behind it or one follows at once, or it begins
with a name and a byte that passes for a `:`. -/
theorem parse_hname2_spec (past : ℕ → UInt8) (h : HeaderLine name ws rest) (h' : PlainLine row more) :
    (Classified past name ws rest ↔ ws = [] ∧ ¬ Misread name ∧ 4 ≤ (name ++ (ws ++ chr ':' :: rest)).length) ∧
      (Within past row more ↔
        (row ++ LF :: more).length < 4 ∨ chr ':' ∉ more ∨ more.head? = some (chr ':') ∨ Sealed row) :=
  ⟨h.classified, h'.within⟩

/-- `Accept-Disposition` and `s` are not known, `Acceptadisposition` is; the name of `Via :` has the space; and
that of `foo` goes up to the `:` of the next line. -/
theorem hname_misread : (parse (fun _ => 0) (bytes "Accept-Disposition: x")).type = .OTHER ∧
    (parse (fun _ => 0) (bytes "Acceptadisposition: x")).type = .ACCEPTDISPOSITION ∧
    (parse (fun _ => 0) (bytes "s: hello")).type = .OTHER ∧
    (parse (fun _ => 0) (bytes "Via : x")).name = some 4 ∧
    (parse (fun _ => 0) (bytes "foo\r\nVia: x")).name = some 8 ∧
    ¬ Classified (fun _ => 0) (bytes "Accept-Disposition") [] (bytes " x") ∧
    ¬ Within (fun _ => 0) (bytes "foo\r") (bytes "Via: x") := by
  have htype : (parse (fun _ => 0) (bytes "Accept-Disposition" ++ ([] ++ chr ':' :: bytes " x"))).type = .OTHER := by
    decide
  have hname : (parse (fun _ => 0) (bytes "foo\r" ++ LF :: bytes "Via: x")).name = some 8 := by
    decide
  refine ⟨by decide, by decide, by decide, by decide, by decide, ?_, ?_⟩
  · rintro ⟨h, -⟩
    have hne : name_type names (bytes "Accept-Disposition") ≠ .OTHER := by decide
    exact hne (h.symm.trans htype)
  · intro h
    exact absurd (h 8 hname) (by decide)

/-- `CALL-ID: x`, and the line `foo` in front of the end of the headers. -/
theorem hname_call_id : Classified (fun _ => 0) (bytes "CALL-ID") [] (bytes " x") ∧
    Within (fun _ => 0) (bytes "foo\r") (bytes "\r\n") := by
  have htoken : ∀ c ∈ bytes "CALL-ID", token_char c = true := List.all_eq_true.1 (by decide)
  have hplain : ∀ c ∈ bytes "foo\r", c ≠ chr ':' ∧ c ≠ LF := by decide +kernel
  have hread : ¬ Misread (bytes "CALL-ID") := by
    have hno : ∀ m ∈ mistaken :: missed, ¬ ParseParam.Named (bytes "CALL-ID") m.1 := by decide
    rintro ⟨m, hm, h⟩
    exact hno m hm h
  have hheader : HeaderLine (bytes "CALL-ID") [] (bytes " x") :=
    ⟨htoken, fun c hc => absurd hc not_mem_nil, by decide⟩
  have hline : PlainLine (bytes "foo\r") (bytes "\r\n") := ⟨hplain, by decide⟩
  have hspec := parse_hname2_spec (fun _ => 0) hheader hline
  exact ⟨hspec.1.2 ⟨rfl, hread, by decide⟩, hspec.2.2 (.inr (.inl (by decide)))⟩

end Texts

end OpenSips.Hname
