import OpenSips.Resolve.Bounds

/-!
# OpenSips.Resolve.Wire — replies as they are sent, and the records that are listed

A reply is a header, questions, answers of the types that are used, and other sections.  Its answers are
all listed when none of them reaches the end of the reply with an address or a text.
-/

namespace OpenSips.Resolve.Wire

open Lib List Option
open Lib.Attempt

/-- A name: labels, and then the root or a pointer. -/
inductive Name where
  | root
  | pointer (high low : UInt8)
  | label (text : Str) (rest : Name)

def Name.bytes : Name → Str
  | .root => [0]
  | .pointer high low => [high, low]
  | .label text rest => UInt8.ofNat text.length :: (text ++ rest.bytes)

def Name.Valid : Name → Prop
  | .root => True
  | .pointer high _ => high &&& 0xc0 = 0xc0
  | .label text rest => 0 < text.length ∧ text.length ≤ 63 ∧ rest.Valid

def htons (n : UInt16) : Str := [(n / 256).toUInt8, n.toUInt8]

def htonl (n : UInt32) : Str := htons (n / 65536).toUInt16 ++ htons n.toUInt16

def counted (s : Str) : Str := UInt8.ofNat s.length :: s

inductive RData where
  | A (ip : Str)
  | AAAA (ip6 : Str)
  | CNAME (name : Name)
  | SRV (priority weight port : UInt16) (target : Name)
  | NAPTR (order pref : UInt16) (flags services regexp : Str) (replacement : Name)
  | TXT (txt : Str) (more : List Str)

namespace RData

def type : RData → UInt16
  | A _ => T_A
  | AAAA _ => T_AAAA
  | CNAME _ => T_CNAME
  | SRV .. => T_SRV
  | NAPTR .. => T_NAPTR
  | TXT .. => T_TXT

def bytes : RData → Str
  | A ip => ip
  | AAAA ip6 => ip6
  | CNAME name => name.bytes
  | SRV priority weight port target => htons priority ++ (htons weight ++ (htons port ++ target.bytes))
  | NAPTR order pref flags services regexp replacement =>
    htons order ++ (htons pref ++ (counted flags ++ (counted services ++ (counted regexp ++
      replacement.bytes))))
  | TXT txt more => counted txt ++ more.flatMap counted

def Valid : RData → Prop
  | A ip => ip.length = 4
  | AAAA ip6 => ip6.length = 16
  | CNAME name => name.Valid
  | SRV _ _ _ target => target.Valid
  | NAPTR _ _ flags services regexp replacement =>
    flags.length ≤ 255 ∧ services.length ≤ 255 ∧ regexp.length ≤ 255 ∧ replacement.Valid
  | TXT txt more => txt.length ≤ 255 ∧ ∀ s ∈ more, s.length ≤ 255

/-- The name in the data, and where it stands in them. -/
def name : RData → Option (ℕ × Name)
  | CNAME name => some (0, name)
  | SRV _ _ _ target => some (6, target)
  | NAPTR _ _ flags services regexp replacement =>
    some (7 + flags.length + services.length + regexp.length, replacement)
  | _ => none

def Nameless : RData → Prop
  | A _ | AAAA _ | TXT .. => True
  | _ => False

/-- A text is one string. -/
def Single : RData → Prop
  | TXT _ more => more = []
  | _ => True

end RData

structure Question where
  name : Name
  qtype : UInt16
  qclass : UInt16

def Question.bytes (q : Question) : Str := q.name.bytes ++ (htons q.qtype ++ htons q.qclass)

structure Answer where
  name : Name
  class' : UInt16
  ttl : UInt32
  rdata : RData

def Answer.bytes (a : Answer) : Str :=
  a.name.bytes ++ (htons a.rdata.type ++ (htons a.class' ++ (htonl a.ttl ++
    (htons (UInt16.ofNat a.rdata.bytes.length) ++ a.rdata.bytes))))

structure Answer.Valid (a : Answer) : Prop where
  name : a.name.Valid
  rdata : a.rdata.Valid
  length : a.rdata.bytes.length < 65536

/-- Where the data of an answer begin. -/
def Answer.start (a : Answer) (p : ℕ) : ℕ := p + a.name.bytes.length + 10

structure Message where
  id : UInt16
  flags : UInt16
  nscount : UInt16
  arcount : UInt16
  questions : List Question
  answers : List Answer
  rest : Str

namespace Message

variable (m : Message)

def header : Str :=
  htons m.id ++ (htons m.flags ++ (htons (UInt16.ofNat m.questions.length) ++
    (htons (UInt16.ofNat m.answers.length) ++ (htons m.nscount ++ htons m.arcount))))

def bytes : Str :=
  m.header ++ (m.questions.flatMap Question.bytes ++ (m.answers.flatMap Answer.bytes ++ m.rest))

structure Valid : Prop where
  questions_no : m.questions.length < 65536
  answers_no : m.answers.length < 65536
  questions : ∀ q ∈ m.questions, q.name.Valid
  answers : ∀ a ∈ m.answers, a.Valid

/-- Where the answers begin. -/
def start : ℕ := DNS_HDR_SIZE + (m.questions.flatMap Question.bytes).length

end Message

section Meaning

variable (dn_expand : Str → ℕ → ℕ → Option (ℕ × Str)) (msg : Str)

/-- The library expands the name at `p` to `text`. -/
def Spells (p : ℕ) (name : Name) (text : Str) : Prop :=
  dn_expand msg p (MAX_DNS_NAME - 1) = some (name.bytes.length, text)

def RData.Expands (p : ℕ) (rdata : RData) : Prop :=
  ∀ k name, rdata.name = some (k, name) → ∃ text, Spells dn_expand msg (p + k) name text

/-- What is made of the data at `p`; of a text, the first string. -/
def RData.Parsed (p : ℕ) : RData → Data → Prop
  | A ip, data => data = .T_A ip
  | AAAA ip6, data => data = .T_AAAA ip6
  | CNAME name, data => ∃ text, Spells dn_expand msg p name text ∧ data = .T_CNAME (text ++ [0])
  | SRV priority weight port target, data => ∃ text, Spells dn_expand msg (p + 6) target text ∧
      data = .T_SRV ⟨priority, weight, port, text ++ [0], target.bytes.length⟩
  | NAPTR order pref flags services regexp replacement, data => ∃ text,
      Spells dn_expand msg (p + (7 + flags.length + services.length + regexp.length)) replacement text ∧
      data = .T_NAPTR ⟨order, pref, flags, services, regexp, text ++ [0], replacement.bytes.length⟩
  | TXT txt _, data => data = .T_TXT (txt ++ [0])

/-- The record is made of the answer at `p`. -/
structure Answer.Parsed (p : ℕ) (a : Answer) (rd : Record) : Prop where
  type : rd.type = a.rdata.type
  class' : rd.class' = a.class'
  ttl : rd.ttl = a.ttl
  data : a.rdata.Parsed dn_expand msg (a.start p) rd.data

/-- `P` holds of each answer from `p` on and its record. -/
def Along (P : ℕ → Answer → Record → Prop) : ℕ → List Answer → List Record → Prop
  | _, [], [] => True
  | p, a :: answers, rd :: rds => P p a rd ∧ Along P (p + a.bytes.length) answers rds
  | _, _, _ => False

/-- The names in the answers from `p` on can be expanded. -/
def Expand : ℕ → List Answer → Prop
  | _, [] => True
  | p, a :: answers => a.rdata.Expands dn_expand msg (a.start p) ∧ Expand (p + a.bytes.length) answers

end Meaning

def Complete (dn_expand : Str → ℕ → ℕ → Option (ℕ × Str)) (heap : ℕ → Alloc) (m : Message) : Prop :=
  ∃ l rds, parse_record dn_expand heap m.bytes = some l ∧ l.Perm rds ∧
    Along (fun p a rd => a.Parsed dn_expand m.bytes p rd ∧ a.rdata.Single) m.start m.answers rds

variable {dn_expand : Str → ℕ → ℕ → Option (ℕ × Str)} {heap : ℕ → Alloc} {msg : Str}
  {mem : Option (ℕ → UInt8)} {p q r : ℕ}

section Numbers

theorem ntohs_htons (n : UInt16) (s : Str) : ntohs (htons n ++ s) = n := by
  show (n / 256).toUInt8.toUInt16 * 256 + n.toUInt8.toUInt16 = n
  apply UInt16.toNat_inj.1
  have hn := n.toNat_lt
  simp only [UInt16.toNat_add, UInt16.toNat_mul, UInt8.toNat_toUInt16, UInt16.toNat_toUInt8,
    UInt16.toNat_div, UInt16.reduceToNat]
  omega

theorem ntohl_htonl (n : UInt32) : ntohl (htonl n) = n := by
  have hlow : ntohs ((htonl n).drop 2) = n.toUInt16 := ntohs_htons n.toUInt16 []
  rw [ntohl, hlow, htonl, ntohs_htons]
  apply UInt32.toNat_inj.1
  have hn := n.toNat_lt
  simp only [UInt32.toNat_add, UInt32.toNat_mul, UInt16.toNat_toUInt32, UInt32.toNat_toUInt16,
    UInt32.toNat_div, UInt32.reduceToNat]
  omega

theorem ntohs_htons_self (n : UInt16) : ntohs (htons n) = n := ntohs_htons n []

end Numbers

section Names

theorem Name.length_pos (name : Name) : 0 < name.bytes.length := by
  cases name with
  | root => exact one_pos
  | pointer => exact Nat.two_pos
  | label => exact Nat.succ_pos _

theorem label_length : ∀ n < 64, 0 < n → UInt8.ofNat n ≠ 0 ∧ UInt8.ofNat n &&& 0xc0 ≠ 0xc0 ∧
    (UInt8.ofNat n).toNat = n := by
  decide

/-- **A name is skipped.** -/
theorem skip_labels_name {name : Name} (hv : name.Valid) {fuel : ℕ} (hfuel : name.bytes.length ≤ fuel)
    (h : Attempt.At msg p name.bytes) : skip_labels msg fuel p = .ok (p + name.bytes.length) := by
  induction name generalizing fuel p with
  | root =>
    obtain ⟨fuel, rfl⟩ := Nat.exists_eq_succ_of_ne_zero (Nat.one_le_iff_ne_zero.1 hfuel)
    rw [skip_labels, if_pos (Nat.lt_of_succ_le h.le), h.byte, ok_bind, if_pos rfl]
    rfl
  | pointer high low =>
    obtain ⟨fuel, rfl⟩ := Nat.exists_eq_succ_of_ne_zero (Nat.one_le_iff_ne_zero.1 (le_of_lt hfuel))
    have hle : p + 2 ≤ msg.length := h.le
    have hne : high ≠ 0 := fun h0 => absurd (h0 ▸ hv : (0 : UInt8) &&& 0xc0 = 0xc0) (by decide)
    rw [skip_labels, if_pos (by omega), h.byte, ok_bind, if_neg hne, if_pos (show high &&& 0xc0 = 0xc0 from hv)]
    rfl
  | label text rest ih =>
    obtain ⟨hpos, hle, hrest⟩ := hv
    obtain ⟨hne, hmark, hlen⟩ := label_length text.length (by omega) hpos
    have hbytes : (Name.label text rest).bytes.length = text.length + rest.bytes.length + 1 := by
      rw [Name.bytes, length_cons, length_append]
    obtain ⟨fuel, rfl⟩ := Nat.exists_eq_succ_of_ne_zero (n := fuel) (by omega)
    have hend := h.le
    have hnext : Attempt.At msg (p + text.length + 1) rest.bytes := by
      rw [Nat.add_right_comm]
      exact h.tail.right rfl
    rw [skip_labels, if_pos (by omega), h.byte, ok_bind, if_neg hne, if_neg hmark, hlen,
      ih hrest (by omega) hnext, hbytes]
    congr 1
    omega

theorem dns_skipname_name {name : Name} (hv : name.Valid) (h : Attempt.At msg p name.bytes)
    (hend : p + name.bytes.length < msg.length) :
    dns_skipname msg p = .ok (p + name.bytes.length) := by
  rw [dns_skipname, skip_labels_name hv (by omega) h, ok_bind, check_bind_of hend]

theorem skip_questions_bytes {questions : List Question} {rest : Str}
    (hv : ∀ q ∈ questions, q.name.Valid) (h : Attempt.At msg p (questions.flatMap Question.bytes ++ rest))
    (hrest : rest ≠ []) :
    skip_questions msg questions.length p = .ok (p + (questions.flatMap Question.bytes).length) := by
  induction questions generalizing p with
  | nil => rfl
  | cons q questions ih =>
    rw [flatMap_cons, Question.bytes, append_assoc, append_assoc] at h
    have hlen := h.le
    have hpos : 0 < rest.length := length_pos_of_ne_nil hrest
    simp only [length_append] at hlen
    have hfour : (htons q.qtype ++ htons q.qclass).length = 4 := rfl
    rw [length_append] at hfour
    rw [length_cons, skip_questions,
      dns_skipname_name (hv q mem_cons_self) h.left (by omega), ok_bind, check_bind_of (by omega),
      ih (fun q' hq => hv q' (mem_cons_of_mem _ hq)) ((h.right rfl).right (n := 4) rfl)]
    congr 1
    rw [flatMap_cons, length_append, Question.bytes, length_append, length_append]
    omega

end Names

section Parsers

variable {rdata : RData}

theorem length_htons (n : UInt16) : (htons n).length = 2 := rfl

theorem length_counted (s : Str) : (counted s).length = s.length + 1 := rfl

theorem toNat_length {s : Str} (h : s.length ≤ 255) : (UInt8.ofNat s.length).toNat = s.length :=
  UInt8.toNat_ofNat_of_lt' (Nat.lt_succ_of_le h)

variable {text : Str}

section

variable (hdn : Respects dn_expand)
include hdn

theorem expand_of {name : Name} (h : Spells dn_expand msg p name text) :
    expand dn_expand msg p = .ok (name.bytes.length, text ++ [0]) := by
  rw [expand_eq hdn, h]

theorem dns_srv_parser_of (hmem : mem.isSome) {priority weight port : UInt16}
    {target : Name} (h : Attempt.At msg p (RData.SRV priority weight port target).bytes)
    (htext : Spells dn_expand msg (p + 6) target text) :
    dns_srv_parser_run dn_expand msg mem p =
      .ok ⟨priority, weight, port, text ++ [0], target.bytes.length⟩ := by
  have hpos := target.length_pos
  have hlen := h.le
  simp only [RData.bytes, length_append, length_htons] at hlen
  rw [RData.bytes] at h
  have hw := h.right (length_htons _)
  have hport := hw.right (length_htons _)
  rw [dns_srv_parser_run, check_bind_of (by omega), check_bind_of hmem, h.left.bytes (length_htons _), ok_bind,
    hw.left.bytes (length_htons _), ok_bind, hport.left.bytes (length_htons _), ok_bind,
    expand_of hdn htext, ok_bind]
  simp only [ntohs_htons_self]

theorem dns_naptr_parser_of (hmem : mem.isSome) {order pref : UInt16}
    {flags services regexp : Str} {replacement : Name}
    (hv : (RData.NAPTR order pref flags services regexp replacement).Valid)
    (h : Attempt.At msg p (RData.NAPTR order pref flags services regexp replacement).bytes)
    (htext : Spells dn_expand msg (p + (7 + flags.length + services.length + regexp.length))
      replacement text) : dns_naptr_parser_run dn_expand msg mem p =
      .ok ⟨order, pref, flags, services, regexp, text ++ [0], replacement.bytes.length⟩ := by
  obtain ⟨hflags, hservices, hregexp, -⟩ := hv
  have hpos := replacement.length_pos
  have hlen := h.le
  simp only [RData.bytes, length_append, length_htons, length_counted] at hlen
  rw [RData.bytes] at h
  have hp := h.right (length_htons _)
  have hf := hp.right (length_htons _)
  have hs := hf.right (length_counted _)
  have hr := hs.right (length_counted _)
  have hf₁ := toNat_length hflags
  have hs₁ := toNat_length hservices
  have hr₁ := toNat_length hregexp
  rw [show p + 2 + 2 = p + 4 from rfl] at hf hs hr
  rw [show p + 4 + (flags.length + 1) = p + 5 + flags.length by omega] at hs hr
  rw [show p + 5 + flags.length + (services.length + 1) = p + 6 + flags.length + services.length by omega]
    at hr
  have hf₂ : Attempt.At msg (p + 5) flags := hf.left.tail
  have hs₂ : Attempt.At msg (p + 6 + flags.length) services := by
    have h₂ := hs.left.tail
    rwa [show p + 5 + flags.length + 1 = p + 6 + flags.length by omega] at h₂
  have hr₂ : Attempt.At msg (p + 7 + flags.length + services.length) regexp := by
    have h₂ := hr.left.tail
    rwa [show p + 6 + flags.length + services.length + 1 = p + 7 + flags.length + services.length by omega]
      at h₂
  rw [show p + (7 + flags.length + services.length + regexp.length) =
    p + 7 + flags.length + services.length + regexp.length by omega] at htext
  rw [dns_naptr_parser_run, check_bind_of (by omega), check_bind_of hmem, h.left.bytes (length_htons _), ok_bind,
    hp.left.bytes (length_htons _), ok_bind, hf.byte, ok_bind]
  simp only [hf₁]
  rw [check_bind_of (by omega), hf₂.bytes rfl, ok_bind, put_of (n := MAX_DNS_STRING) hflags, ok_bind, hs.byte, ok_bind]
  simp only [hs₁]
  rw [check_bind_of (by omega), hs₂.bytes rfl, ok_bind, put_of (n := MAX_DNS_STRING) hservices, ok_bind, hr.byte, ok_bind]
  simp only [hr₁]
  rw [check_bind_of (by omega), hr₂.bytes rfl, ok_bind, put_of (n := MAX_DNS_STRING) hregexp, ok_bind,
    expand_of hdn htext, ok_bind]
  simp only [ntohs_htons_self]

theorem dns_cname_parser_of (hmem : mem.isSome) {name : Name} (htext : Spells dn_expand msg p name text) :
    dns_cname_parser_run dn_expand msg mem p = .ok (text ++ [0]) := by
  rw [dns_cname_parser_run, check_bind_of hmem, expand_of hdn htext, ok_bind]

end

theorem dns_address_parser_of (hmem : mem.isSome) {len : ℕ} {ip : Str} (hip : ip.length = len)
    (h : Attempt.At msg p ip) (hend : p + len < msg.length) : dns_address_parser_run msg mem len p = .ok ip := by
  rw [dns_address_parser_run, check_bind_of hend, check_bind_of hmem, h.bytes hip]

theorem dns_address_parser_at_end {len : ℕ} (hend : p + len = msg.length) :
    dns_address_parser_run msg mem len p = .error := by
  rw [dns_address_parser_run, check_bind_of_not (by omega)]

theorem dns_txt_parser_of (hmem : mem.isSome) {txt : Str} (hv : txt.length ≤ 255)
    (h : Attempt.At msg p (counted txt)) (hend : p + (counted txt).length < msg.length) :
    dns_txt_parser_run msg mem p = .ok (txt ++ [0]) := by
  rw [length_counted] at hend
  rw [dns_txt_parser_run, check_bind_of hmem, h.byte, ok_bind]
  simp only [toNat_length hv]
  rw [check_bind_of (by omega), check_bind_of (c := txt.length < MAX_DNS_NAME) (Nat.lt_succ_of_le hv),
    h.tail.bytes rfl, ok_bind, put_of]
  rw [length_append, length_singleton]
  exact Nat.succ_le_succ hv

theorem dns_txt_parser_at_end (hmem : mem.isSome) {txt : Str} (hv : txt.length ≤ 255)
    (h : Attempt.At msg p (counted txt)) (hend : p + (counted txt).length = msg.length) :
    dns_txt_parser_run msg mem p = .error := by
  rw [length_counted] at hend
  rw [dns_txt_parser_run, check_bind_of hmem, h.byte, ok_bind]
  simp only [toNat_length hv]
  rw [check_bind_of_not (by omega)]

theorem map_of {α β : Type} {f : α → β} {x : Attempt α} {a : α} (h : x = .ok a) : f <$> x = .ok (f a) := by
  rw [h]
  rfl

/-- **The data of an answer are parsed** when a name or something else is behind them. -/
theorem parse_rdata_of (hdn : Respects dn_expand) (hmem : mem.isSome) (hv : rdata.Valid)
    (h : Attempt.At msg p rdata.bytes) (hnames : rdata.Expands dn_expand msg p)
    (hend : rdata.Nameless → p + rdata.bytes.length = msg.length → ¬ rdata.Single) :
    ∃ data, parse_rdata dn_expand msg mem rdata.type p = .ok data ∧ rdata.Parsed dn_expand msg p data := by
  have hlen := h.le
  cases rdata with
  | A ip =>
    have hip : ip.length = 4 := hv
    have hlt : p + ip.length < msg.length := lt_of_le_of_ne hlen fun he => hend trivial he trivial
    have hp : dns_a_parser_run msg mem p = .ok ip := dns_address_parser_of hmem hip h (hip ▸ hlt)
    exact ⟨.T_A ip, map_of hp, rfl⟩
  | AAAA ip6 =>
    have hip : ip6.length = 16 := hv
    have hlt : p + ip6.length < msg.length := lt_of_le_of_ne hlen fun he => hend trivial he trivial
    have hp : dns_aaaa_parser_run msg mem p = .ok ip6 := dns_address_parser_of hmem hip h (hip ▸ hlt)
    exact ⟨.T_AAAA ip6, map_of hp, rfl⟩
  | CNAME name =>
    obtain ⟨text, htext⟩ := hnames 0 name rfl
    exact ⟨.T_CNAME (text ++ [0]), map_of (dns_cname_parser_of hdn hmem htext), text, htext, rfl⟩
  | SRV priority weight port target =>
    obtain ⟨text, htext⟩ := hnames 6 target rfl
    exact ⟨_, map_of (dns_srv_parser_of hdn hmem h htext), text, htext, rfl⟩
  | NAPTR order pref flags services regexp replacement =>
    obtain ⟨text, htext⟩ := hnames _ replacement rfl
    exact ⟨_, map_of (dns_naptr_parser_of hdn hmem hv h htext), text, htext, rfl⟩
  | TXT txt more =>
    refine ⟨.T_TXT (txt ++ [0]), map_of (dns_txt_parser_of hmem hv.1 h.left ?_), rfl⟩
    rw [RData.bytes, length_append] at hlen hend
    by_contra hno
    have hmore : more = [] := by
      cases more with
      | nil => rfl
      | cons s more =>
        rw [flatMap_cons, length_append, length_counted s] at hlen
        omega
    refine hend trivial ?_ hmore
    rw [hmore, flatMap_nil, length_nil]
    omega

/-- **Data that end the reply without a name are refused.** -/
theorem parse_rdata_at_end (hmem : mem.isSome) (hv : rdata.Valid) (h : Attempt.At msg p rdata.bytes)
    (hname : rdata.Nameless) (hsingle : rdata.Single) (hend : p + rdata.bytes.length = msg.length) :
    parse_rdata dn_expand msg mem rdata.type p = .error := by
  have hmap {α β : Type} {f : α → β} {x : Attempt α} (hx : x = .error) : f <$> x = .error := by
    rw [hx]
    rfl
  cases rdata with
  | A ip =>
    have hip : ip.length = 4 := hv
    exact hmap (dns_address_parser_at_end (hip ▸ hend))
  | AAAA ip6 =>
    have hip : ip6.length = 16 := hv
    exact hmap (dns_address_parser_at_end (hip ▸ hend))
  | CNAME name => exact hname.elim
  | SRV priority weight port target => exact hname.elim
  | NAPTR order pref flags services regexp replacement => exact hname.elim
  | TXT txt more =>
    obtain rfl : more = [] := hsingle
    rw [RData.bytes, flatMap_nil, append_nil] at h hend
    exact hmap (dns_txt_parser_at_end hmem hv.1 h hend)

end Parsers

section Answers

variable {alloc : Alloc} {a : Answer} {answers : List Answer} {rest : Str} {l rds : List Record} {rd : Record}

theorem RData.length_pos {rdata : RData} (hv : rdata.Valid) : 0 < rdata.bytes.length := by
  cases rdata with
  | A ip =>
    have h4 : ip.length = 4 := hv
    exact h4 ▸ Nat.succ_pos 3
  | AAAA ip6 =>
    have h16 : ip6.length = 16 := hv
    exact h16 ▸ Nat.succ_pos 15
  | CNAME name => exact name.length_pos
  | SRV => exact Nat.succ_pos _
  | NAPTR => exact Nat.succ_pos _
  | TXT => exact Nat.succ_pos _

theorem Answer.length_bytes (a : Answer) :
    a.bytes.length = a.name.bytes.length + 10 + a.rdata.bytes.length := by
  have hfour : (htonl a.ttl).length = 4 := rfl
  simp only [Answer.bytes, length_append, length_htons, hfour]
  omega

theorem parse_answer_eq (hrec : alloc.record = true) (hv : a.Valid) (h : Attempt.At msg p a.bytes) :
    parse_answer dn_expand msg alloc p =
      parse_rdata dn_expand msg alloc.data a.rdata.type (a.start p) >>= fun data =>
      .ok (⟨a.rdata.type, a.class', a.ttl, data, data.seen (alloc.data.getD fun _ => 0)⟩,
        p + a.bytes.length) := by
  have hlen := h.le
  have hdata := RData.length_pos hv.rdata
  have hfour : (htonl a.ttl).length = 4 := rfl
  rw [Answer.length_bytes] at hlen ⊢
  rw [Answer.bytes] at h
  have htype := h.right rfl
  have hclass := htype.right (length_htons _)
  have httl := hclass.right (length_htons _)
  have hrdlength := httl.right hfour
  have hrdata : (UInt16.ofNat a.rdata.bytes.length).toNat = a.rdata.bytes.length :=
    UInt16.toNat_ofNat_of_lt' hv.length
  rw [parse_answer, dns_skipname_name hv.name h.left (by omega), ok_bind, check_bind_of (by omega),
    htype.left.bytes (length_htons _), ok_bind, hclass.left.bytes (length_htons _), ok_bind,
    httl.left.bytes hfour, ok_bind, hrdlength.left.bytes (length_htons _), ok_bind, check_bind_of hrec]
  simp only [ntohs_htons_self, ntohl_htonl, hrdata, Answer.start]
  congr 1
  funext data
  rw [add_assoc p, add_assoc p]

/-- **An answer is parsed.** -/
theorem parse_answer_of (hdn : Respects dn_expand) (hrec : alloc.record = true)
    (hmem : alloc.data.isSome) (hv : a.Valid) (h : Attempt.At msg p a.bytes)
    (hnames : a.rdata.Expands dn_expand msg (a.start p))
    (hend : a.rdata.Nameless → p + a.bytes.length = msg.length → ¬ a.rdata.Single) :
    ∃ rd, parse_answer dn_expand msg alloc p = .ok (rd, p + a.bytes.length) ∧ a.Parsed dn_expand msg p rd := by
  have hat : Attempt.At msg (a.start p) a.rdata.bytes :=
    ((((h.right rfl).right (length_htons _)).right (length_htons _)).right rfl).right (length_htons _)
  have hlen := a.length_bytes
  obtain ⟨data, hparse, hdata⟩ := parse_rdata_of hdn hmem hv.rdata hat hnames fun hname heq =>
    hend hname (by rw [← heq, hlen, Answer.start]; omega)
  rw [parse_answer_eq hrec hv h, hparse, ok_bind]
  exact ⟨_, rfl, rfl, rfl, rfl, hdata⟩

theorem parse_answer_at_end (hrec : alloc.record = true) (hmem : alloc.data.isSome) (hv : a.Valid)
    (h : Attempt.At msg p a.bytes) (hname : a.rdata.Nameless) (hsingle : a.rdata.Single)
    (hend : p + a.bytes.length = msg.length) : parse_answer dn_expand msg alloc p = .error := by
  have hat : Attempt.At msg (a.start p) a.rdata.bytes :=
    ((((h.right rfl).right (length_htons _)).right (length_htons _)).right rfl).right (length_htons _)
  have hlen := a.length_bytes
  rw [parse_answer_eq hrec hv h, parse_rdata_at_end hmem hv.rdata hat hname hsingle, error_bind]
  rw [← hend, hlen, Answer.start]
  omega

theorem Answer.Parsed.seen {answer : Record × ℕ} (h : a.Parsed dn_expand msg p answer.1)
    (hans : parse_answer dn_expand msg alloc q = .ok answer) : answer.1.seen.isSome := by
  rw [parse_answer_seen hans]
  have hdata := h.data
  cases hrdata : a.rdata with
  | A ip =>
    rw [hrdata] at hdata
    rw [show answer.1.data = _ from hdata]
    rfl
  | AAAA ip6 =>
    rw [hrdata] at hdata
    rw [show answer.1.data = _ from hdata]
    rfl
  | CNAME name =>
    rw [hrdata] at hdata
    obtain ⟨text, _, heq⟩ := hdata
    rw [heq]
    rfl
  | SRV =>
    rw [hrdata] at hdata
    obtain ⟨text, _, heq⟩ := hdata
    rw [heq]
    rfl
  | NAPTR =>
    rw [hrdata] at hdata
    obtain ⟨text, _, heq⟩ := hdata
    rw [heq]
    rfl
  | TXT txt more =>
    rw [hrdata] at hdata
    rw [show answer.1.data = _ from hdata]
    rfl

theorem link_perm (hl : ∀ c ∈ l, c.seen.isSome) : ∃ l', link rd l = .ok l' ∧ l'.Perm (l ++ [rd]) := by
  cases hdata : rd.data with
  | T_SRV srv =>
    obtain ⟨x, y, rfl, heq, -, -⟩ := insert_srv_spec rd (show Finds srv l from .inl hl)
    refine ⟨x ++ rd :: y, by simp only [link, hdata, heq], ?_⟩
    exact perm_middle.trans (perm_append_singleton rd (x ++ y)).symm
  | _ => exact ⟨l ++ [rd], by simp only [link, hdata], List.Perm.refl _⟩

/-- **All answers are listed**, when the last one does not end the reply without a name. -/
theorem parse_answers_of (hdn : Respects dn_expand)
    (hheap : ∀ r, (heap r).record = true ∧ (heap r).data.isSome) (hv : ∀ a ∈ answers, a.Valid)
    (h : Attempt.At msg p (answers.flatMap Answer.bytes ++ rest))
    (hend : p + (answers.flatMap Answer.bytes ++ rest).length = msg.length)
    (hnames : Expand dn_expand msg p answers)
    (hlast : rest = [] → ∀ a ∈ answers.getLast?, a.rdata.Nameless → ¬ a.rdata.Single)
    (hl : ∀ c ∈ l, c.seen.isSome) :
    ∃ l' rds, parse_answers dn_expand heap msg answers.length r p l = .ok l' ∧ l'.Perm (l ++ rds) ∧
      Along (fun p a rd => a.Parsed dn_expand msg p rd) p answers rds := by
  induction answers generalizing r p l with
  | nil => exact ⟨l, [], rfl, by rw [append_nil], trivial⟩
  | cons a answers ih =>
    rw [flatMap_cons, append_assoc] at h hend
    have hlen := a.length_bytes
    have hpos := RData.length_pos (hv a mem_cons_self).rdata
    rw [length_append] at hend
    obtain ⟨rd, hparse, hrd⟩ := parse_answer_of hdn (hheap r).1 (hheap r).2 (hv a mem_cons_self)
      h.left hnames.1 fun hname heq hsingle => by
        have hnil : answers.flatMap Answer.bytes ++ rest = [] :=
          eq_nil_of_length_eq_zero (by omega)
        obtain ⟨hflat, hrest⟩ := append_eq_nil_iff.1 hnil
        cases answers with
        | nil => exact hlast hrest a rfl hname hsingle
        | cons a' answers =>
          rw [flatMap_cons, append_eq_nil_iff] at hflat
          have hlen' := a'.length_bytes
          rw [hflat.1, length_nil] at hlen'
          omega
    obtain ⟨l₁, hlink, hperm⟩ : ∃ l', link rd l = .ok l' ∧ l'.Perm (l ++ [rd]) := link_perm hl
    have hl₁ : ∀ c ∈ l₁, c.seen.isSome := fun c hc => by
      rcases mem_append.1 (hperm.subset hc) with hc | hc
      · exact hl c hc
      · rw [mem_singleton.1 hc]
        exact hrd.seen hparse
    obtain ⟨l', rds, heq, hperm', halong⟩ := ih (r := r + 1) (p := p + a.bytes.length) (l := l₁)
      (fun a' ha' => hv a' (mem_cons_of_mem _ ha')) (h.right rfl) (by omega) hnames.2
      (fun hrest a' ha' => hlast hrest a' (by
        cases answers with
        | nil => exact absurd ha' (not_mem_none _)
        | cons => rwa [getLast?_cons_cons])) hl₁
    refine ⟨l', rd :: rds, ?_, ?_, hrd, halong⟩
    · rw [length_cons, parse_answers, if_pos (by omega), hparse, ok_bind]
      simp only [hlink, ok_bind, heq]
    · refine hperm'.trans ((hperm.append_right rds).trans ?_)
      rw [append_assoc]
      exact List.Perm.refl _

/-- **All answers are lost**, when the last one ends the reply without a name. -/
theorem parse_answers_at_end (hdn : Respects dn_expand)
    (hheap : ∀ r, (heap r).record = true ∧ (heap r).data.isSome) (hv : ∀ a ∈ answers, a.Valid)
    (h : Attempt.At msg p (answers.flatMap Answer.bytes))
    (hend : p + (answers.flatMap Answer.bytes).length = msg.length)
    (hnames : Expand dn_expand msg p answers) (hlast : answers.getLast? = some a)
    (hname : a.rdata.Nameless) (hsingle : a.rdata.Single) (hl : ∀ c ∈ l, c.seen.isSome) :
    parse_answers dn_expand heap msg answers.length r p l = .error := by
  induction answers generalizing r p l with
  | nil => exact absurd hlast.symm (some_ne_none a)
  | cons b answers ih =>
    rw [flatMap_cons] at h hend
    have hlen := b.length_bytes
    have hpos := RData.length_pos (hv b mem_cons_self).rdata
    rw [length_append] at hend
    cases answers with
    | nil =>
      obtain rfl : b = a := some_inj.1 hlast
      rw [length_singleton, parse_answers, if_pos (by omega),
        parse_answer_at_end (hheap r).1 (hheap r).2 (hv b mem_cons_self) h.left hname hsingle hend,
        error_bind]
    | cons b' answers =>
      have hmore : 0 < ((b' :: answers).flatMap Answer.bytes).length := by
        have hlen' := b'.length_bytes
        rw [flatMap_cons, length_append]
        omega
      obtain ⟨rd, hparse, hrd⟩ := parse_answer_of hdn (hheap r).1 (hheap r).2 (hv b mem_cons_self)
        h.left hnames.1 fun _ heq => absurd hend (by omega)
      obtain ⟨l₁, hlink, hperm⟩ : ∃ l', link rd l = .ok l' ∧ l'.Perm (l ++ [rd]) := link_perm hl
      have hl₁ : ∀ c ∈ l₁, c.seen.isSome := fun c hc => by
        rcases mem_append.1 (hperm.subset hc) with hc | hc
        · exact hl c hc
        · rw [mem_singleton.1 hc]
          exact hrd.seen hparse
      rw [getLast?_cons_cons] at hlast
      rw [length_cons, parse_answers, if_pos (by omega), hparse, ok_bind]
      simp only [hlink, ok_bind]
      exact ih (fun a' ha' => hv a' (mem_cons_of_mem _ ha')) (h.right rfl) (by omega) hnames.2 hlast hl₁

end Answers

section Messages

variable {m : Message}

theorem Along.split {P : ℕ → Answer → Record → Prop} {Q : Answer → Prop} : ∀ {p answers rds},
    Along (fun p a rd => P p a rd ∧ Q a) p answers rds ↔ Along P p answers rds ∧ ∀ a ∈ answers, Q a
  | _, [], [] => ⟨fun _ => ⟨trivial, fun _ h => absurd h not_mem_nil⟩, fun _ => trivial⟩
  | _, [], _ :: _ => ⟨False.elim, fun h => h.1.elim⟩
  | _, _ :: _, [] => ⟨False.elim, fun h => h.1.elim⟩
  | _, _ :: _, _ :: _ => by
    show (_ ∧ _) ∧ Along _ _ _ _ ↔ (_ ∧ Along _ _ _ _) ∧ _
    rw [Along.split, forall_mem_cons]
    exact and_and_and_comm

theorem Message.length_header (m : Message) : m.header.length = DNS_HDR_SIZE := rfl

theorem parse_header_bytes (hv : m.Valid) : parse_header m.bytes =
    (check (DNS_HDR_SIZE < m.bytes.length) >>= fun _ =>
      skip_questions m.bytes m.questions.length DNS_HDR_SIZE >>= fun p => .ok (m.answers.length, p)) := by
  have hat : Attempt.At m.bytes 0 m.header := ⟨[], _, rfl, rfl⟩
  have hq : ntohs (m.header.drop 4) = UInt16.ofNat m.questions.length := ntohs_htons _ _
  have ha : ntohs (m.header.drop 6) = UInt16.ofNat m.answers.length := ntohs_htons _ _
  rw [parse_header, hat.bytes m.length_header, ok_bind, hq, ha, UInt16.toNat_ofNat_of_lt' hv.questions_no,
    UInt16.toNat_ofNat_of_lt' hv.answers_no]

def reply_of (rdata : List RData) : Message :=
  ⟨1, 0x8180, 0, 0, [], rdata.map fun d => ⟨.root, 1, 60, d⟩, []⟩

end Messages

end OpenSips.Resolve.Wire
