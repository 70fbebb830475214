import OpenSips.Parser.Calls
import OpenSips.Lib.Machine

/-!
# OpenSips.Parser.Contacts — the contacts of a message, one by one (`contact/parse_contact.c`)

The header field in which `contact_iterator` goes on is a `static` variable: one for all messages.
What `parse_contacts` makes of a text is a parameter; it yields at least one contact.
-/

namespace OpenSips.Contacts

open Lib OpenSips.Parser SipMsg

variable {ι C : Type} [DecidableEq ι]

/-- `contact_body_t`; `contacts` is the list of the `contact_t`. -/
structure ContactBody (C : Type) where
  star : Bool
  contacts : List C

/-- The parsers called for a message and what its allocations are answered, and the byte behind it. -/
structure Setting (ι C : Type) where
  parsers : ι → Parsers
  past : ι → UInt8
  parse_contacts : Str → Option (C × List C)

/-- A message with what `parsed` of its Contact header fields points at. -/
structure Message (C : Type) where
  msg : SipMsg
  body : ℕ → Option (ContactBody C)

/-- A `contact_t *`: the header field that it is parsed from, and its place in the list. -/
structure ContactPtr (ι : Type) where
  msg : ι
  hdr : ℕ
  idx : ℕ
  deriving DecidableEq

/-- `hdr` is the static variable; a `struct hdr_field *` says which message it is of. -/
structure State (ι C : Type) where
  hdr : Option (ι × ℕ)
  msgs : ι → Message C

variable (S : Setting ι C)

def trim_leading (s : Str) : Str :=
  s.dropWhile fun c => c = chr ' ' ∨ c = chr '\t' ∨ c = chr '\r' ∨ c = chr '\n'

def contactParser (s : Str) : Option (ContactBody C) :=
  match trim_leading s with
  | [] => none
  | c :: t =>
    if c = chr '*' then if t = [] then some ⟨true, []⟩ else none
    else (S.parse_contacts (c :: t)).map fun (x, xs) => ⟨false, x :: xs⟩

/-- `parse_contact`; `mem` is false when one of its allocations fails. -/
def parse_contact (st : State ι C) (h : ι × ℕ) (mem : Bool) : Option (State ι C × ℤ) := do
  let m := st.msgs h.1
  let x ← m.msg.hdr h.2
  match m.body h.2 with
  | some _ => some (st, 0)
  | none =>
    if ¬ mem then some (st, -1)
    else do
      let s ← (m.msg.argument x.body.s).bind (cut · 0 x.body.len)
      match contactParser S s with
      | none => some (st, -2)
      | some b => some ({ st with
          msgs := Function.update st.msgs h.1 { m with body := Function.update m.body h.2 (some b) } }, 0)

/-- `parse_headers(msg, HDR_CONTACT_F, next)` -/
def parse_more (st : State ι C) (i : ι) (next : Bool) : Option (State ι C × ℤ) :=
  (parse_headers (S.parsers i) (S.past i) (st.msgs i).msg (HDR_T2F .CONTACT) next).map fun (m, ret) =>
    ({ st with msgs := Function.update st.msgs i { st.msgs i with msg := m } }, ret)

/-- `while (hdr && hdr->type != HDR_CONTACT_T) hdr = hdr->next;` -/
def next_contact_hdr (m : SipMsg) : ℕ → ℕ → Option ℕ
  | 0, _ => none
  | fuel + 1, h =>
    if h = 0 then some 0
    else do
      let x ← m.hdr h
      if x.type = .CONTACT then some h else next_contact_hdr m fuel x.next

/-- The end of both branches: `hdr` is parsed, and its first contact returned. -/
def enter_hdr (st : State ι C) (h : ι × ℕ) (mem : Bool) :
    Option (State ι C × ℤ × Option (ContactPtr ι)) := do
  let (st, ret) ← parse_contact S { st with hdr := some h } h mem
  if ret < 0 then some (st, -1, none)
  else do
    let cb ← (st.msgs h.1).body h.2
    some (st, 0, if cb.contacts = [] then none else some ⟨h.1, h.2, 0⟩)

/-- `contact_iterator`: its return value and `*c`, which is left alone by -1. -/
def contact_iterator (st : State ι C) (i : ι) (prev : Option (ContactPtr ι)) (mem : Bool) :
    Option (State ι C × ℤ × Option (ContactPtr ι)) :=
  match prev with
  | none =>
    let hdr := (st.msgs i).msg.hook .CONTACT
    if hdr = 0 then do
      let (st, ret) ← parse_more S st i false
      let hdr := (st.msgs i).msg.hook .CONTACT
      if ret = -1 then some ({ st with hdr := none }, -1, none)
      else if hdr = 0 then some ({ st with hdr := none }, 1, none)
      else enter_hdr S st (i, hdr) mem
    else enter_hdr S st (i, hdr) mem
  | some p => do
    let cb ← (st.msgs p.msg).body p.hdr
    if p.idx + 1 < cb.contacts.length then some (st, 0, some { p with idx := p.idx + 1 })
    else do
      let last ← st.hdr
      let m := (st.msgs last.1).msg
      let x ← m.hdr last.2
      let hdr ← next_contact_hdr m (m.fresh + 1) x.next
      if hdr ≠ 0 then enter_hdr S st (last.1, hdr) mem
      else do
        let (st, ret) ← parse_more S { st with hdr := none } i true
        if ret = -1 then some (st, -1, none)
        else do
          let m := (st.msgs i).msg
          let y ← m.hdr m.last_header
          if y.type = .CONTACT ∧ (i, m.last_header) ≠ last then enter_hdr S st (i, m.last_header) mem
          else some (st, 1, none)

/-- A call for the message `msg`. -/
structure Call (ι : Type) where
  msg : ι
  prev : Option (ContactPtr ι)
  mem : Bool

/-- A call whose caller reads the contact returned; `none` also when there is none at `*c`. -/
def exec (st : State ι C) (op : Call ι) : Option (State ι C × ℤ × Option (ContactPtr ι × C)) := do
  let (st, ret, c) ← contact_iterator S st op.msg op.prev op.mem
  match c with
  | none => some (st, ret, none)
  | some p => do
    let cb ← (st.msgs p.msg).body p.hdr
    let x ← cb.contacts[p.idx]?
    some (st, ret, some (p, x))

/-- The iteration over a message: the contact returned last, the contacts returned since the first
call, and whether the last call returned `NULL` for a contact. -/
structure Iteration (ι C : Type) where
  prev : Option (ContactPtr ι)
  got : List C
  done : Bool

def Iteration.next (it : Iteration ι C) (op : Call ι) (r : ℤ × Option (ContactPtr ι × C)) :
    Iteration ι C :=
  let got := if op.prev.isNone then [] else it.got
  if r.1 < 0 then ⟨op.prev, got, false⟩
  else match r.2 with
    | none => ⟨none, got, true⟩
    | some (p, x) => ⟨some p, got ++ [x], false⟩

/-- The iterations over all messages. -/
def note (its : ι → Iteration ι C) (op : Call ι) (r : ℤ × Option (ContactPtr ι × C)) :
    ι → Iteration ι C :=
  Function.update its op.msg ((its op.msg).next op r)

def Continued (its : ι → Iteration ι C) (op : Call ι) : Prop :=
  op.prev = none ∨ op.prev = (its op.msg).prev

instance (its : ι → Iteration ι C) (op : Call ι) : Decidable (Continued its op) :=
  inferInstanceAs (Decidable (_ ∨ _))

section Text

variable (P : Parsers) (past : UInt8) (buf : Str)

/-- The bodies of the Contact header fields in the text from `pos` on, up to the first line that is
not a header field. -/
def contact_lines : ℕ → ℕ → List Slice
  | 0, _ => []
  | fuel + 1, pos =>
    match next_hdr { P with avail := fun _ => true } past buf 0 pos with
    | none => []
    | some (x, rest, _) =>
      (if x.type = .CONTACT then [x.body] else []) ++ contact_lines fuel rest

def contact_hdrs (pos : ℕ) : List Slice := contact_lines P past buf (buf.length + 1) pos

def body_text (s : Slice) : Option Str :=
  match s.s with
  | .msg off => cut (buf.drop off) 0 s.len
  | _ => none

def body_of (s : Slice) : Option (ContactBody C) := (body_text buf s).bind (contactParser S)

def contacts_of (s : Slice) : List C := ((body_of S buf s).map ContactBody.contacts).getD []

end Text

def all_contacts (i : ι) (buf : Str) (pos : ℕ) : List C :=
  (contact_hdrs (S.parsers i) (S.past i) buf pos).flatMap (contacts_of S buf)

/-- No contact stands behind a header field `Contact: *`. -/
def StarLast (i : ι) (buf : Str) (pos : ℕ) : Prop :=
  (contact_hdrs (S.parsers i) (S.past i) buf pos).Pairwise fun s t =>
    (body_of S buf s).any (fun b => b.contacts.isEmpty) → contacts_of S buf t = []

/-- A message whose first line ends at `pos`, after calls of `parse_headers`; what is parsed of its
Contact header fields is what they say. -/
structure Received (i : ι) (buf : Str) (pos : ℕ) (m : Message C) : Prop where
  calls : ∃ fl cs, Calls (S.parsers i) (S.past i) (start buf fl pos) cs m.msg
  bodies : ∀ h b, m.body h = some b → m.msg.Live h ∧ body_of S buf (m.msg.field h).body = some b

/-- **The variable `hdr` still says where the contact is**: a call that goes on behind the last contact
of a header field finds that field in it. -/
def Own (st : State ι C) (op : Call ι) : Prop :=
  ∀ p ∈ op.prev, ∀ b ∈ (st.msgs p.msg).body p.hdr, b.contacts.length ≤ p.idx + 1 →
    st.hdr = some (p.msg, p.hdr)

instance (st : State ι C) (op : Call ι) : Decidable (Own st op) :=
  inferInstanceAs (Decidable (∀ p ∈ op.prev, ∀ b ∈ (st.msgs p.msg).body p.hdr,
    b.contacts.length ≤ p.idx + 1 → st.hdr = some (p.msg, p.hdr)))

end OpenSips.Contacts
