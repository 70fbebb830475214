import OpenSips.Lib.Attempt
import OpenSips.Resolve.Model

/-!
# OpenSips.Resolve.Parsers — the records of a reply (`core/resolve/parsers.c`)

`parse_record` and the parsers of the record types, over the bytes of a reply.  Every byte that is read
is looked up in the reply and every text that is stored has to fit in its field: the result is a fault
when one of them is out of bounds.  `dn_expand` is that of the resolver library.
-/

namespace OpenSips.Resolve

open Lib
open Lib.Attempt (check bytes byte put)

def MAX_DNS_STRING : ℕ := 255

/-- Also `sizeof(HEADER)`. -/
def DNS_HDR_SIZE : ℕ := 12

def T_A : UInt16 := 1

def T_CNAME : UInt16 := 5

def T_TXT : UInt16 := 16

def T_AAAA : UInt16 := 28

def T_SRV : UInt16 := 33

def T_NAPTR : UInt16 := 35

def T_EBL : UInt16 := 65300

/-- The two bytes of a number in network order. -/
def ntohs (s : Str) : UInt16 := (s.getD 0 0).toUInt16 * 256 + (s.getD 1 0).toUInt16

def ntohl (s : Str) : UInt32 := (ntohs s).toUInt32 * 65536 + (ntohs (s.drop 2)).toUInt32

/-- `struct ebl_rdata` -/
structure EblRdata where
  position : UInt8
  separator : Str
  apex : Str
  apex_len : ℕ
  deriving DecidableEq

/-- What the `rdata` of a record points to; a type without a parser has none. -/
inductive Data where
  | T_SRV (srv : SrvRdata)
  | T_NAPTR (naptr : NaptrRdata)
  | T_CNAME (name : Str)
  | T_A (ip : Str)
  | T_AAAA (ip6 : Str)
  | T_TXT (txt : Str)
  | T_EBL (ebl : EblRdata)
  | NULL
  deriving DecidableEq

/-- The `priority` and the `weight` that are read from the structure as if it was a `struct srv_rdata`:
its first four bytes, `mem` where nothing was written. -/
def first_fields (written : Str) (mem : ℕ → UInt8) : UInt16 × UInt16 :=
  let field i := (written.getD i (mem i)).toUInt16 + (written.getD (i + 1) (mem (i + 1))).toUInt16 * 256
  (field 0, field 2)

def Data.seen (mem : ℕ → UInt8) : Data → Option (UInt16 × UInt16)
  | .T_SRV srv => some (srv.priority, srv.weight)
  | .T_NAPTR naptr => some (naptr.order, naptr.pref)
  | .T_CNAME name => some (first_fields name mem)
  | .T_A ip => some (first_fields ip mem)
  | .T_AAAA ip6 => some (first_fields ip6 mem)
  | .T_TXT txt => some (first_fields txt mem)
  | .T_EBL ebl => some (first_fields [ebl.position] mem)
  | .NULL => none

/-- `struct rdata`, without the link to the next one. -/
structure Record where
  type : UInt16
  class' : UInt16
  ttl : UInt32
  data : Data
  seen : Option (UInt16 × UInt16)
  deriving DecidableEq

/-- What `local_malloc` gives for one answer: the record, and for its data no structure or one with
these bytes in it. -/
structure Alloc where
  record : Bool
  data : Option (ℕ → UInt8)

section Parsers

variable (dn_expand : Str → ℕ → ℕ → Option (ℕ × Str)) (msg : Str) (mem : Option (ℕ → UInt8))

/-- `dn_expand` into a field of `MAX_DNS_NAME` bytes: the length of the name in the message, and the
name with its NUL. -/
def expand (rdata : ℕ) : Attempt (ℕ × Str) :=
  match dn_expand msg rdata (MAX_DNS_NAME - 1) with
  | none => .error
  | some (len, name) => do
    let name ← put MAX_DNS_NAME (name ++ [0])
    .ok (len, name)

def dns_srv_parser_run (rdata : ℕ) : Attempt SrvRdata := do
  check (rdata + 6 < msg.length)
  check mem.isSome
  let priority ← bytes msg rdata 2
  let weight ← bytes msg (rdata + 2) 2
  let port ← bytes msg (rdata + 4) 2
  let name ← expand dn_expand msg (rdata + 6)
  .ok ⟨ntohs priority, ntohs weight, ntohs port, name.2, name.1⟩

def dns_naptr_parser_run (rdata : ℕ) : Attempt NaptrRdata := do
  check (rdata + 7 < msg.length)
  check mem.isSome
  let order ← bytes msg rdata 2
  let pref ← bytes msg (rdata + 2) 2
  let flags_len ← byte msg (rdata + 4)
  check (rdata + 7 + flags_len.toNat < msg.length)
  let flags ← bytes msg (rdata + 5) flags_len.toNat
  let flags ← put MAX_DNS_STRING flags
  let services_len ← byte msg (rdata + 5 + flags_len.toNat)
  check (rdata + 7 + flags_len.toNat + services_len.toNat < msg.length)
  let services ← bytes msg (rdata + 6 + flags_len.toNat) services_len.toNat
  let services ← put MAX_DNS_STRING services
  let regexp_len ← byte msg (rdata + 6 + flags_len.toNat + services_len.toNat)
  check (rdata + 7 + flags_len.toNat + services_len.toNat + regexp_len.toNat < msg.length)
  let regexp ← bytes msg (rdata + 7 + flags_len.toNat + services_len.toNat) regexp_len.toNat
  let regexp ← put MAX_DNS_STRING regexp
  let repl ← expand dn_expand msg
    (rdata + 7 + flags_len.toNat + services_len.toNat + regexp_len.toNat)
  .ok ⟨ntohs order, ntohs pref, flags, services, regexp, repl.2, repl.1⟩

def dns_cname_parser_run (rdata : ℕ) : Attempt Str := do
  check mem.isSome
  let name ← expand dn_expand msg rdata
  .ok name.2

/-- `dns_a_parser` and `dns_aaaa_parser`, for an address of `len` bytes. -/
def dns_address_parser_run (len rdata : ℕ) : Attempt Str := do
  check (rdata + len < msg.length)
  check mem.isSome
  bytes msg rdata len

def dns_a_parser_run (rdata : ℕ) : Attempt Str := dns_address_parser_run msg mem 4 rdata

def dns_aaaa_parser_run (rdata : ℕ) : Attempt Str := dns_address_parser_run msg mem 16 rdata

def dns_txt_parser_run (rdata : ℕ) : Attempt Str := do
  check mem.isSome
  let len ← byte msg rdata
  check (rdata + 1 + len.toNat < msg.length)
  check (len.toNat < MAX_DNS_NAME)
  let txt ← bytes msg (rdata + 1) len.toNat
  put MAX_DNS_NAME (txt ++ [0])

/-- `apex` is the last field of the structure, which ends behind it. -/
def dns_ebl_parser_run (rdata : ℕ) : Attempt EblRdata := do
  check mem.isSome
  let len ← byte msg rdata
  check (rdata + 1 + len.toNat < msg.length)
  let position ← byte msg rdata
  check (position ≤ 15)
  let separator_len ← byte msg (rdata + 1)
  check (rdata + 2 + 1 + separator_len.toNat < msg.length)
  let separator ← bytes msg (rdata + 2) separator_len.toNat
  let separator ← put MAX_DNS_NAME separator
  let apex ← expand dn_expand msg (rdata + 2 + separator_len.toNat)
  if apex.1 < MAX_DNS_NAME then .ok ⟨position, separator, apex.2.set apex.1 0, apex.1⟩ else .fault

def parse_rdata (rtype : UInt16) (p : ℕ) : Attempt Data :=
  if rtype = T_SRV then Data.T_SRV <$> dns_srv_parser_run dn_expand msg mem p
  else if rtype = T_A then Data.T_A <$> dns_a_parser_run msg mem p
  else if rtype = T_AAAA then Data.T_AAAA <$> dns_aaaa_parser_run msg mem p
  else if rtype = T_CNAME then Data.T_CNAME <$> dns_cname_parser_run dn_expand msg mem p
  else if rtype = T_NAPTR then Data.T_NAPTR <$> dns_naptr_parser_run dn_expand msg mem p
  else if rtype = T_TXT then Data.T_TXT <$> dns_txt_parser_run msg mem p
  else if rtype = T_EBL then Data.T_EBL <$> dns_ebl_parser_run dn_expand msg mem p
  else .ok .NULL

end Parsers

section Names

variable (msg : Str)

/-- The loop of `dns_skipname`; a step takes at least one byte. -/
def skip_labels : ℕ → ℕ → Attempt ℕ
  | 0, p => .ok p
  | fuel + 1, p =>
    if p < msg.length then do
      let c ← byte msg p
      if c = 0 then .ok (p + 1)
      else if c &&& 0xc0 = 0xc0 then .ok (p + 2)
      else skip_labels fuel (p + c.toNat + 1)
    else .ok p

def dns_skipname (p : ℕ) : Attempt ℕ := do
  let p ← skip_labels msg msg.length p
  check (p < msg.length)
  .ok p

def skip_questions : ℕ → ℕ → Attempt ℕ
  | 0, p => .ok p
  | qno + 1, p => do
    let p ← dns_skipname msg p
    check (p + 4 < msg.length)
    skip_questions qno (p + 4)

end Names

section Answers

variable (dn_expand : Str → ℕ → ℕ → Option (ℕ × Str)) (heap : ℕ → Alloc) (msg : Str)

def parse_answer (alloc : Alloc) (p : ℕ) : Attempt (Record × ℕ) := do
  let p ← dns_skipname msg p
  check (p + 2 + 2 + 4 + 2 < msg.length)
  let rtype ← bytes msg p 2
  let class' ← bytes msg (p + 2) 2
  let ttl ← bytes msg (p + 4) 4
  let rdlength ← bytes msg (p + 8) 2
  check alloc.record
  let data ← parse_rdata dn_expand msg alloc.data (ntohs rtype) (p + 10)
  .ok (⟨ntohs rtype, ntohs class', ntohl ttl, data, data.seen (alloc.data.getD fun _ => 0)⟩,
    p + 10 + (ntohs rdlength).toNat)

def srv_before (srv : SrvRdata) (crt : UInt16 × UInt16) : Prop :=
  srv.priority < crt.1 ∨ srv.priority = crt.1 ∧ (srv.weight = 0 ∨ crt.2 ≠ 0)

instance (srv : SrvRdata) (crt : UInt16 × UInt16) : Decidable (srv_before srv crt) :=
  inferInstanceAs (Decidable (_ ∨ _))

/-- A SRV record goes to its place; the data of those before it are read. -/
def insert_srv (rd : Record) (srv : SrvRdata) : List Record → Attempt (List Record)
  | [] => .ok [rd]
  | crt :: rest =>
    match crt.seen with
    | none => .fault
    | some seen =>
      if srv_before srv seen then .ok (rd :: crt :: rest)
      else do
        let rest ← insert_srv rd srv rest
        .ok (crt :: rest)

/-- The record is put into the list; `last` is always the end of it. -/
def link (rd : Record) (l : List Record) : Attempt (List Record) :=
  match rd.data with
  | .T_SRV srv => insert_srv rd srv l
  | _ => .ok (l ++ [rd])

/-- The loop over the answers, with the `r`-th at `p`. -/
def parse_answers : ℕ → ℕ → ℕ → List Record → Attempt (List Record)
  | 0, _, _, l => .ok l
  | answers_no + 1, r, p, l =>
    if p < msg.length then do
      let answer ← parse_answer dn_expand msg (heap r) p
      let l ← link answer.1 l
      parse_answers answers_no (r + 1) answer.2 l
    else .ok l

def parse_header : Attempt (ℕ × ℕ) := do
  let hdr ← bytes msg 0 DNS_HDR_SIZE
  check (DNS_HDR_SIZE < msg.length)
  let p ← skip_questions msg (ntohs (hdr.drop 4)).toNat DNS_HDR_SIZE
  .ok ((ntohs (hdr.drop 6)).toNat, p)

def parse_reply : Attempt (List Record) := do
  let header ← parse_header msg
  parse_answers dn_expand heap msg header.1 0 header.2 []

/-- The list that is returned, which is empty after an error. -/
def parse_record : Option (List Record) :=
  match parse_reply dn_expand heap msg with
  | .ok l => some l
  | .error => some []
  | .fault => none

end Answers

end OpenSips.Resolve
