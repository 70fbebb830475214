import OpenSips.Str

/-!
# OpenSips.Parser.Msg — header fields and messages (`parser/hf.h`, `parser/msg_parser.h`)

A message is modelled with the heap its references live in: header structs, byte blocks and the
parsed forms of headers, named by fresh addresses.  `none` is a fault: `NULL` or freed memory is
followed, what is not a live block is freed, or a copy leaves its object.
-/

namespace OpenSips.Parser

/-- `hdr_types_t`, in the order of the enumeration; `HDR_ERROR_T` is its -1. -/
inductive HdrType where
  | OTHER | VIA | VIA2 | TO | FROM | CSEQ | CALLID | CONTACT | MAXFORWARDS | ROUTE | RECORDROUTE
  | PATH | CONTENTTYPE | CONTENTLENGTH | AUTHORIZATION | EXPIRES | PROXYAUTH | SUPPORTED
  | PROXYREQUIRE | UNSUPPORTED | ALLOW | EVENT | ACCEPT | ACCEPTLANGUAGE | ORGANIZATION | PRIORITY
  | SUBJECT | USERAGENT | ACCEPTDISPOSITION | CONTENTDISPOSITION | DIVERSION | RPID | REFER_TO
  | SESSION_EXPIRES | MIN_SE | PPI | PAI | PRIVACY | RETRY_AFTER | EOH | ERROR
  deriving DecidableEq

/-- What the switches of `parse_headers`, `add_hdr` and `rm_hdr` do with a type: its hook points at
one header, it heads a chain of siblings, there is no hook, or the type is refused. -/
inductive HookKind where
  | single | siblings | none | bad
  deriving DecidableEq

def HdrType.hookKind : HdrType → HookKind
  | .CALLID | .TO | .CSEQ | .FROM | .MAXFORWARDS | .CONTENTTYPE | .CONTENTLENGTH | .EXPIRES
  | .ORGANIZATION | .PRIORITY | .SUBJECT | .USERAGENT | .CONTENTDISPOSITION | .RPID | .REFER_TO
  | .SESSION_EXPIRES | .MIN_SE | .PPI | .PAI | .PRIVACY => .single
  | .CONTACT | .ROUTE | .RECORDROUTE | .PATH | .AUTHORIZATION | .PROXYAUTH | .PROXYREQUIRE
  | .SUPPORTED | .UNSUPPORTED | .ALLOW | .EVENT | .ACCEPT | .ACCEPTLANGUAGE | .ACCEPTDISPOSITION
  | .DIVERSION | .VIA => .siblings
  | .RETRY_AFTER | .OTHER => .none
  | .ERROR | .EOH | .VIA2 => .bad

/-- The types whose `parsed` is released by `clean_hdr_field`. -/
def HdrType.frees_parsed : HdrType → Bool
  | .VIA | .TO | .FROM | .CSEQ | .CONTACT | .ROUTE | .RECORDROUTE | .PATH | .CONTENTTYPE
  | .AUTHORIZATION | .EXPIRES | .PROXYAUTH | .SUPPORTED | .ALLOW | .EVENT | .ACCEPT
  | .CONTENTDISPOSITION | .DIVERSION | .RPID | .REFER_TO | .SESSION_EXPIRES | .PPI | .PAI => true
  | _ => false

/-- A `char *`: into the message buffer, to the name copied behind a header struct, to an allocated
block, to memory the caller keeps, or to memory the caller takes back after the call. -/
inductive CharPtr where
  | null
  | msg (off : ℕ)
  | copy (h : ℕ)
  | blk (b : ℕ)
  | ext (s : Str)
  | tmp (s : Str)
  deriving DecidableEq

/-- A `struct _str`. -/
structure Slice where
  s : CharPtr
  len : ℤ
  deriving DecidableEq

/-- The bits `HDR_DUP_NAME`, `HDR_DUP_BODY`, `HDR_FREE_NAME`, `HDR_FREE_BODY` and
`HDR_NOT_ORIG_MSG`. -/
structure HdrFlags where
  dup_name : Bool
  dup_body : Bool
  free_name : Bool
  free_body : Bool
  not_orig : Bool
  deriving DecidableEq

/-- `struct hdr_field`, with the bytes allocated behind it.  `parsed` lists the objects of the
parsed form, a list of Via bodies in order. -/
structure HdrField where
  type : HdrType
  name : Slice
  body : Slice
  len : ℤ
  body_buff_size : ℤ
  flags : HdrFlags
  parsed : List ℕ
  next : ℕ
  prev : ℕ
  next_sibling : ℕ
  prev_sibling : ℕ
  copy : Str
  deriving DecidableEq

/-- After `memset(hf, 0, sizeof *hf)`. -/
def HdrField.zero : HdrField :=
  ⟨.OTHER, ⟨.null, 0⟩, ⟨.null, 0⟩, 0, 0, ⟨false, false, false, false, false⟩, [], 0, 0, 0, 0, []⟩

/-- What the builder reads of `struct msg_start`; `request` is false for a reply. -/
structure MsgStart where
  request : Bool
  len : ℕ
  uri : ℕ
  uri_len : ℕ
  deriving DecidableEq

structure SipMsg where
  buf : Str
  first_line : MsgStart
  via1 : ℕ
  via2 : ℕ
  headers : ℕ
  last_header : ℕ
  parsed_flag : BitVec 64
  hook : HdrType → ℕ
  unparsed : Option ℕ
  new_len : ℤ
  new_uri : Slice
  hdr : ℕ → Option HdrField
  blk : ℕ → Option Str
  obj : ℕ → Bool
  fresh : ℕ

/-- The answer of the allocator: `NULL`, or what the bytes of the new block happen to be. -/
abbrev Alloc := Option (ℕ → UInt8)

def fill (junk : ℕ → UInt8) (n : ℤ) : Str := (List.range n.toNat).map junk

/-- A `short` and an `unsigned int`. -/
def short (z : ℤ) : ℤ := z.bmod 65536

def uint (z : ℤ) : ℤ := z % 4294967296

namespace SipMsg

/-- The header at a live address. -/
def field (m : SipMsg) (h : ℕ) : HdrField := (m.hdr h).getD .zero

def set (m : SipMsg) (h : ℕ) (x : HdrField) : SipMsg :=
  { m with hdr := Function.update m.hdr h (some x) }

/-- `h->... = ...` -/
def upd (m : SipMsg) (h : ℕ) (f : HdrField → HdrField) : Option SipMsg :=
  (m.hdr h).map fun x => m.set h (f x)

def setHook (m : SipMsg) (t : HdrType) (h : ℕ) : SipMsg :=
  { m with hook := Function.update m.hook t h }

/-- The object a pointer refers to, from there to its end. -/
def target (m : SipMsg) : CharPtr → Option Str
  | .null => some []
  | .msg off => some (m.buf.drop off)
  | .copy h => (m.hdr h).map HdrField.copy
  | .blk b => m.blk b
  | .ext s => some s
  | .tmp _ => none

/-- Like `target` during a call, while the caller's memory is there. -/
def argument (m : SipMsg) : CharPtr → Option Str
  | .tmp s => some s
  | p => m.target p

/-- The bytes `s[off..off+len)`, inside their object. -/
def cut (s : Str) (off len : ℤ) : Option Str :=
  if 0 ≤ off ∧ 0 ≤ len ∧ off + len ≤ s.length then some ((s.drop off.toNat).take len.toNat) else none

/-- `memcpy` to `s + off`. -/
def paste (s : Str) (off : ℤ) (t : Str) : Option Str :=
  if 0 ≤ off ∧ off + t.length ≤ s.length then
    some (s.take off.toNat ++ t ++ s.drop (off.toNat + t.length))
  else none

/-- Allocations: a struct with `x` in it, a block, objects of a parsed form. -/
def newHdr (m : SipMsg) (x : HdrField) : SipMsg :=
  { m with hdr := Function.update m.hdr m.fresh (some x), fresh := m.fresh + 1 }

def newBlk (m : SipMsg) (s : Str) : SipMsg :=
  { m with blk := Function.update m.blk m.fresh (some s), fresh := m.fresh + 1 }

def newObjs (m : SipMsg) (n : ℕ) : SipMsg :=
  { m with obj := fun o => m.obj o || (m.fresh ≤ o && o < m.fresh + n), fresh := m.fresh + n }

/-- `memcpy` into the block `p` points at. -/
def write (m : SipMsg) (p : CharPtr) (off : ℤ) (s : Str) : Option SipMsg :=
  match p with
  | .blk b => do
    let dst ← m.blk b
    let dst ← paste dst off s
    some { m with blk := Function.update m.blk b (some dst) }
  | _ => if s = [] then some m else none

/-- `shm_free` of a `char *`; `NULL` is accepted. -/
def freePtr (m : SipMsg) : CharPtr → Option SipMsg
  | .null => some m
  | .blk b => (m.blk b).map fun _ => { m with blk := Function.update m.blk b none }
  | _ => none

def freeHdr (m : SipMsg) (h : ℕ) : SipMsg := { m with hdr := Function.update m.hdr h none }

def freeObjs : SipMsg → List ℕ → Option SipMsg
  | m, [] => some m
  | m, o :: os =>
    if m.obj o then freeObjs { m with obj := Function.update m.obj o false } os else none

end SipMsg

/-- `clean_hdr_field` -/
def clean_hdr_field (m : SipMsg) (h : ℕ) : Option SipMsg := do
  let x ← m.hdr h
  if x.type.frees_parsed then m.freeObjs x.parsed else some m

/-- `link_sibling_hdr`: the loop to the end of a chain of siblings. -/
def last_sibling (m : SipMsg) : ℕ → ℕ → Option ℕ
  | 0, _ => none
  | fuel + 1, itr => do
    let x ← m.hdr itr
    if x.next_sibling = 0 then some itr else last_sibling m fuel x.next_sibling

def link_sibling_hdr (m : SipMsg) (t : HdrType) (h : ℕ) : Option SipMsg :=
  if m.hook t = 0 then some (m.setHook t h)
  else do
    let itr ← last_sibling m m.fresh (m.hook t)
    let m ← m.upd itr fun x => { x with next_sibling := h }
    m.upd h fun x => { x with prev_sibling := itr }

/-- What the switch on a type that is not refused does with the new header `h`. -/
def link_hook (m : SipMsg) (t : HdrType) (h : ℕ) : Option SipMsg :=
  match t.hookKind with
  | .single => some (if m.hook t = 0 then m.setHook t h else m)
  | .siblings => link_sibling_hdr m t h
  | .none => some m
  | .bad => none

end OpenSips.Parser
