import OpenSips.Lib.Decision
import OpenSips.Parser.Msg
import OpenSips.Parser.Param

/-!
# OpenSips.Parser.Hname — the name of a header field (`parse_hname2.c`, `keys.h`, `case_*.h`)

A name is compared four bytes at a time, each with 0x20 set, so that control characters pass for `:`, `-` and
the space.  The macros are trees of such tests; their last argument, where they have one, is what stands
behind them in the source.  Where a name may end the tree leaves the rest to `dc_end`, which passes over white
space up to the `:` and counts it to the name.
-/

open OpenSips.Parser (HdrType)

namespace OpenSips.Hname

open Lib Decision
open FirstLine (LF SPACE TAB forall_char tolower token_char)

-- the names of the source
set_option linter.style.nameCheck false

section Keys

def _even_ := 0x6e657665
def _acce_ := 0x65636361
def _allo_ := 0x6f6c6c61
def _auth_ := 0x68747561
def _oriz_ := 0x7a69726f
def _atio_ := 0x6f697461
def _call_ := 0x6c6c6163
def __id2_ := 0x2064692d
def __id1_ := 0x3a64692d
def _cont_ := 0x746e6f63
def _act2_ := 0x20746361
def _act1_ := 0x3a746361
def _ent__ := 0x2d746e65
def _leng_ := 0x676e656c
def _th12_ := 0x203a6874
def _type_ := 0x65707974
def _cseq_ := 0x71657363
def _expi_ := 0x69707865
def _res2_ := 0x20736572
def _res1_ := 0x3a736572
def _from_ := 0x6d6f7266
def _max__ := 0x2d78616d
def _forw_ := 0x77726f66
def _ards_ := 0x73647261
def _prox_ := 0x786f7270
def _y_au_ := 0x75612d79
def _thor_ := 0x726f6874
def _izat_ := 0x74617a69
def _ion2_ := 0x206e6f69
def _ion1_ := 0x3a6e6f69
def _y_re_ := 0x65722d79
def _quir_ := 0x72697571
def _reco_ := 0x6f636572
def _rd_r_ := 0x722d6472
def _oute_ := 0x6574756f
def _rout_ := 0x74756f72
def _path_ := 0x68746170
def _supp_ := 0x70707573
def _orte_ := 0x6574726f
def _to12_ := 0x203a6f74
def _unsu_ := 0x75736e75
def _ppor_ := 0x726f7070
def _ted2_ := 0x20646574
def _ted1_ := 0x3a646574
def _via2_ := 0x20616976
def _via1_ := 0x3a616976
def _pt_l_ := 0x6c2d7470
def _angu_ := 0x75676e61
def _age2_ := 0x20656761
def _age1_ := 0x3a656761
def _orga_ := 0x6167726f
def _niza_ := 0x617a696e
def _tion_ := 0x6e6f6974
def _prio_ := 0x6f697270
def _rity_ := 0x79746972
def _subj_ := 0x6a627573
def _ect2_ := 0x20746365
def _ect1_ := 0x3a746365
def _user_ := 0x72657375
def __age_ := 0x6567612d
def _disp_ := 0x70736964
def _osit_ := 0x7469736f
def _pt_d_ := 0x64617470
def _ispo_ := 0x6f707369
def _siti_ := 0x69746973
def _dive_ := 0x65766964
def _rsio_ := 0x6f697372
def _remo_ := 0x6f6d6572
def _te_p_ := 0x702d6574
def _arty_ := 0x79747261
def _refe_ := 0x65666572
def _r_to_ := 0x6f742d72
def _sess_ := 0x73736573
def _ion__ := 0x2d6e6f69
def _min__ := 0x2d6e696d
def _p_pr_ := 0x72702d70
def _efer_ := 0x72656665
def _red__ := 0x2d646572
def _iden_ := 0x6e656469
def _tity_ := 0x79746974
def _p_as_ := 0x73612d70
def _sert_ := 0x74726573
def _ed_i_ := 0x692d6465
def _dent_ := 0x746e6564
def _ity2_ := 0x20797469
def _ity1_ := 0x3a797469
def _priv_ := 0x76697270
def _acy2_ := 0x20796361
def _acy1_ := 0x3a796361
def _retr_ := 0x72746572
def _y_af_ := 0x66612d79
def _ter2_ := 0x20726574
def _ter1_ := 0x3a726574

end Keys

section Source

/-- `LOWER_DWORD(val) == key`, `val` being read where `p` stands; `LOWER_BYTE(*(p + i)) == c`; `*(p + i) == c`. -/
inductive Test where
  | key (key : ℕ)
  | lower (i : ℕ) (c : Char)
  | byte (i : ℕ) (c : Char)

/-- The two labels, with the type that was set; and `return p + n`, with a type and a length. -/
inductive Goto where
  | dc_end (type : HdrType)
  | other
  | found (type : HdrType) (len n : ℕ)

abbrev Code := Tree Test Goto

def dc_end (type : HdrType) : Code := .done (.dc_end type)
def other : Code := .done .other
def found (type : HdrType) (len n : ℕ) : Code := .done (.found type len n)

/-- `switch(LOWER_DWORD(val))`, and what is behind it. -/
def switch : List (ℕ × Code) → Code → Code
  | [], k => k
  | (key, c) :: cs, k => .test (.key key) c (switch cs k)

/-- `switch(LOWER_BYTE(*p))`, and what is behind it. -/
def switch_byte : List (Char × Code) → Code → Code
  | [], k => k
  | (ch, c) :: cs, k => .test (.lower 0 ch) c (switch_byte cs k)

def via1_CASE : Code := found .VIA 3 4

def via2_CASE : Code := .skip 4 (dc_end .VIA)

def from_CASE : Code := .skip 4 (dc_end .FROM)

def to12_CASE : Code := found .TO 2 4

def cseq_CASE : Code := .skip 4 (dc_end .CSEQ)

def ID_CASE (k : Code) : Code :=
  switch [(__id1_, found .CALLID 7 4), (__id2_, .skip 4 (dc_end .CALLID))] k

def call_CASE : Code := .skip 4 (ID_CASE other)

def TH_CASE (k : Code) : Code :=
  switch [(_th12_, found .CONTENTLENGTH 14 4)]
    (.test (.lower 0 't') (.skip 1 (.test (.lower 0 'h') (.skip 1 (dc_end .CONTENTLENGTH)) k)) k)

def ion_CASE (k : Code) : Code :=
  switch [(_ion1_, found .CONTENTDISPOSITION 19 4), (_ion2_, .skip 4 (dc_end .CONTENTDISPOSITION))] k

def DISPOSITION_CASE (k : Code) : Code := switch [(_osit_, .skip 4 (ion_CASE other))] k

def CONTENT_CASE (k : Code) : Code :=
  switch [(_leng_, .skip 4 (TH_CASE other)), (_type_, .skip 4 (dc_end .CONTENTTYPE)),
    (_disp_, .skip 4 (DISPOSITION_CASE other))] k

def ACT_ENT_CASE (k : Code) : Code :=
  switch [(_act1_, found .CONTACT 7 4), (_act2_, .skip 4 (dc_end .CONTACT)),
    (_ent__, .skip 4 (CONTENT_CASE other))] k

def cont_CASE : Code := .skip 4 (ACT_ENT_CASE other)

def rout_CASE : Code := .skip 4 (switch_byte [('e', .skip 1 (dc_end .ROUTE))] other)

def ARDS_CASE (k : Code) : Code := switch [(_ards_, .skip 4 (dc_end .MAXFORWARDS))] k

def FORW_CASE (k : Code) : Code := switch [(_forw_, .skip 4 (ARDS_CASE other))] k

def max_CASE : Code := .skip 4 (FORW_CASE other)

def OUTE_CASE (k : Code) : Code := switch [(_oute_, .skip 4 (dc_end .RECORDROUTE))] k

def RD_R_CASE (k : Code) : Code := switch [(_rd_r_, .skip 4 (OUTE_CASE other))] k

def reco_CASE : Code := .skip 4 (RD_R_CASE other)

def AUTH_ATIO_CASE (k : Code) : Code :=
  switch [(_atio_, .skip 4 (switch_byte [('n', .skip 1 (dc_end .AUTHORIZATION))] other))] k

def AUTH_ORIZ_CASE (k : Code) : Code := switch [(_oriz_, .skip 4 (AUTH_ATIO_CASE other))] k

def auth_CASE : Code := .skip 4 (AUTH_ORIZ_CASE other)

def ORTE_CASE (k : Code) : Code :=
  switch [(_orte_, .skip 4 (switch_byte [('d', .skip 1 (dc_end .SUPPORTED))] other))] k

def supp_CASE : Code := .skip 4 (ORTE_CASE other)

def EXPI_RES_CASE (k : Code) : Code :=
  switch [(_res1_, found .EXPIRES 7 4), (_res2_, .skip 4 (dc_end .EXPIRES))] k

def expi_CASE : Code := .skip 4 (EXPI_RES_CASE other)

def ION_CASE (k : Code) : Code :=
  switch [(_ion1_, found .PROXYAUTH 19 4), (_ion2_, .skip 4 (dc_end .PROXYAUTH))] k

def IZAT_CASE (k : Code) : Code := switch [(_izat_, .skip 4 (ION_CASE other))] k

def THOR_CASE (k : Code) : Code := switch [(_thor_, .skip 4 (IZAT_CASE other))] k

def QUIR_CASE (k : Code) : Code :=
  switch [(_quir_, .skip 4 (switch_byte [('e', .skip 1 (dc_end .PROXYREQUIRE))] other))] k

def PROX2_CASE (k : Code) : Code :=
  switch [(_y_au_, .skip 4 (THOR_CASE other)), (_y_re_, .skip 4 (QUIR_CASE other))] k

def prox_CASE : Code := .skip 4 (PROX2_CASE other)

def allo_CASE : Code := .skip 4 (switch_byte [('w', .skip 1 (dc_end .ALLOW))] other)

def path_CASE : Code := .skip 4 (switch_byte [(':', dc_end .PATH)] other)

def TED_CASE (k : Code) : Code :=
  switch [(_ted1_, found .UNSUPPORTED 11 4), (_ted2_, .skip 4 (dc_end .UNSUPPORTED))] k

def PPOR_CASE (k : Code) : Code := switch [(_ppor_, .skip 4 (TED_CASE other))] k

def unsu_CASE : Code := .skip 4 (PPOR_CASE other)

def even_CASE : Code := .skip 4 (switch_byte [('t', .skip 1 (dc_end .EVENT))] other)

def age_CASE (k : Code) : Code :=
  switch [(_age1_, found .ACCEPTLANGUAGE 15 4), (_age2_, .skip 4 (dc_end .ACCEPTLANGUAGE))] k

def angu_CASE (k : Code) : Code := switch [(_angu_, .skip 4 (age_CASE other))] k

def on_CASE (k : Code) : Code :=
  .test (.lower 0 'o') (.skip 1 (.test (.lower 0 'n') (.skip 1 (dc_end .ACCEPTDISPOSITION)) k)) k

def siti_CASE (k : Code) : Code := switch [(_siti_, .skip 4 (on_CASE other))] k

def ispo_CASE (k : Code) : Code := switch [(_ispo_, .skip 4 (siti_CASE other))] k

def ptld_CASE (k : Code) : Code :=
  switch [(_pt_l_, .skip 4 (angu_CASE other)), (_pt_d_, .skip 4 (ispo_CASE other))] k

def acce_CASE : Code :=
  .skip 4 (ptld_CASE
    (.test (.lower 0 'p') (.skip 1 (.test (.lower 0 't') (.skip 1 (dc_end .ACCEPT)) other)) other))

def tion_CASE (k : Code) : Code := switch [(_tion_, .skip 4 (dc_end .ORGANIZATION))] k

def niza_CASE (k : Code) : Code := switch [(_niza_, .skip 4 (tion_CASE other))] k

def orga_CASE : Code := .skip 4 (niza_CASE other)

def rity_CASE (k : Code) : Code := switch [(_rity_, .skip 4 (dc_end .PRIORITY))] k

def prio_CASE : Code := .skip 4 (rity_CASE other)

def ect_CASE (k : Code) : Code :=
  switch [(_ect1_, found .SUBJECT 7 4), (_ect2_, .skip 4 (dc_end .SUBJECT))] k

def subj_CASE : Code := .skip 4 (ect_CASE other)

def nt_CASE : Code :=
  .test (.lower 0 'n') (.skip 1 (.test (.lower 0 't') (.skip 1 (dc_end .USERAGENT)) other)) other

def user_CASE : Code := .skip 4 (switch [(__age_, .skip 4 nt_CASE)] other)

def RSIO_CASE (k : Code) : Code :=
  switch [(_rsio_, .skip 4 (switch_byte [('n', .skip 1 (dc_end .DIVERSION))] other))] k

def dive_CASE : Code := .skip 4 (RSIO_CASE other)

def _ID_CASE (k : Code) : Code := switch [(__id1_, found .RPID 15 4), (__id2_, .skip 4 (dc_end .RPID))] k

def ARTY_CASE (k : Code) : Code := switch [(_arty_, .skip 4 (_ID_CASE other))] k

def TE_P_CASE (k : Code) : Code := switch [(_te_p_, .skip 4 (ARTY_CASE other))] k

def remo_CASE : Code := .skip 4 (TE_P_CASE other)

def r_to_CASE (k : Code) : Code := switch [(_r_to_, .skip 4 (dc_end .REFER_TO))] k

def refe_CASE : Code := .skip 4 (r_to_CASE other)

def RES_CASE (k : Code) : Code :=
  switch [(_res1_, found .SESSION_EXPIRES 15 4), (_res2_, .skip 4 (dc_end .SESSION_EXPIRES))] k

def EXPI_CASE (k : Code) : Code := switch [(_expi_, .skip 4 (RES_CASE other))] k

def ION__CASE (k : Code) : Code := switch [(_ion__, .skip 4 (EXPI_CASE other))] k

def sess_CASE : Code := .skip 4 (ION__CASE other)

def SE_CASE (k : Code) : Code :=
  .test (.lower 0 's') (.test (.lower 1 'e') (.skip 2 (dc_end .MIN_SE)) k) k

def min__CASE : Code := .skip 4 (SE_CASE other)

def TITY_CASE (k : Code) : Code := switch [(_tity_, .skip 4 (dc_end .PPI))] k

def IDEN_CASE (k : Code) : Code := switch [(_iden_, .skip 4 (TITY_CASE other))] k

def RED__CASE (k : Code) : Code := switch [(_red__, .skip 4 (IDEN_CASE other))] k

def EFER_CASE (k : Code) : Code := switch [(_efer_, .skip 4 (RED__CASE other))] k

def p_pr_CASE : Code := .skip 4 (EFER_CASE other)

def ITY_CASE (k : Code) : Code := switch [(_ity1_, found .PAI 19 4), (_ity2_, .skip 4 (dc_end .PAI))] k

def DENT_CASE (k : Code) : Code := switch [(_dent_, .skip 4 (ITY_CASE other))] k

def ED_I_CASE (k : Code) : Code := switch [(_ed_i_, .skip 4 (DENT_CASE other))] k

def SERT_CASE (k : Code) : Code := switch [(_sert_, .skip 4 (ED_I_CASE other))] k

def p_as_CASE : Code := .skip 4 (SERT_CASE other)

def ACY_CASE (k : Code) : Code :=
  switch [(_acy1_, found .PRIVACY 7 4), (_acy2_, .skip 4 (dc_end .PRIVACY))] k

def priv_CASE : Code := .skip 4 (ACY_CASE other)

def ter_CASE (k : Code) : Code :=
  switch [(_ter1_, found .RETRY_AFTER 11 4), (_ter2_, .skip 4 (dc_end .RETRY_AFTER))] k

def y_af_CASE (k : Code) : Code := switch [(_y_af_, .skip 4 (ter_CASE other))] k

def retr_CASE : Code := .skip 4 (y_af_CASE other)

def FIRST_QUATERNIONS : List (ℕ × Code) :=
  [(_via1_, via1_CASE), (_from_, from_CASE), (_to12_, to12_CASE), (_cseq_, cseq_CASE), (_call_, call_CASE),
    (_cont_, cont_CASE), (_rout_, rout_CASE), (_max__, max_CASE), (_reco_, reco_CASE), (_via2_, via2_CASE),
    (_auth_, auth_CASE), (_supp_, supp_CASE), (_expi_, expi_CASE), (_prox_, prox_CASE), (_allo_, allo_CASE),
    (_path_, path_CASE), (_unsu_, unsu_CASE), (_even_, even_CASE), (_acce_, acce_CASE), (_orga_, orga_CASE),
    (_prio_, prio_CASE), (_subj_, subj_CASE), (_user_, user_CASE), (_dive_, dive_CASE), (_remo_, remo_CASE),
    (_refe_, refe_CASE), (_sess_, sess_CASE), (_min__, min__CASE), (_p_pr_, p_pr_CASE), (_p_as_, p_as_CASE),
    (_priv_, priv_CASE), (_retr_, retr_CASE)]

def PARSE_COMPACT (type : HdrType) (k : Code) : Code :=
  .test (.byte 1 ' ') (.skip 2 (dc_end type)) (.test (.byte 1 ':') (found type 1 2) k)

/-- The `default` of the first switch. -/
def compact : Code :=
  switch_byte
    [('t', .test (.lower 1 'o') (.skip 2 (dc_end .TO))
        (.test (.lower 1 ' ') (.skip 2 (dc_end .TO)) (.test (.lower 1 ':') (found .TO 1 2) other))),
      ('v', PARSE_COMPACT .VIA other), ('f', PARSE_COMPACT .FROM other), ('i', PARSE_COMPACT .CALLID other),
      ('m', PARSE_COMPACT .CONTACT other), ('l', PARSE_COMPACT .CONTENTLENGTH other),
      ('k', PARSE_COMPACT .SUPPORTED other), ('c', PARSE_COMPACT .CONTENTTYPE other),
      ('o', PARSE_COMPACT .EVENT other), ('x', PARSE_COMPACT .SESSION_EXPIRES other)] other

-- the memory from `begin` on
variable (mem : ℕ → UInt8)

/-- A byte as a `char`, with its sign. -/
def char (c : UInt8) : ℤ := if c.toNat < 128 then c.toNat else c.toNat - 256

/-- `READ`: the bytes are added up. -/
def READ (p : ℕ) : ℤ :=
  char (mem p) + char (mem (p + 1)) * 2 ^ 8 + char (mem (p + 2)) * 2 ^ 16 + char (mem (p + 3)) * 2 ^ 24

/-- `val = READ(p)`, an `unsigned int`. -/
def val (p : ℕ) : ℕ := (READ mem p % 2 ^ 32).toNat

def LOWER_BYTE (b : UInt8) : UInt8 := b ||| 0x20

def LOWER_DWORD (d : ℕ) : ℕ := d ||| 0x20202020

def holds : Test → ℕ → Bool
  | .key key, p => LOWER_DWORD (val mem p) == key
  | .lower i c, p => LOWER_BYTE (mem (p + i)) == chr c
  | .byte i c, p => mem (p + i) == chr c

/-- `skip_ws(p, size)` -/
def skip_ws : ℕ → ℕ → ℕ
  | p, 0 => p
  | p, size + 1 => if mem p ≠ SPACE ∧ mem p ≠ TAB then p else skip_ws (p + 1) size

def q_memchr (c : UInt8) : ℕ → ℕ → Option ℕ
  | _, 0 => none
  | p, size + 1 => if mem p = c then some p else q_memchr c (p + 1) size

/-- `end - p`, as an `unsigned int`. -/
def room (size p : ℕ) : ℕ := (((size : ℤ) - p) % 2 ^ 32).toNat

/-- What is set of the `hdr_field`, the name being counted from `begin`, and what is returned.  The name is
not set when the text is too short, and `NULL` when there is no `:`. -/
structure HdrName where
  type : HdrType
  name : Option ℕ
  next : Option ℕ
  deriving DecidableEq

/-- The label `other`. -/
def unknown (size p : ℕ) : HdrName :=
  match q_memchr mem (chr ':') p (room size p) with
  | none => ⟨.ERROR, none, none⟩
  | some p => ⟨.OTHER, some p, some (p + 1)⟩

def settle (size : ℕ) : Goto × ℕ → HdrName
  | (.found type len n, p) => ⟨type, some len, some (p + n)⟩
  | (.other, p) => unknown mem size p
  | (.dc_end type, p) =>
    let p := skip_ws mem p (room size p)
    if mem p ≠ chr ':' then unknown mem size p else ⟨type, some p, some (p + 1)⟩

/-- `parse_hname2(begin, end, hdr)`, `size` being `end - begin`. -/
def parse_hname2 (size : ℕ) : HdrName :=
  if size < 4 then ⟨.ERROR, none, some 0⟩
  else settle mem size (run (holds mem) (switch FIRST_QUATERNIONS compact) 0)

end Source

end OpenSips.Hname
