import Mathlib.Data.Int.Notation
import Mathlib.Data.List.Basic
import Mathlib.Algebra.GroupWithZero.Nat
import Mathlib.Algebra.Group.Int.Defs

/-!
# OpenSips.Str — byte strings and C string comparison (`core/str.h`)

`Str` is the text a `struct _str` denotes: its `len` bytes.  Allocated objects are named by a
`Ref`; a `void *` the code only stores and compares is a `Ptr`, with `NULL` written `0`.
-/

namespace OpenSips

/-- The bytes `s[0..len)` of a `str`. -/
abbrev Str := List UInt8

/-- The character constants. -/
def chr (c : Char) : UInt8 := UInt8.ofNat c.toNat

abbrev Ref := ℕ

/-- An uninterpreted `void *`. -/
abbrev Ptr := ℕ

def NULL : Ptr := 0

/-- `strncmp`: at most `n` bytes, compared as `unsigned char`, stopping behind a common NUL. -/
def strncmp : Str → Str → ℕ → ℤ
  | a :: s1, b :: s2, n + 1 =>
    if a ≠ b then (a.toNat : ℤ) - b.toNat
    else if a = 0 then 0
    else strncmp s1 s2 n
  | _, _, _ => 0

end OpenSips
