import OpenSips.Disposition.Model

/-!
# OpenSips.Disposition.Layout — how a disposition is written

A layout is a text with what stands between its elements.  It is `Strict` when that is white space, which may be
folded; it is `Passed` when it is what `parse_disposition` passes over.
-/

namespace OpenSips.Disp

def SEMICOLON : UInt8 := chr ';'

def EQUAL : UInt8 := chr '='

def QUOTE : UInt8 := chr '"'

def BACKSLASH : UInt8 := chr '\\'

def LF : UInt8 := chr '\n'

def CR : UInt8 := chr '\r'

/-- What follows a `=`: a token or the text between quotes, with what is around it. -/
structure Value where
  before : Str
  is_quoted : Bool
  body : Str
  behind : Str
  deriving DecidableEq

/-- What follows a `;`. -/
structure Item where
  before : Str
  name : Str
  behind : Str
  value : Option Value
  deriving DecidableEq

structure Layout where
  before : Str
  type : Str
  behind : Str
  items : List Item
  deriving DecidableEq

section Text

/-- The text behind the `=`. -/
def Value.text (v : Value) : Str :=
  v.before ++ if v.is_quoted then QUOTE :: (v.body ++ QUOTE :: v.behind) else v.body ++ v.behind

/-- The text behind the name. -/
def Item.rest (x : Item) : Str :=
  match x.value with
  | none => x.behind
  | some v => x.behind ++ EQUAL :: v.text

/-- The text behind the `;`. -/
def Item.text (x : Item) : Str := x.before ++ (x.name ++ x.rest)

def items_text (xs : List Item) : Str := xs.flatMap fun x => SEMICOLON :: x.text

def Layout.text (l : Layout) : Str := l.before ++ (l.type ++ (l.behind ++ items_text l.items))

/-- Where the body begins, for a `=` in front of `p`. -/
def Value.slice (v : Value) (p : ℕ) : Slice :=
  ⟨some (p + v.before.length + if v.is_quoted then 1 else 0), v.body.length⟩

/-- The parameter, for a `;` in front of `p`. -/
def Item.param (x : Item) (p : ℕ) : DispositionParam :=
  let name := p + x.before.length
  ⟨⟨some name, x.name.length⟩,
    match x.value with
    | none => .zero
    | some v => v.slice (name + x.name.length + x.behind.length + 1),
    x.value.any (·.is_quoted)⟩

def params_at : ℕ → List Item → List DispositionParam
  | _, [] => []
  | p, x :: xs => x.param (p + 1) :: params_at (p + 1 + x.text.length) xs

/-- The slices of the elements. -/
def Layout.disposition (l : Layout) : Disposition :=
  ⟨⟨some l.before.length, l.type.length⟩,
    params_at (l.before.length + l.type.length + l.behind.length) l.items⟩

end Text

section Elements

def Blank (c : UInt8) : Prop := class_of c = .blank

def Other (c : UInt8) : Prop := class_of c = .other

instance : DecidablePred Blank := fun c => inferInstanceAs (Decidable (class_of c = .blank))

instance : DecidablePred Other := fun c => inferInstanceAs (Decidable (class_of c = .other))

def Word (t : Str) : Prop := t ≠ [] ∧ ∀ c ∈ t, Other c

instance (t : Str) : Decidable (Word t) := inferInstanceAs (Decidable (_ ∧ _))

def Quotable (c : UInt8) : Prop := class_of c ≠ .nl ∧ class_of c ≠ .cr ∧ class_of c ≠ .nul

instance : DecidablePred Quotable := fun _ => inferInstanceAs (Decidable (_ ∧ _))

/-- A quoted text; the flag tells that a backslash stands in front of it. -/
def QuotedText : Bool → Str → Prop
  | false, [] => True
  | true, [] => False
  | true, c :: t => Quotable c ∧ QuotedText false t
  | false, c :: t =>
    if class_of c = .backslash then QuotedText true t
    else Quotable c ∧ class_of c ≠ .quote ∧ QuotedText false t

/-- White space, which a line break may be part of when a blank follows. -/
inductive White : Str → Prop where
  | nil : White []
  | blank (c : UInt8) (g : Str) : Blank c → White g → White (c :: g)
  | fold (b : Str) (c : UInt8) (g : Str) :
    b = [LF] ∨ b = [CR] ∨ b = [CR, LF] → Blank c → White g → White (b ++ c :: g)

end Elements

section Strict

/-- An element is followed by the next one, with white space around them. -/
structure Value.Strict (v : Value) : Prop where
  before : White v.before
  body : if v.is_quoted then QuotedText false v.body else Word v.body
  behind : White v.behind

structure Item.Strict (x : Item) : Prop where
  before : White x.before
  name : Word x.name
  behind : White x.behind
  value : ∀ v ∈ x.value, v.Strict

structure Layout.Strict (l : Layout) : Prop where
  before : White l.before
  type : Word l.type
  behind : White l.behind
  items : ∀ x ∈ l.items, x.Strict

end Strict

section Passed

/-- A line break with what is passed over behind it; behind the body of a parameter a `\n` counts as a `\r`. -/
inductive Break (val : Bool) : Str → Prop where
  | lf (j : Str) : (∀ c ∈ j, Other c) → Break val (LF :: j)
  | cr (j : Str) : (∀ c ∈ j, Other c) → Break val (CR :: j)
  | crlf (c : UInt8) (j j' : Str) : c = CR ∨ (val = true ∧ c = LF) → (∀ c ∈ j, Other c) →
    (∀ c ∈ j', Other c) → Break val (c :: j ++ LF :: j')

/-- What is passed over in front of the type and in front of a name. -/
inductive Before : Str → Prop where
  | nil : Before []
  | blank (c : UInt8) (g : Str) : Blank c → Before g → Before (c :: g)
  | fold (b : Str) (c : UInt8) (g : Str) : Break false b → Blank c → Before g → Before (b ++ c :: g)

def Loose (g : Str) : Prop := ∀ c ∈ g, Blank c ∨ Other c

/-- What is passed over behind an element that is no quoted text. -/
inductive Behind (val : Bool) : Str → Prop where
  | nil : Behind val []
  | blank (c : UInt8) (g : Str) : Blank c → Loose g → Behind val (c :: g)
  | fold (b : Str) (c : UInt8) (g : Str) : Break val b → Blank c → Loose g → Behind val (b ++ c :: g)

structure Value.Passed (v : Value) : Prop where
  before : ∀ c ∈ v.before, Blank c
  body : if v.is_quoted then QuotedText false v.body ∧ v.body ≠ [] else Word v.body
  behind : if v.is_quoted then Loose v.behind else Behind true v.behind

/-- A name that no body follows is followed by the next `;` at once. -/
structure Item.Passed (x : Item) (last : Prop) : Prop where
  before : Before x.before
  name : Word x.name
  behind : Behind false x.behind
  value : ∀ v ∈ x.value, v.Passed
  next : x.value = none → x.behind = [] ∨ last

def ItemsPassed : List Item → Prop
  | [] => True
  | x :: xs => x.Passed (xs = []) ∧ ItemsPassed xs

structure Layout.Passed (l : Layout) : Prop where
  before : Before l.before
  type : Word l.type
  behind : Behind false l.behind
  items : ItemsPassed l.items

end Passed

/-- Each strict layout of the text is read as it is written, and a text without one is refused. -/
structure Meets (s : Str) : Prop where
  strict : ∀ l : Layout, l.Strict → l.text = s → parse_disposition s = .ok l.disposition
  other : (¬ ∃ l : Layout, l.Strict ∧ l.text = s) → parse_disposition s = .error PARSE_ERROR

/-- Where the text has a strict layout, what stands between the elements is passed over; where it has none, there is
no layout that is passed. -/
structure Regular (s : Str) : Prop where
  strict : ∀ l : Layout, l.Strict → l.text = s → l.Passed
  passed : ∀ l : Layout, l.Passed → l.text = s → ∃ l' : Layout, l'.Strict ∧ l'.text = s

end OpenSips.Disp
