import Mathlib.Data.List.Forall2
import OpenSips.Parser.Rr

/-!
# OpenSips.Parser.RrCopy — the copy of a list of entries (`duplicate_rr`, `shm_duplicate_rr`)

A copy is one block, with the text of the entry behind the structure, and the pointers are moved with the text.  The
text that is copied ends behind the first parameter.
-/

namespace OpenSips.ParseRr

open Lib ParseParam List Option

structure Slice where
  pos : ℤ
  len : ℕ
  deriving DecidableEq

structure ParamCopy where
  type : PType
  name : Slice
  body : Option Slice
  len : ℕ
  deriving DecidableEq

/-- The copy of an entry: the text in its block, and what its `rr_t` and the copies of the parameters hold. -/
structure RrCopy where
  block : Str
  name : Slice
  uri : Slice
  name_len : ℕ
  params : List ParamCopy
  len : ℕ
  deriving DecidableEq

section Source

/-- `translate_pointer`, where the new text is at 0. -/
def translate_pointer (org : ℕ) (p : Span) : Slice := ⟨(p.pos : ℤ) - org, p.len⟩

/-- `duplicate_params` and `xlate_pointers`, of one parameter. -/
def duplicate_param (org : ℕ) (t : Param) : ParamCopy :=
  ⟨t.type, translate_pointer org t.name, t.body.map (translate_pointer org), t.len⟩

/-- A turn of the loop of `do_duplicate_rr`. -/
def duplicate_entry (s : Str) (it : Rr) : RrCopy :=
  let org := it.nameaddr.name.pos
  { block := (s.drop org).take (first_len it.nameaddr it.params)
    name := ⟨0, it.nameaddr.name.len⟩
    uri := translate_pointer org it.nameaddr.uri
    name_len := it.nameaddr.len
    params := it.params.map (duplicate_param org)
    len := it.len }

def do_duplicate_rr (s : Str) (first : Bool) : List Rr → List RrCopy
  | [] => []
  | it :: next => duplicate_entry s it :: if first then [] else do_duplicate_rr s first next

end Source

section Meaning

/-- The slice is in the block, and holds what the slice of the text holds. -/
structure Holds (s block : Str) (a : Span) (b : Slice) : Prop where
  first : 0 ≤ b.pos
  last : b.pos + b.len ≤ block.length
  len : b.len = a.len
  bytes : (block.drop b.pos.toNat).take b.len = (s.drop a.pos).take a.len

structure DeepParam (s block : Str) (t : Param) (u : ParamCopy) : Prop where
  type : u.type = t.type
  name : Holds s block t.name u.name
  body : Option.Rel (Holds s block) t.body u.body
  len : u.len = t.len

/-- The copy is equal, and its pointers are in its block. -/
structure DeepCopy (s : Str) (r : Rr) (c : RrCopy) : Prop where
  name : Holds s c.block r.nameaddr.name c.name
  uri : Holds s c.block r.nameaddr.uri c.uri
  name_len : c.name_len = r.nameaddr.len
  params : List.Forall₂ (DeepParam s c.block) r.params c.params
  len : c.len = r.len

/-- The entries that are to be copied. -/
def copied (first : Bool) (rs : List Rr) : List Rr := if first then rs.take 1 else rs

end Meaning

section Copy

variable {past : UInt8} {s : Str} {org n : ℕ} {a : Span} {t : Param} {r : Rr} {rs pre : List Rr} {first : Bool}

theorem duplicate_copied (s : Str) : ∀ rs, do_duplicate_rr s first rs = (copied first rs).map (duplicate_entry s)
  | [] => by
    cases first with
    | false => rfl
    | true => rfl
  | r :: rs => by
    rw [do_duplicate_rr, duplicate_copied s rs]
    cases first with
    | false => rfl
    | true => rfl

theorem holds_of (hfirst : org ≤ a.pos) (hlast : a.pos + a.len ≤ org + n) (hn : org + n ≤ s.length) :
    Holds s ((s.drop org).take n) a (translate_pointer org a) := by
  have hlen : ((s.drop org).take n).length = n := by
    rw [length_take, length_drop]
    omega
  have hpos : ((a.pos : ℤ) - org).toNat = a.pos - org := by omega
  have hstart : org + (a.pos - org) = a.pos := by omega
  refine ⟨?_, ?_, rfl, ?_⟩
  · show 0 ≤ (a.pos : ℤ) - org
    omega
  · show (a.pos : ℤ) - org + a.len ≤ _
    rw [hlen]
    omega
  · show (((s.drop org).take n).drop ((a.pos : ℤ) - org).toNat).take a.len = _
    rw [hpos, drop_take, take_take, drop_drop, hstart]
    congr 1
    omega

theorem param_deep {e : ℕ} (ht : t.Within e) (hfirst : org ≤ t.name.pos) (hlast : t.name.pos + t.len ≤ org + n)
    (hn : org + n ≤ s.length) : DeepParam s ((s.drop org).take n) t (duplicate_param org t) := by
  have hname := ht.name
  refine ⟨rfl, holds_of hfirst (by omega) hn, ?_, rfl⟩
  rw [duplicate_param]
  cases hb : t.body with
  | none => exact Rel.none
  | some b =>
    have hbody := ht.body b hb
    exact Rel.some (holds_of (by omega) (by omega) hn)

/-- **The copy of an entry** is deep when the entry has one parameter at most. -/
theorem deep_iff (h : Entry s r) : DeepCopy s r (duplicate_entry s r) ↔ r.params.length ≤ 1 := by
  have hlen := h.len
  have hinside := full_inside h
  have hfull := (len_full h).1
  have huri := h.uri
  have hname := h.name
  rw [hlen] at hfull
  have hends : r.nameaddr.name.pos + first_len r.nameaddr r.params ≤ s.length := by omega
  have hall : r.nameaddr.len ≤ first_len r.nameaddr r.params := by
    cases hp : r.params with
    | nil => exact le_rfl
    | cons t more =>
      have hfirst := (h.params t more hp).1
      rw [first_len]
      omega
  constructor
  · intro hd
    rcases hp : r.params with _ | ⟨t, _ | ⟨u, more⟩⟩
    · exact Nat.zero_le 1
    · exact Nat.le_refl 1
    · -- the second name is behind the end of the block
      obtain ⟨hfirst, hwithin, hmore⟩ := h.params t (u :: more) hp
      have hlt := (hmore u mem_cons_self).1
      have hparams := hd.params
      rw [duplicate_entry, hp] at hparams
      have hu := ((forall₂_cons.1 (forall₂_cons.1 hparams).2).1).name.last
      rw [length_take, length_drop, first_len, duplicate_param, translate_pointer] at hu
      dsimp only at hu
      omega
  · intro hone
    refine ⟨?_, holds_of huri.1 (by omega) hends, rfl, ?_, rfl⟩
    · have hn := holds_of (a := r.nameaddr.name) (le_rfl) (by omega) hends
      rw [translate_pointer, Int.sub_self] at hn
      exact hn
    · rw [duplicate_entry]
      rw [forall₂_map_right_iff, forall₂_same]
      intro t ht
      rcases hp : r.params with _ | ⟨v, _ | ⟨u, more⟩⟩
      · rw [hp] at ht
        cases ht
      · rw [hp] at ht
        obtain rfl := mem_singleton.1 ht
        obtain ⟨hfirst, hwithin, -⟩ := h.params t [] hp
        rw [hp] at hends
        rw [first_len] at *
        exact param_deep hwithin (by omega) (by omega) hends
      · rw [hp] at hone
        exact absurd hone (by simp)

/-- **`duplicate_rr` makes a deep copy** of the entries of a body, from any of them on, exactly when none of those it
copies has two parameters. -/
theorem duplicate_rr_spec (first : Bool) (h : do_parse_rr_body past s = some (pre ++ r :: rs)) :
    List.Forall₂ (DeepCopy s) (copied first (r :: rs)) (do_duplicate_rr s first (r :: rs)) ↔
      ∀ x ∈ copied first (r :: rs), x.params.length ≤ 1 := by
  have hentry : ∀ x ∈ copied first (r :: rs), Entry s x := by
    intro x hx
    apply (body_entries h).2 x
    apply mem_append_right
    cases first with
    | false => exact hx
    | true => exact mem_of_mem_take hx
  rw [duplicate_copied, forall₂_map_right_iff, forall₂_same]
  exact forall₂_congr fun x hx => deep_iff (hentry x hx)

/-- **An entry with two parameters**: the name of the second one is behind the block. -/
theorem second_param_outside : ∃ r, do_parse_rr_body 0 ("<sip:a>;x;y".toList.map chr) = some [r] ∧
    (do_duplicate_rr ("<sip:a>;x;y".toList.map chr) true [r]).map (fun c => (c.block, c.params.map ParamCopy.name)) =
      [("<sip:a>;x".toList.map chr, [⟨8, 1⟩, ⟨10, 1⟩])] ∧
    ¬ List.Forall₂ (DeepCopy ("<sip:a>;x;y".toList.map chr)) (copied true [r])
      (do_duplicate_rr ("<sip:a>;x;y".toList.map chr) true [r]) := by
  obtain ⟨r, hr⟩ : ∃ r : Rr, r = ⟨⟨⟨0, 0⟩, ⟨1, 5⟩, 7⟩, [⟨.P_OTHER, ⟨8, 1⟩, none, 1⟩, ⟨.P_OTHER, ⟨10, 1⟩, none, 1⟩], 9⟩ :=
    ⟨_, rfl⟩
  refine ⟨r, by rw [hr]; decide, by rw [hr]; decide, fun h => ?_⟩
  rw [hr] at h
  obtain ⟨hd, -⟩ := forall₂_cons.1 h
  obtain ⟨-, hmore⟩ := forall₂_cons.1 hd.params
  exact absurd (forall₂_cons.1 hmore).1.name.last (by decide)

/-- `"a"<sip:b>;c=d`, the second entry of its body, and the one behind it. -/
theorem copy_two : ∃ q r r', do_parse_rr_body 0 ("<sip:a>,\"a\"<sip:b>;c=d, <sip:e>".toList.map chr) = some [q, r, r'] ∧
    List.Forall₂ (DeepCopy ("<sip:a>,\"a\"<sip:b>;c=d, <sip:e>".toList.map chr)) (copied false [r, r'])
      (do_duplicate_rr ("<sip:a>,\"a\"<sip:b>;c=d, <sip:e>".toList.map chr) false [r, r']) := by
  have h : do_parse_rr_body 0 ("<sip:a>,\"a\"<sip:b>;c=d, <sip:e>".toList.map chr) =
      some ([⟨⟨⟨0, 0⟩, ⟨1, 5⟩, 7⟩, [], 7⟩] ++ [⟨⟨⟨8, 3⟩, ⟨12, 5⟩, 10⟩, [⟨.P_OTHER, ⟨19, 1⟩, some ⟨21, 1⟩, 3⟩], 14⟩,
        ⟨⟨⟨24, 0⟩, ⟨25, 5⟩, 7⟩, [], 7⟩]) := by decide
  refine ⟨_, _, _, h, (duplicate_rr_spec false h).2 ?_⟩
  exact forall_mem_cons.2 ⟨Nat.le_refl 1, forall_mem_cons.2 ⟨Nat.zero_le 1, fun x hx => by cases hx⟩⟩

end Copy

end OpenSips.ParseRr
