import Mathlib.Data.List.Flatten
import OpenSips.Mi.Writer

/-!
# OpenSips.Mi.Rendering — what a reply looks like on the wire

The rendering of a reply is its lines and the empty one behind them.  It is what the blocks say put
together unless a line is skipped, a block is not taken, or the lines leave the last block full.
-/

namespace OpenSips.Mi

open Lib List

variable {works : ℕ → Bool} {indent : Option Str}

section Reference

def shown (f : Str → Str) : Option Str → Str
  | none => []
  | some xs => f xs

def attr_line (a : MiAttr) : Str := shown attr_text a.name ++ shown id a.value

variable (indent) in
/-- `name:: value attr=value`, indented. -/
def node_line (n : MiNode) (level : ℕ) : Str :=
  shown (fun i => (List.replicate level i).flatten) indent ++ shown name_text n.name ++
    shown id n.value ++ (n.attributes.map attr_line).flatten ++ [LF]

def status_line (tree : MiRoot) : Str := int2str tree.code ++ chr ' ' :: tree.reason ++ [LF]

variable (indent) in
/-- The lines of some nodes, depth first. -/
def MiTree.lines : MiTree → ℕ → List Str
  | .null, _ => []
  | .node n kids next, level => node_line indent n level :: (kids.lines (level + 1) ++ next.lines level)

variable (indent) in
def lines (tree : MiRoot) : List Str := status_line tree :: tree.kids.lines indent 0

variable (indent) in
def render (tree : MiRoot) : Str := (lines indent tree).flatten ++ [LF]

def MiTree.Unwritten : MiTree → Prop
  | .null => True
  | .node n kids next => n.flags &&& MI_WRITTEN = 0 ∧ kids.Unwritten ∧ next.Unwritten

def Unwritten (tree : MiRoot) : Prop := tree.flags &&& MI_WRITTEN = 0 ∧ tree.kids.Unwritten

/-- One more line: the number of full blocks, and what is in the one behind them. -/
def stow (at_ : ℕ × ℕ) (l : Str) : ℕ × ℕ :=
  if at_.2 + l.length ≤ MAX_MI_FIFO_BUFFER then (at_.1, at_.2 + l.length) else (at_.1 + 1, l.length)

/-- Lines put into blocks, none divided. -/
def pack (ls : List Str) : ℕ × ℕ := ls.foldl stow (0, 0)

end Reference

section Copies

variable {b : Buffer} {p : ℕ} {e : ℤ} {xs ys : Str} {r : Buffer × Option ℕ}

/-- `r` comes from a copy of `xs` to `p` that was given up if it did not fit. -/
structure Copied (e : ℤ) (b : Buffer) (p : ℕ) (xs : Str) (r : Buffer × Option ℕ) : Prop where
  below : ∀ i < p, r.1.bytes i = b.bytes i
  extent : (r.1.extent : ℤ) ≤ max (b.extent : ℤ) e
  fits : p + xs.length ≤ e → r.2 = some (p + xs.length) ∧ read r.1.bytes p xs.length = xs
  full : e < p + xs.length → r.2 = none

theorem Copied.refl (h : p ≤ e) : Copied e b p [] (b, some p) :=
  ⟨fun _ _ => rfl, le_max_left _ _, fun _ => ⟨rfl, rfl⟩, fun hlt => by
    rw [length_nil] at hlt
    omega⟩

theorem Copied.copy (h : Copied e b p xs r) (ys : Str) : Copied e b p (xs ++ ys) (copy e ys r) := by
  obtain ⟨b', q⟩ := r
  by_cases hxs : p + xs.length ≤ e
  · obtain ⟨rfl, hread⟩ : q = _ ∧ _ := h.fits hxs
    by_cases hys : ((p + xs.length : ℕ) : ℤ) + ys.length > e
    · rw [copy, if_pos hys]
      refine ⟨h.below, h.extent, fun hfit => ?_, fun _ => rfl⟩
      rw [length_append] at hfit
      omega
    · rw [copy, if_neg hys]
      refine ⟨fun i hi => ?_, ?_, fun _ => ⟨?_, ?_⟩, fun hfull => ?_⟩
      · exact (write_outside (.inl (Nat.lt_add_right _ hi))).trans (h.below i hi)
      · have hext := h.extent
        simp only [Buffer.memcpy] at hext ⊢
        omega
      · rw [length_append, add_assoc]
      · rw [length_append, read_append, Buffer.memcpy, read_write,
          read_write_of_disjoint (.inl le_rfl), hread]
      · rw [length_append] at hfull
        omega
  · obtain rfl : q = none := h.full (not_le.1 hxs)
    refine ⟨h.below, h.extent, fun hfit => ?_, fun _ => rfl⟩
    rw [length_append] at hfit
    omega

theorem Copied.copy_text (h : Copied e b p xs r) (f : Str → Str) (t : Option Str) :
    Copied e b p (xs ++ shown f t) (copy_text e f t r) := by
  cases t with
  | none =>
    rw [shown, append_nil]
    exact h
  | some ys => exact h.copy (f ys)

theorem Copied.copy_attrs (h : Copied e b p xs r) (as : List MiAttr) :
    Copied e b p (xs ++ (as.map attr_line).flatten) (as.foldl (copy_attr e) r) := by
  induction as generalizing xs r with
  | nil =>
    rw [map_nil, flatten_nil, append_nil]
    exact h
  | cons a as ih =>
    have ha := ih ((h.copy_text attr_text a.name).copy_text id a.value)
    rw [append_assoc xs, append_assoc] at ha
    exact ha

theorem Copied.kept (h : Copied e b p xs r) : read r.1.bytes 0 p = read b.bytes 0 p := by
  apply read_congr
  intro i hi
  exact h.below i (by simpa using hi.2)

theorem Copied.extent_le {n : ℕ} (h : Copied n b p xs r) (hb : b.extent ≤ n) : r.1.extent ≤ n := by
  have hext := h.extent
  omega

end Copies

section Packing

variable {w : Writer} {text : Str} {at_ : ℕ × ℕ} {n : MiNode} {level k : ℕ} {l : Str} {ls ls' : List Str}

theorem stow_fits (h : at_.2 + l.length ≤ MAX_MI_FIFO_BUFFER) :
    stow at_ l = (at_.1, at_.2 + l.length) := if_pos h

theorem stow_full (h : ¬ at_.2 + l.length ≤ MAX_MI_FIFO_BUFFER) :
    stow at_ l = (at_.1 + 1, l.length) := if_neg h

theorem stow_le : at_.1 ≤ (stow at_ l).1 := by
  by_cases h : at_.2 + l.length ≤ MAX_MI_FIFO_BUFFER
  · rw [stow_fits h]
  · rw [stow_full h]
    exact Nat.le_succ _

theorem foldl_stow_le : at_.1 ≤ (ls.foldl stow at_).1 := by
  induction ls generalizing at_ with
  | nil => exact le_rfl
  | cons l ls ih => exact le_trans stow_le ih

/-- `text` was written so far: `at_.1` blocks of it were handed on, and `at_.2` bytes are in the
buffer. -/
structure Holds (w : Writer) (text : Str) (at_ : ℕ × ℕ) : Prop where
  text : w.blocks.flatten ++ read w.buffer.bytes 0 w.s = text
  flushed : w.blocks.length = at_.1
  fill : w.s = at_.2
  room : w.s + w.len = MAX_MI_FIFO_BUFFER
  le : w.s ≤ MAX_MI_FIFO_BUFFER
  extent : w.buffer.extent ≤ MAX_MI_FIFO_BUFFER

/-- The writer has given up with less than `text` handed on. -/
structure Stopped (w : Writer) (text : Str) : Prop where
  less : w.blocks.flatten.length < text.length
  extent : w.buffer.extent ≤ MAX_MI_FIFO_BUFFER

variable (indent) in
theorem node_copied (h : Holds w text at_) (n : MiNode) (level : ℕ) :
    ∃ r, Copied MAX_MI_FIFO_BUFFER w.buffer w.s (node_line indent n level) r ∧
      mi_write_node indent n level w = match r with
        | (b, none) => ({ w with buffer := b }, false)
        | (b, some p) => ({ w with buffer := b, s := p, len := w.len - (p - w.s) }, true) := by
  refine ⟨_, ?_, rfl⟩
  rw [h.room]
  have h0 : Copied MAX_MI_FIFO_BUFFER w.buffer w.s [] _ := Copied.refl (Int.ofNat_le.2 h.le)
  exact (((h0.copy_text _ indent).copy_text name_text n.name).copy_text id n.value
    |>.copy_attrs n.attributes).copy [LF]

theorem node_fits (h : Holds w text at_) (hl : at_.2 + (node_line indent n level).length ≤ MAX_MI_FIFO_BUFFER) :
    (mi_write_node indent n level w).2 = true ∧
      Holds (mi_write_node indent n level w).1 (text ++ node_line indent n level)
        (at_.1, at_.2 + (node_line indent n level).length) := by
  obtain ⟨⟨b, q⟩, hc, heq⟩ := node_copied indent h n level
  have hfill := h.fill
  have hroom := h.room
  obtain ⟨rfl, hread⟩ : q = _ ∧ _ := hc.fits (by omega)
  rw [heq]
  refine ⟨rfl, ?_, h.flushed, by rw [hfill], ?_, by rw [hfill]; exact hl, ?_⟩
  · rw [read_append, zero_add, hread, hc.kept, ← append_assoc, h.text]
  · show ((w.s + (node_line indent n level).length : ℕ) : ℤ) + (w.len - (_ - _)) = _
    omega
  · exact hc.extent_le h.extent

theorem node_full (h : Holds w text at_)
    (hl : ¬ at_.2 + (node_line indent n level).length ≤ MAX_MI_FIFO_BUFFER) :
    (mi_write_node indent n level w).2 = false ∧ Holds (mi_write_node indent n level w).1 text at_ := by
  obtain ⟨⟨b, q⟩, hc, heq⟩ := node_copied indent h n level
  have hfill := h.fill
  obtain rfl : q = none := hc.full (by omega)
  rw [heq]
  refine ⟨rfl, ?_, h.flushed, hfill, h.room, h.le, ?_⟩
  · show w.blocks.flatten ++ read b.bytes 0 w.s = text
    rw [hc.kept, h.text]
  · exact hc.extent_le h.extent

/-- The calls with numbers from `lo` to `hi` succeed. -/
def Taken (works : ℕ → Bool) (lo hi : ℕ) : Prop := ∀ k, lo ≤ k → k < hi → works k = true

/-- `r` comes from writing the lines `ls` behind `text`. -/
structure Put (works : ℕ → Bool) (text : Str) (at_ : ℕ × ℕ) (ls : List Str) (r : Writer × Bool) : Prop where
  done : Taken works at_.1 (ls.foldl stow at_).1 →
    r.2 = true ∧ Holds r.1 (text ++ ls.flatten) (ls.foldl stow at_)
  stopped : ¬ Taken works at_.1 (ls.foldl stow at_).1 → r.2 = false ∧ Stopped r.1 (text ++ ls.flatten)

theorem Put.refl (h : Holds w text at_) : Put works text at_ [] (w, true) :=
  ⟨fun _ => ⟨rfl, by rw [flatten_nil, append_nil]; exact h⟩, fun hn =>
    absurd (fun k h1 h2 => absurd (lt_of_le_of_lt h1 h2) (lt_irrefl _)) hn⟩

/-- **Lines behind lines.** -/
theorem Put.and_then {r : Writer × Bool} {f : Writer → Writer × Bool} (h : Put works text at_ ls r)
    (hf : ∀ w, Holds w (text ++ ls.flatten) (ls.foldl stow at_) →
      Put works (text ++ ls.flatten) (ls.foldl stow at_) ls' (f w)) :
    Put works text at_ (ls ++ ls') (and_then r f) := by
  have hle : at_.1 ≤ (ls.foldl stow at_).1 := foldl_stow_le
  have hle' : (ls.foldl stow at_).1 ≤ (ls'.foldl stow (ls.foldl stow at_)).1 := foldl_stow_le
  unfold Mi.and_then
  by_cases ht : Taken works at_.1 (ls.foldl stow at_).1
  · obtain ⟨hr, hh⟩ := h.done ht
    have hput := hf r.1 hh
    rw [if_pos hr]
    constructor
    · intro htaken
      rw [foldl_append] at htaken ⊢
      rw [flatten_append, ← append_assoc]
      exact hput.done fun k h1 h2 => htaken k (le_trans hle h1) h2
    · intro hnot
      rw [foldl_append] at hnot
      rw [flatten_append, ← append_assoc]
      refine hput.stopped fun htaken => hnot fun k h1 h2 => ?_
      by_cases hk : k < (ls.foldl stow at_).1
      · exact ht k h1 hk
      · exact htaken k (not_lt.1 hk) h2
  · obtain ⟨hr, hs⟩ := h.stopped ht
    rw [if_neg (by rw [hr]; exact Bool.false_ne_true)]
    constructor
    · intro htaken
      rw [foldl_append] at htaken
      exact absurd (fun k h1 h2 => htaken k h1 (lt_of_lt_of_le h2 hle')) ht
    · intro _
      refine ⟨rfl, ?_, hs.extent⟩
      have hless := hs.less
      rw [flatten_append, ← append_assoc, length_append]
      exact Nat.lt_add_right _ hless

theorem node_line_pos : 0 < (node_line indent n level).length := by
  rw [node_line, length_append]
  exact Nat.succ_pos _

theorem put_node (h : Holds w text at_) (hl : (node_line indent n level).length ≤ MAX_MI_FIFO_BUFFER) :
    Put works text at_ [node_line indent n level] (write_or_flush works indent n level w) := by
  unfold write_or_flush
  by_cases hfit : at_.2 + (node_line indent n level).length ≤ MAX_MI_FIFO_BUFFER
  · obtain ⟨hr, hh⟩ := node_fits h hfit
    rw [if_pos hr]
    refine ⟨fun _ => ⟨hr, ?_⟩, fun hnot => absurd (fun k h1 h2 => ?_) hnot⟩
    · rw [foldl_cons, foldl_nil, stow_fits hfit, flatten_singleton]
      exact hh
    · rw [foldl_cons, foldl_nil, stow_fits hfit] at h2
      exact absurd (Nat.lt_of_le_of_lt h1 h2) (Nat.lt_irrefl _)
  · obtain ⟨hr, hh⟩ := node_full h hfit
    rw [if_neg (by rw [hr]; exact Bool.false_ne_true)]
    obtain ⟨w', hw'⟩ : ∃ w', w' = (mi_write_node indent n level w).1 := ⟨_, rfl⟩
    rw [← hw'] at hh ⊢
    have hblocks : (mi_fifofd_reply works w').1.blocks.flatten = text := by
      rw [mi_fifofd_reply, flatten_append, flatten_singleton]
      exact hh.text
    have htaken : Taken works at_.1 ([node_line indent n level].foldl stow at_).1 ↔ works at_.1 := by
      rw [foldl_cons, foldl_nil, stow_full hfit]
      constructor
      · intro ht
        exact ht _ (Nat.le_refl _) (Nat.lt_succ_self _)
      · intro hw k h1 h2
        rwa [Nat.le_antisymm (Nat.le_of_lt_succ h2) h1]
    have hsnd : (mi_fifofd_reply works w').2 = works at_.1 := by
      rw [mi_fifofd_reply, hh.flushed]
    unfold Mi.and_then
    constructor
    · intro ht
      rw [if_pos (hsnd.trans (htaken.1 ht)), foldl_cons, foldl_nil, stow_full hfit, flatten_singleton]
      have hempty : Holds { (mi_fifofd_reply works w').1 with s := 0, len := MAX_MI_FIFO_BUFFER } text
          (at_.1 + 1, 0) := by
        refine ⟨?_, ?_, rfl, Int.zero_add _, Nat.zero_le _, hh.extent⟩
        · show _ ++ [] = text
          rw [append_nil]
          exact hblocks
        · rw [mi_fifofd_reply, length_append, hh.flushed]
          rfl
      have hnode : _ ∧ Holds (mi_write_node indent n level _).1 _ _ := node_fits hempty (by rwa [Nat.zero_add])
      rw [Nat.zero_add] at hnode
      exact hnode
    · intro ht
      rw [if_neg (by rw [hsnd]; exact fun hw => ht (htaken.2 hw))]
      refine ⟨rfl, ?_, hh.extent⟩
      rw [hblocks, flatten_singleton, length_append]
      exact Nat.lt_add_of_pos_right node_line_pos

end Packing

section Trees

variable {w : Writer} {text : Str} {at_ : ℕ × ℕ} {t : MiTree} {tree : MiRoot} {level : ℕ} {bytes : ℕ → UInt8}

variable (indent) in
/-- The lines of the nodes that do not count as written. -/
def MiTree.due : MiTree → ℕ → List Str
  | .null, _ => []
  | .node n kids next, level =>
    (if n.flags &&& MI_WRITTEN = 0 then [node_line indent n level] else []) ++
      (kids.due (level + 1) ++ next.due level)

variable (indent) in
def due (tree : MiRoot) : List Str :=
  (if tree.flags &&& MI_WRITTEN = 0 then [status_line tree] else []) ++ tree.kids.due indent 0

variable (indent) in
theorem MiTree.due_sublist (t : MiTree) (level : ℕ) : (t.due indent level).Sublist (t.lines indent level) := by
  induction t generalizing level with
  | null => exact Sublist.refl _
  | node n kids next ihk ihn =>
    rw [due, lines]
    split_ifs with h
    · exact ((ihk _).append (ihn _)).cons_cons _
    · exact ((ihk _).append (ihn _)).cons _

theorem due_sublist : (due indent tree).Sublist (lines indent tree) := by
  rw [due, lines]
  split_ifs with h
  · exact (MiTree.due_sublist _ _ _).cons_cons _
  · exact (MiTree.due_sublist _ _ _).cons _

theorem MiTree.Unwritten.due_eq (h : t.Unwritten) : t.due indent level = t.lines indent level := by
  induction t generalizing level with
  | null => rfl
  | node n kids next ihk ihn =>
    rw [MiTree.due, if_pos h.1, ihk h.2.1, ihn h.2.2]
    rfl

theorem Unwritten.due_eq (h : Unwritten tree) : due indent tree = lines indent tree := by
  rw [due, if_pos h.1, h.2.due_eq]
  rfl

variable (indent) in
theorem MiTree.due_short (h : ¬ t.Unwritten) (level : ℕ) :
    (t.due indent level).flatten.length < (t.lines indent level).flatten.length := by
  induction t generalizing level with
  | null => exact absurd trivial h
  | node n kids next ihk ihn =>
    have hk := (kids.due_sublist indent (level + 1)).flatten.length_le
    have hn := (next.due_sublist indent level).flatten.length_le
    have hpos : 0 < (node_line indent n level).length := node_line_pos
    rw [due, lines]
    by_cases hw : n.flags &&& MI_WRITTEN = 0
    · rw [if_pos hw]
      simp only [flatten_append, List.flatten_cons, flatten_nil, length_append, length_nil]
      by_cases hkw : kids.Unwritten
      · have := ihn (fun hnw => h ⟨hw, hkw, hnw⟩) level
        omega
      · have := ihk hkw (level + 1)
        omega
    · rw [if_neg hw]
      simp only [flatten_append, List.flatten_cons, flatten_nil, length_append, length_nil]
      omega

variable (indent) in
theorem due_short (h : ¬ Unwritten tree) :
    (due indent tree).flatten.length < (lines indent tree).flatten.length := by
  have hk := (tree.kids.due_sublist indent 0).flatten.length_le
  have hpos : 0 < (status_line tree).length := by
    rw [status_line, length_append]
    exact Nat.succ_pos _
  rw [due, lines]
  by_cases hw : tree.flags &&& MI_WRITTEN = 0
  · have := MiTree.due_short indent (fun hkw => h ⟨hw, hkw⟩) 0
    rw [if_pos hw]
    simp only [flatten_append, List.flatten_cons, flatten_nil, length_append, length_nil]
    omega
  · rw [if_neg hw, nil_append, List.flatten_cons, length_append]
    omega

/-- **The nodes of a tree.** -/
theorem put_tree (h : Holds w text at_) (hl : ∀ l ∈ t.due indent level, l.length ≤ MAX_MI_FIFO_BUFFER) :
    Put works text at_ (t.due indent level) (recur_write_tree works indent t level w) := by
  induction t generalizing w text at_ level with
  | null => exact Put.refl h
  | node n kids next ihk ihn =>
    rw [MiTree.due] at hl
    refine Put.and_then ?_ fun w₁ h₁ => Put.and_then (ihk h₁ fun l hmem => ?_) fun w₂ h₂ =>
      ihn h₂ fun l hmem => ?_
    · split_ifs at hl ⊢ with hw
      · exact put_node h (hl _ mem_cons_self)
      · exact Put.refl h
    · exact hl l (mem_append_right _ (mem_append_left _ hmem))
    · exact hl l (mem_append_right _ (mem_append_right _ hmem))

theorem put_status (h : Holds w [] (0, 0)) (hl : (status_line tree).length ≤ MAX_MI_FIFO_BUFFER) :
    Put works [] (0, 0) [status_line tree] (write_status tree w) := by
  have hs : w.s = 0 := h.fill
  have hroom := h.room
  have hext := h.extent
  have hblocks : w.blocks = [] := eq_nil_of_length_eq_zero h.flushed
  have hlen : (status_line tree).length = (int2str tree.code).length + 1 + tree.reason.length + 1 := by
    simp only [status_line, length_append, length_cons, length_nil]
    omega
  unfold write_status
  rw [if_neg (by omega)]
  have hfit : (0, 0).2 + (status_line tree).length ≤ MAX_MI_FIFO_BUFFER := by rwa [zero_add]
  refine ⟨fun _ => ⟨rfl, ?_⟩, fun hnot => absurd (fun k h1 h2 => ?_) hnot⟩
  · rw [foldl_cons, foldl_nil, stow_fits hfit, flatten_singleton, nil_append, ← hlen]
    refine ⟨?_, h.flushed, ?_, ?_, ?_, ?_⟩
    · rw [hblocks, hs, zero_add]
      show read (write w.buffer.bytes 0 (status_line tree)) 0 (status_line tree).length = _
      exact read_write
    · rw [hs]
    · show ((w.s + (status_line tree).length : ℕ) : ℤ) + (w.len - _) = _
      omega
    · show w.s + (status_line tree).length ≤ _
      omega
    · show max w.buffer.extent (w.s + (status_line tree).length) ≤ _
      omega
  · rw [foldl_cons, foldl_nil, stow_fits hfit] at h2
    exact absurd h2 (Nat.not_lt_zero k)

theorem and_then_assoc (r : Writer × Bool) (f g : Writer → Writer × Bool) :
    and_then (and_then r f) g = and_then r fun w => and_then (f w) g := by
  obtain ⟨w, b⟩ := r
  cases b <;> rfl

theorem write_end_full (h : Holds w text at_) (hfull : at_.2 = MAX_MI_FIFO_BUFFER) :
    write_end works w = (w, false) := by
  have hroom := h.room
  have hfill := h.fill
  exact if_pos (by omega)

variable (works) in
theorem write_end_room (h : Holds w text at_) (hfull : at_.2 ≠ MAX_MI_FIFO_BUFFER) :
    (write_end works w).1.buffer.extent ≤ MAX_MI_FIFO_BUFFER ∧
      (write_end works w).1.blocks.flatten = text ++ [LF] := by
  have hroom := h.room
  have hfill := h.fill
  have hle := h.le
  have hext := h.extent
  have hwrite : write_end works w = mi_fifofd_reply works
      { w with buffer := w.buffer.memcpy w.s [LF], s := w.s + 1, len := w.len - 1 } :=
    if_neg (by omega)
  rw [hwrite]
  constructor
  · show max w.buffer.extent (w.s + 1) ≤ _
    omega
  · show (w.blocks ++ [read (write w.buffer.bytes w.s [LF]) 0 (w.s + 1)]).flatten = _
    have hline : read (write w.buffer.bytes w.s [LF]) w.s 1 = [LF] := @read_write _ _ _ [LF]
    rw [flatten_append, flatten_singleton, read_append, zero_add, hline,
      read_write_of_disjoint (.inl (by omega)), ← append_assoc, h.text]

variable (works bytes) in
/-- What was handed on when `mi_write_tree` returns. -/
theorem mi_write_tree_blocks (hl : ∀ l ∈ due indent tree, l.length ≤ MAX_MI_FIFO_BUFFER) :
    let r := (mi_write_tree works indent tree bytes).1
    r.buffer.extent ≤ MAX_MI_FIFO_BUFFER ∧
      (Taken works 0 (pack (due indent tree)).1 ∧ (pack (due indent tree)).2 ≠ MAX_MI_FIFO_BUFFER →
        r.blocks.flatten = (due indent tree).flatten ++ [LF]) ∧
      (¬ (Taken works 0 (pack (due indent tree)).1 ∧ (pack (due indent tree)).2 ≠ MAX_MI_FIFO_BUFFER) →
        r.blocks.flatten.length < ((due indent tree).flatten ++ [LF]).length) := by
  intro r
  have h0 : Holds (start bytes) [] (0, 0) := ⟨rfl, rfl, rfl, Int.zero_add _, Nat.zero_le _, Nat.zero_le _⟩
  have hput : Put works [] (0, 0) (due indent tree) (and_then
      (if tree.flags &&& MI_WRITTEN = 0 then write_status tree (start bytes) else (start bytes, true))
      (recur_write_tree works indent tree.kids 0)) := by
    rw [due] at hl
    refine Put.and_then ?_ fun w h => put_tree h fun l hmem => hl l (mem_append_right _ hmem)
    split_ifs at hl ⊢ with hw
    · exact put_status h0 (hl _ mem_cons_self)
    · exact Put.refl h0
  have hbreak : mi_write_tree works indent tree bytes = and_then (and_then
      (if tree.flags &&& MI_WRITTEN = 0 then write_status tree (start bytes) else (start bytes, true))
      (recur_write_tree works indent tree.kids 0)) (write_end works) := by
    rw [and_then_assoc]
    rfl
  obtain ⟨r₀, hr₀⟩ : ∃ r₀, r₀ = and_then
      (if tree.flags &&& MI_WRITTEN = 0 then write_status tree (start bytes) else (start bytes, true))
      (recur_write_tree works indent tree.kids 0) := ⟨_, rfl⟩
  rw [← hr₀] at hput hbreak
  have hr : r = (and_then r₀ (write_end works)).1 := congrArg Prod.fst hbreak
  rw [hr, and_then]
  by_cases ht : Taken works 0 (pack (due indent tree)).1
  · obtain ⟨htrue, hholds⟩ := hput.done ht
    rw [if_pos htrue]
    by_cases hfull : (pack (due indent tree)).2 = MAX_MI_FIFO_BUFFER
    · rw [write_end_full hholds hfull]
      have hlen := congrArg List.length hholds.text
      rw [length_append, nil_append] at hlen
      refine ⟨hholds.extent, fun h => absurd hfull h.2, fun _ => ?_⟩
      rw [length_append, ← hlen]
      exact Nat.lt_succ_of_le (Nat.le_add_right _ _)
    · obtain ⟨hext, hblocks⟩ := write_end_room works hholds hfull
      exact ⟨hext, fun _ => hblocks, fun h => absurd ⟨ht, hfull⟩ h⟩
  · obtain ⟨hfalse, hs⟩ := hput.stopped ht
    rw [if_neg (by rw [hfalse]; exact Bool.false_ne_true)]
    refine ⟨hs.extent, fun h => absurd h.1 ht, fun _ => ?_⟩
    rw [length_append]
    exact Nat.lt_succ_of_lt hs.less

def ok_reply : MiRoot := init_mi_tree 200 ("OK".toList.map chr)

/-- A status line of `MAX_MI_FIFO_BUFFER` bytes. -/
def long_reply : MiRoot :=
  { code := 200, reason := List.replicate 1019 (chr 'a'), flags := 0, kids := .null }

def short_reply : MiRoot :=
  { code := 200, reason := "OK".toList.map chr, flags := 0,
    kids := .node { value := some ("1".toList.map chr), name := none, flags := 0, attributes := [] }
      .null .null }

end Trees

end OpenSips.Mi
