import OpenSips.Mi.Model

/-!
# OpenSips.Mi.Arguments — the arguments of a command

`arguments` is what the lines of a command say when each is read once and a quoted value goes on until
its quote is closed.  `mi_parse_tree` makes the tree of them exactly when no value is left open at the
end of its line: it would read the line that continues the value once more.
-/

namespace OpenSips.Mi

open List Option

/-- Some lines, and the empty line behind them. -/
def body (lines : List Str) : Str := (lines.map (· ++ [LF])).flatten ++ [LF]

def IsLine (line : Str) : Prop := line ≠ [] ∧ LF ∉ line

instance (line : Str) : Decidable (IsLine line) := inferInstanceAs (Decidable (_ ∧ _))

/-- What a line says on its own, with a value that is quoted and closed as a value. -/
def line_attr (line : Str) : Attr :=
  match parse_attr (skip_spaces line) with
  | .quoted name text =>
    match quoted [] text [] with
    | .parse_err => .parse_err
    | .done value _ => .node name value
    | .unclosed value _ => .quoted name value
  | attr => attr

/-- The nodes that the lines give; a value may be open, with its name. -/
def arguments : Option (Str × Str) → List Str → Option (List Node)
  | none, [] => some []
  | some _, [] => none
  | none, line :: lines =>
    if skip_spaces line = [] then arguments none lines
    else
      match line_attr line with
      | .parse_err => none
      | .node name value =>
        (create_mi_node name value).bind fun node => (arguments none lines).map (node :: ·)
      | .quoted name value => arguments (some (name, value)) lines
  | some (name, value), line :: lines =>
    match quoted [] line [] with
    | .parse_err => none
    | .done text _ =>
      (create_mi_node name (value ++ LF :: text)).bind fun node =>
        (arguments none lines).map (node :: ·)
    | .unclosed text _ => arguments (some (name, value ++ LF :: text)) lines

def leaves_open (line : Str) : Bool :=
  match line_attr line with
  | .quoted _ _ => true
  | _ => false

/-- How many lines hold more than spaces. -/
def weight (lines : List Str) : ℕ := lines.countP fun line => skip_spaces line ≠ []

section Quoted

theorem quoted_subset {seen p stale : Str} {c : UInt8} (h : match quoted seen p stale with
      | .done _ line => c ∈ line
      | .unclosed text stale => c ∈ text ++ stale
      | .parse_err => False) : c ∈ seen ++ p ++ stale := by
  induction p generalizing seen stale with
  | nil => simpa [quoted] using h
  | cons d p ih =>
    rw [quoted] at h
    by_cases hd : d = QUOTE
    · rw [if_pos hd] at h
      by_cases he : seen.length ≠ 1 ∧ seen.getLast? = some BACKSLASH
      · rw [if_pos he] at h
        have hsub := ih h
        have hlast : (d :: p).getLast (cons_ne_nil d p) ∈ d :: p := getLast_mem _
        simp only [mem_append, mem_cons, not_mem_nil, or_false] at hsub hlast ⊢
        rcases hsub with ((hs | rfl) | hp) | rfl | hs
        · exact .inl (.inl (dropLast_subset _ hs))
        · exact .inl (.inr (.inl hd.symm))
        · exact .inl (.inr (.inr hp))
        · exact .inl (.inr hlast)
        · exact .inr hs
      · rw [if_neg he] at h
        by_cases hs : p.all isspace
        · rw [if_pos hs] at h
          exact h
        · rw [if_neg hs] at h
          exact h.elim
    · rw [if_neg hd] at h
      have hsub := ih h
      rwa [append_assoc seen, singleton_append] at hsub

theorem quote_mem_of_done {seen p stale value line : Str}
    (h : quoted seen p stale = .done value line) : QUOTE ∈ line := by
  induction p generalizing seen stale with
  | nil => cases h
  | cons d p ih =>
    rw [quoted] at h
    by_cases hd : d = QUOTE
    · rw [if_pos hd] at h
      by_cases he : seen.length ≠ 1 ∧ seen.getLast? = some BACKSLASH
      · rw [if_pos he] at h
        exact ih h
      · rw [if_neg he] at h
        by_cases hs : p.all isspace
        · rw [if_pos hs] at h
          cases h
          simp [hd]
        · rw [if_neg hs] at h
          cases h
    · rw [if_neg hd] at h
      exact ih h

theorem skip_spaces_ne_nil {line : Str} (h : QUOTE ∈ line) : skip_spaces line ≠ [] := by
  intro hnil
  have hall := dropWhile_eq_nil_iff.1 hnil QUOTE h
  exact absurd hall (by decide)

end Quoted

section Lines

theorem body_cons (line : Str) (lines : List Str) : body (line :: lines) = line ++ LF :: body lines := by
  rw [body, body, map_cons, List.flatten_cons, append_assoc, append_assoc, singleton_append]

theorem body_pos (lines : List Str) : 0 < (body lines).length := by
  rw [body, length_append]
  exact Nat.succ_pos _

theorem takeWhile_line {line rest : Str} (h : LF ∉ line) : (line ++ LF :: rest).takeWhile (· ≠ LF) = line := by
  have hall : ∀ c ∈ line, decide (c ≠ LF) = true := by
    intro c hc
    refine decide_eq_true fun he => h ?_
    rwa [← he]
  rw [takeWhile_append_of_pos hall, takeWhile_cons, if_neg (by simp), append_nil]

theorem next_line {line rest : Str} {max : ℕ} (h : LF ∉ line) (hmax : line.length < max - 1) :
    mi_get_next_line max (line ++ LF :: rest) = some line := by
  rw [mi_get_next_line, takeWhile_line h]
  exact if_pos hmax

theorem next_line_body {line : Str} {lines : List Str} (h : LF ∉ line) :
    mi_get_next_line ((body (line :: lines)).length + 1) (body (line :: lines)) = some line := by
  rw [body_cons]
  refine next_line h ?_
  rw [length_append, length_cons]
  omega

theorem next_line_continued {line : Str} {lines : List Str} (h : LF ∉ line) :
    mi_get_next_line (body (line :: lines)).length (body (line :: lines)) = some line := by
  have hpos := body_pos lines
  rw [body_cons]
  refine next_line h ?_
  rw [length_append, length_cons]
  omega

theorem drop_line (line : Str) (lines : List Str) :
    (body (line :: lines)).drop (line.length + 1) = body lines := by
  rw [body_cons, ← drop_drop, drop_left]
  rfl

theorem drop_text (line : Str) (lines : List Str) :
    (body (line :: lines)).drop line.length = LF :: body lines := by
  rw [body_cons, drop_left]

end Lines

section Fuel

variable {n m : ℕ}

theorem some_of_le {β : Type*} (f : ℕ → Option β) {r : β}
    (hsucc : ∀ n, f n = some r → f (n + 1) = some r) (h : f n = some r) (hle : n ≤ m) :
    f m = some r :=
  Nat.le_induction h (fun k _ hk => hsucc k hk) m hle

variable {ret : NodeRet} {fuel : ℕ}

theorem quoted_lines_succ {name value rest : Str} (h : quoted_lines fuel name value rest = some ret) :
    quoted_lines (fuel + 1) name value rest = some ret := by
  induction fuel generalizing value rest with
  | zero => cases h
  | succ fuel ih =>
    rw [quoted_lines] at h ⊢
    cases hl : mi_get_next_line rest.length rest with
    | none => rwa [hl] at h
    | some line =>
      rw [hl] at h
      by_cases hn : line = []
      · simpa [hn] using h
      · simp only [if_neg hn] at h ⊢
        cases hq : quoted [] line [] with
        | parse_err => rwa [hq] at h
        | done text line' => rwa [hq] at h
        | unclosed text stale =>
          rw [hq] at h
          exact ih h

variable {rest : Str}

theorem mi_parse_node_succ
    (h : mi_parse_node fuel rest = some ret) : mi_parse_node (fuel + 1) rest = some ret := by
  induction fuel generalizing rest with
  | zero => cases h
  | succ fuel ih =>
    rw [mi_parse_node] at h ⊢
    cases hl : mi_get_next_line (rest.length + 1) rest with
    | none => rwa [hl] at h
    | some line =>
      rw [hl] at h
      by_cases hn : line = []
      · simpa [hn] using h
      simp only [if_neg hn] at h ⊢
      by_cases hs : skip_spaces line = []
      · rw [if_pos hs] at h ⊢
        exact ih h
      rw [if_neg hs] at h ⊢
      cases ha : parse_attr (skip_spaces line) with
      | node name value => rwa [ha] at h
      | parse_err => rwa [ha] at h
      | quoted name text =>
        rw [ha] at h
        cases hq : quoted [] text [] with
        | parse_err => simpa [hq] using h
        | done value line' => simpa [hq] using h
        | unclosed value stale =>
          simp only [hq] at h ⊢
          exact quoted_lines_succ h

theorem mi_parse_node_le
    (h : mi_parse_node n rest = some ret) (hle : n ≤ m) : mi_parse_node m rest = some ret :=
  some_of_le (fun n => mi_parse_node n rest) (fun _ => mi_parse_node_succ) h hle

theorem parse_nodes_succ {env : Env} {kids : List Node}
    {r : Option (List Node)} (h : parse_nodes env fuel rest kids = some r) :
    parse_nodes env (fuel + 1) rest kids = some r := by
  induction fuel generalizing rest kids with
  | zero => cases h
  | succ fuel ih =>
    rw [parse_nodes] at h ⊢
    cases hn : mi_parse_node fuel rest with
    | none =>
      rw [hn] at h
      cases h
    | some ret =>
      rw [hn] at h
      rw [mi_parse_node_succ hn]
      cases ret with
      | error => exact h
      | end_of_stream => exact h
      | node name value rest =>
        cases hc : create_mi_node name value with
        | none => simpa [hc] using h
        | some node =>
          simp only [hc] at h ⊢
          by_cases hm : env.memory (kids ++ [node])
          · rw [if_pos hm] at h ⊢
            exact ih h
          · rwa [if_neg hm] at h ⊢

theorem parse_nodes_le {env : Env} {kids : List Node}
    {r : Option (List Node)} (h : parse_nodes env n rest kids = some r) (hle : n ≤ m) :
    parse_nodes env m rest kids = some r :=
  some_of_le (fun n => parse_nodes env n rest kids) (fun _ => parse_nodes_succ) h hle

end Fuel

section Steps

/-- `mi_parse_node` returns. -/
def NodeAt (rest : Str) (ret : NodeRet) : Prop := ∃ fuel, mi_parse_node fuel rest = some ret

/-- The tree is read up to its end behind `kids`. -/
def Parses (env : Env) (rest : Str) (kids : List Node) (r : Option (List Node)) : Prop :=
  ∃ fuel, parse_nodes env fuel rest kids = some r

/-- What follows the call of `mi_parse_node` in `mi_parse_tree`. -/
def After (env : Env) (kids : List Node) (r : Option (List Node)) : NodeRet → Prop
  | .error => r = none
  | .end_of_stream => r = some kids
  | .node name value rest =>
    match create_mi_node name value with
    | none => r = none
    | some node =>
      if env.memory (kids ++ [node]) then Parses env rest (kids ++ [node]) r else r = none

variable {env : Env} {kids : List Node} {r : Option (List Node)}

theorem parses_iff {rest : Str} :
    Parses env rest kids r ↔ ∃ ret, NodeAt rest ret ∧ After env kids r ret := by
  constructor
  · rintro ⟨fuel, h⟩
    cases fuel with
    | zero => cases h
    | succ fuel =>
      rw [parse_nodes] at h
      cases hn : mi_parse_node fuel rest with
      | none =>
        rw [hn] at h
        cases h
      | some ret =>
        rw [hn] at h
        refine ⟨ret, ⟨fuel, hn⟩, ?_⟩
        cases ret with
        | error => exact (some.inj h).symm
        | end_of_stream => exact (some.inj h).symm
        | node name value rest =>
          rw [After]
          cases hc : create_mi_node name value with
          | none =>
            simp only [hc] at h
            exact (some.inj h).symm
          | some node =>
            simp only [hc] at h ⊢
            by_cases hm : env.memory (kids ++ [node])
            · rw [if_pos hm] at h ⊢
              exact ⟨fuel, h⟩
            · rw [if_neg hm] at h ⊢
              exact (some.inj h).symm
  · rintro ⟨ret, ⟨fuel, hn⟩, ha⟩
    cases ret with
    | error =>
      refine ⟨fuel + 1, ?_⟩
      rw [parse_nodes, hn, show r = none from ha]
    | end_of_stream =>
      refine ⟨fuel + 1, ?_⟩
      rw [parse_nodes, hn, show r = some kids from ha]
    | node name value rest =>
      rw [After] at ha
      cases hc : create_mi_node name value with
      | none =>
        rw [hc] at ha
        refine ⟨fuel + 1, ?_⟩
        rw [parse_nodes, hn]
        simp only [hc, show r = none from ha]
      | some node =>
        simp only [hc] at ha
        by_cases hm : env.memory (kids ++ [node])
        · rw [if_pos hm] at ha
          obtain ⟨fuel', ha⟩ := ha
          refine ⟨max fuel fuel' + 1, ?_⟩
          have hn' := mi_parse_node_le hn (le_max_left fuel fuel')
          have ha' := parse_nodes_le ha (le_max_right fuel fuel')
          rw [parse_nodes, hn']
          simp only [hc]
          rw [if_pos hm, ha']
        · rw [if_neg hm] at ha
          refine ⟨fuel + 1, ?_⟩
          rw [parse_nodes, hn]
          simp only [hc]
          rw [if_neg hm, ha]

theorem NodeAt.unique {rest : Str} {ret ret' : NodeRet} (h : NodeAt rest ret)
    (h' : NodeAt rest ret') : ret = ret' := by
  obtain ⟨n, h⟩ := h
  obtain ⟨m, h'⟩ := h'
  have hn := mi_parse_node_le h (le_max_left n m)
  have hm := mi_parse_node_le h' (le_max_right n m)
  exact some.inj (hn.symm.trans hm)

theorem parses_of_node {rest : Str} {ret : NodeRet} (h : NodeAt rest ret) :
    Parses env rest kids r ↔ After env kids r ret := by
  rw [parses_iff]
  refine ⟨fun ⟨ret', hn, ha⟩ => ?_, fun ha => ⟨ret, h, ha⟩⟩
  rwa [h.unique hn]

variable {line : Str} {lines : List Str}

theorem nodeAt_nil : NodeAt (body []) .end_of_stream := ⟨1, rfl⟩

section

variable (hl : IsLine line)
include hl

/-- One step of `mi_parse_node` on some lines. -/
theorem mi_parse_node_body {fuel : ℕ} : mi_parse_node (fuel + 1) (body (line :: lines)) =
      if skip_spaces line = [] then mi_parse_node fuel (body lines)
      else
        match parse_attr (skip_spaces line) with
        | .parse_err => some .error
        | .node name value => some (.node name value (body lines))
        | .quoted name text =>
          match quoted [] text [] with
          | .parse_err => some .error
          | .done value _ => some (.node name value (body lines))
          | .unclosed text stale => quoted_lines fuel name (text ++ stale) (body lines) := by
  rw [mi_parse_node, next_line_body hl.2]
  simp only [if_neg hl.1, drop_line] <;> rfl

theorem nodeAt_blank {ret : NodeRet} (hs : skip_spaces line = []) :
    NodeAt (body (line :: lines)) ret ↔ NodeAt (body lines) ret := by
  constructor
  · rintro ⟨fuel, h⟩
    cases fuel with
    | zero => cases h
    | succ fuel =>
      rw [mi_parse_node_body hl, if_pos hs] at h
      exact ⟨fuel, h⟩
  · rintro ⟨fuel, h⟩
    refine ⟨fuel + 1, ?_⟩
    rwa [mi_parse_node_body hl, if_pos hs]

theorem nodeAt_error (hs : skip_spaces line ≠ [])
    (ha : line_attr line = .parse_err) : NodeAt (body (line :: lines)) .error := by
  refine ⟨1, ?_⟩
  rw [mi_parse_node_body hl, if_neg hs]
  rw [line_attr] at ha
  cases hp : parse_attr (skip_spaces line) with
  | parse_err => rfl
  | node name value => simp [hp] at ha
  | quoted name text =>
    cases hq : quoted [] text [] with
    | parse_err => simp only [hq]
    | done value line' => simp [hp, hq] at ha
    | unclosed value stale => simp [hp, hq] at ha

theorem nodeAt_node {name value : Str} (hs : skip_spaces line ≠ []) (ha : line_attr line = .node name value) :
    NodeAt (body (line :: lines)) (.node name value (body lines)) := by
  refine ⟨1, ?_⟩
  rw [mi_parse_node_body hl, if_neg hs]
  rw [line_attr] at ha
  cases hp : parse_attr (skip_spaces line) with
  | parse_err => simp [hp] at ha
  | node name value =>
    rw [hp] at ha
    cases ha
    rfl
  | quoted name text =>
    cases hq : quoted [] text [] with
    | parse_err => simp [hp, hq] at ha
    | done value line' =>
      simp only [hp, hq] at ha ⊢
      cases ha
      rfl
    | unclosed value stale => simp [hp, hq] at ha

theorem nodeAt_open {name value : Str} {ret : NodeRet}
    (hs : skip_spaces line ≠ []) (ha : line_attr line = .quoted name value)
    (h : NodeAt (body (line :: lines)) ret) :
    ∃ fuel text, quoted_lines fuel name text (body lines) = some ret := by
  obtain ⟨fuel, h⟩ := h
  cases fuel with
  | zero => cases h
  | succ fuel =>
    rw [mi_parse_node_body hl, if_neg hs] at h
    rw [line_attr] at ha
    cases hp : parse_attr (skip_spaces line) with
    | parse_err => simp [hp] at ha
    | node name value => simp [hp] at ha
    | quoted name text =>
      cases hq : quoted [] text [] with
      | parse_err => simp [hp, hq] at ha
      | done value line' => simp [hp, hq] at ha
      | unclosed value stale =>
        simp only [hp, hq] at ha h
        cases ha
        exact ⟨fuel, _, h⟩

end

end Steps

section Counting

variable {env : Env} {line : Str} {lines : List Str}

theorem weight_cons (line : Str) (lines : List Str) :
    weight (line :: lines) = weight lines + if skip_spaces line = [] then 0 else 1 := by
  rw [weight, countP_cons, ← weight]
  by_cases h : skip_spaces line = []
  · simp [h]
  · simp [h]

theorem weight_of_quote (h : QUOTE ∈ line) : weight (line :: lines) = weight lines + 1 := by
  rw [weight_cons, if_neg (skip_spaces_ne_nil h)]

theorem quoted_lines_body {fuel : ℕ} {name value n v rest : Str} (hl : IsLine line)
    (h : quoted_lines fuel name value (body (line :: lines)) = some (.node n v rest)) :
    ∃ line', rest = body (line' :: lines) ∧ IsLine line' ∧ QUOTE ∈ line' ∧ QUOTE ∈ line := by
  induction fuel generalizing line with
  | zero => cases h
  | succ fuel ih =>
    rw [quoted_lines, next_line_continued hl.2] at h
    simp only [if_neg hl.1, drop_text] at h
    cases hq : quoted [] line [] with
    | parse_err => simp [hq] at h
    | done text line' =>
      simp only [hq] at h
      cases h
      have hsub : ∀ c ∈ line', c ∈ line := by
        intro c hc
        have hmem : c ∈ [] ++ line ++ [] := quoted_subset (by rw [hq]; exact hc)
        rwa [nil_append, append_nil] at hmem
      have hquote := quote_mem_of_done hq
      exact ⟨line', (body_cons line' lines).symm,
        ⟨ne_nil_of_mem hquote, fun hLF => hl.2 (hsub LF hLF)⟩, hquote, hsub QUOTE hquote⟩
    | unclosed text stale =>
      simp only [hq] at h
      rw [← body_cons] at h
      have hsub : ∀ c ∈ text ++ stale, c ∈ line := by
        intro c hc
        have hmem : c ∈ [] ++ line ++ [] := quoted_subset (by rw [hq]; exact hc)
        rwa [nil_append, append_nil] at hmem
      by_cases hnil : text ++ stale = []
      · -- nothing is left of the line only if it was empty
        rw [hnil] at h
        cases fuel with
        | zero => cases h
        | succ fuel =>
          rw [quoted_lines, next_line_continued (not_mem_nil)] at h
          cases h
      · obtain ⟨line', hrest, hl', hq', hmem⟩ := ih ⟨hnil, fun hLF => hl.2 (hsub LF hLF)⟩ h
        exact ⟨line', hrest, hl', hq', hsub QUOTE hmem⟩

theorem quoted_lines_nil {fuel : ℕ} {name value : Str} {ret : NodeRet}
    (h : quoted_lines fuel name value (body []) = some ret) : ret = .error := by
  cases fuel with
  | zero => cases h
  | succ fuel => exact (some.inj h).symm

/-- The node that `mi_parse_node` gives is of the first line that is not blank, and that line is gone;
what is left weighs one less. -/
theorem nodeAt_weight {name value rest : Str} (hls : ∀ line ∈ lines, IsLine line)
    (h : NodeAt (body lines) (.node name value rest)) :
    ∃ lines', rest = body lines' ∧ (∀ line ∈ lines', IsLine line) ∧
      lines'.length < lines.length ∧ weight lines = weight lines' + 1 := by
  induction lines with
  | nil => cases nodeAt_nil.unique h
  | cons line lines ih =>
    have hl := hls line mem_cons_self
    have hrest : ∀ line ∈ lines, IsLine line := fun l hl => hls l (mem_cons_of_mem _ hl)
    by_cases hs : skip_spaces line = []
    · obtain ⟨lines', he, hls', hlen, hw⟩ := ih hrest ((nodeAt_blank hl hs).1 h)
      refine ⟨lines', he, hls', Nat.lt_succ_of_lt hlen, ?_⟩
      rw [weight_cons, if_pos hs, hw]
    · have hweight : weight (line :: lines) = weight lines + 1 := by rw [weight_cons, if_neg hs]
      cases ha : line_attr line with
      | parse_err => cases (nodeAt_error hl hs ha).unique h
      | node n v =>
        cases (nodeAt_node hl hs ha).unique h
        exact ⟨lines, rfl, hrest, Nat.lt_succ_self _, hweight⟩
      | quoted n v =>
        obtain ⟨fuel, text, hq⟩ := nodeAt_open hl hs ha h
        cases lines with
        | nil => cases quoted_lines_nil hq
        | cons line₂ lines =>
          obtain ⟨line', hr, hl', hq', hmem⟩ :=
            quoted_lines_body (hrest line₂ mem_cons_self) hq
          refine ⟨line' :: lines, hr, ?_, Nat.lt_succ_self _, ?_⟩
          · exact forall_mem_cons.2
              ⟨hl', fun l hl => hrest l (mem_cons_of_mem _ hl)⟩
          · rw [hweight, weight_of_quote hmem, weight_of_quote hq']

theorem quoted_lines_ne_end {fuel : ℕ} {name value rest : Str} :
    quoted_lines fuel name value rest ≠ some .end_of_stream := by
  induction fuel generalizing value rest with
  | zero => exact some_ne_none _ ∘ Eq.symm
  | succ fuel ih =>
    rw [quoted_lines]
    cases mi_get_next_line rest.length rest with
    | none => simp
    | some line =>
      by_cases hn : line = []
      · simp [hn]
      · simp only [if_neg hn]
        cases quoted [] line [] with
        | parse_err => simp
        | done text line' => simp
        | unclosed text stale => exact ih

theorem nodeAt_end (hls : ∀ line ∈ lines, IsLine line) (h : NodeAt (body lines) .end_of_stream) :
    weight lines = 0 := by
  induction lines with
  | nil => rfl
  | cons line lines ih =>
    have hl := hls line mem_cons_self
    have hrest : ∀ line ∈ lines, IsLine line := fun l hl => hls l (mem_cons_of_mem _ hl)
    by_cases hs : skip_spaces line = []
    · rw [weight_cons, if_pos hs, ih hrest ((nodeAt_blank hl hs).1 h)]
    · cases ha : line_attr line with
      | parse_err => cases (nodeAt_error hl hs ha).unique h
      | node n v => cases (nodeAt_node hl hs ha).unique h
      | quoted n v =>
        obtain ⟨fuel, text, hq⟩ := nodeAt_open hl hs ha h
        exact absurd hq quoted_lines_ne_end

/-- **`mi_parse_tree` makes a node of every line that is not blank**, if it makes a tree, and has
memory for each. -/
theorem parses_weight {kids ks : List Node} (hls : ∀ line ∈ lines, IsLine line)
    (h : Parses env (body lines) kids (some ks)) :
    ks.length = kids.length + weight lines ∧ kids <+: ks ∧
      ∀ ns, ns <+: ks → kids.length < ns.length → env.memory ns = true := by
  obtain ⟨n, hn⟩ : ∃ n, lines.length < n := ⟨_, Nat.lt_succ_self _⟩
  induction n generalizing lines kids with
  | zero => exact absurd hn (Nat.not_lt_zero _)
  | succ n ih =>
    obtain ⟨ret, hnode, hafter⟩ := parses_iff.1 h
    cases ret with
    | error => cases hafter
    | end_of_stream =>
      cases hafter
      rw [nodeAt_end hls hnode]
      exact ⟨rfl, prefix_refl _, fun ns hns hlt => absurd hns.length_le (not_le.2 hlt)⟩
    | node name value rest =>
      obtain ⟨lines', rfl, hls', hlen, hw⟩ := nodeAt_weight hls hnode
      rw [After] at hafter
      cases hc : create_mi_node name value with
      | none => simp [hc] at hafter
      | some node =>
        simp only [hc] at hafter
        by_cases hm : env.memory (kids ++ [node])
        · rw [if_pos hm] at hafter
          obtain ⟨hcount, hpre, hmem⟩ := ih hls' hafter (by omega)
          rw [length_append, length_singleton] at hcount hmem
          refine ⟨by omega, (prefix_append _ _).trans hpre, fun ns hns hlt => ?_⟩
          rcases lt_or_ge (kids.length + 1) ns.length with hlong | hshort
          · exact hmem ns hns hlong
          · have heq : ns = kids ++ [node] :=
              prefix_of_prefix_length_le hns hpre (by
                rw [length_append, length_singleton]; omega) |>.eq_of_length (by
                rw [length_append, length_singleton]; omega)
            rwa [heq]
        · rw [if_neg hm] at hafter
          cases hafter

theorem arguments_le {value : Option (Str × Str)} {ns : List Node}
    (h : arguments value lines = some ns) : ns.length ≤ weight lines := by
  induction lines generalizing value ns with
  | nil =>
    cases value with
    | none =>
      cases h
      exact le_rfl
    | some v => cases h
  | cons line lines ih =>
    have hnode : ∀ {node : Option Node},
        (node.bind fun node => (arguments none lines).map (node :: ·)) = some ns →
          ns.length ≤ weight lines + 1 := by
      intro node hb
      obtain ⟨x, -, hb⟩ := bind_eq_some_iff.1 hb
      obtain ⟨ns', hns', rfl⟩ := map_eq_some_iff.1 hb
      exact Nat.succ_le_succ (ih hns')
    cases value with
    | none =>
      rw [arguments] at h
      rw [weight_cons]
      by_cases hs : skip_spaces line = []
      · rw [if_pos hs] at h ⊢
        exact ih h
      · rw [if_neg hs] at h ⊢
        cases ha : line_attr line with
        | parse_err => simp [ha] at h
        | node name value =>
          simp only [ha] at h
          exact hnode h
        | quoted name value =>
          simp only [ha] at h
          exact Nat.le_succ_of_le (ih h)
    | some v =>
      rw [arguments] at h
      cases hq : quoted [] line [] with
      | parse_err => simp [hq] at h
      | done text line' =>
        simp only [hq] at h
        have hmem : QUOTE ∈ [] ++ line ++ [] := by
          refine quoted_subset ?_
          rw [hq]
          exact quote_mem_of_done hq
        rw [nil_append, append_nil] at hmem
        rw [weight_of_quote hmem]
        exact hnode h
      | unclosed text stale =>
        simp only [hq] at h
        exact le_trans (ih h) (by rw [weight_cons]; exact Nat.le_add_right _ _)

theorem arguments_lt {ns : List Node} (hopen : ∃ line ∈ lines, leaves_open line = true)
    (h : arguments none lines = some ns) : ns.length < weight lines := by
  induction lines generalizing ns with
  | nil =>
    obtain ⟨line, hmem, _⟩ := hopen
    cases hmem
  | cons line lines ih =>
    rw [arguments] at h
    rw [weight_cons]
    by_cases hs : skip_spaces line = []
    · rw [if_pos hs] at h ⊢
      refine ih ?_ h
      obtain ⟨l, hmem, hl⟩ := hopen
      rcases mem_cons.1 hmem with rfl | hmem
      · have hfalse : leaves_open l = false := by
          rw [leaves_open, line_attr, hs]
          rfl
        rw [hfalse] at hl
        cases hl
      · exact ⟨l, hmem, hl⟩
    · rw [if_neg hs] at h ⊢
      cases ha : line_attr line with
      | parse_err => simp [ha] at h
      | quoted name value =>
        simp only [ha] at h
        exact Nat.lt_succ_of_le (arguments_le h)
      | node name value =>
        simp only [ha] at h
        obtain ⟨x, -, hb⟩ := bind_eq_some_iff.1 h
        obtain ⟨ns', hns', rfl⟩ := map_eq_some_iff.1 hb
        refine Nat.succ_lt_succ (ih ?_ hns')
        obtain ⟨l, hmem, hl⟩ := hopen
        rcases mem_cons.1 hmem with rfl | hmem
        · rw [leaves_open, ha] at hl
          cases hl
        · exact ⟨l, hmem, hl⟩

end Counting

section Reading

variable {env : Env} {lines : List Str} {kids : List Node}

def OneLine (lines : List Str) : Prop := ∀ line ∈ lines, leaves_open line = false

/-- Every quoted value is closed: on its line, or where the lines are arguments. -/
def Complete (lines : List Str) : Prop := OneLine lines ∨ arguments none lines ≠ none

/-- There is memory for the tree while it grows. -/
def Memory (env : Env) (kids ns : List Node) : Prop :=
  ∀ p, p <+: ns → p ≠ [] → env.memory (kids ++ p) = true

theorem memory_cons {node : Node} {ns : List Node} : Memory env kids (node :: ns) ↔
      env.memory (kids ++ [node]) = true ∧ Memory env (kids ++ [node]) ns := by
  constructor
  · intro h
    refine ⟨h [node] (prefix_append [node] ns) (cons_ne_nil _ _), fun p hp _ => ?_⟩
    have hlong := h (node :: p) ((prefix_cons_inj node).2 hp) (cons_ne_nil _ _)
    rwa [append_assoc, singleton_append]
  · rintro ⟨hnode, h⟩ p hp hne
    cases p with
    | nil => exact absurd rfl hne
    | cons x p =>
      obtain ⟨rfl, hp'⟩ := cons_prefix_cons.1 hp
      by_cases hpn : p = []
      · rwa [hpn]
      · have hlong := h p hp' hpn
        rwa [append_assoc, singleton_append] at hlong

theorem parses_arguments (hls : ∀ line ∈ lines, IsLine line) (hone : OneLine lines) :
    match arguments none lines with
    | none => Parses env (body lines) kids none
    | some ns => Memory env kids ns → Parses env (body lines) kids (some (kids ++ ns)) := by
  induction lines generalizing kids with
  | nil =>
    intro _
    rw [parses_of_node nodeAt_nil, append_nil]
    rfl
  | cons line lines ih =>
    have hl := hls line mem_cons_self
    have hrest : ∀ line ∈ lines, IsLine line := fun l hl => hls l (mem_cons_of_mem _ hl)
    have hones : OneLine lines := fun l hl => hone l (mem_cons_of_mem _ hl)
    rw [arguments]
    by_cases hs : skip_spaces line = []
    · have hsame : ∀ r, Parses env (body (line :: lines)) kids r ↔ Parses env (body lines) kids r := by
        intro r
        rw [parses_iff, parses_iff]
        simp only [nodeAt_blank hl hs]
      simp only [if_pos hs, hsame]
      exact ih hrest hones
    · rw [if_neg hs]
      cases ha : line_attr line with
      | parse_err => exact (parses_of_node (nodeAt_error hl hs ha)).2 rfl
      | quoted name value =>
        have hopen := hone line mem_cons_self
        rw [leaves_open, ha] at hopen
        cases hopen
      | node name value =>
        simp only [parses_of_node (nodeAt_node hl hs ha), After]
        cases hc : create_mi_node name value with
        | none => simp only [bind_none]
        | some node =>
          simp only [bind_some]
          have hnext := @ih (kids ++ [node]) hrest hones
          cases hargs : arguments none lines with
          | none =>
            rw [hargs] at hnext
            by_cases hm : env.memory (kids ++ [node])
            · simp only [map_none, if_pos hm]
              exact hnext
            · simp only [map_none, if_neg hm]
          | some ns =>
            rw [hargs] at hnext
            intro hmem
            obtain ⟨hm, hmem⟩ := memory_cons.1 hmem
            have hparse := hnext hmem
            rw [if_pos hm]
            rwa [append_assoc, singleton_append] at hparse

/-- **The tree is made of the arguments exactly when no value is left open and there is memory.** -/
theorem parses_iff_oneLine {ns : List Node} (hls : ∀ line ∈ lines, IsLine line)
    (hargs : arguments none lines = some ns) :
    Parses env (body lines) [] (some ns) ↔ OneLine lines ∧ Memory env [] ns := by
  constructor
  · intro h
    obtain ⟨hcount, -, hmem⟩ := parses_weight hls h
    refine ⟨fun line hl => ?_, fun p hp hne => hmem p hp (length_pos_of_ne_nil hne)⟩
    by_contra hopen
    have hlt := arguments_lt ⟨line, hl, by simpa using hopen⟩ hargs
    rw [length_nil, zero_add] at hcount
    omega
  · rintro ⟨hone, hmem⟩
    have h := @parses_arguments env lines [] hls hone
    rw [hargs] at h
    exact h hmem

end Reading

end OpenSips.Mi
