import OpenSips.Mi.Arguments

/-!
# OpenSips.Mi.Values — the names and values of the lines of a command

`pairs` is what the lines say when each is read once: a quoted value goes on until its quote is closed,
with `\"` for a quote in it, and only spaces follow.  `mi_parse_tree` makes a node of each pair when the
lines are `Plain`; of lines that say something it makes them in no other case.
-/

namespace OpenSips.Mi

open List Option

section Stated

/-- A text cut at its first separator. -/
def separated : Str → Option (Str × Str)
  | [] => none
  | c :: p =>
    if c = MI_ATTR_VAL_SEP1 ∧ p.head? = some MI_ATTR_VAL_SEP2 then some ([], p.tail)
    else (separated p).map fun cut => (c :: cut.1, cut.2)

/-- The name and the value of a line without the spaces in front of it, or the name and what stands
behind the quote that opens the value. -/
def pair_of (text : Str) : Attr :=
  if text.head? = some QUOTE then .quoted [] text.tail
  else
    match separated text with
    | none => if QUOTE ∈ text then .parse_err else .node [] (rstrip text)
    | some (name, value) =>
      if QUOTE ∈ name then .parse_err
      else if (skip_spaces value).head? = some QUOTE then
        .quoted (rstrip name) (skip_spaces value).tail
      else if QUOTE ∈ skip_spaces value then .parse_err
      else .node (rstrip name) (rstrip (skip_spaces value))

/-- What a quoted text says up to the quote that closes it, and what stands behind that. -/
def closed : Str → Str × Option Str
  | [] => ([], none)
  | [c] => if c = QUOTE then ([], some []) else ([c], none)
  | c :: d :: p =>
    if c = QUOTE then ([], some (d :: p))
    else if c = BACKSLASH ∧ d = QUOTE then (QUOTE :: (closed p).1, (closed p).2)
    else (c :: (closed (d :: p)).1, (closed (d :: p)).2)

/-- A value that is quoted on a line, from `text` on: a pair, or left open. -/
def quoted_value (name seen text : Str) : Attr :=
  match (closed text).2 with
  | none => .quoted name (seen ++ (closed text).1)
  | some behind =>
    if behind.all isspace then .node name (seen ++ (closed text).1) else .parse_err

def said (line : Str) : Attr :=
  match pair_of (skip_spaces line) with
  | .quoted name text => quoted_value name [] text
  | attr => attr

/-- The pairs that the lines give; a value may be open, with its name. -/
def pairs : Option (Str × Str) → List Str → Option (List Node)
  | none, [] => some []
  | some _, [] => none
  | none, line :: lines =>
    if skip_spaces line = [] then pairs none lines
    else
      match said line with
      | .parse_err => none
      | .node name value => (pairs none lines).map (⟨name, value⟩ :: ·)
      | .quoted name value => pairs (some (name, value)) lines
  | some (name, value), line :: lines =>
    match quoted_value name (value ++ [LF]) line with
    | .parse_err => none
    | .node name value => (pairs none lines).map (⟨name, value⟩ :: ·)
    | .quoted name value => pairs (some (name, value)) lines

def command_lines (text : Str) : List Str := (text.splitOn LF).takeWhile (· ≠ [])

/-- With memory for it, the tree of the command in `b` is made, of the pairs that the lines behind the
first give; there is none where they give no pairs. -/
def Meets (b : Str) : Prop :=
  ∀ env : Env, (∀ kids, env.memory kids = true) →
    ∃ fuel, mi_parse_tree env fuel (unread b) = some (pairs none (command_lines (unread b)))

def escaped_first (line : Str) : Bool :=
  match pair_of (skip_spaces line) with
  | .quoted _ text => [BACKSLASH, QUOTE].isPrefixOf text
  | _ => false

def Intact (s : Str) : Prop := ∀ c ∈ s.dropWhile (· ≠ 0), c = 0

instance (s : Str) : Decidable (Intact s) := inferInstanceAs (Decidable (∀ c ∈ _, _))

/-- Up to the first line that is refused, each line that is not blank gives a pair by itself; a value
may be left open by the last one. -/
def Plain : List Str → Prop
  | [] => True
  | line :: lines =>
    if skip_spaces line = [] then Plain lines
    else
      match said line with
      | .parse_err => True
      | .node name value =>
        escaped_first line = false ∧ (name ≠ [] ∨ value ≠ []) ∧ Intact name ∧ Intact value ∧ Plain lines
      | .quoted _ _ => escaped_first line = false ∧ lines = []

instance Plain.decidable : (lines : List Str) → Decidable (Plain lines)
  | [] => .isTrue trivial
  | line :: lines =>
    have := Plain.decidable lines
    if hs : skip_spaces line = [] then decidable_of_iff (Plain lines) (by rw [Plain, if_pos hs])
    else
      match ha : said line with
      | .parse_err => .isTrue (by rw [Plain, if_neg hs, ha]; trivial)
      | .node name value =>
        decidable_of_iff (escaped_first line = false ∧ (name ≠ [] ∨ value ≠ []) ∧ Intact name ∧
          Intact value ∧ Plain lines) (by rw [Plain, if_neg hs, ha])
      | .quoted _ _ =>
        decidable_of_iff (escaped_first line = false ∧ lines = []) (by rw [Plain, if_neg hs, ha])

end Stated

section Said

variable {line name seen text p stale : Str}

theorem attr_name_eq (name s : Str) : attr_name name s = match separated s with
      | none => if QUOTE ∈ s then none else some (name ++ s, none)
      | some (before, behind) =>
        if QUOTE ∈ before then none else some (name ++ before, some behind) := by
  induction s generalizing name with
  | nil => simp [attr_name, separated]
  | cons c p ih =>
    rw [attr_name, separated]
    by_cases hsep : c = MI_ATTR_VAL_SEP1 ∧ p.head? = some MI_ATTR_VAL_SEP2
    · rw [if_pos hsep, if_pos hsep]
      simp
    · rw [if_neg hsep, if_neg hsep]
      by_cases hq : c = QUOTE
      · rw [if_pos hq]
        cases separated p with
        | none => simp [hq]
        | some cut => simp [hq]
      · have hmem : ∀ s, QUOTE ∈ c :: s ↔ QUOTE ∈ s := fun s => by
          simp [Ne.symm hq]
        rw [if_neg hq, ih]
        cases separated p with
        | none => simp [hmem]
        | some cut => simp [hmem]

theorem parse_attr_eq (s : Str) : parse_attr s = pair_of s := by
  rw [parse_attr, pair_of, attr_name_eq]
  by_cases hq : s.head? = some QUOTE
  · rw [if_pos hq, if_pos hq]
  · rw [if_neg hq, if_neg hq]
    cases separated s with
    | none =>
      by_cases hmem : QUOTE ∈ s
      · simp [hmem]
      · simp [hmem]
    | some cut =>
      by_cases hmem : QUOTE ∈ cut.1
      · simp [hmem]
      · by_cases hnil : skip_spaces cut.2 = []
        · simp [hmem, hnil, rstrip]
        · simp [hmem, hnil]

/-- What a line comes to where its quoted text comes to `q`. -/
def Quoted.attr (name : Str) : Quoted → Attr
  | .done value _ => .node name value
  | .parse_err => .parse_err
  | .unclosed value _ => .quoted name value

theorem line_attr_quoted {text : Str} (h : pair_of (skip_spaces line) = .quoted name text) :
    line_attr line = (quoted [] text []).attr name := by
  rw [line_attr, parse_attr_eq, h]
  dsimp only
  cases quoted [] text [] <;> rfl

theorem quoted_attr (hlast : seen.getLast? = some BACKSLASH → p.head? ≠ some QUOTE)
    (hfirst : seen = [] → [BACKSLASH, QUOTE].isPrefixOf p = false) :
    (quoted seen p stale).attr name = quoted_value name seen p := by
  have hclose : ∀ {s q : Str}, (s.getLast? = some BACKSLASH → (QUOTE :: q).head? ≠ some QUOTE) →
      ¬ (s.length ≠ 1 ∧ s.getLast? = some BACKSLASH) := fun h hs => h hs.2 rfl
  induction p using closed.induct generalizing seen stale with
  | case1 => simp [quoted, Quoted.attr, quoted_value, closed]
  | case2 =>
    rw [quoted, if_pos rfl, if_neg (hclose hlast)]
    simp [Quoted.attr, quoted_value, closed]
  | case3 c hc =>
    rw [quoted, if_neg hc]
    simp [quoted, Quoted.attr, quoted_value, closed, hc]
  | case4 d p =>
    rw [quoted, if_pos rfl, if_neg (hclose hlast), quoted_value, closed, if_pos rfl]
    by_cases hs : (d :: p).all isspace
    · rw [if_pos hs]
      simp [Quoted.attr, hs]
    · rw [if_neg hs]
      simp [Quoted.attr, hs]
  | case5 c d p hc hesc ih =>
    obtain ⟨rfl, rfl⟩ := hesc
    have hne : seen ≠ [] := fun hnil => by simpa using hfirst hnil
    have hpos := length_pos_of_ne_nil hne
    rw [quoted, if_neg hc, quoted, if_pos rfl, if_pos ⟨by simp; omega, by simp⟩,
      dropLast_concat, ih (by simp [QUOTE, BACKSLASH, chr]) (by simp)]
    rw [quoted_value, quoted_value, closed, if_neg hc, if_pos ⟨rfl, rfl⟩]
    simp
  | case6 c d p hc hesc ih =>
    have hlast' : (seen ++ [c]).getLast? = some BACKSLASH → (d :: p).head? ≠ some QUOTE := by
      rw [getLast?_concat, head?_cons]
      exact fun h hd => hesc ⟨some.inj h, some.inj hd⟩
    rw [quoted, if_neg hc, ih hlast' (by simp)]
    rw [quoted_value, quoted_value, closed, if_neg hc, if_neg hesc]
    simp

/-- **A line is read as it is said**, unless its value begins with an escaped quote. -/
theorem line_attr_eq (h : escaped_first line = false) : line_attr line = said line := by
  rw [escaped_first] at h
  rw [said]
  cases hp : pair_of (skip_spaces line) with
  | parse_err => rw [line_attr, parse_attr_eq, hp]
  | node name value => rw [line_attr, parse_attr_eq, hp]
  | quoted name text =>
    rw [hp] at h
    rw [line_attr_quoted hp]
    exact quoted_attr (by simp) fun _ => h

theorem quote_of_closed {behind : Str} (h : (closed p).2 = some behind) : QUOTE ∈ p := by
  induction p using closed.induct with
  | case1 => simp [closed] at h
  | case2 => exact mem_cons_self
  | case3 c hc => simp [closed, hc] at h
  | case4 d p => exact mem_cons_self
  | case5 c d p hc hesc ih =>
    rw [hesc.2]
    simp
  | case6 c d p hc hesc ih =>
    rw [closed, if_neg hc, if_neg hesc] at h
    exact mem_cons_of_mem _ (ih h)

theorem quote_of_value {value : Str} (h : quoted_value name seen p = .node name' value) : QUOTE ∈ p := by
  rw [quoted_value] at h
  cases hb : (closed p).2 with
  | none => simp [hb] at h
  | some behind => exact quote_of_closed hb

theorem line_attr_escaped (h : escaped_first line = true)
    (hsaid : ∀ name value, said line ≠ .quoted name value) : line_attr line = .parse_err := by
  rw [escaped_first] at h
  cases hp : pair_of (skip_spaces line) with
  | parse_err => simp [hp] at h
  | node n v => simp [hp] at h
  | quoted n text =>
    rw [hp] at h
    obtain ⟨rest, rfl⟩ := isPrefixOf_iff_prefix.1 h
    have hbehind : (closed ([BACKSLASH, QUOTE] ++ rest)).2 = (closed rest).2 := by
      rw [cons_append, cons_append, nil_append, closed, if_neg (by decide), if_pos ⟨rfl, rfl⟩]
    have hvalue : said line = quoted_value n [] ([BACKSLASH, QUOTE] ++ rest) := by rw [said, hp]
    rw [quoted_value, hbehind] at hvalue
    have hmem : QUOTE ∈ rest := by
      cases hb : (closed rest).2 with
      | none =>
        rw [hb] at hvalue
        exact absurd hvalue (hsaid n _)
      | some behind => exact quote_of_closed hb
    have hnot : ¬ rest.all isspace = true := fun hall =>
      absurd (List.all_eq_true.1 hall QUOTE hmem) (by decide)
    rw [line_attr_quoted hp, cons_append, cons_append, nil_append, quoted,
      if_neg (by decide), quoted, if_pos rfl, if_neg (by simp), if_neg hnot]
    rfl

theorem line_attr_error (h : said line = .parse_err) : line_attr line = .parse_err := by
  cases hesc : escaped_first line with
  | false => rw [line_attr_eq hesc, h]
  | true => exact line_attr_escaped hesc (by simp [h])

end Said

section Behind

variable {line : Str} {lines : List Str} {more : Str}

/-- What `mi_parse_node` gives, with more behind what it leaves. -/
def NodeRet.behind (more : Str) : NodeRet → NodeRet
  | .node name value rest => .node name value (rest ++ more)
  | ret => ret

theorem body_append (line : Str) (lines : List Str) (more : Str) :
    body (line :: lines) ++ more = line ++ LF :: (body lines ++ more) := by
  rw [body_cons, append_assoc, cons_append]

theorem quoted_lines_behind {fuel : ℕ} {name value : Str} (hls : ∀ line ∈ lines, LF ∉ line) :
    quoted_lines fuel name value (body lines ++ more) =
      (quoted_lines fuel name value (body lines)).map (·.behind more) := by
  induction fuel generalizing value lines with
  | zero => rfl
  | succ fuel ih =>
    cases lines with
    | nil =>
      have hnil : quoted_lines (fuel + 1) name value (body []) = some .error := rfl
      rw [hnil]
      cases more with
      | nil => rw [append_nil, hnil]; rfl
      | cons c more =>
        have hline : mi_get_next_line (body [] ++ c :: more).length (body [] ++ c :: more) = some [] :=
          next_line not_mem_nil (by simp [body])
        rw [quoted_lines, hline]
        rfl
    | cons line lines =>
      have hl := hls line mem_cons_self
      have hlen := body_pos lines
      have hline : mi_get_next_line (body (line :: lines) ++ more).length
          (body (line :: lines) ++ more) = some line := by
        rw [body_append]
        exact next_line hl (by simp only [length_append, length_cons]; omega)
      have hdrop : (body (line :: lines) ++ more).drop line.length = LF :: (body lines ++ more) := by
        rw [body_append, drop_left]
      rw [quoted_lines, quoted_lines, hline, next_line_continued hl]
      dsimp only
      rw [hdrop, drop_text]
      by_cases hn : line = []
      · rw [if_pos hn, if_pos hn]
        rfl
      rw [if_neg hn, if_neg hn]
      cases hq : quoted [] line [] with
      | parse_err => rfl
      | done text line' =>
        dsimp only [map_some, NodeRet.behind]
        rw [append_assoc, cons_append]
      | unclosed text stale =>
        dsimp only
        have hsub : ∀ c ∈ text ++ stale, c ∈ line := by
          intro c hc
          have hmem : c ∈ [] ++ line ++ [] := quoted_subset (by rw [hq]; exact hc)
          rwa [nil_append, append_nil] at hmem
        rw [← body_append, ← body_cons]
        exact ih (forall_mem_cons.2 ⟨fun hLF => hl (hsub LF hLF), fun l hl => hls l (mem_cons_of_mem _ hl)⟩)

theorem mi_parse_node_behind {fuel : ℕ} (hls : ∀ line ∈ lines, LF ∉ line) :
    mi_parse_node fuel (body lines ++ more) = (mi_parse_node fuel (body lines)).map (·.behind more) := by
  induction fuel generalizing lines with
  | zero => rfl
  | succ fuel ih =>
    cases lines with
    | nil =>
      have hline : mi_get_next_line ((body [] ++ more).length + 1) (body [] ++ more) = some [] :=
        next_line not_mem_nil (by simp [body])
      rw [mi_parse_node, hline]
      rfl
    | cons line lines =>
      have hl := hls line mem_cons_self
      have hrest : ∀ line ∈ lines, LF ∉ line := fun l hl => hls l (mem_cons_of_mem _ hl)
      have hline : mi_get_next_line ((body (line :: lines) ++ more).length + 1)
          (body (line :: lines) ++ more) = some line := by
        rw [body_append]
        exact next_line hl (by simp only [length_append, length_cons]; omega)
      have hdrop : (body (line :: lines) ++ more).drop (line.length + 1) = body lines ++ more := by
        rw [body_append, ← drop_drop, drop_left]
        rfl
      rw [mi_parse_node, mi_parse_node, hline, next_line_body hl]
      dsimp only
      rw [hdrop, drop_line]
      by_cases hn : line = []
      · rw [if_pos hn, if_pos hn]
        rfl
      rw [if_neg hn, if_neg hn]
      by_cases hs : skip_spaces line = []
      · rw [if_pos hs, if_pos hs]
        exact ih hrest
      rw [if_neg hs, if_neg hs]
      cases parse_attr (skip_spaces line) with
      | parse_err => rfl
      | node name value => rfl
      | quoted name text =>
        dsimp only
        cases quoted [] text [] with
        | parse_err => rfl
        | done value line' => rfl
        | unclosed value stale => exact quoted_lines_behind hrest

/-- **Nothing behind the first empty line is read.** -/
theorem parse_nodes_behind {env : Env} {fuel : ℕ} {kids : List Node} (hls : ∀ line ∈ lines, IsLine line) :
    parse_nodes env fuel (body lines ++ more) kids = parse_nodes env fuel (body lines) kids := by
  induction fuel generalizing lines kids with
  | zero => rfl
  | succ fuel ih =>
    rw [parse_nodes, parse_nodes, mi_parse_node_behind fun l hl => (hls l hl).2]
    cases hn : mi_parse_node fuel (body lines) with
    | none => rfl
    | some ret =>
      cases ret with
      | error => rfl
      | end_of_stream => rfl
      | node name value rest =>
        obtain ⟨lines', rfl, hls', -, -⟩ := nodeAt_weight hls ⟨fuel, hn⟩
        dsimp only [map_some, NodeRet.behind]
        cases create_mi_node name value with
        | none => rfl
        | some node =>
          dsimp only
          rw [ih hls']

theorem end_of_line {line rest : Str} (hl : LF ∉ line) (h : [LF, LF] <:+ line ++ LF :: rest) :
    rest = [LF] ∨ [LF, LF] <:+ rest := by
  have hrest : LF :: rest <:+ line ++ LF :: rest := suffix_append _ _
  cases rest with
  | nil =>
    obtain ⟨u, hu⟩ := h
    rw [show [LF, LF] = [LF] ++ [LF] from rfl, ← append_assoc, append_left_inj] at hu
    refine absurd ?_ hl
    rw [← hu]
    exact mem_append_right _ mem_cons_self
  | cons c rest =>
    cases rest with
    | nil =>
      have heq := (suffix_of_suffix_length_le hrest h (Nat.le_refl 2)).eq_of_length rfl
      obtain rfl : c = LF := (cons.inj (cons.inj heq).2).1
      exact .inl rfl
    | cons d rest =>
      have hsuf : c :: d :: rest <:+ line ++ LF :: c :: d :: rest := (suffix_cons LF _).trans hrest
      exact .inr (suffix_of_suffix_length_le h hsuf (by simp))

theorem body_of_end {s : Str} (h : s = [LF] ∨ [LF, LF] <:+ s) :
    ∃ lines more, s = body lines ++ more ∧ ∀ line ∈ lines, IsLine line := by
  obtain ⟨n, hn⟩ : ∃ n, s.length < n := ⟨_, Nat.lt_succ_self _⟩
  induction n generalizing s with
  | zero => exact absurd hn (Nat.not_lt_zero _)
  | succ n ih =>
    have hmem : LF ∈ s := by
      obtain rfl | hsuf := h
      · exact mem_cons_self
      · exact hsuf.subset mem_cons_self
    obtain ⟨line, rest, rfl, hl⟩ := eq_append_cons_of_mem hmem
    by_cases hn' : line = []
    · refine ⟨[], rest, ?_, fun l hl => absurd hl not_mem_nil⟩
      rw [hn']
      rfl
    · have hend : rest = [LF] ∨ [LF, LF] <:+ rest := by
        obtain heq | hsuf := h
        · refine absurd (congrArg List.length heq) ?_
          have hpos := length_pos_of_ne_nil hn'
          simp only [length_append, length_cons, length_nil]
          omega
        · exact end_of_line hl hsuf
      rw [length_append, length_cons] at hn
      obtain ⟨lines, more, rfl, hls⟩ := ih hend (by omega)
      exact ⟨line :: lines, more, (body_append line lines more).symm, forall_mem_cons.2 ⟨⟨hn', hl⟩, hls⟩⟩

theorem command_lines_body (hls : ∀ line ∈ lines, IsLine line) :
    command_lines (body lines ++ more) = lines := by
  rw [command_lines]
  induction lines with
  | nil =>
    rw [body, map_nil, flatten_nil, nil_append, singleton_append,
      splitOn_cons_eq_if_modifyHead, if_pos (beq_self_eq_true LF)]
    rfl
  | cons line lines ih =>
    obtain ⟨hn, hl⟩ := hls line mem_cons_self
    rw [body_append, splitOn_append_cons_self_of_not_mem hl, takeWhile_cons,
      if_pos (decide_eq_true hn), ih fun l hl => hls l (mem_cons_of_mem _ hl)]

theorem unread_lines {b : Str} (hv : mi_is_valid b = true) :
    ∃ more, unread b = body (command_lines (unread b)) ++ more ∧
      ∀ line ∈ command_lines (unread b), IsLine line := by
  have hsuf : [LF, LF] <:+ b := by
    rw [mi_is_valid] at hv
    by_cases hlen : b.length > 1
    · rw [if_pos hlen, beq_iff_eq] at hv
      rw [← hv]
      exact drop_suffix _ _
    · rw [if_neg hlen] at hv
      exact absurd hv (by simp)
  have hcut : b = b.takeWhile (· ≠ LF) ++ LF :: unread b := by
    obtain ⟨line, rest, rfl, hl⟩ := eq_append_cons_of_mem (hsuf.subset mem_cons_self)
    rw [unread, takeWhile_line hl, ← drop_drop, drop_left]
    rfl
  have hl : LF ∉ b.takeWhile (· ≠ LF) := fun hmem =>
    absurd (mem_takeWhile_imp hmem) (by simp)
  rw [hcut] at hsuf
  obtain ⟨lines, more, heq, hls⟩ := body_of_end (end_of_line hl hsuf)
  rw [heq, command_lines_body hls]
  exact ⟨more, rfl, hls⟩

end Behind

section Read

variable {line : Str} {lines : List Str} {kids ns : List Node} {env : Env}

theorem strncpy_eq (s : Str) : strncpy s = s ↔ Intact s := by
  have hcut : cstr s ++ s.dropWhile (· ≠ 0) = s := takeWhile_append_dropWhile
  have hlen : s.length - (cstr s).length = (s.dropWhile (· ≠ 0)).length := by
    have h := congrArg List.length hcut
    rw [length_append] at h
    omega
  rw [strncpy, hlen, Intact]
  constructor
  · intro h
    have hzero := append_cancel_left (h.trans hcut.symm)
    exact fun c hc => eq_of_mem_replicate (hzero ▸ hc)
  · intro h
    rw [← eq_replicate_of_mem h, hcut]

theorem create_mi_node_eq (name value : Str) : create_mi_node name value = some ⟨name, value⟩ ↔
    (name ≠ [] ∨ value ≠ []) ∧ Intact name ∧ Intact value := by
  rw [create_mi_node, ← strncpy_eq name, ← strncpy_eq value]
  by_cases h : name = [] ∧ value = []
  · simp [h]
  · rw [if_neg h, some.injEq, Node.mk.injEq]
    refine ⟨fun heq => ⟨?_, heq⟩, And.right⟩
    by_cases hname : name = []
    · exact .inr fun hvalue => h ⟨hname, hvalue⟩
    · exact .inl hname

theorem pairs_le {value : Option (Str × Str)} (h : pairs value lines = some ns) :
    ns.length ≤ weight lines := by
  induction lines generalizing value ns with
  | nil =>
    cases value with
    | none =>
      cases h
      exact le_rfl
    | some v => cases h
  | cons line lines ih =>
    have hnode : ∀ {node : Node}, (pairs none lines).map (node :: ·) = some ns →
        ns.length ≤ weight lines + 1 := by
      intro node hm
      obtain ⟨ns', hns', rfl⟩ := map_eq_some_iff.1 hm
      exact Nat.succ_le_succ (ih hns')
    cases value with
    | none =>
      rw [pairs] at h
      rw [weight_cons]
      by_cases hs : skip_spaces line = []
      · rw [if_pos hs] at h ⊢
        exact ih h
      rw [if_neg hs] at h ⊢
      cases ha : said line with
      | parse_err => simp [ha] at h
      | node name value =>
        rw [ha] at h
        exact hnode h
      | quoted name value =>
        rw [ha] at h
        exact Nat.le_succ_of_le (ih h)
    | some v =>
      rw [pairs] at h
      cases hq : quoted_value v.1 (v.2 ++ [LF]) line with
      | parse_err => simp [hq] at h
      | node name value =>
        rw [hq] at h
        rw [weight_of_quote (quote_of_value hq)]
        exact hnode h
      | quoted name value =>
        rw [hq] at h
        exact le_trans (ih h) (by rw [weight_cons]; exact Nat.le_add_right _ _)

theorem nodeAt_unclosed {name value : Str} (hl : IsLine line) (hs : skip_spaces line ≠ [])
    (ha : line_attr line = .quoted name value) : NodeAt (body [line]) .error := by
  refine ⟨2, ?_⟩
  rw [mi_parse_node_body hl, if_neg hs]
  rw [line_attr] at ha
  cases hp : parse_attr (skip_spaces line) with
  | parse_err => rfl
  | node name value => simp [hp] at ha
  | quoted name text =>
    cases hq : quoted [] text [] with
    | parse_err => simp only [hq]
    | done value line' => simp [hp, hq] at ha
    | unclosed value stale =>
      simp only [hq]
      rfl

theorem parses_blank {r : Option (List Node)} (hl : IsLine line) (hs : skip_spaces line = []) :
    Parses env (body (line :: lines)) kids r ↔ Parses env (body lines) kids r := by
  rw [parses_iff, parses_iff]
  simp only [nodeAt_blank hl hs]

/-- **Plain lines are read as they are said.** -/
theorem parses_plain (hmem : ∀ kids, env.memory kids = true) (hls : ∀ line ∈ lines, IsLine line)
    (hplain : Plain lines) :
    Parses env (body lines) kids ((pairs none lines).map (kids ++ ·)) := by
  induction lines generalizing kids with
  | nil =>
    rw [parses_of_node nodeAt_nil]
    simp [After, pairs]
  | cons line lines ih =>
    have hl := hls line mem_cons_self
    have hrest : ∀ line ∈ lines, IsLine line := fun l hl => hls l (mem_cons_of_mem _ hl)
    rw [Plain] at hplain
    rw [pairs]
    by_cases hs : skip_spaces line = []
    · rw [if_pos hs] at hplain ⊢
      rw [parses_blank hl hs]
      exact ih hrest hplain
    rw [if_neg hs] at hplain ⊢
    cases ha : said line with
    | parse_err => exact (parses_of_node (nodeAt_error hl hs (line_attr_error ha))).2 rfl
    | node name value =>
      rw [ha] at hplain
      obtain ⟨hesc, hne, hname, hvalue, hplain⟩ := hplain
      have hattr := (line_attr_eq hesc).trans ha
      rw [parses_of_node (nodeAt_node hl hs hattr), After,
        (create_mi_node_eq name value).2 ⟨hne, hname, hvalue⟩]
      dsimp only
      rw [if_pos (hmem _), Option.map_map]
      have hnext := @ih (kids ++ [⟨name, value⟩]) hrest hplain
      simpa [Function.comp_def] using hnext
    | quoted name value =>
      rw [ha] at hplain
      obtain ⟨hesc, rfl⟩ := hplain
      exact (parses_of_node (nodeAt_unclosed hl hs ((line_attr_eq hesc).trans ha))).2 rfl

/-- **Of lines that say something only plain ones are read as they are said.** -/
theorem plain_of_parses (hls : ∀ line ∈ lines, IsLine line) (hpairs : pairs none lines = some ns)
    (h : Parses env (body lines) kids (some (kids ++ ns))) : Plain lines := by
  induction lines generalizing kids ns with
  | nil => trivial
  | cons line lines ih =>
    have hl := hls line mem_cons_self
    have hrest : ∀ line ∈ lines, IsLine line := fun l hl => hls l (mem_cons_of_mem _ hl)
    have hcount := (parses_weight hls h).1
    rw [pairs] at hpairs
    rw [Plain]
    by_cases hs : skip_spaces line = []
    · rw [if_pos hs] at hpairs ⊢
      exact ih hrest hpairs ((parses_blank hl hs).1 h)
    rw [if_neg hs] at hpairs ⊢
    cases ha : said line with
    | parse_err => trivial
    | quoted name value =>
      -- the line that continues the value gives a node more
      rw [ha] at hpairs
      have hle := pairs_le hpairs
      rw [weight_cons, if_neg hs, length_append] at hcount
      omega
    | node name value =>
      rw [ha] at hpairs
      obtain ⟨ns', hns', rfl⟩ := map_eq_some_iff.1 hpairs
      cases hesc : escaped_first line with
      | true =>
        have herr := line_attr_escaped hesc (by simp [ha])
        exact absurd ((parses_of_node (nodeAt_error hl hs herr)).1 h) (by simp [After])
      | false =>
        have hattr := (line_attr_eq hesc).trans ha
        have hafter := (parses_of_node (nodeAt_node hl hs hattr)).1 h
        rw [After] at hafter
        cases hc : create_mi_node name value with
        | none => simp [hc] at hafter
        | some node =>
          rw [hc] at hafter
          dsimp only at hafter
          by_cases hm : env.memory (kids ++ [node])
          swap
          · rw [if_neg hm] at hafter
            exact absurd hafter (by simp)
          rw [if_pos hm] at hafter
          obtain ⟨-, hpre, -⟩ := parses_weight hrest hafter
          obtain rfl : node = ⟨name, value⟩ := by
            have hpre' := (prefix_append_right_inj kids).1 hpre
            exact (cons_prefix_cons.1 hpre').1
          obtain ⟨hne, hname, hvalue⟩ := (create_mi_node_eq name value).1 hc
          have hrest' : Parses env (body lines) (kids ++ [⟨name, value⟩])
              (some (kids ++ [⟨name, value⟩] ++ ns')) := by
            rwa [append_assoc, singleton_append]
          exact ⟨rfl, hne, hname, hvalue, ih hrest hns' hrest'⟩

theorem meets_iff {b : Str} (hv : mi_is_valid b = true) : Meets b ↔
    ∀ env : Env, (∀ kids, env.memory kids = true) →
      Parses env (body (command_lines (unread b))) [] (pairs none (command_lines (unread b))) := by
  obtain ⟨more, heq, hls⟩ := unread_lines hv
  refine forall_congr' fun env => imp_congr_right fun hmem => exists_congr fun fuel => ?_
  have hsame := @parse_nodes_behind _ more env fuel [] hls
  rw [mi_parse_tree, if_pos (hmem []), ← hsame, ← heq]

/-- The tree of a command is made of what its plain lines say; of lines that say something it is made
in no other case. -/
theorem mi_parse_tree_spec (b : Str) (hv : mi_is_valid b = true) :
    (Plain (command_lines (unread b)) → Meets b) ∧
    (pairs none (command_lines (unread b)) ≠ none → (Meets b ↔ Plain (command_lines (unread b)))) := by
  have hls := (unread_lines hv).choose_spec.2
  have hmeets : Plain (command_lines (unread b)) → Meets b := by
    intro hplain
    refine (meets_iff hv).2 fun env hmem => ?_
    simpa using @parses_plain _ [] env hmem hls hplain
  refine ⟨hmeets, fun hsome => ⟨fun h => ?_, hmeets⟩⟩
  obtain ⟨ns, hns⟩ := ne_none_iff_exists'.1 hsome
  have hparse := (meets_iff hv).1 h ⟨[], [], fun _ => none, fun _ => true⟩ fun _ => rfl
  rw [hns] at hparse
  exact plain_of_parses hls hns hparse

def two_lines : Str := ":x:\nn::\"a\nb\"\n\n".toList.map chr

/-- Its second line is read once more, and refused. -/
theorem two_lines_refused : mi_is_valid two_lines = true ∧
    pairs none (command_lines (unread two_lines)) = some [⟨[chr 'n'], [chr 'a', LF, chr 'b']⟩] ∧
    ¬ Meets two_lines := by
  have hlines : unread two_lines = body ["n::\"a".toList.map chr, "b\"".toList.map chr] ++ [] := by decide
  have hpairs : pairs none (command_lines (unread two_lines)) =
      some [⟨[chr 'n'], [chr 'a', LF, chr 'b']⟩] := by
    rw [hlines, command_lines_body (by decide)]
    decide
  refine ⟨by decide, hpairs, fun h => ?_⟩
  obtain ⟨fuel, hfuel⟩ := h ⟨[], [], fun _ => none, fun _ => true⟩ fun _ => rfl
  have herr : parse_nodes ⟨[], [], fun _ => none, fun _ => true⟩ 5 (unread two_lines) [] = some none := by
    decide
  rw [hpairs, mi_parse_tree, if_pos rfl] at hfuel
  have hle := parse_nodes_le hfuel (Nat.le_max_left fuel 5)
  rw [parse_nodes_le herr (Nat.le_max_right fuel 5)] at hle
  exact absurd hle (by simp)

/-- An escaped quote and a blank line. -/
theorem escaped_quote_read : Meets (":x:\nn::\"a\\\"b\"  \n \nv\n\n".toList.map chr) := by
  refine (mi_parse_tree_spec _ (by decide)).1 ?_
  have hlines : unread (":x:\nn::\"a\\\"b\"  \n \nv\n\n".toList.map chr) =
      body ["n::\"a\\\"b\"  ".toList.map chr, [chr ' '], [chr 'v']] ++ [] := by decide
  rw [hlines, command_lines_body (by decide)]
  decide +kernel

end Read

end OpenSips.Mi
