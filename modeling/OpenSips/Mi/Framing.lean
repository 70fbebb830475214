import Mathlib.Data.List.Forall2
import OpenSips.Lib.Framing
import OpenSips.Mi.Arguments

/-!
# OpenSips.Mi.Framing — commands in a stream

Commands that are ended by an empty line arrive in bursts of reads.  Reading them is `gather`, and each
buffer that is handed on is executed as one command: the stream is executed as it was sent exactly when
a burst ends with every command and every command is read as it stands.
-/

namespace OpenSips.Mi

open Lib.Framing List Option

/-- A management command: a first line and those of the arguments, none of them empty. -/
structure Command where
  first : Str
  args : List Str
  isLine : ∀ line ∈ first :: args, IsLine line

/-- The lines and the empty line behind them. -/
def Command.bytes (c : Command) : Str := body (c.first :: c.args)

def intended (env : Env) (type : FdType) (c : Command) : Executed :=
  respond env type c.bytes (arguments none c.args)

section Frames

theorem mi_is_valid_iff {b : Str} : mi_is_valid b ↔ ∃ x, b = x ++ [LF, LF] := by
  rw [mi_is_valid]
  constructor
  · intro h
    by_cases hlen : b.length > 1
    · rw [if_pos hlen] at h
      exact ⟨b.take (b.length - 2), by rw [← eq_of_beq h, take_append_drop]⟩
    · rw [if_neg hlen] at h
      cases h
  · rintro ⟨x, rfl⟩
    have hlen : (x ++ [LF, LF]).length = x.length + 2 := length_append
    rw [hlen, if_pos (Nat.lt_add_left _ Nat.one_lt_two), Nat.add_sub_cancel, drop_left]
    exact beq_self_eq_true _

theorem mi_is_valid_nil : mi_is_valid [] = false := rfl

theorem mi_is_valid_append (x p : Str) (h : mi_is_valid p) : mi_is_valid (x ++ p) := by
  obtain ⟨y, rfl⟩ := mi_is_valid_iff.1 h
  exact mi_is_valid_iff.2 ⟨x ++ y, (append_assoc _ _ _).symm⟩

theorem eq_of_valid {x : Str} {c d : UInt8} (h : mi_is_valid (x ++ [c, d])) : c = LF ∧ d = LF := by
  obtain ⟨y, hy⟩ := mi_is_valid_iff.1 h
  have htail := (append_inj' hy rfl).2
  exact ⟨(cons.inj htail).1, (cons.inj (cons.inj htail).2).1⟩

theorem eq_of_valid_last {x : Str} {d : UInt8} (h : mi_is_valid (x ++ [d])) : d = LF := by
  obtain ⟨y, hy⟩ := mi_is_valid_iff.1 h
  have hsnoc : x ++ [d] = (y ++ [LF]) ++ [LF] := by rw [hy, append_assoc]; rfl
  exact (cons.inj (append_inj' hsnoc rfl).2).1

theorem valid_body {lines : List Str} (hls : ∀ line ∈ lines, IsLine line) {x p s : Str}
    (hp : body lines = p ++ s) (hne : p ≠ []) (hv : mi_is_valid (x ++ p)) : s = [] := by
  induction lines generalizing x p with
  | nil =>
    cases p with
    | nil => exact absurd rfl hne
    | cons c p => exact (append_eq_nil_iff.1 (cons.inj hp).2.symm).2
  | cons line lines ih =>
    obtain ⟨hn, hLF⟩ := hls line mem_cons_self
    rw [body_cons] at hp
    obtain ⟨a, hpa, hrest⟩ | ⟨a, hla, _⟩ := append_eq_append_iff.1 hp
    · cases a with
      | nil =>
        -- the line, but not its end
        rw [append_nil] at hpa
        rw [hpa] at hv
        obtain ⟨l, d, rfl⟩ := eq_nil_or_concat line |>.resolve_left hn
        rw [concat_eq_append, ← append_assoc] at hv
        rw [concat_eq_append] at hLF
        exact absurd (by simp [eq_of_valid_last hv]) hLF
      | cons d a =>
        obtain ⟨rfl, htail⟩ := cons.inj hrest
        cases a with
        | nil =>
          -- the line and its end, which follows a character that is none
          rw [hpa] at hv
          obtain ⟨l, d, rfl⟩ := eq_nil_or_concat line |>.resolve_left hn
          rw [concat_eq_append] at hLF hv
          rw [append_assoc, singleton_append, ← append_assoc] at hv
          exact absurd (by simp [(eq_of_valid hv).1]) hLF
        | cons d' a =>
          subst hpa
          refine ih (fun l hl => hls l (mem_cons_of_mem _ hl)) htail (cons_ne_nil _ _)
            (?_ : mi_is_valid (x ++ line ++ [LF] ++ d' :: a))
          rwa [append_assoc, append_assoc, singleton_append]
    · -- the start of the line
      obtain ⟨l, d, rfl⟩ := eq_nil_or_concat p |>.resolve_left hne
      rw [concat_eq_append, ← append_assoc] at hv
      rw [hla, concat_eq_append] at hLF
      exact absurd (by simp [eq_of_valid_last hv]) hLF

theorem valid_bytes (c : Command) : mi_is_valid c.bytes := by
  obtain ⟨l, d, hl⟩ := (eq_nil_or_concat (c.first :: c.args)).resolve_left (cons_ne_nil _ _)
  refine mi_is_valid_iff.2 ⟨(l.map (· ++ [LF])).flatten ++ d, ?_⟩
  rw [Command.bytes, body, hl]
  simp

theorem frame_bytes (c : Command) : Frame (mi_is_valid) c.bytes where
  ne_nil := ne_nil_of_length_pos (body_pos _)
  ends x p s hp hne := by
    refine ⟨valid_body c.isLine hp hne, fun hs => ?_⟩
    rw [hs, append_nil] at hp
    rw [← hp]
    exact mi_is_valid_append x _ (valid_bytes c)

end Frames

section Reading

def Chunk.read : Chunk UInt8 → Read
  | .got b => .got b
  | .again => .again

abbrev handed (buf : Str) (rs : List (Chunk UInt8)) : Option (List Str) :=
  gather mi_is_valid MAX_MI_FIFO_BUFFER buf rs

/-- No call is left waiting in `read`: the descriptor is closed in the end, or there was nothing more
to be read. -/
def Settled (fin : List Read) (rs : List (Chunk UInt8)) : Prop :=
  fin = [.zero] ∨ fin = [] ∧ (rs = [] ∨ rs.getLast? = some .again)

variable {rs : List (Chunk UInt8)} {fin : List Read}

theorem Settled.tail {r : Chunk UInt8} (h : Settled fin (r :: rs)) : Settled fin rs := by
  rcases h with h | ⟨h, h' | h'⟩
  · exact .inl h
  · cases h'
  · refine .inr ⟨h, ?_⟩
    cases rs with
    | nil => exact .inl rfl
    | cons r' rs => exact .inr (by rwa [getLast?_cons_cons] at h')

theorem Settled.more {b : Str} (h : Settled fin (.got b :: rs)) : rs ≠ [] ∨ fin = [.zero] := by
  rcases h with h | ⟨_, h' | h'⟩
  · exact .inr h
  · cases h'
  · refine .inl ?_
    rintro rfl
    cases h'

/-- What one call of the listener has when it is through with reading, and what comes after it. -/
inductive Sees (fin : List Read) (bufs : List Str) (n : ℕ) : Received → List Read → Prop
  | valid {b : Str} {rs : List (Chunk UInt8)} {bufs' : List Str} : handed [] rs = some bufs' →
      Settled fin rs → rs.length < n → bufs = b :: bufs' →
      Sees fin bufs n (.valid b) (rs.map Chunk.read ++ fin)
  | incomplete {b : Str} {rs : List (Chunk UInt8)} : handed b rs = some bufs → Settled fin rs →
      rs.length < n → b.length < MAX_MI_FIFO_BUFFER →
      Sees fin bufs n (.incomplete b) (rs.map Chunk.read ++ fin)
  | closed : bufs = [] → Sees fin bufs n .closed []

variable {bufs : List Str}

theorem Sees.mono {n m : ℕ} {got : Received} {rest : List Read}
    (h : Sees fin bufs n got rest) (hle : n ≤ m) : Sees fin bufs m got rest := by
  cases h with
  | valid hb hs hn he => exact .valid hb hs (lt_of_lt_of_le hn hle) he
  | incomplete hb hs hn hlen => exact .incomplete hb hs (lt_of_lt_of_le hn hle) hlen
  | closed he => exact .closed he

theorem nil_lt : ([] : Str).length < MAX_MI_FIFO_BUFFER := by decide

/-- `mi_read_and_append` takes what was read. -/
theorem mi_read_and_append_got {buf b : Str} {reads : List Read} (hbuf : buf.length < MAX_MI_FIFO_BUFFER)
    (hb : ¬ (b = [] ∨ MAX_MI_FIFO_BUFFER < (buf ++ b).length)) :
    mi_read_and_append buf (.got b :: reads) = mi_read_and_append (buf ++ b) reads := by
  have hfit : ¬ (b = [] ∨ MAX_MI_FIFO_BUFFER - buf.length < b.length) := by
    rintro (h | h)
    · exact hb (.inl h)
    · refine hb (.inr ?_)
      rw [length_append]
      omega
  rw [mi_read_and_append, if_neg (ne_of_lt hbuf)]
  simp only [if_neg hfit]

/-- **The listener reads as `gather` does.** -/
theorem read_command_sees {buf : Str}
    {fuel : ℕ} (hbuf : buf.length < MAX_MI_FIFO_BUFFER) (hg : handed buf rs = some bufs)
    (hs : Settled fin rs) (hmore : rs ≠ [] ∨ fin = [.zero]) (hfuel : rs.length < fuel) :
    ∃ got rest, read_command fuel buf (rs.map Chunk.read ++ fin) = some (got, rest) ∧
      Sees fin bufs rs.length got rest := by
  induction rs generalizing buf fuel with
  | nil =>
    obtain ⟨fuel, rfl⟩ := Nat.exists_eq_succ_of_ne_zero (ne_of_gt hfuel)
    obtain rfl : fin = [.zero] := hmore.resolve_left fun h => h rfl
    cases hg
    refine ⟨_, _, ?_, .closed rfl⟩
    rw [map_nil, nil_append, read_command, mi_read_and_append, if_neg (ne_of_lt hbuf)]
  | cons r rs ih =>
    obtain ⟨fuel, rfl⟩ := Nat.exists_eq_succ_of_ne_zero (ne_of_gt (Nat.zero_lt_of_lt hfuel))
    rw [map_cons, cons_append]
    cases r with
    | again =>
      rw [handed, gather] at hg
      by_cases hv : mi_is_valid buf
      · rw [if_pos hv] at hg
        obtain ⟨bufs', hg', rfl⟩ := map_eq_some_iff.1 hg
        refine ⟨_, _, ?_, .valid hg' hs.tail (Nat.lt_succ_self _) rfl⟩
        rw [Chunk.read, read_command, mi_read_and_append, if_neg (ne_of_lt hbuf)]
        exact if_pos hv
      · rw [if_neg hv] at hg
        refine ⟨_, _, ?_, .incomplete hg hs.tail (Nat.lt_succ_self _) hbuf⟩
        rw [Chunk.read, read_command, mi_read_and_append, if_neg (ne_of_lt hbuf)]
        exact if_neg hv
    | got b =>
      rw [handed, gather] at hg
      by_cases hb : b = [] ∨ MAX_MI_FIFO_BUFFER < (buf ++ b).length
      · rw [if_pos hb] at hg
        cases hg
      rw [if_neg hb] at hg
      have hread : mi_read_and_append buf (.got b :: (rs.map Chunk.read ++ fin)) =
          mi_read_and_append (buf ++ b) (rs.map Chunk.read ++ fin) :=
        mi_read_and_append_got hbuf hb
      rw [length_cons] at hfuel
      by_cases hfull : (buf ++ b).length = MAX_MI_FIFO_BUFFER
      · rw [if_pos hfull] at hg
        have hret : mi_read_and_append (buf ++ b) (rs.map Chunk.read ++ fin) =
            some (.full (buf ++ b), rs.map Chunk.read ++ fin) := by
          rw [mi_read_and_append.eq_def, if_pos hfull]
        by_cases hv : mi_is_valid (buf ++ b)
        · rw [if_pos hv] at hg
          obtain ⟨bufs', hg', rfl⟩ := map_eq_some_iff.1 hg
          refine ⟨_, _, ?_, .valid hg' hs.tail (Nat.lt_succ_self _) rfl⟩
          rw [Chunk.read, read_command, hread, hret]
          exact if_pos hv
        · rw [if_neg hv] at hg
          obtain ⟨got, rest, hgot, hsees⟩ := ih nil_lt hg hs.tail hs.more (Nat.lt_of_succ_lt_succ hfuel)
          refine ⟨got, rest, ?_, hsees.mono (Nat.le_succ _)⟩
          rw [Chunk.read, read_command, hread, hret]
          simp only [if_neg hv]
          exact hgot
      · rw [if_neg hfull] at hg
        have hlt : (buf ++ b).length < MAX_MI_FIFO_BUFFER := by
          have := fun h => hb (.inr h)
          omega
        obtain ⟨got, rest, hgot, hsees⟩ := ih hlt hg hs.tail hs.more (Nat.lt_of_succ_lt hfuel)
        refine ⟨got, rest, ?_, hsees.mono (Nat.le_succ _)⟩
        rw [read_command] at hgot
        rw [Chunk.read, read_command, hread]
        exact hgot

theorem read_command_succ {fuel : ℕ} {buf : Str} {reads : List Read} {r : Received × List Read}
    (h : read_command fuel buf reads = some r) : read_command (fuel + 1) buf reads = some r := by
  induction fuel generalizing buf reads with
  | zero => cases h
  | succ fuel ih =>
    rw [read_command] at h ⊢
    cases hr : mi_read_and_append buf reads with
    | none =>
      rw [hr] at h
      cases h
    | some ret =>
      obtain ⟨ret, rest⟩ := ret
      rw [hr] at h
      cases ret with
      | ok b => exact h
      | error => exact h
      | closed => exact h
      | full b =>
        simp only at h ⊢
        by_cases hv : mi_is_valid b
        · rwa [if_pos hv] at h ⊢
        · rw [if_neg hv] at h ⊢
          exact ih h

theorem sees_of_read_command {buf : Str} {fuel : ℕ} {got : Received} {rest : List Read}
    (hbuf : buf.length < MAX_MI_FIFO_BUFFER) (hg : handed buf rs = some bufs)
    (hs : Settled fin rs) (hmore : rs ≠ [] ∨ fin = [.zero])
    (h : read_command fuel buf (rs.map Chunk.read ++ fin) = some (got, rest)) :
    Sees fin bufs rs.length got rest := by
  obtain ⟨got', rest', hgot, hsees⟩ := read_command_sees hbuf hg hs hmore
    (lt_of_lt_of_le (Nat.lt_succ_self _) (le_max_right fuel (rs.length + 1)))
  have hle := some_of_le (fun n => read_command n buf (rs.map Chunk.read ++ fin))
    (fun _ => read_command_succ) h (le_max_left fuel (rs.length + 1))
  cases hle.symm.trans hgot
  exact hsees

end Reading

section Executing

variable {env : Env} {type : FdType}

variable {fuel : ℕ}

theorem mi_parse_tree_succ {rest : Str} {r : Option (List Node)}
    (h : mi_parse_tree env fuel rest = some r) : mi_parse_tree env (fuel + 1) rest = some r := by
  rw [mi_parse_tree] at h ⊢
  by_cases hm : env.memory []
  · rw [if_pos hm] at h ⊢
    exact parse_nodes_succ h
  · rwa [if_neg hm] at h ⊢

theorem execute_le {n m : ℕ} {b : Str} {e : Executed} (h : execute env n type b = some e)
    (hle : n ≤ m) : execute env m type b = some e := by
  refine some_of_le (fun n => execute env n type b) (fun n h => ?_) h hle
  simp only [execute] at h ⊢
  by_cases hi : takes_input env type b
  · rw [if_pos hi] at h ⊢
    obtain ⟨r, hr, he⟩ := map_eq_some_iff.1 h
    rw [mi_parse_tree_succ hr, ← he]
    rfl
  · rwa [if_neg hi] at h ⊢

/-- The buffers are executed one after the other, with enough fuel for each. -/
def ExecutesAll (env : Env) (type : FdType) (fuel : ℕ) (bufs : List Str) (log : List Executed) :
    Prop :=
  List.Forall₂ (fun b e => execute env fuel type b = some e) bufs log

variable {calls : ℕ → Calls} {buf : Str}

/-- The call of the listener that begins to serve `reads`. -/
theorem serve_succ {reads : List Read} (hne : reads ≠ []) : serve env type (fuel + 1) calls buf reads =
      match mi_listener env fuel ⟨0, type, buf⟩ (calls 0) reads with
      | none => none
      | some (turn, rest) =>
        match turn.buffer with
        | none => some turn.executed.toList
        | some buffer => (serve env type fuel (fun n => calls (n + 1)) buffer rest).map
            (turn.executed.toList ++ ·) := by
  cases reads with
  | nil => exact absurd rfl hne
  | cons r reads => rfl

theorem serve_nil : serve env type fuel calls buf [] = some [] := by
  cases fuel <;> rfl

theorem reads_ne_nil {fin : List Read} {rs : List (Chunk UInt8)} (h : rs ≠ [] ∨ fin = [.zero]) :
    rs.map Chunk.read ++ fin ≠ [] := by
  intro hnil
  obtain ⟨hmap, hfin⟩ := append_eq_nil_iff.1 hnil
  rcases h with h | h
  · exact h (map_eq_nil_iff.1 hmap)
  · rw [hfin] at h
    cases h

theorem Settled.cases {fin : List Read} {rs : List (Chunk UInt8)} (hs : Settled fin rs) :
    (rs = [] ∧ fin = []) ∨ (rs ≠ [] ∨ fin = [.zero]) := by
  by_cases hn : rs = []
  · rcases hs with h | ⟨h, _⟩
    · exact .inr (.inr h)
    · exact .inl ⟨hn, h⟩
  · exact .inr (.inl hn)

theorem serve_zero {reads : List Read} (hne : reads ≠ []) : serve env type 0 calls buf reads = none := by
  cases reads with
  | nil => exact absurd rfl hne
  | cons r reads => rfl

variable {log : List Executed}

theorem ExecutesAll.mono {n m : ℕ} {bufs : List Str}
    (h : ExecutesAll env type n bufs log) (hle : n ≤ m) : ExecutesAll env type m bufs log :=
  h.imp fun _ _ he => execute_le he hle

/-- **What is served is what is handed on, executed.** -/
theorem executesAll_of_serve {fin : List Read} {rs : List (Chunk UInt8)} {bufs : List Str}
    (hbuf : buf.length < MAX_MI_FIFO_BUFFER) (hg : handed buf rs = some bufs)
    (hs : Settled fin rs)
    (h : serve env type fuel calls buf (rs.map Chunk.read ++ fin) = some log) :
    ExecutesAll env type fuel bufs log := by
  induction fuel generalizing rs buf bufs calls log with
  | zero =>
    rcases hs.cases with ⟨rfl, rfl⟩ | hmore
    · cases hg
      cases h
      exact .nil
    · rw [serve_zero (reads_ne_nil hmore)] at h
      cases h
  | succ fuel ih =>
    rcases hs.cases with ⟨rfl, rfl⟩ | hmore
    · cases hg
      cases h
      exact .nil
    rw [serve_succ (reads_ne_nil hmore), mi_listener] at h
    cases hread : read_command fuel buf (rs.map Chunk.read ++ fin) with
    | none => simp [hread] at h
    | some ret =>
      obtain ⟨got, rest⟩ := ret
      simp only [hread] at h
      cases sees_of_read_command hbuf hg hs hmore hread with
      | @valid b rs' bufs' hg' hs' _ he =>
        cases hexec : execute env fuel type b with
        | none => simp [hexec] at h
        | some e =>
          simp only [hexec, map_some, toList_some] at h
          obtain ⟨log', hlog, rfl⟩ := map_eq_some_iff.1 h
          rw [he]
          have hrest := (ih nil_lt hg' hs' hlog).mono (Nat.le_succ _)
          exact .cons (execute_le hexec (Nat.le_succ _)) hrest
      | incomplete hg' hs' _ hlen =>
        simp only [toList_none, nil_append, Option.map_id'] at h
        exact (ih hlen hg' hs' h).mono (Nat.le_succ _)
      | closed he =>
        cases h
        rw [he]
        exact .nil

theorem serve_of_executesAll {fin : List Read} {rs : List (Chunk UInt8)} {bufs : List Str} {n fuel : ℕ}
    (hbuf : buf.length < MAX_MI_FIFO_BUFFER) (hg : handed buf rs = some bufs)
    (hs : Settled fin rs) (hfuel : n + rs.length + 1 < fuel)
    (h : ExecutesAll env type n bufs log) :
    serve env type fuel calls buf (rs.map Chunk.read ++ fin) = some log := by
  induction fuel generalizing rs buf bufs calls log with
  | zero => exact absurd hfuel (Nat.not_lt_zero _)
  | succ fuel ih =>
    rcases hs.cases with ⟨rfl, rfl⟩ | hmore
    · cases hg
      cases h
      exact serve_nil
    obtain ⟨got, rest, hread, hsees⟩ := read_command_sees hbuf hg hs hmore (show rs.length < fuel by omega)
    rw [serve_succ (reads_ne_nil hmore), mi_listener]
    simp only [hread]
    cases hsees with
    | valid hg' hs' hn he =>
      subst he
      cases h with
      | cons hexec h =>
        have hexec' := execute_le hexec (show n ≤ fuel by omega)
        simp only [hexec', map_some, toList_some]
        rw [ih nil_lt hg' hs' (by omega) h]
        rfl
    | incomplete hg' hs' hn hlen =>
      simp only [toList_none, nil_append, Option.map_id']
      exact ih hlen hg' hs' (by omega) h
    | closed he =>
      subst he
      cases h
      rfl

end Executing

section Commands

variable {env : Env} {type : FdType}

/-- A command that takes arguments is read as it stands: no value is left open at the end of its line,
and there is memory for the tree. -/
def Readable (env : Env) (type : FdType) (c : Command) : Prop :=
  takes_input env type c.bytes = true →
    OneLine c.args ∧ ∀ ns, arguments none c.args = some ns → ∀ p, p <+: ns → env.memory p = true

theorem unread_bytes (c : Command) : unread c.bytes = body c.args := by
  have hLF := (c.isLine c.first mem_cons_self).2
  rw [unread, Command.bytes, body_cons, takeWhile_line hLF, ← body_cons, drop_line]

theorem respond_eq_iff {b : Str} (h : takes_input env type b = true) (t t' : Option (List Node)) :
    respond env type b t = respond env type b t' ↔ t = t' := by
  refine ⟨fun he => ?_, fun he => by rw [he]⟩
  rw [takes_input] at h
  simp only [respond] at he
  cases hc : command_line env type b with
  | none => simp [hc] at h
  | some cl =>
    obtain ⟨name, file⟩ := cl
    simp only [hc] at h he
    cases hf : lookup_mi_cmd env name with
    | none => simp [hf] at h
    | some f =>
      simp only [hf] at h he
      obtain ⟨hinput, hreply⟩ := Bool.and_eq_true_iff.1 h
      have hno : f.no_input = false := by simpa using hinput
      simp only [hreply, hno, Bool.not_true, Bool.false_eq_true, if_false] at he
      cases t <;> cases t' <;> simp_all

theorem respond_eq {b : Str} (h : takes_input env type b = false) (t t' : Option (List Node)) :
    respond env type b t = respond env type b t' := by
  rw [takes_input] at h
  simp only [respond]
  cases hc : command_line env type b with
  | none => rfl
  | some cl =>
    obtain ⟨name, file⟩ := cl
    simp only [hc] at h ⊢
    cases hf : lookup_mi_cmd env name with
    | none => rfl
    | some f =>
      simp only [hf, Bool.and_eq_false_iff, Bool.not_eq_false'] at h ⊢
      rcases h with h | h
      · simp [h]
      · simp [h]

/-- **A command is executed as intended exactly when it is read as it stands.** -/
theorem execute_intended_iff {c : Command} (hcomplete : takes_input env type c.bytes = true → Complete c.args) :
    (∃ fuel, execute env fuel type c.bytes = some (intended env type c)) ↔ Readable env type c := by
  have hls : ∀ line ∈ c.args, IsLine line := fun l hl => c.isLine l (mem_cons_of_mem _ hl)
  by_cases hi : takes_input env type c.bytes = true
  · have hexec : ∀ fuel r, (mi_parse_tree env fuel (body c.args)).map (respond env type c.bytes) =
        some (respond env type c.bytes r) ↔ mi_parse_tree env fuel (body c.args) = some r := by
      intro fuel r
      rw [map_eq_some_iff]
      refine ⟨fun ⟨t, ht, he⟩ => ?_, fun ht => ⟨r, ht, rfl⟩⟩
      rw [ht, (respond_eq_iff hi t r).1 he]
    simp only [execute, if_pos hi, unread_bytes, intended, hexec]
    have hread : Readable env type c ↔ OneLine c.args ∧
        ∀ ns, arguments none c.args = some ns → ∀ p, p <+: ns → env.memory p = true :=
      ⟨fun h => h hi, fun h _ => h⟩
    rw [hread]
    cases hargs : arguments none c.args with
    | some ns =>
      have hmemory : (∀ ns', some ns = some ns' → ∀ p, p <+: ns' → env.memory p = true) ↔
          env.memory [] = true ∧ Memory env [] ns := by
        refine ⟨fun h => ⟨h ns rfl [] (List.nil_prefix), fun p hp _ => h ns rfl p hp⟩, ?_⟩
        rintro ⟨hnil, h⟩ ns' he p hp
        cases he
        by_cases hpn : p = []
        · rwa [hpn]
        · exact h p hp hpn
      rw [hmemory]
      constructor
      · rintro ⟨fuel, h⟩
        rw [mi_parse_tree] at h
        by_cases hm : env.memory [] = true
        · rw [if_pos hm] at h
          obtain ⟨hone, hmem⟩ := (parses_iff_oneLine hls hargs).1 ⟨fuel, h⟩
          exact ⟨hone, hm, hmem⟩
        · rw [if_neg hm] at h
          cases h
      · rintro ⟨hone, hm, hmem⟩
        obtain ⟨fuel, h⟩ := (parses_iff_oneLine hls hargs).2 ⟨hone, hmem⟩
        exact ⟨fuel, by rw [mi_parse_tree, if_pos hm, h]⟩
    | none =>
      have hone : OneLine c.args := (hcomplete hi).resolve_right fun h => h hargs
      refine ⟨fun _ => ⟨hone, fun ns h => by cases h⟩, fun _ => ?_⟩
      by_cases hm : env.memory [] = true
      · have h := @parses_arguments env c.args [] hls hone
        rw [hargs] at h
        obtain ⟨fuel, h⟩ := h
        exact ⟨fuel, by rw [mi_parse_tree, if_pos hm, h]⟩
      · exact ⟨0, by rw [mi_parse_tree, if_neg hm]⟩
  · refine ⟨fun _ h => absurd h hi, fun _ => ⟨0, ?_⟩⟩
    rw [execute, if_neg hi, intended, respond_eq (Bool.eq_false_iff.2 hi) none]

end Commands

section Streams

variable {env : Env} {type : FdType}

/-- What the reads of a stream give: every burst goes on until there is no more to be read, except for
a last one that goes on to the end of a stream that is closed. -/
def stream (bursts : List (List Str)) (last : Option (List Str)) : List Read :=
  (reads bursts (last.getD [])).map Chunk.read ++ if last.isSome then [.zero] else []

def Fits (bursts : List (List Str)) (last : Option (List Str)) : Prop :=
  (handed [] (reads bursts (last.getD []))).isSome

instance (bursts : List (List Str)) (last : Option (List Str)) : Decidable (Fits bursts last) :=
  inferInstanceAs (Decidable (_ = true))

theorem getLast?_reads (bursts : List (List Str)) (hne : bursts ≠ []) :
    (reads bursts []).getLast? = some .again := by
  obtain ⟨front, chunks, rfl⟩ := eq_nil_or_concat bursts |>.resolve_left hne
  rw [reads, concat_eq_append, flatMap_append, flatMap_singleton, map_nil,
    append_nil, ← append_assoc, getLast?_concat]

theorem settled_stream (bursts : List (List Str)) (last : Option (List Str)) :
    Settled (if last.isSome then [.zero] else []) (reads bursts (last.getD [])) := by
  cases last with
  | some last => exact .inl rfl
  | none =>
    refine .inr ⟨rfl, ?_⟩
    by_cases hne : bursts = []
    · exact .inl (by rw [hne]; rfl)
    · exact .inr (getLast?_reads bursts hne)

theorem executesAll_iff {fuel : ℕ} {cmds : List Command} :
    ExecutesAll env type fuel (cmds.map Command.bytes) (cmds.map (intended env type)) ↔
      ∀ c ∈ cmds, execute env fuel type c.bytes = some (intended env type c) := by
  rw [ExecutesAll, forall₂_map_left_iff, forall₂_map_right_iff, forall₂_same]

theorem exists_fuel {cmds : List Command}
    (h : ∀ c ∈ cmds, ∃ fuel, execute env fuel type c.bytes = some (intended env type c)) :
    ∃ fuel, ∀ c ∈ cmds, execute env fuel type c.bytes = some (intended env type c) := by
  induction cmds with
  | nil => exact ⟨0, fun c hc => by cases hc⟩
  | cons c cmds ih =>
    obtain ⟨n, hn⟩ := h c mem_cons_self
    obtain ⟨m, hm⟩ := ih fun c hc => h c (mem_cons_of_mem _ hc)
    refine ⟨max n m, fun c' hc' => ?_⟩
    rcases mem_cons.1 hc' with rfl | hmem
    · exact execute_le hn (le_max_left n m)
    · exact execute_le (hm c' hmem) (le_max_right n m)

/-- A client sends `:who:` and an empty line. -/
def whoCommand : Command where
  first := ":who:".toList.map chr
  args := []
  isLine := by decide

/-- `who` takes no input. -/
def whoEnv : Env where
  mi_cmds := [⟨"who".toList.map chr, true⟩]
  reply_dir := "/tmp/".toList.map chr
  open_reply _ := none
  memory _ := true

end Streams

end OpenSips.Mi
