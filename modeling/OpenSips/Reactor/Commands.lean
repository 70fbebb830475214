import Mathlib.Data.Prod.Lex
import OpenSips.Lib.Worklist
import OpenSips.Reactor.Steps

/-!
# OpenSips.Reactor.Commands — the control pipe

Every command is carried out once, in the order of the pipe and with its own task, as long as no read
finds more commands than fit into the buffer.
-/

namespace OpenSips.Reactor

open Lib Lib.OneShot List Option

abbrev Runs (c : Config) : IoWait → List Effect → Prop :=
  Run (exec c) (fun s log op => Possible c s op ∧ Orderly c s log op) (fun _ log _ es => log ++ es)
    (init_io_wait c, [])

/-- The commands in some numbers; a registration has the task that is in the hash. -/
def decode (hash : ℤ → FdMap) : List ℤ → List Command
  | op :: fd :: _ :: l => (if op = ADD_FD then .add (hash fd) else .fire fd) :: decode hash l
  | _ => []

/-- The commands that are not carried out yet: what is left in the buffer, and what is in the pipe. -/
def outstanding (s : IoWait) : List Command :=
  decode s.fd_hash s.phase.buff ++ decode s.fd_hash s.pipe

/-- What it means to carry out a command in a step from `s` to `s'` with some effects. -/
def CarriedOut (c : Config) (s s' : IoWait) (log es : List Effect) : Command → Prop
  | .add e => es = [.execute (.add e)] ∧ e ∈ pending log ∧ e.fd ∉ watched c s ∧ e.fd ∈ watched c s' ∧
      s'.fd_hash e.fd = e
  | .fire fd => es = .execute (.fire fd) :: putIf (fd ∈ watched c s) (s.fd_hash fd) ∧
      fd ∉ watched c s' ∧ (fd ∈ watched c s → s.fd_hash fd ∈ pending log ∧ (s.fd_hash fd).fd = fd)

def logAt (log : List Effect) (es : ℕ → List Effect) : ℕ → List Effect
  | 0 => log
  | n + 1 => logAt log es n ++ es n

variable {c : Config} {s s' : IoWait} {log : List Effect} {buf pip : List Command} {held : List FdMap}

section Safety

theorem inv_run (hc : c.Sound) (hr : Runs c s log) : Inv c s log :=
  hr.invariant inv_init fun s log op s' es hi ok heq => by
    obtain ⟨s₁, es₁, heq₁, hi₁⟩ := inv_exec hc hi ok.1 ok.2
    rw [heq] at heq₁
    cases heq₁
    exact hi₁

theorem decode_spelled {hash : ℤ → FdMap} {ev : ℤ} {l : List ℤ} {cs : List Command} (h : Spells ev l cs)
    (hh : ∀ e ∈ adds cs, hash e.fd = e) : decode hash l = cs := by
  induction h with
  | nil => rfl
  | @add e l cs _ ih =>
    rw [decode, if_pos rfl, hh e mem_cons_self, ih fun e' he' => hh e' (mem_cons_of_mem _ he')]
  | fire _ ih => rw [decode, if_neg (by decide), ih hh]

theorem Kept.outstanding (h : Kept c s log buf pip held) : outstanding s = buf ++ pip := by
  have hh : ∀ e ∈ adds (buf ++ pip), s.fd_hash e.fd = e := fun e he => (h.head he).1
  rw [adds_append] at hh
  rw [Reactor.outstanding, decode_spelled h.buff fun e he => hh e (mem_append_left _ he),
    decode_spelled h.pipe fun e he => hh e (mem_append_right _ he)]

theorem Kept.carriedOut (h : Kept c s log buf pip held) (hc : c.Sound) {cmd : Command}
    {cs : List Command} (hbuf : decode s.fd_hash s.phase.buff = cmd :: cs) :
    ∃ s' es, exec c s .step = some (s', es) ∧ CarriedOut c s s' log es cmd := by
  have hbuff := h.buff
  rw [decode_spelled hbuff fun e he => (h.head (by
    rw [adds_append]
    exact mem_append_left _ he)).1] at hbuf
  subst hbuf
  obtain ⟨l, next, hph⟩ : ∃ l next, s.phase = .commands l next := by
    cases hph : s.phase with
    | commands l next => exact ⟨l, next, rfl⟩
    | _ =>
      rw [hph] at hbuff
      cases hbuff
  rw [hph] at hbuff
  replace hbuff : Spells c.type.code l (cmd :: cs) := hbuff
  cases hbuff with
  | @add e l cs rest =>
    have hadds : e ∈ adds (.add e :: cs ++ pip) := mem_cons_self
    obtain ⟨hash, hr, hnot⟩ := h.head hadds
    obtain ⟨s', heq, ha⟩ := step_add h hc hph
    refine ⟨_, _, heq, rfl, h.table.mem.2 (.inr (.inl hadds)), ?_, ?_, ?_⟩
    · rwa [h.watching.mem_watched hr.ne]
    · show e.fd ∈ watched c s'
      rw [ha.watching.mem_watched hr.ne, map_append]
      exact mem_append_right _ mem_cons_self
    · show s'.fd_hash e.fd = e
      rw [ha.hash, hash]
  | @fire fd junk l cs rest =>
    have hr : InRange c fd := h.fires fd mem_cons_self
    obtain ⟨s', b, heq, hrem⟩ := step_fire h hph
    have hw := h.watching.mem_watched hr.ne
    refine ⟨_, _, heq, ?_, ?_, fun hin => ?_⟩
    · have hb : b = decide (fd ∈ watched c s) := by
        rw [Bool.eq_iff_iff, hrem.found, decide_eq_true_eq, hw]
      rw [hb]
    · show fd ∉ watched c s'
      rw [hrem.watching.mem_watched hr.ne, ← filter_fd, mem_filter]
      simp
    · obtain ⟨hmem, hfd⟩ := h.table.held_hash (hw.1 hin)
      exact ⟨h.table.mem.2 (.inr (.inr hmem)), hfd⟩

end Safety

section Progress

/-- Where the thread is in a round: in front of the commands (0), about to wait (1), or behind them. -/
def Phase.stage (c : Config) : Phase → ℕ
  | .idle => 1
  | .scan todo _ => if c.control_pipe ∈ todo then 0 else 2
  | .control _ => 0
  | .commands [] _ => 2
  | .commands (_ :: _) _ => 0
  | .sweep _ _ _ => 2
  | .events _ => 2

/-- How much is left to be done without any commands; the array has `len` entries. -/
def Phase.size (len : ℕ) : Phase → ℕ
  | .idle => 0
  | .scan todo evs => 3 * todo.length + evs.length + 2
  | .control next => next.size len + 2
  | .commands _ next => next.size len + 1
  | .sweep _ _ r => len - r + 1
  | .events todo => todo.length + 1

/-- What gets less until `k` commands are carried out. -/
def rank (c : Config) (k : ℕ) (s : IoWait) (log : List Effect) : ℕ × ℕ × ℕ :=
  (k - (executed log).length, s.phase.stage c, s.phase.size s.fd_array.length)

abbrev Less : ℕ × ℕ × ℕ → ℕ × ℕ × ℕ → Prop := Prod.Lex (· < ·) (Prod.Lex (· < ·) (· < ·))

theorem less_wellFounded : WellFounded Less :=
  WellFounded.prod_lex Nat.lt_wfRel.wf (WellFounded.prod_lex Nat.lt_wfRel.wf Nat.lt_wfRel.wf)

theorem rank_lt_executed {k : ℕ} {es : List Effect} (hk : (executed log).length < k)
    (he : 0 < (executed es).length) : Less (rank c k s' (log ++ es)) (rank c k s log) := by
  refine Prod.Lex.left _ _ ?_
  rw [executed_append, length_append]
  omega

theorem rank_lt_phase {k : ℕ} {es : List Effect} (he : executed es = [])
    (h : s'.phase.stage c < s.phase.stage c ∨ s'.phase.stage c = s.phase.stage c ∧
      s'.phase.size s'.fd_array.length < s.phase.size s.fd_array.length) :
    Less (rank c k s' (log ++ es)) (rank c k s log) := by
  rw [rank, executed_append, he, append_nil]
  refine Prod.Lex.right _ ?_
  rcases h with h | ⟨h, h'⟩
  · exact Prod.Lex.left _ _ h
  · rw [h]
    exact Prod.Lex.right _ h'

theorem executed_putIf (b : Bool) (e : FdMap) : executed (putIf b e) = [] := by
  cases b <;> rfl

theorem wait_less (h : Kept c s log buf pip held) (hk : c.poll_method ≠ .kqueue) {ready : List ℤ}
    (hp : Possible c s (.wait ready)) (hpip : pip ≠ []) :
    (wait c s ready).phase.stage c < s.phase.stage c := by
  obtain ⟨hidle, _, _, hctl⟩ := hp
  have hw : c.control_pipe ∈ watched c s := by
    rw [h.watching.watched, Config.pipes_eq hk]
    exact mem_cons_self
  have hready : c.control_pipe ∈ ready := (hctl hw).2 fun hnil => hpip (h.pipe.ne_nil.1 hnil)
  rw [hidle]
  show _ < 1
  cases hm : c.poll_method with
  | poll =>
    simp only [wait, hm]
    cases hx : s.fd_array with
    | nil =>
      have harr := h.watching.array (.inl hm)
      rw [hx] at harr
      cases harr
    | cons p l =>
      have harr := h.watching.array (.inl hm)
      rw [hx, map_cons] at harr
      have hp : p.fd = c.control_pipe := (cons.inj harr).1
      simp [hp, hready, Phase.stage]
  | select =>
    have hset : (c.control_pipe, ReactorType.IN) ∈ s.sets.filter (·.1 ∈ ready) := by
      rw [mem_filter, h.watching.sets (by simp [hm]), Config.pipes_eq hk]
      exact ⟨mem_cons_self, by simpa using hready⟩
    simp only [wait, hm, if_pos hset, Phase.stage]
    exact zero_lt_one
  | epoll =>
    simp only [wait, hm, Phase.stage, if_pos hready]
    exact zero_lt_one
  | kqueue => exact absurd hm hk

theorem scan_less (h : Kept c s log buf pip held) (hc : c.Sound) {todo events : List ℤ} {fd : ℤ}
    (hph : s.phase = .scan (fd :: todo) events) {es : List Effect}
    (heq : exec c s .step = some (s', es)) {k : ℕ} :
    Less (rank c k s' (log ++ es)) (rank c k s log) := by
  have hok := h.phase
  rw [hph] at hok
  have hfd : Known c s fd := hok.2 fd mem_cons_self
  have hmap : get_fd_map c s fd = some (s.fd_hash fd) := if_pos ⟨hfd.1, hfd.2.1⟩
  simp only [exec, step, hph, hmap, some.injEq, Prod.mk.injEq] at heq
  obtain ⟨rfl, rfl⟩ := heq
  refine rank_lt_phase rfl ?_
  rw [hph]
  have h0 := hc.nonneg
  by_cases hctl : fd = c.control_pipe
  · rw [hctl, if_pos (h.control hok.1)]
    refine .inr ⟨?_, ?_⟩
    · simp [Phase.stage]
    · simp only [Phase.size, length_cons]
      omega
  · have hne : (s.fd_hash fd).fd ≠ c.control_pipe := by
      rcases hfd.2.2 with hown | hneg
      · rwa [hown]
      · rw [hneg]
        omega
    rw [if_neg hne]
    refine .inr ⟨?_, ?_⟩
    · simp [Phase.stage, Ne.symm hctl]
    · simp only [Phase.size, length_cons]
      omega

theorem stage_le (ph : Phase) : ph.stage c ≤ 2 := by
  cases ph with
  | scan todo events =>
    rw [Phase.stage]
    split <;> omega
  | commands l next => cases l <;> simp [Phase.stage]
  | _ => simp [Phase.stage]

theorem further {ph ph' : Phase} {len len' : ℕ} (h2 : ph.stage c = 2) (hlt : ph'.size len' < ph.size len) :
    ph'.stage c < ph.stage c ∨ ph'.stage c = ph.stage c ∧ ph'.size len' < ph.size len := by
  have hle := @stage_le c ph'
  omega

/-- **Every step of the thread is a step forward.** -/
theorem step_less (h : Kept c s log buf pip held) (hc : c.Sound) (ho : Orderly c s log .step)
    (hne : s.phase ≠ .idle) {k : ℕ} (hk : (executed log).length < k) (hout : buf ++ pip ≠ [])
    {es : List Effect} (heq : exec c s .step = some (s', es)) :
    Less (rank c k s' (log ++ es)) (rank c k s log) := by
  have hbuff := h.buff
  have hok := h.phase
  cases hph : s.phase with
  | idle => exact absurd hph hne
  | scan todo events =>
    cases todo with
    | nil =>
      simp only [exec, step, hph, some.injEq, Prod.mk.injEq] at heq
      obtain ⟨rfl, rfl⟩ := heq
      refine rank_lt_phase rfl ?_
      rw [hph]
      exact further (by simp [Phase.stage]) (by simp [Phase.size])
    | cons fd todo => exact scan_less h hc hph heq
  | control next =>
    rw [hph] at hok hbuff
    have hlen := ho.1 next hph
    obtain rfl := Spells.eq_nil hbuff
    have hpip : s.pipe ≠ [] := fun hnil => hout (h.pipe.ne_nil.1 hnil)
    simp only [exec, step, hph, take_of_length_le hlen, some.injEq, Prod.mk.injEq] at heq
    obtain ⟨rfl, rfl⟩ := heq
    refine rank_lt_phase rfl (.inr ?_)
    rw [hph]
    obtain ⟨x, l, hl⟩ := exists_cons_of_ne_nil hpip
    simp [hl, Phase.stage, Phase.size]
  | commands l next =>
    cases l with
    | nil =>
      simp only [exec, step, hph, some.injEq, Prod.mk.injEq] at heq
      obtain ⟨rfl, rfl⟩ := heq
      refine rank_lt_phase rfl ?_
      rw [hph]
      exact further rfl (by simp [Phase.size])
    | cons x l =>
      rw [hph] at hbuff
      replace hbuff : Spells c.type.code (x :: l) buf := hbuff
      cases hbuff with
      | add rest =>
        obtain ⟨s₁, heq₁, -⟩ := step_add h hc hph
        rw [exec, heq₁] at heq
        cases heq
        exact rank_lt_executed hk zero_lt_one
      | fire rest =>
        obtain ⟨s₁, b, heq₁, -⟩ := step_fire h hph
        rw [exec, heq₁] at heq
        cases heq
        exact rank_lt_executed hk (Nat.succ_pos _)
  | sweep l n r =>
    by_cases hend : s.fd_array[r]? = none ∨ n = 0
    · rw [exec, sweep_end hph hend] at heq
      cases heq
      refine rank_lt_phase rfl ?_
      rw [hph]
      exact further rfl (Nat.succ_pos _)
    · obtain ⟨hr, hn⟩ := not_or.1 hend
      obtain ⟨p, hp⟩ := ne_none_iff_exists'.1 hr
      have hlt : r < s.fd_array.length := (List.getElem?_eq_some_iff.1 hp).1
      by_cases hf : flagged c l p
      · obtain ⟨s₁, l', heq₁, -, harr, -⟩ := sweep_put h hph hp hn hf
        rw [exec, heq₁] at heq
        cases heq
        refine rank_lt_phase rfl ?_
        rw [hph]
        refine further rfl ?_
        show s₁.fd_array.length - r + 1 < s.fd_array.length - r + 1
        rw [harr, length_eraseIdx_of_lt hlt]
        omega
      · obtain ⟨l', heq₁, -⟩ := sweep_skip hph hp hn hf
        rw [exec, heq₁] at heq
        cases heq
        refine rank_lt_phase rfl ?_
        rw [hph]
        refine further rfl ?_
        show s.fd_array.length - (r + 1) + 1 < s.fd_array.length - r + 1
        omega
  | events todo =>
    cases todo with
    | nil =>
      simp only [exec, step, hph, some.injEq, Prod.mk.injEq] at heq
      obtain ⟨rfl, rfl⟩ := heq
      refine rank_lt_phase rfl ?_
      rw [hph]
      exact further rfl (Nat.succ_pos _)
    | cons fd todo =>
      rw [hph] at hok
      rcases hok with ⟨hm, _⟩ | ⟨hm, _⟩
      · obtain ⟨s₁, b, heq₁, -⟩ := epoll_step h hm hph
        rw [exec, heq₁] at heq
        cases heq
        refine rank_lt_phase (executed_putIf _ _) ?_
        rw [hph]
        exact further rfl (Nat.lt_succ_self _)
      · obtain ⟨s₁, heq₁, -⟩ := kqueue_step h hc hm hph
        rw [exec, heq₁] at heq
        cases heq
        refine rank_lt_phase rfl ?_
        rw [hph]
        exact further rfl (Nat.lt_succ_self _)

theorem rank_other {op : Op} (hop : op ≠ .step ∧ ∀ ready, op ≠ .wait ready) {k : ℕ} {es : List Effect}
    (heq : exec c s op = some (s', es)) : rank c k s' (log ++ es) = rank c k s log := by
  have hsame : s'.phase = s.phase ∧ s'.fd_array = s.fd_array ∧ executed es = [] := by
    cases op with
    | submit_task e =>
      simp only [exec, submit_task, safe_add_to_hash] at heq
      by_cases h1 : e.fd < 0 ∨ c.max_fd_no < e.fd
      · simp only [if_pos h1, some.injEq, Prod.mk.injEq] at heq
        obtain ⟨rfl, rfl⟩ := heq
        exact ⟨rfl, rfl, rfl⟩
      · by_cases h2 : e.fd = c.max_fd_no
        · simp only [if_neg h1, if_pos h2] at heq
          cases heq
        · simp only [if_neg h1, if_neg h2, some.injEq, Prod.mk.injEq] at heq
          obtain ⟨rfl, rfl⟩ := heq
          exact ⟨rfl, rfl, rfl⟩
    | announce n =>
      simp only [exec, some.injEq] at heq
      cases hk : s.calls[n]? with
      | none =>
        simp only [announce, hk, Prod.mk.injEq] at heq
        obtain ⟨rfl, rfl⟩ := heq
        exact ⟨rfl, rfl, rfl⟩
      | some e =>
        cases hm : c.poll_method <;> simp only [announce, hk, hm] at heq <;> (try split at heq) <;>
          (obtain ⟨rfl, rfl⟩ := Prod.mk.inj heq; exact ⟨rfl, rfl, rfl⟩)
    | fire_fd fd junk =>
      cases heq
      exact ⟨rfl, rfl, rfl⟩
    | wait ready => exact absurd rfl (hop.2 ready)
    | step => exact absurd rfl hop.1
  obtain ⟨hph, harr, hex⟩ := hsame
  rw [rank, rank, executed_append, hex, append_nil, hph, harr]

end Progress

section Runs

/-- A run goes on for ever, each step of it orderly, and the reactor thread does not rest for ever. -/
structure GoesOn (c : Config) (log : List Effect) (run : ℕ → IoWait) (ops : ℕ → Op)
    (es : ℕ → List Effect) : Prop where
  forever : Forever (exec c) (Possible c) run ops es
  orderly : ∀ n, Orderly c (run n) (logAt log es n) (ops n)
  thread : ∀ n, ∃ m, n ≤ m ∧ (ops m = .step ∨ ∃ ready, ops m = .wait ready)

variable {run : ℕ → IoWait} {ops : ℕ → Op} {es : ℕ → List Effect}

theorem GoesOn.runs (h : GoesOn c log run ops es) (h0 : Runs c (run 0) log) (n : ℕ) :
    Runs c (run n) (logAt log es n) := by
  induction n with
  | zero => exact h0
  | succ n ih => exact ih.step ⟨h.forever.ok n, h.orderly n⟩ (h.forever.eq n)

theorem written_logAt (log : List Effect) (es : ℕ → List Effect) (n : ℕ) :
    ∃ more, written (logAt log es n) = written log ++ more := by
  induction n with
  | zero => exact ⟨[], (append_nil _).symm⟩
  | succ n ih =>
    obtain ⟨more, hm⟩ := ih
    exact ⟨more ++ written (es n), by rw [logAt, written_append, hm, append_assoc]⟩

theorem GoesOn.less (h : GoesOn c log run ops es) (hc : c.Sound) (hk : c.poll_method ≠ .kqueue)
    (h0 : Runs c (run 0) log) {n : ℕ}
    (hlt : (executed (logAt log es n)).length < (written log).length)
    (hop : ops n = .step ∨ ∃ ready, ops n = .wait ready) :
    Less (rank c (written log).length (run (n + 1)) (logAt log es (n + 1)))
      (rank c (written log).length (run n) (logAt log es n)) := by
  obtain ⟨buf, pip, held, hkept⟩ := inv_run hc (h.runs h0 n)
  obtain ⟨more, hw⟩ := written_logAt log es n
  have hout : buf ++ pip ≠ [] := by
    intro hnil
    have hlen := congrArg List.length (hkept.written.symm.trans hw)
    rw [append_assoc, hnil, append_nil, length_append] at hlen
    omega
  have heq := h.forever.eq n
  have hok := h.forever.ok n
  have ho := h.orderly n
  rw [logAt]
  rcases hop with hop | ⟨ready, hop⟩
  · rw [hop] at heq hok ho
    exact step_less hkept hc ho hok hlt hout heq
  · rw [hop] at heq hok
    have hnil : buf = [] := by
      have hb := hkept.buff
      rw [hok.1] at hb
      exact hb.eq_nil
    obtain ⟨hrun, hes⟩ := Prod.mk.inj (some.inj heq)
    rw [← hrun, ← hes]
    refine rank_lt_phase rfl (.inl (wait_less hkept hk hok ?_))
    rwa [hnil, nil_append] at hout

/-- **Every command is carried out in the end.** -/
theorem GoesOn.carriedOut (h : GoesOn c log run ops es) (hc : c.Sound) (hk : c.poll_method ≠ .kqueue)
    (h0 : Runs c (run 0) log) : ∃ n more, executed (logAt log es n) = written log ++ more := by
  have hstep : ∀ n a, ¬ (written log).length ≤ (executed (logAt log es n)).length →
      rank c (written log).length (run n) (logAt log es n) = a →
      (written log).length ≤ (executed (logAt log es (n + 1))).length ∨
        ∃ a', rank c (written log).length (run (n + 1)) (logAt log es (n + 1)) = a' ∧ (a' = a ∨ Less a' a) ∧
          ((ops n = .step ∨ ∃ ready, ops n = .wait ready) → Less a' a) := by
    rintro n a hnd rfl
    have hless := h.less hc hk h0 (lt_of_not_ge hnd)
    refine .inr ⟨_, rfl, ?_, hless⟩
    by_cases hop : ops n = .step ∨ ∃ ready, ops n = .wait ready
    · exact .inr (hless hop)
    · refine .inl (rank_other ⟨?_, ?_⟩ (h.forever.eq n))
      · exact fun hs => hop (.inl hs)
      · exact fun ready hw => hop (.inr ⟨ready, hw⟩)
  obtain ⟨n, -, hn⟩ := eventually_of_rank less_wellFounded (fun n => (run n, logAt log es n))
    (fun x a => rank c (written log).length x.1 x.2 = a)
    (fun n => ops n = .step ∨ ∃ ready, ops n = .wait ready)
    (fun x => (written log).length ≤ (executed x.2).length)
    (fun n _ _ => h.thread n) hstep (show rank c (written log).length (run 0) (logAt log es 0) = _ from rfl)
  obtain ⟨buf, pip, held, hkept⟩ := inv_run hc (h.runs h0 n)
  obtain ⟨more, hw⟩ := written_logAt log es n
  have hpre : written log <+: executed (logAt log es n) := by
    refine prefix_of_prefix_length_le (⟨more, hw.symm⟩ : written log <+: _) ?_ hn
    rw [hkept.written, append_assoc]
    exact prefix_append _ _
  exact ⟨n, _, (prefix_iff_eq_append.1 hpre).symm⟩

/-- **The control pipe**: in every run that is orderly each command is carried out at most once, in the
order of the pipe, with its own task, no step fails, and each command is carried out in the end. -/
theorem commands_once (hc : c.Sound) (hk : c.poll_method ≠ .kqueue) (hr : Runs c s log) :
    written log = executed log ++ outstanding s ∧
    (∀ op, Possible c s op → Orderly c s log op → ∃ s' es, exec c s op = some (s', es)) ∧
    (∀ cmd cs, decode s.fd_hash s.phase.buff = cmd :: cs →
      ∃ s' es, exec c s .step = some (s', es) ∧ CarriedOut c s s' log es cmd) ∧
    ∀ run ops es, GoesOn c log run ops es → run 0 = s →
      ∃ n more, executed (logAt log es n) = written log ++ more := by
  have hi := inv_run hc hr
  obtain ⟨buf, pip, held, hkept⟩ := inv_run hc hr
  refine ⟨?_, fun op hp ho => ?_, fun cmd cs hbuf => hkept.carriedOut hc hbuf, ?_⟩
  · rw [hkept.outstanding, hkept.written, append_assoc]
  · obtain ⟨s', es, heq, -⟩ := inv_exec hc hi hp ho
    exact ⟨s', es, heq⟩
  · rintro run ops es hgo rfl
    exact hgo.carriedOut hc hk hr

/-- A reactor that reads, with the smallest descriptors. -/
def reads (m : PollType) : Config := ⟨m, .IN, 2048, 3⟩

theorem reads_sound (m : PollType) : (reads m).Sound where
  nonneg := show (0 : ℤ) ≤ 3 by decide
  lt := show (3 : ℤ) < 2048 by decide
  set _ := show (3 : ℤ) < 1024 by decide
  kqueue _ := rfl

def task (fd : ℤ) : FdMap := ⟨fd, 0, 0, 1, 2⟩

theorem inRange_task (m : PollType) : InRange (reads m) (task 5).fd where
  nonneg := by decide
  lt := show (5 : ℤ) < 2048 by decide
  ne := show (5 : ℤ) ≠ 3 by decide
  set _ := by decide

theorem Runs.then (hr : Runs c s log) (op : Op) {es : List Effect} (hp : Possible c s op)
    (ho : Orderly c s log op) (heq : exec c s op = some (s', es)) : Runs c s' (log ++ es) :=
  hr.step ⟨hp, ho⟩ heq

/-- A descriptor is submitted, and the thread reads the command and carries it out. -/
theorem commands_once_add : ∃ s log, Runs (reads .poll) s log ∧ written log = executed log ++ outstanding s ∧
    written log = [.add (task 5)] ∧ outstanding s = [] := by
  have h₀ : Runs (reads .poll) (init_io_wait (reads .poll)) [] := .init
  have h₁ := h₀.then (.submit_task (task 5)) trivial
    (.inr ⟨inRange_task _, not_mem_nil⟩) rfl
  have h₂ := h₁.then (.announce 0) Nat.zero_lt_one trivial rfl
  have h₃ := h₂.then (.wait [3]) ⟨rfl, by decide, by decide, fun _ => by decide⟩ trivial rfl
  have h₄ := h₃.then .step (fun h => by cases h) ⟨fun _ _ => by decide, fun h => by cases h⟩ rfl
  have h₅ := h₄.then .step (fun h => by cases h) ⟨fun _ h => (by cases h), fun h => by cases h⟩ rfl
  exact ⟨_, _, h₅, (commands_once (reads_sound _) (by decide) h₅).1, rfl, rfl⟩

end Runs

section Backlog

abbrev AnyRun (c : Config) : IoWait → List Effect → Prop :=
  Run (exec c) (fun s _ op => Possible c s op) (fun _ log _ es => log ++ es) (init_io_wait c, [])

theorem AnyRun.then (hr : AnyRun c s log) (op : Op) {es : List Effect} (hp : Possible c s op)
    (heq : exec c s op = some (s', es)) : AnyRun c s' (log ++ es) :=
  hr.step hp heq

/-- `n` fires of a descriptor. -/
def fires : ℕ → List ℤ
  | 0 => []
  | n + 1 => [FIRE_FD, 5, 0] ++ fires n

theorem fires_length (n : ℕ) : (fires n).length = 3 * n := by
  induction n with
  | zero => rfl
  | succ n ih => rw [fires, length_append, ih]; exact (add_comm _ _).trans (Nat.mul_succ 3 n).symm

theorem fires_succ (n : ℕ) : fires (n + 1) = fires n ++ [FIRE_FD, 5, 0] := by
  induction n with
  | zero => rfl
  | succ n ih => rw [fires, ih, ← append_assoc, ← ih]; rfl

theorem run_fires (n : ℕ) : ∃ log, AnyRun (reads .poll)
    { init_io_wait (reads .poll) with pipe := fires n } log := by
  induction n with
  | zero => exact ⟨[], .init⟩
  | succ n ih =>
    obtain ⟨log, hr⟩ := ih
    rw [fires_succ]
    exact ⟨_, hr.then (.fire_fd 5 0) trivial rfl⟩

theorem run_commands {s : IoWait} {log : List Effect} {l : List ℤ} {next : Phase} (n : ℕ)
    (hr : AnyRun (reads .poll) s log) (hs : s.phase = .commands (fires n ++ l) next)
    (hh : s.fd_hash = fun _ => FdMap.zero)
    (ha : s.fd_array.map PollFd.fd = [3]) :
    ∃ s log, AnyRun (reads .poll) s log ∧ s.phase = .commands l next := by
  induction n generalizing s log with
  | zero => exact ⟨s, log, hr, hs⟩
  | succ n ih =>
    have hne : s.phase ≠ .idle := by rw [hs]; exact fun h => by cases h
    obtain ⟨p, hp⟩ : ∃ p, s.fd_array = [p] := by
      have hlen := congrArg List.length ha
      rw [length_map] at hlen
      exact length_eq_one_iff.1 hlen
    have hfd : p.fd = 3 := by
      rw [hp] at ha
      exact (cons.inj ha).1
    have heq : exec (reads .poll) s .step =
        some ({ s with phase := .commands (fires n ++ l) next }, [.execute (.fire 5)]) := by
      simp [exec, step, hs, fires, command, reads, poll_command, array_command, FIRE_FD, ADD_FD,
        get_fd_map, hh, FdMap.zero, array_fd_del, hp, hfd]
    exact ih (hr.then .step hne heq) rfl hh ha

/-- **A command that does not fit into the buffer**: of 1366 commands the last is read in part, and the
thread looks for the rest of it behind the buffer. -/
theorem command_split : ∃ s log, AnyRun (reads .poll) s log ∧ Possible (reads .poll) s .step ∧
    exec (reads .poll) s .step = none := by
  obtain ⟨log, hr⟩ := run_fires 1366
  have hlen : (fires 1365).length = 4095 := fires_length 1365
  have htake : (fires 1366).take BUFF_SIZE = fires 1365 ++ [FIRE_FD] := by
    rw [fires_succ, BUFF_SIZE, take_append, hlen, take_of_length_le (by omega)]
    rfl
  have hne : fires 1366 ≠ [] := by
    intro h
    have hl := fires_length 1366
    rw [h] at hl
    cases hl
  have h₁ := hr.then (.wait [3])
    ⟨rfl, by decide, by decide, fun _ => ⟨fun _ => hne, fun _ => mem_cons_self⟩⟩ rfl
  have h₂ := h₁.then .step (fun h => by cases h) rfl
  obtain ⟨s, log, h₃, hph⟩ := @run_commands _ _ [FIRE_FD] _ 1365 h₂
    (congrArg (Phase.commands · _) htake) rfl rfl
  refine ⟨s, log, h₃, ?_, ?_⟩
  · show s.phase ≠ .idle
    rw [hph]
    exact fun h => by cases h
  · simp only [exec, step, hph]

end Backlog

end OpenSips.Reactor
