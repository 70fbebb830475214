import OpenSips.Reactor.Backends

/-!
# OpenSips.Reactor.Scripts — submissions and ready sets

A sequence of submissions and of sets of descriptors that are ready, and what is to be dispatched for
it.  A set stays ready until the thread has nothing more to do with it, however the kernel divides it
into reports.
-/

namespace OpenSips.Reactor

open Lib Lib.OneShot List Option

inductive Input where
  | submit (e : FdMap)
  | ready (fds : List ℤ)

def tally (max_fd_no : ℤ) (t : List FdMap × List FdMap) : Input → List FdMap × List FdMap
  | .submit e => if e.fd < 0 ∨ max_fd_no < e.fd then t else (t.1 ++ [e], t.2)
  | .ready fds => (t.1.filter (·.fd ∉ fds), t.2 ++ t.1.filter (·.fd ∈ fds))

def table (max_fd_no : ℤ) (ins : List Input) : List FdMap × List FdMap :=
  ins.foldl (tally max_fd_no) ([], [])

/-- The number of submissions since the last set. -/
def recent (ins : List Input) : ℕ := ins.foldl (fun n i => match i with | .submit _ => n + 1 | .ready _ => 0) 0

/-- A descriptor is submitted when it is not registered already (or is refused), and no more are
submitted in a row than commands fit into the buffer, where commands are used. -/
inductive Script (c : Config) : List Input → Prop where
  | nil : Script c []
  | submit {ins : List Input} {e : FdMap} (script : Script c ins)
      (free : (e.fd < 0 ∨ c.max_fd_no < e.fd) ∨
        InRange c e.fd ∧ e.fd ∉ (table c.max_fd_no ins).1.map FdMap.fd)
      (few : c.poll_method = .poll ∨ c.poll_method = .select → recent ins < 1365) :
      Script c (ins ++ [.submit e])
  | ready {ins : List Input} {fds : List ℤ} (script : Script c ins) (clients : c.control_pipe ∉ fds) :
      Script c (ins ++ [.ready fds])

/-- What can happen while `fds` are ready and nothing is submitted. -/
def Serves (c : Config) (fds : List ℤ) : Op → Prop
  | .wait ready => ∀ fd ∈ ready, fd ∈ fds ∨ fd = c.control_pipe
  | .step => True
  | _ => False

abbrev Round (c : Config) (fds : List ℤ) (s : IoWait) (log : List Effect) :
    IoWait → List Effect → Prop :=
  Run (exec c) (fun s _ op => Possible c s op ∧ Serves c fds op) (fun _ log _ es => log ++ es) (s, log)

structure Settled (c : Config) (fds : List ℤ) (s : IoWait) : Prop where
  idle : s.phase = .idle
  pipe : s.pipe = []
  unwatched : ∀ fd ∈ fds, fd ∉ watched c s

inductive Plays (c : Config) : List Input → IoWait → List Effect → Prop where
  | nil : Plays c [] (init_io_wait c) []
  | submit {ins : List Input} {e : FdMap} {s s₁ s₂ : IoWait} {log es₁ es₂ : List Effect}
      (plays : Plays c ins s log) (submits : exec c s (.submit_task e) = some (s₁, es₁))
      (announces : exec c s₁ (.announce 0) = some (s₂, es₂)) :
      Plays c (ins ++ [.submit e]) s₂ (log ++ es₁ ++ es₂)
  | ready {ins : List Input} {fds : List ℤ} {s s' : IoWait} {log log' : List Effect}
      (plays : Plays c ins s log) (round : Round c fds s log s' log') (settled : Settled c fds s') :
      Plays c (ins ++ [.ready fds]) s' log'

variable {c : Config} {s s' s₀ : IoWait} {log log' log₀ es : List Effect} {fds : List ℤ}
  {ins : List Input}

theorem table_append (max_fd_no : ℤ) (ins : List Input) (i : Input) :
    table max_fd_no (ins ++ [i]) = tally max_fd_no (table max_fd_no ins) i := by
  rw [table, foldl_append]
  rfl

theorem recent_submit (ins : List Input) (e : FdMap) : recent (ins ++ [.submit e]) = recent ins + 1 := by
  rw [recent, foldl_append]
  rfl

section Rounds

theorem wait_reports {ready : List ℤ} : ∀ fd ∈ reports c (wait c s ready), fd ∈ ready := by
  intro fd hfd
  rw [reports] at hfd
  cases hm : c.poll_method with
  | poll =>
    have hns : c.poll_method ≠ .select := by simp [hm]
    simp only [wait, hm] at hfd
    have hsweep : fd ∈ (Phase.sweep [] 0 1).reports c
        (s.fd_array.map fun p => { p with revents := decide (p.fd ∈ ready) }) → fd ∈ ready := by
      intro hfd
      rw [Phase.reports, if_neg hns] at hfd
      obtain ⟨p, hp, rfl⟩ := List.mem_map.1 hfd
      obtain ⟨hp, hrev⟩ := mem_filter.1 hp
      obtain ⟨q, _, rfl⟩ := List.mem_map.1 hp
      exact of_decide_eq_true hrev
    split at hfd
    · exact hsweep hfd
    · exact hsweep hfd
  | select =>
    simp only [wait, hm] at hfd
    have hsweep : fd ∈ (Phase.sweep ((s.sets.filter (·.1 ∈ ready)).map Prod.fst) 0 1).reports c
        s.fd_array → fd ∈ ready := by
      intro hfd
      rw [Phase.reports, if_pos hm] at hfd
      obtain ⟨x, hx, rfl⟩ := List.mem_map.1 hfd
      exact of_decide_eq_true (mem_filter.1 hx).2
    split at hfd
    · exact hsweep hfd
    · exact hsweep hfd
  | epoll =>
    simp only [wait, hm] at hfd
    exact hfd
  | kqueue =>
    simp only [wait, hm] at hfd
    exact hfd

structure RoundInv (c : Config) (fds : List ℤ) (s₀ : IoWait) (log₀ : List Effect) (s : IoWait)
    (log : List Effect) (put : List FdMap) : Prop where
  quiet : QuietRun c s log
  calls : s.calls = s₀.calls
  pipe : s.pipe.length ≤ s₀.pipe.length
  reported : ∀ fd ∈ reports c s, fd ∈ fds ∨ fd = c.control_pipe
  events : events log = events log₀ ++ put.map .use
  dispatched : dispatched log = dispatched log₀ ++ put
  ready : ∀ e ∈ put, e.fd ∈ fds

theorem used_uses (events : List (Event FdMap)) (l : List FdMap) :
    used (events ++ l.map .use) = used events ++ l := by
  rw [used, filterMap_append, filterMap_map]
  exact congrArg _ (filterMap_some)

theorem put_inRange (hc : c.Sound) (hr : Runs c s' (log ++ es))
    (hu : events es = (dispatched es).map .use) (hold : Runs c s log) :
    ∀ e ∈ dispatched es, InRange c e.fd := by
  intro e he
  obtain ⟨_, _, _, hk'⟩ := inv_run hc hr
  obtain ⟨_, _, _, hk⟩ := inv_run hc hold
  have hproper := hk'.table.proper
  have happ : events (log ++ es) = events log ++ (dispatched es).map .use := by
    rw [← hu]
    exact filterMap_append
  rw [happ] at hproper
  have hmem := hproper.uses.mem_iff.1 he
  exact hk.table.range e (mem_filter.1 hmem).1

theorem round_inv (hc : c.Sound) (hq : QuietRun c s₀ log₀) (hidle : s₀.phase = .idle)
    (hlen : s₀.pipe.length ≤ BUFF_SIZE) (hr : Round c fds s₀ log₀ s log) :
    ∃ put, RoundInv c fds s₀ log₀ s log put := by
  induction hr with
  | init =>
    refine ⟨[], hq, rfl, le_rfl, fun fd hfd => ?_, (append_nil _).symm, (append_nil _).symm,
      fun e he => by cases he⟩
    rw [reports, hidle] at hfd
    cases hfd
  | @step s s' log op es _ ok heq ih =>
    obtain ⟨put, ih⟩ := ih
    have hi := quiet_inv hc ih.quiet
    obtain ⟨buf, pip, held, hk⟩ := inv_run hc hi.runs
    cases op with
    | wait ready =>
      cases heq
      have hsame : (wait c s ready).calls = s.calls ∧ (wait c s ready).pipe = s.pipe := by
        cases hm : c.poll_method <;> simp only [wait, hm, and_self]
      refine ⟨put, ih.quiet.step ⟨ok.1, trivial⟩ rfl, hsame.1.trans ih.calls, hsame.2 ▸ ih.pipe,
        fun fd hfd => ok.2 fd (wait_reports fd hfd), ?_, ?_, ih.ready⟩
      · rw [append_nil]
        exact ih.events
      · rw [append_nil]
        exact ih.dispatched
    | step =>
      have hquiet : Quiet c s log .step := fun _ _ => le_trans ih.pipe hlen
      have hs := quiet_step hk hc hi.noFires hquiet heq
      have hrun : QuietRun c s' (log ++ es) := ih.quiet.step ⟨ok.1, hquiet⟩ heq
      have hin := put_inRange hc (quiet_inv hc hrun).runs hs.uses hi.runs
      have hev : events (log ++ es) = events log ++ (dispatched es).map .use := by
        rw [← hs.uses]
        exact filterMap_append
      refine ⟨put ++ dispatched es, hrun, hs.calls.trans ih.calls, le_trans hs.pipe ih.pipe,
        fun fd hfd => ih.reported fd (hs.fewer fd hfd), ?_, ?_, fun e he => ?_⟩
      · rw [hev, ih.events, map_append, append_assoc]
      · rw [dispatched, hev, used_uses, ← dispatched, ih.dispatched, append_assoc]
      · rcases mem_append.1 he with he | he
        · exact ih.ready e he
        · rcases ih.reported e.fd (hs.reported e he) with h | h
          · exact h
          · exact absurd h (hin e he).ne
    | _ => exact ok.2.elim

end Rounds

section Tally

/-- What holds after a sequence: the table says what is registered and what was dispatched. -/
structure Played (c : Config) (ins : List Input) (s : IoWait) (log : List Effect) : Prop where
  quiet : QuietRun c s log
  idle : s.phase = .idle
  calls : s.calls = []
  pipe : s.pipe.length ≤ 3 * recent ins
  direct : ¬ (c.poll_method = .poll ∨ c.poll_method = .select) → s.pipe = []
  pending : pending log = (table c.max_fd_no ins).1
  dispatched : (dispatched log).Perm (table c.max_fd_no ins).2

theorem announce_spec {k : ℕ} {e : FdMap} (hk : s.calls[k]? = some e) :
    (announce c s k).1.calls = s.calls.eraseIdx k ∧ (announce c s k).1.phase = s.phase ∧
      (announce c s k).1.pipe.length ≤ s.pipe.length + 3 ∧
      (¬ (c.poll_method = .poll ∨ c.poll_method = .select) → (announce c s k).1.pipe = s.pipe) ∧
      ∀ log, events (log ++ (announce c s k).2) = events log := by
  by_cases hm : c.poll_method = .poll ∨ c.poll_method = .select
  · rw [announce_pipe hk hm]
    refine ⟨rfl, rfl, ?_, fun h => absurd hm h, fun log => events_write⟩
    rw [length_append]
    exact le_rfl
  · have heq : ∃ sets, announce c s k = ({ s with calls := s.calls.eraseIdx k, sets := sets }, []) := by
      cases hm' : c.poll_method with
      | poll => exact absurd (.inl hm') hm
      | select => exact absurd (.inr hm') hm
      | epoll =>
        simp only [announce, hk, hm']
        split <;> exact ⟨_, rfl⟩
      | kqueue =>
        simp only [announce, hk, hm']
        split <;> exact ⟨_, rfl⟩
    obtain ⟨sets, heq⟩ := heq
    rw [heq]
    exact ⟨rfl, rfl, Nat.le_add_right _ _, fun _ => rfl, fun log => by rw [append_nil]⟩

theorem Played.submit (h : Played c ins s log) {e : FdMap} (hfree : (e.fd < 0 ∨ c.max_fd_no < e.fd) ∨
      InRange c e.fd ∧ e.fd ∉ (table c.max_fd_no ins).1.map FdMap.fd)
    {s₁ s₂ : IoWait} {es₁ es₂ : List Effect} (h₁ : exec c s (.submit_task e) = some (s₁, es₁))
    (h₂ : exec c s₁ (.announce 0) = some (s₂, es₂)) :
    Played c (ins ++ [.submit e]) s₂ (log ++ es₁ ++ es₂) := by
  have hlen : 3 * recent ins ≤ 3 * recent (ins ++ [.submit e]) := by
    rw [recent_submit]
    omega
  rcases hfree with hbad | ⟨hr, hfree⟩
  · simp only [exec, submit_task, safe_add_to_hash, if_pos hbad, some.injEq, Prod.mk.injEq] at h₁
    obtain ⟨rfl, rfl⟩ := h₁
    simp only [exec, announce, h.calls, getElem?_nil, some.injEq, Prod.mk.injEq] at h₂
    obtain ⟨rfl, rfl⟩ := h₂
    rw [append_nil, append_nil]
    have htable : table c.max_fd_no (ins ++ [.submit e]) = table c.max_fd_no ins := by
      rw [table_append, tally, if_pos hbad]
    exact ⟨h.quiet, h.idle, h.calls, le_trans h.pipe hlen, h.direct, htable ▸ h.pending, htable ▸ h.dispatched⟩
  · have h0 := hr.nonneg
    have hlt := hr.lt
    have hbad : ¬ (e.fd < 0 ∨ c.max_fd_no < e.fd) := by omega
    have hrun : QuietRun c s₁ (log ++ es₁) := h.quiet.then (.submit_task e) trivial (.inr ⟨hr, h.pending ▸ hfree⟩) h₁
    have heq : submit_task c s e = some ({ hash_fd_map s e with calls := s.calls ++ [e] }, [.submit e]) := by
      rw [submit_task, safe_add_to_hash, if_neg hbad, if_neg (by omega)]
      rfl
    rw [exec, heq] at h₁
    cases h₁
    have hk : (s.calls ++ [e])[0]? = some e := by rw [h.calls]; rfl
    obtain ⟨hcalls, hphase, hpipe, hdirect, hevents⟩ :=
      @announce_spec c { hash_fd_map s e with calls := s.calls ++ [e] } 0 e hk
    rw [show announce c _ 0 = (s₂, es₂) from some.inj h₂] at hcalls hphase hpipe hdirect hevents
    have htable : table c.max_fd_no (ins ++ [.submit e]) =
        ((table c.max_fd_no ins).1 ++ [e], (table c.max_fd_no ins).2) := by
      rw [table_append, tally, if_neg hbad]
    refine ⟨hrun.then (.announce 0) ?_ trivial h₂, hphase.trans h.idle, ?_, ?_, fun hm => ?_, ?_, ?_⟩
    · show 0 < (s.calls ++ [e]).length
      rw [length_append]
      exact Nat.succ_pos _
    · rw [hcalls, h.calls]
      rfl
    · rw [recent_submit, mul_add]
      exact le_trans hpipe (Nat.add_le_add_right h.pipe 3)
    · exact (hdirect hm).trans (h.direct hm)
    · rw [Reactor.pending, hevents, events_submit, standing_register, htable, ← h.pending]
      rfl
    · have hd : Reactor.dispatched (log ++ [.submit e]) = Reactor.dispatched log := by
        rw [Reactor.dispatched, events_submit, used, filterMap_append]
        exact append_nil _
      rw [Reactor.dispatched, hevents, ← Reactor.dispatched, hd, htable]
      exact h.dispatched

theorem Script.recent (h : Script c ins) (hm : c.poll_method = .poll ∨ c.poll_method = .select) :
    Reactor.recent ins ≤ 1365 := by
  cases h with
  | nil => exact Nat.zero_le _
  | submit script free few =>
    rw [recent_submit]
    exact few hm
  | ready script clients =>
    rw [Reactor.recent, foldl_append]
    exact Nat.zero_le _

theorem Played.fits (h : Played c ins s log) (hs : Script c ins) : s.pipe.length ≤ BUFF_SIZE := by
  by_cases hm : c.poll_method = .poll ∨ c.poll_method = .select
  · have hrecent := hs.recent hm
    have hpipe := h.pipe
    rw [BUFF_SIZE]
    omega
  · rw [h.direct hm]
    exact Nat.zero_le _

theorem Played.ready (h : Played c ins s log) (hc : c.Sound) (hs : Script c ins)
    (hround : Round c fds s log s' log') (hset : Settled c fds s') :
    Played c (ins ++ [.ready fds]) s' log' := by
  obtain ⟨put, hi⟩ := round_inv hc h.quiet h.idle (h.fits hs) hround
  obtain ⟨buf, pip, held, hk⟩ := inv_run hc (quiet_inv hc hi.quiet).runs
  have hbuf : buf = [] := by
    have hb := hk.buff
    rw [hset.idle] at hb
    exact hb.eq_nil
  have hpip : pip = [] := by
    have hp := hk.pipe
    rw [hset.pipe] at hp
    exact hp.eq_nil
  have hcalls : s'.calls = [] := hi.calls.trans h.calls
  have hpend : Reactor.pending log' = (Reactor.pending log).filter (·.fd ∉ put.map FdMap.fd) := by
    rw [Reactor.pending, hi.events, standing_uses, Reactor.pending]
  have hput : put.Perm ((Reactor.pending log).filter (·.fd ∈ put.map FdMap.fd)) := by
    have hproper := hk.table.proper
    rw [hi.events] at hproper
    exact hproper.uses
  -- what is ready was put, because it is watched no more
  have hiff : ∀ e ∈ Reactor.pending log, e.fd ∈ put.map FdMap.fd ↔ e.fd ∈ fds := by
    intro e he
    constructor
    · intro hin
      obtain ⟨e', he', hfd⟩ := List.mem_map.1 hin
      exact hfd ▸ hi.ready e' he'
    · intro hin
      refine of_not_not fun hnot => ?_
      have hmem : e ∈ Reactor.pending log' := by
        rw [hpend, mem_filter]
        exact ⟨he, by simpa using hnot⟩
      have hr := hk.table.range e hmem
      rcases hk.table.mem.1 hmem with hin' | hin' | hin'
      · rw [hcalls] at hin'
        cases hin'
      · rw [hbuf, hpip] at hin'
        cases hin'
      · exact hset.unwatched e.fd hin ((hk.watching.mem_watched hr.ne).2 (List.mem_map_of_mem hin'))
  have htable : table c.max_fd_no (ins ++ [.ready fds]) = ((table c.max_fd_no ins).1.filter (·.fd ∉ fds),
        (table c.max_fd_no ins).2 ++ (table c.max_fd_no ins).1.filter (·.fd ∈ fds)) := table_append _ _ _
  refine ⟨hi.quiet, hset.idle, hcalls, ?_, fun _ => hset.pipe, ?_, ?_⟩
  · rw [hset.pipe]
    exact Nat.zero_le _
  · rw [hpend, htable, ← h.pending]
    exact filter_congr fun e he => by simp only [hiff e he]
  · rw [hi.dispatched, htable, ← h.pending]
    refine h.dispatched.append (hput.trans (Perm.of_eq ?_))
    exact filter_congr fun e he => by simp only [hiff e he]

/-- **What is dispatched for a sequence is what the table says.** -/
theorem plays_table (hc : c.Sound) (hs : Script c ins) (hp : Plays c ins s log) : Played c ins s log := by
  induction hp with
  | nil =>
    refine ⟨.init, ?_, ?_, ?_, fun _ => ?_, rfl, List.Perm.refl _⟩ <;>
      cases hm : c.poll_method <;> simp [init_io_wait, hm, hash_fd_map]
  | submit _ submits announces ih =>
    generalize hins : _ ++ [Input.submit _] = ins' at hs
    cases hs with
    | nil => cases append_eq_nil_iff.1 hins |>.2
    | submit script free few =>
      obtain ⟨rfl, he⟩ := append_inj' hins rfl
      cases he
      exact (ih script).submit free submits announces
    | ready script clients => cases (append_inj' hins rfl).2
  | ready _ round settled ih =>
    generalize hins : _ ++ [Input.ready _] = ins' at hs
    cases hs with
    | nil => cases append_eq_nil_iff.1 hins |>.2
    | submit script free few => cases (append_inj' hins rfl).2
    | ready script clients =>
      obtain ⟨rfl, he⟩ := append_inj' hins rfl
      cases he
      exact (ih script).ready hc script round settled

end Tally

section Serving

instance (l : List ℤ) (p : PollFd) : Decidable (flagged c l p) :=
  inferInstanceAs (Decidable (if c.poll_method = .select then p.fd ∈ l else p.revents = true))

theorem flagged_congr {l l' : List ℤ} (hl : c.poll_method = .select → l' = l) (p : PollFd) :
    flagged c l' p ↔ flagged c l p := by
  rw [flagged, flagged]
  by_cases hm : c.poll_method = .select
  · rw [if_pos hm, if_pos hm, hl hm]
  · rw [if_neg hm, if_neg hm]

theorem round_op (op : Op) (hp : Possible c s op) (hs : Serves c fds op)
    (heq : exec c s op = some (s', es)) : Round c fds s log s' (log ++ es) :=
  Run.step Run.init ⟨hp, hs⟩ heq

theorem round_one (hne : s.phase ≠ .idle) (heq : exec c s .step = some (s', es)) :
    Round c fds s log s' (log ++ es) :=
  round_op .step hne trivial heq

/-- No entry behind that of the control pipe is found ready in the first `r` ones, and there are no more
than `n` in the others. -/
structure Swept (c : Config) (s : IoWait) (l : List ℤ) (n r : ℕ) : Prop where
  before : ∀ i p, 1 ≤ i → i < r → s.fd_array[i]? = some p → ¬ flagged c l p
  count : (s.fd_array.drop r).countP (fun p => flagged c l p) ≤ n

variable {l : List ℤ} {p : PollFd} {n r : ℕ}

theorem Swept.finish (h : Swept c s l n r) (hend : s.fd_array[r]? = none ∨ n = 0) {i : ℕ} (h1 : 1 ≤ i)
    (hp : s.fd_array[i]? = some p) : ¬ flagged c l p := by
  rcases lt_or_ge i r with hlt | hge
  · exact h.before i p h1 hlt hp
  · rcases hend with hend | rfl
    · have hlen := (List.getElem?_eq_none_iff.1 hend)
      have hi := (List.getElem?_eq_some_iff.1 hp).1
      omega
    · have hzero := countP_eq_zero.1 (Nat.le_zero.1 h.count)
      have hmem : p ∈ s.fd_array.drop r := by
        obtain ⟨k, rfl⟩ := Nat.exists_eq_add_of_le hge
        exact mem_of_getElem? (by rw [getElem?_drop]; exact hp)
      simpa using hzero p hmem

theorem Swept.skip (h : Swept c s l n r)
    (hp : s.fd_array[r]? = some p) (hf : ¬ flagged c l p) : Swept c s l n (r + 1) := by
  obtain ⟨hlt, rfl⟩ := List.getElem?_eq_some_iff.1 hp
  refine ⟨fun i q h1 hi hq => ?_, ?_⟩
  · rcases Nat.lt_succ_iff_lt_or_eq.1 hi with hi | rfl
    · exact h.before i q h1 hi hq
    · obtain rfl := some.inj (hp.symm.trans hq)
      exact hf
  · have hc := h.count
    rw [drop_eq_getElem_cons hlt, countP_cons_of_neg (by simpa using hf)] at hc
    exact hc

theorem Swept.put (h : Swept c s l n r) (hp : s.fd_array[r]? = some p) (hf : flagged c l p) {arr : List PollFd}
    (harr : s'.fd_array = arr) (hsame : arr = s.fd_array.eraseIdx r) : Swept c s' l (n - 1) r := by
  obtain ⟨hlt, rfl⟩ := List.getElem?_eq_some_iff.1 hp
  subst hsame
  refine ⟨fun i q h1 hi hq => ?_, ?_⟩
  · rw [harr, getElem?_eraseIdx_of_lt hi] at hq
    exact h.before i q h1 hi hq
  · have hc := h.count
    rw [drop_eq_getElem_cons hlt, countP_cons_of_pos (by simpa using hf)] at hc
    have hdrop : (s.fd_array.eraseIdx r).drop r = s.fd_array.drop (r + 1) := by
      rw [eraseIdx_eq_take_drop_succ, drop_append_of_le_length (by
        rw [length_take]
        omega), drop_of_length_le (by
        rw [length_take]
        omega), nil_append]
    rw [harr, hdrop]
    omega

variable (fds) in
/-- **The entries of the array are gone through**, and those that are ready are dispatched. -/
theorem sweep_done (hc : c.Sound) {l : List ℤ} {n r : ℕ} (hq : QuietRun c s log)
    (hph : s.phase = .sweep l n r) :
    ∃ s' log', Round c fds s log s' log' ∧ s'.phase = .idle ∧ s'.pipe = s.pipe ∧
      s'.calls = s.calls ∧ (∀ p ∈ s'.fd_array, p ∈ s.fd_array) ∧
      (Swept c s l n r → ∀ i p, 1 ≤ i → s'.fd_array[i]? = some p → ¬ flagged c l p) := by
  obtain ⟨m, hm⟩ : ∃ m, s.fd_array.length - r ≤ m := ⟨_, le_rfl⟩
  have hne : s.phase ≠ .idle := by
    rw [hph]
    exact fun h => by cases h
  have hquiet : Quiet c s log .step := fun next h => by
    rw [hph] at h
    cases h
  obtain ⟨buf, pip, held, hk⟩ := inv_run hc (quiet_inv hc hq).runs
  induction m generalizing s log l n r buf pip held with
  | zero =>
    have hend : s.fd_array[r]? = none ∨ n = 0 := .inl (List.getElem?_eq_none_iff.2 (by omega))
    have heq : step c s = _ := sweep_end hph hend
    exact ⟨_, _, round_one hne heq, rfl, rfl, rfl, fun p hp => hp, fun hsw i p h1 hp => hsw.finish hend h1 hp⟩
  | succ m ih =>
    by_cases hend : s.fd_array[r]? = none ∨ n = 0
    · have heq : step c s = _ := sweep_end hph hend
      exact ⟨_, _, round_one hne heq, rfl, rfl, rfl, fun p hp => hp, fun hsw i p h1 hp => hsw.finish hend h1 hp⟩
    obtain ⟨hr, hn⟩ := not_or.1 hend
    obtain ⟨p, hp⟩ := ne_none_iff_exists'.1 hr
    have hlt : r < s.fd_array.length := (List.getElem?_eq_some_iff.1 hp).1
    by_cases hf : flagged c l p
    · obtain ⟨s₁, l', heq, hrem, harr, hl⟩ := sweep_put hk hph hp hn hf
      have hrun := hq.then .step hne hquiet heq
      obtain ⟨buf', pip', held', hk'⟩ := inv_run hc (quiet_inv hc hrun).runs
      obtain ⟨s', log', hround, hidle, hpipe, hcalls, hsub, hfin⟩ :=
        ih hrun rfl (by
          show s₁.fd_array.length - r ≤ m
          rw [harr, length_eraseIdx_of_lt hlt]
          omega) (fun h => by cases h) (fun _ h => by cases h) buf' pip' held' hk'
      refine ⟨s', log', (round_one hne heq).append hround, hidle, hpipe.trans hrem.pipe,
        hcalls.trans hrem.calls, fun q hq => ?_, fun hsw i q h1 hq => ?_⟩
      · have hmem : q ∈ s₁.fd_array := hsub q hq
        rw [harr] at hmem
        exact mem_of_mem_eraseIdx hmem
      · rw [← flagged_congr hl]
        refine hfin ?_ i q h1 hq
        have hput : Swept c { s₁ with phase := .sweep l' (n - 1) r } l (n - 1) r :=
          hsw.put hp hf harr rfl
        exact ⟨fun i q h1 hi hq hf => hput.before i q h1 hi hq ((flagged_congr hl q).1 hf), by
          simpa only [flagged_congr hl] using hput.count⟩
    · obtain ⟨l', heq, hl⟩ := sweep_skip hph hp hn hf
      have hrun := hq.then .step hne hquiet heq
      obtain ⟨buf', pip', held', hk'⟩ := inv_run hc (quiet_inv hc hrun).runs
      obtain ⟨s', log', hround, hidle, hpipe, hcalls, hsub, hfin⟩ :=
        ih hrun rfl (by
          show s.fd_array.length - (r + 1) ≤ m
          omega) (fun h => by cases h) (fun _ h => by cases h) buf' pip' held' hk'
      refine ⟨s', log', (round_one hne heq).append hround, hidle, hpipe, hcalls, hsub, fun hsw i q h1 hq => ?_⟩
      rw [← flagged_congr hl]
      refine hfin ?_ i q h1 hq
      have hskip := hsw.skip hp hf
      exact ⟨fun i q h1 hi hq hf => hskip.before i q h1 hi hq ((flagged_congr hl q).1 hf), by
        simpa only [flagged_congr hl] using hskip.count⟩

variable (fds) in
theorem commands_done (hc : c.Sound) {l : List ℤ} {next : Phase} (hq : QuietRun c s log)
    (hph : s.phase = .commands l next) :
    ∃ s' log', Round c fds s log s' log' ∧ s'.phase = next ∧ s'.pipe = s.pipe ∧ s'.calls = s.calls := by
  obtain ⟨buf, pip, held, hk⟩ := inv_run hc (quiet_inv hc hq).runs
  have hn := (quiet_inv hc hq).noFires
  induction buf generalizing s log l held with
  | nil =>
    have hb := hk.buff
    rw [hph] at hb
    obtain rfl : l = [] := hb.ne_nil.2 rfl
    have hne : s.phase ≠ .idle := by rw [hph]; exact fun h => by cases h
    have heq : exec c s .step = some ({ s with phase := next }, []) := by simp only [exec, step, hph]
    exact ⟨_, _, round_one hne heq, rfl, rfl, rfl⟩
  | cons cmd buf ih =>
    have hb := hk.buff
    rw [hph] at hb
    replace hb : Spells c.type.code l (cmd :: buf) := hb
    have hne : s.phase ≠ .idle := by rw [hph]; exact fun h => by cases h
    have hquiet : Quiet c s log .step := fun next h => by
      rw [hph] at h
      cases h
    cases hb with
    | add rest =>
      obtain ⟨s₁, heq, ha⟩ := step_add hk hc hph
      have hrun := hq.then .step hne hquiet heq
      obtain ⟨s', log', hround, hnext, hpipe, hcalls⟩ :=
        ih hrun rfl _ (hk.added hph ha) (quiet_inv hc hrun).noFires
      exact ⟨s', log', (round_one hne heq).append hround, hnext, hpipe.trans ha.pipe, hcalls.trans ha.calls⟩
    | fire rest => exact absurd mem_cons_self (hk.no_fire hn _)

theorem event_step (hc : c.Sound) {buf pip : List Command} {held : List FdMap}
    (hk : Kept c s log buf pip held) {fd : ℤ} {todo : List ℤ} (hph : s.phase = .events (fd :: todo))
    (hctl : fd ≠ c.control_pipe) :
    ∃ s₁ es b, exec c s .step = some ({ s₁ with phase := .events todo }, es) ∧ Removed c s s₁ held fd b := by
  have hok := hk.phase
  rw [hph] at hok
  rcases hok with ⟨hm, _⟩ | ⟨hm, _⟩
  · obtain ⟨s₁, b, heq, ⟨_, hrem⟩ | ⟨hctl', _⟩⟩ := epoll_step hk hm hph
    · exact ⟨s₁, _, b, heq, hrem⟩
    · exact absurd hctl' hctl
  · obtain ⟨s₁, heq, hrem, _⟩ := kqueue_step hk hc hm hph
    exact ⟨s₁, _, true, heq, hrem⟩

variable (fds) in
/-- **The events are gone through**, and their descriptors are dispatched. -/
theorem events_done (hc : c.Sound) {todo : List ℤ} (hq : QuietRun c s log)
    (hph : s.phase = .events todo) (hctl : c.control_pipe ∉ todo) :
    ∃ s' log', Round c fds s log s' log' ∧ s'.phase = .idle ∧ s'.pipe = s.pipe ∧ s'.calls = s.calls ∧
      (∀ fd ∈ watched c s', fd ∈ watched c s) ∧ ∀ fd ∈ todo, fd ∉ watched c s' := by
  induction todo generalizing s log with
  | nil =>
    have hne : s.phase ≠ .idle := by rw [hph]; exact fun h => by cases h
    have heq : exec c s .step = some ({ s with phase := .idle }, []) := by simp only [exec, step, hph]
    exact ⟨_, _, round_one hne heq, rfl, rfl, rfl, fun _ h => h, fun _ h => by cases h⟩
  | cons fd todo ih =>
    obtain ⟨buf, pip, held, hk⟩ := inv_run hc (quiet_inv hc hq).runs
    have hne : s.phase ≠ .idle := by rw [hph]; exact fun h => by cases h
    have hquiet : Quiet c s log .step := fun next h => by
      rw [hph] at h
      cases h
    have hfd : fd ≠ c.control_pipe := fun h => hctl (h ▸ mem_cons_self)
    obtain ⟨s₁, es, b, heq, hrem⟩ := event_step hc hk hph hfd
    obtain ⟨s', log', hround, hidle, hpipe, hcalls, hsub, hgone⟩ :=
      ih (hq.then .step hne hquiet heq) rfl fun h => hctl (mem_cons_of_mem _ h)
    have hnot : fd ∉ watched c s₁ := by
      rw [hrem.watching.mem_watched hfd, ← filter_fd, mem_filter]
      simp
    have hless : ∀ fd' ∈ watched c s₁, fd' ∈ watched c s := by
      intro fd' hfd'
      rw [hrem.watching.watched, mem_append, ← filter_fd, mem_filter] at hfd'
      rw [hk.watching.watched, mem_append]
      exact hfd'.imp_right And.left
    refine ⟨s', log', (round_one hne heq).append hround, hidle, hpipe.trans hrem.pipe,
      hcalls.trans hrem.calls, fun fd' h => hless fd' (hsub fd' h), fun fd' hfd' => ?_⟩
    rcases mem_cons.1 hfd' with rfl | hfd'
    · exact fun h => hnot (hsub _ h)
    · exact hgone fd' hfd'

variable (fds) in
theorem scan_done (hc : c.Sound) {todo evs : List ℤ} (hq : QuietRun c s log)
    (hph : s.phase = .scan todo evs) (hctl : c.control_pipe ∉ todo) :
    ∃ log', Round c fds s log { s with phase := .events evs } log' ∧
      QuietRun c { s with phase := .events evs } log' := by
  induction todo generalizing s log with
  | nil =>
    have hne : s.phase ≠ .idle := by rw [hph]; exact fun h => by cases h
    have hquiet : Quiet c s log .step := fun next h => by
      rw [hph] at h
      cases h
    have heq : exec c s .step = some ({ s with phase := .events evs }, []) := by
      simp only [exec, step, hph]
    exact ⟨_, round_one hne heq, hq.then .step hne hquiet heq⟩
  | cons fd todo ih =>
    obtain ⟨buf, pip, held, hk⟩ := inv_run hc (quiet_inv hc hq).runs
    have hok := hk.phase
    rw [hph] at hok
    have hknown : Known c s fd := hok.2 fd mem_cons_self
    have hmap : get_fd_map c s fd = some (s.fd_hash fd) := if_pos ⟨hknown.1, hknown.2.1⟩
    have hne : s.phase ≠ .idle := by rw [hph]; exact fun h => by cases h
    have hquiet : Quiet c s log .step := fun next h => by
      rw [hph] at h
      cases h
    have hfd : (s.fd_hash fd).fd ≠ c.control_pipe := by
      have h0 := hc.nonneg
      rcases hknown.2.2 with h | h
      · rw [h]
        exact fun he => hctl (he ▸ mem_cons_self)
      · omega
    have heq : exec c s .step = some ({ s with phase := .scan todo evs }, []) := by
      simp only [exec, step, hph, hmap, if_neg hfd]
    obtain ⟨log', hround, hrun⟩ := ih (hq.then .step hne hquiet heq) rfl fun h =>
      hctl (mem_cons_of_mem _ h)
    exact ⟨log', (round_one hne heq).append hround, hrun⟩

end Serving

section Existence

variable {buf pip : List Command} {held : List FdMap} {ready : List ℤ}

theorem wait_pipe : (wait c s ready).pipe = s.pipe := by
  cases hm : c.poll_method <;> simp only [wait, hm]

theorem wait_array : (wait c s ready).fd_array.map PollFd.fd = s.fd_array.map PollFd.fd := by
  cases hm : c.poll_method <;> simp only [wait, hm, List.map_map, Function.comp_def]

theorem wait_control (h : Kept c s log buf pip held) (hm : c.poll_method = .poll ∨ c.poll_method = .select)
    (hctl : c.control_pipe ∈ ready) : ∃ l n, (wait c s ready).phase = .control (.sweep l n 1) := by
  have harr := h.watching.array hm
  rcases hm with hm | hm
  · cases hx : s.fd_array with
    | nil =>
      rw [hx] at harr
      cases harr
    | cons p l =>
      rw [hx] at harr
      have hp : p.fd = c.control_pipe := (cons.inj harr).1
      simp [wait, hm, hx, hp, hctl]
  · have hset : (c.control_pipe, ReactorType.IN) ∈ s.sets.filter (·.1 ∈ ready) := by
      rw [mem_filter, h.watching.sets (by simp [hm]), Config.pipes_eq (by simp [hm])]
      exact ⟨mem_cons_self, by simpa using hctl⟩
    simp only [wait, hm, if_pos hset]
    exact ⟨_, _, rfl⟩

theorem wait_sweep (h : Kept c s log buf pip held) (hm : c.poll_method = .poll ∨ c.poll_method = .select)
    (hctl : c.control_pipe ∉ ready) :
    ∃ l n, (wait c s ready).phase = .sweep l n 1 ∧ Swept c (wait c s ready) l n 1 ∧
      ∀ p ∈ (wait c s ready).fd_array, p.fd ∈ ready → p.fd ∈ watched c s → flagged c l p := by
  have harr := h.watching.array hm
  rcases hm with hm | hm
  · have hns : c.poll_method ≠ .select := by simp [hm]
    have hhead : ((s.fd_array.map fun p => { p with revents := decide (p.fd ∈ ready) }).head?.elim false
        (·.revents)) = false := by
      cases hx : s.fd_array with
      | nil => rfl
      | cons p l =>
        rw [hx] at harr
        have hp : p.fd = c.control_pipe := (cons.inj harr).1
        simpa [hp] using hctl
    refine ⟨[], ((s.fd_array.map fun p => { p with revents := decide (p.fd ∈ ready) }).filter
      (·.revents)).length, ?_, ⟨fun i p h1 hi => by omega, ?_⟩, ?_⟩
    · simp only [wait, hm, hhead, Bool.false_eq_true, if_false]
    · have hflagged : (fun p => decide (flagged c [] p)) = PollFd.revents := by
        funext p
        simp [flagged, hns]
      rw [hflagged, ← countP_eq_length_filter]
      simp only [wait, hm]
      exact (drop_sublist 1 _).countP_le
    · intro p hp hin _
      simp only [wait, hm] at hp
      obtain ⟨q, _, rfl⟩ := List.mem_map.1 hp
      rw [flagged, if_neg hns]
      exact decide_eq_true hin
  · have hset : (c.control_pipe, ReactorType.IN) ∉ s.sets.filter (·.1 ∈ ready) := by
      rw [mem_filter]
      rintro ⟨_, hin⟩
      exact hctl (of_decide_eq_true hin)
    refine ⟨(s.sets.filter (·.1 ∈ ready)).map Prod.fst, (s.sets.filter (·.1 ∈ ready)).length, ?_,
      ⟨fun i p h1 hi => by omega, ?_⟩, ?_⟩
    · simp only [wait, hm, if_neg hset]
    · simp only [wait, hm, flagged, if_true]
      -- each of them is in the set, and none is there twice
      have hdrop : (s.fd_array.drop 1).map PollFd.fd = held.map FdMap.fd := by
        rw [map_drop, harr]
        rfl
      have hcount : (s.fd_array.drop 1).countP (fun p => decide
          (p.fd ∈ (s.sets.filter (·.1 ∈ ready)).map Prod.fst)) =
          ((held.map FdMap.fd).filter (· ∈ (s.sets.filter (·.1 ∈ ready)).map Prod.fst)).length := by
        rw [← hdrop, ← countP_eq_length_filter, countP_map]
        rfl
      rw [hcount]
      have hnd := h.table.nodup_held.filter (· ∈ (s.sets.filter (·.1 ∈ ready)).map Prod.fst)
      have hsub := subperm_of_subset hnd fun fd hfd => of_decide_eq_true (mem_filter.1 hfd).2
      simpa using hsub.length_le
    · intro p hp hin hw
      rw [flagged, if_pos hm]
      rw [watched, if_neg (by simp [hm])] at hw
      obtain ⟨x, hx, hfd⟩ := List.mem_map.1 hw
      exact List.mem_map.2 ⟨x, mem_filter.2 ⟨hx, by simpa [hfd] using hin⟩, hfd⟩

theorem watched_nodup (h : Kept c s log buf pip held) : (watched c s).Nodup := by
  rw [h.watching.watched, Config.pipes]
  split
  · exact h.table.nodup_held
  · exact h.table.nodup_control

variable (fds) in
theorem drained (hc : c.Sound) (hs : Script c ins) (hp : Played c ins s log) :
    ∃ s' log', Round c fds s log s' log' ∧ s'.phase = .idle ∧ s'.pipe = [] := by
  by_cases hpipe : s.pipe = []
  · exact ⟨s, log, .init, hp.idle, hpipe⟩
  have hm : c.poll_method = .poll ∨ c.poll_method = .select := of_not_not fun h => hpipe (hp.direct h)
  have hk : c.poll_method ≠ .kqueue := by
    rcases hm with hm | hm <;> simp [hm]
  obtain ⟨buf, pip, held, hkept⟩ := inv_run hc (quiet_inv hc hp.quiet).runs
  have hw : c.control_pipe ∈ watched c s := by
    rw [hkept.watching.watched, Config.pipes_eq hk]
    exact mem_cons_self
  have hpossible : Possible c s (.wait [c.control_pipe]) :=
    ⟨hp.idle, nodup_singleton _, fun fd hfd => mem_singleton.1 hfd ▸ hw,
      fun _ => ⟨fun _ => hpipe, fun _ => mem_cons_self⟩⟩
  obtain ⟨l, n, hph⟩ := @wait_control c s log buf pip held [c.control_pipe] hkept hm mem_cons_self
  have hround₁ : Round c fds s log (wait c s [c.control_pipe]) (log ++ []) :=
    round_op _ hpossible (fun fd hfd => .inr (mem_singleton.1 hfd)) rfl
  have hne : (wait c s [c.control_pipe]).phase ≠ .idle := by rw [hph]; exact fun h => by cases h
  have hlen := hp.fits hs
  have heq : exec c (wait c s [c.control_pipe]) .step =
      some ({ wait c s [c.control_pipe] with phase := .commands s.pipe (.sweep l n 1), pipe := [] }, []) := by
    simp only [exec, step, hph, wait_pipe, take_of_length_le hlen, drop_of_length_le hlen]
  have hround₂ : Round c fds _ _ _ _ := Run.append hround₁ (round_one hne heq)
  obtain ⟨put, hi⟩ := round_inv hc hp.quiet hp.idle hlen hround₂
  obtain ⟨s₃, log₃, hround₃, hph₃, hpipe₃, _⟩ := commands_done fds hc hi.quiet rfl
  have hround₃' := Run.append hround₂ hround₃
  obtain ⟨put₃, hi₃⟩ := round_inv hc hp.quiet hp.idle hlen hround₃'
  obtain ⟨s₄, log₄, hround₄, hidle, hpipe₄, _⟩ := sweep_done fds hc hi₃.quiet hph₃
  exact ⟨s₄, log₄, Run.append hround₃' hround₄, hidle, hpipe₄.trans hpipe₃⟩

theorem served (hc : c.Sound) (hq : QuietRun c s log) (hidle : s.phase = .idle) (hpipe : s.pipe = [])
    (hctl : c.control_pipe ∉ fds) : ∃ s' log', Round c fds s log s' log' ∧ Settled c fds s' := by
  obtain ⟨buf, pip, held, hk⟩ := inv_run hc (quiet_inv hc hq).runs
  obtain ⟨ready, hready⟩ : ∃ ready, ready = (watched c s).filter (· ∈ fds) := ⟨_, rfl⟩
  have hmem : ∀ fd, fd ∈ ready ↔ fd ∈ watched c s ∧ fd ∈ fds := fun fd => by
    rw [hready, mem_filter, decide_eq_true_eq]
  have hctl' : c.control_pipe ∉ ready := fun h => hctl ((hmem _).1 h).2
  have hpossible : Possible c s (.wait ready) :=
    ⟨hidle, hready ▸ (watched_nodup hk).filter _, fun fd hfd => ((hmem fd).1 hfd).1,
      fun _ => ⟨fun h => absurd h hctl', fun h => absurd hpipe h⟩⟩
  have hround : Round c fds s log (wait c s ready) (log ++ []) :=
    round_op _ hpossible (fun fd hfd => .inl ((hmem fd).1 hfd).2) rfl
  have hrun : QuietRun c (wait c s ready) (log ++ []) := hq.then (.wait ready) hpossible trivial rfl
  obtain ⟨s', log', hround', hidle', hpipe', hgone⟩ : ∃ s' log',
      Round c fds (wait c s ready) (log ++ []) s' log' ∧ s'.phase = .idle ∧
        s'.pipe = (wait c s ready).pipe ∧ ∀ fd ∈ fds, fd ∉ watched c s' := by
    by_cases hm : c.poll_method = .poll ∨ c.poll_method = .select
    · obtain ⟨l, n, hph, hswept, hflag⟩ := wait_sweep hk hm hctl'
      obtain ⟨s', log', hround', hidle', hpipe', _, hsub, hfin⟩ := sweep_done fds hc hrun hph
      refine ⟨s', log', hround', hidle', hpipe', fun fd hfd hin => ?_⟩
      have hlen : s.pipe.length ≤ BUFF_SIZE := by
        rw [hpipe]
        exact Nat.zero_le _
      obtain ⟨put, hi⟩ := round_inv hc hq hidle hlen (Run.append hround hround')
      obtain ⟨buf', pip', held', hk'⟩ := inv_run hc (quiet_inv hc hi.quiet).runs
      have hne : fd ≠ c.control_pipe := fun h => hctl (h ▸ hfd)
      rw [hk'.watching.mem_watched hne] at hin
      obtain ⟨i, hi⟩ := getElem?_of_mem hin
      have harr := hk'.watching.array hm
      have hplace : (s'.fd_array.map PollFd.fd)[i + 1]? = some fd := by
        rw [harr, getElem?_cons_succ, hi]
      rw [getElem?_map] at hplace
      obtain ⟨p, hp, rfl⟩ := map_eq_some_iff.1 hplace
      have hp' := hsub p (mem_of_getElem? hp)
      have hw : p.fd ∈ watched c s := by
        have hpm := List.mem_map_of_mem (f := PollFd.fd) hp'
        rw [wait_array, hk.watching.array hm] at hpm
        rcases mem_cons.1 hpm with h | h
        · exact absurd h hne
        · exact (hk.watching.mem_watched hne).2 h
      exact hfin hswept (i + 1) p (Nat.le_add_left _ _) hp (hflag p hp' ((hmem _).2 ⟨hw, hfd⟩) hw)
    · -- with the kernel's own set
      obtain ⟨s₁, log₁, hround₁, hph, hpipe₁, hwatched, hrun₁⟩ : ∃ s₁ log₁,
          Round c fds (wait c s ready) (log ++ []) s₁ log₁ ∧ s₁.phase = .events ready ∧
            s₁.pipe = (wait c s ready).pipe ∧ watched c s₁ = watched c s ∧ QuietRun c s₁ log₁ := by
        cases hm' : c.poll_method with
        | poll => exact absurd (.inl hm') hm
        | select => exact absurd (.inr hm') hm
        | epoll =>
          have hph : (wait c s ready).phase = .scan ready ready := by simp only [wait, hm']
          obtain ⟨log₁, hround₁, hrun₁⟩ := scan_done fds hc hrun hph hctl'
          refine ⟨_, log₁, hround₁, rfl, rfl, ?_, hrun₁⟩
          simp [watched, wait, hm']
        | kqueue =>
          refine ⟨_, _, .init, ?_, rfl, ?_, hrun⟩
          · simp only [wait, hm']
          · simp [watched, wait, hm']
      obtain ⟨s', log', hround', hidle', hpipe', _, hsub, hgone⟩ :=
        events_done fds hc hrun₁ hph hctl'
      refine ⟨s', log', Run.append hround₁ hround', hidle', hpipe'.trans hpipe₁, fun fd hfd hin => ?_⟩
      exact hgone fd ((hmem fd).2 ⟨hwatched ▸ hsub fd hin, hfd⟩) hin
  exact ⟨s', log', Run.append hround hround', hidle', hpipe'.trans (wait_pipe.trans hpipe), hgone⟩

/-- **Every sequence can be played to its end.** -/
theorem plays_exists (hc : c.Sound) (hs : Script c ins) : ∃ s log, Plays c ins s log := by
  induction hs with
  | nil => exact ⟨_, _, .nil⟩
  | @submit ins e script free few ih =>
    obtain ⟨s, log, hp⟩ := ih
    have hplayed := plays_table hc script hp
    obtain ⟨buf, pip, held, hk⟩ := inv_run hc (quiet_inv hc hplayed.quiet).runs
    obtain ⟨s₁, es₁, h₁, _⟩ := kept_submit hk (e := e) (by
      show _ ∨ _
      rw [hplayed.pending]
      exact free)
    exact ⟨_, _, .submit hp h₁ rfl⟩
  | @ready ins fds script clients ih =>
    obtain ⟨s, log, hp⟩ := ih
    have hplayed := plays_table hc script hp
    obtain ⟨s₁, log₁, hround₁, hidle, hpipe⟩ := drained fds hc script hplayed
    obtain ⟨put, hi⟩ := round_inv hc hplayed.quiet hplayed.idle (hplayed.fits script) hround₁
    obtain ⟨s₂, log₂, hround₂, hset⟩ := served hc hi.quiet hidle hpipe clients
    exact ⟨s₂, log₂, .ready hp (Run.append hround₁ hround₂) hset⟩

end Existence

section Alike

theorem Kept.unwatched {buf pip : List Command} {held : List FdMap} {fd : ℤ}
    (h : Kept c s log buf pip held) (hfd : fd ≠ c.control_pipe) (hw : fd ∈ watched c s) :
    (pending log).filter (·.fd = fd) ≠ [] := by
  rw [h.watching.mem_watched hfd] at hw
  obtain ⟨e, he, rfl⟩ := List.mem_map.1 hw
  intro hnil
  exact filter_eq_nil_iff.1 hnil e (h.table.mem.2 (.inr (.inr he))) (by simp)

/-- **One-shot registration**: in every run without fires the submissions of a descriptor are dispatched
in order and each at most once, as they were submitted, a descriptor that was dispatched is not watched
until it is submitted again, and no step fails; and what is dispatched for a sequence of submissions and
ready sets is what the table says, whatever the back-end, so that two back-ends dispatch the same. -/
theorem one_shot (hc : c.Sound) (hr : QuietRun c s log) : (∀ fd, ∃ rest, rest.length ≤ 1 ∧
      (submitted log).filter (·.fd = fd) = (dispatched log).filter (·.fd = fd) ++ rest ∧
      (fd ≠ c.control_pipe → fd ∈ watched c s → rest ≠ [])) ∧
    (∀ op, Possible c s op → Quiet c s log op → ∃ s' es, exec c s op = some (s', es)) ∧
    ∀ ins, Script c ins → (∃ s log, Plays c ins s log) ∧
      (∀ s log, Plays c ins s log → (dispatched log).Perm (table c.max_fd_no ins).2) ∧
      ∀ c' s log s' log', c'.Sound → c'.max_fd_no = c.max_fd_no → Script c' ins →
        Plays c ins s log → Plays c' ins s' log' → (dispatched log).Perm (dispatched log') := by
  have hi := quiet_inv hc hr
  obtain ⟨buf, pip, held, hk⟩ := inv_run hc hi.runs
  refine ⟨fun fd => ⟨(pending log).filter (·.fd = fd), ?_, ?_, fun hfd hw => hk.unwatched hfd hw⟩, ?_, ?_⟩
  · exact hk.table.proper.standing_le fd
  · exact hk.table.proper.accounted fd
  · intro op hp hq
    obtain ⟨s', es, heq, -⟩ := inv_exec hc (inv_run hc hi.runs) hp (quiet_orderly hk hi.calm hq)
    exact ⟨s', es, heq⟩
  · intro ins hs
    refine ⟨plays_exists hc hs, fun s log hp => (plays_table hc hs hp).dispatched, ?_⟩
    intro c' s log s' log' hc' hmax hs' hp hp'
    have h := (plays_table hc hs hp).dispatched
    have h' := (plays_table hc' hs' hp').dispatched
    rw [hmax] at h'
    exact h.trans h'.symm

/-- With epoll a descriptor is submitted and found ready. -/
theorem one_shot_task : ∃ s log, QuietRun (reads .epoll) s log ∧ dispatched log = [task 5] ∧
    (∃ rest, (submitted log).filter (·.fd = 5) = (dispatched log).filter (·.fd = 5) ++ rest) ∧
    (5 : ℤ) ∉ watched (reads .epoll) s := by
  have h₀ : QuietRun (reads .epoll) (init_io_wait (reads .epoll)) [] := .init
  have h₁ := h₀.then (.submit_task (task 5)) trivial (.inr ⟨inRange_task _, not_mem_nil⟩) rfl
  have h₂ := h₁.then (.announce 0) Nat.zero_lt_one trivial rfl
  have h₃ := h₂.then (.wait [5]) ⟨rfl, by decide, by decide, fun _ => by decide⟩ trivial rfl
  have h₄ := h₃.then .step (fun h => by cases h) (fun _ h => by cases h) rfl
  have h₅ := h₄.then .step (fun h => by cases h) (fun _ h => by cases h) rfl
  have h₆ := h₅.then .step (fun h => by cases h) (fun _ h => by cases h) rfl
  obtain ⟨rest, -, hrest, -⟩ := (one_shot (reads_sound _) h₆).1 5
  exact ⟨_, _, h₆, rfl, ⟨rest, hrest⟩, by decide⟩

/-- A reactor that writes with kqueue. -/
def writes : Config := ⟨.kqueue, .OUT, 2048, 3⟩

/-- **kqueue does not forget a descriptor that it watches for output**: one submission is dispatched
twice, the second time without its descriptor. -/
theorem dispatched_twice : ∃ s log, AnyRun writes s log ∧ submitted log = [task 5] ∧
    dispatched log = [task 5, { task 5 with fd := -1 }] ∧ (5 : ℤ) ∈ watched writes s := by
  have h₀ : AnyRun writes (init_io_wait writes) [] := .init
  have h₁ := h₀.then (.submit_task (task 5)) trivial rfl
  have h₂ := h₁.then (.announce 0) Nat.zero_lt_one rfl
  have h₃ := h₂.then (.wait [5]) ⟨rfl, by decide, by decide, fun _ => by decide⟩ rfl
  have h₄ := h₃.then .step (fun h => by cases h) rfl
  have h₅ := h₄.then .step (fun h => by cases h) rfl
  have h₆ := h₅.then (.wait [5]) ⟨rfl, by decide, by decide, fun _ => by decide⟩ rfl
  have h₇ := h₆.then .step (fun h => by cases h) rfl
  exact ⟨_, _, h₇, rfl, rfl, by decide⟩

end Alike

end OpenSips.Reactor
