import OpenSips.Reactor.Commands

/-!
# OpenSips.Reactor.Backends — the back-ends dispatch alike

Without fires every submission is dispatched at most once, and what is dispatched is what a table of
registrations says, for all back-ends.
-/

namespace OpenSips.Reactor

open Lib Lib.OneShot List Option

/-- No fires: a descriptor is submitted when it is not registered already (or is refused), and what is
read from the pipe fits into the buffer. -/
def Quiet (c : Config) (s : IoWait) (log : List Effect) : Op → Prop
  | .submit_task e => (e.fd < 0 ∨ c.max_fd_no < e.fd) ∨
      InRange c e.fd ∧ e.fd ∉ (pending log).map FdMap.fd
  | .fire_fd _ _ => False
  | .step => ∀ next, s.phase = .control next → s.pipe.length ≤ BUFF_SIZE
  | _ => True

abbrev QuietRun (c : Config) : IoWait → List Effect → Prop :=
  Run (exec c) (fun s log op => Possible c s op ∧ Quiet c s log op) (fun _ log _ es => log ++ es)
    (init_io_wait c, [])

theorem QuietRun.then {c : Config} {s s' : IoWait} {log es : List Effect} (hr : QuietRun c s log)
    (op : Op) (hp : Possible c s op) (hq : Quiet c s log op) (heq : exec c s op = some (s', es)) :
    QuietRun c s' (log ++ es) :=
  hr.step ⟨hp, hq⟩ heq

def Phase.reports (c : Config) (arr : List PollFd) : Phase → List ℤ
  | .idle => []
  | .scan _ evs => evs
  | .control next => next.reports c arr
  | .commands _ next => next.reports c arr
  | .sweep l _ _ => if c.poll_method = .select then l else (arr.filter (·.revents)).map PollFd.fd
  | .events todo => todo

def reports (c : Config) (s : IoWait) : List ℤ := s.phase.reports c s.fd_array

/-- With epoll nothing comes through the pipe, and what was reported is still watched. -/
structure Calm (c : Config) (s : IoWait) : Prop where
  pipe : s.pipe = []
  buff : s.phase.buff = []
  nodup : (reports c s).Nodup
  watched : ∀ fd ∈ reports c s, fd ∈ watched c s

variable {c : Config} {s s' : IoWait} {log es : List Effect} {buf pip : List Command} {held : List FdMap}
  {fd : ℤ}

section Quiet

structure QuietStep (c : Config) (s s' : IoWait) (log es : List Effect) : Prop where
  calls : s'.calls = s.calls
  pipe : s'.pipe.length ≤ s.pipe.length
  fewer : ∀ fd ∈ reports c s', fd ∈ reports c s
  silent : written es = []
  uses : events es = (dispatched es).map .use
  reported : ∀ e ∈ dispatched es, e.fd ∈ reports c s

def NoFires (log : List Effect) : Prop := ∀ fd, .fire fd ∉ written log

theorem NoFires.left {log es : List Effect} (h : NoFires (log ++ es)) : NoFires log := by
  intro fd hfd
  refine h fd ?_
  rw [written_append]
  exact mem_append_left _ hfd

theorem Kept.no_fire (h : Kept c s log buf pip held) (hn : NoFires log) : ∀ fd, .fire fd ∉ buf ++ pip := by
  intro fd hfd
  refine hn fd ?_
  rw [h.written, append_assoc]
  exact mem_append_right _ hfd

theorem Kept.nothing (h : Kept c s log buf pip held) (hn : NoFires log) (hm : c.poll_method = .epoll) :
    buf ++ pip = [] := by
  cases hb : buf ++ pip with
  | nil => rfl
  | cons cmd cs =>
    have hmem : cmd ∈ buf ++ pip := by rw [hb]; exact mem_cons_self
    cases cmd with
    | fire fd => exact absurd hmem (h.no_fire hn fd)
    | add e =>
      have hadds := h.direct (.inl hm)
      rw [hb] at hadds
      exact absurd hadds (cons_ne_nil _ _)

theorem quiet_orderly (h : Kept c s log buf pip held)
    (hcalm : c.poll_method = .epoll → Calm c s) {op : Op} (hq : Quiet c s log op) : Orderly c s log op := by
  cases op with
  | submit_task e => exact hq
  | fire_fd fd junk => exact hq.elim
  | announce k => trivial
  | wait ready => trivial
  | step =>
    refine ⟨hq, fun hm fd hfd hin => ?_⟩
    have hc := hcalm hm
    obtain ⟨e, he, hfde⟩ := List.mem_map.1 hin
    have hw : fd ∈ watched c s := by
      refine hc.watched fd ?_
      cases hph : s.phase with
      | commands l next =>
        have hb := hc.buff
        rw [hph] at hb
        replace hb : l = [] := hb
        rw [hph, hb] at hfd
        cases hfd
      | events todo =>
        cases todo with
        | nil =>
          rw [hph] at hfd
          cases hfd
        | cons fd' todo =>
          rw [hph] at hfd
          cases hfd
          rw [reports, hph]
          exact mem_cons_self
      | _ =>
        rw [hph] at hfd
        cases hfd
    have hr : InRange c fd := hfde ▸ h.table.range e (h.table.mem.2 (.inl he))
    obtain ⟨e', he', hfde'⟩ := List.mem_map.1 ((h.watching.mem_watched hr.ne).1 hw)
    exact h.table.disjoint.2 e (mem_append_left _ he) e' he' (hfde.trans hfde'.symm)

theorem Phase.reports_mono {arr arr' : List PollFd} (ph : Phase)
    (h : ∀ p ∈ arr', p.revents → p ∈ arr) : ∀ fd ∈ ph.reports c arr', fd ∈ ph.reports c arr := by
  induction ph with
  | idle => exact fun _ h => h
  | scan todo evs => exact fun _ h => h
  | control next ih => exact ih
  | commands l next ih => exact ih
  | sweep l n r =>
    intro fd hfd
    simp only [Phase.reports] at hfd ⊢
    by_cases hm : c.poll_method = .select
    · rwa [if_pos hm] at hfd ⊢
    · rw [if_neg hm] at hfd ⊢
      obtain ⟨p, hp, rfl⟩ := List.mem_map.1 hfd
      obtain ⟨hp, hrev⟩ := mem_filter.1 hp
      exact List.mem_map_of_mem (mem_filter.2 ⟨h p hp hrev, hrev⟩)
  | events todo => exact fun _ h => h

theorem reports_sweep {arr : List PollFd} {l l' : List ℤ} {n n' r r' : ℕ}
    (hl : c.poll_method = .select → l' = l) :
    (Phase.sweep l' n' r').reports c arr = (Phase.sweep l n r).reports c arr := by
  simp only [Phase.reports]
  by_cases hm : c.poll_method = .select
  · rw [if_pos hm, if_pos hm, hl hm]
  · rw [if_neg hm, if_neg hm]

theorem QuietStep.goto {ph : Phase} (h : ∀ fd ∈ ph.reports c s.fd_array, fd ∈ reports c s)
    {pipe : List ℤ} (hp : pipe.length ≤ s.pipe.length) :
    QuietStep c s { s with phase := ph, pipe := pipe } log [] :=
  ⟨rfl, hp, h, rfl, rfl, fun _ he => by cases he⟩

theorem QuietStep.put {b : Bool} (hr : Removed c s s' held fd b) {ph : Phase}
    (h : ∀ fd ∈ ph.reports c s'.fd_array, fd ∈ reports c s) (hfd : b = true → (s.fd_hash fd).fd = fd)
    (hin : fd ∈ reports c s) :
    QuietStep c s { s' with phase := ph } log (putIf b (s.fd_hash fd)) := by
  refine ⟨hr.calls, hr.pipe ▸ le_rfl, h, ?_, ?_, fun e he => ?_⟩
  · cases b <;> rfl
  · cases b <;> rfl
  · cases b with
    | false => cases he
    | true =>
      rw [mem_singleton.1 he, hfd rfl]
      exact hin

/-- **What a step does without fires**: it dispatches only what was reported. -/
theorem quiet_step (h : Kept c s log buf pip held) (hc : c.Sound) (hn : NoFires log)
    (hq : Quiet c s log .step) (heq : exec c s .step = some (s', es)) : QuietStep c s s' log es := by
  have hok := h.phase
  cases hph : s.phase with
  | idle =>
    simp only [exec, step, hph, some.injEq, Prod.mk.injEq] at heq
    obtain ⟨rfl, rfl⟩ := heq
    exact ⟨rfl, le_rfl, fun _ h => h, rfl, rfl, fun _ he => by cases he⟩
  | scan todo evs =>
    rw [hph] at hok
    cases todo with
    | nil =>
      simp only [exec, step, hph, some.injEq, Prod.mk.injEq] at heq
      obtain ⟨rfl, rfl⟩ := heq
      exact .goto (by rw [reports, hph]; exact fun _ h => h) (le_rfl)
    | cons fd todo =>
      have hfd : Known c s fd := hok.2 fd mem_cons_self
      have hmap : get_fd_map c s fd = some (s.fd_hash fd) := if_pos ⟨hfd.1, hfd.2.1⟩
      simp only [exec, step, hph, hmap, some.injEq, Prod.mk.injEq] at heq
      obtain ⟨rfl, rfl⟩ := heq
      refine .goto ?_ (le_rfl)
      rw [reports, hph]
      split <;> exact fun _ h => h
  | control next =>
    simp only [exec, step, hph, some.injEq, Prod.mk.injEq] at heq
    obtain ⟨rfl, rfl⟩ := heq
    refine .goto (by rw [reports, hph]; exact fun _ h => h) ?_
    rw [length_drop]
    exact Nat.sub_le _ _
  | commands l next =>
    have hbuff := h.buff
    rw [hph] at hbuff
    replace hbuff : Spells c.type.code l buf := hbuff
    cases hbuff with
    | nil =>
      simp only [exec, step, hph, some.injEq, Prod.mk.injEq] at heq
      obtain ⟨rfl, rfl⟩ := heq
      exact .goto (by rw [reports, hph]; exact fun _ h => h) (le_rfl)
    | add rest =>
      obtain ⟨s₁, heq₁, ha⟩ := step_add h hc hph
      rw [exec, heq₁] at heq
      cases heq
      refine ⟨ha.calls, ha.pipe ▸ le_rfl, ?_, rfl, rfl, fun _ he => by cases he⟩
      rw [reports, reports, hph]
      exact Phase.reports_mono next ha.array
    | fire rest => exact absurd mem_cons_self (h.no_fire hn _)
  | sweep l n r =>
    by_cases hend : s.fd_array[r]? = none ∨ n = 0
    · rw [exec, sweep_end hph hend] at heq
      cases heq
      exact .goto (fun _ h => by cases h) (le_rfl)
    · obtain ⟨hr, hn0⟩ := not_or.1 hend
      obtain ⟨p, hp⟩ := ne_none_iff_exists'.1 hr
      by_cases hf : flagged c l p
      · obtain ⟨s₁, l', heq₁, hrem, harr, hl⟩ := sweep_put h hph hp hn0 hf
        rw [exec, heq₁] at heq
        cases heq
        have hin := (h.entry hph hp).1
        refine .put hrem ?_ (fun _ => (h.table.held_hash hin).2) ?_
        · rw [reports, hph, harr]
          rw [reports_sweep hl]
          exact Phase.reports_mono (.sweep l n r) fun q hq _ => mem_of_mem_eraseIdx hq
        · rw [reports, hph]
          simp only [Phase.reports]
          rw [flagged] at hf
          by_cases hm : c.poll_method = .select
          · rw [if_pos hm] at hf ⊢
            exact hf
          · rw [if_neg hm] at hf ⊢
            exact List.mem_map_of_mem (mem_filter.2 ⟨mem_of_getElem? hp, hf⟩)
      · obtain ⟨l', heq₁, hl⟩ := sweep_skip hph hp hn0 hf
        rw [exec, heq₁] at heq
        cases heq
        refine .goto ?_ (le_rfl)
        rw [reports, hph, reports_sweep hl]
        exact fun _ h => h
  | events todo =>
    cases todo with
    | nil =>
      simp only [exec, step, hph, some.injEq, Prod.mk.injEq] at heq
      obtain ⟨rfl, rfl⟩ := heq
      exact .goto (fun _ h => by cases h) (le_rfl)
    | cons fd todo =>
      rw [hph] at hok
      have htail : ∀ fd' ∈ todo, fd' ∈ reports c s := by
        rw [reports, hph]
        exact fun fd' hfd' => mem_cons_of_mem _ hfd'
      have hhead : fd ∈ reports c s := by
        rw [reports, hph]
        exact mem_cons_self
      rcases hok with ⟨hm, _⟩ | ⟨hm, _⟩
      · obtain ⟨s₁, b, heq₁, ⟨_, hrem⟩ | ⟨_, rfl, rfl⟩⟩ := epoll_step h hm hph
        · rw [exec, heq₁] at heq
          cases heq
          exact .put hrem htail (fun hb => (h.table.held_hash (hrem.found.1 hb)).2) hhead
        · rw [exec, heq₁] at heq
          cases heq
          refine .goto ?_ (le_rfl)
          exact htail
      · obtain ⟨s₁, heq₁, hrem, hin⟩ := kqueue_step h hc hm hph
        rw [exec, heq₁] at heq
        cases heq
        exact .put hrem htail (fun _ => (h.table.held_hash hin).2) hhead

end Quiet

section Calm

theorem calm_step (h : Kept c s log buf pip held) (hm : c.poll_method = .epoll)
    (hcalm : Calm c s) (heq : exec c s .step = some (s', es)) : Calm c s' := by
  have hok := h.phase
  have hmp : c.poll_method ≠ .poll := by simp [hm]
  have hsame : ∀ ph : Phase, ph.buff = [] → ph.reports c s.fd_array = reports c s →
      Calm c { s with phase := ph } := by
    intro ph hb hrep
    refine ⟨hcalm.pipe, hb, ?_, ?_⟩
    · rw [reports, hrep]
      exact hcalm.nodup
    · rw [reports, hrep]
      exact hcalm.watched
  cases hph : s.phase with
  | idle =>
    simp only [exec, step, hph, some.injEq, Prod.mk.injEq] at heq
    obtain ⟨rfl, rfl⟩ := heq
    exact hcalm
  | scan todo evs =>
    rw [hph] at hok
    cases todo with
    | nil =>
      simp only [exec, step, hph, some.injEq, Prod.mk.injEq] at heq
      obtain ⟨rfl, rfl⟩ := heq
      exact hsame _ rfl (by rw [reports, hph]; rfl)
    | cons fd todo =>
      have hfd : Known c s fd := hok.2 fd mem_cons_self
      have hmap : get_fd_map c s fd = some (s.fd_hash fd) := if_pos ⟨hfd.1, hfd.2.1⟩
      simp only [exec, step, hph, hmap, some.injEq, Prod.mk.injEq] at heq
      obtain ⟨rfl, rfl⟩ := heq
      split
      · exact hsame _ rfl (by rw [reports, hph]; rfl)
      · exact hsame _ rfl (by rw [reports, hph]; rfl)
  | control next =>
    simp only [exec, step, hph, hcalm.pipe, take_nil, drop_nil, some.injEq, Prod.mk.injEq] at heq
    obtain ⟨rfl, rfl⟩ := heq
    have hs := hsame (.commands [] next) rfl (by rw [reports, hph]; rfl)
    exact ⟨rfl, rfl, hs.nodup, hs.watched⟩
  | commands l next =>
    rw [hph] at hok
    have hb := hcalm.buff
    rw [hph] at hb
    replace hb : l = [] := hb
    subst hb
    simp only [exec, step, hph, some.injEq, Prod.mk.injEq] at heq
    obtain ⟨rfl, rfl⟩ := heq
    exact hsame _ hok.2.1 (by rw [reports, hph]; rfl)
  | sweep l n r =>
    rw [hph] at hok
    rcases hok.1 with hm' | hm' <;> simp [hm] at hm'
  | events todo =>
    cases todo with
    | nil =>
      simp only [exec, step, hph, some.injEq, Prod.mk.injEq] at heq
      obtain ⟨rfl, rfl⟩ := heq
      exact hsame _ rfl (by rw [reports, hph]; rfl)
    | cons fd todo =>
      have hn := hcalm.nodup
      have hw := hcalm.watched
      rw [reports, hph] at hn hw
      obtain ⟨hfd, hn'⟩ := nodup_cons.1 hn
      obtain ⟨s₁, b, heq₁, hrem⟩ := epoll_step h hm hph
      rw [exec, heq₁] at heq
      cases heq
      rcases hrem with ⟨hctl, hrem⟩ | ⟨_, rfl, _⟩
      · refine ⟨hrem.pipe.trans hcalm.pipe, rfl, hn', fun fd' hfd' => ?_⟩
        show fd' ∈ watched c s₁
        have hin := hw fd' (mem_cons_of_mem _ hfd')
        rw [h.watching.watched, mem_append] at hin
        rw [hrem.watching.watched, mem_append, ← filter_fd, mem_filter]
        refine hin.imp_right fun hin => ⟨hin, ?_⟩
        rw [decide_eq_true_eq]
        rintro rfl
        exact hfd hfd'
      · exact ⟨hcalm.pipe, rfl, hn', fun fd' hfd' => hw fd' (mem_cons_of_mem _ hfd')⟩

theorem calm_exec (h : Kept c s log buf pip held) (hm : c.poll_method = .epoll)
    (hcalm : Calm c s) {op : Op} (hp : Possible c s op) (hq : Quiet c s log op)
    (heq : exec c s op = some (s', es)) : Calm c s' := by
  have hmp : c.poll_method ≠ .poll := by simp [hm]
  cases op with
  | submit_task e =>
    have hsame : s'.pipe = s.pipe ∧ s'.phase = s.phase ∧ s'.fd_array = s.fd_array ∧ s'.sets = s.sets := by
      simp only [exec, submit_task, safe_add_to_hash] at heq
      rcases hq with hbad | ⟨hr, _⟩
      · simp only [if_pos hbad, some.injEq, Prod.mk.injEq] at heq
        obtain ⟨rfl, rfl⟩ := heq
        exact ⟨rfl, rfl, rfl, rfl⟩
      · have h0 := hr.nonneg
        have hlt := hr.lt
        rw [if_neg (by omega), if_neg (by omega)] at heq
        cases heq
        exact ⟨rfl, rfl, rfl, rfl⟩
    obtain ⟨hpipe, hph, harr, hsets⟩ := hsame
    refine ⟨hpipe.trans hcalm.pipe, hph ▸ hcalm.buff, ?_, ?_⟩
    · rw [reports, hph, harr]
      exact hcalm.nodup
    · rw [reports, hph, harr, watched, if_neg hmp, hsets]
      have hw := hcalm.watched
      rwa [watched, if_neg hmp] at hw
  | announce k =>
    have hk : s.calls[k]? = some s.calls[k] := getElem?_eq_getElem hp
    have hw := hcalm.watched
    rw [watched, if_neg hmp] at hw
    simp only [exec, announce, hk, hm] at heq
    split at heq
    · cases heq
      exact ⟨hcalm.pipe, hcalm.buff, hcalm.nodup, hcalm.watched⟩
    · cases heq
      refine ⟨hcalm.pipe, hcalm.buff, hcalm.nodup, fun fd hfd => ?_⟩
      rw [watched, if_neg hmp, map_append]
      exact mem_append_left _ (hw fd hfd)
  | fire_fd fd junk => exact hq.elim
  | wait ready =>
    cases heq
    obtain ⟨_, hn, hw, _⟩ := hp
    simp only [wait, hm]
    exact ⟨hcalm.pipe, rfl, hn, hw⟩
  | step => exact calm_step h hm hcalm heq

structure QuietInv (c : Config) (s : IoWait) (log : List Effect) : Prop where
  runs : Runs c s log
  noFires : NoFires log
  calm : c.poll_method = .epoll → Calm c s

theorem written_exec (h : Kept c s log buf pip held) (hc : c.Sound) (hn : NoFires log) {op : Op}
    (hq : Quiet c s log op) (heq : exec c s op = some (s', es)) : NoFires es := by
  cases op with
  | submit_task e =>
    simp only [exec, submit_task] at heq
    split at heq
    · cases heq
    · cases heq
      exact fun fd hfd => by cases hfd
    · cases heq
      exact fun fd hfd => by cases hfd
  | announce k =>
    simp only [exec, some.injEq] at heq
    intro fd hfd
    cases hk : s.calls[k]? with
    | none =>
      simp only [announce, hk, Prod.mk.injEq] at heq
      rw [← heq.2] at hfd
      cases hfd
    | some e =>
      by_cases hm : c.poll_method = .poll ∨ c.poll_method = .select
      · rw [announce_pipe hk hm] at heq
        rw [← (Prod.mk.inj heq).2] at hfd
        cases mem_singleton.1 hfd
      · have hes : [] = es := by
          cases hm' : c.poll_method with
          | poll => exact absurd (.inl hm') hm
          | select => exact absurd (.inr hm') hm
          | epoll =>
            simp only [announce, hk, hm'] at heq
            split at heq <;> exact (Prod.mk.inj heq).2
          | kqueue =>
            simp only [announce, hk, hm'] at heq
            split at heq <;> exact (Prod.mk.inj heq).2
        rw [← hes] at hfd
        cases hfd
  | fire_fd fd junk => exact hq.elim
  | wait ready =>
    cases heq
    exact fun fd hfd => by cases hfd
  | step =>
    intro fd hfd
    rw [(quiet_step h hc hn hq heq).silent] at hfd
    cases hfd

theorem quiet_inv (hc : c.Sound) (hr : QuietRun c s log) : QuietInv c s log := by
  induction hr with
  | init =>
    refine ⟨.init, fun fd hfd => (by cases hfd), fun hm => ?_⟩
    have hmp : c.poll_method ≠ .poll := by simp [hm]
    refine ⟨?_, ?_, ?_, ?_⟩ <;> simp [init_io_wait, hm, reports, Phase.reports, hash_fd_map, Phase.buff]
  | @step s s' log op es _ ok heq ih =>
    obtain ⟨buf, pip, held, hk⟩ := inv_run hc ih.runs
    refine ⟨ih.runs.step ⟨ok.1, quiet_orderly hk ih.calm ok.2⟩ heq, fun fd hfd => ?_,
      fun hm => calm_exec hk hm (ih.calm hm) ok.1 ok.2 heq⟩
    rw [written_append] at hfd
    rcases mem_append.1 hfd with hfd | hfd
    · exact ih.noFires fd hfd
    · exact written_exec hk hc ih.noFires ok.2 heq fd hfd

end Calm

end OpenSips.Reactor
