import OpenSips.Reactor.Runs

/-!
# OpenSips.Reactor.Steps — the steps of the reactor thread

What a step at each place of the loops does, and that it keeps what is registered.
-/

namespace OpenSips.Reactor

open Lib Lib.OneShot List Option

variable {c : Config} {s s' : IoWait} {log : List Effect} {buf pip : List Command} {held : List FdMap}
  {fd : ℤ}

section Sweep

variable {l : List ℤ} {n r : ℕ} {p : PollFd}

def flagged (c : Config) (l : List ℤ) (p : PollFd) : Prop :=
  if c.poll_method = .select then p.fd ∈ l else p.revents = true

theorem sweep_end (hph : s.phase = .sweep l n r) (h : s.fd_array[r]? = none ∨ n = 0) :
    step c s = some ({ s with phase := .idle }, []) := by
  rcases h with h | h
  · simp only [step, hph, h]
  · cases hr : s.fd_array[r]? with
    | none => simp only [step, hph, hr]
    | some p => simp only [step, hph, hr, h, if_true]

theorem sweep_skip (hph : s.phase = .sweep l n r) (hp : s.fd_array[r]? = some p) (hn : n ≠ 0)
    (hf : ¬ flagged c l p) :
    ∃ l', step c s = some ({ s with phase := .sweep l' n (r + 1) }, []) ∧
      (c.poll_method = .select → l' = l) := by
  rw [flagged] at hf
  by_cases hm : c.poll_method = .select
  · rw [if_pos hm] at hf
    refine ⟨l, ?_, fun _ => rfl⟩
    simp only [step, hph, hp, if_neg hn, if_pos hm, select_event, if_neg hf]
  · rw [if_neg hm] at hf
    refine ⟨[], ?_, fun h => absurd h hm⟩
    simp only [step, hph, hp, if_neg hn, if_neg hm, poll_event, hf, if_false, Bool.false_eq_true]

theorem Kept.entry (h : Kept c s log buf pip held) (hph : s.phase = .sweep l n r)
    (hp : s.fd_array[r]? = some p) :
    p.fd ∈ held.map FdMap.fd ∧ (c.poll_method = .poll ∨ c.poll_method = .select) := by
  have hok := h.phase
  rw [hph] at hok
  refine ⟨?_, hok.1⟩
  have harr := congrArg (·[r]?) (h.watching.array hok.1)
  have h1 := hok.2
  obtain ⟨r, rfl⟩ := Nat.exists_eq_add_of_le' h1
  simp only [getElem?_map, hp, map_some, getElem?_cons_succ] at harr
  obtain ⟨e, he, hfd⟩ := map_eq_some_iff.1 harr.symm
  rw [← hfd]
  exact List.mem_map_of_mem (mem_of_getElem? he)

theorem sweep_put (h : Kept c s log buf pip held) (hph : s.phase = .sweep l n r)
    (hp : s.fd_array[r]? = some p) (hn : n ≠ 0) (hf : flagged c l p) :
    ∃ s' l', step c s = some ({ s' with phase := .sweep l' (n - 1) r }, [.put_task (s.fd_hash p.fd)]) ∧
      Removed c s s' held p.fd true ∧ s'.fd_array = s.fd_array.eraseIdx r ∧
      (c.poll_method = .select → l' = l) := by
  obtain ⟨hin, hm⟩ := h.entry hph hp
  have hr := h.table.held_range hin
  have hnd := h.table.nodup_control
  have hmap : get_fd_map c s p.fd = some (s.fd_hash p.fd) := if_pos ⟨hr.nonneg, hr.lt⟩
  have hlt : r < s.fd_array.length := (List.getElem?_eq_some_iff.1 hp).1
  have hidx : ∀ i, some r = some i → ∃ q, s.fd_array[i]? = some q ∧ q.fd = p.fd := by
    rintro i ⟨⟩
    exact ⟨p, hp, rfl⟩
  rw [flagged] at hf
  rcases hm with hm | hm
  · have hns : c.poll_method ≠ .select := by simp [hm]
    have hdel : array_fd_del s p.fd (some r) = ({ s with fd_array := s.fd_array.eraseIdx r }, true) :=
      if_pos hlt
    have hrem := poll_removed hm h.watching hnd hr.ne (some r) hidx
    rw [hdel] at hrem
    rw [if_neg hns] at hf
    refine ⟨_, [], ?_, hrem, rfl, fun h => absurd h hns⟩
    simp only [step, hph, hp, if_neg hn, if_neg hns, poll_event, if_pos hf, hmap, hdel]
  · obtain ⟨s', b, hdel, hrem⟩ := select_removed hm h.watching hnd hr (some r) hidx
    have hclr : FD_CLR s p.fd = some { s with sets := s.sets.filter (·.1 ≠ p.fd) } :=
      if_pos ⟨hr.nonneg, hr.set hm⟩
    have hdel' : select_local_del s p.fd (some r) =
        some ({ s with sets := s.sets.filter (·.1 ≠ p.fd), fd_array := s.fd_array.eraseIdx r }, true) := by
      rw [select_local_del, hclr, map_some]
      exact congrArg some (if_pos hlt)
    obtain ⟨rfl, rfl⟩ := Prod.mk.inj (some.inj (hdel.symm.trans hdel'))
    rw [if_pos hm] at hf
    refine ⟨_, l, ?_, hrem, rfl, fun _ => rfl⟩
    simp only [step, hph, hp, if_neg hn, if_pos hm, select_event, if_pos hf, hmap, hdel']

end Sweep

section Events

variable {todo : List ℤ}

theorem epoll_step (h : Kept c s log buf pip held) (hm : c.poll_method = .epoll)
    (hph : s.phase = .events (fd :: todo)) :
    ∃ s' b, step c s = some ({ s' with phase := .events todo }, putIf b (s.fd_hash fd)) ∧
      (fd ≠ c.control_pipe ∧ Removed c s s' held fd b ∨ fd = c.control_pipe ∧ s' = s ∧ b = false) := by
  have hk : c.poll_method ≠ .kqueue := by simp [hm]
  have hok := h.phase
  rw [hph] at hok
  obtain ⟨h0, hlt, hfd⟩ : Known c s fd := by
    rcases hok with ⟨_, hknown⟩ | ⟨hm', _⟩
    · exact hknown fd mem_cons_self
    · exact absurd hm' hk
  have hmap : get_fd_map c s fd = some (s.fd_hash fd) := if_pos ⟨h0, hlt⟩
  by_cases hctl : fd = c.control_pipe
  · refine ⟨s, false, ?_, .inr ⟨hctl, rfl, rfl⟩⟩
    have hent : ¬ ((s.fd_hash fd).fd ≠ -1 ∧ (s.fd_hash fd).fd ≠ c.control_pipe) := by
      rintro ⟨hneg, hne⟩
      exact hfd.elim (fun h => hne (h.trans hctl)) hneg
    simp only [step, hph, if_neg hk, epoll_event, hmap, if_neg hent]
    rfl
  · obtain ⟨s', b, heq, hrem⟩ := epoll_removed hm h.watching h0 hlt hctl
    rcases hfd with hfd | hneg
    · have hent : (s.fd_hash fd).fd ≠ -1 ∧ (s.fd_hash fd).fd ≠ c.control_pipe := by
        rw [hfd]
        exact ⟨by omega, hctl⟩
      refine ⟨s', b, ?_, .inl ⟨hctl, hrem⟩⟩
      simp only [step, hph, if_neg hk, epoll_event, hmap, if_pos hent]
      rw [hfd, heq]
      cases b <;> rfl
    · have hnot : fd ∉ held.map FdMap.fd := by
        intro hin
        rw [(h.table.held_hash hin).2] at hneg
        omega
      refine ⟨s, false, ?_, .inl ⟨hctl, .none h.watching hnot⟩⟩
      simp only [step, hph, if_neg hk, epoll_event, hmap, hneg]
      rfl

theorem kqueue_step (h : Kept c s log buf pip held) (hc : c.Sound) (hm : c.poll_method = .kqueue)
    (hph : s.phase = .events (fd :: todo)) :
    ∃ s', step c s = some ({ s' with phase := .events todo }, [.put_task (s.fd_hash fd)]) ∧
      Removed c s s' held fd true ∧ fd ∈ held.map FdMap.fd := by
  have hok := h.phase
  rw [hph] at hok
  have hin : fd ∈ held.map FdMap.fd := by
    rcases hok with ⟨hm', _⟩ | ⟨_, _, ht⟩
    · rw [hm] at hm'
      cases hm'
    · exact ht fd mem_cons_self
  have hr := h.table.held_range hin
  obtain ⟨s', heq, hrem⟩ := kqueue_removed hm hc h.watching hr hin
  refine ⟨s', ?_, hrem, hin⟩
  simp only [step, hph, if_pos hm, kqueue_event, get_fd_map, if_pos (And.intro hr.nonneg hr.lt),
    (h.table.held_hash hin).2, heq, map_some]

end Events

section Step

theorem Removed.knownAll {b : Bool} (h : Removed c s s' held fd b) {l : List ℤ}
    (hl : ∀ fd ∈ l, Known c s fd) : ∀ fd ∈ l, Known c s' fd :=
  fun fd hfd => h.known (hl fd hfd)

section

variable (h : Kept c s log buf pip held)
include h

theorem kept_sweep {l : List ℤ} {n r : ℕ} (hph : s.phase = .sweep l n r) :
    ∃ s' es, step c s = some (s', es) ∧ ∃ held, Kept c s' (log ++ es) buf pip held := by
  have hbuff : s.phase.buff = [] := by rw [hph]; rfl
  have hok := h.phase
  rw [hph] at hok
  by_cases hend : s.fd_array[r]? = none ∨ n = 0
  · exact ⟨_, _, sweep_end hph hend, held, by
      rw [append_nil]
      exact h.goto hbuff.symm trivial⟩
  · obtain ⟨hr, hn⟩ := not_or.1 hend
    obtain ⟨p, hp⟩ := ne_none_iff_exists'.1 hr
    by_cases hf : flagged c l p
    · obtain ⟨s', l', heq, hrem, -, -⟩ := sweep_put h hph hp hn hf
      obtain ⟨hin, hm⟩ := h.entry hph hp
      have hctl := (h.table.held_range hin).ne
      exact ⟨_, _, heq, _, h.removed hrem hctl (fun he => by simp [he] at hm)
        (fun he => by simp [he] at hm) hbuff.symm ⟨hm, hok.2⟩⟩
    · obtain ⟨l', heq, -⟩ := sweep_skip hph hp hn hf
      refine ⟨_, _, heq, held, ?_⟩
      rw [append_nil]
      exact h.goto hbuff.symm ⟨hok.1, Nat.le_succ_of_le hok.2⟩

theorem kept_events (hc : c.Sound) (ho : Orderly c s log .step) {todo : List ℤ} (hph : s.phase = .events todo) :
    ∃ s' es, step c s = some (s', es) ∧ ∃ held, Kept c s' (log ++ es) buf pip held := by
  have hbuff : s.phase.buff = [] := by rw [hph]; rfl
  have hok := h.phase
  rw [hph] at hok
  cases todo with
  | nil =>
    refine ⟨{ s with phase := .idle }, [], by simp only [step, hph], held, ?_⟩
    rw [append_nil]
    exact h.goto hbuff.symm trivial
  | cons fd todo =>
    rcases hok with ⟨hm, hknown⟩ | ⟨hm, hn, ht⟩
    · obtain ⟨s', b, heq, ⟨hctl, hrem⟩ | ⟨_, rfl, rfl⟩⟩ := epoll_step h hm hph
      · have hown : fd ∉ s.calls.map FdMap.fd := ho.2 hm fd (by rw [hph]; rfl)
        refine ⟨_, _, heq, _, h.removed hrem hctl (fun _ => hown) (fun he => by simp [he] at hm)
          hbuff.symm (.inl ⟨hm, hrem.knownAll fun fd hfd => hknown fd (mem_cons_of_mem _ hfd)⟩)⟩
      · refine ⟨_, _, heq, held, ?_⟩
        show Kept c _ (log ++ []) _ _ _
        rw [append_nil]
        exact h.goto hbuff.symm (.inl ⟨hm, fun fd hfd => hknown fd (mem_cons_of_mem _ hfd)⟩)
    · obtain ⟨s', heq, hrem, hin⟩ := kqueue_step h hc hm hph
      have hctl := (h.table.held_range hin).ne
      obtain ⟨hfd, hn⟩ := nodup_cons.1 hn
      refine ⟨_, _, heq, _, h.removed hrem hctl (fun he => by simp [he] at hm) (fun _ => rfl) hbuff.symm
        (.inr ⟨hm, hn, fun fd' hfd' => ?_⟩)⟩
      rw [← filter_fd, mem_filter]
      refine ⟨ht fd' (mem_cons_of_mem _ hfd'), ?_⟩
      rw [decide_eq_true_eq]
      rintro rfl
      exact hfd hfd'

theorem kept_commands (hc : c.Sound) (ho : Orderly c s log .step)
    {l : List ℤ} {next : Phase} (hph : s.phase = .commands l next) :
    ∃ s' es, step c s = some (s', es) ∧ ∃ buf held, Kept c s' (log ++ es) buf pip held := by
  have hok := h.phase
  have hbuff := h.buff
  rw [hph] at hok hbuff
  replace hbuff : Spells c.type.code l buf := hbuff
  cases hbuff with
  | nil =>
    refine ⟨{ s with phase := next }, [], by simp only [step, hph], [], held, ?_⟩
    rw [append_nil]
    refine h.goto ?_ hok.2.2
    rw [hok.2.1, hph]
    rfl
  | add rest =>
    obtain ⟨s', heq, ha⟩ := step_add h hc hph
    exact ⟨_, _, heq, _, _, h.added hph ha⟩
  | @fire fd junk l buf rest =>
    obtain ⟨s', b, heq, hrem⟩ := step_fire h hph
    have hctl := (h.fires fd mem_cons_self).ne
    refine ⟨_, _, heq, buf, held.filter (·.fd ≠ fd), ?_⟩
    have hph' : PhaseOk c s' (held.filter (·.fd ≠ fd)) (.commands l next) :=
      PhaseOk.mono (show PhaseOk c s held (.commands l next) from hok) (fun _ hk => hrem.known hk)
        fun hm => absurd hm hok.1
    have hk := (h.executed_fire hph).removed (hrem.goto _) hctl
      (fun hm => ho.2 hm fd (by rw [hph]; rfl)) (fun hm => absurd hm hok.1) rfl
      (hph'.mono (fun _ hk => hk) fun _ _ hfd => hfd)
    rwa [append_assoc] at hk

theorem kept_step (hc : c.Sound) (ho : Orderly c s log .step) :
    ∃ s' es, exec c s .step = some (s', es) ∧ Inv c s' (log ++ es) := by
  have hbuff := h.buff
  have hok := h.phase
  show ∃ s' es, step c s = some (s', es) ∧ _
  cases hph : s.phase with
  | idle =>
    refine ⟨s, [], by simp only [step, hph], buf, pip, held, ?_⟩
    rwa [append_nil]
  | scan todo events =>
    rw [hph] at hok hbuff
    cases todo with
    | nil =>
      refine ⟨{ s with phase := .events events }, [], by simp only [step, hph], buf, pip, held, ?_⟩
      rw [append_nil]
      exact h.goto (by rw [hph]; rfl) (.inl hok)
    | cons fd todo =>
      have hfd : Known c s fd := hok.2 fd mem_cons_self
      have hnext : PhaseOk c s held (.scan todo events) :=
        ⟨hok.1, fun fd hfd => hok.2 fd (mem_cons_of_mem _ hfd)⟩
      have hmap : get_fd_map c s fd = some (s.fd_hash fd) := if_pos ⟨hfd.1, hfd.2.1⟩
      refine ⟨_, [], by simp only [step, hph, hmap]; rfl, buf, pip, held, ?_⟩
      rw [append_nil]
      refine h.goto ?_ ?_
      · rw [hph]
        split <;> rfl
      · split
        · exact ⟨by rw [hok.1]; simp, rfl, hnext⟩
        · exact hnext
  | control next =>
    rw [hph] at hok hbuff
    have hlen := ho.1 next hph
    refine ⟨{ s with phase := .commands s.pipe next, pipe := [] }, [], ?_, pip, [], held, ?_⟩
    · simp only [step, hph, take_of_length_le hlen, drop_of_length_le hlen]
    · obtain rfl := Spells.eq_nil hbuff
      rw [append_nil]
      refine ⟨?_, ⟨h.watching.array, h.watching.sets⟩, h.pipe, .nil, ?_, ?_, ?_,
        ⟨hok.1, hok.2.1, hok.2.2.mono (fun _ hk => hk) fun _ _ hfd => hfd⟩, h.control⟩
      · rw [append_nil]
        exact h.table
      · rw [h.written, append_nil, append_nil]
      · rw [append_nil]
        exact h.fires
      · rw [append_nil]
        exact h.direct
  | commands l next =>
    obtain ⟨s', es, heq, buf, held, hk⟩ := kept_commands h hc ho hph
    exact ⟨s', es, heq, buf, pip, held, hk⟩
  | sweep l n r =>
    obtain ⟨s', es, heq, held, hk⟩ := kept_sweep h hph
    exact ⟨s', es, heq, buf, pip, held, hk⟩
  | events todo =>
    obtain ⟨s', es, heq, held, hk⟩ := kept_events h hc ho hph
    exact ⟨s', es, heq, buf, pip, held, hk⟩

end

/-- **Every step keeps what is registered**, and does not fail. -/
theorem inv_exec (hc : c.Sound) {op : Op} (hi : Inv c s log) (hp : Possible c s op)
    (ho : Orderly c s log op) : ∃ s' es, exec c s op = some (s', es) ∧ Inv c s' (log ++ es) := by
  obtain ⟨buf, pip, held, h⟩ := hi
  cases op with
  | submit_task e =>
    obtain ⟨s', es, heq, hk⟩ := kept_submit h ho
    exact ⟨s', es, heq, _, _, _, hk⟩
  | announce k =>
    obtain ⟨s', es, heq, pip, held, hk⟩ := kept_announce h hp
    exact ⟨s', es, heq, _, _, _, hk⟩
  | fire_fd fd junk =>
    obtain ⟨s', es, heq, hk⟩ := kept_fire h ho
    exact ⟨s', es, heq, _, _, _, hk⟩
  | wait ready =>
    obtain ⟨s', heq, hk⟩ := kept_wait h hc hp
    exact ⟨s', [], heq, _, _, _, by rwa [append_nil]⟩
  | step => exact kept_step h hc ho

theorem inv_init : Inv c (init_io_wait c) [] := by
  refine ⟨[], [], [], ⟨.nil, ?_, ?_, ?_⟩, ⟨?_, ?_⟩, ?_, ?_, rfl, ?_, fun _ => rfl, ?_, ?_⟩
  · cases hm : c.poll_method <;> simp only [init_io_wait, hm] <;> exact List.Perm.refl _
  · intro e he
    cases he
  · intro e he
    cases he
  · rintro (hm | hm) <;> simp [init_io_wait, hm]
  · intro hmp
    cases hm : c.poll_method <;> simp [init_io_wait, hm, Config.pipes] at hmp ⊢
  · cases hm : c.poll_method <;> simp only [init_io_wait, hm] <;> exact .nil
  · cases hm : c.poll_method <;> simp only [init_io_wait, hm] <;> exact .nil
  · intro fd hfd
    cases hfd
  · cases hm : c.poll_method <;> simp only [init_io_wait, hm] <;> trivial
  · intro hm
    simp [init_io_wait, hm, hash_fd_map]

end Step

end OpenSips.Reactor
