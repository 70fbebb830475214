import OpenSips.Lib.Machine
import OpenSips.Reactor.Kept

/-!
# OpenSips.Reactor.Runs — submissions, fires and the reactor thread in any order

What each step keeps, for every back-end.
-/

namespace OpenSips.Reactor

open Lib Lib.OneShot List Option

/-- The descriptor that the next step is about. -/
def Phase.target : Phase → Option ℤ
  | .commands (_ :: fd :: _) _ => some fd
  | .events (fd :: _) => some fd
  | _ => none

/-- What the threads and the kernel can do: only what is watched is reported, and the control pipe
whenever something is in it. -/
def Possible (c : Config) (s : IoWait) : Op → Prop
  | .announce k => k < s.calls.length
  | .wait ready => s.phase = .idle ∧ ready.Nodup ∧ (∀ fd ∈ ready, fd ∈ watched c s) ∧
      (c.control_pipe ∈ watched c s → (c.control_pipe ∈ ready ↔ s.pipe ≠ []))
  | .step => s.phase ≠ .idle
  | _ => True

/-- A descriptor is submitted when it is not registered already (or is refused), one is fired when
there can be a task for it and the loop reads the pipe, what is read from the pipe fits into the buffer,
and epoll does not turn to a descriptor in the middle of a submission. -/
def Orderly (c : Config) (s : IoWait) (log : List Effect) : Op → Prop
  | .submit_task e => (e.fd < 0 ∨ c.max_fd_no < e.fd) ∨
      InRange c e.fd ∧ e.fd ∉ (pending log).map FdMap.fd
  | .fire_fd fd _ => InRange c fd ∧ c.poll_method ≠ .kqueue
  | .step => (∀ next, s.phase = .control next → s.pipe.length ≤ BUFF_SIZE) ∧
      (c.poll_method = .epoll → ∀ fd ∈ s.phase.target, fd ∉ s.calls.map FdMap.fd)
  | _ => True

variable {c : Config} {s s' : IoWait} {log : List Effect} {buf pip : List Command} {held : List FdMap}
  {fd : ℤ}

section Keeping

theorem Table.nodup_control {calls added : List FdMap} {hash : ℤ → FdMap}
    (h : Table c log calls added held hash) : (c.control_pipe :: held.map FdMap.fd).Nodup := by
  refine nodup_cons.2 ⟨fun hmem => ?_, h.nodup_held⟩
  exact (h.held_range hmem).ne rfl

theorem Removed.known {b : Bool} (h : Removed c s s' held fd b) {fd' : ℤ} (hk : Known c s fd') :
    Known c s' fd' := by
  refine ⟨hk.1, hk.2.1, ?_⟩
  by_cases heq : fd' = fd
  · subst heq
    rcases h.own with ho | ⟨_, ho⟩
    · rw [ho]
      exact hk.2.2
    · exact .inr ho
  · rw [h.hash fd' heq]
    exact hk.2.2

theorem PhaseOk.mono {ph : Phase} {held' : List FdMap} (h : PhaseOk c s held ph)
    (hk : ∀ fd, Known c s fd → Known c s' fd)
    (hh : c.poll_method = .kqueue → ∀ fd ∈ held.map FdMap.fd, fd ∈ held'.map FdMap.fd) :
    PhaseOk c s' held' ph := by
  induction ph with
  | idle => trivial
  | scan todo events => exact ⟨h.1, fun fd hfd => hk fd (h.2 fd hfd)⟩
  | control next ih => exact ⟨h.1, h.2.1, ih h.2.2⟩
  | commands buff next ih => exact ⟨h.1, h.2.1, ih h.2.2⟩
  | sweep local_set n r => exact h
  | events todo =>
    rcases h with ⟨hm, ht⟩ | ⟨hm, hn, ht⟩
    · exact .inl ⟨hm, fun fd hfd => hk fd (ht fd hfd)⟩
    · exact .inr ⟨hm, hn, fun fd hfd => hh hm fd (ht fd hfd)⟩

def putIf (b : Bool) (e : FdMap) : List Effect := if b then [.put_task e] else []

theorem Table.removed {added : List FdMap} {b : Bool} (h : Table c log s.calls added held s.fd_hash)
    (hr : Removed c s s' held fd b)
    (hown : c.poll_method = .epoll → fd ∉ (s.calls ++ added).map FdMap.fd)
    (hkq : c.poll_method = .kqueue → b = true) :
    Table c (log ++ putIf b (s.fd_hash fd)) s'.calls added (held.filter (·.fd ≠ fd)) s'.fd_hash := by
  rw [hr.calls]
  cases b with
  | true =>
    obtain ⟨hmem, hfd⟩ := h.held_hash (hr.found.1 rfl)
    have hrest := hr.hash
    rw [← hfd] at hrest
    have ht := h.put_task hmem hrest
    rw [hfd] at ht
    exact ht
  | false =>
    have hnot : fd ∉ held.map FdMap.fd := fun hin => absurd (hr.found.2 hin) (by simp)
    rw [filter_eq_of_not_mem hnot, putIf, if_neg Bool.false_ne_true, append_nil]
    refine h.rehash _ fun e he => ?_
    by_cases heq : e.fd = fd
    · rcases hr.own with ho | ⟨hm | hm, _⟩
      · rw [heq, ho]
      · -- the descriptor is registered nowhere
        exfalso
        rcases h.mem.1 he with hc | hc | hc
        · exact hown hm (List.mem_map.2 ⟨e, mem_append_left _ hc, heq⟩)
        · exact hown hm (List.mem_map.2 ⟨e, mem_append_right _ hc, heq⟩)
        · exact hnot (List.mem_map.2 ⟨e, hc, heq⟩)
      · exact absurd (hkq hm) Bool.false_ne_true
    · exact hr.hash _ heq

end Keeping

section Submitting

theorem kept_submit (h : Kept c s log buf pip held) {e : FdMap} (ho : Orderly c s log (.submit_task e)) :
    ∃ s' es, exec c s (.submit_task e) = some (s', es) ∧ Kept c s' (log ++ es) buf pip held := by
  rcases ho with hbad | ⟨hr, hfree⟩
  · refine ⟨s, [], ?_, by rwa [append_nil]⟩
    show submit_task c s e = _
    rw [submit_task, safe_add_to_hash, if_pos hbad]
  · have h0 := hr.nonneg
    have hlt := hr.lt
    refine ⟨{ hash_fd_map s e with calls := s.calls ++ [e] }, [.submit e], ?_, ?_⟩
    · show submit_task c s e = _
      rw [submit_task, safe_add_to_hash, if_neg (by omega), if_neg (by omega)]
      rfl
    · have hknown : ∀ fd, Known c s fd → Known c (hash_fd_map s e) fd := by
        intro fd hk
        refine ⟨hk.1, hk.2.1, ?_⟩
        rw [hash_fd_map]
        dsimp only
        by_cases heq : fd = e.fd
        · rw [if_pos heq]
          exact .inl heq.symm
        · rw [if_neg heq]
          exact hk.2.2
      refine ⟨h.table.submit hr hfree rfl, ⟨h.watching.array, h.watching.sets⟩, h.buff, h.pipe, ?_,
        h.fires, h.direct, h.phase.mono hknown fun _ _ hfd => hfd, fun hm => ?_⟩
      · rw [written_append, executed_append, h.written]
        simp
      · show (if c.control_pipe = e.fd then e else s.fd_hash c.control_pipe).fd = c.control_pipe
        rw [if_neg hr.ne.symm]
        exact h.control hm

theorem announce_pipe {k : ℕ} {e : FdMap} (hk : s.calls[k]? = some e)
    (hm : c.poll_method = .poll ∨ c.poll_method = .select) :
    announce c s k = ({ s with calls := s.calls.eraseIdx k, pipe := s.pipe ++ [ADD_FD, e.fd, c.type.code] },
      [.write (.add e)]) := by
  rcases hm with hm | hm <;> simp only [announce, hk, hm]

theorem announce_kernel {k : ℕ} {e : FdMap} (hk : s.calls[k]? = some e)
    (hm : c.poll_method = .epoll ∨ c.poll_method = .kqueue) (hnew : e.fd ∉ s.sets.map Prod.fst) :
    announce c s k = ({ s with calls := s.calls.eraseIdx k, sets := s.sets ++ [(e.fd, c.type)] }, []) := by
  have hnew' : (e.fd, c.type) ∉ s.sets := fun hin => hnew (List.mem_map.2 ⟨_, hin, rfl⟩)
  rcases hm with hm | hm
  · simp only [announce, hk, hm]
    exact if_neg hnew
  · simp only [announce, hk, hm]
    exact if_neg hnew'

theorem kept_announce (h : Kept c s log buf pip held) {k : ℕ} (hp : Possible c s (.announce k)) :
    ∃ s' es, exec c s (.announce k) = some (s', es) ∧ ∃ pip held, Kept c s' (log ++ es) buf pip held := by
  have hk : s.calls[k]? = some s.calls[k] := getElem?_eq_getElem hp
  generalize s.calls[k] = e at hk
  have hmem : e ∈ pending log := h.table.mem.2 (.inl (mem_of_getElem? hk))
  have hr := h.table.range e hmem
  -- a descriptor that is being submitted is not watched
  have hnot : e.fd ∉ held.map FdMap.fd := by
    intro hin
    obtain ⟨e', he', heq⟩ := List.mem_map.1 hin
    exact h.table.disjoint.2 e (mem_append_left _ (mem_of_getElem? hk)) e' he' heq.symm
  have hpipe : c.poll_method ≠ .epoll ∧ c.poll_method ≠ .kqueue →
      Kept c { s with calls := s.calls.eraseIdx k, pipe := s.pipe ++ [ADD_FD, e.fd, c.type.code] }
        (log ++ [.write (.add e)]) buf (pip ++ [.add e]) held := by
    intro hm
    have hadds : adds (buf ++ (pip ++ [.add e])) = adds (buf ++ pip) ++ [e] := by
      rw [← append_assoc, adds_append]
      rfl
    refine ⟨?_, ⟨h.watching.array, h.watching.sets⟩, h.buff, h.pipe.append (.add .nil), ?_, ?_, ?_,
      h.phase.mono (fun _ hk => hk) fun _ _ hfd => hfd, h.control⟩
    · rw [hadds]
      exact (h.table.announce_pipe hk).congr events_write
    · rw [written_append, executed_append, h.written]
      simp
    · intro fd hfd
      refine h.fires fd ?_
      rw [← append_assoc] at hfd
      rcases mem_append.1 hfd with hfd | hfd
      · exact hfd
      · cases mem_singleton.1 hfd
    · intro hd
      exact absurd hd (not_or.2 hm)
  have hkernel : (c.poll_method = .epoll ∨ c.poll_method = .kqueue) →
      Kept c { s with calls := s.calls.eraseIdx k, sets := s.sets ++ [(e.fd, c.type)] }
        (log ++ []) buf pip (held ++ [e]) := by
    intro hm
    rw [append_nil]
    have hmp : c.poll_method ≠ .poll := by rintro he; simp [he] at hm
    refine ⟨h.table.announce_kernel hk, ⟨fun ha => ?_, fun _ => ?_⟩, h.buff, h.pipe, h.written, h.fires,
      h.direct, h.phase.mono (fun _ hk => hk) fun _ fd hfd => ?_, h.control⟩
    · rcases hm with hm | hm <;> simp [hm] at ha
    · show s.sets ++ [(e.fd, c.type)] = _
      rw [h.watching.sets hmp, map_append, append_assoc]
      rfl
    · rw [map_append]
      exact mem_append_left _ hfd
  by_cases hm : c.poll_method = .epoll ∨ c.poll_method = .kqueue
  · have hset : e.fd ∉ s.sets.map Prod.fst := fun hin =>
      hnot ((mem_sets (by rintro he; simp [he] at hm) h.watching hr.ne).1 hin)
    exact ⟨_, _, congrArg some (announce_kernel hk hm hset), _, _, hkernel hm⟩
  · have hm' : c.poll_method = .poll ∨ c.poll_method = .select := by
      cases he : c.poll_method <;> simp [he] at hm ⊢
    exact ⟨_, _, congrArg some (announce_pipe hk hm'), _, _, hpipe (not_or.1 hm)⟩

theorem kept_fire (h : Kept c s log buf pip held) {junk : ℤ} (ho : Orderly c s log (.fire_fd fd junk)) :
    ∃ s' es, exec c s (.fire_fd fd junk) = some (s', es) ∧
      Kept c s' (log ++ es) buf (pip ++ [.fire fd]) held := by
  refine ⟨_, _, rfl, ?_⟩
  have hadds : adds (buf ++ (pip ++ [.fire fd])) = adds (buf ++ pip) := by
    rw [← append_assoc, adds_append]
    exact append_nil _
  refine ⟨?_, ⟨h.watching.array, h.watching.sets⟩, h.buff, h.pipe.append (.fire .nil), ?_, ?_, ?_,
    h.phase.mono (fun _ hk => hk) fun _ _ hfd => hfd, h.control⟩
  · rw [hadds]
    exact h.table.congr events_write
  · rw [written_append, executed_append, h.written]
    simp
  · intro fd' hfd
    rw [← append_assoc] at hfd
    rcases mem_append.1 hfd with hfd | hfd
    · exact h.fires fd' hfd
    · cases mem_singleton.1 hfd
      exact ho.1
  · rw [hadds]
    exact h.direct

end Submitting

section Waiting

theorem Kept.goto (h : Kept c s log buf pip held) {ph : Phase} (hb : ph.buff = s.phase.buff)
    (hph : PhaseOk c s held ph) : Kept c { s with phase := ph } log buf pip held :=
  ⟨h.table, ⟨h.watching.array, h.watching.sets⟩, hb ▸ h.buff, h.pipe, h.written, h.fires, h.direct,
    hph.mono (fun _ hk => hk) fun _ _ hfd => hfd, h.control⟩

theorem Kept.known (h : Kept c s log buf pip held) (hc : c.Sound) (hm : c.poll_method = .epoll)
    (hfd : fd ∈ watched c s) : Known c s fd := by
  by_cases hctl : fd = c.control_pipe
  · subst hctl
    exact ⟨hc.nonneg, hc.lt, .inl (h.control hm)⟩
  · have hin := (h.watching.mem_watched hctl).1 hfd
    have hr := h.table.held_range hin
    exact ⟨hr.nonneg, hr.lt, .inl (h.table.held_hash hin).2⟩

theorem kept_wait (h : Kept c s log buf pip held) (hc : c.Sound) {ready : List ℤ}
    (hp : Possible c s (.wait ready)) :
    ∃ s', exec c s (.wait ready) = some (s', []) ∧ Kept c s' log buf pip held := by
  obtain ⟨hidle, hn, hw, _⟩ := hp
  have hbuff : s.phase.buff = [] := by rw [hidle]; rfl
  refine ⟨wait c s ready, rfl, ?_⟩
  cases hm : c.poll_method with
  | poll =>
    simp only [wait, hm]
    have hkept : Kept c { s with fd_array := s.fd_array.map fun p => { p with revents := p.fd ∈ ready } }
        log buf pip held := by
      refine ⟨h.table, h.watching.congr ?_ rfl, h.buff, h.pipe, h.written, h.fires, h.direct,
        h.phase.mono (fun _ hk => hk) fun _ _ hfd => hfd, h.control⟩
      rw [List.map_map]
      rfl
    refine hkept.goto ?_ ?_
    · rw [hbuff]
      split <;> rfl
    · split
      · exact ⟨by simp [hm], rfl, .inl hm, le_rfl⟩
      · exact ⟨.inl hm, le_rfl⟩
  | select =>
    simp only [wait, hm]
    refine h.goto ?_ ?_
    · rw [hbuff]
      split <;> rfl
    · split
      · exact ⟨by simp [hm], rfl, .inr hm, le_rfl⟩
      · exact ⟨.inr hm, le_rfl⟩
  | epoll =>
    simp only [wait, hm]
    refine h.goto hbuff.symm ⟨hm, fun fd hfd => h.known hc hm (hw fd ?_)⟩
    rcases mem_append.1 hfd with hfd | hfd <;> exact hfd
  | kqueue =>
    simp only [wait, hm]
    refine h.goto hbuff.symm (.inr ⟨hm, hn, fun fd hfd => ?_⟩)
    have hin := hw fd hfd
    rw [h.watching.watched, Config.pipes, if_pos hm] at hin
    exact hin

end Waiting

section Executing

variable {b : Bool} {next : Phase} {l : List ℤ}

theorem Removed.goto (h : Removed c s s' held fd b) (ph : Phase) :
    Removed c { s with phase := ph } { s' with phase := ph } held fd b :=
  ⟨⟨h.watching.array, h.watching.sets⟩, h.found, h.hash, h.own, h.pipe, h.calls, rfl⟩

theorem Removed.none (hw : Watching c s held) (hfd : fd ∉ held.map FdMap.fd) :
    Removed c s s held fd false := by
  refine ⟨?_, by simpa using hfd, fun _ _ => rfl, .inl rfl, rfl, rfl, rfl⟩
  rw [filter_eq_of_not_mem hfd]
  exact hw

theorem Kept.removed (h : Kept c s log buf pip held) (hr : Removed c s s' held fd b)
    (hctl : fd ≠ c.control_pipe) (hown : c.poll_method = .epoll → fd ∉ s.calls.map FdMap.fd)
    (hkq : c.poll_method = .kqueue → b = true) {ph : Phase} (hb : ph.buff = s.phase.buff)
    (hph : PhaseOk c s' (held.filter (·.fd ≠ fd)) ph) :
    Kept c { s' with phase := ph } (log ++ putIf b (s.fd_hash fd)) buf pip (held.filter (·.fd ≠ fd)) := by
  have hown' : c.poll_method = .epoll → fd ∉ (s.calls ++ adds (buf ++ pip)).map FdMap.fd := by
    intro hm
    rw [h.direct (.inl hm), append_nil]
    exact hown hm
  have ht : Table c _ s'.calls _ _ s'.fd_hash := h.table.removed hr hown' hkq
  refine ⟨ht, ⟨hr.watching.array, hr.watching.sets⟩, hb ▸ h.buff,
    hr.pipe ▸ h.pipe, ?_, h.fires, h.direct, hph.mono (fun _ hk => hk) fun _ _ hfd => hfd, fun hm => ?_⟩
  · rw [written_append, executed_append, h.written]
    cases b <;> simp [putIf, Reactor.written, Reactor.executed]
  · rw [hr.hash _ hctl.symm]
    exact h.control hm

theorem Kept.executed_fire (h : Kept c s log (.fire fd :: buf) pip held) {junk : ℤ}
    (hph : s.phase = .commands (FIRE_FD :: fd :: junk :: l) next) :
    Kept c { s with phase := .commands l next } (log ++ [.execute (.fire fd)]) buf pip held := by
  have hbuff := h.buff
  have hok := h.phase
  rw [hph] at hbuff hok
  refine ⟨h.table.congr events_execute, ⟨h.watching.array, h.watching.sets⟩, ?_, h.pipe, ?_,
    fun fd hfd => h.fires fd (mem_cons_of_mem _ hfd), h.direct,
    PhaseOk.mono hok (fun _ hk => hk) fun _ _ hfd => hfd, h.control⟩
  · exact hbuff.tail
  · rw [written_append, executed_append, h.written]
    simp

theorem Kept.added {e : FdMap} (h : Kept c s log (.add e :: buf) pip held) {ev : ℤ}
    (hph : s.phase = .commands (ADD_FD :: e.fd :: ev :: l) next) (ha : Added c s s' held e) :
    Kept c { s' with phase := .commands l next } (log ++ [.execute (.add e)]) buf pip (held ++ [e]) := by
  have hbuff := h.buff
  have hok := h.phase
  rw [hph] at hbuff hok
  refine ⟨?_, ⟨ha.watching.array, ha.watching.sets⟩, ?_, ha.pipe ▸ h.pipe, ?_,
    fun fd hfd => h.fires fd (mem_cons_of_mem _ hfd), fun hm => ?_, ?_, fun hm => ?_⟩
  · show Table c _ s'.calls _ _ s'.fd_hash
    rw [ha.calls, ha.hash]
    exact (h.table.add).congr events_execute
  · exact hbuff.tail
  · rw [written_append, executed_append, h.written]
    simp
  · exact absurd (h.direct hm) (cons_ne_nil _ _)
  · refine PhaseOk.mono hok (fun fd hk => ?_) fun _ fd hfd => ?_
    · rw [Known, ha.hash]
      exact hk
    · rw [map_append]
      exact mem_append_left _ hfd
  · show (s'.fd_hash c.control_pipe).fd = c.control_pipe
    rw [ha.hash]
    exact h.control hm

theorem Kept.head (h : Kept c s log buf pip held) {e : FdMap} (he : e ∈ adds (buf ++ pip)) :
    s.fd_hash e.fd = e ∧ InRange c e.fd ∧ e.fd ∉ held.map FdMap.fd := by
  have hmem : e ∈ pending log := h.table.mem.2 (.inr (.inl he))
  refine ⟨h.table.hash e hmem, h.table.range e hmem, fun hin => ?_⟩
  obtain ⟨e', he', heq⟩ := List.mem_map.1 hin
  exact h.table.disjoint.2 e (mem_append_right _ he) e' he' heq.symm

/-- **A registration is carried out**: the descriptor is watched from then on, with its own task. -/
theorem step_add (h : Kept c s log (.add e :: buf) pip held) (hc : c.Sound)
    (hph : s.phase = .commands (ADD_FD :: e.fd :: c.type.code :: l) next) :
    ∃ s', step c s = some ({ s' with phase := .commands l next }, [.execute (.add e)]) ∧
      Added c s s' held e := by
  obtain ⟨hash, hr, hnew⟩ := h.head (show e ∈ adds (.add e :: buf ++ pip) from mem_cons_self)
  have hn := h.table.nodup_control
  have hheld : ∀ fd ∈ held.map FdMap.fd, InRange c fd := fun fd => h.table.held_range
  simp only [step, hph, command]
  cases hm : c.poll_method with
  | poll =>
    obtain ⟨s', heq, ha⟩ := poll_added hm hc h.watching hn hheld hr hnew c.type.code
    exact ⟨s', by simp only [poll_command, array_command, if_pos, heq, hash, map_some], ha⟩
  | select =>
    obtain ⟨s', heq, ha⟩ := select_added hm hc h.watching hn hheld hr hnew
    exact ⟨s', by simp only [select_command, array_command, if_pos, heq, hash, map_some], ha⟩
  | epoll => exact absurd (h.direct (.inl hm)) (cons_ne_nil _ _)
  | kqueue => exact absurd (h.direct (.inr hm)) (cons_ne_nil _ _)

theorem not_held {s : IoWait} (hr : InRange c fd) (hown : fd ∈ held.map FdMap.fd → (s.fd_hash fd).fd = fd)
    (hneg : (s.fd_hash fd).fd = -1) : fd ∉ held.map FdMap.fd := by
  intro hin
  have h0 := hr.nonneg
  rw [hown hin] at hneg
  omega

/-- What `array_command` does for a fire, given what `del` does. -/
theorem array_fire {add : IoWait → ℤ → ℤ → Option IoWait} {del : IoWait → ℤ → Option (IoWait × Bool)}
    (hw : Watching c s held) (hr : InRange c fd) (hown : fd ∈ held.map FdMap.fd → (s.fd_hash fd).fd = fd)
    (hdel : ∃ s' b, del s fd = some (s', b) ∧ Removed c s s' held fd b) (junk : ℤ) :
    ∃ s' b, array_command c s add del FIRE_FD fd junk =
        some (s', .execute (.fire fd) :: putIf b (s.fd_hash fd)) ∧ Removed c s s' held fd b := by
  obtain ⟨s', b, heq, hrem⟩ := hdel
  rw [array_command, if_neg (by decide), if_pos rfl, get_fd_map, if_pos ⟨hr.nonneg, hr.lt⟩]
  dsimp only
  by_cases hneg : (s.fd_hash fd).fd = -1
  · rw [if_neg (not_not.2 hneg)]
    exact ⟨s, false, rfl, .none hw (not_held hr hown hneg)⟩
  · rw [if_pos hneg, heq]
    exact ⟨s', b, by cases b <;> rfl, hrem⟩

/-- **A fire is carried out**: the descriptor's own task is dispatched if it is watched, and the
descriptor is watched no more. -/
theorem step_fire (h : Kept c s log (.fire fd :: buf) pip held) {junk : ℤ}
    (hph : s.phase = .commands (FIRE_FD :: fd :: junk :: l) next) :
    ∃ s' b, step c s = some ({ s' with phase := .commands l next },
        .execute (.fire fd) :: putIf b (s.fd_hash fd)) ∧ Removed c s s' held fd b := by
  have hr : InRange c fd := h.fires fd mem_cons_self
  have hn := h.table.nodup_control
  have hown : fd ∈ held.map FdMap.fd → (s.fd_hash fd).fd = fd := fun hin => (h.table.held_hash hin).2
  have hok := h.phase
  rw [hph] at hok
  have hcommand : ∃ s' b, command c s FIRE_FD fd junk =
      some (s', .execute (.fire fd) :: putIf b (s.fd_hash fd)) ∧ Removed c s s' held fd b := by
    rw [command]
    cases hm : c.poll_method with
    | poll =>
      exact array_fire h.watching hr hown ⟨_, _, rfl, poll_removed hm h.watching hn hr.ne none
        fun i hi => by cases hi⟩ junk
    | select =>
      exact array_fire h.watching hr hown (select_removed hm h.watching hn hr none
        fun i hi => by cases hi) junk
    | epoll =>
      obtain ⟨s', b, heq, hrem⟩ := epoll_removed hm h.watching hr.nonneg hr.lt hr.ne
      dsimp only
      rw [epoll_command, if_pos rfl, get_fd_map, if_pos ⟨hr.nonneg, hr.lt⟩]
      dsimp only
      by_cases hneg : (s.fd_hash fd).fd = -1
      · rw [if_neg (not_not.2 hneg)]
        exact ⟨s, false, rfl, .none h.watching (not_held hr hown hneg)⟩
      · rw [if_pos hneg, heq]
        exact ⟨s', b, by cases b <;> rfl, hrem⟩
    | kqueue => exact absurd hm hok.1
  obtain ⟨s', b, heq, hrem⟩ := hcommand
  refine ⟨s', b, ?_, hrem⟩
  simp only [step, hph, heq, map_some]

end Executing

end OpenSips.Reactor
