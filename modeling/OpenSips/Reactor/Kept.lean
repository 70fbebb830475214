import Mathlib.Data.Int.Interval
import OpenSips.Reactor.Table

/-!
# OpenSips.Reactor.Kept — the hash, the array and the kernel keep step

For every back-end, the descriptors that are watched are those in the array and those that the kernel
has, and the hash has their tasks.
-/

namespace OpenSips.Reactor

open Lib.OneShot List Option

/-- What is assumed of a reactor: its control pipe has a place in the hash and fits into an `fd_set`,
and kqueue watches for input only. -/
structure Config.Sound (c : Config) : Prop where
  nonneg : 0 ≤ c.control_pipe
  lt : c.control_pipe < c.max_fd_no
  set : c.poll_method = .select → c.control_pipe < FD_SETSIZE
  kqueue : c.poll_method = .kqueue → c.type = .IN

def Config.pipes (c : Config) : List (ℤ × ReactorType) :=
  if c.poll_method = .kqueue then [] else [(c.control_pipe, .IN)]

structure Watching (c : Config) (s : IoWait) (held : List FdMap) : Prop where
  array : c.poll_method = .poll ∨ c.poll_method = .select →
    s.fd_array.map PollFd.fd = c.control_pipe :: held.map FdMap.fd
  sets : c.poll_method ≠ .poll → s.sets = c.pipes ++ held.map fun e => (e.fd, c.type)

/-- A state in which a descriptor is removed: `b` is whether it was found. -/
structure Removed (c : Config) (s s' : IoWait) (held : List FdMap) (fd : ℤ) (b : Bool) : Prop where
  watching : Watching c s' (held.filter (·.fd ≠ fd))
  found : b = true ↔ fd ∈ held.map FdMap.fd
  hash : ∀ fd', fd' ≠ fd → s'.fd_hash fd' = s.fd_hash fd'
  own : s'.fd_hash fd = s.fd_hash fd ∨
    (c.poll_method = .epoll ∨ c.poll_method = .kqueue) ∧ (s'.fd_hash fd).fd = -1
  pipe : s'.pipe = s.pipe
  calls : s'.calls = s.calls
  phase : s'.phase = s.phase

section Lists

theorem map_eraseIdx {l : List PollFd} (hl : (l.map PollFd.fd).Nodup) {i : ℕ} {p : PollFd}
    (hi : l[i]? = some p) : (l.eraseIdx i).map PollFd.fd = (l.map PollFd.fd).filter (· ≠ p.fd) := by
  induction l generalizing i with
  | nil => cases hi
  | cons q l ih =>
    obtain ⟨hq, hl⟩ := nodup_cons.1 hl
    cases i with
    | zero =>
      cases hi
      rw [eraseIdx_cons_zero, map_cons, filter_cons_of_neg (by simp), eq_comm, filter_eq_self]
      intro fd hfd
      rw [decide_eq_true_eq]
      rintro rfl
      exact hq hfd
    | succ i =>
      rw [getElem?_cons_succ] at hi
      have hne : q.fd ≠ p.fd := fun he => hq (he ▸ List.mem_map_of_mem (mem_of_getElem? hi))
      rw [eraseIdx_cons_succ, map_cons, map_cons, ih hl hi, filter_cons_of_pos (by simpa using hne)]

theorem filter_fd (held : List FdMap) (fd : ℤ) :
    (held.map FdMap.fd).filter (· ≠ fd) = (held.filter (·.fd ≠ fd)).map FdMap.fd := by
  rw [List.filter_map]
  rfl

/-- Different descriptors below `m` are no more than `m`. -/
theorem length_le_of_nodup {l : List ℤ} {m : ℤ} (hl : l.Nodup) (hm : ∀ fd ∈ l, 0 ≤ fd ∧ fd < m) :
    l.length ≤ m.toNat := by
  have hsub : l.toFinset ⊆ Finset.Ico 0 m := by
    intro fd hfd
    exact Finset.mem_Ico.2 (hm fd (List.mem_toFinset.1 hfd))
  have hcard := Finset.card_le_card hsub
  rwa [toFinset_card_of_nodup hl, Int.card_Ico, Int.sub_zero] at hcard

end Lists

section Spelling

/-- The numbers that spell some commands; `ev` is the type of the reactor. -/
inductive Spells (ev : ℤ) : List ℤ → List Command → Prop where
  | nil : Spells ev [] []
  | add {e : FdMap} {l : List ℤ} {cs : List Command} (rest : Spells ev l cs) :
      Spells ev (ADD_FD :: e.fd :: ev :: l) (.add e :: cs)
  | fire {fd junk : ℤ} {l : List ℤ} {cs : List Command} (rest : Spells ev l cs) :
      Spells ev (FIRE_FD :: fd :: junk :: l) (.fire fd :: cs)

variable {ev : ℤ}

theorem Spells.append {l l' : List ℤ} {cs cs' : List Command} (h : Spells ev l cs)
    (h' : Spells ev l' cs') : Spells ev (l ++ l') (cs ++ cs') := by
  induction h with
  | nil => exact h'
  | add _ ih => exact .add ih
  | fire _ ih => exact .fire ih

variable {cs : List Command} {l : List ℤ}

theorem Spells.tail {ev x y z : ℤ} {c : Command}
    (h : Spells ev (x :: y :: z :: l) (c :: cs)) : Spells ev l cs := by
  cases h with
  | add rest => exact rest
  | fire rest => exact rest

theorem Spells.eq_nil (h : Spells ev [] cs) : cs = [] := by
  cases h
  rfl

theorem Spells.ne_nil (h : Spells ev l cs) : l = [] ↔ cs = [] := by
  cases h <;> simp

theorem Spells.length (h : Spells ev l cs) : l.length = 3 * cs.length := by
  induction h with
  | nil => rfl
  | add _ ih => simp only [length_cons, ih]; omega
  | fire _ ih => simp only [length_cons, ih]; omega

end Spelling

/-- What is left of what was read from the pipe. -/
def Phase.buff : Phase → List ℤ
  | .commands buff _ => buff
  | _ => []

/-- An event that epoll reported is about an entry of the hash that was filled in. -/
def Known (c : Config) (s : IoWait) (fd : ℤ) : Prop :=
  0 ≤ fd ∧ fd < c.max_fd_no ∧ ((s.fd_hash fd).fd = fd ∨ (s.fd_hash fd).fd = -1)

def PhaseOk (c : Config) (s : IoWait) (held : List FdMap) : Phase → Prop
  | .idle => True
  | .scan todo events => c.poll_method = .epoll ∧ ∀ fd ∈ todo ++ events, Known c s fd
  | .control next => c.poll_method ≠ .kqueue ∧ next.buff = [] ∧ PhaseOk c s held next
  | .commands _ next => c.poll_method ≠ .kqueue ∧ next.buff = [] ∧ PhaseOk c s held next
  | .sweep _ _ r => (c.poll_method = .poll ∨ c.poll_method = .select) ∧ 1 ≤ r
  | .events todo => c.poll_method = .epoll ∧ (∀ fd ∈ todo, Known c s fd) ∨
      c.poll_method = .kqueue ∧ todo.Nodup ∧ ∀ fd ∈ todo, fd ∈ held.map FdMap.fd

/-- `buf` and `pip` are the commands that were read and those in the pipe; `held` are the tasks of the
descriptors that are watched, in the order of the array. -/
structure Kept (c : Config) (s : IoWait) (log : List Effect) (buf pip : List Command)
    (held : List FdMap) : Prop where
  table : Table c log s.calls (adds (buf ++ pip)) held s.fd_hash
  watching : Watching c s held
  buff : Spells c.type.code s.phase.buff buf
  pipe : Spells c.type.code s.pipe pip
  written : written log = executed log ++ buf ++ pip
  fires : ∀ fd, .fire fd ∈ buf ++ pip → InRange c fd
  direct : c.poll_method = .epoll ∨ c.poll_method = .kqueue → adds (buf ++ pip) = []
  phase : PhaseOk c s held s.phase
  control : c.poll_method = .epoll → (s.fd_hash c.control_pipe).fd = c.control_pipe

def Inv (c : Config) (s : IoWait) (log : List Effect) : Prop := ∃ buf pip held, Kept c s log buf pip held

section Watching

variable {c : Config} {s s' : IoWait} {held : List FdMap} {fd : ℤ}

theorem Watching.congr (h : Watching c s held) (ha : s'.fd_array.map PollFd.fd = s.fd_array.map PollFd.fd)
    (hs : s'.sets = s.sets) : Watching c s' held :=
  ⟨fun hm => ha.trans (h.array hm), fun hm => hs.trans (h.sets hm)⟩

theorem Config.pipes_eq (hm : c.poll_method ≠ .kqueue) : c.pipes = [(c.control_pipe, .IN)] := if_neg hm

theorem Watching.watched (h : Watching c s held) :
    watched c s = c.pipes.map Prod.fst ++ held.map FdMap.fd := by
  rw [Reactor.watched]
  by_cases hm : c.poll_method = .poll
  · rw [if_pos hm, h.array (.inl hm), Config.pipes_eq (by simp [hm])]
    rfl
  · rw [if_neg hm, h.sets hm, map_append, List.map_map]
    rfl

theorem Watching.mem_watched (h : Watching c s held) (hfd : fd ≠ c.control_pipe) :
    fd ∈ Reactor.watched c s ↔ fd ∈ held.map FdMap.fd := by
  rw [h.watched, mem_append, or_iff_right]
  rw [Config.pipes]
  intro hmem
  by_cases hm : c.poll_method = .kqueue
  · rw [if_pos hm] at hmem
    cases hmem
  · rw [if_neg hm] at hmem
    exact hfd (mem_singleton.1 hmem)

theorem pipes_filter (hfd : fd ≠ c.control_pipe) : c.pipes.filter (·.1 ≠ fd) = c.pipes := by
  rw [filter_eq_self]
  intro x hx
  rw [Config.pipes] at hx
  by_cases hm : c.poll_method = .kqueue
  · rw [if_pos hm] at hx
    cases hx
  · rw [if_neg hm] at hx
    rw [mem_singleton.1 hx]
    simpa using hfd.symm

theorem Watching.filter_sets (h : Watching c s held) (hfd : fd ≠ c.control_pipe) (hm : c.poll_method ≠ .poll) :
    s.sets.filter (·.1 ≠ fd) = c.pipes ++ (held.filter (·.fd ≠ fd)).map fun e => (e.fd, c.type) := by
  rw [h.sets hm, filter_append, pipes_filter hfd, List.filter_map]
  rfl

theorem filter_eq_of_not_mem (hfd : fd ∉ held.map FdMap.fd) : held.filter (·.fd ≠ fd) = held := by
  rw [filter_eq_self]
  intro e he
  rw [decide_eq_true_eq]
  rintro rfl
  exact hfd (List.mem_map_of_mem he)

end Watching

section Removing

variable {c : Config} {s : IoWait} {held : List FdMap} {fd : ℤ}

theorem array_fd_del_spec (harr : s.fd_array.map PollFd.fd = c.control_pipe :: held.map FdMap.fd)
    (hn : (c.control_pipe :: held.map FdMap.fd).Nodup) (hfd : fd ≠ c.control_pipe) (idx : Option ℕ)
    (hidx : ∀ i, idx = some i → ∃ p, s.fd_array[i]? = some p ∧ p.fd = fd) :
    ∃ a b, array_fd_del s fd idx = ({ s with fd_array := a }, b) ∧
      a.map PollFd.fd = c.control_pipe :: (held.filter (·.fd ≠ fd)).map FdMap.fd ∧
      (b = true ↔ fd ∈ held.map FdMap.fd) := by
  have hmem : fd ∈ s.fd_array.map PollFd.fd ↔ fd ∈ held.map FdMap.fd := by
    rw [harr, mem_cons, or_iff_right hfd]
  have hfilter : c.control_pipe :: (held.filter (·.fd ≠ fd)).map FdMap.fd =
      (s.fd_array.map PollFd.fd).filter (· ≠ fd) := by
    rw [harr, filter_cons_of_pos (by simpa using hfd.symm), filter_fd]
  obtain ⟨i, hi, hplace⟩ : ∃ i, idx.getD (s.fd_array.findIdx (·.fd = fd)) = i ∧
      (fd ∈ held.map FdMap.fd → ∃ p, s.fd_array[i]? = some p ∧ p.fd = fd) := by
    cases idx with
    | some i => exact ⟨i, rfl, fun _ => hidx i rfl⟩
    | none =>
      refine ⟨_, rfl, fun hin => ?_⟩
      obtain ⟨p, hp, hpf⟩ := List.mem_map.1 (hmem.2 hin)
      have hlt : s.fd_array.findIdx (·.fd = fd) < s.fd_array.length :=
        findIdx_lt_length.2 ⟨p, hp, by simpa using hpf⟩
      refine ⟨_, getElem?_eq_getElem hlt, ?_⟩
      simpa using @findIdx_getElem _ (·.fd = fd) s.fd_array hlt
  by_cases hin : fd ∈ held.map FdMap.fd
  · obtain ⟨p, hp, rfl⟩ := hplace hin
    have hlt : i < s.fd_array.length := (List.getElem?_eq_some_iff.1 hp).1
    refine ⟨s.fd_array.eraseIdx i, true, ?_, ?_, by simpa using hin⟩
    · rw [array_fd_del, hi, if_pos hlt]
    · rw [hfilter]
      exact map_eraseIdx (harr ▸ hn) hp
  · have hge : ¬ i < s.fd_array.length := by
      intro hlt
      cases idx with
      | some j =>
        obtain ⟨p, hp, hpf⟩ := hidx j rfl
        exact hin (hmem.1 (List.mem_map.2 ⟨p, mem_of_getElem? hp, hpf⟩))
      | none =>
        obtain ⟨p, hp, hpf⟩ := findIdx_lt_length.1 (hi ▸ hlt)
        exact hin (hmem.1 (List.mem_map.2 ⟨p, hp, by simpa using hpf⟩))
    refine ⟨s.fd_array, false, ?_, ?_, by simpa using hin⟩
    · rw [array_fd_del, hi, if_neg hge]
    · rw [filter_eq_of_not_mem hin, harr]

theorem poll_removed (hm : c.poll_method = .poll) (hw : Watching c s held)
    (hn : (c.control_pipe :: held.map FdMap.fd).Nodup) (hfd : fd ≠ c.control_pipe) (idx : Option ℕ)
    (hidx : ∀ i, idx = some i → ∃ p, s.fd_array[i]? = some p ∧ p.fd = fd) :
    Removed c s (array_fd_del s fd idx).1 held fd (array_fd_del s fd idx).2 := by
  obtain ⟨a, b, heq, ha, hb⟩ := array_fd_del_spec (hw.array (.inl hm)) hn hfd idx hidx
  rw [heq]
  exact ⟨⟨fun _ => ha, fun h => absurd hm h⟩, hb, fun _ _ => rfl, .inl rfl, rfl, rfl, rfl⟩

theorem select_removed (hm : c.poll_method = .select) (hw : Watching c s held)
    (hn : (c.control_pipe :: held.map FdMap.fd).Nodup) (hr : InRange c fd) (idx : Option ℕ)
    (hidx : ∀ i, idx = some i → ∃ p, s.fd_array[i]? = some p ∧ p.fd = fd) :
    ∃ s' b, select_local_del s fd idx = some (s', b) ∧ Removed c s s' held fd b := by
  have hclr : FD_CLR s fd = some { s with sets := s.sets.filter (·.1 ≠ fd) } :=
    if_pos ⟨hr.nonneg, hr.set hm⟩
  obtain ⟨a, b, heq, ha, hb⟩ := @array_fd_del_spec c { s with sets := s.sets.filter (·.1 ≠ fd) } held fd
    (hw.array (.inr hm)) hn hr.ne idx hidx
  refine ⟨{ s with sets := s.sets.filter (·.1 ≠ fd), fd_array := a }, b, ?_,
    ⟨fun _ => ha, fun h => ?_⟩, hb, fun _ _ => rfl, .inl rfl, rfl, rfl, rfl⟩
  · rw [select_local_del, hclr, map_some, heq]
  · exact hw.filter_sets hr.ne h

theorem safe_remove_spec (h0 : 0 ≤ fd) (hlt : fd < c.max_fd_no) :
    safe_remove_from_hash c s fd = some (unhash_fd_map s fd, true) := by
  rw [safe_remove_from_hash, if_neg (by omega), if_neg (by omega)]

theorem unhash_of_ne {fd' : ℤ} (h : fd' ≠ fd) : (unhash_fd_map s fd).fd_hash fd' = s.fd_hash fd' :=
  if_neg h

theorem unhash_fd : ((unhash_fd_map s fd).fd_hash fd).fd = -1 := by
  rw [unhash_fd_map]
  dsimp only
  rw [if_pos rfl]

theorem mem_sets (hm : c.poll_method ≠ .poll) (hw : Watching c s held) (hfd : fd ≠ c.control_pipe) :
    fd ∈ s.sets.map Prod.fst ↔ fd ∈ held.map FdMap.fd := by
  have h := hw.mem_watched hfd
  rwa [watched, if_neg hm] at h

theorem epoll_removed (hm : c.poll_method = .epoll) (hw : Watching c s held) (h0 : 0 ≤ fd)
    (hlt : fd < c.max_fd_no) (hfd : fd ≠ c.control_pipe) :
    ∃ s' b, epoll_del c s fd = some (s', b) ∧ Removed c s s' held fd b := by
  have hmem := mem_sets (by simp [hm]) hw hfd
  have hmp : c.poll_method ≠ .poll := by simp [hm]
  rw [epoll_del, safe_remove_spec h0 hlt]
  dsimp only
  by_cases hin : fd ∈ held.map FdMap.fd
  · rw [if_pos (show fd ∈ (unhash_fd_map s fd).sets.map Prod.fst from hmem.2 hin)]
    exact ⟨_, true, rfl, ⟨fun h => by simp [hm] at h, fun _ => hw.filter_sets hfd hmp⟩,
      by simpa using hin, fun _ h => unhash_of_ne h, .inr ⟨.inl hm, unhash_fd⟩, rfl, rfl, rfl⟩
  · rw [if_neg (show fd ∉ (unhash_fd_map s fd).sets.map Prod.fst from fun h => hin (hmem.1 h))]
    refine ⟨_, false, rfl, ⟨fun h => by simp [hm] at h, fun _ => ?_⟩, by simpa using hin,
      fun _ h => unhash_of_ne h, .inr ⟨.inl hm, unhash_fd⟩, rfl, rfl, rfl⟩
    rw [filter_eq_of_not_mem hin]
    exact hw.sets hmp

theorem kqueue_removed (hm : c.poll_method = .kqueue) (hc : c.Sound) (hw : Watching c s held)
    (hr : InRange c fd) (hin : fd ∈ held.map FdMap.fd) :
    ∃ s', kqueue_del c s fd = some (s', true) ∧ Removed c s s' held fd true := by
  have hmp : c.poll_method ≠ .poll := by simp [hm]
  have hsets : s.sets = held.map fun e => (e.fd, ReactorType.IN) := by
    rw [hw.sets hmp, Config.pipes, if_pos hm, hc.kqueue hm, nil_append]
  have hmem : (fd, ReactorType.IN) ∈ (unhash_fd_map s fd).sets := by
    show (fd, ReactorType.IN) ∈ s.sets
    obtain ⟨e, he, rfl⟩ := List.mem_map.1 hin
    rw [hsets]
    exact List.mem_map.2 ⟨e, he, rfl⟩
  have hfilter : s.sets.filter (· ≠ (fd, ReactorType.IN)) = s.sets.filter (·.1 ≠ fd) := by
    refine filter_congr fun x hx => ?_
    rw [hsets] at hx
    obtain ⟨e, _, rfl⟩ := List.mem_map.1 hx
    simp
  rw [kqueue_del, safe_remove_spec hr.nonneg hr.lt]
  dsimp only
  rw [if_pos hmem]
  refine ⟨_, rfl, ⟨fun h => by simp [hm] at h, fun _ => ?_⟩, by simpa using hin,
    fun _ h => unhash_of_ne h, .inr ⟨.inr hm, unhash_fd⟩, rfl, rfl, rfl⟩
  show s.sets.filter (· ≠ (fd, ReactorType.IN)) = _
  rw [hfilter]
  exact hw.filter_sets hr.ne hmp

end Removing

section Adding

variable {c : Config} {s : IoWait} {held : List FdMap} {e : FdMap}

/-- A state in which a descriptor is watched. -/
structure Added (c : Config) (s s' : IoWait) (held : List FdMap) (e : FdMap) : Prop where
  watching : Watching c s' (held ++ [e])
  array : ∀ p ∈ s'.fd_array, p.revents = true → p ∈ s.fd_array
  hash : s'.fd_hash = s.fd_hash
  pipe : s'.pipe = s.pipe
  calls : s'.calls = s.calls
  phase : s'.phase = s.phase

theorem array_fd_add_spec (hc : c.Sound) (harr : s.fd_array.map PollFd.fd = c.control_pipe :: held.map FdMap.fd)
    (hn : (c.control_pipe :: held.map FdMap.fd).Nodup) (hheld : ∀ fd ∈ held.map FdMap.fd, InRange c fd)
    (hr : InRange c e.fd) (hnew : e.fd ∉ held.map FdMap.fd) (ev : ℤ) :
    ∃ a, array_fd_add c s e.fd ev = some { s with fd_array := a } ∧
      a.map PollFd.fd = c.control_pipe :: (held ++ [e]).map FdMap.fd ∧
      ∀ p ∈ a, p.revents = true → p ∈ s.fd_array := by
  have hall : (e.fd :: c.control_pipe :: held.map FdMap.fd).Nodup := by
    refine nodup_cons.2 ⟨fun hin => ?_, hn⟩
    rcases mem_cons.1 hin with heq | hin
    · exact hr.ne heq
    · exact hnew hin
  have hle := length_le_of_nodup hall (m := c.max_fd_no) fun fd hfd => by
    rcases mem_cons.1 hfd with rfl | hfd
    · exact ⟨hr.nonneg, hr.lt⟩
    rcases mem_cons.1 hfd with rfl | hfd
    · exact ⟨hc.nonneg, hc.lt⟩
    · exact ⟨(hheld fd hfd).nonneg, (hheld fd hfd).lt⟩
  have hlen : s.fd_array.length = held.length + 1 := by
    have hl := congrArg List.length harr
    rwa [length_map, length_cons, length_map] at hl
  rw [length_cons, length_cons, length_map] at hle
  have h0 := hc.nonneg
  have hlt := hc.lt
  refine ⟨_, if_pos (by omega), ?_, fun p hp hrev => ?_⟩
  · rw [map_append, harr, map_append]
    rfl
  · rcases mem_append.1 hp with hp | hp
    · exact hp
    · rw [mem_singleton.1 hp] at hrev
      cases hrev

theorem poll_added (hm : c.poll_method = .poll) (hc : c.Sound) (hw : Watching c s held)
    (hn : (c.control_pipe :: held.map FdMap.fd).Nodup) (hheld : ∀ fd ∈ held.map FdMap.fd, InRange c fd)
    (hr : InRange c e.fd) (hnew : e.fd ∉ held.map FdMap.fd) (ev : ℤ) :
    ∃ s', array_fd_add c s e.fd ev = some s' ∧ Added c s s' held e := by
  obtain ⟨a, heq, ha, hrev⟩ := array_fd_add_spec hc (hw.array (.inl hm)) hn hheld hr hnew ev
  exact ⟨_, heq, ⟨fun _ => ha, fun h => absurd hm h⟩, hrev, rfl, rfl, rfl, rfl⟩

theorem select_added (hm : c.poll_method = .select) (hc : c.Sound) (hw : Watching c s held)
    (hn : (c.control_pipe :: held.map FdMap.fd).Nodup) (hheld : ∀ fd ∈ held.map FdMap.fd, InRange c fd)
    (hr : InRange c e.fd) (hnew : e.fd ∉ held.map FdMap.fd) :
    ∃ s', select_local_add c s e.fd c.type.code = some s' ∧ Added c s s' held e := by
  obtain ⟨a, heq, ha, hrev⟩ := array_fd_add_spec hc (hw.array (.inr hm)) hn hheld hr hnew c.type.code
  have hmp : c.poll_method ≠ .poll := by simp [hm]
  have hset : (e.fd, c.type) ∉ s.sets := fun hin =>
    hnew ((mem_sets hmp hw hr.ne).1 (List.mem_map.2 ⟨_, hin, rfl⟩))
  have hset' : FD_SET { s with fd_array := a } e.fd c.type =
      some { s with fd_array := a, sets := s.sets ++ [(e.fd, c.type)] } := by
    rw [FD_SET, if_pos ⟨hr.nonneg, hr.set hm⟩]
    dsimp only
    rw [if_neg hset]
  refine ⟨{ s with fd_array := a, sets := s.sets ++ [(e.fd, c.type)] }, ?_,
    ⟨fun _ => ha, fun _ => ?_⟩, hrev, rfl, rfl, rfl, rfl⟩
  · rw [select_local_add, heq]
    dsimp only
    cases ht : c.type with
    | IN =>
      rw [ht] at hset'
      rw [if_pos rfl, hset']
    | OUT =>
      rw [ht] at hset'
      rw [if_neg (by decide), if_pos rfl, hset']
  · show s.sets ++ [(e.fd, c.type)] = _
    rw [hw.sets hmp, map_append, append_assoc]
    rfl

end Adding

end OpenSips.Reactor
