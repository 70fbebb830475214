import Mathlib.Data.List.Perm.Basic
import OpenSips.Lib.OneShot
import OpenSips.Reactor.Model

/-!
# OpenSips.Reactor.Table — what is registered, and where

The effects of a run say what is registered.  A registration is with a call of `submit_task`, in a
command of the control pipe, or watched; the hash has its task.
-/

namespace OpenSips.Reactor

open Lib.OneShot List

section Log

/-- Submissions and dispatches, as registrations and their uses. -/
def events : List Effect → List (Event FdMap) :=
  List.filterMap fun
    | .submit e => some (.register e)
    | .put_task e => some (.use e)
    | _ => none

/-- The commands that were written to the control pipe, in order. -/
def written : List Effect → List Command := List.filterMap fun | .write c => some c | _ => none

/-- The commands that were carried out, in order. -/
def executed : List Effect → List Command := List.filterMap fun | .execute c => some c | _ => none

def submitted (log : List Effect) : List FdMap := registered (events log)

def dispatched (log : List Effect) : List FdMap := used (events log)

/-- The tasks that were submitted and not dispatched. -/
def pending (log : List Effect) : List FdMap := standing FdMap.fd (events log)

/-- The registrations that are commands. -/
def adds : List Command → List FdMap := List.filterMap fun | .add e => some e | .fire _ => none

variable {log : List Effect} {e : FdMap} {c : Command}

@[simp] theorem events_write : events (log ++ [.write c]) = events log := by
  rw [events, filterMap_append]
  exact append_nil _

@[simp] theorem events_execute : events (log ++ [.execute c]) = events log := by
  rw [events, filterMap_append]
  exact append_nil _

@[simp] theorem events_submit : events (log ++ [.submit e]) = events log ++ [.register e] := by
  rw [events, filterMap_append]
  rfl

@[simp] theorem events_put_task : events (log ++ [.put_task e]) = events log ++ [.use e] := by
  rw [events, filterMap_append]
  rfl

@[simp] theorem written_append (log es : List Effect) : written (log ++ es) = written log ++ written es :=
  filterMap_append

@[simp] theorem executed_append (log es : List Effect) :
    executed (log ++ es) = executed log ++ executed es :=
  filterMap_append

@[simp] theorem written_submit : written [.submit e] = [] := rfl

@[simp] theorem written_write : written [.write c] = [c] := rfl

@[simp] theorem written_execute : written [.execute c] = [] := rfl

@[simp] theorem written_put_task : written [.put_task e] = [] := rfl

@[simp] theorem executed_submit : executed [.submit e] = [] := rfl

@[simp] theorem executed_write : executed [.write c] = [] := rfl

@[simp] theorem executed_execute : executed [.execute c] = [c] := rfl

@[simp] theorem executed_put_task : executed [.put_task e] = [] := rfl

@[simp] theorem adds_append (cs ds : List Command) : adds (cs ++ ds) = adds cs ++ adds ds :=
  filterMap_append

@[simp] theorem adds_add (cs : List Command) : adds (.add e :: cs) = e :: adds cs := rfl

@[simp] theorem adds_fire (fd : ℤ) (cs : List Command) : adds (.fire fd :: cs) = adds cs := rfl

end Log

/-- A descriptor that can be registered: there is a place for it in the hash, it is not the control pipe
of the reactor, and it fits into an `fd_set`. -/
structure InRange (c : Config) (fd : ℤ) : Prop where
  nonneg : 0 ≤ fd
  lt : fd < c.max_fd_no
  ne : fd ≠ c.control_pipe
  set : c.poll_method = .select → fd < FD_SETSIZE

/-- The registrations are those of the calls, of the commands and of the descriptors watched. -/
structure Table (c : Config) (log : List Effect) (calls added held : List FdMap) (hash : ℤ → FdMap) :
    Prop where
  proper : Proper FdMap.fd (events log)
  perm : (pending log).Perm (calls ++ added ++ held)
  hash : ∀ e ∈ pending log, hash e.fd = e
  range : ∀ e ∈ pending log, InRange c e.fd

section Table

variable {c : Config} {log : List Effect} {calls added held : List FdMap} {hash hash' : ℤ → FdMap}
  {e : FdMap} {fd : ℤ}

section

variable (h : Table c log calls added held hash)
include h

theorem Table.nodup : ((calls ++ added ++ held).map FdMap.fd).Nodup := (h.perm.map _).nodup_iff.1 h.proper.nodup

theorem Table.mem : e ∈ pending log ↔ e ∈ calls ∨ e ∈ added ∨ e ∈ held := by
  rw [h.perm.mem_iff, mem_append, mem_append, or_assoc]

theorem Table.disjoint : (∀ e ∈ calls, ∀ e' ∈ added, e.fd ≠ e'.fd) ∧
      ∀ e ∈ calls ++ added, ∀ e' ∈ held, e.fd ≠ e'.fd := by
  have hn := h.nodup
  rw [map_append, map_append] at hn
  obtain ⟨hca, _, hh⟩ := nodup_append.1 hn
  obtain ⟨_, _, hc⟩ := nodup_append.1 hca
  refine ⟨fun e he e' he' => hc _ (List.mem_map_of_mem he) _ (List.mem_map_of_mem he'),
    fun e he e' he' => hh _ ?_ _ (List.mem_map_of_mem he')⟩
  rw [← map_append]
  exact List.mem_map_of_mem he

theorem Table.nodup_held : (held.map FdMap.fd).Nodup := by
  have hn := h.nodup
  rw [map_append] at hn
  exact (nodup_append.1 hn).2.1

theorem Table.held_hash (he : fd ∈ held.map FdMap.fd) : hash fd ∈ held ∧ (hash fd).fd = fd := by
  obtain ⟨e, hmem, rfl⟩ := List.mem_map.1 he
  rw [h.hash e (h.mem.2 (.inr (.inr hmem)))]
  exact ⟨hmem, rfl⟩

theorem Table.held_range (he : fd ∈ held.map FdMap.fd) : InRange c fd := by
  obtain ⟨e, hmem, rfl⟩ := List.mem_map.1 he
  exact h.range e (h.mem.2 (.inr (.inr hmem)))

theorem Table.congr {log' : List Effect}
    (hlog : events log' = events log) : Table c log' calls added held hash := by
  have hp : pending log' = pending log := by rw [pending, hlog, pending]
  exact ⟨hlog ▸ h.proper, hp ▸ h.perm, fun e he => h.hash e (hp ▸ he), fun e he => h.range e (hp ▸ he)⟩

theorem Table.rehash (hash' : ℤ → FdMap) (hh : ∀ e ∈ pending log, hash' e.fd = hash e.fd) :
    Table c log calls added held hash' :=
  ⟨h.proper, h.perm, fun e he => (hh e he).trans (h.hash e he), h.range⟩

theorem Table.submit (hr : InRange c e.fd) (hfree : e.fd ∉ (pending log).map FdMap.fd)
    (hh : hash' = fun fd => if fd = e.fd then e else hash fd) :
    Table c (log ++ [.submit e]) (calls ++ [e]) added held hash' := by
  have hp : pending (log ++ [.submit e]) = pending log ++ [e] := by
    rw [pending, events_submit, standing_register, pending]
  constructor
  · rw [events_submit]
    exact .register h.proper hfree
  · rw [hp]
    refine (h.perm.append_right _).trans ?_
    rw [append_assoc, append_assoc, append_assoc, append_assoc]
    refine Perm.append_left _ ?_
    rw [← append_assoc, singleton_append]
    exact (perm_append_singleton _ _)
  · intro e' he'
    rw [hp] at he'
    rw [hh]
    rcases mem_append.1 he' with he' | he'
    · dsimp only
      rw [if_neg fun heq => hfree (List.mem_map.2 ⟨e', he', heq⟩), h.hash e' he']
    · rw [mem_singleton.1 he']
      exact if_pos rfl
  · intro e' he'
    rw [hp] at he'
    rcases mem_append.1 he' with he' | he'
    · exact h.range e' he'
    · rw [mem_singleton.1 he']
      exact hr

theorem Table.move {calls' added' held' : List FdMap}
    (hp : (calls ++ added ++ held).Perm (calls' ++ added' ++ held')) :
    Table c log calls' added' held' hash :=
  ⟨h.proper, h.perm.trans hp, h.hash, h.range⟩

end

variable {k : ℕ}

theorem eraseIdx_perm {l : List FdMap} (hk : l[k]? = some e) : l.Perm (e :: l.eraseIdx k) := by
  obtain ⟨hlt, rfl⟩ := List.getElem?_eq_some_iff.1 hk
  exact (getElem_cons_eraseIdx_perm hlt).symm

theorem Table.announce_pipe (h : Table c log calls added held hash) (hk : calls[k]? = some e) :
    Table c log (calls.eraseIdx k) (added ++ [e]) held hash := by
  refine h.move ?_
  rw [← append_assoc]
  refine Perm.append_right _ ?_
  refine ((eraseIdx_perm hk).append_right _).trans ?_
  rw [cons_append]
  exact (perm_append_singleton _ _).symm

theorem Table.announce_kernel (h : Table c log calls added held hash)
    (hk : calls[k]? = some e) : Table c log (calls.eraseIdx k) added (held ++ [e]) hash := by
  refine h.move ?_
  rw [← append_assoc, append_assoc, append_assoc _ added held]
  refine ((eraseIdx_perm hk).append_right _).trans ?_
  rw [cons_append]
  exact (perm_append_singleton _ _).symm

theorem Table.add (h : Table c log calls (e :: added) held hash) :
    Table c log calls added (held ++ [e]) hash := by
  refine h.move ?_
  rw [append_assoc, append_assoc]
  refine Perm.append_left _ ?_
  rw [← append_assoc, cons_append]
  exact (perm_append_singleton _ _).symm

theorem Table.put_task (h : Table c log calls added held hash) (he : e ∈ held)
    (hh : ∀ fd, fd ≠ e.fd → hash' fd = hash fd) :
    Table c (log ++ [.put_task e]) calls added (held.filter (·.fd ≠ e.fd)) hash' := by
  have hp : pending (log ++ [.put_task e]) = (pending log).filter (·.fd ≠ e.fd) := by
    rw [pending, events_put_task, standing_use, pending]
  have hmem : e ∈ pending log := h.mem.2 (.inr (.inr he))
  constructor
  · rw [events_put_task]
    exact .use h.proper hmem
  · have hrest : (calls ++ added).filter (·.fd ≠ e.fd) = calls ++ added := by
      rw [filter_eq_self]
      intro e' he'
      simpa using h.disjoint.2 e' he' e he
    rw [hp, ← hrest, ← filter_append]
    exact h.perm.filter _
  · intro e' he'
    rw [hp, mem_filter] at he'
    rw [hh _ (by simpa using he'.2), h.hash e' he'.1]
  · intro e' he'
    rw [hp, mem_filter] at he'
    exact h.range e' he'.1

end Table

end OpenSips.Reactor
