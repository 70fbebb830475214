import OpenSips.Dispatcher.Runs

/-!
# OpenSips.Dispatcher.Producers — who puts tasks, and how many (`timer.c`, `net/tcp/conns.c`)

`put_task` has no check of its own: the tasks stay inside `nodes` as long as the producers are at
most `MAX_TASKS` tasks ahead of the workers.  A tick of the timer and a connection that terminates
put their tasks from one loop.
-/

namespace OpenSips.Dispatcher

open Lib Lib.Heap List

/-- The `put_task` calls of one loop. -/
def put_all (d : Dispatcher) (tasks : List HeapNode) : Option Dispatcher := tasks.foldlM put_task d

def TIMER_TICK : ℕ := 1

/-- `struct timer_task` -/
structure TimerTask where
  task : HeapNode
  interval : ℕ
  runtime : ℕ

/-- `register_timer`, with the priority `build_ttask` gives. -/
def register_timer (ttasks : List TimerTask) (f param : Ptr) (interval : ℕ) : List TimerTask :=
  ttasks ++ [⟨⟨0, 100, 0, f, param, 0⟩, interval, interval⟩]

/-- `timer_ticker`: the new `jiffies`, the timers, and the tasks put in order. -/
def timer_ticker (jiffies : ℕ) (ttasks : List TimerTask) : ℕ × List TimerTask × List HeapNode :=
  let jiffies := (jiffies + TIMER_TICK) % 2 ^ 32
  (jiffies, ttasks.map fun t =>
      if t.runtime ≤ jiffies then { t with runtime := (jiffies + t.interval) % 2 ^ 32 } else t,
    (ttasks.filter fun t => t.runtime ≤ jiffies).map TimerTask.task)

def TASK_PRIO_RESUME_EXEC : ℤ := 3

/-- `resume_pending_writes`: the tasks put for the contexts of the queued writes. -/
def resume_pending_writes (socket : ℤ) (resume_write_on_failue : Ptr) (ctxs : List Ptr) :
    List HeapNode :=
  ctxs.map fun ctx => ⟨socket, TASK_PRIO_RESUME_EXEC, 0, resume_write_on_failue, ctx, 0⟩

theorem put_task_none {d : Dispatcher} (h : MAX_TASKS ≤ d.size) (n : HeapNode) :
    put_task d n = none := by
  rw [put_task, if_neg (not_lt.2 h)]

theorem put_all_spec {d : Dispatcher} (ho : HeapOrder d) {tasks : List HeapNode}
    (hs : d.size + tasks.length ≤ MAX_TASKS) :
    ∃ d', put_all d tasks = some d' ∧ pending d' = (tasks : Multiset HeapNode) + pending d := by
  induction tasks generalizing d with
  | nil => exact ⟨d, rfl, (zero_add _).symm⟩
  | cons n tasks ih =>
    rw [length_cons] at hs
    obtain ⟨d1, e1, hsz, ho1, hp1⟩ := put_task_spec (d := d) (by omega) ho n
    obtain ⟨d', e', hp'⟩ := ih ho1 (by omega)
    refine ⟨d', ?_, ?_⟩
    · rw [put_all, foldlM_cons, e1]
      exact e'
    · rw [hp', hp1, ← Multiset.cons_coe, Multiset.cons_add, Multiset.add_cons]

theorem put_all_none {d : Dispatcher} (ho : HeapOrder d) {tasks : List HeapNode}
    (hd : d.size ≤ MAX_TASKS) (hs : MAX_TASKS < d.size + tasks.length) :
    put_all d tasks = none := by
  induction tasks generalizing d with
  | nil =>
    rw [length_nil] at hs
    omega
  | cons n tasks ih =>
    rw [length_cons] at hs
    rw [put_all, foldlM_cons]
    by_cases hlt : d.size < MAX_TASKS
    · obtain ⟨d1, e1, hsz, ho1, -⟩ := put_task_spec hlt ho n
      rw [e1]
      exact ih ho1 (by omega) (by omega)
    · rw [put_task_none (not_lt.1 hlt)]
      rfl

end OpenSips.Dispatcher
