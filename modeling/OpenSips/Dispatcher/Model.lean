import OpenSips.Lib.Heap
import OpenSips.Str

/-!
# OpenSips.Dispatcher.Model — the task heap (`dispatcher/dispatcher.c`)

`none` is an access outside the array `nodes[MAX_TASKS]`.
-/

namespace OpenSips.Dispatcher

open Lib.Heap

def MAX_TASKS : ℕ := 1 <<< 11

/-- `struct fd_map`, a `heap_node_t`. -/
structure HeapNode where
  fd : ℤ
  priority : ℤ
  flags : ℤ
  cb : Ptr
  cb_param : Ptr
  last_reactor : Ptr
  deriving DecidableEq

structure Dispatcher where
  size : ℕ
  nodes : ℕ → HeapNode

/-- The loop of `put_task`. -/
def put_loop (nodes : ℕ → HeapNode) (cur : ℕ) : ℕ → HeapNode :=
  if 0 < cur then
    let parent := (cur - 1) / 2
    if (nodes cur).priority > (nodes parent).priority then put_loop (swap nodes parent cur) parent
    else nodes
  else nodes
termination_by cur

/-- `put_task`, from `lock_get` to `lock_release`. -/
def put_task (d : Dispatcher) (n : HeapNode) : Option Dispatcher :=
  if d.size < MAX_TASKS then
    some ⟨d.size + 1, put_loop (Function.update d.nodes d.size n) d.size⟩
  else none

/-- `maxi`: the greatest of `nodes[cur]` and its sons, the first one in doubt. -/
def maxi (nodes : ℕ → HeapNode) (size cur : ℕ) : ℕ :=
  let m := if (nodes (cur * 2 + 1)).priority > (nodes cur).priority then cur * 2 + 1 else cur
  if cur * 2 + 2 < size ∧ (nodes (cur * 2 + 2)).priority > (nodes m).priority then cur * 2 + 2
  else m

theorem maxi_cases (nodes : ℕ → HeapNode) (size cur : ℕ) :
    maxi nodes size cur = cur ∨ maxi nodes size cur = cur * 2 + 1 ∨
      maxi nodes size cur = cur * 2 + 2 ∧ cur * 2 + 2 < size := by
  unfold maxi
  by_cases h2 : cur * 2 + 2 < size ∧ (nodes (cur * 2 + 2)).priority >
      (nodes (if (nodes (cur * 2 + 1)).priority > (nodes cur).priority then cur * 2 + 1
        else cur)).priority
  · rw [if_pos h2]
    exact .inr (.inr ⟨rfl, h2.1⟩)
  · rw [if_neg h2]
    by_cases h1 : (nodes (cur * 2 + 1)).priority > (nodes cur).priority
    · rw [if_pos h1]
      exact .inr (.inl rfl)
    · rw [if_neg h1]
      exact .inl rfl

/-- The loop of `get_task`. -/
def get_loop (size : ℕ) (nodes : ℕ → HeapNode) (cur : ℕ) : ℕ → HeapNode :=
  if cur * 2 + 1 < size then
    if maxi nodes size cur ≠ cur then
      get_loop size (swap nodes cur (maxi nodes size cur)) (maxi nodes size cur)
    else nodes
  else nodes
termination_by size - cur
decreasing_by
  have := maxi_cases nodes size cur
  omega

/-- `get_task`, from `lock_get` to `lock_release`. -/
def get_task (d : Dispatcher) : Option (Dispatcher × HeapNode) :=
  if 0 < d.size then
    some (⟨d.size - 1, get_loop (d.size - 1) (Function.update d.nodes 0 (d.nodes (d.size - 1))) 0⟩,
      d.nodes 0)
  else none

/-- A dispatcher with its semaphore and the threads inside a call: `posting` have stored their task
and not yet called `sem_post`, `taking` have returned from `sem_wait` and not yet got a task. -/
structure Sys where
  disp : Dispatcher
  sem : ℕ
  posting : ℕ
  taking : ℕ

/-- The steps of threads inside `put_task` and `get_task`. -/
inductive Op where
  | put (n : HeapNode)
  | post
  | wait
  | get

def exec (s : Sys) : Op → Option (Sys × Option HeapNode)
  | .put n => (put_task s.disp n).map fun d => ({ s with disp := d, posting := s.posting + 1 }, none)
  | .post => some ({ s with sem := s.sem + 1, posting := s.posting - 1 }, none)
  | .wait => some ({ s with sem := s.sem - 1, taking := s.taking + 1 }, none)
  | .get => (get_task s.disp).map fun (d, n) =>
    ({ s with disp := d, taking := s.taking - 1 }, some n)

/-- When a thread can take a step: a thread is there, and the semaphore does not block it. -/
def Enabled (s : Sys) : Op → Prop
  | .put _ => True
  | .post => 0 < s.posting
  | .wait => 0 < s.sem
  | .get => 0 < s.taking

/-- `new_dispatcher`: what the memory of `nodes` holds does not matter. -/
def new_dispatcher (nodes : ℕ → HeapNode) : Sys := ⟨⟨0, nodes⟩, 0, 0, 0⟩

end OpenSips.Dispatcher
