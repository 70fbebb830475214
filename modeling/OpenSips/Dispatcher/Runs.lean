import OpenSips.Dispatcher.Model
import OpenSips.Lib.Machine

/-!
# OpenSips.Dispatcher.Runs — the task heap is a priority queue

The steps of any number of threads are interleaved.  Beside the dispatcher an observer keeps the
multiset of the pending tasks.
-/

namespace OpenSips.Dispatcher

open Lib Lib.Heap Option Function

variable {d d' : Dispatcher} {n t : HeapNode} {nodes : ℕ → HeapNode} {cur size : ℕ}

/-- The tasks stored. -/
def pending (d : Dispatcher) : Multiset HeapNode := bag d.nodes d.size

/-- The heap order of `nodes[0..size)`. -/
def HeapOrder (d : Dispatcher) : Prop := Ordered HeapNode.priority d.nodes d.size

theorem parent_eq (i : ℕ) : parent i = (i - 1) / 2 := rfl

theorem bag_put_loop (h : cur < size) : bag (put_loop nodes cur) size = bag nodes size := by
  induction nodes, cur using put_loop.induct with
  | case1 nodes cur h0 parent hgt ih =>
    rw [put_loop, if_pos h0, if_pos hgt, ih (by omega)]
    exact bag_swap _ (by omega) h
  | case2 nodes cur h0 parent hle => rw [put_loop, if_pos h0, if_neg hle]
  | case3 nodes cur h0 => rw [put_loop, if_neg h0]

theorem ordered_put_loop (h : cur < size) (hu : UpTo HeapNode.priority nodes size cur) :
    Ordered HeapNode.priority (put_loop nodes cur) size := by
  induction nodes, cur using put_loop.induct with
  | case1 nodes cur h0 parent hgt ih =>
    rw [put_loop, if_pos h0, if_pos hgt]
    exact ih (by omega) (hu.swap h0 h hgt)
  | case2 nodes cur h0 parent hle =>
    rw [put_loop, if_pos h0, if_neg hle]
    exact hu.done fun _ => not_lt.1 hle
  | case3 nodes cur h0 =>
    rw [put_loop, if_neg h0]
    exact hu.done fun h => absurd h h0

/-- **`put_task`** in a heap with a free entry. -/
theorem put_task_spec (hs : d.size < MAX_TASKS) (ho : HeapOrder d) (n : HeapNode) :
    ∃ d', put_task d n = some d' ∧ d'.size = d.size + 1 ∧ HeapOrder d' ∧ pending d' = n ::ₘ pending d := by
  have hold : ∀ k < d.size, Function.update d.nodes d.size n k = d.nodes k := fun k hk =>
    update_of_ne hk.ne _ _
  refine ⟨_, by rw [put_task, if_pos hs], rfl, ?_, ?_⟩
  · refine ordered_put_loop (Nat.lt_succ_self _) (Ordered.upTo fun i h0 hi => ?_)
    rw [hold i hi, hold _ ((parent_lt h0).trans hi)]
    exact ho i h0 hi
  · rw [pending, bag_put_loop (Nat.lt_succ_self _), bag_succ, update_self, bag_congr hold, pending]

theorem maxi_max {i : ℕ} (h0 : 0 < i) (hi : i < size)
    (hp : parent i = cur) : (nodes i).priority ≤ (nodes (maxi nodes size cur)).priority ∧
      (nodes cur).priority ≤ (nodes (maxi nodes size cur)).priority := by
  have hson : i = cur * 2 + 1 ∨ i = cur * 2 + 2 := by
    rw [parent_eq] at hp
    omega
  unfold maxi
  by_cases hg : (nodes (cur * 2 + 1)).priority > (nodes cur).priority
  · rw [if_pos hg]
    by_cases h2 : cur * 2 + 2 < size ∧ (nodes (cur * 2 + 2)).priority > (nodes (cur * 2 + 1)).priority
    · rw [if_pos h2]
      rcases hson with rfl | rfl
      · exact ⟨h2.2.le, (hg.trans h2.2).le⟩
      · exact ⟨le_rfl, (hg.trans h2.2).le⟩
    · rw [if_neg h2]
      rcases hson with rfl | rfl
      · exact ⟨le_rfl, hg.le⟩
      · exact ⟨not_lt.1 fun h => h2 ⟨hi, h⟩, hg.le⟩
  · rw [if_neg hg]
    by_cases h2 : cur * 2 + 2 < size ∧ (nodes (cur * 2 + 2)).priority > (nodes cur).priority
    · rw [if_pos h2]
      rcases hson with rfl | rfl
      · exact ⟨(not_lt.1 hg).trans h2.2.le, h2.2.le⟩
      · exact ⟨le_rfl, h2.2.le⟩
    · rw [if_neg h2]
      rcases hson with rfl | rfl
      · exact ⟨not_lt.1 hg, le_rfl⟩
      · exact ⟨not_lt.1 fun h => h2 ⟨hi, h⟩, le_rfl⟩

theorem bag_get_loop : bag (get_loop size nodes cur) size = bag nodes size := by
  induction nodes, cur using get_loop.induct size with
  | case1 nodes cur h1 hne ih =>
    rw [get_loop, if_pos h1, if_pos hne, ih]
    have := maxi_cases nodes size cur
    exact bag_swap _ (by omega) (by omega)
  | case2 nodes cur h1 he => rw [get_loop, if_pos h1, if_neg he]
  | case3 nodes cur h1 => rw [get_loop, if_neg h1]

theorem ordered_get_loop (hd : DownFrom HeapNode.priority nodes size cur) :
    Ordered HeapNode.priority (get_loop size nodes cur) size := by
  induction nodes, cur using get_loop.induct size with
  | case1 nodes cur h1 hne ih =>
    rw [get_loop, if_pos h1, if_pos hne]
    have hcases := maxi_cases nodes size cur
    have hpar : parent (maxi nodes size cur) = cur := by
      rw [parent_eq]
      omega
    have hlt : (nodes cur).priority < (nodes (maxi nodes size cur)).priority := by
      unfold maxi at hne ⊢
      dsimp only at hne ⊢
      by_cases hg : (nodes (cur * 2 + 1)).priority > (nodes cur).priority
      · rw [if_pos hg]
        by_cases h2 : cur * 2 + 2 < size ∧ (nodes (cur * 2 + 2)).priority > (nodes (cur * 2 + 1)).priority
        · rw [if_pos h2]
          exact hg.trans h2.2
        · rw [if_neg h2]
          exact hg
      · rw [if_neg hg] at hne ⊢
        by_cases h2 : cur * 2 + 2 < size ∧ (nodes (cur * 2 + 2)).priority > (nodes cur).priority
        · rw [if_pos h2]
          exact h2.2
        · rw [if_neg h2] at hne
          exact absurd rfl hne
    exact ih (hd.swap (by omega) (by omega) hpar (fun i h0 hi hp => (maxi_max h0 hi hp).1) hlt)
  | case2 nodes cur h1 he =>
    rw [get_loop, if_pos h1, if_neg he]
    refine hd.done fun i h0 hi hp => ?_
    have := (maxi_max h0 hi hp : (nodes i).priority ≤ _ ∧ _).1
    rwa [not_not.1 he] at this
  | case3 nodes cur h1 =>
    rw [get_loop, if_neg h1]
    refine hd.done fun i h0 hi hp => ?_
    rw [parent_eq] at hp
    omega

/-- **`get_task`** of a heap that is not empty. -/
theorem get_task_spec (hs : 0 < d.size) (ho : HeapOrder d) :
    ∃ d' t, get_task d = some (d', t) ∧ d'.size + 1 = d.size ∧ HeapOrder d' ∧
      pending d = t ::ₘ pending d' ∧ ∀ u ∈ pending d, u.priority ≤ t.priority := by
  refine ⟨_, _, by rw [get_task, if_pos hs], Nat.sub_add_cancel hs, ?_, ?_, ?_⟩
  · refine ordered_get_loop (Ordered.downFrom ho (Nat.sub_le _ _) fun i h0 _ => ?_)
    exact update_of_ne h0.ne' _ _
  · -- the removed root and the moved last entry change places
    have hswap : bag (swap d.nodes 0 (d.size - 1)) d.size = bag d.nodes d.size :=
      bag_swap _ hs (by omega)
    obtain ⟨k, hk⟩ : ∃ k, d.size = k + 1 := ⟨d.size - 1, by omega⟩
    rw [pending, pending, bag_get_loop, ← hswap, hk, Nat.add_sub_cancel, bag_succ]
    congr 1
    · rw [swap_apply, if_pos rfl]
    · refine bag_congr fun i hi => ?_
      rw [swap_apply, if_neg hi.ne, update_apply]
  · intro u hu
    obtain ⟨i, hi, rfl⟩ := mem_bag.1 hu
    exact ho.root_max hi

def pendingAfter (g : Multiset HeapNode) : Op → Option HeapNode → Multiset HeapNode
  | .put n, _ => n ::ₘ g
  | .get, some t => g.erase t
  | _, _ => g

/-- A put finds fewer than `MAX_TASKS` tasks pending. -/
def HasRoom (g : Multiset HeapNode) : Op → Prop
  | .put _ => g.card < MAX_TASKS
  | _ => True

/-- The dispatchers that runs reach in which at most `MAX_TASKS` tasks are pending. -/
abbrev Reachable (nodes : ℕ → HeapNode) : Sys → Multiset HeapNode → Prop :=
  Run exec (fun s g op => Enabled s op ∧ HasRoom g op) (fun _ g op r => pendingAfter g op r)
    (new_dispatcher nodes, 0)

/-- The observer is right, the heap is ordered, and the semaphore with the threads inside a call
counts the tasks. -/
structure Inv (s : Sys) (g : Multiset HeapNode) : Prop where
  order : HeapOrder s.disp
  pending : pending s.disp = g
  count : s.disp.size = s.sem + s.posting + s.taking

/-- What a step does to the pending tasks `g`. -/
def Step (g : Multiset HeapNode) : Op → Sys → Option HeapNode → Prop
  | .put n, s', r => r = none ∧ Dispatcher.pending s'.disp = n ::ₘ g
  | .get, s', r => ∃ t ∈ g, r = some t ∧ (∀ u ∈ g, u.priority ≤ t.priority) ∧
      g = t ::ₘ Dispatcher.pending s'.disp
  | .post, s', r => r = none ∧ Dispatcher.pending s'.disp = g
  | .wait, s', r => r = none ∧ Dispatcher.pending s'.disp = g

theorem card_pending (d : Dispatcher) : (pending d).card = d.size := by
  rw [pending, bag, Multiset.card_map, Multiset.card_range]

theorem init_inv (nodes : ℕ → HeapNode) : Inv (new_dispatcher nodes) 0 where
  order := fun i _ hi => absurd hi (Nat.not_lt_zero i)
  pending := rfl
  count := rfl

theorem step_spec {s : Sys} {g : Multiset HeapNode} {op : Op} (hI : Inv s g) (he : Enabled s op)
    (hr : HasRoom g op) :
    ∃ s' r, exec s op = some (s', r) ∧ Inv s' (pendingAfter g op r) ∧ Step g op s' r := by
  have hcard : g.card = s.disp.size := by rw [← hI.pending, card_pending]
  have hcount := hI.count
  cases op with
  | put n =>
    obtain ⟨d', e, hsz, ho, hp⟩ := put_task_spec (d := s.disp) (by rw [← hcard]; exact hr) hI.order n
    rw [hI.pending] at hp
    refine ⟨_, _, by rw [exec, e, map_some], ⟨ho, hp, ?_⟩, rfl, hp⟩
    dsimp only
    omega
  | post =>
    have hpos : 0 < s.posting := he
    refine ⟨_, _, rfl, ⟨hI.order, hI.pending, ?_⟩, rfl, hI.pending⟩
    dsimp only
    omega
  | wait =>
    have hpos : 0 < s.sem := he
    refine ⟨_, _, rfl, ⟨hI.order, hI.pending, ?_⟩, rfl, hI.pending⟩
    dsimp only
    omega
  | get =>
    have hpos : 0 < s.taking := he
    obtain ⟨d', t, e, hsz, ho, hp, hmax⟩ := get_task_spec (d := s.disp) (by omega) hI.order
    rw [hI.pending] at hp hmax
    refine ⟨_, _, by rw [exec, e, map_some], ⟨ho, ?_, ?_⟩, t, ?_, rfl, hmax, hp⟩
    · rw [pendingAfter, hp, Multiset.erase_cons_head]
    · dsimp only
      omega
    · rw [hp]
      exact Multiset.mem_cons_self t _

/-- **The dispatcher is a priority queue**: in every state reached with at most `MAX_TASKS` tasks
pending the heap is ordered and holds exactly these, and every step takes place and does to them
what it should; a get returns one of the greatest. -/
theorem dispatcher_priority_queue {nodes : ℕ → HeapNode} {s : Sys} {g : Multiset HeapNode}
    (hr : Reachable nodes s g) :
    HeapOrder s.disp ∧ pending s.disp = g ∧
      ∀ op, Enabled s op → HasRoom g op → ∃ s' r, exec s op = some (s', r) ∧ Step g op s' r := by
  have hinv := Run.total (I := Inv) (Q := fun _ g op s' r => Step g op s' r) (init_inv nodes)
    (fun s g op hI ok => step_spec hI ok.1 ok.2) hr
  refine ⟨hinv.1.order, hinv.1.pending, fun op he hroom => hinv.2 op ⟨he, hroom⟩⟩

theorem dispatcher_priority_queue_put :
    pending ⟨1, put_loop (Function.update (fun _ => ⟨0, 0, 0, 0, 0, 0⟩) 0 ⟨3, 1, 0, 5, 6, 0⟩) 0⟩ =
      {⟨3, 1, 0, 5, 6, 0⟩} := by
  have ok : Enabled (new_dispatcher fun _ => ⟨0, 0, 0, 0, 0, 0⟩) (.put ⟨3, 1, 0, 5, 6, 0⟩) ∧
      HasRoom 0 (.put ⟨3, 1, 0, 5, 6, 0⟩) := ⟨trivial, by rw [HasRoom, Multiset.card_zero]; decide⟩
  have run : Reachable (fun _ => ⟨0, 0, 0, 0, 0, 0⟩) ⟨⟨1, put_loop (Function.update
      (fun _ => ⟨0, 0, 0, 0, 0, 0⟩) 0 ⟨3, 1, 0, 5, 6, 0⟩) 0⟩, 0, 1, 0⟩
      (pendingAfter 0 (.put ⟨3, 1, 0, 5, 6, 0⟩) none) := Run.step Run.init ok rfl
  exact (dispatcher_priority_queue run).2.1

end OpenSips.Dispatcher
