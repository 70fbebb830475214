import OpenSips.Tcp.States

/-!
# OpenSips.Tcp.Drain — no thread waits for ever

Whatever happened to a connection, its threads get past `state_lock`: who holds it releases it in the next
turn.  Where nothing else happens and every call fails, they all come to an end.
-/

namespace OpenSips.Tcp

open Lib Option

variable {c c' : Conn} {pc : Pc} {T : Multiset Pc} {new : List Pc}

def Cont.rank : Cont → ℕ
  | .stop => 0
  | .ret .. => 1
  | .fire_in .. => 2

/-- How many turns a thread and those it starts take at most, where every call fails. -/
def rank : Pc → ℕ
  | .accepted | .ret .. | .on_failure _ | .read_done => 1
  | .fire_in .. => 2
  | .blocked .. => 3
  | .timer_fire_in | .terminate | .add_pending _ => 4
  | .unref k | .remove_end k => k.rank + 1
  | .remove_ip k => k.rank + 2
  | .remove_id _ k => k.rank + 3
  | .timer_fire_out | .reading | .connect_error _ | .connect _ => 5
  | .connect_start _ | .event_read | .connect_result | .failed .. => 6
  | .connect_done | .sending .. => 7
  | .send .. => 8
  | .send_resume _ | .set_writing _ => 9
  | .connect_read => 10
  | .put .. => 11
  | .upload .. => 12
  | .completed .. => 13

/-- A write in the queue is taken by a turn of its own once the connection is terminated. -/
def left (c : Conn) (T : Multiset Pc) : ℕ := weigh rank T + if c.state = .WRITING then c.queue.length else 0

theorem rank_cont (k : Cont) : (k.pcs.map rank).sum = k.rank := by
  cases k <;> rfl

theorem rank_flushed (c : Conn) : ((flushed c).map rank).sum = if c.state = .WRITING then c.queue.length else 0 := by
  rw [flushed]
  by_cases hw : c.state = .WRITING
  · rw [if_pos hw, if_pos hw, resume_pending_writes, List.map_map]
    exact (congrArg List.sum (List.map_const' ..)).trans (by simp)
  · rw [if_neg hw, if_neg hw]
    rfl

attribute [local simp] rank left Cont.rank rank_cont rank_flushed free_if_unused_eq unref_tcp_conn_eq

/-- Who holds the lock can go on, and all can where nobody does. -/
theorem turn_taken (ht : Tokens c (pc ::ₘ T)) (hl : c.locked = false ∨ holds pc = 1) :
    ∃ c' new, turn c pc .err = some (c', new) := by
  have hfree : holds pc = 0 → c.locked ≠ true := fun h => by
    rcases hl with hl | hl
    · simp [hl]
    · omega
  cases pc with
  | upload w b =>
    have hq := ht.pending (by simp [uploads])
    obtain ⟨old, rest, hq⟩ := List.exists_cons_of_ne_nil hq
    exact ⟨_, _, by rw [turn, hq]⟩
  | connect_error ctx | set_writing w | failed w o b | completed w b | terminate =>
    simp only [turn, set_conn_state, if_neg (hfree rfl), bind_eq_bind, bind_some]
    split_ifs <;> exact ⟨_, _, rfl⟩
  | blocked w o b | read_done =>
    rw [turn, if_neg (hfree rfl)]
    split_ifs <;> exact ⟨_, _, rfl⟩
  | connect_done | send w o b | event_read =>
    rw [turn]
    split_ifs <;> exact ⟨_, _, rfl⟩
  | _ => exact ⟨_, _, rfl⟩

/-- **Each turn comes nearer to the end.** -/
theorem left_turn (ht : Tokens c (pc ::ₘ T)) (h : turn c pc .err = some (c', new)) :
    left c' (T + (new : Multiset Pc)) < left c (pc ::ₘ T) := by
  have hd := turn_does h
  clear h
  generalize ha : Answer.err = a at hd
  have hready : c.state = .READY → c.queue = [] := fun hs => (ht.none hs).2
  cases hd with
  | sending_part | sending_all | sending_intr | sending_block | connect_intr | connect_block | connect_ok |
    result_block | result_ok | add_ok | reading_ok => cases ha
  | error ctx hl hs | failed w o b hl hs | terminate hl hs =>
    simp
    omega
  | obtain w hl hs =>
    simp [hs, hready hs]
    omega
  | upload w old rest b hq =>
    simp [hq]
    split_ifs <;> omega
  | _ =>
    simp
    try omega

/-- Who holds the lock is one of the threads. -/
theorem holder (ht : Tokens c T) (hl : c.locked = true) : ∃ pc ∈ T, holds pc = 1 := by
  by_contra hno
  have h0 : weigh holds T = 0 := weigh_eq_zero fun pc hpc => by
    have h1 : holds pc ≠ 1 := fun h => hno ⟨pc, hpc, h⟩
    cases pc <;> simp_all [holds]
  have := ht.lock
  simp [hl, h0] at this

/-- Where every call fails and nothing else happens, the threads come to an end. -/
theorem drains {s : Pool Conn Pc} (ht : Tokens s.shared s.threads) :
    ∃ s', Run (Pool.exec turn event) (fun _ _ op => ∃ pc, op = .thread pc .err) (fun _ _ _ _ => ()) (s, ()) s' () ∧
      s'.threads = 0 := by
  -- by what is left
  induction hn : left s.shared s.threads using Nat.strong_induction_on generalizing s with
  | _ n ih =>
    obtain ⟨c, T⟩ := s
    by_cases h0 : T = 0
    · exact ⟨_, .init, h0⟩
    obtain ⟨pc, hpc, hl⟩ : ∃ pc ∈ T, c.locked = false ∨ holds pc = 1 := by
      cases hl : c.locked with
      | false =>
        obtain ⟨pc, hpc⟩ := Multiset.exists_mem_of_ne_zero h0
        exact ⟨pc, hpc, .inl rfl⟩
      | true =>
        obtain ⟨pc, hpc, hh⟩ := holder ht hl
        exact ⟨pc, hpc, .inr hh⟩
    obtain ⟨T, rfl⟩ := Multiset.exists_cons_of_mem hpc
    obtain ⟨c', new, e⟩ := turn_taken ht hl
    have hexec : Pool.exec turn event ⟨c, pc ::ₘ T⟩ (.thread pc .err) = some (⟨c', T + (new : Multiset Pc)⟩, ()) := by
      rw [Pool.exec, if_pos hpc, e, map_some, Multiset.erase_cons_head]
    obtain ⟨s', hr, hs'⟩ := ih _ (hn ▸ left_turn ht e) (s := ⟨c', T + (new : Multiset Pc)⟩) (ht.turn (turn_does e)) rfl
    exact ⟨s', (Run.step .init ⟨pc, rfl⟩ hexec).append hr, hs'⟩

end OpenSips.Tcp
