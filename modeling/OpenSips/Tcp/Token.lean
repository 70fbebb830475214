import OpenSips.Tcp.Turns

/-!
# OpenSips.Tcp.Token — who may write

While the connection is in state `WRITING` one thread, or one callback submitted to the OUT reactor,
has the right to write; nobody has it in state `READY`.
-/

namespace OpenSips.Tcp

open Lib

/-- The points with the right to write. -/
def token : Pc → ℕ
  | .connect_start _ | .connect _ | .connect_done | .connect_result | .connect_error _
  | .connect_read | .send_resume _ | .send _ _ _ | .sending _ _ _ | .blocked _ _ _
  | .failed _ _ _ | .completed _ _ | .upload _ _ | .put _ _ => 1
  | _ => 0

/-- The same without those that still have to look at the state: who comes there when the connection
is terminated goes no further. -/
def acting : Pc → ℕ
  | .send _ _ _ => 0
  | pc => token pc

/-- The points with `state_lock` held. -/
def holds : Pc → ℕ
  | .add_pending _ | .upload _ _ => 1
  | _ => 0

/-- The points of `conn_upload_next_write`. -/
def uploads : Pc → ℕ
  | .upload _ _ => 1
  | _ => 0

def regs (c : Conn) : ℕ := c.reg_out.elim 0 fun _ => 1

/-- **At most one writer**, and `state_lock` is held by who changes the queue. -/
structure Tokens (c : Conn) (T : Multiset Pc) : Prop where
  lock : weigh holds T = c.locked.toNat
  writing : c.locked = true → c.state = .WRITING
  acting : weigh acting T + regs c ≤ 1
  one : c.state ≠ .TERM → weigh token T + regs c ≤ 1
  none : c.state = .READY → weigh token T + regs c = 0 ∧ c.queue = []
  pending : 0 < weigh uploads T → c.queue ≠ []

variable {c c' : Conn} {pc : Pc} {a : Answer} {T : Multiset Pc} {new : List Pc}

/-- What `resume_pending_writes` starts has no right. -/
theorem sum_flushed (f : Pc → ℕ) (hf : ∀ ctx, f (.on_failure ctx) = 0) (c : Conn) :
    ((flushed c).map f).sum = 0 := by
  rw [flushed]
  by_cases hs : c.state = .WRITING
  · rw [if_pos hs, resume_pending_writes, List.map_map]
    refine List.sum_eq_zero fun x hx => ?_
    obtain ⟨w, -, rfl⟩ := List.mem_map.1 hx
    exact hf w.ctx
  · rw [if_neg hs]
    rfl

theorem sum_cont (f : Pc → ℕ) (hr : ∀ x b n, f (.ret x b n) = 0) (hf : ∀ x b, f (.fire_in x b) = 0)
    (k : Cont) : (k.pcs.map f).sum = 0 := by
  cases k with
  | stop => rfl
  | ret x b n => simp [Cont.pcs, hr]
  | fire_in x b => simp [Cont.pcs, hf]

theorem plain_flushed (c : Conn) : ((flushed c).map token).sum = 0 ∧
    ((flushed c).map Tcp.acting).sum = 0 ∧ ((flushed c).map holds).sum = 0 ∧
    ((flushed c).map uploads).sum = 0 :=
  ⟨sum_flushed _ (fun _ => rfl) c, sum_flushed _ (fun _ => rfl) c, sum_flushed _ (fun _ => rfl) c,
    sum_flushed _ (fun _ => rfl) c⟩

theorem plain_cont (k : Cont) : (k.pcs.map token).sum = 0 ∧ (k.pcs.map Tcp.acting).sum = 0 ∧
    (k.pcs.map holds).sum = 0 ∧ (k.pcs.map uploads).sum = 0 :=
  ⟨sum_cont _ (fun _ _ _ => rfl) (fun _ _ => rfl) k, sum_cont _ (fun _ _ _ => rfl) (fun _ _ => rfl) k,
    sum_cont _ (fun _ _ _ => rfl) (fun _ _ => rfl) k, sum_cont _ (fun _ _ _ => rfl) (fun _ _ => rfl) k⟩

attribute [local simp] token Tcp.acting holds uploads regs plain_flushed plain_cont
  free_if_unused_eq unref_tcp_conn_eq

theorem acting_le (T : Multiset Pc) : weigh Tcp.acting T ≤ weigh token T :=
  weigh_le (fun pc => by cases pc <;> simp) T

theorem uploads_le (T : Multiset Pc) : weigh uploads T ≤ weigh holds T :=
  weigh_le (fun pc => by cases pc <;> simp) T

section

variable (h : Tokens c (pc ::ₘ T))
include h

theorem Tokens.lock_turn (hd : Does c pc a c' new) :
    weigh holds (T + (new : Multiset Pc)) = c'.locked.toNat := by
  have h1 := h.lock
  have hle := c.locked.toNat_le
  cases hd with
  | behind w hl hs =>
    simp [hl] at h1 ⊢
    omega
  | completed_more w b hl hs hq =>
    simp [hl] at h1 ⊢
    omega
  | add_ok w =>
    simp at h1 ⊢
    omega
  | add_err w =>
    simp at h1 ⊢
    omega
  | upload w old rest b hq =>
    simp at h1 ⊢
    omega
  | _ => simpa using h1

theorem Tokens.writing_turn (hd : Does c pc a c' new) : c'.locked = true → c'.state = .WRITING := by
  have h2 := h.writing
  cases hd with
  | behind w hl hs => exact fun _ => hs
  | completed_more w b hl hs hq => exact fun _ => hs
  | error ctx hl hs => exact fun h => absurd (hl.symm.trans h) Bool.false_ne_true
  | failed w o b hl hs => exact fun h => absurd (hl.symm.trans h) Bool.false_ne_true
  | terminate hl hs => exact fun h => absurd (hl.symm.trans h) Bool.false_ne_true
  | completed w b hl hs hq => exact fun h => absurd (hl.symm.trans h) Bool.false_ne_true
  | obtain w hl hs => exact fun h => absurd (hl.symm.trans h) Bool.false_ne_true
  | add_ok w => exact fun h => absurd h Bool.false_ne_true
  | add_err w => exact fun h => absurd h Bool.false_ne_true
  | upload w old rest b hq => exact fun h => absurd h Bool.false_ne_true
  | unref k => simpa using h2
  | remove_end k => simpa using h2
  | read_term hl hs => simpa using h2
  | _ => exact h2

theorem Tokens.acting_turn (hd : Does c pc a c' new) :
    weigh Tcp.acting (T + (new : Multiset Pc)) + regs c' ≤ 1 := by
  have h3 := h.acting
  have hle := acting_le T
  cases hd with
  | send w o b hs =>
    have := h.one hs
    simp at this ⊢
    omega
  | _ =>
    simp at h3 ⊢
    omega

theorem Tokens.one_turn (hd : Does c pc a c' new) :
    c'.state ≠ .TERM → weigh token (T + (new : Multiset Pc)) + regs c' ≤ 1 := by
  intro hs'
  cases hd with
  | obtain w hl hs =>
    have := (h.none hs).1
    simp at this ⊢
    omega
  | refused w hl hs => exact absurd hs hs'
  | error ctx hl hs => exact absurd rfl hs'
  | failed w o b hl hs => exact absurd rfl hs'
  | terminate hl hs => exact absurd rfl hs'
  | completed w b hl hs hq =>
    have := h.one (by rw [hs]; decide)
    simp at this ⊢
    omega
  | _ =>
    have := h.one (by simpa using hs')
    simp at this ⊢
    omega

theorem Tokens.none_turn (hd : Does c pc a c' new) :
    c'.state = .READY → weigh token (T + (new : Multiset Pc)) + regs c' = 0 ∧ c'.queue = [] := by
  intro hs'
  cases hd with
  | completed w b hl hs hq =>
    have := h.one (by rw [hs]; decide)
    simp at this ⊢
    exact ⟨by omega, hq⟩
  | obtain w hl hs => exact absurd hs' (by simp)
  | refused w hl hs => exact absurd (hs.symm.trans hs') (by decide)
  | error ctx hl hs => exact absurd hs' (by simp)
  | failed w o b hl hs => exact absurd hs' (by simp)
  | terminate hl hs => exact absurd hs' (by simp)
  | add_ok w =>
    -- who holds the lock changes the queue in state `WRITING` only
    have h1 := h.lock
    have hl : c.locked = true := by
      cases hl : c.locked
      · simp [hl] at h1
      · rfl
    have := (h.writing hl).symm.trans hs'
    exact absurd this (by simp)
  | upload w old rest b hq =>
    have := (h.none hs').1
    simp at this
  | _ =>
    simpa using h.none (by simpa using hs')

theorem Tokens.pending_turn (hd : Does c pc a c' new) :
    0 < weigh uploads (T + (new : Multiset Pc)) → c'.queue ≠ [] := by
  have h1 := h.lock
  have h6 := h.pending
  have hle := uploads_le T
  have hb := c.locked.toNat_le
  intro hu
  cases hd with
  | completed_more w b hl hs hq => exact hq
  | add_ok w => simp
  | upload w old rest b hq =>
    simp at h1 hu
    omega
  | _ =>
    simp at h6 hu ⊢
    exact h6 (by omega)

/-- **A turn keeps the right to write with one.** -/
theorem Tokens.turn (hd : Does c pc a c' new) : Tokens c' (T + (new : Multiset Pc)) :=
  ⟨h.lock_turn hd, h.writing_turn hd, h.acting_turn hd, h.one_turn hd, h.none_turn hd, h.pending_turn hd⟩

end

/-- Who holds the lock finds the connection in state `WRITING`. -/
theorem locked_writing (ht : Tokens c (pc ::ₘ T)) (hp : holds pc = 1) : c.state = .WRITING := by
  have h1 := ht.lock
  rw [weigh_cons] at h1
  refine ht.writing ?_
  cases hl : c.locked with
  | true => rfl
  | false =>
    rw [hl, Bool.toNat_false] at h1
    omega

theorem Tokens.event {ev : Event} (h : Tokens c T) (hd : Happens c ev c' new) :
    Tokens c' (T + (new : Multiset Pc)) := by
  obtain ⟨h1, h2, h3, h4, h5, h6⟩ := h
  cases hd with
  | timer hl hi hs =>
    refine ⟨by simpa using h1, fun h => absurd (hl.symm.trans h) (by simp), by simpa using h3,
      fun h => absurd rfl h, fun h => absurd h (by simp), by simpa using h6⟩
  | ready_out cb hr | fire_out cb hr =>
    simp only [regs, hr, Option.elim_some] at h3 h4 h5
    refine ⟨?_, h2, ?_, fun hs => ?_, fun hs => ?_, ?_⟩
    · cases cb <;> simpa [Callback.pc] using h1
    · cases cb <;> simp [Callback.pc] <;> omega
    · have := h4 hs
      cases cb <;> simp [Callback.pc] <;> omega
    · exact absurd (h5 hs).1 (by omega)
    · cases cb <;> simpa [Callback.pc] using h6
  | fire_out_none hr =>
    simp only [regs, hr] at h3 h4 h5
    exact ⟨by simpa using h1, h2, by simpa using h3, by simpa using h4, by simpa using h5, by simpa using h6⟩
  | _ =>
    exact ⟨by simpa using h1, h2, by simpa using h3, by simpa using h4, by simpa using h5, by simpa using h6⟩

/-- **In every run at most one thread or callback may write.** -/
theorem tokens_reachable (allowed : Conn → Multiset Pc → Turn Pc Answer Event → Prop)
    {s : Pool Conn Pc} (hr : Reachable allowed s) : Tokens s.shared s.threads := by
  obtain ⟨init, hi, hr⟩ := hr
  refine Pool.invariant (I := Tokens) ?_ (fun c c' T pc a new h _ e => h.turn (turn_does e))
    (fun c c' T e new h _ he => h.event (event_happens he)) hr
  rcases hi with rfl | ⟨w, rfl⟩
  · constructor <;> simp [tcp_accept, create_tcp_conn]
  · constructor <;> simp [a_tcp_connect, create_tcp_conn]

end OpenSips.Tcp
