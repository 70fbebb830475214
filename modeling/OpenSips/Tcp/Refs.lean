import OpenSips.Tcp.Token

/-!
# OpenSips.Tcp.Refs — the reference counter of a connection

`ref` is the number of parties that will still release the connection.  It is freed when the last of
them is gone, by then unlinked from both hashes.
-/

namespace OpenSips.Tcp

open Lib

/-- The references a thread will still release or hand on: behind a connect the reader's and the
writer's. -/
def refs : Pc → ℕ
  | .connect_read => 2
  | .accepted | .connect_start _ | .connect _ | .connect_done | .connect_result | .connect_error _
  | .set_writing _ | .add_pending _ | .send_resume _ | .send _ _ _ | .sending _ _ _ | .blocked _ _ _
  | .failed _ _ _ | .completed _ _ | .upload _ _ | .put _ _ | .unref _ | .event_read | .reading
  | .read_done | .terminate | .timer_fire_out | .timer_fire_in => 1
  | .remove_id extra_ref _ => extra_ref
  | _ => 0

/-- **The parties that will still release the connection.** -/
def parties (c : Conn) (T : Multiset Pc) : ℕ := weigh refs T + regs c + c.reg_in.toNat

/-- The reader's thread. -/
def reads : Pc → ℕ
  | .accepted | .connect_read | .event_read | .reading | .read_done | .terminate => 1
  | _ => 0

def connects : Pc → ℕ
  | .connect_start _ | .connect _ | .connect_done | .connect_result | .connect_error _ => 1
  | _ => 0

def connect_reg (c : Conn) : ℕ := if c.reg_out = some .a_tcp_connect_done then 1 else 0

/-- The timer on its way to `remove_tcp_conn`. -/
def firing : Pc → ℕ
  | .timer_fire_out | .timer_fire_in => 1
  | _ => 0

/-- In `remove_tcp_conn`: in front of its first, its second section, and behind both. -/
def at_id : Pc → ℕ
  | .remove_id _ _ => 1
  | _ => 0

def at_ip : Pc → ℕ
  | .remove_ip _ => 1
  | _ => 0

def at_end : Pc → ℕ
  | .remove_end _ => 1
  | _ => 0

/-- The threads in `remove_tcp_conn`. -/
def removing (T : Multiset Pc) : ℕ := weigh at_id T + weigh at_ip T + weigh at_end T

/-- The turns that lose no reference and free nothing too early.  Excluded are: a connect that fails;
a connect that was done at once and whose writes are all completed; a send error and a reader that
find the connection terminated already; and the release of the last reference while another thread is
inside `remove_tcp_conn`. -/
def Balanced (c : Conn) (T : Multiset Pc) : Turn Pc Answer Event → Prop
  | .thread (.connect _) .err => False
  | .thread (.connect_error _) _ => False
  | .thread (.failed _ _ _) _ => c.state ≠ .TERM
  | .thread .terminate _ => c.state ≠ .TERM
  | .thread (.completed _ _) _ => c.opened = .at_once → c.state = .WRITING → c.queue ≠ []
  | .thread (.unref _) _ => c.ref = 1 → removing T = 0
  | .thread .read_done _ => c.state = .TERM → c.ref = 1 → removing T = 0
  | _ => True

instance (c : Conn) (T : Multiset Pc) (op : Turn Pc Answer Event) :
    Decidable (Balanced c T op) := by
  unfold Balanced
  split <;> infer_instance

/-- The reader's reference, or before there is a reader the writer. -/
structure Opening (c : Conn) (T : Multiset Pc) : Prop where
  not_failed : c.opened ≠ .failed
  reader : weigh reads T + c.reg_in.toNat ≤ 1
  connecting : 0 < weigh connects T + connect_reg c → c.opened = .pending
  unread : c.opened = .pending ∨ c.opened = .at_once → weigh reads T + c.reg_in.toNat = 0
  reading : c.opened = .accepted ∨ c.opened = .later → c.state ≠ .TERM →
    weigh reads T + c.reg_in.toNat = 1
  pending : c.opened = .pending → c.state ≠ .TERM → weigh connects T + connect_reg c = 1
  at_once : c.opened = .at_once → c.state ≠ .TERM → c.state = .WRITING ∧ weigh token T + regs c = 1

/-- **The references are balanced.** -/
structure Counted (c : Conn) (T : Multiset Pc) : Prop where
  ref : c.ref = parties c T
  alive : c.state ≠ .TERM → weigh firing T + removing T = 0 ∧ c.id_linked = true ∧
    c.ip_linked = true ∧ c.frees = 0
  term : c.state = .TERM → weigh firing T + weigh at_id T = c.id_linked.toNat ∧
    weigh firing T + weigh at_id T + weigh at_ip T = c.ip_linked.toNat ∧
    weigh firing T + removing T ≤ 1
  frees : c.frees = 0 ∧ 0 < c.ref + removing T ∨ c.frees = 1 ∧ c.ref + removing T = 0

variable {c c' : Conn} {pc : Pc} {a : Answer} {T : Multiset Pc} {new : List Pc}

section Opening

theorem reads_flushed (c : Conn) : ((flushed c).map reads).sum = 0 ∧
    ((flushed c).map connects).sum = 0 ∧ ((flushed c).map refs).sum = 0 :=
  ⟨sum_flushed _ (fun _ => rfl) c, sum_flushed _ (fun _ => rfl) c, sum_flushed _ (fun _ => rfl) c⟩

theorem reads_cont (k : Cont) : (k.pcs.map reads).sum = 0 ∧ (k.pcs.map connects).sum = 0 ∧
    (k.pcs.map refs).sum = 0 :=
  ⟨sum_cont _ (fun _ _ _ => rfl) (fun _ _ => rfl) k, sum_cont _ (fun _ _ _ => rfl) (fun _ _ => rfl) k,
    sum_cont _ (fun _ _ _ => rfl) (fun _ _ => rfl) k⟩

theorem removes_flushed (c : Conn) : ((flushed c).map firing).sum = 0 ∧
    ((flushed c).map at_id).sum = 0 ∧ ((flushed c).map at_ip).sum = 0 ∧
    ((flushed c).map at_end).sum = 0 :=
  ⟨sum_flushed _ (fun _ => rfl) c, sum_flushed _ (fun _ => rfl) c, sum_flushed _ (fun _ => rfl) c,
    sum_flushed _ (fun _ => rfl) c⟩

theorem removes_cont (k : Cont) : (k.pcs.map firing).sum = 0 ∧ (k.pcs.map at_id).sum = 0 ∧
    (k.pcs.map at_ip).sum = 0 ∧ (k.pcs.map at_end).sum = 0 :=
  ⟨sum_cont _ (fun _ _ _ => rfl) (fun _ _ => rfl) k, sum_cont _ (fun _ _ _ => rfl) (fun _ _ => rfl) k,
    sum_cont _ (fun _ _ _ => rfl) (fun _ _ => rfl) k, sum_cont _ (fun _ _ _ => rfl) (fun _ _ => rfl) k⟩

theorem connects_le (c : Conn) (T : Multiset Pc) :
    weigh connects T + connect_reg c ≤ weigh acting T + regs c := by
  have h1 := weigh_le (f := connects) (g := acting) (fun pc => by cases pc <;> simp [connects, acting, token]) T
  have h2 : connect_reg c ≤ regs c := by
    unfold connect_reg regs
    cases c.reg_out with
    | none => simp
    | some cb => cases cb <;> simp
  omega

attribute [local simp] token Tcp.acting reads connects connect_reg regs plain_flushed plain_cont reads_flushed
  reads_cont free_if_unused_eq unref_tcp_conn_eq

section

variable (h : Opening c (pc ::ₘ T))
include h

theorem Opening.not_failed_turn (ok : Balanced c (pc ::ₘ T) (.thread pc a)) (hd : Does c pc a c' new) :
    c'.opened ≠ .failed := by
  cases hd with
  | connect_err w => exact absurd ok id
  | connect_ok w => simp
  | result_ok => simp
  | _ => simpa using h.not_failed

theorem Opening.connecting_turn (ht : Tokens c (pc ::ₘ T))
    (ok : Balanced c (pc ::ₘ T) (.thread pc a)) (hd : Does c pc a c' new) :
    0 < weigh connects (T + (new : Multiset Pc)) + connect_reg c' → c'.opened = .pending := by
  have hc := connects_le c (pc ::ₘ T)
  have hact := ht.acting
  intro hpos
  cases hd with
  | connect_err w => exact absurd ok id
  | connect_ok w =>
    simp at hc hact hpos
    omega
  | result_ok =>
    simp at hc hact hpos
    omega
  | blocked w o b hl hs =>
    refine h.connecting ?_
    simp at hpos ⊢
    omega
  | _ =>
    have : c.opened = .pending := h.connecting (by simp at hpos ⊢ <;> omega)
    simpa using this

theorem Opening.reader_turn (hd : Does c pc a c' new) :
    weigh reads (T + (new : Multiset Pc)) + c'.reg_in.toNat ≤ 1 := by
  have h2 := h.reader
  cases hd with
  | result_ok =>
    have := h.unread (.inl (h.connecting (by simp)))
    simp at this ⊢
    simp [this]
  | _ =>
    simp at h2 ⊢
    omega

theorem Opening.unread_turn (hd : Does c pc a c' new) : c'.opened = .pending ∨ c'.opened = .at_once →
      weigh reads (T + (new : Multiset Pc)) + c'.reg_in.toNat = 0 := by
  have h4 := h.unread
  intro ho
  cases hd with
  | connect_ok w =>
    have := h4 (.inl (h.connecting (by simp)))
    simpa using this
  | connect_err w => exact absurd ho (by simp)
  | result_ok => exact absurd ho (by simp)
  | _ =>
    have := h4 (by simpa using ho)
    simp at this ⊢ <;> exact this

theorem Opening.reading_turn (hd : Does c pc a c' new) :
    c'.opened = .accepted ∨ c'.opened = .later → c'.state ≠ .TERM →
      weigh reads (T + (new : Multiset Pc)) + c'.reg_in.toNat = 1 := by
  intro ho hs'
  refine le_antisymm (h.reader_turn hd) ?_
  cases hd with
  | connect_ok w => exact absurd ho (by simp)
  | connect_err w => exact absurd ho (by simp)
  | result_ok =>
    simp
    omega
  | error ctx hl hs => exact absurd rfl hs'
  | failed w o b hl hs => exact absurd rfl hs'
  | terminate hl hs => exact absurd rfl hs'
  | terminate_term hl hs => exact absurd hs hs'
  | read_term hl hs => exact absurd hs (by simpa using hs')
  | event_term hs => exact absurd hs hs'
  | obtain w hl hs =>
    have := (h.reading ho (by simp [hs])).ge
    simp at this ⊢
    omega
  | completed w b hl hs hq =>
    have := (h.reading ho (by simp [hs])).ge
    simp at this ⊢
    omega
  | _ =>
    have := (h.reading (by simpa using ho) (by simpa using hs')).ge
    simp at this ⊢ <;> omega

theorem Opening.pending_turn (ht : Tokens c (pc ::ₘ T))
    (ok : Balanced c (pc ::ₘ T) (.thread pc a)) (hd : Does c pc a c' new) :
    c'.opened = .pending → c'.state ≠ .TERM →
      weigh connects (T + (new : Multiset Pc)) + connect_reg c' = 1 := by
  have hc := connects_le c T
  have hact := ht.acting
  have hc' := connects_le c' (T + (new : Multiset Pc))
  intro ho hs'
  refine le_antisymm (hc'.trans (ht.turn hd).acting) ?_
  clear hc'
  cases hd with
  | connect_ok w => exact absurd ho (by simp)
  | connect_err w => exact absurd ok id
  | error_term ctx hl hs => exact absurd ok id
  | connect_block w => simp
  | result_block => simp
  | result_ok => exact absurd ho (by simp)
  | error ctx hl hs => exact absurd rfl hs'
  | failed w o b hl hs => exact absurd rfl hs'
  | terminate hl hs => exact absurd rfl hs'
  | done_term hs => exact absurd hs hs'
  | blocked w o b hl hs =>
    have := (h.pending ho hs').ge
    simp at hc hact this
    omega
  | obtain w hl hs =>
    have := (h.pending ho (by simp [hs])).ge
    simpa using this
  | completed w b hl hs hq =>
    have := (h.pending ho (by simp [hs])).ge
    simpa using this
  | _ =>
    have := (h.pending (by simpa using ho) (by simpa using hs')).ge
    simp at this ⊢
    omega

theorem Opening.at_once_turn (ht : Tokens c (pc ::ₘ T))
    (ok : Balanced c (pc ::ₘ T) (.thread pc a)) (hd : Does c pc a c' new) :
    c'.opened = .at_once → c'.state ≠ .TERM →
      c'.state = .WRITING ∧ weigh token (T + (new : Multiset Pc)) + regs c' = 1 := by
  have hone' := (ht.turn hd).one
  intro ho hs'
  suffices c'.state = .WRITING ∧ 1 ≤ weigh token (T + (new : Multiset Pc)) + regs c' from
    ⟨this.1, le_antisymm (hone' hs') this.2⟩
  clear hone'
  cases hd with
  | connect_err w => exact absurd ok id
  | error_term ctx hl hs => exact absurd ok id
  | result_ok => exact absurd ho (by simp)
  | connect_ok w =>
    refine ⟨?_, by simp; omega⟩
    -- the connect has the right to write
    cases hs : c.state with
    | READY => exact absurd (ht.none hs).1 (by simp)
    | WRITING => rfl
    | TERM => exact absurd hs hs'
  | error ctx hl hs => exact absurd rfl hs'
  | failed w o b hl hs => exact absurd rfl hs'
  | terminate hl hs => exact absurd rfl hs'
  | send_term w o b hs => exact absurd hs hs'
  | blocked_term w o b hl hs => exact absurd hs hs'
  | failed_term w o b hl hs => exact absurd hs hs'
  | done_term hs => exact absurd hs hs'
  | completed w b hl hs hq => exact absurd hq (ok ho hs)
  | completed_idle w b hl hs => exact absurd (h.at_once ho hs').1 hs
  | obtain w hl hs => exact absurd (h.at_once ho (by simp [hs])).1 (by simp [hs])
  | _ =>
    have := h.at_once (by simpa using ho) (by simpa using hs')
    have h1 := this.2.ge
    refine ⟨by simpa using this.1, ?_⟩
    clear this ho hs' ok
    simp at h1 ⊢ <;> omega

end

theorem Opening.event {ev : Event} (h : Opening c T) (hd : Happens c ev c' new) :
    Opening c' (T + (new : Multiset Pc)) := by
  obtain ⟨h1, h2, h3, h4, h5, h6, h7⟩ := h
  cases hd with
  | timer hl hi hs =>
    exact ⟨h1, by simpa using h2, by simpa using h3, by simpa using h4, fun _ h => absurd rfl h,
      fun _ h => absurd rfl h, fun _ h => absurd rfl h⟩
  | ready_out cb hr | fire_out cb hr =>
    simp only [connect_reg, regs, hr] at h3 h6 h7
    cases cb
    · exact ⟨h1, by simpa [Callback.pc] using h2, by simpa [Callback.pc, hr] using h3,
        by simpa [Callback.pc] using h4, by simpa [Callback.pc] using h5,
        by simpa [Callback.pc] using h6, by simpa [Callback.pc] using h7⟩
    · exact ⟨h1, by simpa [Callback.pc] using h2, by simpa [Callback.pc, hr] using h3,
        by simpa [Callback.pc] using h4, by simpa [Callback.pc] using h5,
        by simpa [Callback.pc] using h6, by simpa [Callback.pc] using h7⟩
  | ready_in hr =>
    simp only [hr, Bool.toNat_true] at h2 h4 h5
    exact ⟨h1, by simpa using h2, by simpa using h3, by simpa using h4, by simpa using h5,
      by simpa using h6, by simpa using h7⟩
  | fire_in hr =>
    simp only [hr, Bool.toNat_true] at h2 h4 h5
    exact ⟨h1, by simpa using h2, by simpa using h3, by simpa using h4, by simpa using h5,
      by simpa using h6, by simpa using h7⟩
  | fire_in_none hr =>
    simp only [hr, Bool.toNat_false] at h2 h4 h5
    exact ⟨h1, by simpa using h2, by simpa using h3, by simpa using h4, by simpa using h5,
      by simpa using h6, by simpa using h7⟩
  | fire_out_none hr =>
    simp only [connect_reg, regs, hr] at h3 h6 h7
    exact ⟨h1, by simpa using h2, by simpa using h3, by simpa using h4, by simpa using h5,
      by simpa using h6, by simpa using h7⟩
  | _ =>
    exact ⟨h1, by simpa using h2, by simpa using h3, by simpa using h4, by simpa using h5,
      by simpa using h6, by simpa using h7⟩

theorem Opening.turn (h : Opening c (pc ::ₘ T)) (ht : Tokens c (pc ::ₘ T))
    (ok : Balanced c (pc ::ₘ T) (.thread pc a)) (hd : Does c pc a c' new) :
    Opening c' (T + (new : Multiset Pc)) :=
  ⟨h.not_failed_turn ok hd, h.reader_turn hd, h.connecting_turn ht ok hd, h.unread_turn hd,
    h.reading_turn hd, h.pending_turn ht ok hd, h.at_once_turn ht ok hd⟩

end Opening

section Counted

attribute [local simp] token Tcp.acting reads connects refs firing at_id at_ip at_end connect_reg regs
  parties removing plain_flushed plain_cont reads_flushed reads_cont removes_flushed removes_cont
  free_if_unused_eq unref_tcp_conn_eq

theorem Counted.ref_turn (h : Counted c (pc ::ₘ T)) (ho : Opening c (pc ::ₘ T))
    (ht : Tokens c (pc ::ₘ T)) (ok : Balanced c (pc ::ₘ T) (.thread pc a))
    (hd : Does c pc a c' new) : c'.ref = parties c' (T + (new : Multiset Pc)) := by
  have h1 := h.ref
  have h2 := ho.reader
  have hact := ht.acting
  cases hd with
  | connect_err w => exact absurd ok id
  | error_term ctx hl hs => exact absurd ok id
  | error ctx hl hs => exact absurd ok id
  | failed_term w o b hl hs => exact absurd hs ok
  | terminate_term hl hs => exact absurd hs ok
  | _ =>
    simp at h1 h2 hact ⊢
    omega

theorem Opening.another (h : Opening c (pc ::ₘ T)) (hs : c.state ≠ .TERM)
    (hpc : reads pc = 0 ∧ connects pc = 0 ∧ token pc = 0) : 0 < parties c T := by
  have h1 := weigh_le (f := reads) (g := refs) (fun pc => by cases pc <;> simp) T
  have h2 := weigh_le (f := connects) (g := refs) (fun pc => by cases pc <;> simp) T
  have h3 := weigh_le (f := token) (g := refs) (fun pc => by cases pc <;> simp) T
  obtain ⟨hr, hc, ht⟩ := hpc
  unfold parties
  cases ho : c.opened with
  | failed => exact absurd ho h.not_failed
  | accepted =>
    have := h.reading (.inl ho) hs
    rw [weigh_cons, hr] at this
    omega
  | later =>
    have := h.reading (.inr ho) hs
    rw [weigh_cons, hr] at this
    omega
  | pending =>
    have := h.pending ho hs
    have hle : connect_reg c ≤ regs c := by
      have := connects_le c 0
      simpa only [weigh_zero, zero_add] using this
    rw [weigh_cons, hc] at this
    omega
  | at_once =>
    have := (h.at_once ho hs).2
    rw [weigh_cons, ht] at this
    omega

section

variable (h : Counted c (pc ::ₘ T))
include h

theorem Counted.alive_turn (ho : Opening c (pc ::ₘ T))
    (ok : Balanced c (pc ::ₘ T) (.thread pc a)) (hd : Does c pc a c' new) :
    c'.state ≠ .TERM → weigh firing (T + (new : Multiset Pc)) +
      removing (T + (new : Multiset Pc)) = 0 ∧ c'.id_linked = true ∧ c'.ip_linked = true ∧
      c'.frees = 0 := by
  have hr := h.ref
  intro hs'
  cases hd with
  | connect_err w => exact absurd ok id
  | error_term ctx hl hs => exact absurd ok id
  | error ctx hl hs => exact absurd ok id
  | failed w o b hl hs => exact absurd rfl hs'
  | terminate hl hs => exact absurd rfl hs'
  | obtain w hl hs => simpa using h.alive (by simp [hs])
  | completed w b hl hs hq => simpa using h.alive (by simp [hs])
  | unref k =>
    have hs : c.state ≠ .TERM := by simpa using hs'
    have hp := ho.another hs (by simp)
    obtain ⟨h1, h2, h3, h4⟩ := h.alive hs
    simp at hr hp h1 ⊢
    refine ⟨h1, h2, h3, h4, by omega⟩
  | remove_id extra k =>
    have := (h.alive hs').1
    simp at this
  | remove_ip k =>
    have := (h.alive hs').1
    simp at this
  | remove_end k =>
    have := (h.alive (by simpa using hs')).1
    simp at this
  | timer_fire_out =>
    have := (h.alive hs').1
    simp at this
  | timer_fire_in =>
    have := (h.alive hs').1
    simp at this
  | read_term hl hs => exact absurd hs (by simpa using hs')
  | _ => simpa using h.alive (by simpa using hs')

theorem Counted.term_turn  (ok : Balanced c (pc ::ₘ T) (.thread pc a)) (hd : Does c pc a c' new) :
    c'.state = .TERM → weigh firing (T + (new : Multiset Pc)) + weigh at_id (T + (new : Multiset Pc)) =
        c'.id_linked.toNat ∧
      weigh firing (T + (new : Multiset Pc)) + weigh at_id (T + (new : Multiset Pc)) +
        weigh at_ip (T + (new : Multiset Pc)) = c'.ip_linked.toNat ∧
      weigh firing (T + (new : Multiset Pc)) + removing (T + (new : Multiset Pc)) ≤ 1 := by
  have hid := c.id_linked.toNat_le
  have hip := c.ip_linked.toNat_le
  intro hs'
  cases hd with
  | connect_err w => exact absurd ok id
  | error_term ctx hl hs => exact absurd ok id
  | error ctx hl hs => exact absurd ok id
  | failed w o b hl hs =>
    obtain ⟨h1, h2, h3, h4⟩ := h.alive hs
    simp at h1 h2 h3 ⊢
    simp [h1, h2, h3]
  | terminate hl hs =>
    obtain ⟨h1, h2, h3, h4⟩ := h.alive hs
    simp at h1 h2 h3 ⊢
    simp [h1, h2, h3]
  | remove_id extra k =>
    obtain ⟨h1, h2, h3⟩ := h.term hs'
    simp at h1 h2 h3 ⊢
    omega
  | remove_ip k =>
    obtain ⟨h1, h2, h3⟩ := h.term hs'
    simp at h1 h2 h3 ⊢
    omega
  | obtain w hl hs => exact absurd hs' (by simp)
  | completed w b hl hs hq => exact absurd hs' (by simp)
  | _ =>
    obtain ⟨h1, h2, h3⟩ := h.term (by simpa using hs')
    simp at h1 h2 h3 ⊢
    omega

theorem Counted.frees_turn (ho : Opening c (pc ::ₘ T))
    (ht : Tokens c (pc ::ₘ T)) (ok : Balanced c (pc ::ₘ T) (.thread pc a))
    (hd : Does c pc a c' new) :
    c'.frees = 0 ∧ 0 < c'.ref + removing (T + (new : Multiset Pc)) ∨
      c'.frees = 1 ∧ c'.ref + removing (T + (new : Multiset Pc)) = 0 := by
  have h1 := h.ref
  have h4 := h.frees
  have h1' := h.ref_turn ho ht ok hd
  cases hd with
  | connect_err w => exact absurd ok id
  | error_term ctx hl hs => exact absurd ok id
  | error ctx hl hs => exact absurd ok id
  | unref k =>
    simp only [Balanced] at ok
    simp at h1 h4 ok ⊢
    by_cases h0 : c.ref - 1 = 0
    · rw [if_pos h0]
      omega
    · rw [if_neg h0]
      omega
  | read_term hl hs =>
    simp only [Balanced] at ok
    simp at h1 h4 ok ⊢
    by_cases h0 : c.ref - 1 = 0
    · rw [if_pos h0]
      have := ok hs (by omega)
      omega
    · rw [if_neg h0]
      omega
  | remove_end k =>
    have hr : removing (Pc.remove_end k ::ₘ T) ≤ 1 := by
      by_cases hs : c.state = .TERM
      · have := (h.term hs).2.2
        omega
      · have := (h.alive hs).1
        omega
    simp at h1 h4 hr ⊢
    by_cases h0 : c.ref = 0
    · rw [if_pos h0]
      omega
    · rw [if_neg h0]
      omega
  | _ =>
    simp at h1 h4 h1' ⊢
    omega

/-- **A turn keeps the references balanced.** -/
theorem Counted.turn (ho : Opening c (pc ::ₘ T))
    (ht : Tokens c (pc ::ₘ T)) (ok : Balanced c (pc ::ₘ T) (.thread pc a))
    (hd : Does c pc a c' new) : Counted c' (T + (new : Multiset Pc)) :=
  ⟨h.ref_turn ho ht ok hd, h.alive_turn ho ok hd, h.term_turn ok hd, h.frees_turn ho ht ok hd⟩

end

theorem Counted.event {ev : Event} (h : Counted c T) (hd : Happens c ev c' new) :
    Counted c' (T + (new : Multiset Pc)) := by
  obtain ⟨h1, h2, h3, h4⟩ := h
  cases hd with
  | write w hs hl =>
    refine ⟨?_, by simpa using h2, by simpa using h3, ?_⟩
    · simp at h1 ⊢
      omega
    · refine .inl ⟨(h2 hs).2.2.2, ?_⟩
      simp at h1 ⊢
      omega
  | timer hl hi hs =>
    obtain ⟨h2, hid, hip, hf⟩ := h2 hs
    refine ⟨?_, fun h => absurd rfl h, fun _ => ?_, ?_⟩
    · simp at h1 ⊢
      omega
    · simp at h2 hid hip ⊢
      simp [h2, hid, hip]
    · refine .inl ⟨hf, ?_⟩
      simp at h1 ⊢
      omega
  | ready_out cb hr =>
    refine ⟨?_, ?_, ?_, ?_⟩
    · cases cb <;> simp [hr, Callback.pc] at h1 ⊢ <;> omega
    · cases cb <;> simpa [Callback.pc] using h2
    · cases cb <;> simpa [Callback.pc] using h3
    · cases cb <;> simpa [Callback.pc] using h4
  | fire_out cb hr =>
    refine ⟨?_, ?_, ?_, ?_⟩
    · cases cb <;> simp [hr, Callback.pc] at h1 ⊢ <;> omega
    · cases cb <;> simpa [Callback.pc] using h2
    · cases cb <;> simpa [Callback.pc] using h3
    · cases cb <;> simpa [Callback.pc] using h4
  | _ =>
    refine ⟨?_, by simpa using h2, by simpa using h3, by simpa using h4⟩
    simp [*] at h1 ⊢ <;> omega

end Counted

theorem counted_reachable {s : Pool Conn Pc} (hr : Reachable Balanced s) :
    Opening s.shared s.threads ∧ Counted s.shared s.threads := by
  obtain ⟨init, hi, hrun⟩ := hr
  suffices Tokens s.shared s.threads ∧ Opening s.shared s.threads ∧ Counted s.shared s.threads from
    this.2
  refine Pool.invariant (I := fun c T => Tokens c T ∧ Opening c T ∧ Counted c T) ?_
    (fun c c' T pc a new h ok e => ⟨h.1.turn (turn_does e), h.2.1.turn h.1 ok (turn_does e),
      h.2.2.turn h.2.1 h.1 ok (turn_does e)⟩)
    (fun c c' T e new h _ he => ⟨h.1.event (event_happens he), h.2.1.event (event_happens he),
      h.2.2.event (event_happens he)⟩) hrun
  refine ⟨tokens_reachable Balanced ⟨init, hi, .init⟩, ?_⟩
  rcases hi with rfl | ⟨w, rfl⟩
  · constructor <;> constructor <;> simp [tcp_accept, create_tcp_conn, parties, removing, regs,
      refs, reads, connects, connect_reg, firing, at_id, at_ip, at_end]
  · constructor <;> constructor <;> simp [a_tcp_connect, create_tcp_conn, parties, removing, regs,
      refs, reads, connects, connect_reg, firing, at_id, at_ip, at_end]

/-- **Reference counting.**  In runs of such turns `ref` is the number of parties that will still
release the connection; it is freed once, when there is none and no thread is inside
`remove_tcp_conn`, and by then it is unlinked; so it is freed when it is terminated and nothing is
left to do. -/
theorem references_counted {s : Pool Conn Pc} (hr : Reachable Balanced s) :
    s.shared.ref = parties s.shared s.threads ∧
      s.shared.frees = (if parties s.shared s.threads = 0 ∧ removing s.threads = 0 then 1 else 0) ∧
      (s.shared.frees = 1 → s.shared.id_linked = false ∧ s.shared.ip_linked = false) ∧
      (s.shared.state = .TERM → s.threads = 0 → s.shared.reg_in = false → s.shared.reg_out = none →
        s.shared.frees = 1) := by
  obtain ⟨-, h⟩ := counted_reachable hr
  have h1 := h.ref
  have h4 := h.frees
  refine ⟨h1, ?_, fun hf => ?_, fun hs h0 hi ho => ?_⟩
  · by_cases hp : parties s.shared s.threads = 0 ∧ removing s.threads = 0
    · rw [if_pos hp]
      omega
    · rw [if_neg hp]
      omega
  · have hs : s.shared.state = .TERM := by
      by_contra hs
      have := (h.alive hs).2.2.2
      omega
    obtain ⟨hid, hip, -⟩ := h.term hs
    have hr0 : weigh firing s.threads ≤ weigh refs s.threads :=
      weigh_le (fun pc => by cases pc <;> simp [firing, refs]) _
    have hp : parties s.shared s.threads = 0 ∧ removing s.threads = 0 := by omega
    simp only [parties, removing] at hp
    constructor
    · rw [← Bool.toNat_eq_zero]
      omega
    · rw [← Bool.toNat_eq_zero]
      omega
  · have hp : parties s.shared s.threads = 0 ∧ removing s.threads = 0 := by
      simp [parties, removing, regs, h0, hi, ho]
    omega

/-- An accepted connection that the other side closes. -/
def closed : List (Turn Pc Answer Event) :=
  [.thread .accepted .ok, .event .ready_in, .thread .event_read .ok, .thread .reading .err,
    .thread .terminate .ok, .thread (.remove_id 1 .stop) .ok, .thread (.remove_ip .stop) .ok,
    .thread (.remove_end .stop) .ok]

theorem references_counted_closed : ∃ s, Pool.replay turn event
    (fun s op => Balanced s.shared s.threads op) tcp_accept closed = some s ∧
    s.shared.frees = 1 ∧ s.shared.id_linked = false ∧ s.shared.ip_linked = false := by
  obtain ⟨s, hs, hst, h0, hi, ho⟩ : ∃ s, Pool.replay turn event
      (fun s op => Balanced s.shared s.threads op) tcp_accept closed = some s ∧
      s.shared.state = .TERM ∧ s.threads = 0 ∧ s.shared.reg_in = false ∧ s.shared.reg_out = none :=
    ⟨_, rfl, rfl, rfl, rfl, rfl⟩
  have hr : Reachable Balanced s := ⟨tcp_accept, .inl rfl, Pool.run_replay .init hs⟩
  have h := references_counted hr
  have hf := h.2.2.2 hst h0 hi ho
  exact ⟨s, hs, hf, h.2.2.1 hf⟩

/-- A write that opens a connection, where `connect` is done at once: nobody reads from the
connection, and the writer frees it with its reference while it is linked. -/
def connectedAndFreed : List (Turn Pc Answer Event) :=
  let w : Write := ⟨1, [65]⟩
  [.thread (.connect_start w) .ok, .thread (.connect w) .ok, .thread (.send_resume .connect) .ok,
    .thread (.send w 0 .connect) .ok, .thread (.sending w 0 .connect) (.took 1),
    .thread (.completed w .connect) .ok, .thread (.unref (.ret 1 .connect 0)) .ok]

theorem freed_while_linked : ¬ ∀ s : Pool Conn Pc, Reachable (fun _ _ _ => True) s →
    s.shared.frees = 1 → s.shared.id_linked = false ∧ s.shared.ip_linked = false := by
  intro h
  obtain ⟨s, hs, h1, h2⟩ : ∃ s, Pool.replay turn event (fun _ _ => True)
      (a_tcp_connect ⟨1, [65]⟩) connectedAndFreed = some s ∧
      s.shared.frees = 1 ∧ s.shared.id_linked = true := ⟨_, rfl, rfl, rfl⟩
  have := (h s ⟨_, .inr ⟨⟨1, [65]⟩, rfl⟩, Pool.run_replay .init hs⟩ h1).1
  exact absurd (h2.symm.trans this) (by decide)

end OpenSips.Tcp
