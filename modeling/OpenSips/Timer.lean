import Mathlib.Algebra.Order.Floor.Div
import OpenSips.Dispatcher.Model

/-!
# OpenSips.Timer — timers (`core/timer.c`)

`timer_thread` sleeps with `select` and then lets one or both of its tickers look at their timers; which
one it does is decided once, by the lists that are not empty.  A turn of its loop gives what it did, in
order.
-/

namespace OpenSips.Timer

open List

open Dispatcher (HeapNode)

/-- Seconds. -/
def TIMER_TICK : ℕ := 1

/-- Microseconds.  The macro is the text `100*1000`, without parentheses. -/
def UTIMER_TICK : ℕ := 100 * 1000

/-- A `struct timer_task` at its address. -/
structure TimerTask where
  addr : Ref
  task : HeapNode
  interval : UInt32
  runtime : UInt64

structure Timers where
  jiffies : UInt64
  ujiffies : UInt64
  ttasks : List TimerTask
  uttasks : List TimerTask

/-- The code does not set `last_reactor`. -/
def build_ttask (addr : Ref) (f param : Ptr) (interval : UInt32) : TimerTask :=
  { addr := addr, task :=
      { fd := 0, flags := 0, priority := 100, cb := f, cb_param := param, last_reactor := NULL },
    interval := interval, runtime := interval.toUInt64 }

/-- A call of `register_timer` or of `register_utimer`. -/
inductive Registration where
  | timer (f param : Ptr) (interval : UInt32)
  | utimer (f param : Ptr) (interval : UInt32)

def register (s : Timers) : Registration × Ref → Timers
  | (.timer f param interval, addr) =>
    { s with ttasks := s.ttasks ++ [build_ttask addr f param interval] }
  | (.utimer f param interval, addr) =>
    { s with uttasks := s.uttasks ++ [build_ttask addr f param interval] }

/-- The state `start_timer_thread` finds; the `i`-th registration allocates the task `i`. -/
def registered (regs : List Registration) : Timers :=
  regs.zipIdx.foldl register { jiffies := 0, ujiffies := 0, ttasks := [], uttasks := [] }

inductive Effect where
  | timer_ticker
  | utimer_ticker
  | put_task (t : Ref) (n : HeapNode)
  deriving DecidableEq

/-- The runtime a ticker leaves at time `j`. -/
def advance (j : UInt64) (t : TimerTask) : TimerTask :=
  if j ≥ t.runtime then { t with runtime := j + t.interval.toUInt64 } else t

/-- What a ticker puts on the dispatcher at time `j`. -/
def due (j : UInt64) (ts : List TimerTask) : List Effect :=
  (ts.filter fun t => j ≥ t.runtime).map fun t => .put_task t.addr t.task

def timer_ticker (s : Timers) : Timers × List Effect :=
  let j := s.jiffies + UInt64.ofNat TIMER_TICK
  ({ s with jiffies := j, ttasks := s.ttasks.map (advance j) }, .timer_ticker :: due j s.ttasks)

def utimer_ticker (s : Timers) : Timers × List Effect :=
  let j := s.ujiffies + UInt64.ofNat UTIMER_TICK
  ({ s with ujiffies := j, uttasks := s.uttasks.map (advance j) }, .utimer_ticker :: due j s.uttasks)

/-- The four loops of `timer_thread`. -/
inductive Loop where
  | coarse
  | fine
  | both
  | ratio (multiple : ℕ)
  deriving DecidableEq

structure Thread where
  loop : Loop
  tv_sec : ℕ
  tv_usec : ℕ
  cnt : ℕ

/-- What `timer_thread` sets up.  `UTIMER_TICK` is expanded: the quotient is that by 100, times 1000. -/
def timer_thread (s : Timers) : Thread :=
  let single := s.uttasks.isEmpty || TIMER_TICK * 1000000 == 100 * 1000
  let multiple := if single then 1 else TIMER_TICK * 1000000 / 100 * 1000 / 1000000
  { loop :=
      if s.uttasks.isEmpty then .coarse
      else if s.ttasks.isEmpty then .fine
      else if multiple = 1 then .both
      else .ratio multiple,
    tv_sec := if single then TIMER_TICK else 100 * 1000 / 1000000,
    tv_usec := if single then 0 else 100 * 1000 % 1000000,
    cnt := 1 }

/-- A turn, behind its `select`. -/
def turn (th : Thread) (s : Timers) : Thread × Timers × List Effect :=
  match th.loop with
  | .coarse => (th, timer_ticker s)
  | .fine => (th, utimer_ticker s)
  | .both =>
    let (s, es) := timer_ticker s
    let (s, es') := utimer_ticker s
    (th, s, es ++ es')
  | .ratio multiple =>
    let (s, es) := utimer_ticker s
    if th.cnt = multiple then
      let (s, es') := timer_ticker s
      ({ th with cnt := 0 + 1 }, s, es ++ es')
    else ({ th with cnt := th.cnt + 1 }, s, es)

/-- `n` turns, with all they did. -/
def turns (th : Thread) (s : Timers) : ℕ → Thread × Timers × List Effect
  | 0 => (th, s, [])
  | n + 1 =>
    let (th, s, es) := turns th s n
    let (th, s, es') := turn th s
    (th, s, es ++ es')

section Single

variable {T k c : ℕ} {t : TimerTask} {j : UInt64}

/-- The ticks of length `T` between two firings. -/
def TimerTask.period (t : TimerTask) (T : ℕ) : ℕ := t.interval.toNat ⌈/⌉ T

/-- After `k` ticks of length `T` the timer was put `c` times, as often as its period fits in, and waits
for the next time; this is said only as long as no time wrapped around before it was looked at. -/
def OnTime (T k : ℕ) (t : TimerTask) (c : ℕ) : Prop :=
  k * T + t.interval.toNat ≤ 2 ^ 64 →
    t.runtime.toNat = (k / t.period T * t.period T * T + t.interval.toNat) % 2 ^ 64 ∧ c = k / t.period T

@[simp] theorem advance_addr : (advance j t).addr = t.addr := by
  unfold advance
  split_ifs <;> rfl

@[simp] theorem advance_interval : (advance j t).interval = t.interval := by
  unfold advance
  split_ifs <;> rfl

@[simp] theorem advance_period : (advance j t).period T = t.period T := by
  rw [TimerTask.period, advance_interval, TimerTask.period]

theorem TimerTask.period_pos (hT : 0 < T) (hi : 0 < t.interval.toNat) : 0 < t.period T := by
  rw [Nat.pos_iff_ne_zero]
  intro h0
  have hle := (ceilDiv_le_iff_le_mul hT).1 (le_of_eq h0)
  rw [mul_zero] at hle
  exact absurd hle (Nat.not_le_of_lt hi)

theorem runtime_le_iff (hT : 0 < T) (hi : 0 < t.interval.toNat) :
    k / t.period T * t.period T * T + t.interval.toNat ≤ (k + 1) * T ↔ t.period T ∣ k + 1 := by
  have hp := t.period_pos hT hi
  have hmod := Nat.mod_lt k hp
  have hk : k + 1 = k / t.period T * t.period T + (k % t.period T + 1) := by
    rw [← add_assoc, mul_comm, Nat.div_add_mod]
  have hceil : t.interval.toNat ≤ T * (k % t.period T + 1) ↔ t.period T ≤ k % t.period T + 1 :=
    (ceilDiv_le_iff_le_mul hT).symm
  have hdvd : t.period T ∣ k + 1 ↔ t.period T ∣ k % t.period T + 1 := by
    rw [hk]
    exact Nat.dvd_add_right (Dvd.intro_left _ rfl)
  have hsplit : (k + 1) * T = k / t.period T * t.period T * T + T * (k % t.period T + 1) := by
    rw [hk, add_mul, mul_comm T]
  rw [hsplit, Nat.add_le_add_iff_left, hceil, hdvd]
  constructor
  · intro hle
    exact le_antisymm hle hmod ▸ Nat.dvd_refl _
  · exact Nat.le_of_dvd (Nat.succ_pos _)

/-- **One tick of a timer.** -/
theorem OnTime.tick (hT : 0 < T) (hi : 0 < t.interval.toNat) (hj : j.toNat = (k + 1) * T % 2 ^ 64)
    (h : OnTime T k t c) : OnTime T (k + 1) (advance j t) (c + if j ≥ t.runtime then 1 else 0) := by
  intro hroom
  rw [advance_interval] at hroom
  have hstep : (k + 1) * T = k * T + T := Nat.succ_mul k T
  obtain ⟨hrun, rfl⟩ := h (by omega)
  have hle : k / t.period T * t.period T * T ≤ k * T :=
    Nat.mul_le_mul_right T (Nat.div_mul_le_self k _)
  rw [Nat.mod_eq_of_lt (by omega)] at hrun hj
  have hdue : j ≥ t.runtime ↔ t.period T ∣ k + 1 := by
    rw [ge_iff_le, UInt64.le_iff_toNat_le, hrun, hj]
    exact runtime_le_iff hT hi
  rw [advance_period, advance_interval]
  by_cases hd : t.period T ∣ k + 1
  · rw [if_pos (hdue.2 hd), Nat.div_mul_cancel hd, advance, if_pos (hdue.2 hd)]
    refine ⟨?_, (Nat.succ_div_of_dvd hd).symm⟩
    show (j + t.interval.toUInt64).toNat = _
    rw [UInt64.toNat_add, hj]
    rfl
  · rw [if_neg (fun hge => hd (hdue.1 hge)), Nat.succ_div_of_not_dvd hd, advance,
      if_neg (fun hge => hd (hdue.1 hge))]
    refine ⟨?_, rfl⟩
    rw [Nat.mod_eq_of_lt (by omega)]
    exact hrun

end Single

section Counts

variable {ts : List TimerTask} {t : TimerTask} {j : UInt64} {a : Ref} {log es : List Effect}

/-- How often the task at `a` was put on the dispatcher. -/
def puts (a : Ref) (log : List Effect) : ℕ :=
  log.countP fun e => match e with
    | .put_task b _ => b = a
    | _ => false

theorem puts_append : puts a (log ++ es) = puts a log + puts a es := countP_append

theorem puts_due_of_not_mem (h : a ∉ ts.map TimerTask.addr) : puts a (due j ts) = 0 := by
  rw [puts, countP_eq_zero]
  intro e he
  obtain ⟨t, ht, rfl⟩ := List.mem_map.1 he
  have hne : t.addr ≠ a := fun heq => h (heq ▸ List.mem_map_of_mem (mem_filter.1 ht).1)
  simpa using hne

theorem puts_due (h : (ts.map TimerTask.addr).Nodup) (ht : t ∈ ts) :
    puts t.addr (due j ts) = if j ≥ t.runtime then 1 else 0 := by
  induction ts with
  | nil => exact absurd ht not_mem_nil
  | cons t' ts ih =>
    rw [map_cons, nodup_cons] at h
    have hcons : due j (t' :: ts) =
        (if j ≥ t'.runtime then [.put_task t'.addr t'.task] else []) ++ due j ts := by
      unfold due
      by_cases hd : j ≥ t'.runtime
      · rw [filter_cons_of_pos (by simpa using hd), if_pos hd, map_cons]
        rfl
      · rw [filter_cons_of_neg (by simpa using hd), if_neg hd]
        rfl
    rw [hcons, puts_append]
    rcases mem_cons.1 ht with rfl | ht
    · rw [puts_due_of_not_mem h.1]
      split_ifs with hd <;> simp [puts]
    · have hne : t'.addr ≠ t.addr := fun heq => h.1 (heq ▸ List.mem_map_of_mem ht)
      rw [ih h.2 ht]
      split_ifs with hd <;> simp [puts, hne]

end Counts

section Kept

variable {A B : List (Ref × UInt32)} {s : Timers} {log : List Effect} {k l : ℕ}

def TimerTask.name (t : TimerTask) : Ref × UInt32 := (t.addr, t.interval)

/-- The timers of one list, with ticks of length `T`, after `k` of them. -/
structure Clock (T : ℕ) (A : List (Ref × UInt32)) (j : UInt64) (ts : List TimerTask) (log : List Effect)
    (k : ℕ) : Prop where
  time : j.toNat = k * T % 2 ^ 64
  names : ts.map TimerTask.name = A
  onTime : ∀ t ∈ ts, 0 < t.interval.toNat → OnTime T k t (puts t.addr log)

theorem Clock.addrs {T : ℕ} {j : UInt64} {ts : List TimerTask} (h : Clock T A j ts log k) :
    ts.map TimerTask.addr = A.map Prod.fst := by
  rw [← h.names, List.map_map]
  rfl

theorem Clock.tick {T : ℕ} {j : UInt64} {ts : List TimerTask} {e : Effect} (h : Clock T A j ts log k)
    (hT : 0 < T) (hlt : T < 2 ^ 64) (hA : (A.map Prod.fst).Nodup) (he : ∀ a, puts a [e] = 0) :
    Clock T A (j + UInt64.ofNat T) (ts.map (advance (j + UInt64.ofNat T)))
      (log ++ e :: due (j + UInt64.ofNat T) ts) (k + 1) := by
  have htime : (j + UInt64.ofNat T).toNat = (k + 1) * T % 2 ^ 64 := by
    rw [UInt64.toNat_add, h.time, UInt64.toNat_ofNat_of_lt' hlt, Nat.mod_add_mod, Nat.succ_mul]
  refine ⟨htime, ?_, ?_⟩
  · rw [List.map_map, ← h.names]
    apply map_congr_left
    intro t _
    show (_, _) = (_, _)
    rw [advance_addr, advance_interval]
  · intro t' ht' hi
    obtain ⟨t, ht, rfl⟩ := List.mem_map.1 ht'
    rw [advance_interval] at hi
    have hcount : puts (advance (j + UInt64.ofNat T) t).addr (log ++ e :: due (j + UInt64.ofNat T) ts) =
        puts t.addr log + if j + UInt64.ofNat T ≥ t.runtime then 1 else 0 := by
      rw [advance_addr, puts_append, ← singleton_append, puts_append, he, zero_add, puts_due (h.addrs ▸ hA) ht]
    rw [hcount]
    exact (h.onTime t ht hi).tick hT hi htime

theorem Clock.other {T : ℕ} {j j' : UInt64} {ts ts' : List TimerTask} {e : Effect}
    (h : Clock T A j ts log k) (hdis : ∀ a ∈ A.map Prod.fst, a ∉ ts'.map TimerTask.addr)
    (he : ∀ a, puts a [e] = 0) : Clock T A j ts (log ++ e :: due j' ts') k := by
  refine ⟨h.time, h.names, fun t ht hi => ?_⟩
  have hmem : t.addr ∈ A.map Prod.fst := h.addrs ▸ List.mem_map_of_mem ht
  rw [puts_append, ← singleton_append, puts_append, he, puts_due_of_not_mem (hdis _ hmem)]
  exact h.onTime t ht hi

/-- After `k` ticks of `timer_ticker` and `l` of `utimer_ticker`. -/
structure Kept (A B : List (Ref × UInt32)) (s : Timers) (log : List Effect) (k l : ℕ) : Prop where
  coarse : Clock TIMER_TICK A s.jiffies s.ttasks log k
  fine : Clock UTIMER_TICK B s.ujiffies s.uttasks log l
  nodup : ((A ++ B).map Prod.fst).Nodup
  count : log.count .timer_ticker = k

theorem Kept.disjoint (h : Kept A B s log k l) {a : Ref} (ha : a ∈ A.map Prod.fst) :
    a ∉ B.map Prod.fst := by
  have hnd := h.nodup
  rw [map_append] at hnd
  exact fun hb => (disjoint_of_nodup_append hnd) ha hb

theorem count_due {j : UInt64} {ts : List TimerTask} : (due j ts).count .timer_ticker = 0 := by
  apply count_eq_zero_of_not_mem
  intro he
  obtain ⟨_, _, heq⟩ := List.mem_map.1 he
  exact Effect.noConfusion heq

theorem Kept.timer_ticker (h : Kept A B s log k l) :
    Kept A B (timer_ticker s).1 (log ++ (timer_ticker s).2) (k + 1) l := by
  have hnd := h.nodup
  rw [map_append] at hnd
  refine ⟨h.coarse.tick one_pos (by unfold TIMER_TICK; omega) hnd.of_append_left fun _ => rfl,
    h.fine.other ?_ fun _ => rfl, h.nodup, ?_⟩
  · intro b hb ha
    rw [h.coarse.addrs] at ha
    exact h.disjoint ha hb
  · rw [count_append, h.count, Timer.timer_ticker, count_cons_self, count_due]

/-- With the time as a variable, so that it is not computed. -/
theorem utimer_ticker_eq (s : Timers) : ∃ j, s.ujiffies + UInt64.ofNat UTIMER_TICK = j ∧ Timer.utimer_ticker s =
    ({ s with ujiffies := j, uttasks := s.uttasks.map (advance j) }, .utimer_ticker :: due j s.uttasks) :=
  ⟨_, rfl, rfl⟩

theorem Kept.utimer_ticker (h : Kept A B s log k l) :
    Kept A B (utimer_ticker s).1 (log ++ (utimer_ticker s).2) k (l + 1) := by
  have hnd := h.nodup
  rw [map_append] at hnd
  have hlt : UTIMER_TICK < 2 ^ 64 := by unfold UTIMER_TICK; omega
  have hfine := h.fine.tick (e := .utimer_ticker) (by unfold UTIMER_TICK; omega) hlt hnd.of_append_right
    fun _ => rfl
  obtain ⟨j, hj, heq⟩ := utimer_ticker_eq s
  rw [hj] at hfine
  rw [heq]
  refine ⟨h.coarse.other ?_ fun _ => rfl, hfine, h.nodup, ?_⟩
  · intro a ha hb
    rw [h.fine.addrs] at hb
    exact h.disjoint ha hb
  · rw [count_append, h.count, count_cons_of_ne (by decide), count_due]
    rfl

end Kept

section Threads

variable {A B : List (Ref × UInt32)} {s : Timers} {k l n : ℕ} {regs : List Registration}

/-- How often `timer_ticker` has run after `n` turns. -/
def Loop.coarse_ticks : Loop → ℕ → ℕ
  | .coarse, n | .both, n => n
  | .fine, _ => 0
  | .ratio multiple, n => n / multiple

def Loop.fine_ticks : Loop → ℕ → ℕ
  | .coarse, _ => 0
  | .fine, n | .both, n | .ratio _, n => n

/-- `cnt` counts from 1 to the ratio. -/
def Loop.Counts : Loop → ℕ → ℕ → Prop
  | .ratio multiple, n, cnt => 0 < multiple ∧ cnt = n % multiple + 1
  | _, _, _ => True

theorem Kept.turn {th : Thread} {log : List Effect} (hc : th.loop.Counts n th.cnt)
    (h : Kept A B s log (th.loop.coarse_ticks n) (th.loop.fine_ticks n)) :
    (turn th s).1.loop = th.loop ∧ th.loop.Counts (n + 1) (turn th s).1.cnt ∧
      Kept A B (turn th s).2.1 (log ++ (turn th s).2.2) (th.loop.coarse_ticks (n + 1))
        (th.loop.fine_ticks (n + 1)) := by
  obtain ⟨loop, tv_sec, tv_usec, cnt⟩ := th
  cases loop with
  | coarse => exact ⟨rfl, trivial, h.timer_ticker⟩
  | fine => exact ⟨rfl, trivial, h.utimer_ticker⟩
  | both =>
    refine ⟨rfl, trivial, ?_⟩
    have h' := h.timer_ticker.utimer_ticker
    rw [append_assoc] at h'
    exact h'
  | ratio multiple =>
    obtain ⟨hpos, hcnt⟩ : 0 < multiple ∧ cnt = n % multiple + 1 := hc
    have h' := h.utimer_ticker
    have hmod := Nat.mod_lt n hpos
    have hn : n + 1 = multiple * (n / multiple) + (n % multiple + 1) := by
      rw [← add_assoc, Nat.div_add_mod]
    by_cases heq : cnt = multiple
    · have hdvd : multiple ∣ n + 1 := by
        rw [hn, ← hcnt, heq]
        exact Nat.dvd_add (Nat.dvd_mul_right _ _) (Nat.dvd_refl _)
      have hlast := h'.timer_ticker
      rw [append_assoc] at hlast
      simp only [Timer.turn, if_pos heq, Loop.Counts, Loop.coarse_ticks, Loop.fine_ticks,
        Nat.succ_div_of_dvd hdvd, Nat.mod_eq_zero_of_dvd hdvd]
      exact ⟨trivial, ⟨hpos, trivial⟩, hlast⟩
    · have hlt : n % multiple + 1 < multiple := by omega
      have hmod' : (n + 1) % multiple = n % multiple + 1 := by
        rw [hn, Nat.mul_add_mod, Nat.mod_eq_of_lt hlt]
      have hndvd : ¬ multiple ∣ n + 1 := fun hd => by
        rw [Nat.mod_eq_zero_of_dvd hd] at hmod'
        exact Nat.succ_ne_zero _ hmod'.symm
      simp only [Timer.turn, if_neg heq, Loop.Counts, Loop.coarse_ticks, Loop.fine_ticks,
        Nat.succ_div_of_not_dvd hndvd, hmod']
      exact ⟨trivial, ⟨hpos, congrArg (· + 1) hcnt⟩, h'⟩

/-- **Any number of turns.** -/
theorem Kept.turns {th : Thread} (hc : th.loop.Counts 0 th.cnt) (h : Kept A B s [] 0 0) (n : ℕ) :
    (turns th s n).1.loop = th.loop ∧ th.loop.Counts n (turns th s n).1.cnt ∧
      Kept A B (turns th s n).2.1 (turns th s n).2.2 (th.loop.coarse_ticks n) (th.loop.fine_ticks n) := by
  induction n with
  | zero =>
    refine ⟨rfl, hc, ?_⟩
    have h0 : th.loop.coarse_ticks 0 = 0 := by
      cases th.loop with
      | ratio multiple => exact Nat.zero_div multiple
      | _ => rfl
    have h1 : th.loop.fine_ticks 0 = 0 := by cases th.loop <;> rfl
    rw [h0, h1]
    exact h
  | succ n ih =>
    obtain ⟨hloop, hcnt, hkept⟩ := ih
    rw [← hloop] at hcnt hkept ⊢
    exact hkept.turn hcnt

def coarse_names (regs : List Registration) : List (Ref × UInt32) :=
  regs.zipIdx.filterMap fun
    | (.timer _ _ interval, addr) => some (addr, interval)
    | (.utimer .., _) => none

def fine_names (regs : List Registration) : List (Ref × UInt32) :=
  regs.zipIdx.filterMap fun
    | (.timer .., _) => none
    | (.utimer _ _ interval, addr) => some (addr, interval)

theorem zipIdx_concat (r : Registration) : (regs ++ [r]).zipIdx = regs.zipIdx ++ [(r, regs.length)] := by
  rw [zipIdx_append, zero_add]
  rfl

theorem registered_concat (r : Registration) :
    registered (regs ++ [r]) = register (registered regs) (r, regs.length) := by
  rw [registered, zipIdx_concat, foldl_append]
  rfl

section Names

variable {f param : Ptr} {interval : UInt32}

theorem coarse_names_timer :
    coarse_names (regs ++ [.timer f param interval]) = coarse_names regs ++ [(regs.length, interval)] := by
  rw [coarse_names, zipIdx_concat, filterMap_append]
  rfl

theorem coarse_names_utimer : coarse_names (regs ++ [.utimer f param interval]) = coarse_names regs := by
  rw [coarse_names, zipIdx_concat, filterMap_append]
  exact append_nil _

theorem fine_names_timer : fine_names (regs ++ [.timer f param interval]) = fine_names regs := by
  rw [fine_names, zipIdx_concat, filterMap_append]
  exact append_nil _

theorem fine_names_utimer :
    fine_names (regs ++ [.utimer f param interval]) = fine_names regs ++ [(regs.length, interval)] := by
  rw [fine_names, zipIdx_concat, filterMap_append]
  rfl

end Names

theorem names_perm : ((coarse_names regs ++ fine_names regs).map Prod.fst).Perm (List.range regs.length) := by
  induction regs using List.reverseRecOn with
  | nil => exact List.Perm.refl _
  | append_singleton regs r ih =>
    rw [length_append, length_singleton, range_succ]
    cases r with
    | timer f param interval =>
      rw [coarse_names_timer, fine_names_timer, append_assoc, map_append]
      refine Perm.trans ?_ (ih.append_right [regs.length])
      rw [map_append, map_append, append_assoc]
      exact Perm.append_left _ perm_append_comm
    | utimer f param interval =>
      rw [coarse_names_utimer, fine_names_utimer, ← append_assoc, map_append]
      exact ih.append_right _

theorem onTime_registered {T : ℕ} {addr : Ref} {f param : Ptr} {interval : UInt32} :
    OnTime T 0 (build_ttask addr f param interval) 0 := by
  intro _
  have hlt := interval.toNat_lt
  rw [Nat.zero_div, zero_mul, zero_mul, zero_add]
  refine ⟨?_, rfl⟩
  show interval.toUInt64.toNat = interval.toNat % _
  rw [UInt32.toNat_toUInt64, Nat.mod_eq_of_lt (by omega)]

theorem Clock.concat {T : ℕ} {j : UInt64} {ts : List TimerTask} {addr : Ref} {f param : Ptr}
    {interval : UInt32} (h : Clock T A j ts [] 0) :
    Clock T (A ++ [(addr, interval)]) j (ts ++ [build_ttask addr f param interval]) [] 0 := by
  refine ⟨h.time, ?_, fun t ht hi => ?_⟩
  · rw [map_append, h.names]
    rfl
  · rcases mem_append.1 ht with ht | ht
    · exact h.onTime t ht hi
    · rw [mem_singleton.1 ht]
      exact onTime_registered

theorem clocks_registered :
    Clock TIMER_TICK (coarse_names regs) (registered regs).jiffies (registered regs).ttasks [] 0 ∧
      Clock UTIMER_TICK (fine_names regs) (registered regs).ujiffies (registered regs).uttasks [] 0 := by
  induction regs using List.reverseRecOn with
  | nil =>
    exact ⟨⟨rfl, rfl, fun t ht => absurd ht not_mem_nil⟩, ⟨rfl, rfl, fun t ht => absurd ht not_mem_nil⟩⟩
  | append_singleton regs r ih =>
    rw [registered_concat]
    cases r with
    | timer f param interval =>
      rw [coarse_names_timer, fine_names_timer]
      exact ⟨ih.1.concat, ih.2⟩
    | utimer f param interval =>
      rw [coarse_names_utimer, fine_names_utimer]
      exact ⟨ih.1, ih.2.concat⟩

theorem kept_registered (regs : List Registration) :
    Kept (coarse_names regs) (fine_names regs) (registered regs) [] 0 0 :=
  ⟨clocks_registered.1, clocks_registered.2, names_perm.nodup_iff.2 nodup_range, rfl⟩

end Threads

section Main

variable {regs : List Registration} {i k n : ℕ} {r : Registration} {s : Timers}

def Registration.interval : Registration → ℕ
  | .timer _ _ interval | .utimer _ _ interval => interval.toNat

def Registration.tick : Registration → ℕ
  | .timer .. => TIMER_TICK
  | .utimer .. => UTIMER_TICK

def Registration.unit : Registration → ℕ
  | .timer .. => 1000000
  | .utimer .. => 1

/-- The interval in microseconds, rounded up to a multiple of the tick. -/
def Registration.rounded (r : Registration) : ℕ := r.interval ⌈/⌉ r.tick * r.tick * r.unit

/-- What the thread does in `n` turns. -/
def events (regs : List Registration) (n : ℕ) : List Effect :=
  (turns (timer_thread (registered regs)) (registered regs) n).2.2

/-- What `n` calls of `select` sleep, in microseconds. -/
def elapsed (regs : List Registration) (n : ℕ) : ℕ :=
  n * ((timer_thread (registered regs)).tv_sec * 1000000 + (timer_thread (registered regs)).tv_usec)

theorem thread_coarse (h : s.uttasks = []) : timer_thread s = ⟨.coarse, 1, 0, 1⟩ := by
  rw [timer_thread, h]
  rfl

theorem thread_fine (h : s.uttasks ≠ []) (h' : s.ttasks = []) :
    timer_thread s = ⟨.fine, 0, 100000, 1⟩ := by
  rw [timer_thread, isEmpty_eq_false_iff.2 h, h']
  rfl

theorem thread_ratio (h : s.uttasks ≠ []) (h' : s.ttasks ≠ []) :
    timer_thread s = ⟨.ratio 10, 0, 100000, 1⟩ := by
  rw [timer_thread, isEmpty_eq_false_iff.2 h, isEmpty_eq_false_iff.2 h']
  rfl

theorem thread_counts (s : Timers) : (timer_thread s).loop.Counts 0 (timer_thread s).cnt := by
  by_cases h : s.uttasks = []
  · rw [thread_coarse h]
    trivial
  by_cases h' : s.ttasks = []
  · rw [thread_fine h h']
    trivial
  · rw [thread_ratio h h']
    exact ⟨by decide, rfl⟩

theorem kept_events (regs : List Registration) (n : ℕ) : Kept (coarse_names regs) (fine_names regs)
      (turns (timer_thread (registered regs)) (registered regs) n).2.1 (events regs n)
      ((timer_thread (registered regs)).loop.coarse_ticks n)
      ((timer_thread (registered regs)).loop.fine_ticks n) :=
  ((kept_registered regs).turns (thread_counts _) n).2.2

theorem mem_zipIdx_of_getElem? (h : regs[i]? = some r) : (r, i) ∈ regs.zipIdx :=
  mem_zipIdx_iff_getElem?.2 h

theorem Clock.puts_eq {T : ℕ} {A : List (Ref × UInt32)} {j : UInt64} {ts : List TimerTask}
    {log : List Effect} {interval : UInt32} (h : Clock T A j ts log k) (hmem : (i, interval) ∈ A)
    (hi : 0 < interval.toNat) (hroom : k * T + interval.toNat ≤ 2 ^ 64) :
    puts i log = k / (interval.toNat ⌈/⌉ T) := by
  rw [← h.names] at hmem
  obtain ⟨t, ht, heq⟩ := List.mem_map.1 hmem
  obtain ⟨rfl, rfl⟩ := Prod.mk.inj heq
  exact (h.onTime t ht hi hroom).2

theorem Clock.ne_nil {T : ℕ} {A : List (Ref × UInt32)} {j : UInt64} {ts : List TimerTask}
    {log : List Effect} {x : Ref × UInt32} (h : Clock T A j ts log k) (hmem : x ∈ A) : ts ≠ [] := by
  rintro rfl
  rw [← h.names] at hmem
  exact not_mem_nil hmem

/-- **Every timer is put once for each of its rounded intervals**, until a time wraps around, and with
timers of both kinds the coarse ticker runs once in every `TIMER_TICK`. -/
theorem timers_fire (regs : List Registration) (n : ℕ) :
    (∀ i r, regs[i]? = some r → 0 < r.interval → elapsed regs n / r.unit + r.interval ≤ 2 ^ 64 →
      puts i (events regs n) = elapsed regs n / r.rounded) ∧
    (∀ multiple, (timer_thread (registered regs)).loop = .ratio multiple →
      (events regs n).count .timer_ticker = n * UTIMER_TICK / (TIMER_TICK * 1000000)) := by
  have hkept := kept_events regs n
  obtain ⟨hc₀, hf₀⟩ := @clocks_registered regs
  constructor
  · intro i r hr hi hroom
    have hmem := mem_zipIdx_of_getElem? hr
    cases r with
    | timer f param interval =>
      have hname : (i, interval) ∈ coarse_names regs := mem_filterMap.2 ⟨_, hmem, rfl⟩
      have hput := hkept.coarse.puts_eq hname hi
      simp only [Registration.rounded, Registration.tick, Registration.unit, Registration.interval,
        TIMER_TICK, mul_one] at hroom hput ⊢
      by_cases hu : (registered regs).uttasks = []
      · simp only [elapsed, thread_coarse hu, Loop.coarse_ticks] at hroom hput ⊢
        rw [hput (by omega)]
        exact (Nat.mul_div_mul_right _ _ (by omega)).symm
      · simp only [elapsed, thread_ratio hu (hc₀.ne_nil hname), Loop.coarse_ticks] at hroom hput ⊢
        rw [hput (by omega), Nat.div_div_eq_div_mul, mul_comm 10]
        have hscale := Nat.mul_div_mul_right n (interval.toNat ⌈/⌉ 1 * 10) (m := 100000) (by omega)
        rw [mul_assoc] at hscale
        exact hscale.symm
    | utimer f param interval =>
      have hname : (i, interval) ∈ fine_names regs := mem_filterMap.2 ⟨_, hmem, rfl⟩
      have hput := hkept.fine.puts_eq hname hi
      have hu := hf₀.ne_nil hname
      have hturns : elapsed regs n = n * UTIMER_TICK ∧
          (timer_thread (registered regs)).loop.fine_ticks n = n := by
        by_cases ht : (registered regs).ttasks = []
        · rw [elapsed, thread_fine hu ht]
          exact ⟨rfl, rfl⟩
        · rw [elapsed, thread_ratio hu ht]
          exact ⟨rfl, rfl⟩
      rw [hturns.2] at hput
      rw [hturns.1] at hroom ⊢
      rw [hput (by rwa [Registration.unit, Nat.div_one] at hroom)]
      simp only [Registration.rounded, Registration.tick, Registration.unit, Registration.interval,
        mul_one]
      exact (Nat.mul_div_mul_right _ _ (by unfold UTIMER_TICK; omega)).symm
  · intro multiple hloop
    have hticks : (timer_thread (registered regs)).loop.coarse_ticks n = n / 10 := by
      by_cases hu : (registered regs).uttasks = []
      · rw [thread_coarse hu] at hloop
        exact Loop.noConfusion hloop
      by_cases ht : (registered regs).ttasks = []
      · rw [thread_fine hu ht] at hloop
        exact Loop.noConfusion hloop
      · rw [thread_ratio hu ht]
        rfl
    rw [hkept.count, hticks]
    have hscale := Nat.mul_div_mul_right n 10 (m := 100000) (by omega)
    exact hscale.symm

/-- A timer of one second and one of a quarter, for three seconds. -/
theorem timers_fire_three : puts 0 (events [.timer 1 0 1, .utimer 2 0 250000] 30) = 3 ∧
      puts 1 (events [.timer 1 0 1, .utimer 2 0 250000] 30) = 10 := by
  obtain ⟨hput, _⟩ := timers_fire [.timer 1 0 1, .utimer 2 0 250000] 30
  have helapsed : elapsed [.timer 1 0 1, .utimer 2 0 250000] 30 = 3000000 := rfl
  constructor
  · rw [hput 0 _ rfl (by decide) (by rw [helapsed]; decide), helapsed]
    decide
  · rw [hput 1 _ rfl (by decide) (by rw [helapsed]; decide), helapsed]
    decide

theorem events_succ (regs : List Registration) (n : ℕ) : ∃ th s,
    th.loop = (timer_thread (registered regs)).loop ∧
      Kept (coarse_names regs) (fine_names regs) s (events regs n)
        ((timer_thread (registered regs)).loop.coarse_ticks n)
        ((timer_thread (registered regs)).loop.fine_ticks n) ∧
      events regs (n + 1) = events regs n ++ (turn th s).2.2 := by
  obtain ⟨hloop, _, hkept⟩ := (kept_registered regs).turns (thread_counts (registered regs)) n
  exact ⟨_, _, hloop, hkept, rfl⟩

theorem puts_at_wrap (hn : n + 2 = 2 ^ 64) : puts 0 (events [.timer 1 0 2] (n + 1)) = n / 2 + 1 := by
  obtain ⟨th, s, hloop, hkept, hevents⟩ := events_succ [.timer 1 0 2] n
  rw [thread_coarse rfl] at hkept hloop
  obtain ⟨t, hts, hname⟩ : ∃ t, s.ttasks = [t] ∧ t.name = (0, 2) :=
    map_eq_singleton_iff.1 hkept.coarse.names
  obtain ⟨haddr, hinterval⟩ := Prod.mk.inj hname
  have hp : t.period TIMER_TICK = 2 := by
    rw [TimerTask.period, hinterval]
    rfl
  have honTime := hkept.coarse.onTime t (by rw [hts]; exact mem_singleton_self t) (by rw [hinterval]; decide)
  rw [OnTime, hp, hinterval, haddr, Loop.coarse_ticks] at honTime
  have heven : n / 2 * 2 * TIMER_TICK + (2 : UInt32).toNat = 2 ^ 64 := by
    show n / 2 * 2 * 1 + 2 = _
    omega
  obtain ⟨hrun, hputs⟩ := honTime (by show n * 1 + 2 ≤ _; omega)
  rw [heven, Nat.mod_self] at hrun
  have hdue : s.jiffies + UInt64.ofNat TIMER_TICK ≥ t.runtime := by
    rw [ge_iff_le, UInt64.le_iff_toNat_le, hrun]
    exact Nat.zero_le _
  have hputs' : puts 0 (turn th s).2.2 = 1 := by
    rw [turn, hloop]
    show puts 0 (.timer_ticker :: due _ s.ttasks) = 1
    have hnd : ([t].map TimerTask.addr).Nodup := nodup_singleton _
    rw [hts, ← singleton_append, puts_append, ← haddr, puts_due hnd (mem_singleton_self t), if_pos hdue]
    rfl
  rw [hevents, puts_append, hputs, hputs']

/-- With an interval of two seconds, the last runtime before `jiffies` wraps around is 0, and the timer is
put a second too early. -/
theorem put_too_early : puts 0 (events [.timer 1 0 2] (2 ^ 64 - 1)) ≠
      elapsed [.timer 1 0 2] (2 ^ 64 - 1) / (Registration.timer 1 0 2).rounded := by
  obtain ⟨n, hn⟩ : ∃ n, n + 2 = 2 ^ 64 := ⟨2 ^ 64 - 2, by omega⟩
  have hlast : 2 ^ 64 - 1 = n + 1 := by omega
  have hrounded : (Registration.timer 1 0 2).rounded = 2 * 1000000 := rfl
  have helapsed : elapsed [.timer 1 0 2] (n + 1) = (n + 1) * 1000000 := rfl
  rw [hlast, puts_at_wrap hn, hrounded, helapsed, Nat.mul_div_mul_right _ _ (by omega)]
  omega

end Main

end OpenSips.Timer
