import OpenSips.Dispatcher.Model
import OpenSips.Lib.Machine
import OpenSips.Reactor.Model

/-!
# OpenSips.Resolve.Descriptors — the sockets of the resolver library (`core/resolve/resolve.c`)

The library tells which of its sockets it wants to read or write; a socket is registered in a reactor
for one event, which becomes a task, and the handler of the task registers it again.  A step is a call of
the library, an event, or one end of the handler: the library is free to change, close and open sockets
in between.  Beside the flags the state has what the library wants and which socket has a number.
-/

namespace OpenSips.Resolve.Descriptors

open Lib List Option Function
open Dispatcher (MAX_TASKS)
open Reactor (ReactorType)

structure FdState where
  USED_BY_ARES : Bool
  INSIDE_REACTOR : Bool

/-- A task for `reactor_to_ares`, with the socket that had the event. -/
structure Task where
  type : ReactorType
  fd : ℕ
  socket : ℕ
  deriving DecidableEq

/-- `handler` is the reactor and the descriptor of the handler that runs. -/
structure Dns where
  fd_state : ReactorType → ℕ → FdState
  reactor : ReactorType → List ℕ
  tasks : List Task
  handler : Option (ReactorType × ℕ)
  wanted : ReactorType → ℕ → Bool
  sockets : ℕ → Option ℕ
  opened : ℕ

def resolv_init : Dns :=
  { fd_state := fun _ _ => ⟨false, false⟩, reactor := fun _ => [], tasks := [], handler := none,
    wanted := fun _ _ => false, sockets := fun _ => none, opened := 0 }

variable (s : Dns) (t : ReactorType) (fd : ℕ)

def set_state (st : FdState) : Dns :=
  { s with fd_state := fun t' fd' => if t' = t ∧ fd' = fd then st else s.fd_state t' fd' }

/-- A reactor has a table of `MAX_TASKS` and refuses what does not fit in it. -/
def submit_task : Dns :=
  if fd < MAX_TASKS then
    { s with reactor := fun t' => if t' = t then s.reactor t ++ [fd] else s.reactor t' }
  else s

/-- `submit_task` and `INSIDE_REACTOR`, where the flag is not set. -/
def submit_again : Dns :=
  if (s.fd_state t fd).INSIDE_REACTOR then s
  else set_state (submit_task s t fd) t fd { s.fd_state t fd with INSIDE_REACTOR := true }

/-- One half of `socket_change_callback`. -/
def change (wants : Bool) : Dns :=
  if wants then submit_again (set_state s t fd { s.fd_state t fd with USED_BY_ARES := true }) t fd
  else set_state s t fd { s.fd_state t fd with USED_BY_ARES := false }

def socket_change_callback (readable writable : Bool) : Dns :=
  change (change s .IN fd readable) .OUT fd writable

/-- `reactor_to_ares`, to where the library is called. -/
def enter : Dns :=
  { set_state s t fd { s.fd_state t fd with INSIDE_REACTOR := false } with handler := some (t, fd) }

/-- `reactor_to_ares`, from where the library returns. -/
def leave : Dns :=
  { (if (s.fd_state t fd).USED_BY_ARES then submit_again s t fd else s) with handler := none }

/-- What the library tells is what it wants. -/
def want (readable writable : Bool) : Dns :=
  { socket_change_callback s fd readable writable with
    wanted := fun t' fd' =>
      if fd' = fd then (match t' with | .IN => readable | .OUT => writable) else s.wanted t' fd' }

inductive Op where
  | socket (fd : ℕ)
  | change (fd : ℕ) (readable writable : Bool)
  | close (fd : ℕ)
  | ready (t : ReactorType) (fd : ℕ)
  | run (task : Task)
  | done

/-- With `epoll` and `kqueue` a closed descriptor is registered no more, with `poll` and `select` its
number is. -/
def exec (forgets : Bool) : Op → Option (Dns × Option Task)
  | .socket fd =>
    if s.sockets fd = none then
      some ({ s with sockets := Function.update s.sockets fd (some s.opened), opened := s.opened + 1 },
        none)
    else none
  | .change fd readable writable =>
    if s.sockets fd = none then none else some (want s fd readable writable, none)
  | .close fd =>
    if s.sockets fd = none then none
    else
      let s := want s fd false false
      some ({ s with
        sockets := Function.update s.sockets fd none,
        reactor := fun t => if forgets then (s.reactor t).filter (· ≠ fd) else s.reactor t }, none)
  | .ready t fd =>
    match s.sockets fd with
    | none => none
    | some o =>
      if fd ∈ s.reactor t then
        some ({ s with
          reactor := fun t' => if t' = t then (s.reactor t).erase fd else s.reactor t',
          tasks := s.tasks ++ [⟨t, fd, o⟩] }, none)
      else none
  | .run task =>
    if task ∈ s.tasks ∧ s.handler = none then
      some ({ enter s task.type task.fd with tasks := s.tasks.erase task }, some task)
    else none
  | .done => s.handler.map fun h => (leave s h.1 h.2, none)

/-- A socket that is wanted is registered, or its event is on the way to the handler or with it; nothing
is registered twice; and every event that waits is one of the socket that has the number. -/
structure Tracks : Prop where
  registered : ∀ t fd o, s.sockets fd = some o → s.wanted t fd = true →
    fd ∈ s.reactor t ∨ ⟨t, fd, o⟩ ∈ s.tasks ∨ s.handler = some (t, fd)
  once : ∀ t, (s.reactor t).Nodup
  current : ∀ task ∈ s.tasks, s.sockets task.fd = some task.socket

def places : ℕ :=
  (s.reactor t).count fd + s.tasks.countP fun task => task.type = t ∧ task.fd = fd

def LeftOver : Prop := (s.fd_state t fd).INSIDE_REACTOR = true ∧ places s t fd = 0

/-- A descriptor that is wanted fits in the tables and has no flag left from another socket; none is closed
that has an event. -/
def Op.Clean (s : Dns) : Op → Prop
  | .change fd readable writable =>
    (readable = true → fd < MAX_TASKS ∧ ¬ LeftOver s .IN fd) ∧
      (writable = true → fd < MAX_TASKS ∧ ¬ LeftOver s .OUT fd)
  | .close fd => ∀ task ∈ s.tasks, task.fd ≠ fd
  | _ => True

/-- The states that `allowed` steps reach. -/
def Runs (forgets : Bool) (allowed : Dns → Op → Prop) (s : Dns) : Prop :=
  Run (fun s op => exec s forgets op) (fun s _ op => allowed s op) (fun _ _ _ _ => ()) (resolv_init, ())
    s ()

section Halves

variable {s} {t t' : ReactorType} {fd fd' : ℕ} {wants w : Bool} {st : FdState}

/-- The pair of a reactor and a descriptor, with what is wanted of it. -/
structure Fine (s : Dns) (t : ReactorType) (fd : ℕ) (w : Bool) : Prop where
  places : places s t fd ≤ (s.fd_state t fd).INSIDE_REACTOR.toNat
  used : (s.fd_state t fd).USED_BY_ARES = w
  standing : w = true → 0 < Descriptors.places s t fd ∨
    s.handler = some (t, fd) ∧ (s.fd_state t fd).INSIDE_REACTOR = false

structure Same (s s' : Dns) (t : ReactorType) (fd : ℕ) : Prop where
  fd_state : s'.fd_state t fd = s.fd_state t fd
  places : places s' t fd = places s t fd

theorem Same.trans {s₁ s₂ : Dns} (h : Same s s₁ t fd) (h' : Same s₁ s₂ t fd) : Same s s₂ t fd :=
  ⟨h'.fd_state.trans h.fd_state, h'.places.trans h.places⟩

theorem Same.fine {s' : Dns} (h : Same s s' t fd) (hhandler : s'.handler = s.handler)
    (hf : Fine s t fd w) : Fine s' t fd w := by
  constructor
  · rw [h.fd_state, h.places]
    exact hf.places
  · rw [h.fd_state]
    exact hf.used
  · rw [h.fd_state, h.places, hhandler]
    exact hf.standing

@[simp] theorem set_state_self : (set_state s t fd st).fd_state t fd = st := if_pos ⟨rfl, rfl⟩

theorem set_state_same (h : ¬ (t' = t ∧ fd' = fd)) : Same s (set_state s t fd st) t' fd' := ⟨if_neg h, rfl⟩

@[simp] theorem places_set_state : places (set_state s t fd st) t' fd' = places s t' fd' := rfl

theorem submit_task_same (h : ¬ (t' = t ∧ fd' = fd)) : Same s (submit_task s t fd) t' fd' := by
  unfold submit_task
  split_ifs with hfd
  · refine ⟨rfl, ?_⟩
    show (if t' = t then s.reactor t ++ [fd] else s.reactor t').count fd' + _ = _
    by_cases ht : t' = t
    · have hne : fd ≠ fd' := fun he => h ⟨ht, he.symm⟩
      rw [if_pos ht, count_append, count_singleton, if_neg (by simpa using hne), ht]
      rfl
    · rw [if_neg ht]
      rfl
  · exact ⟨rfl, rfl⟩

theorem places_submit_task (h : fd < MAX_TASKS) : places (submit_task s t fd) t fd = places s t fd + 1 := by
  rw [submit_task, if_pos h]
  show (if t = t then s.reactor t ++ [fd] else s.reactor t).count fd + _ = _
  rw [if_pos rfl, count_append, count_singleton_self, add_right_comm]
  rfl

theorem places_submit_task_le : places (submit_task s t fd) t fd ≤ places s t fd + 1 := by
  by_cases h : fd < MAX_TASKS
  · exact (places_submit_task h).le
  · rw [submit_task, if_neg h]
    exact Nat.le_succ _

theorem submit_again_same (h : ¬ (t' = t ∧ fd' = fd)) : Same s (submit_again s t fd) t' fd' := by
  unfold submit_again
  split_ifs with hin
  · exact ⟨rfl, rfl⟩
  · exact (submit_task_same h).trans (set_state_same h)

theorem submit_again_frame : (submit_again s t fd).tasks = s.tasks ∧ (submit_again s t fd).handler = s.handler ∧
    (submit_again s t fd).wanted = s.wanted ∧ (submit_again s t fd).sockets = s.sockets := by
  unfold submit_again submit_task
  split_ifs <;> exact ⟨rfl, rfl, rfl, rfl⟩

/-- **What is submitted stands once**, when the flag tells the truth. -/
theorem submit_again_fine (hp : places s t fd ≤ (s.fd_state t fd).INSIDE_REACTOR.toNat)
    (hused : (s.fd_state t fd).USED_BY_ARES = w)
    (hclean : w = true → fd < MAX_TASKS ∧ ¬ LeftOver s t fd) : Fine (submit_again s t fd) t fd w := by
  unfold submit_again
  split_ifs with hin
  · refine ⟨hp, hused, fun hw => .inl (Nat.pos_of_ne_zero fun h0 => (hclean hw).2 ⟨hin, h0⟩)⟩
  · rw [Bool.not_eq_true] at hin
    rw [hin] at hp
    have hle : places (submit_task s t fd) t fd ≤ places s t fd + 1 := places_submit_task_le
    constructor
    · rw [set_state_self, places_set_state]
      exact hle.trans (Nat.succ_le_succ hp)
    · rw [set_state_self]
      exact hused
    · intro hw
      rw [places_set_state, places_submit_task (hclean hw).1]
      exact .inl (Nat.succ_pos _)

theorem change_same (h : ¬ (t' = t ∧ fd' = fd)) : Same s (change s t fd wants) t' fd' := by
  unfold change
  split_ifs
  · exact (set_state_same h).trans (submit_again_same h)
  · exact set_state_same h

theorem change_frame : (change s t fd wants).tasks = s.tasks ∧ (change s t fd wants).handler = s.handler ∧
    (change s t fd wants).wanted = s.wanted ∧ (change s t fd wants).sockets = s.sockets := by
  unfold change
  split_ifs
  · exact submit_again_frame
  · exact ⟨rfl, rfl, rfl, rfl⟩

theorem change_fine (hf : Fine s t fd w) (hclean : wants = true → fd < MAX_TASKS ∧ ¬ LeftOver s t fd) :
    Fine (change s t fd wants) t fd wants := by
  unfold change
  split_ifs with hw
  · subst hw
    refine submit_again_fine ?_ ?_ fun _ => ⟨(hclean rfl).1, fun hleft => (hclean rfl).2 ?_⟩
    · rw [set_state_self]
      exact hf.places
    · rw [set_state_self]
    · obtain ⟨hin, h0⟩ := hleft
      rw [set_state_self] at hin
      exact ⟨hin, h0⟩
  · rw [Bool.not_eq_true] at hw
    subst hw
    refine ⟨?_, by rw [set_state_self], fun h => absurd h Bool.false_ne_true⟩
    rw [set_state_self]
    exact hf.places

theorem want_fine {readable writable : Bool} (hf : ∀ t fd, Fine s t fd (s.wanted t fd))
    (hclean : Op.Clean s (.change fd readable writable)) (t' : ReactorType) (fd' : ℕ) :
    Fine (want s fd readable writable) t' fd' ((want s fd readable writable).wanted t' fd') := by
  suffices h : Fine (socket_change_callback s fd readable writable) t' fd'
      ((want s fd readable writable).wanted t' fd') from ⟨h.places, h.used, h.standing⟩
  have hhandler : (socket_change_callback s fd readable writable).handler =
      (change s .IN fd readable).handler := change_frame.2.1
  by_cases hfd : fd' = fd
  · subst hfd
    cases t' with
    | IN =>
      have hin : Fine (change s .IN fd' readable) .IN fd' readable := change_fine (hf .IN fd') hclean.1
      show Fine _ .IN fd' (if fd' = fd' then readable else _)
      rw [if_pos rfl]
      exact Same.fine (change_same fun h => nomatch h.1) hhandler hin
    | OUT =>
      have hsame : Same s (change s .IN fd' readable) .OUT fd' := change_same fun h => nomatch h.1
      have hf' : Fine (change s .IN fd' readable) .OUT fd' (s.wanted .OUT fd') :=
        hsame.fine change_frame.2.1 (hf .OUT fd')
      show Fine _ .OUT fd' (if fd' = fd' then writable else _)
      rw [if_pos rfl]
      refine change_fine hf' fun hw => ⟨(hclean.2 hw).1, fun hleft => (hclean.2 hw).2 ?_⟩
      rwa [LeftOver, hsame.fd_state, hsame.places] at hleft
  · show Fine _ t' fd' (if fd' = fd then _ else s.wanted t' fd')
    rw [if_neg hfd]
    have h₁ : Same s (change s .IN fd readable) t' fd' := change_same fun h => hfd h.2
    have h₂ : Same (change s .IN fd readable) (socket_change_callback s fd readable writable) t' fd' :=
      change_same fun h => hfd h.2
    exact Same.fine (h₁.trans h₂) (hhandler.trans change_frame.2.1) (hf t' fd')

end Halves

section Runs

variable {s} {s' : Dns} {forgets : Bool} {op : Op} {res : Option Task} {t : ReactorType} {fd : ℕ}

structure Kept (s : Dns) : Prop where
  fine : ∀ t fd, Fine s t fd (s.wanted t fd)
  opened : ∀ t fd, s.wanted t fd = true → s.sockets fd ≠ none ∧ fd < MAX_TASKS
  current : ∀ task ∈ s.tasks, s.sockets task.fd = some task.socket

variable {readable writable : Bool}

theorem want_frame : (want s fd readable writable).tasks = s.tasks ∧
    (want s fd readable writable).handler = s.handler ∧
    (want s fd readable writable).sockets = s.sockets :=
  ⟨change_frame.1.trans change_frame.1, change_frame.2.1.trans change_frame.2.1,
    change_frame.2.2.2.trans change_frame.2.2.2⟩

theorem want_wanted_self : (want s fd readable writable).wanted t fd =
    match t with | .IN => readable | .OUT => writable := if_pos rfl

theorem want_wanted (t : ReactorType) {fd' : ℕ} (h : fd' ≠ fd) :
    (want s fd readable writable).wanted t fd' = s.wanted t fd' := if_neg h

section

variable (h : Kept s)
include h

theorem Kept.socket (hnone : s.sockets fd = none) :
    Kept { s with sockets := Function.update s.sockets fd (some s.opened), opened := s.opened + 1 } := by
  refine ⟨fun t fd' => ⟨(h.fine t fd').places, (h.fine t fd').used, (h.fine t fd').standing⟩,
    fun t fd' hw => ⟨?_, (h.opened t fd' hw).2⟩, fun task htask => ?_⟩
  · show Function.update s.sockets fd (some s.opened) fd' ≠ none
    by_cases hfd : fd' = fd
    · rw [hfd, update_self]
      exact some_ne_none _
    · rw [update_of_ne hfd]
      exact (h.opened t fd' hw).1
  · have hcur := h.current task htask
    have hfd : task.fd ≠ fd := fun he => by
      rw [he, hnone] at hcur
      exact absurd hcur.symm (some_ne_none _)
    show Function.update s.sockets fd (some s.opened) task.fd = _
    rw [update_of_ne hfd]
    exact hcur

theorem Kept.change (hopen : s.sockets fd ≠ none)
    (hclean : Op.Clean s (.change fd readable writable)) : Kept (want s fd readable writable) := by
  refine ⟨want_fine h.fine hclean, fun t fd' hw => ?_, fun task htask => ?_⟩
  · rw [want_frame.2.2]
    by_cases hfd : fd' = fd
    · rw [hfd] at hw ⊢
      refine ⟨hopen, ?_⟩
      rw [want_wanted_self] at hw
      cases t with
      | IN => exact (hclean.1 hw).1
      | OUT => exact (hclean.2 hw).1
    · rw [want_wanted t hfd] at hw
      exact h.opened t fd' hw
  · rw [want_frame.2.2]
    rw [want_frame.1] at htask
    exact h.current task htask

theorem Kept.close (hopen : s.sockets fd ≠ none) (hclean : Op.Clean s (.close fd)) :
    Kept { want s fd false false with
      sockets := Function.update (want s fd false false).sockets fd none,
      reactor := fun t => if forgets then ((want s fd false false).reactor t).filter (· ≠ fd)
        else (want s fd false false).reactor t } := by
  have hkept : Kept (want s fd false false) :=
    h.change hopen ⟨fun hf => absurd hf Bool.false_ne_true, fun hf => absurd hf Bool.false_ne_true⟩
  have hwanted : ∀ t, (want s fd false false).wanted t fd = false := fun t => by
    show (if fd = fd then _ else _) = false
    rw [if_pos rfl]
    cases t <;> rfl
  have htasks : (want s fd false false).tasks = s.tasks := want_frame.1
  generalize want s fd false false = s₁ at hkept hwanted htasks
  have hcount : ∀ t fd', (if forgets then (s₁.reactor t).filter (· ≠ fd) else s₁.reactor t).count fd' ≤
      (s₁.reactor t).count fd' := fun t fd' => by
    split_ifs
    · exact Sublist.count_le _ filter_sublist
    · exact le_rfl
  have hother : ∀ t fd', fd' ≠ fd →
      (if forgets then (s₁.reactor t).filter (· ≠ fd) else s₁.reactor t).count fd' =
        (s₁.reactor t).count fd' := fun t fd' hfd => by
    split_ifs
    · exact count_filter (by simpa using hfd)
    · rfl
  refine ⟨fun t fd' => ?_, fun t fd' hw => ?_, fun task htask => ?_⟩
  · have hf := hkept.fine t fd'
    by_cases hfd : fd' = fd
    · refine ⟨(Nat.add_le_add_right (hcount t fd') _).trans hf.places, hf.used, fun hw => ?_⟩
      rw [hfd] at hw
      exact absurd ((hwanted t).symm.trans hw) Bool.false_ne_true
    · refine Same.fine (s := s₁) ⟨rfl, ?_⟩ rfl hf
      show _ + _ = _ + _
      rw [hother t fd' hfd]
  · have hfd : fd' ≠ fd := fun he => by
      rw [he] at hw
      exact absurd ((hwanted t).symm.trans hw) Bool.false_ne_true
    show Function.update s₁.sockets fd none fd' ≠ none ∧ _
    rw [update_of_ne hfd]
    exact hkept.opened t fd' hw
  · show Function.update s₁.sockets fd none task.fd = _
    rw [update_of_ne (hclean task (htasks ▸ htask))]
    exact hkept.current task htask

theorem Kept.ready {o : ℕ} (hopen : s.sockets fd = some o) (hmem : fd ∈ s.reactor t) :
    Kept { s with
      reactor := fun t' => if t' = t then (s.reactor t).erase fd else s.reactor t',
      tasks := s.tasks ++ [⟨t, fd, o⟩] } := by
  refine ⟨fun t' fd' => Same.fine (s := s) ⟨rfl, ?_⟩ rfl (h.fine t' fd'), h.opened, fun task htask => ?_⟩
  · show (if t' = t then (s.reactor t).erase fd else s.reactor t').count fd' +
      (s.tasks ++ [(⟨t, fd, o⟩ : Task)]).countP _ = (s.reactor t').count fd' + s.tasks.countP _
    rw [countP_append, countP_singleton]
    have hpos : 0 < (s.reactor t).count fd := count_pos_iff.2 hmem
    by_cases ht : t' = t
    · by_cases hfd : fd' = fd
      · subst ht hfd
        rw [if_pos rfl, count_erase_self, if_pos (by simp)]
        omega
      · rw [if_pos ht, count_erase_of_ne hfd, ht, if_neg (by simpa using fun he => hfd he.symm)]
        rfl
    · rw [if_neg ht, if_neg (by simpa using fun he => absurd he.symm ht)]
      rfl
  · rcases mem_append.1 htask with htask | htask
    · exact h.current task htask
    · rw [mem_singleton.1 htask]
      exact hopen

theorem Kept.run {task : Task} (hmem : task ∈ s.tasks) (hidle : s.handler = none) :
    Kept { enter s task.type task.fd with tasks := s.tasks.erase task } := by
  refine ⟨fun t' fd' => ?_, h.opened, fun task' htask => h.current task' (mem_of_mem_erase htask)⟩
  have hcount : ∀ (p : Task → Bool), (s.tasks.erase task).countP p + (if p task then 1 else 0) =
      s.tasks.countP p := fun p => by
    rw [(perm_cons_erase hmem).countP_eq p, countP_cons]
  have hf := h.fine t' fd'
  by_cases hpair : t' = task.type ∧ fd' = task.fd
  · obtain ⟨rfl, rfl⟩ := hpair
    have hone := hcount fun task' => decide (task'.type = task.type ∧ task'.fd = task.fd)
    rw [if_pos (by simp)] at hone
    have hplaces : places s task.type task.fd ≤ 1 := hf.places.trans (Bool.toNat_le _)
    constructor
    · show _ + (s.tasks.erase task).countP _ ≤ _
      unfold places at hplaces
      show _ ≤ ((set_state s task.type task.fd _).fd_state task.type task.fd).INSIDE_REACTOR.toNat
      rw [set_state_self]
      show (s.reactor task.type).count task.fd + _ ≤ 0
      omega
    · show ((set_state s task.type task.fd _).fd_state task.type task.fd).USED_BY_ARES = _
      rw [set_state_self]
      exact hf.used
    · refine fun _ => .inr ⟨rfl, ?_⟩
      show ((set_state s task.type task.fd _).fd_state task.type task.fd).INSIDE_REACTOR = _
      rw [set_state_self]
  · have hsame : Same s { enter s task.type task.fd with tasks := s.tasks.erase task } t' fd' := by
      refine ⟨if_neg hpair, ?_⟩
      have hone := hcount fun task' => decide (task'.type = t' ∧ task'.fd = fd')
      rw [if_neg (by simpa using fun ht he => hpair ⟨ht.symm, he.symm⟩)] at hone
      show (s.reactor t').count fd' + (s.tasks.erase task).countP _ = (s.reactor t').count fd' + s.tasks.countP _
      omega
    refine ⟨?_, ?_, fun hw => .inl ?_⟩
    · rw [hsame.fd_state, hsame.places]
      exact hf.places
    · rw [hsame.fd_state]
      exact hf.used
    · rw [hsame.places]
      refine (hf.standing hw).resolve_right fun hr => ?_
      rw [hidle] at hr
      exact absurd hr.1.symm (some_ne_none _)

theorem Kept.leave (hrun : s.handler = some (t, fd)) : Kept (leave s t fd) := by
  have hframe : (Descriptors.leave s t fd).tasks = s.tasks ∧ (Descriptors.leave s t fd).wanted = s.wanted ∧
      (Descriptors.leave s t fd).sockets = s.sockets := by
    unfold Descriptors.leave
    split_ifs
    · exact ⟨submit_again_frame.1, submit_again_frame.2.2.1, submit_again_frame.2.2.2⟩
    · exact ⟨rfl, rfl, rfl⟩
  obtain ⟨htasks, hwanted, hsockets⟩ := hframe
  refine ⟨fun t' fd' => ?_, fun t' fd' hw => ?_, fun task htask => ?_⟩
  · have hf := h.fine t' fd'
    rw [hwanted]
    have hstands : ∀ {t'' fd''}, ¬ (t'' = t ∧ fd'' = fd) → s.wanted t'' fd'' = true →
        0 < places s t'' fd'' := fun hpair hw => by
      refine ((h.fine _ _).standing hw).resolve_right fun hr => hpair ?_
      obtain ⟨rfl, rfl⟩ := Prod.mk.inj (some_inj.1 (hrun.symm.trans hr.1))
      exact ⟨rfl, rfl⟩
    unfold Descriptors.leave
    split_ifs with hused
    · have hw : s.wanted t fd = true := (h.fine t fd).used.symm.trans hused
      by_cases hpair : t' = t ∧ fd' = fd
      · obtain ⟨rfl, rfl⟩ := hpair
        have hclean : ¬ LeftOver s t' fd' := fun ⟨hin, h0⟩ => by
          rcases hf.standing hw with hpos | ⟨_, hout⟩
          · exact absurd h0 hpos.ne'
          · exact absurd (hout.symm.trans hin) Bool.false_ne_true
        have hagain : Fine (submit_again s t' fd') t' fd' (s.wanted t' fd') :=
          submit_again_fine hf.places hf.used fun _ => ⟨(h.opened t' fd' hw).2, hclean⟩
        refine ⟨hagain.places, hagain.used, fun hw => .inl ?_⟩
        refine (hagain.standing hw).resolve_right fun ⟨_, hout⟩ => ?_
        unfold submit_again at hout
        split_ifs at hout with hin
        · exact absurd (hin.symm.trans hout) Bool.true_eq_false_eq_False.elim
        · rw [set_state_self] at hout
          exact absurd hout.symm Bool.false_ne_true
      · have hsame : Same s (submit_again s t fd) t' fd' := submit_again_same hpair
        have hagain := hsame.fine submit_again_frame.2.1 hf
        refine ⟨hagain.places, hagain.used, fun hw => .inl ?_⟩
        show 0 < places (submit_again s t fd) t' fd'
        rw [hsame.places]
        exact hstands hpair hw
    · refine ⟨hf.places, hf.used, fun hw => .inl (hstands ?_ hw)⟩
      rintro ⟨rfl, rfl⟩
      exact hused (hf.used.trans hw)
  · rw [hsockets]
    rw [hwanted] at hw
    exact h.opened t' fd' hw
  · rw [hsockets]
    rw [htasks] at htask
    exact h.current task htask

/-- **One step.** -/
theorem Kept.step (hclean : op.Clean s) (heq : exec s forgets op = some (s', res)) : Kept s' := by
  cases op with
  | socket fd =>
    by_cases hnone : s.sockets fd = none
    · rw [exec, if_pos hnone] at heq
      obtain ⟨rfl, _⟩ := Prod.mk.inj (some_inj.1 heq)
      exact h.socket hnone
    · rw [exec, if_neg hnone] at heq
      exact absurd heq.symm (some_ne_none _)
  | change fd readable writable =>
    by_cases hnone : s.sockets fd = none
    · rw [exec, if_pos hnone] at heq
      exact absurd heq.symm (some_ne_none _)
    · rw [exec, if_neg hnone] at heq
      obtain ⟨rfl, _⟩ := Prod.mk.inj (some_inj.1 heq)
      exact h.change hnone hclean
  | close fd =>
    by_cases hnone : s.sockets fd = none
    · rw [exec, if_pos hnone] at heq
      exact absurd heq.symm (some_ne_none _)
    · rw [exec, if_neg hnone] at heq
      obtain ⟨rfl, _⟩ := Prod.mk.inj (some_inj.1 heq)
      exact h.close hnone hclean
  | ready t fd =>
    cases hopen : s.sockets fd with
    | none =>
      simp only [exec, hopen] at heq
      exact absurd heq.symm (some_ne_none _)
    | some o =>
      simp only [exec, hopen] at heq
      split_ifs at heq with hmem
      obtain ⟨rfl, _⟩ := Prod.mk.inj (some_inj.1 heq)
      exact h.ready hopen hmem
  | run task =>
    rw [exec] at heq
    split_ifs at heq with hmem
    obtain ⟨rfl, _⟩ := Prod.mk.inj (some_inj.1 heq)
    exact h.run hmem.1 hmem.2
  | done =>
    obtain ⟨⟨t, fd⟩, hrun, heq⟩ := map_eq_some_iff.1 heq
    obtain ⟨rfl, _⟩ := Prod.mk.inj heq
    exact h.leave hrun

end

theorem kept_init : Kept resolv_init := ⟨fun _ _ => ⟨Nat.zero_le _, rfl, fun h => absurd h Bool.false_ne_true⟩,
    fun _ _ h => absurd h Bool.false_ne_true, fun _ h => absurd h not_mem_nil⟩

theorem Kept.tracks (h : Kept s) : Tracks s := by
  refine ⟨fun t fd o hopen hw => ?_, fun t => ?_, h.current⟩
  · rcases (h.fine t fd).standing hw with hpos | ⟨hrun, _⟩
    · rcases Nat.add_pos_iff_pos_or_pos.1 hpos with hreg | htask
      · exact .inl (count_pos_iff.1 hreg)
      · obtain ⟨task, hmem, hp⟩ := countP_pos_iff.1 htask
        obtain ⟨rfl, rfl⟩ := of_decide_eq_true hp
        obtain rfl := some_inj.1 ((h.current task hmem).symm.trans hopen)
        exact .inr (.inl hmem)
    · exact .inr (.inr hrun)
  · refine nodup_iff_count_le_one.2 fun fd => ?_
    exact (Nat.le_add_right _ _).trans ((h.fine t fd).places.trans (Bool.toNat_le _))

/-- **In every clean run** a wanted socket is registered or its event is handled, nothing is registered
twice, and no event of a closed socket is acted on. -/
theorem descriptors_tracked (h : Runs forgets (fun s op => op.Clean s) s) : Tracks s := by
  have hstep : ∀ s (g : Unit) op s' res, Kept s → op.Clean s → exec s forgets op = some (s', res) → Kept s' :=
    fun _ _ _ _ _ hk hop heq => hk.step hop heq
  exact (@Run.invariant _ _ _ _ _ _ _ _ (fun s _ => Kept s) kept_init hstep _ _ h).tracks

theorem Runs.start {allowed : Dns → Op → Prop} : Runs forgets allowed resolv_init := Run.init

theorem Runs.then {allowed : Dns → Op → Prop} (h : Runs forgets allowed s) (op : Op) (hop : allowed s op)
    (heq : exec s forgets op = some (s', res)) : Runs forgets allowed s' := Run.step h hop heq

theorem descriptors_tracked_one : ∃ s, Runs true (fun s op => op.Clean s) s ∧ s.reactor .IN = [5] ∧
    (s.reactor .IN).Nodup := by
  have hone : Runs true (fun s op => op.Clean s) _ := Runs.start.then (.socket 5) trivial rfl
  have hrun : Runs true (fun s op => op.Clean s) _ :=
    hone.then (.change 5 true false)
      ⟨fun _ => ⟨by decide, fun h => absurd h.1 Bool.false_ne_true⟩, fun h => absurd h Bool.false_ne_true⟩ rfl
  exact ⟨_, hrun, rfl, (descriptors_tracked hrun).once .IN⟩

/-- A number is used again: the new socket is not registered, or gets the event of the old one. -/
theorem descriptors_lost : (∃ s, Runs true (fun _ _ => True) s ∧ ¬ Tracks s ∧
      s.sockets 5 = some 1 ∧ s.wanted .IN 5 = true ∧ s.reactor .IN = [] ∧ s.tasks = [] ∧ s.handler = none) ∧
    ∃ s, Runs true (fun _ _ => True) s ∧ ¬ Tracks s ∧ s.sockets 5 = some 1 ∧ s.tasks = [⟨.IN, 5, 0⟩] := by
  have hone : Runs true (fun _ _ => True) _ :=
    (Runs.start.then (.socket 5) trivial rfl).then (.change 5 true false) trivial rfl
  constructor
  · refine ⟨_, ((hone.then (.close 5) trivial rfl).then (.socket 5) trivial rfl).then
      (.change 5 true false) trivial rfl, fun h => ?_, rfl, rfl, rfl, rfl, rfl⟩
    rcases h.registered .IN 5 1 rfl rfl with hreg | htask | hrun
    · exact absurd hreg not_mem_nil
    · exact absurd htask not_mem_nil
    · exact absurd hrun.symm (some_ne_none _)
  · refine ⟨_, ((hone.then (.ready .IN 5) trivial rfl).then (.close 5) trivial rfl).then
      (.socket 5) trivial rfl, fun h => ?_, rfl, rfl⟩
    have hcur := h.current ⟨.IN, 5, 0⟩ (mem_singleton_self _)
    exact absurd (some_inj.1 hcur) Nat.one_ne_zero

end Runs

end OpenSips.Resolve.Descriptors
