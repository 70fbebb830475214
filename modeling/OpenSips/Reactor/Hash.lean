import OpenSips.Reactor.Model

/-!
# OpenSips.Reactor.Hash — the bounds of `fd_hash`

`init_io_wait` of `core/reactor/io_wait.c` allocates the table, `safe_add_to_hash` and
`safe_remove_from_hash` of `general.c` check the descriptor, and `hash_fd_map` and `unhash_fd_map` of
`general.h` index with it.  A call of one of the two is followed with the elements that it writes.
-/

namespace OpenSips.Reactor

open List

/-- `init_io_wait` is called with it, in `reactor.c`. -/
def MAX_TASKS : ℕ := 2048

/-- `fd_hash` are the elements that are allocated. -/
structure FdHash where
  max_fd_no : ℕ
  fd_hash : List FdMap

/-- The table after `memset`. -/
def FdHash.init_io_wait (max_fd : ℕ) : FdHash where
  max_fd_no := max_fd
  fd_hash := List.replicate max_fd .zero

/-- What a call leaves behind; `accessed` are the indices of the elements that it writes. -/
structure Access where
  hash : FdHash
  accessed : List ℤ
  ok : Bool

inductive HashCall where
  | add (e : FdMap)
  | remove (fd : ℤ)

def HashCall.fd : HashCall → ℤ
  | .add e => e.fd
  | .remove fd => fd

section Table

variable (h : FdHash)

def FdHash.hash_fd_map (e : FdMap) : Access where
  hash := { h with fd_hash := h.fd_hash.set e.fd.toNat e }
  accessed := [e.fd]
  ok := true

def FdHash.unhash_fd_map (fd : ℤ) : Access where
  hash := { h with fd_hash := h.fd_hash.modify fd.toNat fun e => { e with fd := -1 } }
  accessed := [fd]
  ok := true

/-- The address that `hash_fd_map` returns is not zero. -/
def FdHash.safe_add_to_hash (e : FdMap) : Access :=
  if e.fd < 0 ∨ h.max_fd_no < e.fd then { hash := h, accessed := [], ok := false }
  else h.hash_fd_map e

def FdHash.safe_remove_from_hash (fd : ℤ) : Access :=
  if fd < 0 ∨ h.max_fd_no < fd then { hash := h, accessed := [], ok := false }
  else h.unhash_fd_map fd

def FdHash.call : HashCall → Access
  | .add e => h.safe_add_to_hash e
  | .remove fd => h.safe_remove_from_hash fd

/-- The table after the calls. -/
def FdHash.after (calls : List HashCall) : FdHash := calls.foldl (fun h k => (h.call k).hash) h

/-- A call writes elements of the table only, and refuses a descriptor that has none. -/
def Bounded (k : HashCall) : Prop :=
  (∀ i ∈ (h.call k).accessed, 0 ≤ i ∧ i < h.max_fd_no) ∧
    (¬(0 ≤ k.fd ∧ k.fd < h.max_fd_no) → (h.call k).ok = false ∧ (h.call k).hash = h)

end Table

variable {h : FdHash} {k : HashCall}

theorem call_refused (hk : k.fd < 0 ∨ h.max_fd_no < k.fd) :
    h.call k = { hash := h, accessed := [], ok := false } := by
  cases k with
  | add e => exact if_pos hk
  | remove fd => exact if_pos hk

theorem call_accepted (hk : ¬(k.fd < 0 ∨ h.max_fd_no < k.fd)) :
    (h.call k).accessed = [k.fd] ∧ (h.call k).ok = true := by
  cases k with
  | add e =>
    have he : h.call (.add e) = h.hash_fd_map e := if_neg hk
    rw [he]
    exact ⟨rfl, rfl⟩
  | remove fd =>
    have he : h.call (.remove fd) = h.unhash_fd_map fd := if_neg hk
    rw [he]
    exact ⟨rfl, rfl⟩

theorem bounded_iff : Bounded h k ↔ k.fd ≠ h.max_fd_no := by
  by_cases hk : k.fd < 0 ∨ h.max_fd_no < k.fd
  · rw [Bounded, call_refused hk]
    constructor
    · intro _
      omega
    · intro _
      exact ⟨fun i hi => absurd hi not_mem_nil, fun _ => ⟨rfl, rfl⟩⟩
  · obtain ⟨ha, ho⟩ := call_accepted hk
    rw [Bounded, ha, ho]
    constructor
    · rintro ⟨hin, -⟩
      have := hin k.fd (mem_singleton.2 rfl)
      omega
    · intro hne
      refine ⟨fun i hi => ?_, fun hout => absurd hout (by omega)⟩
      rw [mem_singleton] at hi
      omega

theorem call_size (h : FdHash) (k : HashCall) : (h.call k).hash.max_fd_no = h.max_fd_no ∧
    (h.call k).hash.fd_hash.length = h.fd_hash.length := by
  cases k with
  | add e =>
    show (h.safe_add_to_hash e).hash.max_fd_no = _ ∧ (h.safe_add_to_hash e).hash.fd_hash.length = _
    rw [FdHash.safe_add_to_hash]
    split_ifs
    · exact ⟨rfl, rfl⟩
    · exact ⟨rfl, length_set⟩
  | remove fd =>
    show (h.safe_remove_from_hash fd).hash.max_fd_no = _ ∧ (h.safe_remove_from_hash fd).hash.fd_hash.length = _
    rw [FdHash.safe_remove_from_hash]
    split_ifs
    · exact ⟨rfl, rfl⟩
    · exact ⟨rfl, length_modify _ _ _⟩

theorem after_size (h : FdHash) (calls : List HashCall) : (h.after calls).max_fd_no = h.max_fd_no ∧
    (h.after calls).fd_hash.length = h.fd_hash.length := by
  induction calls generalizing h with
  | nil => exact ⟨rfl, rfl⟩
  | cons k calls ih =>
    have hs := call_size h k
    have hr := ih (h.call k).hash
    exact ⟨hr.1.trans hs.1, hr.2.trans hs.2⟩

/-- The table has `max_fd_no` elements after all calls. -/
theorem after_init (max_fd : ℕ) (calls : List HashCall) :
    ((FdHash.init_io_wait max_fd).after calls).max_fd_no = max_fd ∧
      ((FdHash.init_io_wait max_fd).after calls).fd_hash.length = max_fd := by
  have hs := after_size (FdHash.init_io_wait max_fd) calls
  exact ⟨hs.1, hs.2.trans length_replicate⟩

/-- Every call of a run stays in the table if and only if none is for the descriptor `max_fd_no`. -/
theorem fd_hash_bounded (max_fd : ℕ) (calls : List HashCall) :
    (∀ before k rest, calls = before ++ k :: rest →
      Bounded ((FdHash.init_io_wait max_fd).after before) k) ↔ ∀ k ∈ calls, k.fd ≠ max_fd := by
  constructor
  · intro hb k hk
    obtain ⟨before, rest, hc⟩ := append_of_mem hk
    have hne := bounded_iff.1 (hb before k rest hc)
    rwa [(after_init max_fd before).1] at hne
  · intro hne before k rest hc
    rw [bounded_iff, (after_init max_fd before).1]
    apply hne k
    rw [hc]
    exact mem_append_right _ mem_cons_self

theorem fd_hash_last : ¬∀ before k rest, [HashCall.add { FdMap.zero with fd := MAX_TASKS, cb := 1 }] =
      before ++ k :: rest → Bounded ((FdHash.init_io_wait MAX_TASKS).after before) k := by
  intro hb
  exact bounded_iff.1 (hb [] _ [] rfl) rfl

section Reactor

def Tables (c : Config) (s : IoWait) (h : FdHash) : Prop :=
  c.max_fd_no = h.max_fd_no ∧ h.fd_hash = (List.range h.max_fd_no).map fun i : ℕ => s.fd_hash i

def hash_call (c : Config) (s : IoWait) : HashCall → Option (IoWait × Bool)
  | .add e => safe_add_to_hash c s e
  | .remove fd => safe_remove_from_hash c s fd

variable {c : Config} {s : IoWait}

/-- `init_io_wait` leaves the table of zeros, before `epoll_init` adds the control pipe to it. -/
theorem tables_init (hm : c.poll_method ≠ .epoll) (max_fd : ℕ) (hc : c.max_fd_no = max_fd) :
    Tables c (init_io_wait c) (FdHash.init_io_wait max_fd) := by
  refine ⟨hc, ?_⟩
  have hz : ∀ fd, (init_io_wait c).fd_hash fd = .zero := by
    intro fd
    rw [init_io_wait]
    cases hp : c.poll_method with
    | epoll => exact absurd hp hm
    | _ => rfl
  show List.replicate max_fd .zero = (List.range max_fd).map fun i : ℕ => (init_io_wait c).fd_hash i
  simp only [hz, map_const', length_range]

theorem Tables.hash_fd_map (t : Tables c s h) (e : FdMap) (he : 0 ≤ e.fd) :
    Tables c (hash_fd_map s e) (h.hash_fd_map e).hash := by
  refine ⟨t.1, ?_⟩
  show h.fd_hash.set e.fd.toNat e = _
  rw [t.2]
  apply ext_getElem
  · simp only [length_set, length_map, FdHash.hash_fd_map]
  · intro i hi hi'
    rw [getElem_set, getElem_map, getElem_map, getElem_range, getElem_range]
    show _ = if (i : ℤ) = e.fd then e else s.fd_hash i
    split_ifs <;> first | rfl | omega

theorem Tables.unhash_fd_map (t : Tables c s h) (fd : ℤ) (hfd : 0 ≤ fd) :
    Tables c (unhash_fd_map s fd) (h.unhash_fd_map fd).hash := by
  refine ⟨t.1, ?_⟩
  show h.fd_hash.modify fd.toNat _ = _
  rw [t.2]
  apply ext_getElem
  · simp only [length_modify, length_map, FdHash.unhash_fd_map]
  · intro i hi hi'
    rw [getElem_modify, getElem_map, getElem_map, getElem_range, getElem_range]
    show _ = if (i : ℤ) = fd then { s.fd_hash fd with fd := -1 } else s.fd_hash i
    by_cases hi : (i : ℤ) = fd
    · rw [if_pos hi, if_pos (by omega), hi]
    · rw [if_neg hi, if_neg (by omega)]

/-- The reactor goes wrong at exactly the calls that leave the table, and does at the others what they
do to the table. -/
theorem Tables.call (t : Tables c s h) (k : HashCall) :
    (hash_call c s k = none ↔ ¬Bounded h k) ∧ ∀ s' ok, hash_call c s k = some (s', ok) →
      (h.call k).ok = ok ∧ Tables c s' (h.call k).hash := by
  rw [bounded_iff, not_not]
  have hc := t.1
  cases k with
  | add e =>
    show (safe_add_to_hash c s e = none ↔ e.fd = _) ∧ ∀ s' ok, safe_add_to_hash c s e = _ →
      (h.safe_add_to_hash e).ok = ok ∧ Tables c s' (h.safe_add_to_hash e).hash
    rw [safe_add_to_hash, FdHash.safe_add_to_hash, hc]
    split_ifs with hbad hmax
    · refine ⟨iff_of_false not_false (by omega), ?_⟩
      rintro s' ok ⟨⟩
      exact ⟨rfl, t⟩
    · exact ⟨iff_of_true rfl hmax, fun _ _ hs => hs.elim⟩
    · refine ⟨iff_of_false not_false hmax, ?_⟩
      rintro s' ok ⟨⟩
      exact ⟨rfl, t.hash_fd_map e (by omega)⟩
  | remove fd =>
    show (safe_remove_from_hash c s fd = none ↔ fd = _) ∧ ∀ s' ok, safe_remove_from_hash c s fd = _ →
      (h.safe_remove_from_hash fd).ok = ok ∧ Tables c s' (h.safe_remove_from_hash fd).hash
    rw [safe_remove_from_hash, FdHash.safe_remove_from_hash, hc]
    split_ifs with hbad hmax
    · refine ⟨iff_of_false not_false (by omega), ?_⟩
      rintro s' ok ⟨⟩
      exact ⟨rfl, t⟩
    · exact ⟨iff_of_true rfl hmax, fun _ _ hs => hs.elim⟩
    · refine ⟨iff_of_false not_false hmax, ?_⟩
      rintro s' ok ⟨⟩
      exact ⟨rfl, t.unhash_fd_map fd (by omega)⟩

end Reactor

end OpenSips.Reactor
