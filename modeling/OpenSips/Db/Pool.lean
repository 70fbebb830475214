import OpenSips.Db.Model

/-!
# OpenSips.Db.Pool — every connection has one place, every query one callback

Over all runs in which no query is refused by a driver that does not block, and no `unpack_result` is
run while the worker that put it on the dispatcher is still busy with the query: places are counted, and
what a turn takes from one place it puts into another.
-/

namespace OpenSips.Db

open Lib List Option Function

variable {env : Env} {conns : ℕ → List Ref}

section Places

/-- The connection that a thread works with, and the query it was given to. -/
def Pc.attached (env : Env) : Pc → Option Active
  | .send_query x | .continue_query x => some x
  | .posted x => if env.fetches x.q then none else some x
  | .db_submit_item item (.worker q) | .db_submit_item item (.callback q) => some ⟨q, item⟩
  | .db_submit_item item (.unpack x) => some ⟨x.q, item⟩
  | .unpack_result x _ => if env.fetches x.q then some x else none
  | .callback _ | .shm_free _ | .result _ => none

/-- The connection that a thread or a result has. -/
def Pc.holds (env : Env) : Pc → Option Ref
  | .result item => some item
  | pc => (pc.attached env).map (·.item)

def Pc.owed : Pc → Option Ref
  | .send_query x | .continue_query x | .unpack_result x _ | .db_submit_item _ (.unpack x) => some x.q
  | .callback q | .db_submit_item _ (.callback q) => some q
  | .posted _ | .shm_free _ | .result _ | .db_submit_item _ (.worker _) => none

/-- The query whose `unpack_result` is to be run. -/
def Pc.unpacks : Pc → Option Ref
  | .unpack_result x _ => some x.q
  | _ => none

/-- The query that a worker has put on the dispatcher and is still busy with. -/
def Pc.busy : Pc → Option Ref
  | .posted x => some x.q
  | .db_submit_item _ (.worker q) => some q
  | _ => none

/-- The query that is to be freed. -/
def Pc.frees : Pc → Option Ref
  | .shm_free q => some q
  | _ => none

/-- Counts the points that are `r`. -/
def one (f : Pc → Option Ref) (r : Ref) (pc : Pc) : ℕ := if f pc = some r then 1 else 0

def Shared.item_count (env : Env) (s : Shared) (i : Ref) : ℕ :=
  (s.items (env.item_pool i)).count i + s.waiting.countP (·.item = i)

def Shared.query_count (env : Env) (s : Shared) (q : Ref) : ℕ :=
  (s.queries (env.pool q)).count q + s.waiting.countP (·.q = q)

end Places

section Submitting

/-- `pcs` are left behind when a connection or a query is submitted: it has a place then, in the pool
or with a thread. -/
structure Places (env : Env) (s s' : Shared) (pcs : List Pc) (item query : Option Ref) : Prop where
  items : ∀ i, s'.item_count env i + weigh (one (Pc.holds env) i) pcs =
    s.item_count env i + if item = some i then 1 else 0
  queries : ∀ q, s'.query_count env q + weigh (one Pc.owed q) pcs =
    s.query_count env q + if query = some q then 1 else 0
  item_pool : ∀ p, ∀ i ∈ s'.items p, i ∈ s.items p ∨ env.item_pool i = p
  query_pool : ∀ p, ∀ q ∈ s'.queries p, q ∈ s.queries p ∨ env.pool q = p
  idle : (∀ p, s.queries p ≠ [] → s.items p = []) → ∀ p, s'.queries p ≠ [] → s'.items p = []
  busy : ∀ q, weigh (one Pc.busy q) pcs = 0
  frees : ∀ q, weigh (one Pc.frees q) pcs = 0
  returns : ∀ item after, Pc.db_submit_item item after ∉ pcs
  submitted : s'.submitted = s.submitted
  calls : s'.calls = s.calls
  freed : s'.frees = s.frees
  stale : s'.stale = s.stale

def Accepts (env : Env) (q : Ref) (ret : ℤ) : Prop := env.synchronous q = false → 0 ≤ ret

instance (env : Env) (q : Ref) (ret : ℤ) : Decidable (Accepts env q ret) :=
  inferInstanceAs (Decidable (_ → _))

theorem db_submit_active_query_places {s s' : Shared} {x : Active} {ret : ℤ} {pcs : List Pc}
    (hok : Accepts env x.q ret) (h : db_submit_active_query env s x ret = (s', pcs)) :
    Places env s s' pcs (some x.item) (some x.q) := by
  rw [db_submit_active_query] at h
  by_cases hs : env.synchronous x.q
  · rw [if_pos hs] at h
    cases h
    refine ⟨fun i => ?_, fun q => ?_, fun p i hi => .inl hi, fun p q hq => .inl hq, fun h => h,
      fun q => rfl, fun q => rfl, by simp, rfl, rfl, rfl, rfl⟩
    · simp [Shared.item_count, countP_cons, add_assoc]
    · simp [Shared.query_count, countP_cons, add_assoc]
  · rw [if_neg hs, if_pos (hok (Bool.eq_false_iff.2 hs))] at h
    cases h
    refine ⟨fun i => ?_, fun q => ?_, fun p i hi => .inl hi, fun p q hq => .inl hq, fun h => h,
      fun q => rfl, fun q => rfl, by simp, rfl, rfl, rfl, rfl⟩
    · simp [one, Pc.holds, Pc.attached]
    · simp [one, Pc.owed]

theorem count_update_cons {f : Ref → ℕ} {lists : ℕ → List Ref} (r r' : Ref) :
    (Function.update lists (f r) (r :: lists (f r)) (f r')).count r' =
      (lists (f r')).count r' + if r = r' then 1 else 0 := by
  by_cases hp : f r' = f r
  · rw [hp, update_self, count_cons]
    simp
  · have hr : r ≠ r' := fun he => hp (by rw [he])
    rw [update_of_ne hp, if_neg hr, add_zero]

theorem count_update_tail {f : Ref → ℕ} {lists : ℕ → List Ref} {p : ℕ} {r : Ref} {rest : List Ref}
    (h : lists p = r :: rest) (hr : f r = p) (r' : Ref) :
    (Function.update lists p rest (f r')).count r' + (if r = r' then 1 else 0) = (lists (f r')).count r' := by
  by_cases hp : f r' = p
  · rw [hp, update_self, h, count_cons]
    simp
  · have hne : r ≠ r' := fun he => hp (by rw [← he, hr])
    rw [update_of_ne hp, if_neg hne, add_zero]

theorem mem_update {lists : ℕ → List Ref} {p p' : ℕ} {l : List Ref} {r : Ref}
    (h : r ∈ Function.update lists p l p') : r ∈ lists p' ∨ (p' = p ∧ r ∈ l) := by
  by_cases hp : p' = p
  · subst hp
    rw [update_self] at h
    exact .inr ⟨rfl, h⟩
  · rw [update_of_ne hp] at h
    exact .inl h

theorem db_submit_item_places {s s' : Shared} {item : Ref} {ret : ℤ} {pcs : List Pc}
    (hpool : ∀ p, ∀ q ∈ s.queries p, env.pool q = p)
    (hok : ∀ q ∈ (s.queries (env.item_pool item)).head?, Accepts env q ret)
    (h : db_submit_item env s item ret = (s', pcs)) : Places env s s' pcs (some item) none := by
  rw [db_submit_item] at h
  cases hq : s.queries (env.item_pool item) with
  | nil =>
    simp only [hq] at h
    cases h
    refine ⟨fun i => ?_, fun q => rfl, fun p i hi => ?_, fun p q hq => .inl hq, fun h p hp => ?_,
      fun q => rfl, fun q => rfl, by simp, rfl, rfl, rfl, rfl⟩
    · simp only [Shared.item_count, count_update_cons, some.injEq, Multiset.coe_nil, weigh_zero]
      omega
    · rcases mem_update hi with hi | ⟨rfl, hi'⟩
      · exact .inl hi
      · rcases mem_cons.1 hi' with rfl | hi'
        · exact .inr rfl
        · exact .inl hi'
    · have hne : p ≠ env.item_pool item := fun he => hp (by rw [he, hq])
      dsimp only
      rw [update_of_ne hne]
      exact h p hp
  | cons q rest =>
    simp only [hq] at h
    rw [hq] at hok
    have hmem : q ∈ s.queries (env.item_pool item) := by
      rw [hq]
      exact mem_cons_self
    have hpl := db_submit_active_query_places (hok q rfl) h
    refine ⟨fun i => ?_, fun q' => ?_, fun p i hi => ?_, fun p q' hq' => ?_, fun h p hp => ?_,
      hpl.busy, hpl.frees, hpl.returns, hpl.submitted, hpl.calls, hpl.freed, hpl.stale⟩
    · exact hpl.items i
    · have hcount := hpl.queries q'
      have htail := @count_update_tail env.pool _ _ _ _ hq (hpool _ q hmem) q'
      simp only [Shared.query_count, some.injEq, reduceCtorEq, if_false] at hcount ⊢
      omega
    · exact hpl.item_pool p i hi
    · rcases hpl.query_pool p q' hq' with hq' | hq'
      · rcases mem_update hq' with hq' | ⟨rfl, hrest⟩
        · exact .inl hq'
        · exact .inl (by rw [hq]; exact mem_cons_of_mem _ hrest)
      · exact .inr hq'
    · refine hpl.idle (fun p hp => h p fun hnil => ?_) p hp
      by_cases he : p = env.item_pool item
      · rw [he, hq] at hnil
        cases hnil
      · dsimp only at hp
        rw [update_of_ne he] at hp
        exact hp hnil

theorem db_submit_query_places {s s' : Shared} {q : Ref} {ret : ℤ} {pcs : List Pc}
    (hpool : ∀ p, ∀ i ∈ s.items p, env.item_pool i = p)
    (hok : s.items (env.pool q) ≠ [] → Accepts env q ret)
    (h : db_submit_query env s q ret = (s', pcs)) : Places env s s' pcs none (some q) := by
  rw [db_submit_query] at h
  cases hi : s.items (env.pool q) with
  | nil =>
    simp only [hi] at h
    cases h
    refine ⟨fun i => rfl, fun q' => ?_, fun p i hi => .inl hi, fun p q' hq' => ?_, fun h p hp => ?_,
      fun q => rfl, fun q => rfl, by simp, rfl, rfl, rfl, rfl⟩
    · simp only [Shared.query_count, count_update_cons, some.injEq, Multiset.coe_nil, weigh_zero]
      omega
    · rcases mem_update hq' with hq' | ⟨rfl, hrest⟩
      · exact .inl hq'
      · rcases mem_cons.1 hrest with rfl | hrest
        · exact .inr rfl
        · exact .inl hrest
    · by_cases he : p = env.pool q
      · rw [he]
        exact hi
      · dsimp only at hp
        rw [update_of_ne he] at hp
        exact h p hp
  | cons item rest =>
    simp only [hi] at h
    rw [hi] at hok
    have hmem : item ∈ s.items (env.pool q) := by
      rw [hi]
      exact mem_cons_self
    have hpl := @db_submit_active_query_places _ _ _ ⟨q, item⟩ _ _ (hok (cons_ne_nil _ _)) h
    refine ⟨fun i => ?_, fun q' => ?_, fun p i hi' => ?_, fun p q' hq' => ?_, fun h p hp => ?_,
      hpl.busy, hpl.frees, hpl.returns, hpl.submitted, hpl.calls, hpl.freed, hpl.stale⟩
    · have hcount := hpl.items i
      have htail := @count_update_tail env.item_pool _ _ _ _ hi (hpool _ item hmem) i
      simp only [Shared.item_count, some.injEq, reduceCtorEq, if_false] at hcount ⊢
      omega
    · exact hpl.queries q'
    · rcases hpl.item_pool p i hi' with hi' | hi'
      · rcases mem_update hi' with hi' | ⟨rfl, hrest⟩
        · exact .inl hi'
        · exact .inl (by rw [hi]; exact mem_cons_of_mem _ hrest)
      · exact .inr hi'
    · exact hpl.query_pool p q' hq'
    · refine hpl.idle (fun p hp => ?_) p hp
      by_cases he : p = env.pool q
      · rw [he] at hp
        exact absurd (h (env.pool q) hp) (by rw [hi]; exact cons_ne_nil _ _)
      · show Function.update s.items (env.pool q) rest p = []
        rw [update_of_ne he]
        exact h p hp

end Submitting

section Invariant

/-- Every connection has one place and every query one, or its callback was called. -/
structure Inv (env : Env) (conns : ℕ → List Ref) (s : Shared) (T : Multiset Pc) : Prop where
  items : ∀ i, s.item_count env i + weigh (one (Pc.holds env) i) T = (conns (env.item_pool i)).count i
  queries : ∀ q, s.query_count env q + weigh (one Pc.owed q) T + s.calls q = s.submitted.count q
  item_pool : ∀ p, ∀ i ∈ s.items p, env.item_pool i = p
  query_pool : ∀ p, ∀ q ∈ s.queries p, env.pool q = p
  idle : ∀ p, s.queries p ≠ [] → s.items p = []
  nodup : s.submitted.Nodup
  freed : ∀ q, weigh (one Pc.frees q) T + s.frees q = s.calls q
  busy : ∀ q, weigh (one Pc.busy q) T ≤ weigh (one Pc.unpacks q) T
  unpack : ∀ item x, Pc.db_submit_item item (.unpack x) ∈ T → env.fetches x.q = false
  stale : s.stale = false

def Allowed (env : Env) (s : Pool Shared Pc) : Turn Pc Answer Event → Prop
  | .thread (.db_submit_item item _) a | .thread (.result item) a =>
    ∀ q ∈ (s.shared.queries (env.item_pool item)).head?, Accepts env q a.ret
  | .thread (.unpack_result x _) _ => ∀ pc ∈ s.threads, pc.busy ≠ some x.q
  | .event (.db_submit_query q ret) => s.shared.items (env.pool q) ≠ [] → Accepts env q ret
  | _ => True

instance (env : Env) (s : Pool Shared Pc) (op : Turn Pc Answer Event) :
    Decidable (Allowed env s op) :=
  match op with
  | .thread (.db_submit_item item _) a | .thread (.result item) a => inferInstanceAs (Decidable
      (∀ q ∈ (s.shared.queries (env.item_pool item)).head?, Accepts env q a.ret))
  | .thread (.unpack_result x _) _ => inferInstanceAs (Decidable
      (∀ pc ∈ s.threads, pc.busy ≠ some x.q))
  | .event (.db_submit_query q ret) => inferInstanceAs (Decidable
      (s.shared.items (env.pool q) ≠ [] → Accepts env q ret))
  | .thread (.send_query _) _ | .thread (.posted _) _ | .thread (.callback _) _
  | .thread (.shm_free _) _ | .thread (.continue_query _) _ | .event .work => .isTrue trivial

variable {s s' : Shared} {T : Multiset Pc} {pc : Pc} {new : List Pc}

theorem one_unpacks_le (q : Ref) (pc : Pc) : one Pc.unpacks q pc ≤ one Pc.owed q pc := by
  cases pc <;> simp [one, Pc.unpacks, Pc.owed]

theorem one_of_eq {f : Pc → Option Ref} {q : Ref} (h : f pc = some q) : one f q pc = 1 := if_pos h

theorem Inv.calls_eq_zero {q : Ref} (h : Inv env conns s T) (hpc : pc ∈ T)
    (ho : pc.owed = some q ∨ pc.busy = some q) : s.calls q = 0 := by
  have hle : 1 ≤ weigh (one Pc.owed q) T := by
    rcases ho with ho | hb
    · have hone : one Pc.owed q pc ≤ _ := le_weigh hpc
      rwa [one_of_eq ho] at hone
    · have hone : one Pc.busy q pc ≤ _ := le_weigh hpc
      rw [one_of_eq hb] at hone
      exact le_trans hone (le_trans (h.busy q) (weigh_le (one_unpacks_le q) T))
  have hcount := h.queries q
  have hnodup := nodup_iff_count_le_one.1 h.nodup q
  omega

theorem Inv.touch_eq {q : Ref} (h : Inv env conns s T) (hpc : pc ∈ T)
    (ho : pc.owed = some q ∨ pc.busy = some q) : touch s q = s := by
  have hcalls := h.calls_eq_zero hpc ho
  have hfreed := h.freed q
  have hzero : s.frees q = 0 := by omega
  rw [touch, hzero]
  simp

theorem Inv.mem_unpack (h : Inv env conns s (pc ::ₘ T))
    (hnew : ∀ item x, Pc.db_submit_item item (.unpack x) ∈ new → env.fetches x.q = false) :
    ∀ item x, Pc.db_submit_item item (.unpack x) ∈ T + (new : Multiset Pc) → env.fetches x.q = false := by
  intro item x hmem
  rcases Multiset.mem_add.1 hmem with hmem | hmem
  · exact h.unpack item x (Multiset.mem_cons_of_mem hmem)
  · exact hnew item x hmem

theorem Inv.local (q : Ref) (calls frees : ℕ) (h : Inv env conns s (pc ::ₘ T))
    (hholds : ∀ i, weigh (one (Pc.holds env) i) new = one (Pc.holds env) i pc)
    (howed : ∀ r, weigh (one Pc.owed r) new + (if r = q then calls else 0) = one Pc.owed r pc)
    (hfrees : ∀ r, weigh (one Pc.frees r) new + (if r = q then frees else 0) =
      one Pc.frees r pc + if r = q then calls else 0)
    (hbusy : ∀ r, weigh (one Pc.busy r) T + weigh (one Pc.busy r) new ≤
      weigh (one Pc.unpacks r) T + weigh (one Pc.unpacks r) new)
    (hnew : ∀ item x, Pc.db_submit_item item (.unpack x) ∈ new → env.fetches x.q = false) :
    Inv env conns { s with
      calls := fun r => s.calls r + if r = q then calls else 0
      frees := fun r => s.frees r + if r = q then frees else 0 } (T + (new : Multiset Pc)) := by
  refine ⟨fun i => ?_, fun r => ?_, h.item_pool, h.query_pool, h.idle, h.nodup, fun r => ?_,
    fun r => ?_, h.mem_unpack hnew, h.stale⟩
  · have hi := h.items i
    rw [weigh_cons] at hi
    rw [weigh_add, hholds]
    show s.item_count env i + _ = _
    omega
  · have hq := h.queries r
    have ho := howed r
    rw [weigh_cons] at hq
    rw [weigh_add]
    show s.query_count env r + _ + (s.calls r + _) = s.submitted.count r
    omega
  · have hf := h.freed r
    have ho := hfrees r
    rw [weigh_cons] at hf
    rw [weigh_add]
    show _ + (s.frees r + _) = s.calls r + _
    omega
  · rw [weigh_add, weigh_add]
    exact hbusy r

theorem Inv.move (h : Inv env conns s (pc ::ₘ T))
    (hholds : ∀ i, weigh (one (Pc.holds env) i) new = one (Pc.holds env) i pc)
    (howed : ∀ r, weigh (one Pc.owed r) new = one Pc.owed r pc)
    (hfrees : ∀ r, weigh (one Pc.frees r) new = one Pc.frees r pc)
    (hbusy : ∀ r, weigh (one Pc.busy r) T + weigh (one Pc.busy r) new ≤
      weigh (one Pc.unpacks r) T + weigh (one Pc.unpacks r) new)
    (hnew : ∀ item x, Pc.db_submit_item item (.unpack x) ∈ new → env.fetches x.q = false) :
    Inv env conns s (T + (new : Multiset Pc)) := by
  have hlocal := h.local 0 0 0 hholds (by simpa using howed) (by simpa using hfrees) hbusy hnew
  simpa using hlocal

theorem Inv.submit {item : Ref} {pcs extra : List Pc} (h : Inv env conns s (pc ::ₘ T))
    (hpl : Places env s s' pcs (some item) none)
    (hholds : ∀ i, (if item = i then 1 else 0) + weigh (one (Pc.holds env) i) extra = one (Pc.holds env) i pc)
    (howed : ∀ r, weigh (one Pc.owed r) extra = one Pc.owed r pc)
    (hfrees : ∀ r, weigh (one Pc.frees r) extra = one Pc.frees r pc)
    (hbusy : ∀ r, weigh (one Pc.busy r) extra + one Pc.unpacks r pc ≤
      one Pc.busy r pc + weigh (one Pc.unpacks r) extra)
    (hnew : ∀ item x, Pc.db_submit_item item (.unpack x) ∈ pcs ++ extra → env.fetches x.q = false) :
    Inv env conns s' (T + ((pcs ++ extra : List Pc) : Multiset Pc)) := by
  refine ⟨fun i => ?_, fun r => ?_, fun p i hi => ?_, fun p q hq => ?_, hpl.idle h.idle, ?_,
    fun r => ?_, fun r => ?_, h.mem_unpack hnew, ?_⟩
  · have hi := h.items i
    have hp := hpl.items i
    have hh := hholds i
    simp only [some.injEq] at hp
    rw [weigh_cons] at hi
    rw [weigh_add, ← Multiset.coe_add, weigh_add]
    omega
  · have hq := h.queries r
    have hp := hpl.queries r
    have ho := howed r
    simp only [reduceCtorEq, if_false] at hp
    rw [weigh_cons] at hq
    rw [weigh_add, ← Multiset.coe_add, weigh_add, hpl.submitted, hpl.calls]
    omega
  · exact (hpl.item_pool p i hi).elim (h.item_pool p i) id
  · exact (hpl.query_pool p q hq).elim (h.query_pool p q) id
  · rw [hpl.submitted]
    exact h.nodup
  · have hf := h.freed r
    have ho := hfrees r
    rw [weigh_cons] at hf
    rw [weigh_add, ← Multiset.coe_add, weigh_add, hpl.frees, hpl.freed, hpl.calls]
    omega
  · have hb := h.busy r
    have ho := hbusy r
    rw [weigh_cons, weigh_cons] at hb
    rw [weigh_add, weigh_add, ← Multiset.coe_add, weigh_add, weigh_add, hpl.busy]
    omega
  · rw [hpl.stale]
    exact h.stale

theorem update_add_one (f : Ref → ℕ) (q : Ref) :
    Function.update f q (f q + 1) = fun r => f r + if r = q then 1 else 0 := by
  ext r
  by_cases hr : r = q
  · rw [hr, update_self, if_pos rfl]
  · rw [update_of_ne hr, if_neg hr, add_zero]

/-- **Every allowed turn of a thread keeps the places.** -/
theorem Inv.turn {c' : Shared} {answer : Answer} (h : Inv env conns s (pc ::ₘ T))
    (ha : Allowed env ⟨s, pc ::ₘ T⟩ (.thread pc answer))
    (ht : turn env s pc answer = some (c', new)) : Inv env conns c' (T + (new : Multiset Pc)) := by
  have hmem : pc ∈ pc ::ₘ T := Multiset.mem_cons_self pc T
  cases pc with
  | send_query x =>
    cases ht
    rw [h.touch_eq hmem (.inl rfl)]
    refine h.move (fun i => ?_) (fun r => ?_) (fun r => ?_) (fun r => ?_) (by simp)
    · cases hf : env.fetches x.q <;> simp [one, Pc.holds, Pc.attached, hf]
    · simp [one, Pc.owed]
    · simp [one, Pc.frees]
    · have hb := h.busy r
      simp [one, Pc.busy, Pc.unpacks] at hb ⊢
      omega
  | posted x =>
    cases ht
    rw [h.touch_eq hmem (.inr rfl)]
    refine h.move (fun i => ?_) (fun r => ?_) (fun r => ?_) (fun r => ?_) ?_
    · cases hf : env.fetches x.q <;> simp [one, Pc.holds, Pc.attached, hf]
    · cases env.fetches x.q <;> simp [one, Pc.owed]
    · cases env.fetches x.q <;> simp [one, Pc.frees]
    · have hb := h.busy r
      cases env.fetches x.q <;> simp [one, Pc.busy, Pc.unpacks] at hb ⊢ <;> omega
    · cases env.fetches x.q <;> simp
  | db_submit_item item after =>
    rw [Db.turn] at ht
    cases hsub : db_submit_item env s item answer.ret with
    | mk c pcs =>
      simp only [hsub] at ht
      cases ht
      have hpl := db_submit_item_places h.query_pool ha hsub
      have hunpack : ∀ x, after = .unpack x → env.fetches x.q = false := by
        rintro x rfl
        exact h.unpack item x hmem
      refine h.submit hpl (fun i => ?_) (fun r => ?_) (fun r => ?_) (fun r => ?_) ?_
      · cases after with
        | worker q => simp [one, Pc.holds, Pc.attached, After.pcs]
        | callback q => simp [one, Pc.holds, Pc.attached, After.pcs]
        | unpack x => simp [one, Pc.holds, Pc.attached, After.pcs, hunpack x rfl]
      · cases after <;> simp [one, Pc.owed, After.pcs]
      · cases after <;> simp [one, Pc.frees, After.pcs]
      · cases after <;> simp [one, Pc.busy, Pc.unpacks, After.pcs]
      · intro item' x hin
        rcases mem_append.1 hin with hin | hin
        · exact absurd hin (hpl.returns item' _)
        · cases after <;> simp [After.pcs] at hin
  | unpack_result x res =>
    cases ht
    rw [h.touch_eq hmem (.inl rfl)]
    refine h.move (fun i => ?_) (fun r => ?_) (fun r => ?_) (fun r => ?_) ?_
    · cases hf : env.fetches x.q <;> cases res <;> simp [one, Pc.holds, Pc.attached, hf]
    · cases env.fetches x.q <;> cases res <;> simp [one, Pc.owed]
    · cases env.fetches x.q <;> cases res <;> simp [one, Pc.frees]
    · have hb := h.busy r
      by_cases hr : r = x.q
      · -- no worker is busy with the query
        have hzero : weigh (one Pc.busy r) T = 0 := by
          refine weigh_eq_zero fun pc hpc => if_neg ?_
          rw [hr]
          exact ha pc (Multiset.mem_cons_of_mem hpc)
        cases env.fetches x.q <;> cases res <;> simp [one, Pc.busy, Pc.unpacks, hzero]
      · have hne : ¬ x.q = r := fun he => hr he.symm
        cases env.fetches x.q <;> cases res <;>
          simpa [one, Pc.busy, Pc.unpacks, hne] using hb
    · cases env.fetches x.q <;> cases res <;> simp
  | callback q =>
    cases ht
    rw [h.touch_eq hmem (.inl rfl), update_add_one]
    have hlocal : Inv env conns _ (T + ([.shm_free q] : List Pc)) := h.local q 1 0
      (fun i => by simp [one, Pc.holds, Pc.attached])
      (fun r => by simp [one, Pc.owed, eq_comm]) (fun r => by simp [one, Pc.frees, eq_comm])
      (fun r => by simpa [one, Pc.busy, Pc.unpacks] using h.busy r) (by simp)
    simpa using hlocal
  | shm_free q =>
    cases ht
    rw [update_add_one]
    have hlocal : Inv env conns _ (T + ([] : List Pc)) := h.local q 0 1
      (fun i => by simp [one, Pc.holds, Pc.attached])
      (fun r => by simp [one, Pc.owed]) (fun r => by simp [one, Pc.frees, eq_comm])
      (fun r => by simpa [one, Pc.busy, Pc.unpacks] using h.busy r) (by simp)
    simpa using hlocal
  | continue_query x =>
    cases ht
    rw [h.touch_eq hmem (.inl rfl)]
    refine h.move (fun i => ?_) (fun r => ?_) (fun r => ?_) (fun r => ?_) ?_
    · by_cases hr : 0 < answer.ret
      · simp [hr, one, Pc.holds, Pc.attached]
      · cases hf : env.fetches x.q <;> simp [hr, one, Pc.holds, Pc.attached, hf]
    · by_cases hr : 0 < answer.ret
      · simp [hr, one, Pc.owed]
      · cases env.fetches x.q <;> simp [hr, one, Pc.owed]
    · by_cases hr : 0 < answer.ret
      · simp [hr, one, Pc.frees]
      · cases env.fetches x.q <;> simp [hr, one, Pc.frees]
    · have hb := h.busy r
      by_cases hr : 0 < answer.ret
      · simpa [hr, one, Pc.busy, Pc.unpacks] using hb
      · cases env.fetches x.q <;> simp [hr, one, Pc.busy, Pc.unpacks] at hb ⊢ <;> omega
    · intro item y hin
      by_cases hr : 0 < answer.ret
      · simp [hr] at hin
      · cases hf : env.fetches x.q with
        | true => simp [hr, hf] at hin
        | false =>
          simp only [hr, hf, if_false, Bool.false_eq_true, mem_singleton] at hin
          cases hin
          exact hf
  | result item =>
    rw [Db.turn] at ht
    have hsub := some.inj ht
    have hpl := db_submit_item_places h.query_pool ha hsub
    have hsubmit : Inv env conns c' (T + ((new ++ [] : List Pc) : Multiset Pc)) := h.submit hpl
      (fun i => by simp [one, Pc.holds])
      (fun r => by simp [one, Pc.owed]) (fun r => by simp [one, Pc.frees])
      (fun r => by simp [one, Pc.busy, Pc.unpacks]) fun item' x hin => by
        rw [append_nil] at hin
        exact absurd hin (hpl.returns item' _)
    rwa [append_nil] at hsubmit

theorem Inv.event {c' : Shared} {e : Event} (h : Inv env conns s T)
    (ha : Allowed env ⟨s, T⟩ (.event e)) (he : event env s e = some (c', new)) :
    Inv env conns c' (T + (new : Multiset Pc)) := by
  cases e with
  | db_submit_query q ret =>
    rw [Db.event] at he
    by_cases hq : q ∈ s.submitted
    · rw [if_pos hq] at he
      cases he
    rw [if_neg hq] at he
    have hpl : Places env { s with submitted := q :: s.submitted } c' new none (some q) :=
      db_submit_query_places h.item_pool ha (some.inj he)
    refine ⟨fun i => ?_, fun r => ?_, fun p i hi => ?_, fun p r hr => ?_, hpl.idle h.idle, ?_,
      fun r => ?_, fun r => ?_, fun item x hin => ?_, ?_⟩
    · have hi : s.item_count env i + _ = _ := h.items i
      have hp := hpl.items i
      have hsame : Shared.item_count env { s with submitted := q :: s.submitted } i = s.item_count env i := rfl
      simp only [reduceCtorEq, if_false, hsame] at hp
      rw [weigh_add]
      omega
    · have hr := h.queries r
      have hp := hpl.queries r
      have hsame : Shared.query_count env { s with submitted := q :: s.submitted } r =
        s.query_count env r := rfl
      simp only [some.injEq, hsame] at hp
      rw [weigh_add, hpl.submitted, hpl.calls, count_cons]
      simp only [beq_iff_eq]
      omega
    · exact (hpl.item_pool p i hi).elim (h.item_pool p i) id
    · exact (hpl.query_pool p r hr).elim (h.query_pool p r) id
    · rw [hpl.submitted]
      exact nodup_cons.2 ⟨hq, h.nodup⟩
    · rw [weigh_add, hpl.frees, hpl.freed, hpl.calls]
      exact h.freed r
    · rw [weigh_add, weigh_add, hpl.busy]
      exact le_trans (h.busy r) (Nat.le_add_right _ _)
    · rcases Multiset.mem_add.1 hin with hin | hin
      · exact h.unpack item x hin
      · exact absurd hin (hpl.returns item _)
    · rw [hpl.stale]
      exact h.stale
  | work =>
    rw [Db.event] at he
    cases hw : s.waiting with
    | nil => simp [hw] at he
    | cons x rest =>
      simp only [hw] at he
      cases he
      refine ⟨fun i => ?_, fun r => ?_, h.item_pool, h.query_pool, h.idle, h.nodup, fun r => ?_,
        fun r => ?_, fun item y hin => ?_, h.stale⟩
      · have hi := h.items i
        simp only [Shared.item_count, hw, countP_cons, decide_eq_true_eq] at hi ⊢
        simp only [weigh_add, weigh_coe, map_cons, map_nil, sum_cons, sum_nil, one,
          Pc.holds, Pc.attached, map_some, some.injEq]
        omega
      · have hr := h.queries r
        simp only [Shared.query_count, hw, countP_cons, decide_eq_true_eq] at hr ⊢
        simp only [weigh_add, weigh_coe, map_cons, map_nil, sum_cons, sum_nil, one, Pc.owed, some.injEq]
        omega
      · have hf := h.freed r
        simpa [one, Pc.frees] using hf
      · have hb := h.busy r
        simpa [one, Pc.busy, Pc.unpacks] using hb
      · rcases Multiset.mem_add.1 hin with hin | hin
        · exact h.unpack item y hin
        · simp at hin

theorem inv_init (hpool : ∀ p, ∀ i ∈ conns p, env.item_pool i = p) :
    Inv env conns (init conns).shared (init conns).threads where
  items _ := rfl
  queries _ := rfl
  item_pool := hpool
  query_pool _ _ h := by cases h
  idle _ h := absurd rfl h
  nodup := nodup_nil
  freed _ := rfl
  busy _ := le_rfl
  unpack _ _ h := by cases h
  stale := rfl

abbrev Runs (env : Env) (conns : ℕ → List Ref) (s : Pool Shared Pc) : Prop :=
  Run (Pool.exec (turn env) (event env)) (fun s _ op => Allowed env s op) (fun _ _ _ _ => ()) (init conns, ()) s ()

theorem Runs.inv {s : Pool Shared Pc} (hpool : ∀ p, ∀ i ∈ conns p, env.item_pool i = p)
    (hr : Runs env conns s) : Inv env conns s.shared s.threads :=
  Pool.invariant (inv_init hpool) (fun _ _ _ _ _ _ h ha ht => h.turn ha ht)
    (fun _ _ _ _ _ h ha he => h.event ha he) hr

end Invariant

section Runs

/-- What is to hold at every moment: every connection is free, attached to one query that is not
finished, or held by one result; the callback of a query is called once, its record is freed once behind
that and not read afterwards. -/
structure Sound (env : Env) (conns : ℕ → List Ref) (s : Pool Shared Pc) : Prop where
  place : ∀ p, ∀ i ∈ conns p, (s.shared.items p).count i + (s.shared.waiting.countP (·.item = i) +
      weigh (one (fun pc => (pc.attached env).map (·.item)) i) s.threads) +
    s.threads.count (.result i) = 1
  foreign : ∀ p, ∀ i ∈ s.shared.items p, i ∈ conns p
  waiting : ∀ x ∈ s.shared.waiting, s.shared.calls x.q = 0
  attached : ∀ pc ∈ s.threads, ∀ x, pc.attached env = some x → s.shared.calls x.q = 0
  pending : ∀ q ∈ s.shared.submitted, s.shared.query_count env q + weigh (one Pc.owed q) s.threads +
    s.shared.calls q = 1
  called : ∀ q, s.shared.calls q ≤ 1
  freed : ∀ q, s.shared.frees q + weigh (one Pc.frees q) s.threads = s.shared.calls q
  read : s.shared.stale = false
  idle : ∀ p, s.shared.queries p ≠ [] → s.shared.items p = []
  -- when nothing is under way anymore, all queries are done
  done : s.threads = 0 → s.shared.waiting = [] → ∀ q ∈ s.shared.submitted, conns (env.pool q) ≠ [] →
    s.shared.calls q = 1 ∧ s.shared.frees q = 1

theorem weigh_holds (i : Ref) (T : Multiset Pc) : weigh (one (Pc.holds env) i) T =
      weigh (one (fun pc => (pc.attached env).map (·.item)) i) T + T.count (.result i) := by
  induction T using Multiset.induction with
  | empty => rfl
  | cons pc T ih =>
    rw [weigh_cons, weigh_cons, ih, Multiset.count_cons]
    have hone : one (Pc.holds env) i pc =
        one (fun pc => (pc.attached env).map (·.item)) i pc + if .result i = pc then 1 else 0 := by
      cases pc with
      | result item => simp [one, Pc.holds, Pc.attached, eq_comm]
      | _ => simp [one, Pc.holds]
    omega

theorem owed_or_busy {pc : Pc} {x : Active} (h : pc.attached env = some x) :
    pc.owed = some x.q ∨ pc.busy = some x.q := by
  cases pc with
  | send_query y =>
    cases h
    exact .inl rfl
  | continue_query y =>
    cases h
    exact .inl rfl
  | posted y =>
    rw [Pc.attached] at h
    split at h
    · cases h
    · cases h
      exact .inr rfl
  | unpack_result y res =>
    rw [Pc.attached] at h
    split at h
    · cases h
      exact .inl rfl
    · cases h
  | db_submit_item item after =>
    cases after with
    | worker q =>
      cases h
      exact .inr rfl
    | callback q =>
      cases h
      exact .inl rfl
    | unpack y =>
      cases h
      exact .inl rfl
  | callback q => cases h
  | shm_free q => cases h
  | result item => cases h

variable {s : Pool Shared Pc}

theorem Inv.calls_le_one (h : Inv env conns s.shared s.threads) (q : Ref) : s.shared.calls q ≤ 1 := by
  have hcount := h.queries q
  have hnodup := nodup_iff_count_le_one.1 h.nodup q
  omega

theorem Inv.pending (h : Inv env conns s.shared s.threads) {q : Ref} (hq : q ∈ s.shared.submitted) :
    s.shared.query_count env q + weigh (one Pc.owed q) s.threads + s.shared.calls q = 1 := by
  rw [h.queries q]
  exact count_eq_one_of_mem h.nodup hq

/-- **Over every run that is allowed, each connection has one place and each query one callback.** -/
theorem pool_sound (hpool : ∀ p, ∀ i ∈ conns p, env.item_pool i = p) (hnodup : ∀ p, (conns p).Nodup)
    (hr : Runs env conns s) : Sound env conns s := by
  have h := hr.inv hpool
  have hplace : ∀ p, ∀ i ∈ conns p, s.shared.item_count env i +
      weigh (one (Pc.holds env) i) s.threads = 1 := by
    intro p i hi
    rw [h.items i, hpool p i hi]
    exact count_eq_one_of_mem (hnodup p) hi
  refine ⟨fun p i hi => ?_, fun p i hi => ?_, fun x hx => ?_, fun pc hpc x hx => ?_,
    fun q hq => h.pending hq, h.calls_le_one, fun q => ?_, h.stale, h.idle, fun hT hw q hq hconns => ?_⟩
  · have hone := hplace p i hi
    rw [weigh_holds, Shared.item_count, hpool p i hi] at hone
    omega
  · have hcount := h.items i
    have hpos : 0 < (s.shared.items p).count i := count_pos_iff.2 hi
    rw [Shared.item_count, h.item_pool p i hi] at hcount
    refine count_pos_iff.1 (?_ : 0 < (conns p).count i)
    omega
  · have hcount := h.queries x.q
    have hle := nodup_iff_count_le_one.1 h.nodup x.q
    have hpos : 0 < s.shared.waiting.countP (·.q = x.q) :=
      countP_pos_iff.2 ⟨x, hx, decide_eq_true rfl⟩
    rw [Shared.query_count] at hcount
    omega
  · exact h.calls_eq_zero hpc (owed_or_busy hx)
  · rw [add_comm]
    exact h.freed q
  · have hpend := h.pending hq
    have hfreed := h.freed q
    rw [hT, weigh_zero, Shared.query_count, hw, countP_nil] at hpend
    rw [hT, weigh_zero] at hfreed
    have hcalls : s.shared.calls q = 1 := by
      by_contra hne
      have hpos : 0 < (s.shared.queries (env.pool q)).count q := by omega
      -- a query is queued, so no connection is free
      have hempty := h.idle _ (ne_nil_of_mem (count_pos_iff.1 hpos))
      obtain ⟨i, hi⟩ := exists_mem_of_ne_nil _ hconns
      have hone := hplace _ i hi
      rw [hT, weigh_zero, Shared.item_count, hw, hpool _ i hi, hempty] at hone
      simp at hone
    omega

/-- One pool with one connection to a driver that does not block, and queries that insert. -/
def insertEnv : Env where
  type _ := .OP_INSERT
  ps_idx _ := false
  pool _ := 0
  item_pool _ := 0
  blocking _ := false

def oneConn (p : ℕ) : List Ref := if p = 0 then [7] else []

theorem oneConn_pool : ∀ p, ∀ i ∈ oneConn p, insertEnv.item_pool i = p := by
  intro p i hi
  by_cases hp : p = 0
  · exact hp.symm
  · rw [oneConn, if_neg hp] at hi
    cases hi

theorem oneConn_nodup (p : ℕ) : (oneConn p).Nodup := by
  rw [oneConn]
  split
  · exact nodup_singleton 7
  · exact nodup_nil

/-- The query is sent, answered and given back its connection, and its callback is called. -/
def insertTurns : List (Turn Pc Answer Event) :=
  [.event (.db_submit_query 1 0), .thread (.continue_query ⟨1, 7⟩) ⟨0, false⟩,
    .thread (.db_submit_item 7 (.unpack ⟨1, 7⟩)) ⟨0, false⟩,
    .thread (.unpack_result ⟨1, 7⟩ false) ⟨0, false⟩, .thread (.callback 1) ⟨0, false⟩,
    .thread (.shm_free 1) ⟨0, false⟩]

theorem pool_sound_insert : ∃ s, Pool.replay (turn insertEnv) (event insertEnv)
    (Allowed insertEnv) (init oneConn) insertTurns = some s ∧ s.shared.calls 1 = 1 ∧
    s.shared.items 0 = [7] ∧ Sound insertEnv oneConn s := by
  obtain ⟨s, hs, hc, hi⟩ : ∃ s, Pool.replay (turn insertEnv) (event insertEnv)
      (Allowed insertEnv) (init oneConn) insertTurns = some s ∧ s.shared.calls 1 = 1 ∧
      s.shared.items 0 = [7] := ⟨_, rfl, rfl, rfl⟩
  exact ⟨s, hs, hc, hi, pool_sound oneConn_pool oneConn_nodup (Pool.run_replay .init hs)⟩

def blockingEnv : Env := { insertEnv with blocking := fun _ => true }

/-- The dispatcher runs `unpack_result` before the worker reads the type of the query. -/
def earlyUnpack : List (Turn Pc Answer Event) :=
  [.event (.db_submit_query 1 0), .event .work, .thread (.send_query ⟨1, 7⟩) ⟨0, false⟩,
    .thread (.unpack_result ⟨1, 7⟩ false) ⟨0, false⟩, .thread (.callback 1) ⟨0, false⟩,
    .thread (.shm_free 1) ⟨0, false⟩, .thread (.posted ⟨1, 7⟩) ⟨0, false⟩]

/-- **A query that the driver refuses is lost, with its connection, and a worker reads the record of a
query that was freed.** -/
theorem query_lost_or_stale :
    (∃ s, Pool.replay (turn insertEnv) (event insertEnv) (fun _ _ => True) (init oneConn)
      [.event (.db_submit_query 1 (-1))] = some s ∧ 1 ∈ s.shared.submitted ∧ s.threads = 0 ∧
      s.shared.waiting = [] ∧ s.shared.calls 1 = 0 ∧ s.shared.items 0 = [] ∧
      ¬ Sound insertEnv oneConn s) ∧
    ∃ s, Pool.replay (turn blockingEnv) (event blockingEnv) (fun _ _ => True) (init oneConn)
      earlyUnpack = some s ∧ s.shared.stale = true ∧ ¬ Sound blockingEnv oneConn s := by
  constructor
  · obtain ⟨s, hs, hmem, hT, hw, hc, hi⟩ : ∃ s, Pool.replay (turn insertEnv) (event insertEnv)
        (fun _ _ => True) (init oneConn) [.event (.db_submit_query 1 (-1))] = some s ∧
        1 ∈ s.shared.submitted ∧ s.threads = 0 ∧ s.shared.waiting = [] ∧ s.shared.calls 1 = 0 ∧
        s.shared.items 0 = [] := ⟨_, rfl, mem_cons_self, rfl, rfl, rfl, rfl⟩
    refine ⟨s, hs, hmem, hT, hw, hc, hi, fun hsound => ?_⟩
    have hdone := hsound.done hT hw 1 hmem (cons_ne_nil 7 [])
    rw [hc] at hdone
    exact absurd hdone.1 Nat.zero_ne_one
  · obtain ⟨s, hs, hstale⟩ : ∃ s, Pool.replay (turn blockingEnv) (event blockingEnv)
        (fun _ _ => True) (init oneConn) earlyUnpack = some s ∧ s.shared.stale = true :=
      ⟨_, rfl, rfl⟩
    refine ⟨s, hs, hstale, fun hsound => ?_⟩
    rw [hsound.read] at hstale
    cases hstale

end Runs

end OpenSips.Db
