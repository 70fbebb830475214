import OpenSips.Map.Refine

/-!
# OpenSips.Map.Memory — the map with the memory it allocates

Without `MAP_NO_DUPLICATE` every node owns a copy of its key.  Here the allocations of `map_get`
may fail, and the copies are blocks that a node owns: freeing one that is not allocated is a fault,
as is copying a key to a NULL pointer.
-/

namespace OpenSips.Map

open Lib Lib.AvlTree List Option Function

/-! ### The code -/

/-- The map with `flags & MAP_NO_DUPLICATE`, the pointer `key.s` of each node, and the key copies
that are allocated. -/
structure MapMem extends AvlTable where
  no_duplicate : Bool
  key_s : Ref → Option Ref
  blocks : Ref → Option Str

/-- `map_create` with `MAP_NO_DUPLICATE` or without. -/
def MapMem.create (no_duplicate : Bool) : MapMem :=
  ⟨map_create, no_duplicate, fun _ => none, fun _ => none⟩

/-- The key copy of a node: `p->key.s`, in a map that copies. -/
def MapMem.copy (m : MapMem) (p : Ref) : Option Ref := if m.no_duplicate then none else m.key_s p

/-- `map_get` behind its two allocations: link the node `n` below `q` and rebalance. -/
def link_node (t : AvlTable) (key : Str) (n : Ref) (q y : Option Ref) (dir : Bool) :
    Option (AvlTable × Ref) := do
  let count := t.avl_count + 1
  let h := Function.update t.heap n (some ⟨fun _ => none, q, key, NULL, 0⟩)
  match q with
  | none => return (⟨h, some n, count⟩, n)
  | some q =>
    let h ← store h q (.setLink dir (some n))
    let y ← y
    let h ← bumpLoop (count + 1) h n y
    let (h, root) ← insertRebalance h t.avl_root y
    return (⟨h, root, count⟩, n)

/-- `avl_malloc(key_copy.s, key.len)`, which returned `k`, and `memcpy(key_copy.s, key.s, key.len)`
for the node `n`. -/
def copy_key (m : MapMem) (key : Str) (n : Ref) (k : Option Ref) : Option MapMem :=
  if m.no_duplicate then some m
  else
    match k with
    | some k => some { m with
        key_s := Function.update m.key_s n (some k), blocks := Function.update m.blocks k (some key) }
    | none => if key = [] then some { m with key_s := Function.update m.key_s n none } else none

/-- `map_get`; `n` and `k` are what the allocations of the node and of the key copy return. -/
def map_get_mem (m : MapMem) (key : Str) (n k : Option Ref) : Option (MapMem × Option Ref) := do
  match ← getLoop m.heap key (m.avl_count + 1) none m.avl_root m.avl_root false with
  | .found p => return (m, some p)
  | .absent q y dir =>
    match n with
    | none => return (m, none)
    | some n =>
      let m ← copy_key m key n k
      let (t, p) ← link_node m.toAvlTable key n q y dir
      return ({ m with toAvlTable := t }, some p)

/-- `map_put`. -/
def map_put_mem (m : MapMem) (key : Str) (item : Ptr) (n k : Option Ref) :
    Option (MapMem × Ptr) := do
  let (m, p) ← map_get_mem m key n k
  match p with
  | none => return (m, NULL)
  | some p =>
    let ret := (← m.heap p).val
    let h ← store m.heap p (.setVal item)
    return ({ m with heap := h }, if ret = item then NULL else ret)

/-- `avl_free(p->key.s)` in a map that copies keys; `shm_free` ignores NULL. -/
def free_key (m : MapMem) (p : Ref) : Option MapMem :=
  match m.copy p with
  | none => some m
  | some k => (m.blocks k).map fun _ => { m with blocks := Function.update m.blocks k none }

/-- `delete_node` with the key copy. -/
def delete_node_mem (m : MapMem) (p : Ref) : Option (MapMem × Ptr) := do
  let m ← free_key m p
  let (t, val) ← delete_node m.toAvlTable p
  return ({ m with toAvlTable := t }, val)

/-- `map_remove`. -/
def map_remove_mem (m : MapMem) (key : Str) : Option (MapMem × Ptr) := do
  match ← findLoop m.heap key (m.avl_count + 1) m.avl_root with
  | none => return (m, NULL)
  | some p => delete_node_mem m p

/-- The calls of a client, with what the allocations return. -/
inductive MemOp where
  | find (key : Str)
  | get (key : Str) (n k : Option Ref)
  | put (key : Str) (item : Ptr) (n k : Option Ref)
  | remove (key : Str)
  | delete (p : Ref)
  | write (p : Ref) (v : Ptr)

def exec_mem (m : MapMem) : MemOp → Option (MapMem × Ret)
  | .find key => (map_find m.toAvlTable key).map fun p => (m, .slot p)
  | .get key n k => (map_get_mem m key n k).map fun r => (r.1, .slot r.2)
  | .put key item n k => (map_put_mem m key item n k).map fun r => (r.1, .val r.2)
  | .remove key => (map_remove_mem m key).map fun r => (r.1, .val r.2)
  | .delete p => (delete_node_mem m p).map fun r => (r.1, .val r.2)
  | .write p v => (store m.heap p (.setVal v)).map fun h => ({ m with heap := h }, .slot (some p))

def FreshMem (m : MapMem) (n k : Option Ref) : Prop :=
  (∀ a, n = some a → m.heap a = none) ∧ ∀ b, k = some b → m.blocks b = none

def AllowedMem (m : MapMem) : MemOp → Prop
  | .get _ n k => FreshMem m n k
  | .put _ _ n k => FreshMem m n k
  | .delete p => m.heap p ≠ none
  | .write p _ => m.heap p ≠ none
  | _ => True

/-- The contents after an operation; without a node an absent key stays absent. -/
def Contents.next_mem (m : MapMem) (g : Contents) : MemOp → Contents
  | .find _ => g
  | .get key n _ => if (g key).isSome ∨ n = none then g else g.put key NULL
  | .put key item n _ => if g key = none ∧ n = none then g else g.put key item
  | .remove key => g.erase key
  | .delete p => ((iterator_key m.toAvlTable p).map g.erase).getD g
  | .write p v => ((iterator_key m.toAvlTable p).map fun key => g.put key v).getD g

abbrev ReachableMem (no_duplicate : Bool) : MapMem → Contents → Prop :=
  Run exec_mem (fun m _ => AllowedMem m) (fun m g op _ => Contents.next_mem m g op)
    (MapMem.create no_duplicate, fun _ => none)

/-! ### The key copies -/

/-- The allocated key copies are those of the entries `L`, one each. -/
structure Owned (m : MapMem) (L : List Cell) : Prop where
  holds : ∀ x ∈ L, ∀ k, m.copy x.ref = some k → m.blocks k = some x.key
  distinct : ∀ x ∈ L, ∀ y ∈ L, ∀ k, m.copy x.ref = some k → m.copy y.ref = some k → x.ref = y.ref
  owned : ∀ k, m.blocks k ≠ none → ∃ x ∈ L, m.copy x.ref = some k

theorem Owned.of_keys {m : MapMem} {L L' : List Cell} (h : Owned m L)
    (h1 : ∀ y ∈ L', ∃ x ∈ L, x.ref = y.ref ∧ x.key = y.key)
    (h2 : ∀ x ∈ L, ∃ y ∈ L', x.ref = y.ref) : Owned m L' where
  holds := by
    intro y hy k hk
    obtain ⟨x, hx, e1, e2⟩ := h1 y hy
    rw [← e2]
    exact h.holds x hx k (by rw [e1]; exact hk)
  distinct := by
    intro y hy z hz k hk hk'
    obtain ⟨x, hx, e1, -⟩ := h1 y hy
    obtain ⟨x', hx', e2, -⟩ := h1 z hz
    rw [← e1, ← e2]
    exact h.distinct x hx x' hx' k (by rw [e1]; exact hk) (by rw [e2]; exact hk')
  owned := by
    intro k hk
    obtain ⟨x, hx, hc⟩ := h.owned k hk
    obtain ⟨y, hy, e⟩ := h2 x hx
    exact ⟨y, hy, by rw [← e]; exact hc⟩

theorem Owned.of_mem {m : MapMem} {L L' : List Cell} (h : Owned m L) (hmem : ∀ y, y ∈ L' ↔ y ∈ L) : Owned m L' :=
  h.of_keys (fun y hy => ⟨y, (hmem y).1 hy, rfl, rfl⟩) fun y hy => ⟨y, (hmem y).2 hy, rfl⟩

/-- What `copy_key` leaves: the node `n` has the copy `c` of the key, if any. -/
theorem copy_key_spec {m m' : MapMem} {key : Str} {n : Ref} {k : Option Ref}
    (e : copy_key m key n k = some m') :
    m'.toAvlTable = m.toAvlTable ∧ m'.no_duplicate = m.no_duplicate ∧
      ∃ c, (∀ p, m'.copy p = if p = n then c else m.copy p) ∧ (∀ b, c = some b → k = some b) ∧
        ∀ b, m'.blocks b = if c = some b then some key else m.blocks b := by
  unfold copy_key at e
  cases hd : m.no_duplicate with
  | true =>
    rw [hd, if_pos rfl] at e
    cases e
    exact ⟨rfl, hd, none, fun p => by simp [MapMem.copy, hd], by simp, by simp⟩
  | false =>
    rw [hd, if_neg Bool.false_ne_true] at e
    cases k with
    | some k =>
      cases e
      refine ⟨rfl, rfl, some k, fun p => ?_, fun b hb => hb, fun b => ?_⟩
      · simp [MapMem.copy, hd, update_apply]
      · simp [update_apply, eq_comm]
    | none =>
      dsimp only at e
      split_ifs at e
      cases e
      refine ⟨rfl, rfl, none, fun p => ?_, by simp, by simp⟩
      simp [MapMem.copy, hd, update_apply]

theorem Owned.copied {m m' : MapMem} {L : List Cell} {x : Cell} {k : Option Ref} (h : Owned m L)
    (hx : ∀ y ∈ L, y.ref ≠ x.ref) (hk : ∀ b, k = some b → m.blocks b = none)
    (e : copy_key m x.key x.ref k = some m') : Owned m' (x :: L) := by
  obtain ⟨-, -, c, hcopy, hck, hblocks⟩ := copy_key_spec e
  have hx' : m'.copy x.ref = c := by rw [hcopy, if_pos rfl]
  have hy' : ∀ y ∈ L, m'.copy y.ref = m.copy y.ref := fun y hy => by rw [hcopy, if_neg (hx y hy)]
  -- the new block is none of the old ones
  have hne : ∀ y ∈ L, ∀ b, m.copy y.ref = some b → c ≠ some b := by
    intro y hy b hb hc
    have h1 := h.holds y hy b hb
    rw [hk b (hck b hc)] at h1
    cases h1
  refine ⟨fun y hy b hb => ?_, fun y hy z hz b hb hb' => ?_, fun b hb => ?_⟩
  · rcases mem_cons.1 hy with rfl | hy
    · rw [hx'] at hb
      rw [hblocks, if_pos hb]
    · rw [hy' y hy] at hb
      rw [hblocks, if_neg (hne y hy b hb)]
      exact h.holds y hy b hb
  · rcases mem_cons.1 hy with rfl | hyL
    · rcases mem_cons.1 hz with rfl | hzL
      · rfl
      · rw [hy' z hzL] at hb'
        exact absurd (hx' ▸ hb) (hne z hzL b hb')
    · rw [hy' y hyL] at hb
      rcases mem_cons.1 hz with rfl | hzL
      · exact absurd (hx' ▸ hb') (hne y hyL b hb)
      · rw [hy' z hzL] at hb'
        exact h.distinct y hyL z hzL b hb hb'
  · rw [hblocks] at hb
    by_cases hc : c = some b
    · exact ⟨x, mem_cons_self, hx'.trans hc⟩
    · rw [if_neg hc] at hb
      obtain ⟨y, hy, hyc⟩ := h.owned b hb
      exact ⟨y, mem_cons_of_mem _ hy, (hy' y hy).trans hyc⟩

theorem Owned.freed {m : MapMem} {L : List Cell} {x : Cell} (h : Owned m (x :: L))
    (hx : ∀ y ∈ L, y.ref ≠ x.ref) :
    ∃ blocks, free_key m x.ref = some { m with blocks := blocks } ∧ Owned { m with blocks := blocks } L := by
  have hxm : x ∈ x :: L := mem_cons_self
  have hym : ∀ y ∈ L, y ∈ x :: L := fun y hy => mem_cons_of_mem _ hy
  cases hc : m.copy x.ref with
  | none =>
    refine ⟨m.blocks, by rw [free_key, hc], ?_⟩
    refine ⟨fun y hy => h.holds y (hym y hy),
      fun y hy z hz => h.distinct y (hym y hy) z (hym z hz), fun b hb => ?_⟩
    obtain ⟨y, hy, hyc⟩ := h.owned b hb
    rcases mem_cons.1 hy with rfl | hy
    · rw [hc] at hyc
      cases hyc
    · exact ⟨y, hy, hyc⟩
  | some k =>
    refine ⟨Function.update m.blocks k none, ?_, ?_⟩
    · rw [free_key, hc]
      simp only [h.holds x hxm k hc, map_some]
    · have hne : ∀ y ∈ L, m.copy y.ref ≠ some k := fun y hy hk =>
        hx y hy (h.distinct y (hym y hy) x hxm k hk hc)
      refine ⟨fun y hy b hb => ?_, fun y hy z hz => h.distinct y (hym y hy) z (hym z hz), fun b hb => ?_⟩
      · have hbk : b ≠ k := by
          rintro rfl
          exact hne y hy hb
        dsimp only
        rw [update_of_ne hbk]
        exact h.holds y (hym y hy) b hb
      · have hbk : b ≠ k := by
          rintro rfl
          simp at hb
        dsimp only at hb
        rw [update_of_ne hbk] at hb
        obtain ⟨y, hy, hyc⟩ := h.owned b hb
        rcases mem_cons.1 hy with rfl | hy
        · rw [hc] at hyc
          exact absurd (some.inj hyc).symm hbk
        · exact ⟨y, hy, hyc⟩

/-! ### The states that runs reach -/

/-- The map `m` has the contents `g`, and its nodes own the key copies that are allocated. -/
def Sound (m : MapMem) (g : Contents) : Prop :=
  ∃ T, Inv m.toAvlTable T ∧ Agrees T g ∧ Owned m T.toList

/-- How the search of `map_get` ends. -/
theorem search_spec {m : AvlTable} {T : Tree} (hT : Holds m T) (key : Str) :
    (∃ x ∈ T.toList, str_cmp key x.key = 0 ∧
      getLoop m.heap key (m.avl_count + 1) none m.avl_root m.avl_root false = some (.found x.ref)) ∨
    find str_cmp Cell.key key T.toList = none ∧ ∃ q y dir,
      getLoop m.heap key (m.avl_count + 1) none m.avl_root m.avl_root false = some (.absent q y dir) := by
  have hhd : ∀ f ∈ ([] : Path).head?, false = f.dir := by simp
  rcases getLoop_spec key [] hT.rep hT.fuel m.avl_root false hhd
    with ⟨x, hx, hk, e⟩ | ⟨fs, dir, hpl, htn, -, e⟩
  · rw [← hT.root] at e
    exact .inl ⟨x, hx, hk, e⟩
  · rw [← hT.root] at e
    subst hpl
    exact .inr ⟨(sorted_insert (x := ⟨0, key, NULL⟩) rfl htn hT.sorted).2, _, _, _, e⟩

section Step

variable {m : MapMem} {T : Tree} {g : Contents}

theorem fresh_ref {m : AvlTable} (hT : Inv m T) {n : Ref} (hn : m.heap n = none) :
    ∀ y ∈ T.toList, y.ref ≠ n := by
  rintro y hy rfl
  exact hT.toHolds.fresh hn (List.mem_map_of_mem hy)

/-- **The outcomes of `map_get`**: the key is there; it is not and there is no node; the copy of the
key faults; or the entry is inserted with its copy. -/
theorem map_get_mem_spec (hT : Inv m.toAvlTable T) (ho : Owned m T.toList) (key : Str)
    {n k : Option Ref} (hf : FreshMem m n k) :
    (∃ x ∈ T.toList, str_cmp key x.key = 0 ∧ map_get_mem m key n k = some (m, some x.ref)) ∨
    find str_cmp Cell.key key T.toList = none ∧ (n = none ∧ map_get_mem m key n k = some (m, none) ∨
        ∃ a, n = some a ∧ (copy_key m key a k = none ∧ map_get_mem m key n k = none ∨
            ∃ m' T' A B, map_get_mem m key n k = some (m', some a) ∧ Inv m'.toAvlTable T' ∧
              Owned m' T'.toList ∧ T.toList = A ++ B ∧ T'.toList = A ++ ⟨a, key, NULL⟩ :: B)) := by
  rcases search_spec hT.toHolds key with ⟨x, hx, hk, e⟩ | ⟨hnone, q, y, dir, e⟩
  · exact .inl ⟨x, hx, hk, by simp [map_get_mem, e]⟩
  · refine .inr ⟨hnone, ?_⟩
    cases n with
    | none => exact .inl ⟨rfl, by simp [map_get_mem, e]⟩
    | some a =>
      refine .inr ⟨a, rfl, ?_⟩
      have ha : m.heap a = none := hf.1 a rfl
      cases hc : copy_key m key a k with
      | none => exact .inl ⟨rfl, by simp [map_get_mem, e, hc]⟩
      | some m1 =>
        obtain ⟨hm1, -⟩ := copy_key_spec hc
        rcases map_get_spec hT.toHolds key ha
          with ⟨x, hx, hk, -⟩ | ⟨m', T', A, B, -, hl, eg, hT', hl'⟩
        · have := find_isSome.2 ⟨x, hx, hk⟩
          rw [hnone] at this
          cases this
        · have el : link_node m.toAvlTable key a q y dir = some (m', a) := by
            rw [← eg, map_get, e]
            rfl
          refine .inr ⟨{ m1 with toAvlTable := m' }, T', A, B, ?_, hT.of_insert eg hT' hl hl', ?_, hl, hl'⟩
          · simp [map_get_mem, e, hc, hm1, el]
          · have hcop : Owned m1 (⟨a, key, NULL⟩ :: T.toList) :=
              ho.copied (x := ⟨a, key, NULL⟩) (fresh_ref hT ha) hf.2 hc
            have hown : Owned { m1 with toAvlTable := m' } (⟨a, key, NULL⟩ :: T.toList) :=
              ⟨hcop.holds, hcop.distinct, hcop.owned⟩
            refine hown.of_mem fun y => ?_
            rw [hl, hl']
            simp only [mem_append, mem_cons]
            tauto

theorem sound_write (hT : Inv m.toAvlTable T) (ha : Agrees T g) (ho : Owned m T.toList) {x : Cell}
    (hx : x ∈ T.toList) {key : Str} (hk : str_cmp key x.key = 0) (v : Ptr) :
    ∃ h', store m.heap x.ref (.setVal v) = some h' ∧ Sound { m with heap := h' } (g.put key v) := by
  obtain ⟨h', T', A, B, es, hT', hl, hl'⟩ := write_spec hT hx v
  refine ⟨h', es, T', hT', agrees_write hT.toHolds ha hl hl' hk, ?_⟩
  have hown : Owned { m with heap := h' } T.toList := ⟨ho.holds, ho.distinct, ho.owned⟩
  refine hown.of_keys (fun y hy => ?_) fun y hy => ?_
  · rw [hl'] at hy
    rw [hl]
    rcases mem_append.1 hy with hy | hy
    · exact ⟨y, mem_append_left _ hy, rfl, rfl⟩
    · rcases mem_cons.1 hy with rfl | hy
      · exact ⟨x, by simp, rfl, rfl⟩
      · exact ⟨y, by simp [hy], rfl, rfl⟩
  · rw [hl] at hy
    rw [hl']
    rcases mem_append.1 hy with hy | hy
    · exact ⟨y, mem_append_left _ hy, rfl⟩
    · rcases mem_cons.1 hy with rfl | hy
      · exact ⟨{ y with val := v }, by simp, rfl⟩
      · exact ⟨y, by simp [hy], rfl⟩

theorem sound_delete (hT : Inv m.toAvlTable T) (ha : Agrees T g) (ho : Owned m T.toList) {x : Cell}
    (hx : x ∈ T.toList) {key : Str} (hk : str_cmp key x.key = 0) :
    ∃ m' v, delete_node_mem m x.ref = some (m', v) ∧ Sound m' (g.erase key) := by
  obtain ⟨t, T', A, B, e, hT', hl, hl'⟩ := delete_node_spec hT.toHolds hx
  have hnd := hT.nodup
  rw [refs, hl, map_append, map_cons] at hnd
  have hne : ∀ y ∈ T'.toList, y.ref ≠ x.ref := by
    intro y hy hyx
    rw [hl', mem_append] at hy
    refine (nodup_cons.1 (nodup_middle.1 hnd)).1 ?_
    rw [← hyx, ← map_append]
    exact List.mem_map_of_mem (mem_append.2 hy)
  have hown : Owned m (x :: T'.toList) := by
    refine ho.of_mem fun y => ?_
    rw [hl, hl']
    simp only [mem_append, mem_cons]
    tauto
  obtain ⟨blocks, ef, ho'⟩ := hown.freed hne
  refine ⟨{ m with toAvlTable := t, blocks := blocks }, x.val, ?_, T', hT.of_delete e hT' hl hl',
    agrees_erase hT.toHolds ha hl hl' hk, ⟨ho'.holds, ho'.distinct, ho'.owned⟩⟩
  simp [delete_node_mem, ef, e]

/-- The key is absent, its node is allocated, and the copy of a key of at least one byte is not. -/
def CopyFails (m : MapMem) (key : Str) (n k : Option Ref) : Prop :=
  map_find m.toAvlTable key = some none ∧ n ≠ none ∧ m.no_duplicate = false ∧ key ≠ [] ∧ k = none

theorem copy_key_none {m : MapMem} {key : Str} {a : Ref} {k : Option Ref} :
    copy_key m key a k = none ↔ m.no_duplicate = false ∧ key ≠ [] ∧ k = none := by
  cases hd : m.no_duplicate <;> cases k <;> by_cases hk : key = [] <;> simp [copy_key, hd, hk]

/-- `map_get` with an abstract map, whichever allocations fail. -/
theorem get_mem_spec (hT : Inv m.toAvlTable T) (ha : Agrees T g) (ho : Owned m T.toList) (key : Str)
    {n k : Option Ref} (hf : FreshMem m n k) :
    (CopyFails m key n k ∧ map_get_mem m key n k = none) ∨
    ¬ CopyFails m key n k ∧ (g key = none ∧ n = none ∧ map_get_mem m key n k = some (m, none) ∨
        ((g key).isSome ∨ n ≠ none) ∧ ∃ m' T' x, map_get_mem m key n k = some (m', some x.ref) ∧
          Inv m'.toAvlTable T' ∧ Owned m' T'.toList ∧ x ∈ T'.toList ∧ str_cmp key x.key = 0 ∧
          x.val = (g key).getD NULL ∧ Agrees T' (if (g key).isSome then g else g.put key NULL)) := by
  have hfind := map_find_spec hT.toHolds key
  rcases map_get_mem_spec hT ho key hf with ⟨x, hx, hk, e⟩ | ⟨hnone, h⟩
  · have hg := agrees_mem hT.toHolds ha hx hk
    refine .inr ⟨?_, .inr ⟨by simp [hg], m, T, x, e, hT, ho, hx, hk, by simp [hg], ?_⟩⟩
    · rintro ⟨h1, -⟩
      rw [hfind, some.injEq, map_eq_none_iff] at h1
      have := find_isSome.2 ⟨x, hx, hk⟩
      rw [h1] at this
      cases this
    · simpa [hg] using ha
  · have hg : g key = none := by rw [ha key, hnone]; rfl
    rcases h with ⟨rfl, e⟩ | ⟨a, rfl, ⟨hc, e⟩ | ⟨m', T', A, B, e, hT', ho', hl, hl'⟩⟩
    · exact .inr ⟨fun h => h.2.1 rfl, .inl ⟨hg, rfl, e⟩⟩
    · refine .inl ⟨⟨?_, by simp, copy_key_none.1 hc⟩, e⟩
      rw [hfind, hnone]
      rfl
    · have hcf : ¬ CopyFails m key (some a) k := by
        rintro ⟨-, -, hc⟩
        rw [← @copy_key_none m key a k] at hc
        rcases search_spec hT.toHolds key with ⟨x, hx, hk, -⟩ | ⟨-, q, y, dir, es⟩
        · have := find_isSome.2 ⟨x, hx, hk⟩
          rw [hnone] at this
          cases this
        · simp [map_get_mem, es, hc] at e
      have hx : (⟨a, key, NULL⟩ : Cell) ∈ T'.toList := by rw [hl']; simp
      refine .inr ⟨hcf, .inr ⟨by simp, m', T', ⟨a, key, NULL⟩, e, hT', ho', hx,
        str_cmp_lawful.self key, by simp [hg], ?_⟩⟩
      rw [hg]
      exact agrees_insert (x := ⟨a, key, NULL⟩) hT'.toHolds ha hl hl'

/-- `map_put` with an abstract map, whichever allocations fail. -/
theorem put_mem_spec (hT : Inv m.toAvlTable T) (ha : Agrees T g) (ho : Owned m T.toList) (key : Str)
    (item : Ptr) {n k : Option Ref} (hf : FreshMem m n k) :
    (CopyFails m key n k ∧ map_put_mem m key item n k = none) ∨
    ¬ CopyFails m key n k ∧ (g key = none ∧ n = none ∧ map_put_mem m key item n k = some (m, NULL) ∨
        ((g key).isSome ∨ n ≠ none) ∧ ∃ m', map_put_mem m key item n k =
            some (m', if (g key).getD NULL = item then NULL else (g key).getD NULL) ∧
          Sound m' (g.put key item)) := by
  rcases get_mem_spec hT ha ho key hf with ⟨hc, e⟩ | ⟨hc, ⟨hg, hn, e⟩ | ⟨hs, m', T', x, e, hT', ho',
    hx, hk, hv, ha'⟩⟩
  · exact .inl ⟨hc, by simp [map_put_mem, e]⟩
  · exact .inr ⟨hc, .inl ⟨hg, hn, by simp [map_put_mem, e]⟩⟩
  · obtain ⟨h', es, hw⟩ := sound_write hT' ha' ho' hx hk item
    rw [put_idem] at hw
    obtain ⟨nd, e1, e2⟩ := map_eq_some_iff.1 (slotVal_cell hT'.toHolds hx)
    refine .inr ⟨hc, .inr ⟨hs, { m' with heap := h' }, ?_, hw⟩⟩
    simp [map_put_mem, e, e1, e2, es, hv]

/-- **Every operation keeps the map sound.** -/
theorem sound_step (hs : Sound m g) {op : MemOp} (ok : AllowedMem m op) {m' : MapMem} {r : Ret}
    (e : exec_mem m op = some (m', r)) : Sound m' (g.next_mem m op) := by
  obtain ⟨T, hT, ha, ho⟩ := hs
  cases op with
  | find key =>
    obtain ⟨p, -, e⟩ := map_eq_some_iff.1 e
    cases e
    exact ⟨T, hT, ha, ho⟩
  | get key n k =>
    obtain ⟨p, hp, e⟩ := map_eq_some_iff.1 e
    cases e
    rw [Contents.next_mem]
    rcases get_mem_spec hT ha ho key ok with ⟨-, e⟩ | ⟨-, ⟨hg, hn, e⟩ | ⟨hs, m1, T', x, e, hT', ho', -,
      -, -, ha'⟩⟩
    · rw [e] at hp
      cases hp
    · rw [e] at hp
      cases hp
      rw [if_pos (.inr hn)]
      exact ⟨T, hT, ha, ho⟩
    · rw [e] at hp
      cases hp
      refine ⟨T', hT', ?_, ho'⟩
      by_cases hg : (g key).isSome
      · rw [if_pos (.inl hg)]
        rwa [if_pos hg] at ha'
      · rw [if_neg (by tauto)]
        rwa [if_neg hg] at ha'
  | put key item n k =>
    obtain ⟨p, hp, e⟩ := map_eq_some_iff.1 e
    cases e
    rw [Contents.next_mem]
    rcases put_mem_spec hT ha ho key item ok with ⟨-, e⟩ | ⟨-, ⟨hg, hn, e⟩ | ⟨hs, m1, e, hm1⟩⟩
    · rw [e] at hp
      cases hp
    · rw [e] at hp
      cases hp
      rw [if_pos ⟨hg, hn⟩]
      exact ⟨T, hT, ha, ho⟩
    · rw [e] at hp
      cases hp
      have hne : ¬ (g key = none ∧ n = none) := by
        rintro ⟨hg, hn⟩
        rcases hs with hs | hs
        · rw [hg] at hs
          cases hs
        · exact hs hn
      rw [if_neg hne]
      exact hm1
  | remove key =>
    obtain ⟨p, hp, e⟩ := map_eq_some_iff.1 e
    cases e
    rw [Contents.next_mem]
    have hloop := findLoop_spec key hT.rep hT.fuel hT.sorted
    rw [← hT.root] at hloop
    cases hf : find str_cmp Cell.key key T.toList with
    | none =>
      have hg : g key = none := by rw [ha key, hf]; rfl
      simp only [map_remove_mem, hloop, hf, map_none, bind_eq_bind, bind_some] at hp
      cases hp
      refine ⟨T, hT, fun key' => ?_, ho⟩
      rw [Contents.erase]
      split_ifs with hk
      · rw [find_congr str_cmp_lawful hk, hf]
        rfl
      · exact ha key'
    | some x =>
      obtain ⟨hx, hk⟩ := find_some hf
      obtain ⟨m1, v, e, hm1⟩ := sound_delete hT ha ho hx hk
      simp only [map_remove_mem, hloop, hf, map_some, bind_eq_bind, bind_some, e] at hp
      cases hp
      exact hm1
  | delete p =>
    obtain ⟨q, hq, e⟩ := map_eq_some_iff.1 e
    cases e
    obtain ⟨x, hx, rfl⟩ := hT.cell ok
    obtain ⟨m1, v, e, hm1⟩ := sound_delete hT ha ho hx (str_cmp_lawful.self x.key)
    rw [e] at hq
    cases hq
    simpa [Contents.next_mem, iterator_key_cell hT.toHolds hx] using hm1
  | write p v =>
    obtain ⟨q, hq, e⟩ := map_eq_some_iff.1 e
    cases e
    obtain ⟨x, hx, rfl⟩ := hT.cell ok
    obtain ⟨h', es, hm1⟩ := sound_write hT ha ho hx (str_cmp_lawful.self x.key) v
    rw [es] at hq
    cases hq
    simpa [Contents.next_mem, iterator_key_cell hT.toHolds hx] using hm1

end Step

theorem sound_create (no_duplicate : Bool) : Sound (MapMem.create no_duplicate) fun _ => none :=
  ⟨.nil, inv_create, fun _ => rfl, fun x hx => by simp at hx, fun x hx => by simp at hx,
    fun k hk => absurd rfl hk⟩

/-- **Every state that a run reaches is sound**, whichever allocations failed on the way. -/
theorem reachable_sound {no_duplicate : Bool} {m : MapMem} {g : Contents}
    (hr : ReachableMem no_duplicate m g) : Sound m g := by
  refine hr.invariant (sound_create no_duplicate) ?_
  intro m g op m' r hs ok e
  exact sound_step hs ok e

/-! ### Failing allocations -/

/-- `map_get` inserts the key completely, or returns NULL and leaves the map as it was. -/
def GetAtomic (m : MapMem) (g : Contents) (key : Str) (n k : Option Ref) : Prop :=
  ∃ m' p, map_get_mem m key n k = some (m', p) ∧
    (p = none ∧ m' = m ∨ ∃ a, p = some a ∧ slotVal m'.toAvlTable a = some ((g key).getD NULL) ∧
      Sound m' (if (g key).isSome then g else g.put key NULL))

/-- The same of `map_put`. -/
def PutAtomic (m : MapMem) (g : Contents) (key : Str) (item : Ptr) (n k : Option Ref) : Prop :=
  ∃ m' v, map_put_mem m key item n k = some (m', v) ∧ (v = NULL ∧ m' = m ∨
      v = (if (g key).getD NULL = item then NULL else (g key).getD NULL) ∧ Sound m' (g.put key item))

/-- **Failing allocations.**  In every state that a run reaches, `map_get` and `map_put` insert the
key completely or return NULL and leave the map as it was, unless the node is allocated and the copy
of the key is not: then NULL is written through. -/
theorem map_alloc_atomic {no_duplicate : Bool} {m : MapMem} {g : Contents}
    (hr : ReachableMem no_duplicate m g) (key : Str) (item : Ptr) {n k : Option Ref}
    (hf : FreshMem m n k) :
    (GetAtomic m g key n k ↔ ¬ CopyFails m key n k) ∧
      (PutAtomic m g key item n k ↔ ¬ CopyFails m key n k) := by
  obtain ⟨T, hT, ha, ho⟩ := reachable_sound hr
  constructor
  · rcases get_mem_spec hT ha ho key hf with ⟨hc, e⟩ | ⟨hc, ⟨-, -, e⟩ | ⟨-, m', T', x, e, hT', ho', hx,
      -, hv, ha'⟩⟩
    · simp [GetAtomic, e, hc]
    · exact iff_of_true ⟨m, none, e, .inl ⟨rfl, rfl⟩⟩ hc
    · refine iff_of_true ⟨m', some x.ref, e, .inr ⟨x.ref, rfl, ?_, T', hT', ha', ho'⟩⟩ hc
      rw [slotVal_cell hT'.toHolds hx, hv]
  · rcases put_mem_spec hT ha ho key item hf with ⟨hc, e⟩ | ⟨hc, ⟨-, -, e⟩ | ⟨-, m', e, hm'⟩⟩
    · simp [PutAtomic, e, hc]
    · exact iff_of_true ⟨m, NULL, e, .inl ⟨rfl, rfl⟩⟩ hc
    · exact iff_of_true ⟨m', _, e, .inr ⟨rfl, hm'⟩⟩ hc

theorem map_alloc_atomic_empty : GetAtomic (MapMem.create false) (fun _ => none) [97] none none := by
  have hf : FreshMem (MapMem.create false) none none := ⟨by simp, by simp⟩
  have hr : ReachableMem false (MapMem.create false) fun _ => none := .init
  exact (map_alloc_atomic hr [97] 5 hf).1.2 fun h => h.2.1 rfl

/-- The node is allocated and the copy of its key is not. -/
theorem map_get_copies_to_null :
    ¬ GetAtomic (MapMem.create false) (fun _ => none) [97] (some 0) none := by
  rintro ⟨m', p, e, -⟩
  cases e

end OpenSips.Map
