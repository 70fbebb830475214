import OpenSips.Map.Live
import OpenSips.Lib.Machine

/-!
# OpenSips.Map.Refine — the map of `core/map.c` is a finite map

Runs of the map operations from `map_create`, watched by the abstract map they should implement: a
function on keys that does not tell apart keys for which `str_cmp` returns 0.
-/

namespace OpenSips.Map

open Lib Lib.AvlTree List

/-! ### Operations -/

/-- The calls of a client.  `n` is the address the allocator would return; `write` is a store
through the pointer that `map_get`, `map_find` or `iterator_val` returned. -/
inductive Op where
  | find (key : Str)
  | get (key : Str) (n : Ref)
  | put (key : Str) (item : Ptr) (n : Ref)
  | remove (key : Str)
  | delete (it : AvlIterator)
  | write (p : Ref) (v : Ptr)

/-- What a call returns: a pointer to a value, or a value. -/
inductive Ret where
  | slot (p : Option Ref)
  | val (v : Ptr)

def exec (m : AvlTable) : Op → Option (AvlTable × Ret)
  | .find key => (map_find m key).map fun p => (m, .slot p)
  | .get key n => (map_get m key n).map fun r => (r.1, .slot (some r.2))
  | .put key item n => (map_put m key item n).map fun r => (r.1, .val r.2)
  | .remove key => (map_remove m key).map fun r => (r.1, .val r.2)
  | .delete it => (iterator_delete m it).map fun r => (r.1, .val r.2)
  | .write p v => (store m.heap p (.setVal v)).map fun h => ({ m with heap := h }, .slot (some p))

/-- The allocator returns free memory, and a client follows only pointers to nodes not deleted. -/
def Allowed (m : AvlTable) : Op → Prop
  | .get _ n => m.heap n = none
  | .put _ _ n => m.heap n = none
  | .delete (some p) => m.heap p ≠ none
  | .write p _ => m.heap p ≠ none
  | _ => True

def slotVal (m : AvlTable) (p : Ref) : Option Ptr := (m.heap p).map AvlNode.val

/-- `iterator_key`. -/
def iterator_key (m : AvlTable) (p : Ref) : Option Str := (m.heap p).map AvlNode.key

/-! ### The abstract map -/

abbrev Contents := Str → Option Ptr

def Contents.put (g : Contents) (key : Str) (v : Ptr) : Contents := fun k =>
  if str_cmp k key = 0 then some v else g k
def Contents.erase (g : Contents) (key : Str) : Contents := fun k =>
  if str_cmp k key = 0 then none else g k

/-- The contents after an operation. -/
def Contents.next (m : AvlTable) (g : Contents) : Op → Contents
  | .find _ => g
  | .get key _ => if (g key).isSome then g else g.put key NULL
  | .put key item _ => g.put key item
  | .remove key => g.erase key
  | .delete it => ((it.bind (iterator_key m)).map g.erase).getD g
  | .write p v => ((iterator_key m p).map fun key => g.put key v).getD g

/-- The right result of an operation, in the state `m'` that it leaves. -/
def Answers (m' : AvlTable) (m : AvlTable) (g : Contents) : Op → Ret → Prop
  | .find key, .slot p => p.bind (slotVal m') = g key ∧ (p.isSome ↔ (g key).isSome)
  | .get key _, .slot p => p.bind (slotVal m') = some ((g key).getD NULL)
  | .put key item _, .val v => v = if (g key).getD NULL = item then NULL else (g key).getD NULL
  | .remove key, .val v => v = (g key).getD NULL
  | .delete it, .val v => v = ((it.bind (iterator_key m)).bind g).getD NULL
  | .write _ _, .slot _ => True
  | _, _ => False

/-- The states that runs from `map_create` reach, with the contents they should have. -/
abbrev Reachable : AvlTable → Contents → Prop :=
  Run exec (fun m _ => Allowed m) (fun m g op _ => Contents.next m g op) (map_create, fun _ => none)

/-! ### The invariant -/

/-- The map holds the tree `T` and no other node is allocated. -/
structure Inv (m : AvlTable) (T : Tree) : Prop extends Holds m T where
  live : ∀ a, m.heap a ≠ none → a ∈ refs T

/-- The tree `T` has the contents `g`. -/
def Agrees (T : Tree) (g : Contents) : Prop :=
  ∀ k, g k = (find str_cmp Cell.key k T.toList).map Cell.val

theorem inv_create : Inv map_create .nil where
  rep := trivial
  root := rfl
  nodup := nodup_nil
  bal := trivial
  sorted := Pairwise.nil
  count := rfl
  live := fun _ h => absurd rfl h

section Inv

variable {m : AvlTable} {T : Tree} {g : Contents}

variable {x : Cell}

theorem Rep.cell {h : Heap} {par : Option Ref} {t : Tree} (ht : Rep h par t)
    (hx : x ∈ t.toList) : ∃ q b l, h x.ref = some (obj q x b l) := by
  induction t generalizing par with
  | nil => simp at hx
  | node y b c ih =>
    obtain ⟨h1, h2⟩ := ht
    rcases (mem_toList_node true).1 hx with rfl | hx | hx
    · exact ⟨_, _, _, h1⟩
    · exact ih _ (h2 _) hx
    · exact ih _ (h2 _) hx

theorem slotVal_cell (hT : Holds m T) (hx : x ∈ T.toList) : slotVal m x.ref = some x.val := by
  obtain ⟨q, b, l, e⟩ := hT.rep.cell hx
  simp [slotVal, e]

theorem iterator_key_cell (hT : Holds m T) (hx : x ∈ T.toList) : iterator_key m x.ref = some x.key := by
  obtain ⟨q, b, l, e⟩ := hT.rep.cell hx
  simp [iterator_key, e]

theorem Inv.cell (hT : Inv m T) {a : Ref} (ha : m.heap a ≠ none) : ∃ x ∈ T.toList, x.ref = a :=
  List.mem_map.1 (hT.live a ha)

theorem write_spec (hT : Inv m T) (hx : x ∈ T.toList) (v : Ptr) :
    ∃ h' T' A B, store m.heap x.ref (.setVal v) = some h' ∧ Inv { m with heap := h' } T' ∧
      T.toList = A ++ x :: B ∧ T'.toList = A ++ { x with val := v } :: B := by
  obtain ⟨fs, b, c, rfl⟩ := exists_plug hx
  obtain ⟨rp, rt⟩ := rep_plug.1 ⟨hT.rep, hT.root⟩
  obtain ⟨n1, n2, n3⟩ := nodup_plug.1 hT.nodup
  have hl : (plug fs (.node x b c)).toList =
      (pathL fs ++ (c false).toList) ++ x :: ((c true).toList ++ pathR fs) := by
    simp [toList_plug, toList]
  have hl' : (plug fs (.node { x with val := v } b c)).toList =
      (pathL fs ++ (c false).toList) ++ { x with val := v } :: ((c true).toList ++ pathR fs) := by
    simp [toList_plug, toList]
  have hrefs : refs (plug fs (.node { x with val := v } b c)) = refs (plug fs (.node x b c)) := by
    rw [refs, refs, hl, hl']; simp
  have hout : x.ref ∉ pathRefs fs := n3 _ (root_mem rfl)
  set h' := Function.update m.heap x.ref
    (some (obj (parentOf fs) { x with val := v } b fun e => root (c e))) with hh'
  have rp' : RepPath h' m.avl_root fs (some x.ref) := rp.congr fun a ha => update_off hout ha
  have rt' : Rep h' (parentOf fs) (.node { x with val := v } b c) :=
    ⟨by simp [hh'], fun d => (rt.2 d).congr fun a ha => update_off ((nodup_node d).1 n1).1 ha⟩
  obtain ⟨r1, r2⟩ := rep_plug.2 ⟨rp', rt'⟩
  refine ⟨h', plug fs (.node { x with val := v } b c), _, _, store_of _ rt.1,
    ⟨⟨r1, r2, ?_, ?_, ?_, ?_⟩, ?_⟩, hl, hl'⟩
  · rw [hrefs]; exact hT.nodup
  · obtain ⟨b1, b2⟩ := balanced_plug.1 hT.bal
    exact balanced_plug.2 ⟨b1, b2⟩
  · have := hT.sorted
    rw [hl] at this
    rw [hl']
    exact sortedBy_replace (x := x) rfl this
  · have := hT.count
    rw [hl] at this
    rw [hl']
    simpa using this
  · intro a ha
    rw [hrefs]
    by_cases hax : a = x.ref
    · subst hax
      exact List.mem_map_of_mem hx
    · refine hT.live a ?_
      rwa [← Function.update_of_ne hax (some (obj (parentOf fs) { x with val := v } b fun e =>
        root (c e))) m.heap]

variable {A B : List Cell} {T' : Tree} {key : Str}

theorem agrees_write {v : Ptr} (hT : Holds m T)
    (ha : Agrees T g) (hl : T.toList = A ++ x :: B) (hl' : T'.toList = A ++ { x with val := v } :: B) (hk : str_cmp key x.key = 0) : Agrees T' (g.put key v) := by
  intro k
  have hs := hT.sorted
  rw [hl] at hs
  have hs' : Sorted (A ++ { x with val := v } :: B) := sortedBy_replace (x := x) rfl hs
  have hkk : str_cmp k key = 0 ↔ str_cmp k x.key = 0 := ⟨fun e => str_cmp_lawful.eq_trans e hk,
      fun e => str_cmp_lawful.eq_trans e (str_cmp_lawful.eq_symm hk)⟩
  rw [hl', find_middle str_cmp_lawful hs', Contents.put]
  simp only [hkk]
  split_ifs with h
  · rfl
  · rw [ha k, hl, find_middle str_cmp_lawful hs, if_neg h]

theorem agrees_insert (hT' : Holds m T')
    (ha : Agrees T g) (hl : T.toList = A ++ B) (hl' : T'.toList = A ++ x :: B) :
    Agrees T' (g.put x.key x.val) := by
  intro k
  have hs := hT'.sorted
  rw [hl'] at hs
  rw [hl', find_middle str_cmp_lawful hs, Contents.put, ha k, hl]
  split_ifs <;> rfl

theorem agrees_erase (hT : Holds m T) (ha : Agrees T g) (hl : T.toList = A ++ x :: B) (hl' : T'.toList = A ++ B)
    (hk : str_cmp key x.key = 0) : Agrees T' (g.erase key) := by
  intro k
  have hs := hT.sorted
  rw [hl] at hs
  have hkk : str_cmp k key = 0 ↔ str_cmp k x.key = 0 := ⟨fun e => str_cmp_lawful.eq_trans e hk,
      fun e => str_cmp_lawful.eq_trans e (str_cmp_lawful.eq_symm hk)⟩
  rw [Contents.erase, hl']
  simp only [hkk]
  split_ifs with h
  · rw [find_removed str_cmp_lawful hs h]; rfl
  · rw [ha k, hl, find_middle str_cmp_lawful hs, if_neg h]

theorem agrees_mem (hT : Holds m T) (ha : Agrees T g) (hx : x ∈ T.toList)
    (hk : str_cmp key x.key = 0) : g key = some x.val := by
  obtain ⟨A, B, hl⟩ := append_of_mem hx
  have hs := hT.sorted
  rw [hl] at hs
  rw [ha key, hl, find_middle str_cmp_lawful hs, if_pos hk]
  rfl

/-! ### One operation -/

def Good (m : AvlTable) (g : Contents) (op : Op) : Prop :=
  ∃ m' r, exec m op = some (m', r) ∧ (∃ T', Inv m' T' ∧ Agrees T' (Contents.next m g op)) ∧
    Answers m' m g op r

theorem good_find (hT : Inv m T) (ha : Agrees T g) (key : Str) : Good m g (.find key) := by
  refine ⟨m, .slot ((find str_cmp Cell.key key T.toList).map Cell.ref), ?_, ⟨T, hT, ha⟩, ?_⟩
  · simp [exec, map_find_spec hT.toHolds]
  · cases hf : find str_cmp Cell.key key T.toList with
    | none => simp [Answers, ha key, hf]
    | some x => simp [Answers, ha key, hf, slotVal_cell hT.toHolds (find_some hf).1]

variable {n : Ref}

/-- The node that `map_get` inserted is the only new one. -/
theorem Inv.of_insert (hT : Inv m T) {m' : AvlTable} (e : map_get m key n = some (m', n)) (hT' : Holds m' T')
    (hl : T.toList = A ++ B) (hl' : T'.toList = A ++ ⟨n, key, NULL⟩ :: B) : Inv m' T' := by
  refine ⟨hT', fun a hal => ?_⟩
  rw [refs, hl', map_append, map_cons]
  rcases live_map_get e hal with hal | rfl
  · have := hT.live a hal
    rw [refs, hl, map_append] at this
    simp only [mem_append, mem_cons] at this ⊢
    tauto
  · simp

/-- `map_get` with an abstract map: the entry is there afterwards, its value kept or `NULL`. -/
theorem get_spec (hT : Inv m T) (ha : Agrees T g) (key : Str) (hn : m.heap n = none) :
    ∃ m' T' x, map_get m key n = some (m', x.ref) ∧ Inv m' T' ∧ x ∈ T'.toList ∧
      str_cmp key x.key = 0 ∧ x.val = (g key).getD NULL ∧
      Agrees T' (if (g key).isSome then g else g.put key NULL) := by
  rcases map_get_spec hT.toHolds key hn with ⟨x, hx, hk, e⟩ | ⟨m', T', A, B, hf, hl, e, hT', hl'⟩
  · have hg := agrees_mem hT.toHolds ha hx hk
    exact ⟨m, T, x, e, hT, hx, hk, by simp [hg], by simpa [hg] using ha⟩
  · have hg : g key = none := by rw [ha key, hf]; rfl
    have hx : (⟨n, key, NULL⟩ : Cell) ∈ T'.toList := by rw [hl']; simp
    refine ⟨m', T', ⟨n, key, NULL⟩, e, hT.of_insert e hT' hl hl', hx, str_cmp_lawful.self key, by simp [hg], ?_⟩
    rw [hg]
    exact agrees_insert (x := ⟨n, key, NULL⟩) hT' ha hl hl'

theorem good_get (hT : Inv m T) (ha : Agrees T g) (key : Str) (hn : m.heap n = none) :
    Good m g (.get key n) := by
  obtain ⟨m', T', x, e, hT', hx, -, hv, ha'⟩ := get_spec hT ha key hn
  refine ⟨m', .slot (some x.ref), by simp [exec, e], ⟨T', hT', ha'⟩, ?_⟩
  simp [Answers, slotVal_cell hT'.toHolds hx, hv]

theorem put_idem (g : Contents) (key : Str) (v : Ptr) :
    (if (g key).isSome then g else g.put key NULL).put key v = g.put key v := by
  funext k
  by_cases h : str_cmp k key = 0 <;> cases (g key) <;> simp [Contents.put, h]

section

variable (hT : Inv m T)
include hT

theorem good_put (ha : Agrees T g) (key : Str) (item : Ptr)
    (hn : m.heap n = none) : Good m g (.put key item n) := by
  obtain ⟨m', T', x, e, hT', hx, hk, hv, ha'⟩ := get_spec hT ha key hn
  obtain ⟨h', T'', A, B, es, hT'', hl, hl'⟩ := write_spec hT' hx item
  have hval := slotVal_cell hT'.toHolds hx
  obtain ⟨nd, e1, e2⟩ := Option.map_eq_some_iff.1 hval
  refine ⟨{ m' with heap := h' }, .val (if x.val = item then NULL else x.val), ?_, ⟨T'', hT'', ?_⟩, ?_⟩
  · simp [exec, map_put, e, e1, e2, es]
  · have := agrees_write hT'.toHolds ha' hl hl' hk
    rwa [put_idem] at this
  · simp [Answers, hv]

/-- The node that `delete_node` freed is the only one gone. -/
theorem Inv.of_delete {m' : AvlTable} {v : Ptr} (e : delete_node m x.ref = some (m', v)) (hT' : Holds m' T')
    (hl : T.toList = A ++ x :: B) (hl' : T'.toList = A ++ B) : Inv m' T' := by
  refine ⟨hT', fun a hal => ?_⟩
  obtain ⟨h1, h2⟩ := live_delete_node e hal
  have := hT.live a h1
  rw [refs, hl, map_append, map_cons] at this
  rw [refs, hl', map_append]
  simp only [mem_append, mem_cons] at this ⊢
  tauto

/-- `delete_node` with an abstract map. -/
theorem delete_spec (ha : Agrees T g) (hx : x ∈ T.toList) (hk : str_cmp key x.key = 0) :
    ∃ m' T', delete_node m x.ref = some (m', (g key).getD NULL) ∧ Inv m' T' ∧ Agrees T' (g.erase key) := by
  obtain ⟨m', T', A, B, e, hT', hl, hl'⟩ := delete_node_spec hT.toHolds hx
  have hg := agrees_mem hT.toHolds ha hx hk
  exact ⟨m', T', by simp [e, hg], hT.of_delete e hT' hl hl', agrees_erase hT.toHolds ha hl hl' hk⟩

theorem good_remove (ha : Agrees T g) (key : Str) : Good m g (.remove key) := by
  have hloop := findLoop_spec key hT.rep hT.fuel hT.sorted
  rw [← hT.root] at hloop
  cases hf : find str_cmp Cell.key key T.toList with
  | none =>
    have hg : g key = none := by rw [ha key, hf]; rfl
    refine ⟨m, .val NULL, ?_, ⟨T, hT, fun k => ?_⟩, by simp [Answers, hg]⟩
    · simp [exec, map_remove, hloop, hf]
    · rw [Contents.next, Contents.erase]
      split_ifs with h
      · rw [find_congr str_cmp_lawful h, hf]; rfl
      · exact ha k
  | some x =>
    obtain ⟨hx, hk⟩ := find_some hf
    obtain ⟨m', T', e, hT', ha'⟩ := delete_spec hT ha hx hk
    refine ⟨m', .val ((g key).getD NULL), ?_, ⟨T', hT', ha'⟩, rfl⟩
    simp [exec, map_remove, hloop, hf, e]

theorem good_delete (ha : Agrees T g) {it : AvlIterator}
    (hit : ∀ p, it = some p → m.heap p ≠ none) : Good m g (.delete it) := by
  cases it with
  | none => exact ⟨m, .val NULL, rfl, ⟨T, hT, ha⟩, rfl⟩
  | some p =>
    obtain ⟨x, hx, rfl⟩ := hT.cell (hit p rfl)
    obtain ⟨m', T', e, hT', ha'⟩ := delete_spec hT ha hx (str_cmp_lawful.self x.key)
    have hk := iterator_key_cell hT.toHolds hx
    refine ⟨m', .val ((g x.key).getD NULL), by simp [exec, iterator_delete, e], ⟨T', hT', ?_⟩, ?_⟩
    · simpa [Contents.next, hk] using ha'
    · simp [Answers, hk]

theorem good_write (ha : Agrees T g) {p : Ref} (hp : m.heap p ≠ none) (v : Ptr) :
    Good m g (.write p v) := by
  obtain ⟨x, hx, rfl⟩ := hT.cell hp
  obtain ⟨h', T', A, B, es, hT', hl, hl'⟩ := write_spec hT hx v
  refine ⟨{ m with heap := h' }, .slot (some x.ref), by simp [exec, es], ⟨T', hT', ?_⟩, trivial⟩
  have := agrees_write hT.toHolds ha hl hl' (str_cmp_lawful.self x.key)
  simpa [Contents.next, iterator_key_cell hT.toHolds hx] using this

/-- **Every operation of a client succeeds and does what it does on the abstract map.** -/
theorem good_op (ha : Agrees T g) {op : Op} (ok : Allowed m op) : Good m g op := by
  cases op with
  | find key => exact good_find hT ha key
  | get key n => exact good_get hT ha key ok
  | put key item n => exact good_put hT ha key item ok
  | remove key => exact good_remove hT ha key
  | delete it => exact good_delete hT ha (by rintro p rfl; exact ok)
  | write p v => exact good_write hT ha ok v

end

end Inv

/-! ### All runs -/

/-- Every reachable state holds a tree with the contents that the run should have left, and no
operation faults there. -/
theorem reachable_spec {m : AvlTable} {g : Contents} (hr : Reachable m g) : (∃ T, Inv m T ∧ Agrees T g) ∧
      ∀ op, Allowed m op → ∃ m' r, exec m op = some (m', r) ∧ Answers m' m g op r := by
  refine Run.total (I := fun m g => ∃ T, Inv m T ∧ Agrees T g)
    (Q := fun m g op m' r => Answers m' m g op r) ⟨.nil, inv_create, fun _ => rfl⟩ ?_ hr
  rintro m g op ⟨T, hT, ha⟩ ok
  exact good_op hT ha ok

def opKey (m : AvlTable) : Op → Option Str
  | .find key | .get key _ | .put key _ _ | .remove key => some key
  | .delete it => it.bind (iterator_key m)
  | .write p _ => iterator_key m p

theorem next_other (m : AvlTable) (g : Contents) (op : Op) {k : Str}
    (hk : ∀ key, opKey m op = some key → str_cmp k key ≠ 0) : Contents.next m g op k = g k := by
  cases op with
  | find key => rfl
  | get key n =>
    have := hk key rfl
    cases hg : g key <;> simp [Contents.next, Contents.put, hg, this]
  | put key item n => exact if_neg (hk key rfl)
  | remove key => exact if_neg (hk key rfl)
  | delete it =>
    cases hi : it.bind (iterator_key m) with
    | none => simp [Contents.next, hi]
    | some key => simpa [Contents.next, hi, Contents.erase] using fun h => absurd h (hk key hi)
  | write p v =>
    cases hi : iterator_key m p with
    | none => simp [Contents.next, hi]
    | some key => simpa [Contents.next, hi, Contents.put] using fun h => absurd h (hk key hi)

theorem keys_spec {m : AvlTable} {T : Tree} {g : Contents} (hT : Inv m T) (ha : Agrees T g) :
    ∃ keys : List Str, keys.Pairwise (fun k k' => str_cmp k k' ≠ 0) ∧
      (∀ key, (g key).isSome ↔ ∃ k ∈ keys, str_cmp key k = 0) ∧ map_size m = keys.length := by
  refine ⟨T.toList.map Cell.key, ?_, fun key => ?_, ?_⟩
  · rw [pairwise_map]
    exact hT.sorted.imp fun h => by omega
  · rw [ha key, Option.isSome_map, find_isSome]
    simp
  · rw [map_size, hT.count, length_map]

/-- **The AVL map refines a finite map.** In every state that a run of operations reaches,
`map_find` returns the value the contents have at the key; every operation succeeds, returns the
abstract map's answer and leaves its contents, which differ at the operation's own key only; and
`map_size` is the number of keys present. -/
theorem map_refines {m : AvlTable} {g : Contents} (hr : Reachable m g) :
    (∀ key, ∃ p, map_find m key = some p ∧ p.bind (slotVal m) = g key ∧ (p.isSome ↔ (g key).isSome)) ∧
    (∀ op, Allowed m op → ∃ m' r, exec m op = some (m', r) ∧ Answers m' m g op r ∧
      Reachable m' (Contents.next m g op)) ∧
    (∀ op k, (∀ key, opKey m op = some key → str_cmp k key ≠ 0) → Contents.next m g op k = g k) ∧
    ∃ keys : List Str, keys.Pairwise (fun k k' => str_cmp k k' ≠ 0) ∧
      (∀ key, (g key).isSome ↔ ∃ k ∈ keys, str_cmp key k = 0) ∧ map_size m = keys.length := by
  obtain ⟨⟨T, hT, ha⟩, ht⟩ := reachable_spec hr
  refine ⟨fun key => ?_, fun op ok => ?_, fun op k hk => next_other m g op hk, keys_spec hT ha⟩
  · obtain ⟨m', r, e, hans⟩ := ht (.find key) trivial
    obtain ⟨p, hp, hpe⟩ := Option.map_eq_some_iff.1 e
    cases hpe
    exact ⟨p, hp, hans⟩
  · obtain ⟨m', r, e, hans⟩ := ht op ok
    exact ⟨m', r, e, hans, Run.step hr ok e⟩

theorem map_refines_put_one : ∃ m, exec map_create (.put [97] 5 0) = some (m, .val NULL) ∧
    map_size m = 1 ∧ ∃ p, map_find m [97] = some p ∧ p.bind (slotVal m) = some 5 := by
  have ok : Allowed map_create (.put [97] 5 0) := rfl
  refine ⟨_, rfl, rfl, ?_⟩
  obtain ⟨p, h1, h2, -⟩ := (map_refines (Run.step .init ok rfl)).1 [97]
  exact ⟨p, h1, h2⟩

/-! ### The shape of the tree -/

/-- Links and parent pointers point back at each other, and only the root has no parent. -/
structure ParentsRight (m : AvlTable) : Prop where
  root : ∀ a n, m.avl_root = some a → m.heap a = some n → n.avl_parent = none
  up : ∀ a n, m.heap a = some n → match n.avl_parent with
    | none => m.avl_root = some a
    | some q => ∃ nq d, m.heap q = some nq ∧ nq.avl_link d = some a
  down : ∀ a n d c, m.heap a = some n → n.avl_link d = some c →
    ∃ nc, m.heap c = some nc ∧ nc.avl_parent = some a

theorem root_obj {h : Heap} {par : Option Ref} {t : Tree} (ht : Rep h par t) {a : Ref}
    (ha : OpenSips.Map.root t = some a) : ∃ n, h a = some n ∧ n.avl_parent = par := by
  cases t with
  | nil => cases ha
  | node x b c => cases ha; exact ⟨_, ht.1, rfl⟩

theorem Inv.parents {m : AvlTable} {T : Tree} (hT : Inv m T) : ParentsRight m where
  root := by
    intro a n hr hn
    obtain ⟨n', h1, h2⟩ := root_obj hT.rep (hT.root ▸ hr)
    rw [hn] at h1
    cases h1
    exact h2
  up := by
    intro a n hn
    obtain ⟨x, hx, rfl⟩ := hT.cell (a := a) (by simp [hn])
    obtain ⟨fs, b, c, rfl⟩ := exists_plug hx
    obtain ⟨rp, rt⟩ := rep_plug.1 ⟨hT.rep, hT.root⟩
    have h1 := rt.1
    rw [hn] at h1
    cases h1
    cases fs with
    | nil => exact rp
    | cons f fs => exact ⟨_, f.dir, rp.1, by simp⟩
  down := by
    intro a n d c' hn hl
    obtain ⟨x, hx, rfl⟩ := hT.cell (a := a) (by simp [hn])
    obtain ⟨fs, b, c, rfl⟩ := exists_plug hx
    obtain ⟨-, rt⟩ := rep_plug.1 ⟨hT.rep, hT.root⟩
    have h1 := rt.1
    rw [hn] at h1
    cases h1
    exact root_obj (rt.2 d) hl

/-- **The AVL invariant.** In every reachable state the allocated nodes are those of one tree,
whose stored balance factors are the differences of the heights and lie in `{-1, 0, 1}`; parents
are right; `avl_count` counts the nodes; and no operation faults, so no `assert` fails. -/
theorem map_avl_invariant {m : AvlTable} {g : Contents} (hr : Reachable m g) :
    (∃ T, Rep m.heap none T ∧ m.avl_root = root T ∧ (refs T).Nodup ∧
      (∀ a, m.heap a ≠ none ↔ a ∈ refs T) ∧ Balanced T ∧ m.avl_count = (refs T).length) ∧
    ParentsRight m ∧ ∀ op, Allowed m op → exec m op ≠ none := by
  obtain ⟨⟨T, hT, -⟩, ht⟩ := reachable_spec hr
  refine ⟨⟨T, hT.rep, hT.root, hT.nodup, fun a => ⟨hT.live a, fun ha => ?_⟩, hT.bal, ?_⟩,
    hT.parents, fun op ok => ?_⟩
  · obtain ⟨n, hn⟩ := hT.rep.get ha
    simp [hn]
  · rw [hT.count, refs, length_map]
  · obtain ⟨m', r, e, -⟩ := ht op ok
    simp [e]

theorem map_avl_invariant_put_one : ∃ m, exec map_create (.put [97] 5 0) = some (m, .val NULL) ∧
    ∃ T, Rep m.heap none T ∧ Balanced T ∧ m.avl_count = (refs T).length := by
  have ok : Allowed map_create (.put [97] 5 0) := rfl
  refine ⟨_, rfl, ?_⟩
  obtain ⟨⟨T, h1, -, -, -, h2, h3⟩, -⟩ := map_avl_invariant (Run.step .init ok rfl)
  exact ⟨T, h1, h2, h3⟩

/-- **A search looks at few nodes**: at no more than an AVL tree with `map_size` keys can be high, where
`Nat.fib (k + 2)` is by one more than the nodes that the height `k` needs. -/
theorem map_search_turns (m : AvlTable) (g : Contents) (hr : Reachable m g) :
    ∃ k, Nat.fib (k + 2) ≤ map_size m + 1 ∧ ∀ key, map_find m key ≠ none ∧
      findLoop m.heap key (k + 1) m.avl_root = map_find m key ∧
      getLoop m.heap key (k + 1) none m.avl_root m.avl_root false ≠ none := by
  obtain ⟨⟨T, hT, -⟩, -⟩ := reachable_spec hr
  have hfuel : height T < (((height T).toNat + 1 : ℕ) : ℤ) := by
    have := height_nonneg T
    omega
  refine ⟨(height T).toNat, ?_, fun key => ?_⟩
  · rw [map_size, hT.count]
    exact fib_height_le hT.bal
  · have hfind := map_find_spec hT.toHolds key
    refine ⟨by simp [hfind], ?_, ?_⟩
    · rw [hfind, hT.root]
      exact findLoop_spec key hT.rep hfuel hT.sorted
    · rw [hT.root]
      rcases getLoop_spec key [] hT.rep hfuel (root T) false (by simp) with ⟨x, -, -, e⟩ | ⟨low, dir, -, -, -, e⟩
      all_goals exact e ▸ Option.some_ne_none _

theorem map_search_turns_put_one : ∃ m, exec map_create (.put [97] 5 0) = some (m, .val NULL) ∧
    ∃ k, Nat.fib (k + 2) ≤ map_size m + 1 ∧ ∀ key, map_find m key ≠ none ∧
      findLoop m.heap key (k + 1) m.avl_root = map_find m key ∧
      getLoop m.heap key (k + 1) none m.avl_root m.avl_root false ≠ none := by
  have ok : Allowed map_create (.put [97] 5 0) := rfl
  exact ⟨_, rfl, map_search_turns _ _ (Run.step .init ok rfl)⟩

end OpenSips.Map
