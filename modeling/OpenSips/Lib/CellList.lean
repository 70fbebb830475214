import Mathlib.Data.List.Nodup

/-!
# OpenSips.Lib.CellList — lists whose nodes know the cell that points to them

A memory has cells; the cell a list begins at has its first node, and a node `x` has two cells: in `nx x`
is the node behind it, or 0, and in `bk x` the cell that has `x`.
-/

namespace OpenSips.Lib

open List Option Function

variable (nx bk : ℕ → ℕ)

/-- The nodes `l` from the cell `a` on. -/
def CellList (m : ℕ → ℕ) : ℕ → List ℕ → Prop
  | a, [] => m a = 0
  | a, x :: l => m a = x ∧ m (bk x) = a ∧ CellList m (nx x) l

def lastCell : ℕ → List ℕ → ℕ
  | a, [] => a
  | _, x :: l => lastCell (nx x) l

def cells (a : ℕ) (l : List ℕ) : List ℕ := a :: l.flatMap fun x => [bk x, nx x]

variable {nx bk} {m m' : ℕ → ℕ} {a c x : ℕ} {A B l : List ℕ}

theorem mem_cells : c ∈ cells nx bk a l ↔ c = a ∨ ∃ x ∈ l, c = bk x ∨ c = nx x := by
  rw [cells, mem_cons, mem_flatMap]
  simp only [mem_cons, not_mem_nil, or_false]

theorem cells_cons : cells nx bk a (x :: l) = a :: bk x :: cells nx bk (nx x) l := rfl

theorem lastCell_mem : lastCell nx a l ∈ cells nx bk a l := by
  induction l generalizing a with
  | nil => exact mem_cons_self
  | cons x l ih =>
    rw [lastCell, cells_cons]
    exact mem_cons_of_mem _ (mem_cons_of_mem _ ih)

theorem CellList.congr (h : CellList nx bk m a l) (hm : ∀ c ∈ cells nx bk a l, m' c = m c) :
    CellList nx bk m' a l := by
  induction l generalizing a with
  | nil => exact (hm a mem_cons_self).trans h
  | cons x l ih =>
    rw [cells_cons] at hm
    refine ⟨(hm a mem_cons_self).trans h.1,
      (hm (bk x) (mem_cons_of_mem _ mem_cons_self)).trans h.2.1, ih h.2.2 fun c hc => ?_⟩
    exact hm c (mem_cons_of_mem _ (mem_cons_of_mem _ hc))

theorem CellList.middle (h : CellList nx bk m a (A ++ x :: B)) : m (bk x) = lastCell nx a A ∧
    m (lastCell nx a A) = x ∧ CellList nx bk m (nx x) B := by
  induction A generalizing a with
  | nil => exact ⟨h.2.1, h.1, h.2.2⟩
  | cons y A ih => exact ih h.2.2

theorem CellList.last (h : CellList nx bk m a l) : m (lastCell nx a l) = 0 := by
  induction l generalizing a with
  | nil => exact h
  | cons x l ih => exact ih h.2.2

theorem CellList.head (h : CellList nx bk m a l) : m a = l.headD 0 := by
  cases l with
  | nil => exact h
  | cons x l => exact h.1

theorem CellList.replace {B' : List ℕ} (h : CellList nx bk m a (A ++ B))
    (hm : ∀ c ∈ cells nx bk a A, c ≠ lastCell nx a A → m' c = m c)
    (hnd : (cells nx bk a A).Nodup) (hB : CellList nx bk m' (lastCell nx a A) B') :
    CellList nx bk m' a (A ++ B') := by
  induction A generalizing a with
  | nil => exact hB
  | cons y A ih =>
    rw [cells_cons] at hm hnd
    obtain ⟨ha, hnd⟩ := nodup_cons.1 hnd
    obtain ⟨hy, hnd⟩ := nodup_cons.1 hnd
    have hlast : lastCell nx (nx y) A ∈ cells nx bk (nx y) A := lastCell_mem
    refine ⟨?_, ?_, ih h.2.2 (fun c hc => hm c ?_) hnd hB⟩
    · refine (hm a mem_cons_self fun he => ha ?_).trans h.1
      rw [he]
      exact mem_cons_of_mem _ hlast
    · refine (hm (bk y) (mem_cons_of_mem _ mem_cons_self) fun he => hy ?_).trans h.2.1
      rw [he]
      exact hlast
    · exact mem_cons_of_mem _ (mem_cons_of_mem _ hc)

theorem cells_append : cells nx bk a (A ++ x :: B) = cells nx bk a A ++ bk x :: cells nx bk (nx x) B := by
  rw [cells, flatMap_append, flatMap_cons]
  rfl

/-- What is behind a cell becomes `B'`, whose nodes but the first lie behind the first of `B`; the memory is
changed at the cell and at the first of `B` only. -/
theorem CellList.change {B₀ B' : List ℕ} (h : CellList nx bk m a (A ++ B₀))
    (htail : ∀ y l, B = y :: l → CellList nx bk m (nx y) l)
    (hnd : (cells nx bk a (A ++ x :: B)).Nodup)
    (hm : ∀ c ∈ cells nx bk a (A ++ B), c ≠ lastCell nx a A → (∀ y ∈ B.head?, c ≠ bk y) → m' c = m c)
    (hB : (∀ y l, B = y :: l → CellList nx bk m' (nx y) l) → CellList nx bk m' (lastCell nx a A) B') :
    CellList nx bk m' a (A ++ B') := by
  rw [cells_append] at hnd
  obtain ⟨hndA, hndB, hapart⟩ := nodup_append.1 hnd
  refine h.replace (fun c hc hne => hm c ?_ hne fun y hy he => ?_) hndA (hB ?_)
  · rw [mem_cells] at hc ⊢
    exact hc.imp id fun ⟨z, hz, h⟩ => ⟨z, mem_append_left _ hz, h⟩
  · refine hapart c hc (bk y) (mem_cons_of_mem _ ?_) he
    rw [mem_cells]
    exact .inr ⟨y, mem_of_mem_head? hy, .inl rfl⟩
  · rintro y l rfl
    have hndl := (nodup_cons.1 hndB).2
    rw [cells_cons] at hndl hapart
    have hy := (nodup_cons.1 (nodup_cons.1 hndl).2).1
    refine (htail y l rfl).congr fun c hc => hm c ?_ (fun he => ?_) fun z hz he => ?_
    · rw [mem_cells] at hc ⊢
      rcases hc with rfl | ⟨z, hz, hc⟩
      · exact .inr ⟨y, mem_append_right _ mem_cons_self, .inr rfl⟩
      · exact .inr ⟨z, mem_append_right _ (mem_cons_of_mem _ hz), hc⟩
    · refine hapart c (he ▸ lastCell_mem) c ?_ rfl
      exact mem_cons_of_mem _ (mem_cons_of_mem _ (mem_cons_of_mem _ hc))
    · cases hz
      exact hy (he ▸ hc)

/-- **A node is put behind a cell.** -/
theorem CellList.insert (h : CellList nx bk m a (A ++ B)) (hnd : (cells nx bk a (A ++ x :: B)).Nodup)
    (hcell : m' (lastCell nx a A) = x) (hback : m' (bk x) = lastCell nx a A)
    (hnext : m' (nx x) = m (lastCell nx a A)) (hafter : ∀ y ∈ B.head?, m' (bk y) = nx x)
    (hm : ∀ c ∈ cells nx bk a (A ++ B), c ≠ lastCell nx a A → (∀ y ∈ B.head?, c ≠ bk y) → m' c = m c) :
    CellList nx bk m' a (A ++ x :: B) := by
  refine h.change (fun y l e => ?_) hnd hm fun hrest => ⟨hcell, hback, ?_⟩
  · rw [e] at h
    exact h.middle.2.2
  · cases B with
    | nil =>
      rw [append_nil] at h
      exact hnext.trans h.last
    | cons y B => exact ⟨hnext.trans h.middle.2.1, hafter y rfl, hrest y B rfl⟩

/-- **A node is taken out.** -/
theorem CellList.remove (h : CellList nx bk m a (A ++ x :: B)) (hnd : (cells nx bk a (A ++ x :: B)).Nodup)
    (hcell : m' (lastCell nx a A) = m (nx x)) (hafter : ∀ y ∈ B.head?, m' (bk y) = lastCell nx a A)
    (hm : ∀ c ∈ cells nx bk a (A ++ B), c ≠ lastCell nx a A → (∀ y ∈ B.head?, c ≠ bk y) → m' c = m c) :
    CellList nx bk m' a (A ++ B) := by
  obtain ⟨-, -, hrest⟩ := h.middle
  refine h.change (fun y l e => ?_) hnd hm fun htail => ?_
  · rw [e] at hrest
    exact hrest.2.2
  · cases B with
    | nil => exact hcell.trans hrest
    | cons y B => exact ⟨hcell.trans hrest.1, hafter y rfl, htail y B rfl⟩

/-! ### The writes -/

/-- The writes that put `x` into the cell `c`, in front of what is there. -/
def linkIn (nx bk m : ℕ → ℕ) (c x : ℕ) : ℕ → ℕ :=
  let m := Function.update m (bk x) c
  let m := Function.update m (nx x) (m c)
  let m := if m c ≠ 0 then Function.update m (bk (m c)) (nx x) else m
  Function.update m c x

/-- The writes that take `x` out of its cell. -/
def linkOut (nx bk m : ℕ → ℕ) (x : ℕ) : ℕ → ℕ :=
  let c := m (bk x)
  let m := Function.update m c (m (nx x))
  let m := if m (nx x) ≠ 0 then Function.update m (bk (m (nx x))) c else m
  Function.update m (bk x) 0

theorem linkIn_apply (h1 : c ≠ bk x) (h2 : c ≠ nx x) (d : ℕ) : linkIn nx bk m c x d =
    if d = c then x else if m c ≠ 0 ∧ d = bk (m c) then nx x else if d = nx x then m c
    else if d = bk x then c else m d := by
  unfold linkIn
  simp only [update_apply, if_neg h1, if_neg h2]
  by_cases h : m c = 0
  · simp only [h, ne_eq, not_true_eq_false, if_false, false_and, update_apply]
  · simp only [h, ne_eq, not_false_eq_true, if_true, true_and, update_apply]

theorem linkOut_apply (h : m (bk x) ≠ nx x) (d : ℕ) : linkOut nx bk m x d =
    if d = bk x then 0 else if m (nx x) ≠ 0 ∧ d = bk (m (nx x)) then m (bk x)
    else if d = m (bk x) then m (nx x) else m d := by
  unfold linkOut
  simp only [update_apply, if_neg h.symm]
  by_cases h0 : m (nx x) = 0
  · simp only [h0, ne_eq, not_true_eq_false, if_false, false_and, update_apply]
  · simp only [h0, ne_eq, not_false_eq_true, if_true, true_and, update_apply]

theorem cells_around (hnd : (cells nx bk a (A ++ x :: B)).Nodup) :
    lastCell nx a A ≠ bk x ∧ lastCell nx a A ≠ nx x ∧ bk x ≠ nx x ∧
      ∀ y ∈ B.head?, lastCell nx a A ≠ bk y ∧ bk x ≠ bk y ∧ nx x ≠ bk y := by
  rw [cells_append] at hnd
  obtain ⟨-, hndB, hapart⟩ := nodup_append.1 hnd
  obtain ⟨hx, hndB⟩ := nodup_cons.1 hndB
  have hlast := fun d hd => hapart _ (lastCell_mem (l := A)) d hd
  refine ⟨hlast _ mem_cons_self, hlast _ (mem_cons_of_mem _ mem_cons_self),
    fun he => hx (he ▸ mem_cons_self), fun y hy => ?_⟩
  have hmem : bk y ∈ B.flatMap fun x => [bk x, nx x] :=
    mem_flatMap.2 ⟨y, mem_of_mem_head? hy, mem_cons_self⟩
  refine ⟨hlast _ (mem_cons_of_mem _ (mem_cons_of_mem _ hmem)), fun he => hx (mem_cons_of_mem _ (he ▸ hmem)),
    fun he => (nodup_cons.1 hndB).1 (he ▸ hmem)⟩

theorem cells_others (hnd : (cells nx bk a (A ++ x :: B)).Nodup) (hc : c ∈ cells nx bk a (A ++ B)) :
    c ≠ bk x ∧ c ≠ nx x := by
  rw [cells_append] at hnd
  obtain ⟨-, hndB, hapart⟩ := nodup_append.1 hnd
  obtain ⟨hx, hndB⟩ := nodup_cons.1 hndB
  rw [cells, flatMap_append, ← cons_append] at hc
  rcases mem_append.1 hc with hc | hc
  · exact ⟨hapart c hc _ mem_cons_self, hapart c hc _ (mem_cons_of_mem _ mem_cons_self)⟩
  · exact ⟨fun he => hx (mem_cons_of_mem _ (he ▸ hc)), fun he => (nodup_cons.1 hndB).1 (he ▸ hc)⟩

theorem CellList.at_last (h : CellList nx bk m a (A ++ B)) : m (lastCell nx a A) = B.headD 0 := by
  cases B with
  | nil =>
    rw [append_nil] at h
    exact h.last
  | cons y B => exact h.middle.2.1

theorem head_cell {d : ℕ} (h0 : ∀ y ∈ B, y ≠ 0) (hy : ∀ y ∈ B.head?, d ≠ bk y) :
    ¬ (B.headD 0 ≠ 0 ∧ d = bk (B.headD 0)) := by
  rintro ⟨hne, e⟩
  cases B with
  | nil => exact hne rfl
  | cons y B => exact hy y rfl e

/-- **`linkIn` puts a node into a list**, and writes to cells of this list only. -/
theorem CellList.linkIn (h : CellList nx bk m a (A ++ B)) (hnd : (cells nx bk a (A ++ x :: B)).Nodup)
    (h0 : ∀ y ∈ B, y ≠ 0) : CellList nx bk (linkIn nx bk m (lastCell nx a A) x) a (A ++ x :: B) ∧
      ∀ d ∉ cells nx bk a (A ++ x :: B), linkIn nx bk m (lastCell nx a A) x d = m d := by
  obtain ⟨hb, hn, hbn, hy⟩ := cells_around hnd
  have heval := linkIn_apply (m := m) hb hn
  rw [h.at_last] at heval
  have hsame : ∀ d, d ≠ lastCell nx a A → (∀ y ∈ B.head?, d ≠ bk y) → d ≠ nx x → d ≠ bk x →
      OpenSips.Lib.linkIn nx bk m (lastCell nx a A) x d = m d := fun d h1 h2 h3 h4 => by
    rw [heval, if_neg h1, if_neg (head_cell h0 h2), if_neg h3, if_neg h4]
  have hout : ∀ d, (d = lastCell nx a A ∨ (∃ y ∈ B.head?, d = bk y) ∨ d = nx x ∨ d = bk x) →
      d ∈ cells nx bk a (A ++ x :: B) := by
    rw [cells_append]
    rintro d (rfl | ⟨y, hy, rfl⟩ | rfl | rfl)
    · exact mem_append_left _ lastCell_mem
    · refine mem_append_right _ (mem_cons_of_mem _ (mem_cells.2 ?_))
      exact .inr ⟨y, mem_of_mem_head? hy, .inl rfl⟩
    · exact mem_append_right _ (mem_cons_of_mem _ mem_cons_self)
    · exact mem_append_right _ mem_cons_self
  refine ⟨h.insert hnd ?_ ?_ ?_ (fun y hyB => ?_) fun c hc h1 h2 => ?_, fun d hd => ?_⟩
  · rw [heval, if_pos rfl]
  · rw [heval, if_neg hb.symm, if_neg (head_cell h0 fun y hyB => (hy y hyB).2.1), if_neg hbn, if_pos rfl]
  · rw [heval, if_neg hn.symm, if_neg (head_cell h0 fun y hyB => (hy y hyB).2.2), if_pos rfl, h.at_last]
  · cases B with
    | nil => cases hyB
    | cons z B =>
      obtain rfl := some_inj.1 hyB
      rw [heval, if_neg (hy z rfl).1.symm, if_pos ⟨h0 z mem_cons_self, rfl⟩]
  · obtain ⟨h3, h4⟩ := cells_others hnd hc
    exact hsame c h1 h2 h4 h3
  · refine hsame d (fun e => hd (hout d (.inl e))) (fun y hyB e => hd (hout d ?_))
      (fun e => hd (hout d (.inr (.inr (.inl e))))) fun e => hd (hout d (.inr (.inr (.inr e))))
    exact .inr (.inl ⟨y, hyB, e⟩)

/-- **`linkOut` takes a node out of its list**, and writes to cells of this list only. -/
theorem CellList.linkOut (h : CellList nx bk m a (A ++ x :: B)) (hnd : (cells nx bk a (A ++ x :: B)).Nodup)
    (h0 : ∀ y ∈ B, y ≠ 0) : CellList nx bk (linkOut nx bk m x) a (A ++ B) ∧ linkOut nx bk m x (bk x) = 0 ∧
      ∀ d ∉ cells nx bk a (A ++ x :: B), linkOut nx bk m x d = m d := by
  obtain ⟨hb, hn, hbn, hy⟩ := cells_around hnd
  obtain ⟨hcell, -, hrest⟩ := h.middle
  have heval := linkOut_apply (m := m) (x := x) (hcell ▸ hn)
  rw [hrest.head, hcell] at heval
  have hsame : ∀ d, d ≠ lastCell nx a A → (∀ y ∈ B.head?, d ≠ bk y) → d ≠ bk x →
      OpenSips.Lib.linkOut nx bk m x d = m d := fun d h1 h2 h3 => by
    rw [heval, if_neg h3, if_neg (head_cell h0 h2), if_neg h1]
  refine ⟨h.remove hnd ?_ (fun y hyB => ?_) fun c hc h1 h2 => ?_, ?_, fun d hd => ?_⟩
  · rw [heval, if_neg hb, if_neg (head_cell h0 fun y hyB => (hy y hyB).1), if_pos rfl, hrest.head]
  · cases B with
    | nil => cases hyB
    | cons z B =>
      obtain rfl := some_inj.1 hyB
      rw [heval, if_neg (hy z rfl).2.1.symm, if_pos ⟨h0 z mem_cons_self, rfl⟩]
  · exact hsame c h1 h2 (cells_others hnd hc).1
  · rw [heval, if_pos rfl]
  · rw [cells_append] at hd
    refine hsame d (fun e => hd ?_) (fun y hyB e => hd ?_) fun e => hd ?_
    · exact mem_append_left _ (e ▸ lastCell_mem)
    · refine mem_append_right _ (mem_cons_of_mem _ (mem_cells.2 ?_))
      exact .inr ⟨y, mem_of_mem_head? hyB, .inl e⟩
    · exact mem_append_right _ (e ▸ mem_cons_self)

theorem cells_nodup (hl : l.Nodup) (ha : ∀ x ∈ l, a ≠ bk x ∧ a ≠ nx x) (hx : ∀ x ∈ l, bk x ≠ nx x)
    (hxy : ∀ x ∈ l, ∀ y ∈ l, x ≠ y → bk x ≠ bk y ∧ bk x ≠ nx y ∧ nx x ≠ nx y) :
    (cells nx bk a l).Nodup := by
  refine nodup_cons.2 ⟨fun hm => ?_, nodup_flatMap.2 ⟨fun x h => ?_, ?_⟩⟩
  · obtain ⟨x, h, hm⟩ := mem_flatMap.1 hm
    rcases mem_pair.1 hm with e | e
    · exact (ha x h).1 e
    · exact (ha x h).2 e
  · exact nodup_cons.2 ⟨fun hm => hx x h (mem_singleton.1 hm), nodup_singleton _⟩
  · refine hl.imp_of_mem fun {x y} h h' hne => ?_
    obtain ⟨h1, h2, h3⟩ := hxy x h y h' hne
    obtain ⟨-, h4, -⟩ := hxy y h' x h hne.symm
    intro c hc hc'
    rcases mem_pair.1 hc with rfl | rfl <;> rcases mem_pair.1 hc' with e | e
    · exact h1 e
    · exact h2 e
    · exact h4 e.symm
    · exact h3 e

end OpenSips.Lib
