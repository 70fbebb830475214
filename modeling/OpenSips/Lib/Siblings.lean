import OpenSips.Lib.Objects

/-!
# OpenSips.Lib.Siblings — ordered trees of objects

An object knows its first child and its next sibling.  `Siblings` is what a pointer to the first of some
siblings leads to; new objects come in behind the last sibling of another one, or behind the last child.
-/

namespace OpenSips.Lib

open List Option

inductive Siblings where
  | null
  | node (a : ℕ) (kids next : Siblings)

namespace Siblings

def addrs : Siblings → List ℕ
  | null => []
  | node a k n => a :: (k.addrs ++ n.addrs)

def roots : Siblings → List ℕ
  | null => []
  | node a _ n => a :: n.roots

def deeper : Siblings → List (List ℕ)
  | null => []
  | node _ k n => k.roots :: (k.deeper ++ n.deeper)

/-- All lists of siblings. -/
def lists (t : Siblings) : List (List ℕ) := t.roots :: t.deeper

def visit : Siblings → ℕ → List (ℕ × ℕ)
  | null, _ => []
  | node a k n, level => (a, level) :: (k.visit (level + 1) ++ n.visit level)

/-- The children of `p`. -/
def children (p : ℕ) : Siblings → List ℕ
  | null => []
  | node a k n => if a = p then k.roots else k.children p ++ n.children p

/-- The first sibling, its first child, the first child of this one and so on, with their depth. -/
def spine : Siblings → ℕ → List (ℕ × ℕ)
  | null, _ => []
  | node a k _, level => (a, level) :: k.spine (level + 1)

/-- `x` behind the last sibling. -/
def append (x : ℕ) : Siblings → Siblings
  | null => node x null null
  | node a k n => node a k (n.append x)

/-- `x` behind the last sibling of `b`. -/
def addSibling (b x : ℕ) : Siblings → Siblings
  | null => null
  | node a k n =>
    if b ∈ a :: n.roots then node a k (n.append x) else node a (k.addSibling b x) (n.addSibling b x)

/-- `x` behind the last child of `p`. -/
def addChild (p x : ℕ) : Siblings → Siblings
  | null => null
  | node a k n => node a (if a = p then k.append x else k.addChild p x) (n.addChild p x)

variable {α : Type*} (kids next : α → Option ℕ)

/-- The pointer `p` leads to `t`. -/
def Of (m : Objects α) : Option ℕ → Siblings → Prop
  | p, null => p = none
  | p, node a k n => p = some a ∧ ∃ x, m.get a = some x ∧ Of m (kids x) k ∧ Of m (next x) n

variable {kids next} {m m' : Objects α} {p : Option ℕ} {t k n : Siblings} {a b x y level : ℕ} {l : List ℕ}

theorem roots_subset (h : a ∈ t.roots) : a ∈ t.addrs := by
  induction t with
  | null => exact h
  | node c k n ihk ihn =>
    rcases mem_cons.1 h with rfl | h
    · exact mem_cons_self
    · exact mem_cons_of_mem _ (mem_append_right _ (ihn h))

theorem lists_subset (hl : l ∈ t.lists) (h : a ∈ l) : a ∈ t.addrs := by
  induction t generalizing l with
  | null =>
    rw [lists, deeper, mem_singleton] at hl
    rwa [hl] at h
  | node c k n ihk ihn =>
    rcases mem_cons.1 hl with rfl | hl
    · exact roots_subset h
    · refine mem_cons_of_mem _ (mem_append.2 ?_)
      rcases mem_cons.1 hl with rfl | hl
      · exact .inl (roots_subset h)
      · rcases mem_append.1 hl with hl | hl
        · exact .inl (ihk (mem_cons_of_mem _ hl) h)
        · exact .inr (ihn (mem_cons_of_mem _ hl) h)

theorem exists_list (h : a ∈ t.addrs) : ∃ l ∈ t.lists, a ∈ l := by
  induction t with
  | null => exact absurd h not_mem_nil
  | node c k n ihk ihn =>
    rcases mem_cons.1 h with rfl | h
    · exact ⟨_, mem_cons_self, mem_cons_self⟩
    · rcases mem_append.1 h with h | h
      · obtain ⟨l, hl, ha⟩ := ihk h
        refine ⟨l, mem_cons_of_mem _ ?_, ha⟩
        rcases mem_cons.1 hl with rfl | hl
        · exact mem_cons_self
        · exact mem_cons_of_mem _ (mem_append_left _ hl)
      · obtain ⟨l, hl, ha⟩ := ihn h
        rcases mem_cons.1 hl with rfl | hl
        · exact ⟨_, mem_cons_self, mem_cons_of_mem _ ha⟩
        · exact ⟨l, mem_cons_of_mem _ (mem_cons_of_mem _ (mem_append_right _ hl)), ha⟩

theorem visit_addrs : (t.visit level).map Prod.fst = t.addrs := by
  induction t generalizing level with
  | null => rfl
  | node a k n ihk ihn => rw [visit, addrs, map_cons, map_append, ihk, ihn]

/-! ### Pointers -/

theorem Of.congr (h : Of kids next m p t) (hm : ∀ a ∈ t.addrs, ∀ x, m.get a = some x →
    ∃ x', m'.get a = some x' ∧ kids x' = kids x ∧ next x' = next x) : Of kids next m' p t := by
  induction t generalizing p with
  | null => exact h
  | node a k n ihk ihn =>
    obtain ⟨hp, x, hx, hk, hn⟩ := h
    obtain ⟨x', hx', ek, en⟩ := hm a mem_cons_self x hx
    refine ⟨hp, x', hx', ?_, ?_⟩
    · rw [ek]
      exact ihk hk fun c hc => hm c (mem_cons_of_mem _ (mem_append_left _ hc))
    · rw [en]
      exact ihn hn fun c hc => hm c (mem_cons_of_mem _ (mem_append_right _ hc))

theorem Of.live (h : Of kids next m p t) (ha : a ∈ t.addrs) : ∃ x, m.get a = some x := by
  induction t generalizing p with
  | null => exact absurd ha not_mem_nil
  | node c k n ihk ihn =>
    obtain ⟨-, x, hx, hk, hn⟩ := h
    rcases mem_cons.1 ha with rfl | ha
    · exact ⟨x, hx⟩
    · exact (mem_append.1 ha).elim (ihk hk) (ihn hn)

theorem Of.unique {t' : Siblings} (h : Of kids next m p t) (h' : Of kids next m p t') : t = t' := by
  induction t generalizing p t' with
  | null =>
    cases t' with
    | null => rfl
    | node a k n => exact absurd (h.symm.trans h'.1) (by simp)
  | node a k n ihk ihn =>
    obtain ⟨rfl, x, hx, hk, hn⟩ := h
    cases t' with
    | null => exact absurd h' (by simp [Of])
    | node a' k' n' =>
      obtain ⟨ha, x', hx', hk', hn'⟩ := h'
      cases ha
      obtain rfl := some.inj (hx.symm.trans hx')
      rw [ihk hk hk', ihn hn hn']

/-- The links of `m'` are those of `m`, but `x` came in behind `y`. -/
structure Linked (kids next : α → Option ℕ) (m m' : Objects α) (y x : ℕ) : Prop where
  others : ∀ a, a ≠ y → a ≠ x → ∀ c, m.get a = some c →
    ∃ c', m'.get a = some c' ∧ kids c' = kids c ∧ next c' = next c
  before : ∃ c c', m.get y = some c ∧ next c = none ∧ m'.get y = some c' ∧ kids c' = kids c ∧
    next c' = some x
  new : ∃ c, m'.get x = some c ∧ kids c = none ∧ next c = none

theorem Linked.keep (h : Linked kids next m m' y x) (ht : Of kids next m p t) (hy : y ∉ t.addrs)
    (hx : x ∉ t.addrs) : Of kids next m' p t :=
  ht.congr fun a ha => h.others a (fun e => hy (e ▸ ha)) fun e => hx (e ▸ ha)

theorem Linked.append (h : Linked kids next m m' y x) (ht : Of kids next m p t) (hnd : t.addrs.Nodup)
    (hx : x ∉ t.addrs) (hy : y ∈ t.roots) : Of kids next m' p (t.append x) := by
  induction t generalizing p with
  | null => exact absurd hy not_mem_nil
  | node a k n ihk ihn =>
    obtain ⟨rfl, c, hc, hk, hn⟩ := ht
    obtain ⟨ha, hnd⟩ := nodup_cons.1 hnd
    obtain ⟨hndk, hndn, hkn⟩ := nodup_append.1 hnd
    have hxk : x ∉ k.addrs := fun h => hx (mem_cons_of_mem _ (mem_append_left _ h))
    have hxn : x ∉ n.addrs := fun h => hx (mem_cons_of_mem _ (mem_append_right _ h))
    rcases mem_cons.1 hy with rfl | hy
    · -- the object is the last one
      obtain ⟨d, d', hd, hnone, hd', ek, en⟩ := h.before
      obtain rfl := some.inj (hd.symm.trans hc)
      have hyk : y ∉ k.addrs := fun h => ha (mem_append_left _ h)
      rw [hnone] at hn
      cases n with
      | node b k' n' => exact absurd hn.1 (by simp)
      | null =>
        refine ⟨rfl, d', hd', ek ▸ h.keep hk hyk hxk, ?_⟩
        rw [en]
        obtain ⟨e, he, h1, h2⟩ := h.new
        exact ⟨rfl, e, he, h1, h2⟩
    · have hyn := roots_subset hy
      obtain ⟨c', hc', ek, en⟩ := h.others a (fun e => ha (mem_append_right _ (e ▸ hyn)))
        (fun e => hx (e ▸ mem_cons_self)) c hc
      refine ⟨rfl, c', hc', ek ▸ h.keep hk (fun h => ?_) hxk, en ▸ ihn hn hndn hxn hy⟩
      exact hkn y h y hyn rfl

theorem addSibling_of_notMem (h : b ∉ t.addrs) : t.addSibling b x = t := by
  induction t with
  | null => rfl
  | node a k n ihk ihn =>
    rw [addSibling, if_neg (show ¬ b ∈ a :: n.roots from fun hb => h (roots_subset (t := node a k n) hb)),
      ihk fun hb => h (mem_cons_of_mem _ (mem_append_left _ hb)),
      ihn fun hb => h (mem_cons_of_mem _ (mem_append_right _ hb))]

/-- **An object comes in behind the last sibling of another.** -/
theorem Linked.addSibling (h : Linked kids next m m' y x) (ht : Of kids next m p t)
    (hnd : t.addrs.Nodup) (hx : x ∉ t.addrs) (hb : b ∈ t.addrs)
    (hy : ∀ l ∈ t.lists, b ∈ l → y ∈ l) : Of kids next m' p (t.addSibling b x) := by
  induction t generalizing p with
  | null => exact absurd hb not_mem_nil
  | node a k n ihk ihn =>
    rw [Siblings.addSibling]
    split_ifs with hroots
    · exact h.append ht hnd hx (hy _ mem_cons_self hroots)
    obtain ⟨rfl, c, hc, hk, hn⟩ := ht
    obtain ⟨ha, hnd⟩ := nodup_cons.1 hnd
    obtain ⟨hndk, hndn, hkn⟩ := nodup_append.1 hnd
    have hxk : x ∉ k.addrs := fun h => hx (mem_cons_of_mem _ (mem_append_left _ h))
    have hxn : x ∉ n.addrs := fun h => hx (mem_cons_of_mem _ (mem_append_right _ h))
    have hyk : b ∈ k.addrs → y ∈ k.addrs ∧ ∀ l ∈ k.lists, b ∈ l → y ∈ l := fun hbk => by
      have hsub : ∀ l ∈ k.lists, b ∈ l → y ∈ l := fun l hl => hy l (mem_cons_of_mem _
        ((mem_cons.1 hl).elim (fun e => e ▸ mem_cons_self) fun hl =>
          mem_cons_of_mem _ (mem_append_left _ hl)))
      obtain ⟨l, hl, hbl⟩ := exists_list hbk
      exact ⟨lists_subset hl (hsub l hl hbl), hsub⟩
    have hyn : b ∈ n.addrs → y ∈ n.addrs ∧ ∀ l ∈ n.lists, b ∈ l → y ∈ l := fun hbn => by
      have hsub : ∀ l ∈ n.lists, b ∈ l → y ∈ l := fun l hl hbl => by
        rcases mem_cons.1 hl with rfl | hl
        · exact absurd (mem_cons_of_mem _ hbl) hroots
        · exact hy l (mem_cons_of_mem _ (mem_cons_of_mem _ (mem_append_right _ hl))) hbl
      obtain ⟨l, hl, hbl⟩ := exists_list hbn
      exact ⟨lists_subset hl (hsub l hl hbl), hsub⟩
    have hbkn : b ∈ k.addrs ∨ b ∈ n.addrs := by
      rcases mem_cons.1 hb with rfl | hb
      · exact absurd mem_cons_self hroots
      · exact mem_append.1 hb
    have hya : y ≠ a := fun e => ha (e ▸ mem_append.2 (hbkn.imp (fun h => (hyk h).1) fun h => (hyn h).1))
    obtain ⟨c', hc', ek, en⟩ := h.others a hya.symm (fun e => hx (e ▸ mem_cons_self)) c hc
    refine ⟨rfl, c', hc', ?_⟩
    rw [ek, en]
    rcases hbkn with hbk | hbn
    · obtain ⟨hy', hsub⟩ := hyk hbk
      refine ⟨ihk hk hndk hxk hbk hsub, ?_⟩
      rw [addSibling_of_notMem fun hbn => hkn b hbk b hbn rfl]
      exact h.keep hn (fun hy => hkn y hy' y hy rfl) hxn
    · obtain ⟨hy', hsub⟩ := hyn hbn
      refine ⟨?_, ihn hn hndn hxn hbn hsub⟩
      rw [addSibling_of_notMem fun hbk => hkn b hbk b hbn rfl]
      exact h.keep hk (fun hy => hkn y hy y hy' rfl) hxk

/-- The links of `m'` are those of `m`, but `x` became the only child of `a`. -/
structure Begun (kids next : α → Option ℕ) (m m' : Objects α) (a x : ℕ) : Prop where
  others : ∀ c, c ≠ a → c ≠ x → ∀ d, m.get c = some d →
    ∃ d', m'.get c = some d' ∧ kids d' = kids d ∧ next d' = next d
  parent : ∃ d d', m.get a = some d ∧ kids d = none ∧ m'.get a = some d' ∧ kids d' = some x ∧
    next d' = next d
  new : ∃ d, m'.get x = some d ∧ kids d = none ∧ next d = none

theorem Begun.keep (h : Begun kids next m m' a x) (ht : Of kids next m p t) (ha : a ∉ t.addrs)
    (hx : x ∉ t.addrs) : Of kids next m' p t :=
  ht.congr fun c hc => h.others c (fun e => ha (e ▸ hc)) fun e => hx (e ▸ hc)

/-- **An object comes in as the first child of another.** -/
theorem Begun.addChild (h : Begun kids next m m' a x) (ht : Of kids next m p t) (hnd : t.addrs.Nodup)
    (hx : x ∉ t.addrs) : Of kids next m' p (t.addChild a x) := by
  induction t generalizing p with
  | null => exact ht
  | node c k n ihk ihn =>
    obtain ⟨rfl, d, hd, hk, hn⟩ := ht
    obtain ⟨hc, hnd⟩ := nodup_cons.1 hnd
    obtain ⟨hndk, hndn, -⟩ := nodup_append.1 hnd
    have hxk : x ∉ k.addrs := fun h => hx (mem_cons_of_mem _ (mem_append_left _ h))
    have hxn : x ∉ n.addrs := fun h => hx (mem_cons_of_mem _ (mem_append_right _ h))
    rw [Siblings.addChild]
    by_cases hca : c = a
    · obtain ⟨e, e', he, hnone, he', ek, en⟩ := h.parent
      subst hca
      obtain rfl := some.inj (he.symm.trans hd)
      rw [hnone] at hk
      have hcn : c ∉ n.addrs := fun h => hc (mem_append_right _ h)
      cases k with
      | node b k' n' => exact absurd hk.1 (by simp)
      | null =>
        rw [if_pos rfl]
        obtain ⟨f, hf, h1, h2⟩ := h.new
        exact ⟨rfl, e', he', ek ▸ ⟨rfl, f, hf, h1, h2⟩, en ▸ ihn hn hndn hxn⟩
    · obtain ⟨d', hd', ek, en⟩ := h.others c hca (fun e => hx (e ▸ mem_cons_self)) d hd
      rw [if_neg hca]
      exact ⟨rfl, d', hd', ek ▸ ihk hk hndk hxk, en ▸ ihn hn hndn hxn⟩

/-! ### What is there -/

theorem visit_append : ((t.append x).visit level).Perm ((x, level) :: t.visit level) := by
  induction t with
  | null => exact List.Perm.refl _
  | node a k n ihk ihn =>
    rw [Siblings.append, visit, visit]
    refine (Perm.cons _ ((ihn.append_left _).trans perm_middle)).trans ?_
    exact Perm.swap ..

theorem visit_addSibling (hnd : t.addrs.Nodup) (hb : b ∈ t.addrs) :
    ∃ l, ((t.addSibling b x).visit level).Perm ((x, l) :: t.visit level) := by
  induction t generalizing level with
  | null => exact absurd hb not_mem_nil
  | node a k n ihk ihn =>
    rw [Siblings.addSibling]
    split_ifs with hroots
    · exact ⟨level, visit_append (t := node a k n)⟩
    obtain ⟨ha, hnd⟩ := nodup_cons.1 hnd
    obtain ⟨hndk, hndn, hkn⟩ := nodup_append.1 hnd
    rw [visit, visit]
    rcases mem_cons.1 hb with rfl | hb
    · exact absurd mem_cons_self hroots
    rcases mem_append.1 hb with hbk | hbn
    · obtain ⟨l, hl⟩ := @ihk (level + 1) hndk hbk
      rw [addSibling_of_notMem fun hbn => hkn b hbk b hbn rfl]
      exact ⟨l, (Perm.cons _ (hl.append_right _)).trans (Perm.swap ..)⟩
    · obtain ⟨l, hl⟩ := @ihn level hndn hbn
      rw [addSibling_of_notMem fun hbk => hkn b hbk b hbn rfl]
      exact ⟨l, (Perm.cons _ ((hl.append_left _).trans perm_middle)).trans (Perm.swap ..)⟩

theorem addChild_of_notMem (h : a ∉ t.addrs) : t.addChild a x = t := by
  induction t with
  | null => rfl
  | node c k n ihk ihn =>
    rw [addChild, if_neg fun e : c = a => h (e ▸ mem_cons_self),
      ihk fun hb => h (mem_cons_of_mem _ (mem_append_left _ hb)),
      ihn fun hb => h (mem_cons_of_mem _ (mem_append_right _ hb))]

theorem visit_addChild (hnd : t.addrs.Nodup) (ha : a ∈ t.addrs) :
    ∃ l, ((t.addChild a x).visit level).Perm ((x, l) :: t.visit level) := by
  induction t generalizing level with
  | null => exact absurd ha not_mem_nil
  | node c k n ihk ihn =>
    obtain ⟨hc, hnd⟩ := nodup_cons.1 hnd
    obtain ⟨hndk, hndn, hkn⟩ := nodup_append.1 hnd
    rw [addChild, visit, visit]
    by_cases hca : c = a
    · subst hca
      rw [if_pos rfl, addChild_of_notMem fun h => hc (mem_append_right _ h)]
      exact ⟨level + 1, (Perm.cons _ (visit_append.append_right _)).trans (Perm.swap ..)⟩
    rw [if_neg hca]
    rcases mem_append.1 ((mem_cons.1 ha).resolve_left fun e => hca e.symm) with hk | hn
    · obtain ⟨l, hl⟩ := @ihk (level + 1) hndk hk
      rw [addChild_of_notMem fun hn => hkn a hk a hn rfl]
      exact ⟨l, (Perm.cons _ (hl.append_right _)).trans (Perm.swap ..)⟩
    · obtain ⟨l, hl⟩ := @ihn level hndn hn
      rw [addChild_of_notMem fun hk => hkn a hk a hn rfl]
      exact ⟨l, (Perm.cons _ ((hl.append_left _).trans perm_middle)).trans (Perm.swap ..)⟩

/-! ### Lists of siblings -/

/-- `x` came in at the end of the list `l`, and nothing is below it. -/
def Grew (t t' : Siblings) (l : List ℕ) (x : ℕ) : Prop :=
  ∃ L, t.lists.Perm (l :: L) ∧ t'.lists.Perm ((l ++ [x]) :: [] :: L)

theorem roots_append : (t.append x).roots = t.roots ++ [x] := by
  induction t with
  | null => rfl
  | node a k n ihk ihn => rw [Siblings.append, roots, ihn, roots, cons_append]

theorem deeper_append : (t.append x).deeper = t.deeper ++ [[]] := by
  induction t with
  | null => rfl
  | node a k n ihk ihn =>
    rw [Siblings.append, deeper, ihn, deeper, cons_append, append_assoc]

theorem grew_append : Grew t (t.append x) t.roots x := by
  refine ⟨t.deeper, List.Perm.refl _, ?_⟩
  rw [lists, roots_append, deeper_append]
  exact Perm.cons _ (perm_append_singleton _ _)

theorem lists_node : (node a k n).lists = (a :: n.roots) :: (k.lists ++ n.deeper) := rfl

theorem Grew.down {k' : Siblings} (h : Grew k k' l x) : Grew (node a k n) (node a k' n) l x := by
  obtain ⟨L, h1, h2⟩ := h
  refine ⟨(a :: n.roots) :: (L ++ n.deeper), ?_, ?_⟩
  · rw [lists_node]
    exact (Perm.cons _ (h1.append_right _)).trans (Perm.swap ..)
  · rw [lists_node]
    refine (Perm.cons _ (h2.append_right _)).trans ((Perm.swap ..).trans (Perm.cons _ ?_))
    exact Perm.swap ..

theorem Grew.along {n' : Siblings} (h : Grew n n' l x) (hr : n'.roots = n.roots) (hl : l ∈ n.deeper) :
    Grew (node a k n) (node a k n') l x := by
  obtain ⟨L, h1, h2⟩ := h
  rw [lists, hr] at h2
  obtain ⟨A, B, hd⟩ := append_of_mem hl
  have hL : L.Perm (n.roots :: (A ++ B)) := by
    refine (perm_cons l).1 (h1.symm.trans ?_)
    rw [lists, hd]
    exact (Perm.cons _ perm_middle).trans (Perm.swap ..)
  have h3 : n'.deeper.Perm ((l ++ [x]) :: [] :: (A ++ B)) := by
    refine (perm_cons n.roots).1 (h2.trans ?_)
    refine (Perm.cons _ (Perm.cons _ hL)).trans ?_
    exact (Perm.cons _ (Perm.swap ..)).trans (Perm.swap ..)
  refine ⟨(a :: n.roots) :: (k.lists ++ (A ++ B)), ?_, ?_⟩
  · rw [lists_node, hd]
    refine (Perm.cons _ ((perm_middle.append_left _).trans perm_middle)).trans ?_
    exact Perm.swap ..
  · rw [lists_node, hr]
    refine (Perm.cons _ ((h3.append_left _).trans (perm_middle.trans (Perm.cons _ perm_middle)))).trans ?_
    exact (Perm.swap ..).trans (Perm.cons _ (Perm.swap ..))

theorem roots_addSibling_of_notMem (h : b ∉ t.roots) : (t.addSibling b x).roots = t.roots := by
  induction t with
  | null => rfl
  | node a k n ihk ihn =>
    rw [Siblings.addSibling, if_neg (show ¬ b ∈ a :: n.roots from h), roots, roots, ihn fun hb => h (mem_cons_of_mem _ hb)]

theorem roots_addChild : (t.addChild a x).roots = t.roots := by
  induction t with
  | null => rfl
  | node c k n ihk ihn => rw [Siblings.addChild, roots, roots, ihn]

theorem grew_addSibling (hnd : t.addrs.Nodup) (hb : b ∈ t.addrs) :
    ∃ l, b ∈ l ∧ Grew t (t.addSibling b x) l x := by
  induction t with
  | null => exact absurd hb not_mem_nil
  | node a k n ihk ihn =>
    by_cases hroots : b ∈ a :: n.roots
    · rw [Siblings.addSibling, if_pos hroots]
      exact ⟨_, hroots, grew_append (t := node a k n)⟩
    · obtain ⟨-, hnd⟩ := nodup_cons.1 hnd
      obtain ⟨hndk, hndn, hkn⟩ := nodup_append.1 hnd
      rw [Siblings.addSibling, if_neg hroots]
      rcases mem_append.1 ((mem_cons.1 hb).resolve_left fun e => hroots (e ▸ mem_cons_self))
        with hk | hn
      · obtain ⟨l, hbl, hl⟩ := ihk hndk hk
        rw [addSibling_of_notMem fun hn => hkn b hk b hn rfl]
        exact ⟨l, hbl, hl.down⟩
      · obtain ⟨l, hbl, hl⟩ := ihn hndn hn
        have hbn : b ∉ n.roots := fun h => hroots (mem_cons_of_mem _ h)
        rw [addSibling_of_notMem fun hk => hkn b hk b hn rfl]
        refine ⟨l, hbl, hl.along (roots_addSibling_of_notMem hbn) ?_⟩
        obtain ⟨L, h1, -⟩ := hl
        rcases mem_cons.1 (h1.mem_iff.2 mem_cons_self) with rfl | h
        · exact absurd hbl hbn
        · exact h

theorem children_of_notMem (h : a ∉ t.addrs) : t.children a = [] := by
  induction t with
  | null => rfl
  | node c k n ihk ihn =>
    rw [children, if_neg fun e : c = a => h (e ▸ mem_cons_self),
      ihk fun hb => h (mem_cons_of_mem _ (mem_append_left _ hb)),
      ihn fun hb => h (mem_cons_of_mem _ (mem_append_right _ hb))]
    rfl

theorem children_mem (hnd : t.addrs.Nodup) (ha : a ∈ t.addrs) : t.children a ∈ t.deeper := by
  induction t with
  | null => exact absurd ha not_mem_nil
  | node c k n ihk ihn =>
    obtain ⟨-, hnd⟩ := nodup_cons.1 hnd
    obtain ⟨hndk, hndn, hkn⟩ := nodup_append.1 hnd
    rw [children, deeper]
    by_cases hca : c = a
    · rw [if_pos hca]
      exact mem_cons_self
    rw [if_neg hca]
    apply mem_cons_of_mem
    rcases mem_append.1 ((mem_cons.1 ha).resolve_left fun e => hca e.symm) with hk | hn
    · rw [children_of_notMem fun hn => hkn a hk a hn rfl, append_nil]
      exact mem_append_left _ (ihk hndk hk)
    · rw [children_of_notMem fun hk => hkn a hk a hn rfl, nil_append]
      exact mem_append_right _ (ihn hndn hn)

theorem grew_addChild (hnd : t.addrs.Nodup) (ha : a ∈ t.addrs) :
    Grew t (t.addChild a x) (t.children a) x := by
  induction t with
  | null => exact absurd ha not_mem_nil
  | node c k n ihk ihn =>
    obtain ⟨hc, hnd⟩ := nodup_cons.1 hnd
    obtain ⟨hndk, hndn, hkn⟩ := nodup_append.1 hnd
    rw [addChild, children]
    by_cases hca : c = a
    · subst hca
      rw [if_pos rfl, if_pos rfl, addChild_of_notMem fun h => hc (mem_append_right _ h)]
      exact grew_append.down
    rw [if_neg hca, if_neg hca]
    rcases mem_append.1 ((mem_cons.1 ha).resolve_left fun e => hca e.symm) with hk | hn
    · have hn : a ∉ n.addrs := fun hn => hkn a hk a hn rfl
      rw [addChild_of_notMem hn, children_of_notMem hn, append_nil]
      exact (ihk hndk hk).down
    · have hk : a ∉ k.addrs := fun hk => hkn a hk a hn rfl
      rw [addChild_of_notMem hk, children_of_notMem hk, nil_append]
      exact (ihn hndn hn).along roots_addChild (children_mem hndn hn)

theorem flatten_lists : t.lists.flatten.Perm t.addrs := by
  induction t with
  | null => exact List.Perm.refl _
  | node a k n ihk ihn =>
    rw [lists_node, List.flatten_cons, flatten_append, addrs, cons_append]
    refine Perm.cons _ ?_
    rw [← append_assoc]
    refine (perm_append_comm.append_right _).trans ?_
    rw [append_assoc]
    exact ihk.append ihn

theorem addrs_of_visit {t' : Siblings} (h : ∃ i, (t'.visit level).Perm ((x, i) :: t.visit level)) :
    t'.addrs.Perm (x :: t.addrs) := by
  obtain ⟨i, hi⟩ := h
  have hleft : (t'.visit level).map Prod.fst = t'.addrs := visit_addrs
  have hright : (t.visit level).map Prod.fst = t.addrs := visit_addrs
  rw [← hleft, ← hright]
  exact hi.map Prod.fst

theorem spine_sublist : (t.spine level).Sublist (t.visit level) := by
  induction t generalizing level with
  | null => exact Sublist.refl _
  | node a k n ihk ihn => exact (ihk.trans (sublist_append_left _ _)).cons_cons _

theorem children_subset (h : y ∈ t.children a) : y ∈ t.addrs := by
  induction t with
  | null => exact absurd h not_mem_nil
  | node c k n ihk ihn =>
    rw [children] at h
    apply mem_cons_of_mem
    split_ifs at h with hca
    · exact mem_append_left _ (roots_subset h)
    · exact mem_append.2 ((mem_append.1 h).imp ihk ihn)

/-- **An object comes in behind the last child of another.** -/
theorem Linked.addChild (h : Linked kids next m m' y x) (ht : Of kids next m p t) (hnd : t.addrs.Nodup)
    (hx : x ∉ t.addrs) (hy : y ∈ t.children a) : Of kids next m' p (t.addChild a x) := by
  induction t generalizing p with
  | null => exact absurd hy not_mem_nil
  | node c k n ihk ihn =>
    obtain ⟨rfl, d, hd, hk, hn⟩ := ht
    obtain ⟨hc, hnd⟩ := nodup_cons.1 hnd
    obtain ⟨hndk, hndn, hkn⟩ := nodup_append.1 hnd
    have hxk : x ∉ k.addrs := fun h => hx (mem_cons_of_mem _ (mem_append_left _ h))
    have hxn : x ∉ n.addrs := fun h => hx (mem_cons_of_mem _ (mem_append_right _ h))
    have hyc : y ∈ k.addrs ∨ y ∈ n.addrs := by
      rw [children] at hy
      split_ifs at hy with hca
      · exact .inl (roots_subset hy)
      · exact (mem_append.1 hy).imp children_subset children_subset
    obtain ⟨d', hd', ek, en⟩ := h.others c (fun e => hc (e ▸ mem_append.2 hyc))
      (fun e => hx (e ▸ mem_cons_self)) d hd
    rw [Siblings.addChild]
    rw [children] at hy
    refine ⟨rfl, d', hd', ?_⟩
    rw [ek, en]
    by_cases hca : c = a
    · rw [if_pos hca] at hy ⊢
      subst hca
      have hyk := roots_subset hy
      rw [addChild_of_notMem fun h => hc (mem_append_right _ h)]
      exact ⟨h.append hk hndk hxk hy, h.keep hn (fun hy => hkn y hyk y hy rfl) hxn⟩
    rw [if_neg hca] at hy ⊢
    rcases mem_append.1 hy with hy | hy
    · have hyk := children_subset hy
      have ha : a ∈ k.addrs := by
        by_contra ha
        rw [children_of_notMem ha] at hy
        exact absurd hy not_mem_nil
      rw [addChild_of_notMem fun hn => hkn a ha a hn rfl]
      exact ⟨ihk hk hndk hxk hy, h.keep hn (fun hy => hkn y hyk y hy rfl) hxn⟩
    · have hyn := children_subset hy
      have ha : a ∈ n.addrs := by
        by_contra ha
        rw [children_of_notMem ha] at hy
        exact absurd hy not_mem_nil
      rw [addChild_of_notMem fun hk => hkn a hk a ha rfl]
      exact ⟨h.keep hk (fun hy => hkn y hy y hyn rfl) hxk, ihn hn hndn hxn hy⟩

theorem Of.child {c : α} (h : Of kids next m p t) (hnd : t.addrs.Nodup) (ha : a ∈ t.addrs)
    (hc : m.get a = some c) (hb : kids c = some b) : b ∈ t.children a := by
  induction t generalizing p with
  | null => exact absurd ha not_mem_nil
  | node c' k n ihk ihn =>
    obtain ⟨-, d, hd, hk, hn⟩ := h
    obtain ⟨-, hnd⟩ := nodup_cons.1 hnd
    obtain ⟨hndk, hndn, hkn⟩ := nodup_append.1 hnd
    rw [children]
    by_cases hca : c' = a
    · rw [if_pos hca]
      subst hca
      obtain rfl := some.inj (hc.symm.trans hd)
      rw [hb] at hk
      cases k with
      | null => exact absurd hk (by simp [Of])
      | node a' k' n' =>
        obtain rfl := some.inj hk.1
        exact mem_cons_self
    rw [if_neg hca]
    rcases mem_append.1 ((mem_cons.1 ha).resolve_left fun e => hca e.symm) with h | h
    · exact mem_append_left _ (ihk hk hndk h)
    · exact mem_append_right _ (ihn hn hndn h)

end Siblings

end OpenSips.Lib
