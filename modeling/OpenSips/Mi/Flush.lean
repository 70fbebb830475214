import Mathlib.Data.List.Perm.Subperm
import OpenSips.Lib.Machine
import OpenSips.Lib.Siblings
import OpenSips.Mi.Tree

/-!
# OpenSips.Mi.Flush — no node is lost (`mi/tree.c`, `mi_stream/mi_writer.c`)

A handler adds nodes and flushes in any order, and `mi_write_tree` writes what is left.  The record of
what was added where is compared with what the pointers lead to and with the lines that were written.
-/

namespace OpenSips.Mi.Tree

open Lib Siblings List Option

/-- What `p` leads to; the fuel bounds its depth. -/
def read_tree (m : MiHeap) : ℕ → Option ℕ → Option MiTree
  | 0, _ => none
  | _ + 1, none => some .null
  | fuel + 1, some a => do
    let x ← m.get a
    let k ← read_tree m fuel x.kids
    let n ← read_tree m fuel x.next
    return .node x.toMiNode k n

/-- The reply as `mi_write_tree` gets it. -/
def MiReply.tree (t : MiReply) : Option MiRoot := do
  let x ← t.heap.get t.root
  let k ← read_tree t.heap (t.heap.fresh + 1) x.kids
  return { code := t.code, reason := t.reason, flags := x.flags, kids := k }

inductive Op where
  | add_mi_node_child (parent : ℕ) (c : NodeArgs)
  | add_mi_node_sibling (brother : ℕ) (c : NodeArgs)
  | mi_flush_tree (works : ℕ → Bool) (bytes : ℕ → UInt8)

/-- What comes of a call: a node, or what was handed to `mi_fifofd_reply`. -/
inductive Outcome where
  | node (new : Option ℕ)
  | blocks (bs : List Str)

def exec (indent : Option Str) (t : MiReply) : Op → Option (MiReply × Outcome)
  | .add_mi_node_child parent c => (add_mi_node_child t.heap parent c).map fun r =>
      ({ t with heap := r.1 }, .node r.2)
  | .add_mi_node_sibling brother c => (add_next t.heap brother c).map fun r =>
      ({ t with heap := r.1 }, .node r.2)
  | .mi_flush_tree works bytes => (mi_flush_tree works indent t bytes).map fun r =>
      ({ t with heap := r.1 }, .blocks r.2.1.blocks)

/-- The nodes in the order they were added and the tree they should make up; what was written. -/
structure Record where
  added : List ℕ
  nodes : Siblings
  output : List Str

def no_record : Record := ⟨[], .null, []⟩

/-- The record after a call. -/
def Record.note (t : MiReply) (g : Record) : Op → Outcome → Record
  | .add_mi_node_child parent _, .node (some x) =>
    { g with
      added := g.added ++ [x]
      nodes := if parent = t.root then g.nodes.append x else g.nodes.addChild parent x }
  | .add_mi_node_sibling brother _, .node (some x) =>
    { g with added := g.added ++ [x], nodes := g.nodes.addSibling brother x }
  | _, .blocks bs => { g with output := g.output ++ [bs.flatten] }
  | _, _ => g

/-- The nodes a call is about are there. -/
def Existing (t : MiReply) (g : Record) : Op → Prop
  | .add_mi_node_child parent _ => parent = t.root ∨ parent ∈ g.nodes.addrs
  | .add_mi_node_sibling brother _ => brother ∈ g.nodes.addrs
  | .mi_flush_tree _ _ => True

def Made (c : NodeArgs) : Prop := ¬ ((c.name = [] ∧ c.value = []) ∨ c.mem = false)

/-- `b->last->next` is `NULL`. -/
def LastKnown (m : MiHeap) (b : ℕ) : Prop :=
  ∃ x l, m.get b = some x ∧ m.get x.last = some l ∧ l.next = none

section Lines

variable (indent : Option Str) (m : MiHeap)

def line_of (p : ℕ × ℕ) : Str :=
  match m.get p.1 with
  | some x => node_line indent x.toMiNode p.2
  | none => []

/-- The node has `MI_WRITTEN`. -/
def written (a : ℕ) : Bool := (m.get a).any fun x => x.flags &&& MI_WRITTEN != 0

def text_of (l : List (ℕ × ℕ)) : Str := (l.map (line_of indent m)).flatten ++ [LF]

structure Passes (works : ℕ → Bool) (ls : List Str) : Prop where
  fit : ∀ l ∈ ls, l.length ≤ MAX_MI_FIFO_BUFFER
  taken : ∀ k < (pack ls).1, works k = true
  room : (pack ls).2 ≠ MAX_MI_FIFO_BUFFER

variable (nodes : Siblings) (level : ℕ)

def due_spine : List (ℕ × ℕ) := (nodes.spine level).filter fun q => !written m q.1

def due_nodes : List (ℕ × ℕ) := (nodes.visit level).filter fun q => !written m q.1

end Lines

/-- The calls that lose nothing: a node is added through a brother that knows the last one, it is not
flagged, and what is written is handed on. -/
def Sound (indent : Option Str) (t : MiReply) (g : Record) : Op → Prop
  | .add_mi_node_child parent c => Made c → c.flags &&& MI_NOT_COMPLETED = 0 ∧
      ∀ x, t.heap.get parent = some x → ∀ k, x.kids = some k → LastKnown t.heap k
  | .add_mi_node_sibling brother c => Made c → c.flags &&& MI_NOT_COMPLETED = 0 ∧ LastKnown t.heap brother
  | .mi_flush_tree works _ => Passes works ((due_spine t.heap g.nodes 0).map (line_of indent t.heap))

/-- No node is lost: all that were added are there, in order, and each line was written by a flush or is
written by `mi_write_tree`, not both. -/
structure Complete (indent : Option Str) (t : MiReply) (g : Record) : Prop where
  reachable : ∃ z, t.heap.get t.root = some z ∧ Of MiCell.kids MiCell.next t.heap z.kids g.nodes
  all : g.nodes.addrs.Perm g.added ∧ g.added.Nodup
  order : ∀ l ∈ g.nodes.lists, l.Sublist g.added
  written : ∃ (flushed : List (List (ℕ × ℕ))) (rest : List (ℕ × ℕ)) (tree : MiRoot),
    g.output = flushed.map (text_of indent t.heap) ∧ t.tree = some tree ∧
      (flushed.flatten ++ rest).Perm (g.nodes.visit 0) ∧ due indent tree = rest.map (line_of indent t.heap) ∧
      ∀ works bytes, Passes works (due indent tree) →
        (mi_write_tree works indent tree bytes).1.blocks.flatten = text_of indent t.heap rest

variable {m m' m'' : MiHeap} {a b x y : ℕ} {l l' : List ℕ} {c : NodeArgs} {z : MiCell} {nodes : Siblings}
  {p : Option ℕ} {level : ℕ}

section Adding

/-- A node was added; only `b` got a new `last`. -/
structure Extended (m m' : MiHeap) (c : NodeArgs) (b : Option ℕ) : Prop where
  old : ∀ a z, m.get a = some z → ∃ z', m'.get a = some z' ∧ z'.toMiNode = z.toMiNode ∧
    (z'.last = z.last ∨ b = some a ∧ z'.last = m.fresh)
  new : ∃ z, m'.get m.fresh = some z ∧ z.flags = c.flags ∧ z.last = m.fresh
  fresh : m'.fresh = m.fresh + 1
  valid : m.Valid → m'.Valid

theorem create_mi_node_spec (m : MiHeap) (c : NodeArgs) :
    ¬ Made c ∧ create_mi_node m c = (m, none) ∨ Made c ∧
      ∃ z, create_mi_node m c = (m.alloc z, some m.fresh) ∧ z.kids = none ∧ z.next = none ∧
        z.last = m.fresh ∧ z.flags = c.flags := by
  unfold create_mi_node
  split_ifs with h
  · exact .inl ⟨fun hm => hm h, rfl⟩
  · exact .inr ⟨h, _, rfl, rfl, rfl, rfl, rfl⟩

/-- **One more brother**, if the brother that is asked knows the last one. -/
theorem add_next_spec (hv : m.Valid) (hb : Made c → LastKnown m b) :
    ¬ Made c ∧ add_next m b c = some (m, none) ∨ Made c ∧
      ∃ z m', m.get b = some z ∧ add_next m b c = some (m', some m.fresh) ∧ Extended m m' c (some b) ∧
        Linked MiCell.kids MiCell.next m m' z.last m.fresh := by
  unfold add_next
  rcases create_mi_node_spec m c with ⟨hmade, h⟩ | ⟨hmade, new, h, hk, hn, hlast, hflags⟩
  · rw [h]
    exact .inl ⟨hmade, rfl⟩
  rw [h]
  obtain ⟨z, l, hb, hl, hnone⟩ := hb hmade
  refine .inr ⟨hmade, z, ?_⟩
  have hne : ∀ {a w}, m.get a = some w → a ≠ m.fresh := fun h => hv.ne_fresh h
  have hget : ∀ {a w}, m.get a = some w → (m.alloc new).get a = some w := fun h =>
    (Objects.get_alloc (hne h)).trans h
  obtain ⟨m₁, h₁, hf₁, hs₁, ho₁, hfresh₁⟩ :=
    Objects.set_spec (hget hl) { l with next := some m.fresh }
  obtain ⟨w, hw, hwnode, hwk, hwn⟩ : ∃ w, m₁.get b = some w ∧ w.toMiNode = z.toMiNode ∧ w.kids = z.kids ∧
      (b ≠ z.last → w.next = z.next) := by
    by_cases hbl : b = z.last
    · obtain rfl := some.inj (hb.symm.trans (hbl ▸ hl))
      exact ⟨_, (congrArg m₁.get hbl).trans hs₁, rfl, rfl, fun h => absurd hbl h⟩
    · exact ⟨z, (ho₁ b hbl).trans (hget hb), rfl, rfl, fun _ => rfl⟩
  obtain ⟨m₂, h₂, hf₂, hs₂, ho₂, hfresh₂⟩ := Objects.set_spec hw { w with last := m.fresh }
  have hnew : m₂.get m.fresh = some new := by
    rw [ho₂ _ (hne hb).symm, ho₁ _ (hne hl).symm, Objects.get_alloc_self]
  refine ⟨m₂, hb, ?_, ⟨fun a v hv => ?_, ⟨new, hnew, hflags, hlast⟩, by rw [hfresh₂, hfresh₁]; rfl, fun hv =>
    hf₂.valid (hf₁.valid ((Objects.frame_alloc [] m new).valid hv))⟩, fun a hay hax v hv => ?_, ?_,
    ⟨new, hnew, hk, hn⟩⟩
  · simp only [link_last, hget hb, hget hl, h₁, hw, h₂, bind_eq_bind, bind_some, map_some]
  · by_cases hab : a = b
    · subst hab
      obtain rfl := some.inj (hb.symm.trans hv)
      exact ⟨_, hs₂, hwnode, .inr ⟨rfl, rfl⟩⟩
    · rw [ho₂ a hab]
      by_cases hal : a = z.last
      · subst hal
        obtain rfl := some.inj (hl.symm.trans hv)
        exact ⟨_, hs₁, rfl, .inl rfl⟩
      · exact ⟨v, (ho₁ a hal).trans (hget hv), rfl, .inl rfl⟩
  · by_cases hab : a = b
    · subst hab
      obtain rfl := some.inj (hb.symm.trans hv)
      exact ⟨_, hs₂, hwk, hwn hay⟩
    · exact ⟨v, (ho₂ a hab).trans ((ho₁ a hay).trans (hget hv)), rfl, rfl⟩
  · by_cases hbl : b = z.last
    · rw [← hbl]
      obtain rfl := some.inj (hb.symm.trans (hbl ▸ hl))
      rw [hbl] at hw
      obtain rfl := some.inj (hs₁.symm.trans hw)
      exact ⟨z, _, hb, hnone, hs₂, rfl, rfl⟩
    · refine ⟨l, _, hl, hnone, (ho₂ _ fun e => hbl e.symm).trans hs₁, rfl, rfl⟩

/-- **A first kid.** -/
theorem add_first_spec (hv : m.Valid) (ha : m.get a = some z) (hk : z.kids = none) (c : NodeArgs) :
    ¬ Made c ∧ add_mi_node_child m a c = some (m, none) ∨ Made c ∧
      ∃ m', add_mi_node_child m a c = some (m', some m.fresh) ∧ Extended m m' c none ∧
        Begun MiCell.kids MiCell.next m m' a m.fresh := by
  unfold add_mi_node_child
  rw [ha, bind_eq_bind, bind_some, hk]
  rcases create_mi_node_spec m c with ⟨hmade, h⟩ | ⟨hmade, new, h, hnk, hnn, hlast, hflags⟩
  · -- `parent->kids` is set to `NULL` once more
    obtain ⟨m₁, h₁, -, hs₁, ho₁, hfresh₁⟩ := Objects.set_spec ha { z with kids := none }
    have hsame : m₁ = m := by
      obtain ⟨get₁, fresh₁⟩ := m₁
      obtain ⟨get, fresh⟩ := m
      obtain rfl : fresh₁ = fresh := hfresh₁
      obtain rfl : get₁ = get := by
        ext1 i
        by_cases hi : i = a
        · rw [hi]
          refine hs₁.trans (Eq.trans ?_ ha.symm)
          rw [← hk]
        · exact ho₁ i hi
      rfl
    rw [h]
    refine .inl ⟨hmade, ?_⟩
    simp only [ha, h₁, hsame, bind_eq_bind, bind_some, Option.pure_def]
  · rw [h]
    refine .inr ⟨hmade, ?_⟩
    have hne : ∀ {a w}, m.get a = some w → a ≠ m.fresh := fun h => hv.ne_fresh h
    have hget : ∀ {a w}, m.get a = some w → (m.alloc new).get a = some w := fun h =>
      (Objects.get_alloc (hne h)).trans h
    obtain ⟨m₁, h₁, hf₁, hs₁, ho₁, hfresh₁⟩ :=
      Objects.set_spec (hget ha) { z with kids := some m.fresh }
    have hnew : m₁.get m.fresh = some new := by
      rw [ho₁ _ (hne ha).symm, Objects.get_alloc_self]
    refine ⟨m₁, ?_, ⟨fun b v hv => ?_, ⟨new, hnew, hflags, hlast⟩, hfresh₁, fun hv =>
      hf₁.valid ((Objects.frame_alloc [] m new).valid hv)⟩, fun b hba hbx v hv => ?_,
      ⟨z, _, ha, hk, hs₁, rfl, rfl⟩, ⟨new, hnew, hnk, hnn⟩⟩
    · simp only [hget ha, h₁, bind_eq_bind, bind_some, Option.pure_def]
    · by_cases hba : b = a
      · subst hba
        obtain rfl := some.inj (ha.symm.trans hv)
        exact ⟨_, hs₁, rfl, .inl rfl⟩
      · exact ⟨v, (ho₁ b hba).trans (hget hv), rfl, .inl rfl⟩
    · exact ⟨v, (ho₁ b hba).trans (hget hv), rfl, rfl⟩

theorem add_further (ha : m.get a = some z) (hk : z.kids = some b) (c : NodeArgs) :
    add_mi_node_child m a c = add_next m b c := by
  unfold add_mi_node_child
  rw [ha, bind_eq_bind, bind_some, hk]

end Adding

structure Inv (indent : Option Str) (t : MiReply) (g : Record) : Prop where
  valid : t.heap.Valid
  root : ∃ z, t.heap.get t.root = some z ∧ z.flags &&& MI_WRITTEN ≠ 0 ∧
    Of MiCell.kids MiCell.next t.heap z.kids g.nodes
  outside : t.root ∉ g.nodes.addrs
  nodup : g.nodes.addrs.Nodup
  all : g.nodes.addrs.Perm g.added
  order : ∀ l ∈ g.nodes.lists, l.Sublist g.added
  cached : ∀ l ∈ g.nodes.lists, ∀ a ∈ l, ∀ z, t.heap.get a = some z → z.last ∈ l
  output : ∃ flushed : List (List (ℕ × ℕ)), g.output = flushed.map (text_of indent t.heap) ∧
    flushed.flatten.Perm ((g.nodes.visit 0).filter fun p => written t.heap p.1)

section Growth

variable {indent : Option Str} {t : MiReply} {g : Record}

theorem Inv.live (h : Inv indent t g) (ha : a ∈ g.nodes.addrs) : ∃ z, t.heap.get a = some z := by
  obtain ⟨z, -, -, hof⟩ := h.root
  exact hof.live ha

theorem Inv.not_fresh (h : Inv indent t g) : t.heap.fresh ∉ g.nodes.addrs := by
  intro hx
  obtain ⟨z, hz⟩ := h.live hx
  exact h.valid.ne_fresh hz rfl

theorem Extended.line_of (h : Extended m m' c p) {q : ℕ × ℕ} (hz : m.get q.1 = some z) :
    line_of indent m' q = line_of indent m q := by
  obtain ⟨z', hz', hnode, -⟩ := h.old q.1 z hz
  rw [Tree.line_of, Tree.line_of, hz, hz']
  exact congrArg (fun n => node_line indent n q.2) hnode

theorem Extended.written (h : Extended m m' c p) (hz : m.get a = some z) : written m' a = written m a := by
  obtain ⟨z', hz', hnode, -⟩ := h.old a z hz
  rw [Tree.written, Tree.written, hz, hz', any_some, any_some, hnode]

theorem mem_visit {q : ℕ × ℕ} (h : q ∈ nodes.visit level) : q.1 ∈ nodes.addrs := by
  have haddrs : (nodes.visit level).map Prod.fst = nodes.addrs := visit_addrs
  rw [← haddrs]
  exact List.mem_map_of_mem h

/-- **A node more.** -/
theorem Inv.grow (h : Inv indent t g) (he : Extended t.heap m' c p) (hc : c.flags &&& MI_NOT_COMPLETED = 0)
    (hg : Grew g.nodes nodes l t.heap.fresh) (hp : ∀ a, p = some a → a ∈ l)
    (hvisit : ∃ i, (nodes.visit 0).Perm ((t.heap.fresh, i) :: g.nodes.visit 0))
    (hroot : ∃ z, m'.get t.root = some z ∧ z.flags &&& MI_WRITTEN ≠ 0 ∧
      Of MiCell.kids MiCell.next m' z.kids nodes) :
    Inv indent { t with heap := m' } { g with added := g.added ++ [t.heap.fresh], nodes := nodes } := by
  have haddrs := addrs_of_visit hvisit
  obtain ⟨i, hi⟩ := hvisit
  obtain ⟨L, h1, h2⟩ := hg
  obtain ⟨new, hnew, hflags, hlast⟩ := he.new
  have hnd : (l :: L).flatten.Nodup := (h1.flatten.symm.trans flatten_lists).nodup_iff.2 h.nodup
  refine ⟨he.valid h.valid, hroot, ?_, ?_, ?_, ?_, ?_, ?_⟩
  · intro hr
    rcases mem_cons.1 (haddrs.mem_iff.1 hr) with e | hr
    · obtain ⟨z, hz, -⟩ := h.root
      exact h.valid.ne_fresh hz e
    · exact h.outside hr
  · exact haddrs.nodup_iff.2 (nodup_cons.2 ⟨h.not_fresh, h.nodup⟩)
  · exact haddrs.trans ((Perm.cons _ h.all).trans (perm_append_singleton _ _).symm)
  · intro k hk
    rcases mem_cons.1 (h2.mem_iff.1 hk) with rfl | hk
    · exact (h.order l (h1.mem_iff.2 mem_cons_self)).append (Sublist.refl _)
    · rcases mem_cons.1 hk with rfl | hk
      · exact nil_sublist _
      · exact (h.order k (h1.mem_iff.2 (mem_cons_of_mem _ hk))).trans (sublist_append_left _ _)
  · intro k hk a ha z' hz'
    have hold : ∀ k ∈ l :: L, a ∈ k → z'.last ∈ k ∨ p = some a ∧ z'.last = t.heap.fresh := fun k hk ha => by
      have hk := h1.mem_iff.2 hk
      obtain ⟨z, hz⟩ := h.live (lists_subset hk ha)
      obtain ⟨w, hw, -, hor⟩ := he.old a z hz
      obtain rfl := some.inj (hw.symm.trans hz')
      refine hor.imp_left fun e => ?_
      rw [e]
      exact h.cached k hk a ha z hz
    rcases mem_cons.1 (h2.mem_iff.1 hk) with rfl | hk
    · rcases mem_append.1 ha with ha | ha
      · rcases hold l mem_cons_self ha with h | ⟨-, e⟩
        · exact mem_append_left _ h
        · exact mem_append_right _ (mem_singleton.2 e)
      · rw [mem_singleton.1 ha] at hz'
        obtain rfl := some.inj (hnew.symm.trans hz')
        exact mem_append_right _ (mem_singleton.2 hlast)
    · rcases mem_cons.1 hk with rfl | hk
      · exact absurd ha not_mem_nil
      · rcases hold k (mem_cons_of_mem _ hk) ha with h | ⟨e, -⟩
        · exact h
        · rw [List.flatten_cons] at hnd
          exact absurd rfl ((nodup_append.1 hnd).2.2 a (hp a e) a (mem_flatten.2 ⟨k, hk, ha⟩))
  · obtain ⟨flushed, hout, hperm⟩ := h.output
    have hlive : ∀ q ∈ g.nodes.visit 0, ∃ z, t.heap.get q.1 = some z := fun q hq => h.live (mem_visit hq)
    refine ⟨flushed, hout.trans (map_congr_left fun k hk => ?_), hperm.trans ?_⟩
    · rw [text_of, text_of]
      congr 2
      refine map_congr_left fun q hq => ?_
      have hq := mem_of_mem_filter (hperm.mem_iff.1 (mem_flatten.2 ⟨k, hk, hq⟩))
      obtain ⟨z, hz⟩ := hlive q hq
      exact (he.line_of hz).symm
    · have hn : written m' t.heap.fresh = false := by
        rw [written, hnew, any_some, hflags, show MI_WRITTEN = MI_NOT_COMPLETED from rfl, hc]
        rfl
      refine Perm.trans ?_ (hi.filter _).symm
      rw [filter_cons_of_neg (by rw [hn]; exact Bool.false_ne_true)]
      rw [filter_congr fun q hq => ?_]
      obtain ⟨z, hz⟩ := hlive q hq
      exact (he.written hz).symm

end Growth

section Flushing

variable {works : ℕ → Bool} {indent : Option Str} {w : Writer} {text : Str} {at_ : ℕ × ℕ}

/-- The nodes `l` got `MI_WRITTEN`. -/
structure Marked (m m' : MiHeap) (l : List ℕ) : Prop where
  others : ∀ a ∉ l, m'.get a = m.get a
  marked : ∀ a ∈ l, ∃ z f, m.get a = some z ∧ m'.get a = some { z with flags := f } ∧ f &&& MI_WRITTEN ≠ 0
  fresh : m'.fresh = m.fresh

theorem Marked.trans (h : Marked m m' l) (h' : Marked m' m'' l') (hd : l.Disjoint l') :
    Marked m m'' (l ++ l') := by
  refine ⟨fun a ha => ?_, fun a ha => ?_, h'.fresh.trans h.fresh⟩
  · rw [mem_append, not_or] at ha
    rw [h'.others a ha.2, h.others a ha.1]
  · rcases mem_append.1 ha with ha | ha
    · rw [h'.others a fun ha' => hd ha ha']
      exact h.marked a ha
    · rw [← h.others a fun ha' => hd ha' ha]
      exact h'.marked a ha

theorem Marked.of (h : Marked m m' l) (ht : Of MiCell.kids MiCell.next m p nodes) :
    Of MiCell.kids MiCell.next m' p nodes := by
  refine ht.congr fun a _ z hz => ?_
  by_cases ha : a ∈ l
  · obtain ⟨v, f, hv, hv', -⟩ := h.marked a ha
    obtain rfl := some.inj (hv.symm.trans hz)
    exact ⟨_, hv', rfl, rfl⟩
  · exact ⟨z, (h.others a ha).trans hz, rfl, rfl⟩

/-- What was due before and is not in `l` is still due. -/
theorem Marked.written (h : Marked m m' l) : written m' a = (written m a || decide (a ∈ l)) := by
  by_cases ha : a ∈ l
  · obtain ⟨z, f, -, hz', hf⟩ := h.marked a ha
    rw [decide_eq_true ha, Bool.or_true, Tree.written, hz', any_some]
    exact bne_iff_ne.2 hf
  · rw [decide_eq_false ha, Bool.or_false, Tree.written, Tree.written, h.others a ha]

theorem Marked.line_of (h : Marked m m' l) (q : ℕ × ℕ) : line_of indent m' q = line_of indent m q := by
  rw [Tree.line_of, Tree.line_of]
  by_cases ha : q.1 ∈ l
  · obtain ⟨z, f, hz, hz', -⟩ := h.marked q.1 ha
    rw [hz, hz']
    rfl
  · rw [h.others q.1 ha]

theorem mark_written_spec (hz : m.get a = some z) :
    ∃ m', mark_written m a = some m' ∧ Marked m m' [a] := by
  obtain ⟨m', h', -, hs, ho, hfresh⟩ := Objects.set_spec hz { z with flags := z.flags ||| MI_WRITTEN }
  have hor : (z.flags ||| MI_WRITTEN) &&& MI_WRITTEN ≠ 0 := by
    have hbits : (z.flags ||| MI_WRITTEN) &&& MI_WRITTEN = MI_WRITTEN := by
      apply UInt32.toBitVec_inj.1
      ext i hi
      simpa using fun h => .inr h
    rw [hbits]
    decide
  refine ⟨m', ?_, fun b hb => ho b fun e => hb (mem_singleton.2 e), fun b hb => ?_, hfresh⟩
  · simp only [mark_written, hz, h', bind_eq_bind, bind_some]
  · obtain rfl := mem_singleton.1 hb
    exact ⟨z, _, hz, hs, hor⟩

theorem due_spine_congr (h : ∀ q ∈ nodes.spine level, written m' q.1 = written m q.1) :
    due_spine m' nodes level = due_spine m nodes level :=
  filter_congr fun q hq => by rw [h q hq]

theorem mem_spine {q : ℕ × ℕ} (h : q ∈ nodes.spine level) : q.1 ∈ nodes.addrs :=
  mem_visit (spine_sublist.subset h)

/-- **The loop of a flush** writes what is due down to the first leaf, and stops there: a node that was
written has `MI_WRITTEN`, and so it is not complete. -/
theorem recur_flush_tree_spec {fuel : ℕ} (tree : ℕ) (ht : Of MiCell.kids MiCell.next m p nodes)
    (hnd : nodes.addrs.Nodup) (hfuel : (nodes.spine level).length < fuel) (hw : Holds w text at_)
    (hl : ∀ l ∈ (due_spine m nodes level).map (line_of indent m), l.length ≤ MAX_MI_FIFO_BUFFER)
    (htaken : Taken works at_.1 (((due_spine m nodes level).map (line_of indent m)).foldl stow at_).1) :
    ∃ m' w' ret, recur_flush_tree works indent fuel m w tree p level = some (m', w', ret) ∧ 0 ≤ ret ∧
      Marked m m' ((nodes.spine level).map Prod.fst) ∧
      Holds w' (text ++ ((due_spine m nodes level).map (line_of indent m)).flatten)
        (((due_spine m nodes level).map (line_of indent m)).foldl stow at_) := by
  induction nodes generalizing m w text at_ level fuel tree p with
  | null =>
    obtain ⟨fuel, rfl⟩ := Nat.exists_eq_add_of_lt hfuel
    obtain rfl : p = none := ht
    refine ⟨m, w, 0, rfl, Int.le_refl _, ⟨fun _ _ => rfl, fun a ha => absurd ha not_mem_nil, rfl⟩, ?_⟩
    rw [show due_spine m null level = [] from rfl, map_nil, flatten_nil, append_nil]
    exact hw
  | node a k n ihk ihn =>
    obtain ⟨fuel, rfl⟩ : ∃ f, fuel = f + 1 := ⟨fuel - 1, by omega⟩
    obtain ⟨rfl, x, hx, hk, -⟩ := ht
    obtain ⟨ha, hnd⟩ := nodup_cons.1 hnd
    obtain ⟨hndk, -, -⟩ := nodup_append.1 hnd
    have hak : a ∉ k.addrs := fun h => ha (mem_append_left _ h)
    obtain ⟨m₁, hm₁, hmarked⟩ : ∃ m₁,
        (if x.flags &&& MI_WRITTEN = 0 then mark_written m a else some m) = some m₁ ∧ Marked m m₁ [a] := by
      split_ifs with hf
      · exact mark_written_spec hx
      · refine ⟨m, rfl, fun _ _ => rfl, fun b hb => ?_, rfl⟩
        obtain rfl := mem_singleton.1 hb
        exact ⟨x, x.flags, hx, hx, hf⟩
    have hline : line_of indent m₁ = line_of indent m := funext fun q => hmarked.line_of q
    have hls : (due_spine m (node a k n) level).map (line_of indent m) =
        (if x.flags &&& MI_WRITTEN = 0 then [node_line indent x.toMiNode level] else []) ++
          (due_spine m₁ k (level + 1)).map (line_of indent m₁) := by
      have hkids : due_spine m₁ k (level + 1) = due_spine m k (level + 1) := due_spine_congr fun q hq => by
        have hqa : q.1 ∉ [a] := fun e => hak (mem_singleton.1 e ▸ mem_spine hq)
        rw [hmarked.written, decide_eq_false hqa, Bool.or_false]
      have hwa : written m a = !decide (x.flags &&& MI_WRITTEN = 0) := by
        rw [Tree.written, hx, any_some]
        rfl
      rw [hkids, hline, due_spine, spine, filter_cons, hwa]
      split_ifs with h1 h2 h2
      · rw [map_cons, Tree.line_of, hx]
        rfl
      · exact absurd h1 (by simp [h2])
      · exact absurd h2 (by simpa using h1)
      · rfl
    rw [hls] at hl htaken
    obtain ⟨first, hfirst⟩ : ∃ first, first =
      (if x.flags &&& MI_WRITTEN = 0 then [node_line indent x.toMiNode level] else []) := ⟨_, rfl⟩
    obtain ⟨r, hr⟩ : ∃ r, r = (if x.flags &&& MI_WRITTEN = 0 then
      write_or_flush works indent x.toMiNode level w else (w, true)) := ⟨_, rfl⟩
    have hput : Put works text at_ first r := by
      rw [← hfirst] at hl
      rw [hfirst] at hl ⊢
      rw [hr]
      split_ifs at hl ⊢ with hf
      · exact put_node hw (hl _ mem_cons_self)
      · exact Put.refl hw
    rw [hls, ← hfirst]
    rw [← hfirst] at hl htaken
    rw [foldl_append] at htaken
    obtain ⟨hr2, hw₁⟩ := hput.done fun i h1 h2 => htaken i h1 (lt_of_lt_of_le h2 foldl_stow_le)
    rw [spine, length_cons] at hfuel
    obtain ⟨m₂, w₂, ret, heq, hret, hmarked₂, hw₂⟩ := ihk a (hmarked.of hk) hndk
      (Nat.lt_of_succ_lt_succ hfuel) hw₁ (fun l h => hl l (mem_append_right _ h)) fun i h1 h2 =>
        htaken i (le_trans foldl_stow_le h1) h2
    have hall : Marked m m₂ ((node a k n).spine level |>.map Prod.fst) := by
      refine hmarked.trans hmarked₂ fun b hb hb' => ?_
      obtain rfl := mem_singleton.1 hb
      obtain ⟨q, hq, rfl⟩ := List.mem_map.1 hb'
      exact hak (mem_spine hq)
    rw [flatten_append, ← append_assoc, foldl_append]
    have hjoin : ∀ f : MiHeap → Option (MiHeap × Writer × ℤ),
        (if x.flags &&& MI_WRITTEN = 0 then (mark_written m a).bind f else (some m).bind f) = f m₁ := by
      intro f
      split_ifs at hm₁ ⊢
      · rw [hm₁, bind_some]
      · rw [hm₁, bind_some]
    rw [recur_flush_tree, hx, bind_eq_bind, bind_some, ← hr]
    dsimp only [bind_eq_bind]
    rw [if_pos hr2, hjoin, heq, bind_some]
    rw [if_neg (not_lt.2 hret)]
    split_ifs with hpos
    · exact ⟨m₂, w₂, ret, rfl, hret, hall, hw₂⟩
    · -- a leaf: it was written just now
      obtain ⟨y, f, hy, hy', hf⟩ := hall.marked a mem_cons_self
      have hf : f &&& MI_NOT_COMPLETED ≠ 0 := hf
      rw [hy', bind_some]
      rw [if_neg hf]
      exact ⟨m₂, w₂, 1, rfl, by decide, hall, hw₂⟩

variable {t : MiReply} {g : Record} {bytes : ℕ → UInt8}

theorem Inv.nodup_visit (h : Inv indent t g) : (g.nodes.visit 0).Nodup :=
  Nodup.of_map Prod.fst (visit_addrs ▸ h.nodup)

theorem Inv.visit_unique (h : Inv indent t g) {q r : ℕ × ℕ} (hq : q ∈ g.nodes.visit 0)
    (hr : r ∈ g.nodes.visit 0) (he : q.1 = r.1) : q = r := by
  have hnd : ((g.nodes.visit 0).map Prod.fst).Nodup := visit_addrs ▸ h.nodup
  exact inj_on_of_nodup_map hnd hq hr he

theorem Inv.marked (h : Inv indent t g) (hm : Marked t.heap m' ((g.nodes.spine 0).map Prod.fst)) :
    Inv indent { t with heap := m' }
      { g with output := g.output ++ [text_of indent t.heap (due_spine t.heap g.nodes 0)] } := by
  have hline : line_of indent m' = line_of indent t.heap := funext fun q => hm.line_of q
  have hroot : t.root ∉ (g.nodes.spine 0).map Prod.fst := fun hr => by
    obtain ⟨q, hq, heq⟩ := List.mem_map.1 hr
    exact h.outside (heq ▸ mem_spine hq)
  have hback : ∀ a z, m'.get a = some z → ∃ y, t.heap.get a = some y ∧ y.last = z.last := fun a z hz => by
    by_cases ha : a ∈ (g.nodes.spine 0).map Prod.fst
    · obtain ⟨y, f, hy, hz', -⟩ := hm.marked a ha
      obtain rfl := some.inj (hz'.symm.trans hz)
      exact ⟨y, hy, rfl⟩
    · exact ⟨z, (hm.others a ha).symm.trans hz, rfl⟩
  refine ⟨fun a z hz => ?_, ?_, h.outside, h.nodup, h.all, h.order, fun l hl a ha z hz => ?_, ?_⟩
  · obtain ⟨y, hy, -⟩ := hback a z hz
    rw [hm.fresh]
    exact h.valid a y hy
  · obtain ⟨z, hz, hf, hof⟩ := h.root
    exact ⟨z, (hm.others _ hroot).trans hz, hf, hm.of hof⟩
  · obtain ⟨y, hy, he⟩ := hback a z hz
    exact he ▸ h.cached l hl a ha y hy
  · obtain ⟨flushed, hout, hperm⟩ := h.output
    refine ⟨flushed ++ [due_spine t.heap g.nodes 0], ?_, ?_⟩
    · have htext : text_of indent m' = text_of indent t.heap := by
        ext1 l
        rw [text_of, text_of, hline]
      rw [map_append, htext, ← hout]
      rfl
    · rw [flatten_append, flatten_singleton]
      have hsub : ∀ q ∈ due_spine t.heap g.nodes 0, q ∈ g.nodes.visit 0 := fun q hq =>
        spine_sublist.subset (mem_of_mem_filter hq)
      refine (perm_ext_iff_of_nodup ?_ (h.nodup_visit.filter _)).2 fun q => ?_
      · refine nodup_append.2 ⟨hperm.nodup_iff.2 (h.nodup_visit.filter _),
          (h.nodup_visit.sublist spine_sublist).filter _, fun q hq r hr he => ?_⟩
        subst he
        have h1 := (mem_filter.1 (hperm.mem_iff.1 hq)).2
        have h2 := (mem_filter.1 hr).2
        rw [h1] at h2
        exact absurd h2 Bool.false_ne_true
      · rw [mem_append, hperm.mem_iff, mem_filter, mem_filter, hm.written, Bool.or_eq_true,
          decide_eq_true_eq]
        constructor
        · rintro (⟨hq, hw⟩ | hq)
          · exact ⟨hq, .inl hw⟩
          · exact ⟨hsub q hq, .inr (List.mem_map_of_mem (mem_of_mem_filter hq))⟩
        · rintro ⟨hq, hw | hs⟩
          · exact .inl ⟨hq, hw⟩
          · obtain ⟨r, hr, he⟩ := List.mem_map.1 hs
            obtain rfl := h.visit_unique (spine_sublist.subset hr) hq he
            by_cases hw : written t.heap r.1 = true
            · exact .inl ⟨hq, hw⟩
            · exact .inr (mem_filter.2 ⟨hr, by rw [Bool.eq_false_iff.2 hw]; rfl⟩)

theorem Inv.length_lt (h : Inv indent t g) : (g.nodes.visit 0).length < t.heap.fresh + 1 := by
  rw [← length_map Prod.fst, visit_addrs]
  have hsub : g.nodes.addrs.Subperm (List.range t.heap.fresh) :=
    subperm_of_subset h.nodup fun a ha => by
      obtain ⟨z, hz⟩ := h.live ha
      exact mem_range.2 (h.valid a z hz)
  exact Nat.lt_succ_of_le (length_range (n := t.heap.fresh) ▸ hsub.length_le)

variable (bytes) in
/-- **A flush** writes what is due down to the first leaf. -/
theorem Inv.flush (h : Inv indent t g)
    (hpass : Passes works ((due_spine t.heap g.nodes 0).map (line_of indent t.heap))) :
    ∃ m' w ok, mi_flush_tree works indent t bytes = some (m', w, ok) ∧
      w.blocks.flatten = text_of indent t.heap (due_spine t.heap g.nodes 0) ∧
      Marked t.heap m' ((g.nodes.spine 0).map Prod.fst) := by
  obtain ⟨x, hx, hf, hof⟩ := h.root
  have hstart : Holds (start bytes) [] (0, 0) := ⟨rfl, rfl, rfl, Int.zero_add _, Nat.zero_le _, Nat.zero_le _⟩
  have hspine : (g.nodes.spine 0).Sublist (g.nodes.visit 0) := spine_sublist
  have hfuel := Nat.lt_of_le_of_lt (hspine.length_le) h.length_lt
  obtain ⟨m', w, ret, heq, hret, hm, hw⟩ := recur_flush_tree_spec t.root hof h.nodup hfuel hstart hpass.fit
    fun k _ hk => hpass.taken k hk
  obtain ⟨-, hblocks⟩ := write_end_room works hw hpass.room
  refine ⟨m', (write_end works w).1, (write_end works w).2, ?_, hblocks, hm⟩
  simp only [mi_flush_tree, hx, hf, heq, bind_eq_bind, bind_some, if_true, if_false,
    if_neg (not_lt.2 hret), Option.pure_def]

end Flushing

section Runs

variable {works : ℕ → Bool} {indent : Option Str} {t : MiReply} {g : Record} {parent brother : ℕ}

theorem Inv.root_ne_fresh (h : Inv indent t g) : t.root ≠ t.heap.fresh := by
  obtain ⟨z, hz, -⟩ := h.root
  exact h.valid.ne_fresh hz

theorem Inv.keep_root (h : Inv indent t g) (he : Extended t.heap m' c p)
    (hlinks : ∀ z, t.heap.get t.root = some z → ∃ z', m'.get t.root = some z' ∧ z'.kids = z.kids)
    (hof : ∀ q, Of MiCell.kids MiCell.next t.heap q g.nodes → Of MiCell.kids MiCell.next m' q nodes) :
    ∃ z, m'.get t.root = some z ∧ z.flags &&& MI_WRITTEN ≠ 0 ∧ Of MiCell.kids MiCell.next m' z.kids nodes := by
  obtain ⟨z, hz, hf, hroot⟩ := h.root
  obtain ⟨z', hz', hnode, -⟩ := he.old _ z hz
  obtain ⟨w, hw, hk⟩ := hlinks z hz
  obtain rfl := some.inj (hz'.symm.trans hw)
  exact ⟨z', hz', (congrArg MiNode.flags hnode).symm ▸ hf, hk ▸ hof _ hroot⟩

theorem Inv.sibling (h : Inv indent t g) (hb : brother ∈ g.nodes.addrs)
    (hs : Made c → c.flags &&& MI_NOT_COMPLETED = 0 ∧ LastKnown t.heap brother) :
    ∃ m' r, add_next t.heap brother c = some (m', r) ∧ Inv indent { t with heap := m' }
      (g.note t (.add_mi_node_sibling brother c) (.node r)) := by
  rcases add_next_spec h.valid fun hm => (hs hm).2 with ⟨-, he⟩ | ⟨hm, z, m', hz, he, hext, hlink⟩
  · exact ⟨t.heap, none, he, h⟩
  · obtain ⟨l, hbl, hg⟩ := grew_addSibling (x := t.heap.fresh) h.nodup hb
    have hlast : ∀ l ∈ g.nodes.lists, brother ∈ l → z.last ∈ l := fun l hl hbl => h.cached l hl _ hbl z hz
    have hmem : l ∈ g.nodes.lists := by
      obtain ⟨L, h1, -⟩ := hg
      exact h1.mem_iff.2 mem_cons_self
    have hroot : t.root ≠ z.last := fun e => h.outside (e ▸ lists_subset hmem (hlast l hmem hbl))
    refine ⟨m', _, he, h.grow hext (hs hm).1 hg (fun a ha => some.inj ha ▸ hbl)
      (visit_addSibling h.nodup hb) (h.keep_root hext (fun v hv => ?_) fun q hq => ?_)⟩
    · obtain ⟨v', hv', hk, -⟩ := hlink.others _ hroot h.root_ne_fresh v hv
      exact ⟨v', hv', hk⟩
    · exact hlink.addSibling hq h.nodup h.not_fresh hb hlast

theorem Inv.first (h : Inv indent t g) (hp : parent = t.root ∨ parent ∈ g.nodes.addrs)
    (hz : t.heap.get parent = some z) (hk : z.kids = none) :
    ∃ m' r, add_mi_node_child t.heap parent c = some (m', r) ∧
      (Made c → c.flags &&& MI_NOT_COMPLETED = 0 → Inv indent { t with heap := m' }
        (g.note t (.add_mi_node_child parent c) (.node r))) ∧ (¬ Made c → m' = t.heap ∧ r = none) := by
  rcases add_first_spec h.valid hz hk c with ⟨hm, he⟩ | ⟨hm, m', he, hext, hbegun⟩
  · exact ⟨t.heap, none, he, fun hmade => absurd hmade hm, fun _ => ⟨rfl, rfl⟩⟩
  refine ⟨m', _, he, fun _ hc => ?_, fun hnot => absurd hm hnot⟩
  unfold Record.note
  dsimp only
  by_cases hroot : parent = t.root
  · rw [if_pos hroot]
    refine h.grow hext hc grew_append (fun a ha => absurd ha (by simp)) ⟨0, visit_append⟩ ?_
    obtain ⟨x, hx, hf, hof⟩ := h.root
    rw [hroot] at hz hbegun
    obtain rfl := some.inj (hz.symm.trans hx)
    rw [hk] at hof
    obtain ⟨d, d', hd, -, hd', ek, -⟩ := hbegun.parent
    obtain rfl := some.inj (hz.symm.trans hd)
    obtain ⟨v, hv, hnode, -⟩ := hext.old _ z hz
    obtain rfl := some.inj (hd'.symm.trans hv)
    obtain ⟨e, he, h1, h2⟩ := hbegun.new
    refine ⟨d', hd', (congrArg MiNode.flags hnode).symm ▸ hf, ?_⟩
    rw [ek]
    cases hnodes : g.nodes with
    | null => exact ⟨rfl, e, he, h1, h2⟩
    | node b k n =>
      rw [hnodes] at hof
      exact absurd hof.1 (by simp)
  · rw [if_neg hroot]
    have hmem := hp.resolve_left hroot
    refine h.grow hext hc (grew_addChild h.nodup hmem) (fun a ha => absurd ha (by simp))
      (visit_addChild h.nodup hmem) (h.keep_root hext (fun v hv => ?_) fun q hq => ?_)
    · obtain ⟨v', hv', hk, -⟩ := hbegun.others _ (fun e => hroot e.symm) h.root_ne_fresh v hv
      exact ⟨v', hv', hk⟩
    · exact hbegun.addChild hq h.nodup h.not_fresh

theorem of_some {k : ℕ} (h : Of MiCell.kids MiCell.next m (some k) nodes) : k ∈ nodes.roots := by
  cases nodes with
  | null => exact absurd h (by simp [Of])
  | node b k' n =>
    obtain rfl := some.inj h.1
    exact mem_cons_self

theorem Inv.further {k : ℕ} (h : Inv indent t g) (hp : parent = t.root ∨ parent ∈ g.nodes.addrs)
    (hx : t.heap.get parent = some z) (hk : z.kids = some k) {y : MiCell} (hy : t.heap.get k = some y)
    (hext : Extended t.heap m' c (some k)) (hc : c.flags &&& MI_NOT_COMPLETED = 0)
    (hlink : Linked MiCell.kids MiCell.next t.heap m' y.last t.heap.fresh) :
    Inv indent { t with heap := m' } (g.note t (.add_mi_node_child parent c) (.node (some t.heap.fresh))) := by
  unfold Record.note
  dsimp only
  have hkeep : ∀ l ∈ g.nodes.lists, k ∈ l → y.last ∈ l ∧ ∀ z, t.heap.get t.root = some z →
      ∃ z', m'.get t.root = some z' ∧ z'.kids = z.kids := fun l hl hkl => by
    have hlast := h.cached l hl k hkl y hy
    refine ⟨hlast, fun v hv => ?_⟩
    have hne : t.root ≠ y.last := fun e => h.outside (e ▸ lists_subset hl hlast)
    obtain ⟨v', hv', hk, -⟩ := hlink.others _ hne h.root_ne_fresh v hv
    exact ⟨v', hv', hk⟩
  by_cases hroot : parent = t.root
  · rw [if_pos hroot]
    obtain ⟨x, hr, -, hof⟩ := h.root
    rw [hroot] at hx
    obtain rfl := some.inj (hx.symm.trans hr)
    have hkr := of_some (hk ▸ hof)
    obtain ⟨hlast, hkept⟩ := hkeep _ mem_cons_self hkr
    exact h.grow hext hc grew_append (fun a ha => some.inj ha ▸ hkr) ⟨0, visit_append⟩
      (h.keep_root hext hkept fun q hq => hlink.append hq h.nodup h.not_fresh hlast)
  · rw [if_neg hroot]
    have hmem := hp.resolve_left hroot
    obtain ⟨x, -, -, hof⟩ := h.root
    have hkc := hof.child h.nodup hmem hx hk
    obtain ⟨hlast, hkept⟩ := hkeep _ (mem_cons_of_mem _ (children_mem h.nodup hmem)) hkc
    exact h.grow hext hc (grew_addChild h.nodup hmem) (fun a ha => some.inj ha ▸ hkc)
      (visit_addChild h.nodup hmem)
      (h.keep_root hext hkept fun q hq => hlink.addChild hq h.nodup h.not_fresh hlast)

theorem Inv.child (h : Inv indent t g) (hp : parent = t.root ∨ parent ∈ g.nodes.addrs)
    (hs : Made c → c.flags &&& MI_NOT_COMPLETED = 0 ∧
      ∀ x, t.heap.get parent = some x → ∀ k, x.kids = some k → LastKnown t.heap k) :
    ∃ m' r, add_mi_node_child t.heap parent c = some (m', r) ∧ Inv indent { t with heap := m' }
      (g.note t (.add_mi_node_child parent c) (.node r)) := by
  obtain ⟨z, hz⟩ : ∃ z, t.heap.get parent = some z := by
    rcases hp with rfl | hp
    · obtain ⟨z, hz, -⟩ := h.root
      exact ⟨z, hz⟩
    · exact h.live hp
  cases hk : z.kids with
  | none =>
    obtain ⟨m', r, he, hmade, hnot⟩ := h.first hp hz hk
    refine ⟨m', r, he, ?_⟩
    by_cases hm : Made c
    · exact hmade hm (hs hm).1
    · obtain ⟨rfl, rfl⟩ := hnot hm
      exact h
  | some k =>
    rw [add_further hz hk]
    rcases add_next_spec h.valid fun hm => (hs hm).2 z hz k hk with ⟨-, he⟩ | ⟨hm, y, m', hy, he, hext, hlink⟩
    · exact ⟨t.heap, none, he, h⟩
    · exact ⟨m', _, he, h.further hp hz hk hy hext (hs hm).1 hlink⟩

/-- **A call** that is sound keeps the record. -/
theorem Inv.step {op : Op} (h : Inv indent t g) (hop : Existing t g op ∧ Sound indent t g op) :
    ∃ t' r, exec indent t op = some (t', r) ∧ Inv indent t' (g.note t op r) := by
  obtain ⟨hex, hs⟩ := hop
  cases op with
  | add_mi_node_child parent c =>
    obtain ⟨m', r, he, hI⟩ := h.child hex hs
    exact ⟨_, _, by rw [exec, he, map_some], hI⟩
  | add_mi_node_sibling brother c =>
    obtain ⟨m', r, he, hI⟩ := h.sibling hex hs
    exact ⟨_, _, by rw [exec, he, map_some], hI⟩
  | mi_flush_tree works bytes =>
    obtain ⟨m', w, ok, he, hb, hm⟩ := h.flush bytes hs
    refine ⟨_, _, by rw [exec, he, map_some], ?_⟩
    rw [Record.note, hb]
    exact h.marked hm

variable (indent) in
theorem read_tree_of {fuel : ℕ} (h : Of MiCell.kids MiCell.next m p nodes)
    (hfuel : (nodes.visit level).length < fuel) : ∃ k, read_tree m fuel p = some k ∧
      k.due indent level = (due_nodes m nodes level).map (line_of indent m) := by
  induction nodes generalizing p fuel level with
  | null =>
    obtain ⟨fuel, rfl⟩ : ∃ f, fuel = f + 1 := ⟨fuel - 1, by omega⟩
    obtain rfl : p = none := h
    exact ⟨.null, rfl, rfl⟩
  | node a k n ihk ihn =>
    obtain ⟨fuel, rfl⟩ : ∃ f, fuel = f + 1 := ⟨fuel - 1, by omega⟩
    obtain ⟨rfl, x, hx, hk, hn⟩ := h
    rw [visit, length_cons, length_append] at hfuel
    obtain ⟨k', hk', hdk⟩ := @ihk _ (level + 1) fuel hk (by omega)
    obtain ⟨n', hn', hdn⟩ := @ihn _ level fuel hn (by omega)
    refine ⟨.node x.toMiNode k' n', ?_, ?_⟩
    · simp only [read_tree, hx, hk', hn', bind_eq_bind, bind_some, Option.pure_def]
    · have hw : written m a = !decide (x.flags &&& MI_WRITTEN = 0) := by
        rw [written, hx, any_some]
        rfl
      have hdue : due_nodes m (node a k n) level = (if x.flags &&& MI_WRITTEN = 0 then [(a, level)] else []) ++
          (due_nodes m k (level + 1) ++ due_nodes m n level) := by
        rw [due_nodes, visit, filter_cons, hw, filter_append, Bool.not_not]
        split_ifs with h1 h2 h2
        · rfl
        · exact absurd (of_decide_eq_true h1) h2
        · exact absurd (decide_eq_true h2) h1
        · rfl
      rw [MiTree.due, hdk, hdn, hdue, map_append, map_append]
      split_ifs
      · rw [map_singleton, line_of, hx]
      · rfl

theorem Inv.complete (h : Inv indent t g) : Complete indent t g := by
  obtain ⟨z, hz, hf, hof⟩ := h.root
  refine ⟨⟨z, hz, hof⟩, ⟨h.all, h.all.nodup_iff.1 h.nodup⟩, h.order, ?_⟩
  obtain ⟨flushed, hout, hperm⟩ := h.output
  obtain ⟨k, hk, hdue⟩ := read_tree_of indent hof h.length_lt
  obtain ⟨tree, htree⟩ : ∃ tree, tree =
    ({ code := t.code, reason := t.reason, flags := z.flags, kids := k } : MiRoot) := ⟨_, rfl⟩
  have hlines : due indent tree = (due_nodes t.heap g.nodes 0).map (line_of indent t.heap) := by
    rw [htree, due, if_neg hf, hdue]
    rfl
  refine ⟨flushed, due_nodes t.heap g.nodes 0, tree, hout, ?_, ?_, hlines, fun works bytes hp => ?_⟩
  · simp only [MiReply.tree, hz, hk, htree, bind_eq_bind, bind_some, Option.pure_def]
  · exact (hperm.append_right _).trans (filter_append_perm _ _)
  · obtain ⟨-, hdone, -⟩ := mi_write_tree_blocks works bytes hp.fit
    rw [hdone ⟨fun k _ hk => hp.taken k hk, hp.room⟩, hlines]
    rfl

theorem inv_new (indent : Option Str) (code : ℕ) (reason : Str) :
    Inv indent (new_reply code reason) no_record := by
  refine ⟨fun a z hz => ?_, ⟨_, rfl, by decide, rfl⟩, not_mem_nil, nodup_nil, List.Perm.refl _,
    fun l hl => ?_, fun l hl a ha => ?_, [], rfl, List.Perm.refl _⟩
  · by_cases ha : a = 0
    · subst ha
      exact zero_lt_one
    · exact absurd hz (by simp [new_reply, Objects.alloc, Objects.empty, ha])
  · rw [mem_singleton.1 hl]
    exact nil_sublist _
  · rw [mem_singleton.1 hl] at ha
    exact absurd ha not_mem_nil

/-- **No node is lost** in a run whose calls are sound, and no call faults. -/
theorem mi_tree_complete (indent : Option Str) (code : ℕ) (reason : Str)
    (h : Run (exec indent) (fun t g op => Existing t g op ∧ Sound indent t g op) (fun t g => g.note t)
      (new_reply code reason, no_record) t g) :
    Complete indent t g ∧
      ∀ op, Existing t g op ∧ Sound indent t g op → ∃ t' r, exec indent t op = some (t', r) := by
  obtain ⟨hI, htotal⟩ := Run.total (I := fun t g => Inv indent t g) (Q := fun _ _ _ _ _ => True)
    (inv_new indent code reason) (fun t g op hI hop => by
      obtain ⟨t', r, he, hI'⟩ := hI.step hop
      exact ⟨t', r, he, hI', trivial⟩) h
  refine ⟨hI.complete, fun op hop => ?_⟩
  obtain ⟨t', r, he, -⟩ := htotal op hop
  exact ⟨t', r, he⟩

def named (c : Char) (flags : UInt32) : NodeArgs :=
  { name := [chr c], value := [], flags := flags, mem := true }

theorem mi_tree_complete_two : ∃ t g, Complete none t g ∧ g.added = [1, 2] ∧
    g.output = ["a:: \n\n".toList.map chr] := by
  have h : ∃ t g, Run (exec none) (fun t g op => Existing t g op ∧ Sound none t g op) (fun t g => g.note t)
      (new_reply 200 [], no_record) t g ∧ g.added = [1, 2] ∧ g.output = ["a:: \n\n".toList.map chr] := by
    refine ⟨_, _, .step (.step (.step .init ?_
      (show exec none _ (.add_mi_node_child 0 (named 'a' 0)) = _ from rfl)) ?_
      (show exec none _ (.mi_flush_tree (fun _ => true) fun _ => 0) = _ from rfl)) ?_
      (show exec none _ (.add_mi_node_sibling 1 (named 'b' 0)) = _ from rfl), rfl, by decide⟩
    · refine ⟨.inl rfl, fun _ => ⟨rfl, fun x hx k hk => ?_⟩⟩
      obtain rfl := some.inj hx
      exact absurd hk (by simp)
    · exact ⟨trivial, by decide, fun _ _ => rfl, by decide⟩
    · exact ⟨mem_cons_self, fun _ => ⟨rfl, _, _, rfl, rfl, rfl⟩⟩
  obtain ⟨t, g, h, h1, h2⟩ := h
  exact ⟨t, g, (mi_tree_complete none 200 [] h).1, h1, h2⟩

theorem Complete.count (h : Complete indent t g) (hout : g.output = []) :
    t.tree.map (fun tree => (due indent tree).length) = some g.added.length := by
  obtain ⟨flushed, rest, tree, hf, htree, hperm, hdue, -⟩ := h.written
  obtain rfl : flushed = [] := map_eq_nil_iff.1 (hf.symm.trans hout)
  have hlen := hperm.length_eq
  have haddrs : (g.nodes.visit 0).map Prod.fst = g.nodes.addrs := visit_addrs
  rw [flatten_nil, nil_append] at hlen
  rw [htree, map_some, hdue, length_map, hlen, ← h.all.1.length_eq, ← haddrs, length_map]


/-- A node behind the last of three is added through the second; a node is added as not completed. -/
theorem nodes_lost :
    (∃ t g, Run (exec none) Existing (fun t g => g.note t) (new_reply 200 [], no_record) t g ∧
      g.added = [1, 2, 3, 4] ∧ ¬ Complete none t g) ∧
    ∃ t g, Run (exec none) Existing (fun t g => g.note t) (new_reply 200 [], no_record) t g ∧
      g.added = [1] ∧ ¬ Complete none t g := by
  constructor
  · refine ⟨_, _, .step (.step (.step (.step .init ?_
      (show exec none _ (.add_mi_node_child 0 (named 'a' 0)) = _ from rfl)) ?_
      (show exec none _ (.add_mi_node_child 0 (named 'b' 0)) = _ from rfl)) ?_
      (show exec none _ (.add_mi_node_child 0 (named 'c' 0)) = _ from rfl)) ?_
      (show exec none _ (.add_mi_node_sibling 2 (named 'd' 0)) = _ from rfl), rfl, fun h => ?_⟩
    · exact .inl rfl
    · exact .inl rfl
    · exact .inl rfl
    · show 2 ∈ [1, 2, 3]
      decide
    · exact absurd (h.count rfl) (by decide)
  · refine ⟨_, _, .step .init ?_
      (show exec none _ (.add_mi_node_child 0 (named 'a' MI_NOT_COMPLETED)) = _ from rfl), rfl, fun h => ?_⟩
    · exact .inl rfl
    · exact absurd (h.count rfl) (by decide)

end Runs

end OpenSips.Mi.Tree
