import OpenSips.Map.Get
import Mathlib.Data.List.Induction

/-!
# OpenSips.Map.Detach — unlinking a node from the tree

The first half of `delete_node`.  Without a right child the left subtree moves up; otherwise the
node's successor `s`, the leftmost node of the right subtree, takes its place.  Either way what
remains is a path around a hole that lost one level.
-/

namespace OpenSips.Map

open Lib Lib.AvlTree List Function

/-! ### Path segments -/

/-- The parent of a hole whose path hangs below `par`. -/
def parentFrom (par : Option Ref) : Path → Option Ref
  | [] => par
  | f :: _ => some f.x.ref

/-- The pointer to the top of a path around a hole that `p` points into. -/
def top : Path → Option Ref → Option Ref
  | [], p => p
  | f :: fs, _ => top fs (some f.x.ref)

/-- The heap holds the nodes of a path that hangs below `par`. -/
def RepSeg (h : Heap) (par : Option Ref) : Path → Option Ref → Prop
  | [], _ => True
  | f :: fs, p =>
    h f.x.ref = some (obj (parentFrom par fs) f.x f.b (pair f.dir p (root f.sib))) ∧
      Rep h (some f.x.ref) f.sib ∧ RepSeg h par fs (some f.x.ref)

theorem top_cons (f : Frame Cell) (fs : Path) (p : Option Ref) : ∃ a, top (f :: fs) p = some a := by
  induction fs generalizing f p with
  | nil => exact ⟨f.x.ref, rfl⟩
  | cons g gs ih => exact ih g (some f.x.ref)

theorem root_plug (fs : Path) (t : Tree) : root (plug fs t) = top fs (root t) := by
  induction fs generalizing t with
  | nil => rfl
  | cons f fs ih => exact ih (f.fill t)

variable {h : Heap} {fs : Path} {par : Option Ref}

theorem repSeg_plug {t : Tree} :
    Rep h par (plug fs t) ↔ RepSeg h par fs (root t) ∧ Rep h (parentFrom par fs) t := by
  induction fs generalizing t with
  | nil => simp [RepSeg, parentFrom]
  | cons f fs ih =>
    rw [plug_cons, ih, rep_fill, RepSeg]
    simp only [Frame.fill, root_node, parentFrom]
    tauto

theorem parentOf_append (low up : Path) : parentOf (low ++ up) = parentFrom (parentOf up) low := by
  cases low <;> rfl

variable {rt : Option Ref} {p : Option Ref}

theorem repPath_append {low up : Path} :
    RepPath h rt (low ++ up) p ↔ RepSeg h (parentOf up) low p ∧ RepPath h rt up (top low p) := by
  induction low generalizing p with
  | nil => simp [RepSeg, top]
  | cons f fs ih =>
    rw [cons_append, RepPath, RepSeg, ih, parentOf_append, top]
    tauto

theorem RepSeg.congr {h h' : Heap}
    (hp : RepSeg h par fs p) (hc : ∀ a ∈ pathRefs fs, h' a = h a) : RepSeg h' par fs p := by
  induction fs generalizing p with
  | nil => trivial
  | cons f fs ih =>
    obtain ⟨h1, h2, h3⟩ := hp
    refine ⟨?_, h2.congr fun a ha => ?_, ih h3 fun a ha => ?_⟩
    · rw [hc _ (mem_pathRefs.2 (.inl rfl)), h1]
    · exact hc a (mem_pathRefs.2 (.inr (.inl ha)))
    · exact hc a (mem_pathRefs.2 (.inr (.inr ha)))

theorem seg_setParent (hp : RepSeg h par fs p) (hne : fs ≠ []) (hn : (pathRefs fs).Nodup) (q : Option Ref) :
    ∃ a h', top fs p = some a ∧ store h a (.setParent q) = some h' ∧ RepSeg h' q fs p ∧
      ∀ a, a ∉ pathRefs fs → h' a = h a := by
  induction fs generalizing p with
  | nil => exact absurd rfl hne
  | cons f fs ih =>
    obtain ⟨e, rs, ru⟩ := hp
    obtain ⟨n1, n2, n3, n4, n5⟩ := nodup_path.1 hn
    cases fs with
    | nil =>
      refine ⟨f.x.ref, _, rfl, store_of _ e, ⟨?_, ?_, trivial⟩, fun a ha => ?_⟩
      · simp [parentFrom]
      · exact rs.congr fun a ha => update_off n1 ha
      · exact update_of_ne (by rintro rfl; exact ha (mem_pathRefs.2 (.inl rfl))) _ _
    | cons g gs =>
      obtain ⟨a, h', i1, i2, i3, i4⟩ := ih ru (by simp) n4
      refine ⟨a, h', i1, i2, ⟨?_, ?_, i3⟩, fun b hb => ?_⟩
      · rw [i4 _ n2]; exact e
      · exact rs.congr fun b hb => i4 b (n5 b hb)
      · exact i4 b fun hc => hb (mem_pathRefs.2 (.inr (.inr hc)))

/-! ### Sides -/

/-- The side of the hole in the frame above it; `avl_link[0]` stands for the root pointer. -/
def dirOf : Path → Bool
  | [] => false
  | f :: _ => f.dir

theorem sideOf_spec {p : Ref} (hp : RepPath h rt fs (some p)) (hn : p ∉ pathRefs fs) :
    sideOf h (parentOf fs) p = some (dirOf fs) := by
  cases fs with
  | nil => rfl
  | cons f fs =>
    have hs : p ∉ refs f.sib := fun hb => hn (mem_pathRefs.2 (.inr (.inl hb)))
    simp only [sideOf, parentOf_cons, hp.1, Option.bind_eq_bind, Option.bind_some, obj_link,
      side_test hs, dirOf, Option.pure_def]

theorem slot0_spec {p : Ref} (hp : RepPath h rt fs (some p)) (hn : p ∉ pathRefs fs) :
    ∃ s, slot0 h rt (parentOf fs) = some s ∧ (s != some p) = dirOf fs := by
  cases fs with
  | nil =>
    refine ⟨rt, rfl, ?_⟩
    rw [show rt = some p from hp]
    simp [dirOf]
  | cons f fs =>
    have hs : p ∉ refs f.sib := fun hb => hn (mem_pathRefs.2 (.inr (.inl hb)))
    refine ⟨_, ?_, side_test hs⟩
    simp only [slot0, parentOf_cons, hp.1, Option.bind_eq_bind, Option.bind_some, obj_link]
    rfl

theorem setSlot_dirOf (hp : RepPath h rt fs p) (hn : (pathRefs fs).Nodup) (p' : Option Ref) :
    ∃ h' rt', setSlot h rt (parentOf fs) (dirOf fs) p' = some (h', rt') ∧ RepPath h' rt' fs p' ∧
      ∀ a, a ∉ pathRefs fs → h' a = h a := by
  obtain ⟨h', rt', s1, s2, s3, -⟩ := setSlot_spec hp hn p' (dirOf fs) (by intro f hf; cases fs with
        | nil => cases hf
        | cons g gs => cases hf; rfl)
    (by rintro rfl; rfl)
  exact ⟨h', rt', s1, s2, s3⟩

/-! ### The successor -/

theorem exists_leftmost (x : Cell) (b : ℤ) (c : Bool → Tree) :
    ∃ low s bs cs, (.node x b c : Tree) = plug low (.node s bs cs) ∧
      (∀ f ∈ low, f.dir = false) ∧ cs false = .nil := by
  generalize ht : (.node x b c : Tree) = t
  induction t generalizing x b c with
  | nil => cases ht
  | node y b' c' ih =>
    cases hl : c' false with
    | nil => exact ⟨[], y, b', c', rfl, by simp, hl⟩
    | node z bz cz =>
      obtain ⟨low, s, bs, cs, e, hlow, hs⟩ := ih false z bz cz hl.symm
      refine ⟨low ++ [⟨false, y, b', c' true⟩], s, bs, cs, ?_, ?_, hs⟩
      · rw [plug_append, ← e, plug_cons, plug_nil, Frame.fill]
        have := pair_eta false c'
        rw [Bool.not_false] at this
        rw [this]
      · intro f hf
        rcases mem_append.1 hf with hf | hf
        · exact hlow f hf
        · rw [mem_singleton] at hf; subst hf; rfl

theorem leftmost_spec {low : Path} {s : Cell} {bs : ℤ}
    {cs : Bool → Tree} (hlow : ∀ f ∈ low, f.dir = false) (hs : cs false = .nil)
    (hr : Rep h par (plug low (.node s bs cs))) {fuel : ℕ} (hf : low.length + 1 ≤ fuel) {a : Ref}
    (ha : root (plug low (.node s bs cs)) = some a) : leftmost h fuel a = some s.ref := by
  induction low using List.reverseRecOn generalizing par a fuel with
  | nil =>
    cases ha
    obtain ⟨fuel, rfl⟩ : ∃ k, fuel = k + 1 := ⟨fuel - 1, by omega⟩
    obtain ⟨e, -, -⟩ := (rep_node false).1 hr
    simp [leftmost, e, hs]
  | append_singleton low f ih =>
    rw [plug_append, plug_cons, plug_nil] at hr ha
    cases ha
    obtain ⟨fuel, rfl⟩ : ∃ k, fuel = k + 1 := ⟨fuel - 1, by simp at hf; omega⟩
    obtain ⟨e, rt, -⟩ := rep_fill.1 hr
    have hd : f.dir = false := hlow f (by simp)
    rw [length_append, length_singleton] at hf
    cases hp : plug low (.node s bs cs) with
    | nil =>
      have := congrArg (fun t : Tree => t.toList.length) hp
      simp [toList_plug, toList] at this
    | node y b c =>
      have hroot : root (plug low (.node s bs cs)) = some y.ref := by rw [hp]; rfl
      rw [hroot, hd] at e
      have e0 : (obj par f.x f.b (pair false (some y.ref) (root f.sib))).avl_link false = some y.ref := by simp
      simp only [leftmost, e, Option.bind_eq_bind, Option.bind_some, e0]
      exact ih (fun g hg => hlow g (by simp [hg])) rt (by omega) hroot

/-! ### `detach` -/

/-- What `detach` leaves: a path around a hole, and the pointers to continue from. -/
structure Detached (fuel : ℕ) (h : Heap) (rt : Option Ref) (p : Ref) (fs : Path) (t : Tree) :
    Prop where
  run : ∃ h' rt', detach fuel h rt p = some (h', rt', parentOf fs, dirOf fs) ∧
    RepPath h' rt' fs (root t) ∧ Rep h' (parentOf fs) t

theorem detach_left {p : Cell} {b : ℤ} {c : Bool → Tree}
    (hp : RepPath h rt fs (some p.ref)) (ht : Rep h (parentOf fs) (.node p b c))
    (hn : (refs (plug fs (.node p b c))).Nodup) (hc : c true = .nil) (fuel : ℕ) :
    Detached fuel h rt p.ref fs (c false) := by
  obtain ⟨n1, n2, n3⟩ := nodup_plug.1 hn
  obtain ⟨m1, -, m3, -⟩ := (nodup_node false).1 n1
  obtain ⟨e, rl, -⟩ := (rep_node true).1 ht
  have rl : Rep h (some p.ref) (c false) := (rep_node false).1 ht |>.2.1
  have hside := sideOf_spec hp (n3 _ (root_mem rfl))
  obtain ⟨h1, rt', s1, s2, s3⟩ := setSlot_dirOf hp n2 (root (c false))
  have hout : ∀ a ∈ refs (c false), a ∉ pathRefs fs := fun a ha =>
    n3 a ((mem_refs_node false).2 (.inr (.inl ha)))
  obtain ⟨h2, e2, r2, f2⟩ := reparent_spec (rl.congr fun a ha => s3 a (hout a ha)) m3 (parentOf fs)
  refine ⟨h2, rt', ?_, s2.congr fun a ha => f2 a fun hb => hout a hb ha, r2⟩
  rw [hc] at e
  simp only [Bool.not_true, root_nil] at e
  have e0 : (pair true none (root (c false))) false = root (c false) := rfl
  simp only [detach, detachLeft, e, hside, s1, e2, Option.bind_eq_bind, Option.bind_some, obj_link,
    obj_parent, pair_same, e0]
  rfl

variable {b bs : ℤ}

theorem detach_right {p s : Cell} {c cs : Bool → Tree}
    (hp : RepPath h rt fs (some p.ref)) (ht : Rep h (parentOf fs) (.node p b c))
    (hn : (refs (plug fs (.node p b c))).Nodup) (hc : c true = .node s bs cs)
    (hs : cs false = .nil) (fuel : ℕ) :
    Detached fuel h rt p.ref (⟨true, s, b, c false⟩ :: fs) (cs true) := by
  obtain ⟨n1, n2, n3⟩ := nodup_plug.1 hn
  obtain ⟨e, rs, rl⟩ := (rep_node true).1 ht
  obtain ⟨m1, m2, m3, m4, m5⟩ := (nodup_node true).1 n1
  rw [Bool.not_true] at rl m2 m4 m5
  rw [hc] at e rs m1 m3 m5
  obtain ⟨es, rst, -⟩ := (rep_node true).1 rs
  obtain ⟨k1, -⟩ := (nodup_node true).1 m3
  rw [Bool.not_true, hs, root_nil] at es
  rw [Bool.not_true, root_node] at e
  have hside := sideOf_spec hp (n3 _ (root_mem rfl))
  have hsfs : s.ref ∉ pathRefs fs := n3 _ ((mem_refs_node true).2 (.inr (.inl
    (by rw [hc]; exact (mem_refs_node true).2 (.inl rfl)))))
  have hsl : s.ref ∉ refs (c false) := m5 _ ((mem_refs_node true).2 (.inl rfl))
  have hlfs : ∀ a ∈ refs (c false), a ∉ pathRefs fs := fun a ha =>
    n3 a ((mem_refs_node false).2 (.inr (.inl ha)))
  have htfs : ∀ a ∈ refs (cs true), a ∉ pathRefs fs := fun a ha =>
    n3 a ((mem_refs_node true).2 (.inr (.inl (by rw [hc]; exact (mem_refs_node true).2 (.inr (.inl ha))))))
  have htl : ∀ a ∈ refs (cs true), a ∉ refs (c false) := fun a ha =>
    m5 a ((mem_refs_node true).2 (.inr (.inl ha)))
  -- the writes, in the order of the source
  set h1 := Function.update h s.ref
    (some (obj (some p.ref) s bs (pair true (root (cs true)) (root (c false))))) with hh1
  have e1 : store h s.ref (.setLink false (root (c false))) = some h1 := by
    rw [store_of _ es, obj_setLink, hh1, show false = !true from rfl, update_pair_not]
  have p1 : RepPath h1 rt fs (some p.ref) := hp.congr fun a ha => update_off hsfs ha
  obtain ⟨h2, rt', e2, p2, f2⟩ := setSlot_dirOf p1 n2 (some s.ref)
  have es2 : h2 s.ref = some (obj (some p.ref) s bs (pair true (root (cs true)) (root (c false)))) :=
    (f2 _ hsfs).trans (by simp [hh1])
  set h3 := Function.update h2 s.ref
    (some (obj (parentOf fs) s bs (pair true (root (cs true)) (root (c false))))) with hh3
  have e3 : store h2 s.ref (.setParent (parentOf fs)) = some h3 := by
    rw [store_of _ es2, obj_setParent]
  have keep : ∀ a, a ≠ s.ref → a ∉ pathRefs fs → h3 a = h a := fun a h1 h2 =>
    (update_of_ne h1 _ _).trans ((f2 a h2).trans (update_of_ne h1 _ _))
  obtain ⟨h4, e4, r4, f4⟩ := reparent_spec
    (rl.congr fun a ha => keep a (by rintro rfl; exact hsl ha) (hlfs a ha)) m4 (some s.ref)
  have es4 : h4 s.ref = some (obj (parentOf fs) s bs (pair true (root (cs true)) (root (c false)))) :=
    (f4 _ hsl).trans (by simp [hh3])
  set h5 := Function.update h4 s.ref
    (some (obj (parentOf fs) s b (pair true (root (cs true)) (root (c false))))) with hh5
  have e5 : store h4 s.ref (.setBalance b) = some h5 := by
    rw [store_of _ es4, obj_setBalance]
  refine ⟨h5, rt', ?_, ⟨?_, ?_, ?_⟩, ?_⟩
  · have e0 : (pair true (some s.ref) (root (c false))) false = root (c false) := rfl
    have e0' : (pair true (root (cs true)) none) false = none := rfl
    have hd : detach fuel h rt p.ref = detachRight h rt
        (obj (parentOf fs) p b (pair true (some s.ref) (root (c false)))) (dirOf fs) s.ref := by
      simp only [detach, e, hside, es, Option.bind_eq_bind, Option.bind_some, obj_link, obj_parent,
        pair_same, e0']
    rw [hd]
    simp only [detachRight, Option.bind_eq_bind, Option.bind_some, obj_link, obj_parent,
      obj_balance, e0, e1, e2, e3, e4, e5]
    rfl
  · simp [hh5]
  · exact r4.congr fun a ha => update_off hsl ha
  · exact p2.congr fun a ha => (update_off hsfs ha).trans
      ((f4 a fun hb => hlfs a hb ha).trans (update_off hsfs ha))
  · refine rst.congr fun a ha => ?_
    have hne : a ≠ s.ref := by rintro rfl; exact k1 ha
    exact (update_of_ne hne _ _).trans ((f4 a (htl a ha)).trans (keep a hne (htfs a ha)))

/-- The successor sits below `g` in the right subtree: it is cut out and takes the place of the
node. -/
theorem detachSucc_spec {fs low : Path} {g : Frame Cell} {p s : Cell} {l t : Tree} (hg : g.dir = false)
    (hp : RepPath h rt fs (some p.ref)) (rl : Rep h (some p.ref) l)
    (rlow : RepSeg h (some p.ref) (g :: low) (some s.ref))
    (es : h s.ref = some (obj (some g.x.ref) s bs (pair true (root t) none)))
    (rt' : Rep h (some s.ref) t)
    (hn : (s.ref :: refs t ++ (pathRefs (g :: low) ++ (p.ref :: refs l ++ pathRefs fs))).Nodup) :
    ∃ h' rt'', detachSucc h rt
        (obj (parentOf fs) p b (pair true (top (g :: low) (some s.ref)) (root l))) (dirOf fs) s.ref =
          some (h', rt'', some g.x.ref, false) ∧
      RepPath h' rt'' (g :: low ++ ⟨true, s, b, l⟩ :: fs) (root t) ∧ Rep h' (some g.x.ref) t := by
  -- five disjoint sets of addresses: `s`, `t`, the path down to it, `l`, and the path above
  simp only [cons_append, nodup_cons, nodup_append, mem_append, mem_cons, not_or] at hn
  obtain ⟨⟨s1, s2, s3, s4, s5⟩, nt, ⟨np, ⟨⟨-, p2⟩, nl, nf, dlf⟩, dlow⟩, dt⟩ := hn
  have dll : ∀ a ∈ refs l, a ∉ pathRefs (g :: low) := fun a ha hb =>
    dlow a hb a (.inr (.inl ha)) rfl
  have dfl : ∀ a ∈ pathRefs fs, a ∉ pathRefs (g :: low) := fun a ha hb =>
    dlow a hb a (.inr (.inr ha)) rfl
  have dfL : ∀ a ∈ pathRefs fs, a ∉ refs l := fun a ha hb => dlf a hb a ha rfl
  have dtl : ∀ a ∈ refs t, a ∉ pathRefs (g :: low) := fun a ha hb => dt a ha a (.inl hb) rfl
  have dtL : ∀ a ∈ refs t, a ∉ refs l := fun a ha hb => dt a ha a (.inr (.inr (.inl hb))) rfl
  have dtf : ∀ a ∈ refs t, a ∉ pathRefs fs := fun a ha hb =>
    dt a ha a (.inr (.inr (.inr hb))) rfl
  obtain ⟨eg, rgs, rlow'⟩ := rlow
  obtain ⟨g1, g2, g3, g4, g5⟩ := nodup_path.1 np
  have hgm : g.x.ref ∈ pathRefs (g :: low) := mem_pathRefs.2 (.inl rfl)
  have hsg : g.x.ref ≠ s.ref := fun e => s2 (e ▸ hgm)
  have hgf : g.x.ref ∉ pathRefs fs := fun hb => dfl _ hb hgm
  have hgL : g.x.ref ∉ refs l := fun hb => dll _ hb hgm
  have hgt : g.x.ref ∉ refs t := fun hb => dtl _ hb hgm
  have neS : ∀ {L : List Ref}, s.ref ∉ L → ∀ a ∈ L, a ≠ s.ref := fun hs a ha e => hs (e ▸ ha)
  have neG : ∀ {L : List Ref}, g.x.ref ∉ L → ∀ a ∈ L, a ≠ g.x.ref := fun hs a ha e => hs (e ▸ ha)
  obtain ⟨a, ha⟩ := top_cons g low (some s.ref)
  rw [ha]
  -- the successor's right subtree goes under `g`
  set h1 := Function.update h g.x.ref
    (some (obj (parentFrom (some p.ref) low) g.x g.b (pair false (root t) (root g.sib)))) with hh1
  have e1 : store h g.x.ref (.setLink false (root t)) = some h1 := by
    rw [store_of _ eg, hg, obj_setLink, update_pair_same]
  -- the successor gets both links of the node
  set h3 := Function.update h1 s.ref (some (obj (some g.x.ref) s bs (pair true (some a) (root l)))) with hh3
  have es1 : h1 s.ref = some (obj (some g.x.ref) s bs (pair true (root t) none)) :=
    (update_of_ne hsg.symm _ _).trans es
  have e3 : ∃ h2, store h1 s.ref (.setLink false (root l)) = some h2 ∧
      store h2 s.ref (.setLink true (some a)) = some h3 := by
    refine ⟨_, store_of _ es1, ?_⟩
    rw [store_of _ (update_self _ _ _), obj_setLink, obj_setLink, update_idem,
      show false = !true from rfl, update_pair_not, update_pair_same]
  obtain ⟨h2, e2, e3⟩ := e3
  have k3 : ∀ a, a ≠ s.ref → a ≠ g.x.ref → h3 a = h a := fun a ha hb =>
    (update_of_ne ha _ _).trans (update_of_ne hb _ _)
  have p3 : RepPath h3 rt fs (some p.ref) :=
    hp.congr fun a ha => k3 a (neS s5 a ha) (neG hgf a ha)
  obtain ⟨h4, rt4, e4, p4, k4⟩ := setSlot_dirOf p3 nf (some s.ref)
  have rl4 : Rep h4 (some p.ref) l := rl.congr fun a ha =>
    (k4 a fun hb => dfL a hb ha).trans (k3 a (neS s4 a ha) (neG hgL a ha))
  obtain ⟨h5, e5, r5, k5⟩ := reparent_spec rl4 nl (some s.ref)
  have es5 : h5 s.ref = some (obj (some g.x.ref) s bs (pair true (some a) (root l))) :=
    (k5 _ s4).trans ((k4 _ s5).trans (by simp [hh3]))
  have low5 : RepSeg h5 (some p.ref) (g :: low) (root t) := by
    refine ⟨?_, rgs.congr fun a ha => ?_, rlow'.congr fun a ha => ?_⟩
    · rw [k5 _ hgL, k4 _ hgf, hg]
      simp [hh3, hh1, update_of_ne hsg]
    · have hm : a ∈ pathRefs (g :: low) := mem_pathRefs.2 (.inr (.inl ha))
      rw [k5 a fun hb => dll a hb hm, k4 a fun hb => dfl a hb hm]
      exact k3 a (neS s2 a hm) (neG g1 a ha)
    · have hm : a ∈ pathRefs (g :: low) := mem_pathRefs.2 (.inr (.inr ha))
      rw [k5 a fun hb => dll a hb hm, k4 a fun hb => dfl a hb hm]
      exact k3 a (neS s2 a hm) (neG g2 a ha)
  obtain ⟨a', h6, ha', e6, r6, k6⟩ := seg_setParent low5 (by simp) np (some s.ref)
  obtain rfl : a = a' := Option.some.inj (ha.symm.trans ha')
  have es6 := (k6 _ s2).trans es5
  set h7 := Function.update h6 s.ref (some (obj (parentOf fs) s bs (pair true (some a) (root l)))) with hh7
  have e7 : store h6 s.ref (.setParent (parentOf fs)) = some h7 := by
    rw [store_of _ es6, obj_setParent]
  have eg7 : h7 g.x.ref =
      some (obj (parentFrom (some s.ref) low) g.x g.b (pair false (root t) (root g.sib))) := by
    rw [hh7, update_of_ne hsg, r6.1, hg]
  have rt7 : Rep h7 (some s.ref) t := rt'.congr fun a ha => by
    rw [hh7, update_of_ne (neS s1 a ha), k6 a (dtl a ha), k5 a (dtL a ha),
      k4 a (dtf a ha), k3 a (neS s1 a ha) (neG hgt a ha)]
  obtain ⟨h8, e8, r8, k8⟩ := reparent_spec rt7 nt (some g.x.ref)
  have es8 := (k8 _ s1).trans (show h7 s.ref = _ by rw [hh7, update_self])
  set h9 := Function.update h8 s.ref (some (obj (parentOf fs) s b (pair true (some a) (root l)))) with hh9
  have e9 : store h8 s.ref (.setBalance b) = some h9 := by
    rw [store_of _ es8, obj_setBalance]
  refine ⟨h9, rt4, ?_, repPath_append.2 ⟨?_, ?_, ?_, ?_⟩, ?_⟩
  · have l1 : (pair true (some a) (root l)) false = root l := rfl
    have l2 : (pair false (root t) (root g.sib)) false = root t := rfl
    simp only [detachSucc, es, e1, e2, e3, e4, e5, es5, e6, e7, eg7, e8, e9, l1, l2,
      Option.bind_eq_bind, Option.bind_some, obj_link, obj_parent, obj_balance, pair_same]
    rfl
  · refine r6.congr fun a hm => ?_
    rw [hh9, update_of_ne (neS s2 a hm), k8 a fun hb => dtl a hb hm, hh7, update_of_ne (neS s2 a hm)]
  · rw [show top (g :: low) (root t) = some a from ha']
    simp [hh9]
  · refine r5.congr fun a hm => ?_
    rw [hh9, update_of_ne (neS s4 a hm), k8 a fun hb => dtL a hb hm, hh7,
      update_of_ne (neS s4 a hm), k6 a (dll a hm)]
  · refine p4.congr fun a hm => ?_
    rw [hh9, update_of_ne (neS s5 a hm), k8 a fun hb => dtf a hb hm, hh7,
      update_of_ne (neS s5 a hm), k6 a (dfl a hm), k5 a (dfL a hm)]
  · exact r8.congr fun a hm => by rw [hh9, update_of_ne (neS s1 a hm)]

/-- The path that remains when the successor `s` replaced the node: one level was lost below it. -/
theorem successor_bal {fs low : Path} {p s : Cell} {c cs : Bool → Tree}
    (hc : c true = plug low (.node s bs cs)) (hs : cs false = .nil)
    (hb : Balanced (plug fs (.node p b c))) :
    PathBal (low ++ ⟨true, s, b, c false⟩ :: fs) (height (cs true) + 1) ∧ Balanced (cs true) := by
  obtain ⟨hn, hfs⟩ := balanced_plug.1 hb
  obtain ⟨e, b1, b2, bt, bl⟩ := (balanced_node true _ _ _).1 hn
  rw [Bool.not_true] at e bl
  have hh := height_node true p b c
  rw [Bool.not_true] at hh
  rw [hc] at bt
  obtain ⟨bs', hlow⟩ := balanced_plug.1 bt
  have hcs : height (.node s bs cs) = height (cs true) + 1 := by
    have := height_nonneg (cs true)
    rw [height_node true, Bool.not_true, hs, height_nil]
    omega
  have hup : pathUp low (height (cs true) + 1) = height (c true) := by
    rw [← hcs, ← height_plug, hc]
  refine ⟨pathBal_append.2 ⟨by rw [← hcs]; exact hlow, ?_, ?_⟩, ((balanced_node true _ _ _).1 bs').2.2.2.1⟩
  · rw [hup]
    exact ⟨e, b1, b2, bl⟩
  · rw [hup, Frame.up]
    rw [hh] at hfs
    exact hfs

/-- **The first half of `delete_node`**: the entry of `p` is gone, the others are in their order,
and the remaining path lost one level at the hole. -/
theorem detach_spec {p : Cell} {b : ℤ} {c : Bool → Tree}
    (hp : RepPath h rt fs (some p.ref)) (ht : Rep h (parentOf fs) (.node p b c))
    (hn : (refs (plug fs (.node p b c))).Nodup) (hb : Balanced (plug fs (.node p b c))) {fuel : ℕ}
    (hf : (plug fs (.node p b c)).toList.length ≤ fuel) :
    ∃ path hole, Detached fuel h rt p.ref path hole ∧ PathBal path (height hole + 1) ∧ Balanced hole ∧
      (plug path hole).toList = pathL fs ++ (c false).toList ++ ((c true).toList ++ pathR fs) := by
  cases hc : c true with
  | nil =>
    obtain ⟨hn', hfs⟩ := balanced_plug.1 hb
    refine ⟨fs, c false, detach_left hp ht hn hc fuel, ?_,
      ((balanced_node false _ _ _).1 hn').2.2.2.1, by simp [toList_plug]⟩
    have := height_nonneg (c false)
    rw [height_node false, Bool.not_false, hc, height_nil] at hfs
    rwa [max_eq_left this] at hfs
  | node r br cr =>
    have list : ∀ (low : Path) (s : Cell) (bs : ℤ) (cs : Bool → Tree),
        c true = plug low (.node s bs cs) → (∀ f ∈ low, f.dir = false) → cs false = .nil →
        (plug (low ++ ⟨true, s, b, c false⟩ :: fs) (cs true)).toList =
          pathL fs ++ (c false).toList ++ ((c true).toList ++ pathR fs) := by
      intro low s bs cs e hlow hs
      have hL : pathL low = [] := by
        clear e
        induction low with
        | nil => rfl
        | cons f low ih => simp [pathL, ih fun g hg => hlow g (by simp [hg]), hlow f (by simp)]
      rw [e, plug_append, plug_cons, toList_plug, toList_plug low]
      simp [Frame.fill, toList, pair, toList_plug, hL, hs]
    rw [← hc]
    cases hr : cr false with
    | nil =>
      have hc' : c true = plug [] (.node r br cr) := hc
      obtain ⟨h1, h2⟩ := successor_bal hc' hr hb
      exact ⟨_, _, detach_right hp ht hn hc hr fuel, h1, h2, list [] r br cr hc (by simp) hr⟩
    | node z bz cz =>
      obtain ⟨low, s, bs, cs, e, hlow, hs⟩ := exists_leftmost z bz cz
      have e' : c true = plug (low ++ [⟨false, r, br, cr true⟩]) (.node s bs cs) := by
        rw [plug_append, ← e, ← hr, hc]
        simp only [plug_cons, plug_nil, Frame.fill]
        rw [show cr true = cr (!false) from rfl, pair_eta]
      have hlow' : ∀ f ∈ low ++ [(⟨false, r, br, cr true⟩ : Frame Cell)], f.dir = false := by
        intro f hf
        rcases mem_append.1 hf with hf | hf
        · exact hlow f hf
        · rw [mem_singleton] at hf; subst hf; rfl
      obtain ⟨h1, h2⟩ := successor_bal e' hs hb
      refine ⟨_, cs true, ?_, h1, h2, list _ s bs cs e' hlow' hs⟩
      obtain ⟨ep, rr, rl⟩ := (rep_node true).1 ht
      obtain ⟨er, rz, -⟩ := (rep_node false).1 (hc ▸ rr)
      have hleft : leftmost h fuel z.ref = some s.ref := by
        rw [hr, e] at rz
        refine leftmost_spec hlow hs rz ?_ (by rw [← e]; rfl)
        have hlen := path_length_le low (.node s bs cs)
        rw [← e, ← hr] at hlen
        simp only [toList_plug, toList, hc, length_append, length_cons] at hf
        omega
      obtain ⟨g, low', hgl⟩ : ∃ g low', low ++ [(⟨false, r, br, cr true⟩ : Frame Cell)] = g :: low' :=
        exists_cons_of_ne_nil (by simp)
      rw [hgl] at e' hlow' ⊢
      rw [Bool.not_true] at rl
      obtain ⟨rlow, rs⟩ := repSeg_plug.1 (e' ▸ rr)
      obtain ⟨es, rst, -⟩ := (rep_node true).1 rs
      rw [Bool.not_true, hs, root_nil] at es
      have hnd : (s.ref :: refs (cs true) ++
          (pathRefs (g :: low') ++ (p.ref :: refs (c false) ++ pathRefs fs))).Nodup := by
        refine (Perm.nodup_iff ?_).1 hn
        refine (refs_plug_perm fs _).trans ((Perm.append_right _ (refs_node_perm true p b c)).trans ?_)
        have h1 := refs_plug_perm (g :: low') (.node s bs cs)
        have h2 := refs_node_perm true s bs cs
        rw [Bool.not_true, hs, refs_nil, append_nil] at h2
        rw [← e'] at h1
        have h3 := h1.trans (Perm.append_right (pathRefs (g :: low')) h2)
        rw [Bool.not_true]
        rw [cons_append, append_assoc]
        refine perm_middle.symm.trans ?_
        rw [← append_assoc (s.ref :: refs (cs true))]
        exact Perm.append_right _ h3
      obtain ⟨h', rt', d1, d2, d3⟩ :=
        detachSucc_spec (b := b) (hlow' g (by simp)) hp rl rlow es rst hnd
      refine ⟨⟨h', rt', ?_, d2, d3⟩⟩
      have htop : root (c true) = top (g :: low') (some s.ref) := by
        rw [e', root_plug]; rfl
      have hside := sideOf_spec hp ((nodup_plug.1 hn).2.2 _ (root_mem rfl))
      rw [hr, root_node] at er
      have l0 : (pair false (some z.ref) (root (cr !false))) false = some z.ref := rfl
      have hlink : root (c true) = some r.ref := by rw [hc]; rfl
      rw [Bool.not_true] at ep
      rw [← htop] at d1
      rw [hlink] at ep d1
      simp only [detach, ep, hside, er, hleft, l0, Option.bind_eq_bind, Option.bind_some, obj_link,
        obj_parent, pair_same]
      rw [d1]
      simp only [parentOf, dirOf, cons_append, hlow' g (by simp)]

end OpenSips.Map
