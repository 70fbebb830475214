import OpenSips.Map.Detach

/-!
# OpenSips.Map.Delete — the rebalancing loop of `delete_node` is `shrink`

One turn of the loop rewrites the frame above the hole and hangs the result below the next one.
-/

namespace OpenSips.Map

open Lib Lib.AvlTree List Function

theorem setFactors {h : Heap} {par : Option Ref} {d : Bool} {y x : Cell} {b bx : ℤ}
    {cx : Bool → Tree} {s : Tree} (hr : Rep h par (rotSingle d y b x bx cx s))
    (hn : (refs (rotSingle d y b x bx cx s)).Nodup) (b' bx' : ℤ) :
    ∃ h1 h2, store h x.ref (.setBalance bx') = some h1 ∧ store h1 y.ref (.setBalance b') = some h2 ∧
      Rep h2 par (rotSingle d y b' x bx' cx s) ∧
      ∀ a, a ∉ refs (rotSingle d y b x bx cx s) → h2 a = h a := by
  rw [rotSingle, rep_node d, pair_same, pair_not, rep_node d, pair_same, pair_not] at hr
  obtain ⟨ex, rd, ey, rn, rs⟩ := hr
  rw [rotSingle, nodup_node d, pair_same, pair_not, nodup_node d, pair_same, pair_not] at hn
  obtain ⟨n1, n2, n3, ⟨n4, n5, -⟩, n6⟩ := hn
  simp only [mem_refs_node d, pair_same, pair_not, not_or] at n2 n6
  have hyd : y.ref ∉ refs (cx d) := fun hb => (n6 _ hb).1 rfl
  have hoff : ∀ t : Tree, x.ref ∉ refs t → y.ref ∉ refs t → ∀ {v w} {a}, a ∈ refs t →
      Function.update (Function.update h x.ref v) y.ref w a = h a := fun t hx hy v w a ha =>
    (update_off hy ha).trans (update_off hx ha)
  refine ⟨_, _, store_of _ ex, store_of _ ((update_of_ne (Ne.symm n2.1) _ _).trans ey), ?_, fun a ha => ?_⟩
  · rw [rotSingle, rep_node d, pair_same, pair_not, rep_node d, pair_same, pair_not]
    exact ⟨by simp [update_of_ne n2.1], rd.congr fun a ha => hoff _ n1 hyd ha, by simp,
      rn.congr fun a ha => hoff _ n2.2.1 n4 ha, rs.congr fun a ha => hoff _ n2.2.2 n5 ha⟩
  · rw [rotSingle, mem_refs_node d, pair_same, pair_not, mem_refs_node d] at ha
    simp only [not_or] at ha
    exact (update_of_ne ha.2.2.1 _ _).trans (update_of_ne ha.1 _ _)

/-- **One turn of the loop is `shrinkStep`.** -/
theorem deleteLoop_turn {f : Frame Cell} {fs : Path} {t : Tree} {h : Heap} {rt : Option Ref}
    (hp : RepPath h rt (f :: fs) (root t)) (ht : Rep h (some f.x.ref) t)
    (hn : (refs (plug (f :: fs) t)).Nodup) (hb : f.Bal (height t + 1)) (fuel : ℕ) :
    ∃ h' rt', RepPath h' rt' fs (root (shrinkStep f t).1) ∧ Rep h' (parentOf fs) (shrinkStep f t).1 ∧
      deleteLoop (fuel + 1) h rt (some f.x.ref) f.dir =
        if (shrinkStep f t).2 then deleteLoop fuel h' rt' (parentOf fs) (dirOf fs)
        else some (h', rt') := by
  obtain ⟨ey, rs, rup⟩ := hp
  rw [plug_cons] at hn
  obtain ⟨n1, n2, n3⟩ := nodup_plug.1 hn
  have hyfs : f.x.ref ∉ pathRefs fs := n3 _ (root_mem rfl)
  obtain ⟨s0, hs0, hside⟩ := slot0_spec rup hyfs
  -- the write of the balance factor
  set h1 := Function.update h f.x.ref (some (obj (parentOf fs) f.x (f.b - sgn f.dir)
    (pair f.dir (root t) (root f.sib)))) with hh1
  have e1 : store h f.x.ref (.setBalance (f.b - sgn f.dir)) = some h1 := by
    rw [store_of _ ey, obj_setBalance]
  have ey1 : h1 f.x.ref = some (obj (parentOf fs) f.x (f.b - sgn f.dir)
      (pair f.dir (root t) (root f.sib))) := by simp [hh1]
  obtain ⟨m1, m2, -⟩ := (nodup_node f.dir).1 n1
  rw [pair_same] at m1
  rw [pair_not] at m2
  have hfill : Rep h1 (parentOf fs) ((f.withB (f.b - sgn f.dir)).fill t) := rep_fill.2 ⟨ey1,
    ht.congr fun a ha => update_off m1 ha, rs.congr fun a ha => update_off m2 ha⟩
  have hup : RepPath h1 rt fs (some f.x.ref) := rup.congr fun a ha => update_off hyfs ha
  simp only [deleteLoop, ey, hs0, hside, e1, ey1, Option.bind_eq_bind, Option.bind_some, obj_parent,
    obj_balance, obj_link]
  rcases shrinkStep_cases hb with ⟨c1, e⟩ | ⟨c1, c2, e⟩ | ⟨c1, c2, -, x, bx, cx, hs, hcase⟩
  · refine ⟨h1, rt, ?_, ?_, ?_⟩
    · rw [e]; exact hup
    · rw [e]; exact hfill
    · rw [e, if_pos c1, if_neg (by simp)]
      rfl
  · refine ⟨h1, rt, ?_, ?_, ?_⟩
    · rw [e]; exact hup
    · rw [e]; exact hfill
    · rw [e, if_neg c1, if_neg c2, if_pos rfl]
  · have hy : f.fill t = .node f.x f.b (pair (!f.dir) (.node x bx cx) t) := by
      rw [Frame.fill, ← hs, pair_flip]
    have hy1 : (f.withB (f.b - sgn f.dir)).fill t =
        .node f.x (f.b - sgn f.dir) (pair (!f.dir) (.node x bx cx) t) := by
      rw [Frame.fill, Frame.withB_dir, Frame.withB_sib, hs, pair_flip]; rfl
    have hrefs : ∀ b, refs (.node f.x b (pair (!f.dir) (.node x bx cx) t)) = refs (f.fill t) := by
      intro b; rw [hy]; rfl
    rw [hy1] at hfill
    have nd : (refs (.node f.x (f.b - sgn f.dir) (pair (!f.dir) (.node x bx cx) t))).Nodup := by
      rw [hrefs]; exact n1
    have hlink : pair f.dir (root t) (root f.sib) (!f.dir) = some x.ref := by rw [hs]; simp
    have ex : h1 x.ref = some (obj (some f.x.ref) x bx fun e => root (cx e)) := by
      have := ((rep_node (!f.dir)).1 hfill).2.1
      rw [pair_same] at this
      exact this.1
    -- the rotated subtree goes to the place of the old one
    have relink : ∀ (h2 : Heap) (w : Ref), (∀ a, a ∉ refs (f.fill t) → h2 a = h1 a) →
        ∃ h3 rt3, setSlot h2 rt (parentOf fs) (dirOf fs) (some w) = some (h3, rt3) ∧
          RepPath h3 rt3 fs (some w) ∧ ∀ a ∈ refs (f.fill t), h3 a = h2 a := by
      intro h2 w hk
      have hup2 : RepPath h2 rt fs (some f.x.ref) :=
        hup.congr fun a ha => hk a fun hb => n3 a hb ha
      obtain ⟨h3, rt3, q1, q2, q3⟩ := setSlot_dirOf hup2 n2 (some w)
      exact ⟨h3, rt3, q1, q2, fun a ha => q3 a (n3 a ha)⟩
    simp only [if_neg c1, if_pos c2, hlink, ex, Option.bind_some, obj_balance]
    rcases hcase with ⟨c3, w, bw, cw, hw, e⟩ | hcase
    · -- the double rotation
      obtain ⟨h2, e2, r2, f2⟩ := doubleRotate_spec hfill nd (by simpa using hw)
      obtain ⟨h3, rt3, e3, p3, f3⟩ := relink h2 w.ref fun a ha => f2 a (by rw [hrefs]; exact ha)
      have hl : (rotDouble (!f.dir) f.x x cx w bw cw t).toList = (f.fill t).toList := by
        have := toList_shrinkStep f t
        rwa [e] at this
      refine ⟨h3, rt3, ?_, ?_, ?_⟩
      · rw [e]; exact p3
      · rw [e]; exact r2.congr fun a ha => f3 a (by rw [refs, ← hl]; exact ha)
      · simp only [e, if_pos c3, e2, e3, Option.bind_some, if_true]
    · -- the single rotation
      have hxsgn : bx ≠ sgn f.dir := by
        rcases hcase with ⟨-, c, -⟩ | ⟨-, c, -⟩ <;> exact c
      obtain ⟨ey', -⟩ := (rep_node (!f.dir)).1 hfill
      rw [pair_same, pair_not, root_node] at ey'
      have ex' := ex
      rw [root_comp_eta (!f.dir)] at ex'
      have hyx : f.x.ref ≠ x.ref := fun hb => ((nodup_node (!f.dir)).1 nd).1
        (by rw [pair_same, hb]; exact (mem_refs_node true).2 (.inl rfl))
      obtain ⟨h2, e2, y2, x2, f2⟩ := deleteSingle_spec ey' ex' hyx
      obtain ⟨h3, e3, r3, f3⟩ := single_spec hfill nd y2 x2 f2
      rw [hrefs] at f3
      obtain ⟨h4, rt4, e4, p4, f4⟩ := relink h3 x.ref f3
      have hrot : ∀ b bx', refs (rotSingle (!f.dir) f.x b x bx' cx t) = refs (f.fill t) := by
        intro b bx'
        rw [refs, toList_rotSingle (!f.dir) _ f.b _ _ bx, ← hy]
        rfl
      have r4 := r3.congr fun a ha => f4 a (by rw [hrot] at ha; exact ha)
      obtain ⟨h5, h6, e5, e6, r6, f6⟩ := setFactors r4 (by rw [hrot]; exact n1)
        (if bx = 0 then -sgn f.dir else 0) (if bx = 0 then sgn f.dir else 0)
      rw [hrot] at f6
      have hpar : (pair (!f.dir) (root (cx !(!f.dir))) (root t)) (!f.dir) = root (cx !(!f.dir)) :=
        pair_same _ _ _
      have p6 : RepPath h6 rt4 fs (some x.ref) := p4.congr fun a ha => f6 a fun hb => n3 a hb ha
      refine ⟨h6, rt4, ?_⟩
      simp only [if_neg hxsgn, e2, y2, obj_link, hpar, e3, e4, Option.bind_some]
      rcases hcase with ⟨c4, -, e⟩ | ⟨-, -, c4, e⟩
      · rw [if_pos c4] at e5 e6 r6
        rw [if_pos c4] at r6
        refine ⟨?_, ?_, ?_⟩
        · rw [e]; exact p6
        · rw [e]; exact r6
        · simp only [e, if_pos c4, e5, e6, Option.bind_some]
          rfl
      · rw [if_neg c4] at e5 e6 r6
        rw [if_neg c4] at r6
        refine ⟨?_, ?_, ?_⟩
        · rw [e]; exact p6
        · rw [e]; exact r6
        · simp only [e, if_neg c4, e5, e6, Option.bind_some, if_true]

/-- **The loop is `shrink`.** -/
theorem deleteLoop_spec {fs : Path} {t : Tree} {h : Heap} {rt : Option Ref}
    (hp : RepPath h rt fs (root t)) (ht : Rep h (parentOf fs) t) (hn : (refs (plug fs t)).Nodup)
    (hb : PathBal fs (height t + 1)) (hbt : Balanced t) {fuel : ℕ} (hf : fs.length + 1 ≤ fuel) :
    ∃ h' rt', deleteLoop fuel h rt (parentOf fs) (dirOf fs) = some (h', rt') ∧
      Rep h' none (shrink fs t) ∧ rt' = root (shrink fs t) := by
  induction fs generalizing t h rt fuel with
  | nil =>
    obtain ⟨fuel, rfl⟩ : ∃ k, fuel = k + 1 := ⟨fuel - 1, by omega⟩
    exact ⟨h, rt, rfl, ht, hp⟩
  | cons f fs ih =>
    obtain ⟨fuel, rfl⟩ : ∃ k, fuel = k + 1 := ⟨fuel - 1, by omega⟩
    obtain ⟨hbf, hbup⟩ := hb
    obtain ⟨h1, rt1, p1, r1, e1⟩ := deleteLoop_turn hp ht hn hbf fuel
    obtain ⟨b1, hh⟩ := shrinkStep_bal hbf hbt
    have hn1 : (refs (plug fs (shrinkStep f t).1)).Nodup := by
      rwa [refs, toList_plug, toList_shrinkStep, ← toList_plug, ← plug_cons]
    rw [parentOf_cons, show dirOf (f :: fs) = f.dir from rfl, e1, shrink]
    rw [← hh] at hbup
    split_ifs with hl
    · rw [if_pos hl] at hbup
      exact ih p1 r1 hn1 hbup b1 (by simpa using hf)
    · exact ⟨h1, rt1, rfl, rep_plug.2 ⟨p1, r1⟩⟩

/-! ### `delete_node` and `map_remove` -/

/-- **`delete_node` removes exactly the entry of its node**, and the tree is balanced again. -/
theorem delete_node_spec {m : AvlTable} {T : Tree} (hT : Holds m T) {p : Cell} (hp : p ∈ T.toList) :
    ∃ m' T' A B, delete_node m p.ref = some (m', p.val) ∧ Holds m' T' ∧
      T.toList = A ++ p :: B ∧ T'.toList = A ++ B := by
  obtain ⟨fs, b, c, rfl⟩ := exists_plug hp
  obtain ⟨rp, rt⟩ := rep_plug.1 ⟨hT.rep, hT.root⟩
  have hfuel : (plug fs (.node p b c)).toList.length ≤ m.avl_count := hT.count.ge
  obtain ⟨path, hole, ⟨h1, rt1, e1, p1, r1⟩, hpb, hhb, hl⟩ :=
    detach_spec rp rt hT.nodup hT.bal hfuel
  have hT' : (plug fs (.node p b c)).toList =
      (pathL fs ++ (c false).toList) ++ p :: ((c true).toList ++ pathR fs) := by
    simp [toList_plug, toList]
  have hn0 := hT.nodup
  rw [refs, hT', map_append, map_cons] at hn0
  have hnd : (refs (plug path hole)).Nodup := by
    rw [refs, hl, map_append]
    exact (nodup_cons.1 (nodup_middle.1 hn0)).2
  have hpout : p.ref ∉ refs (plug path hole) := by
    rw [refs, hl, map_append]
    exact (nodup_cons.1 (nodup_middle.1 hn0)).1
  -- freeing the node
  set h2 := Function.update h1 p.ref none with hh2
  have hp2 : p.ref ∉ refs hole ∧ p.ref ∉ pathRefs path := by
    have := (refs_plug_perm path hole).mem_iff (a := p.ref)
    rw [mem_append] at this
    tauto
  have p2 : RepPath h2 rt1 path (root hole) := p1.congr fun a ha => update_off hp2.2 ha
  have r2 : Rep h2 (parentOf path) hole := r1.congr fun a ha => update_off hp2.1 ha
  have hlen : path.length + 1 ≤ m.avl_count + 1 := by
    have h1 := path_length_le path hole
    have h2 := hT.count
    rw [hT', length_append, length_cons] at h2
    rw [hl, length_append] at h1
    omega
  obtain ⟨h3, rt3, e3, r3, hr3⟩ := deleteLoop_spec p2 r2 hnd hpb hhb hlen
  have hlist : (shrink path hole).toList = (pathL fs ++ (c false).toList) ++ ((c true).toList ++ pathR fs) := by
    rw [toList_shrink, hl]
  refine ⟨⟨h3, rt3, m.avl_count - 1⟩, shrink path hole, pathL fs ++ (c false).toList,
    (c true).toList ++ pathR fs, ?_, ⟨r3, hr3, ?_, shrink_bal hpb hhb, ?_, ?_⟩, hT', hlist⟩
  · simp only [delete_node, rt.1, e1, ← hh2, e3, Option.bind_eq_bind, Option.bind_some, obj_val]
    rfl
  · rwa [refs, toList_shrink]
  · rw [hlist]
    have := hT.sorted
    rw [hT'] at this
    exact (sortedBy_middle.1 this).1
  · show m.avl_count - 1 = _
    rw [hlist, hT.count, hT']
    simp only [length_append, length_cons]
    omega

end OpenSips.Map
