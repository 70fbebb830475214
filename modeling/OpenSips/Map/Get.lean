import OpenSips.Map.Rotate
import OpenSips.Map.Order

/-!
# OpenSips.Map.Get — `map_find` and `map_get` on a represented tree

The searches follow the tree; `map_get` hangs a leaf below the searched path, `bumpLoop` is `bump`
and the rotation at the last unbalanced node `y` is `settle`.
-/

namespace OpenSips.Map

open Function Lib Lib.AvlTree List

/-! ### The searches -/

theorem findLoop_node {h : Heap} {key : Str} {par : Option Ref} {x : Cell} {b : ℤ}
    {l : Bool → Option Ref} (e : h x.ref = some (obj par x b l)) (fuel : ℕ) :
    findLoop h key (fuel + 1) (some x.ref) = if str_cmp key x.key < 0 then findLoop h key fuel (l false)
      else if str_cmp key x.key > 0 then findLoop h key fuel (l true)
      else some (some x.ref) := by
  rw [findLoop, e]
  rfl

theorem getLoop_node {h : Heap} {key : Str} {par : Option Ref} {x : Cell} {b : ℤ}
    {l : Bool → Option Ref} (e : h x.ref = some (obj par x b l)) (fuel : ℕ) (q y : Option Ref)
    (dir : Bool) :
    getLoop h key (fuel + 1) q (some x.ref) y dir = if str_cmp key x.key = 0 then some (.found x.ref)
      else getLoop h key fuel (some x.ref) (l (decide (str_cmp key x.key > 0)))
        (if b ≠ 0 then some x.ref else y) (decide (str_cmp key x.key > 0)) := by
  rw [getLoop, e]
  rfl

theorem fuel_node {x : Cell} {b : ℤ} {c : Bool → Tree} {fuel : ℕ} (hf : height (.node x b c) < fuel) :
    ∃ fuel', fuel = fuel' + 1 ∧ ∀ d, height (c d) < fuel' := by
  have hle : ∀ d, height (c d) + 1 ≤ height (.node x b c) := by
    rw [height]
    rintro ⟨⟩ <;> omega
  have h0 := height_nonneg (c false)
  have h1 := hle false
  refine ⟨fuel - 1, by omega, fun d => ?_⟩
  have := hle d
  omega

theorem findLoop_spec {h : Heap} (key : Str) {par : Option Ref} {t : Tree} (ht : Rep h par t)
    {fuel : ℕ} (hf : height t < fuel) (hs : Sorted t.toList) :
    findLoop h key fuel (root t) = some ((find str_cmp Cell.key key t.toList).map Cell.ref) := by
  induction t generalizing par fuel with
  | nil =>
    rw [height_nil] at hf
    cases fuel with
    | zero => simp at hf
    | succ fuel => rfl
  | node x b c ih =>
    obtain ⟨e, hc⟩ := ht
    obtain ⟨fuel, rfl, hfuel⟩ := fuel_node hf
    obtain ⟨s1, s2, s3⟩ := sortedBy_middle.1 hs
    have hsub : ∀ d, findLoop h key fuel (root (c d)) =
        some ((find str_cmp Cell.key key (c d).toList).map Cell.ref) := by
      intro d
      refine ih d (hc d) (hfuel d) ?_
      cases d
      · exact (pairwise_append.1 s1).1
      · exact (pairwise_append.1 s1).2.1
    rw [root_node, findLoop_node e, toList, find_middle str_cmp_lawful hs]
    -- the side that is not searched cannot hold the key
    have skip : ∀ L : List Cell, (∀ a ∈ L, str_cmp key a.key ≠ 0) → find str_cmp Cell.key key L = none := by
      intro L hL
      rw [find, find?_eq_none]
      intro a ha
      simpa using hL a ha
    have tri : str_cmp key x.key < 0 ∨ str_cmp key x.key = 0 ∨ str_cmp key x.key > 0 := by omega
    rcases tri with hlt | heq | hgt
    · have hno : find str_cmp Cell.key key (c true).toList = none := skip _ fun a ha => by
        have := str_cmp_lawful.lt_of_lt_of_le hlt (le_of_lt (s3 a ha)); omega
      rw [if_pos hlt, if_neg (by omega), hsub false, find_append, hno, Option.or_none]
    · rw [if_neg (by omega), if_neg (by omega), if_pos heq]
      rfl
    · have hno : find str_cmp Cell.key key (c false).toList = none := skip _ fun a ha => by
        have hn := str_cmp_neg key x.key
        have := str_cmp_lawful.lt_of_lt_of_le (s2 a ha) (show str_cmp x.key key ≤ 0 by omega)
        have := str_cmp_neg key a.key
        omega
      rw [if_neg (by omega), if_pos hgt, if_neg (by omega), hsub true, find_append, hno, Option.none_or]

/-- The last unbalanced node of a path, `y` being the one before it. -/
def lastUnbal (fs : Path) (y : Option Ref) : Option Ref :=
  match fs.find? fun f => decide (f.b ≠ 0) with
  | some f => some f.x.ref
  | none => y

theorem getLoop_spec {h : Heap} (key : Str) {t : Tree} (fs : Path) (ht : Rep h (parentOf fs) t)
    {fuel : ℕ} (hf : height t < fuel) (y : Option Ref) (dir : Bool)
    (hd : ∀ f ∈ fs.head?, dir = f.dir) :
    (∃ x ∈ t.toList, str_cmp key x.key = 0 ∧
      getLoop h key fuel (parentOf fs) (root t) y dir = some (.found x.ref)) ∨
    ∃ low : Path, ∃ dir', plug low .nil = t ∧ Turned key low ∧ (∀ f ∈ (low ++ fs).head?, dir' = f.dir) ∧
      getLoop h key fuel (parentOf fs) (root t) y dir =
        some (.absent (parentOf (low ++ fs)) (lastUnbal low y) dir') := by
  induction t generalizing fs fuel y dir with
  | nil =>
    refine .inr ⟨[], dir, rfl, by simp [Turned], hd, ?_⟩
    rw [height_nil] at hf
    cases fuel with
    | zero => simp at hf
    | succ fuel => rfl
  | node x b c ih =>
    obtain ⟨e, hc⟩ := ht
    obtain ⟨fuel, rfl, hfuel⟩ := fuel_node hf
    rw [root_node, getLoop_node e]
    by_cases hcmp : str_cmp key x.key = 0
    · exact .inl ⟨x, (mem_toList_node true).2 (.inl rfl), hcmp, by rw [if_pos hcmp]⟩
    · rw [if_neg hcmp]
      set d := decide (str_cmp key x.key > 0) with hdef
      let f : Frame Cell := ⟨d, x, b, c !d⟩
      have hfill : f.fill (c d) = .node x b c := by
        show AvlTree.node x b (pair d (c d) (c !d)) = _
        rw [pair_eta]
      rcases ih d (f :: fs) (hc d) (hfuel d) (if b ≠ 0 then some x.ref else y) d
          (by simp [f]) with ⟨z, hz, hzk, hz'⟩ | ⟨low, dir', hl, htn, hdir, hl'⟩
      · exact .inl ⟨z, (mem_toList_node d).2 (.inr (.inl hz)), hzk, hz'⟩
      · refine .inr ⟨low ++ [f], dir', ?_, ?_, ?_, ?_⟩
        · rw [plug_append, hl, plug_cons, hfill, plug_nil]
        · intro g hg
          rcases mem_append.1 hg with hg | hg
          · exact htn g hg
          · rw [mem_singleton] at hg
            subst hg
            exact ⟨hcmp, rfl⟩
        · simpa using hdir
        · have hly : lastUnbal (low ++ [f]) y = lastUnbal low (if b ≠ 0 then some x.ref else y) := by
            simp only [lastUnbal, find?_append]
            cases hfind : low.find? fun f => decide (f.b ≠ 0) with
            | some g => rfl
            | none =>
              by_cases hb : b = 0 <;> simp [f, hb]
          rw [hly, append_assoc]
          exact hl'

theorem split_lastUnbal {t : Tree} : ∀ fs : Path, fs ≠ [] → root (plug fs t) ≠ none →
    ∃ low f up, fs = low ++ f :: up ∧ (∀ g ∈ low, g.b = 0) ∧ (f.b ≠ 0 ∨ up = []) ∧
      lastUnbal fs (root (plug fs t)) = some f.x.ref
  | [], h, _ => absurd rfl h
  | f :: fs, _, hr => by
    by_cases hb : f.b = 0
    · cases fs with
      | nil => exact ⟨[], f, [], rfl, by simp, .inr rfl, by simp [lastUnbal, hb, Frame.fill]⟩
      | cons g gs =>
        obtain ⟨low, f', up, e, h0, hf, hy⟩ :=
          split_lastUnbal (t := f.fill t) (g :: gs) (by simp) hr
        refine ⟨f :: low, f', up, by rw [e]; rfl, ?_, hf, ?_⟩
        · intro z hz
          rcases mem_cons.1 hz with rfl | hz
          · exact hb
          · exact h0 z hz
        · rw [plug_cons, ← hy]
          simp [lastUnbal, hb]
    · exact ⟨[], f, fs, rfl, by simp, .inl hb, by simp [lastUnbal, hb]⟩

/-! ### The balance factors below `y` -/

/-- The side test `q->avl_link[0] != p` of the upward loops. -/
theorem side_test {d : Bool} {p : Ref} {s : Tree} (hp : p ∉ refs s) :
    (pair d (some p) (root s) false != some p) = d := by
  cases d
  · simp [pair]
  · have : root s ≠ some p := fun e => hp (root_mem e)
    simpa [pair] using this

theorem bumpLoop_spec {low : Path} {f : Frame Cell} {up : Path} {t : Tree} {h : Heap}
    {rt : Option Ref} {p : Ref} (hp : RepPath h rt (low ++ f :: up) (root t))
    (ht : Rep h (parentOf (low ++ f :: up)) t) (hr : root t = some p)
    (hn : (refs (plug (low ++ f :: up) t)).Nodup) {fuel : ℕ} (hf : low.length + 2 ≤ fuel) :
    ∃ h', bumpLoop fuel h p f.x.ref = some h' ∧
      RepPath h' rt (f.withB (f.b + sgn f.dir) :: up) (root (plug (bump low) t)) ∧
      Rep h' (some f.x.ref) (plug (bump low) t) := by
  induction low generalizing t h p fuel with
  | nil =>
    obtain ⟨n1, n2, n3⟩ := nodup_plug.1 hn
    obtain ⟨e, rs, ru⟩ := hp
    rw [hr] at e
    have hpf : p ≠ f.x.ref := by
      rintro rfl
      exact n3 _ (root_mem hr) (mem_pathRefs.2 (.inl rfl))
    have hps : p ∉ refs f.sib := fun hb =>
      n3 _ (root_mem hr) (mem_pathRefs.2 (.inr (.inl hb)))
    obtain ⟨m1, m2, -⟩ := nodup_path.1 n2
    obtain ⟨fuel, rfl⟩ : ∃ k, fuel = k + 2 := ⟨fuel - 2, by simp at hf; omega⟩
    have hpar : ∃ n, h p = some n ∧ n.avl_parent = some f.x.ref := by
      cases t with
      | nil => cases hr
      | node x b c => cases hr; exact ⟨_, ht.1, rfl⟩
    obtain ⟨n, hn1, hn2⟩ := hpar
    have hft : f.x.ref ∉ refs t := fun hb => n3 _ hb (mem_pathRefs.2 (.inl rfl))
    refine ⟨update h f.x.ref (some (obj (parentOf up) f.x (f.b + sgn f.dir)
      (pair f.dir (root t) (root f.sib)))), ?_, ⟨?_, ?_, ?_⟩, ?_⟩
    · simp only [bumpLoop, if_neg hpf, hn1, hn2, e, store_of _ e, Option.bind_eq_bind,
        Option.bind_some, obj_link, side_test hps, if_true, obj_balance, obj_setBalance, hr]
    · simp [bump]
    · exact rs.congr fun a ha => update_off m1 ha
    · exact ru.congr fun a ha => update_off m2 ha
    · exact ht.congr fun a ha => update_off hft ha
  | cons g low ih =>
    rw [cons_append] at hp ht hn
    obtain ⟨n1, n2, n3⟩ := nodup_plug.1 hn
    obtain ⟨e, rs, ru⟩ := hp
    rw [hr] at e
    have hpm := root_mem hr
    have hgm : f.x.ref ∈ pathRefs (low ++ f :: up) := by
      clear * -
      induction low with
      | nil => exact mem_pathRefs.2 (.inl rfl)
      | cons g low ih => exact mem_pathRefs.2 (.inr (.inr ih))
    have hpf : p ≠ f.x.ref := by
      rintro rfl
      exact n3 _ hpm (mem_pathRefs.2 (.inr (.inr hgm)))
    have hps : p ∉ refs g.sib := fun hb => n3 _ hpm (mem_pathRefs.2 (.inr (.inl hb)))
    obtain ⟨m1, m2, -⟩ := nodup_path.1 n2
    obtain ⟨fuel, rfl⟩ : ∃ k, fuel = k + 1 := ⟨fuel - 1, by simp at hf; omega⟩
    have hpar : ∃ n, h p = some n ∧ n.avl_parent = some g.x.ref := by
      cases t with
      | nil => cases hr
      | node x b c => cases hr; exact ⟨_, ht.1, rfl⟩
    obtain ⟨n, hn1, hn2⟩ := hpar
    have hgt : g.x.ref ∉ refs t := fun hb => n3 _ hb (mem_pathRefs.2 (.inl rfl))
    set h1 := update h g.x.ref (some (obj (parentOf (low ++ f :: up)) g.x
      (g.b + sgn g.dir) (pair g.dir (root t) (root g.sib)))) with hh1
    have r1 : RepPath h1 rt (low ++ f :: up) (root ((g.withB (g.b + sgn g.dir)).fill t)) :=
      ru.congr fun a ha => update_off m2 ha
    have r2 : Rep h1 (parentOf (low ++ f :: up)) ((g.withB (g.b + sgn g.dir)).fill t) := by
      rw [rep_fill]
      refine ⟨by simp [hh1], ht.congr fun a ha => update_off hgt ha, rs.congr fun a ha => update_off m1 ha⟩
    have hnd : (refs (plug (low ++ f :: up) ((g.withB (g.b + sgn g.dir)).fill t))).Nodup := by
      rw [refs_plug_fill_withB]
      exact hn
    have hf' : low.length + 2 ≤ fuel := by simp at hf; omega
    obtain ⟨h', i1, i2, i3⟩ := ih r1 r2 rfl hnd hf'
    refine ⟨h', ?_, i2, i3⟩
    simp only [bumpLoop, if_neg hpf, hn1, hn2, e, store_of _ e, Option.bind_eq_bind,
      Option.bind_some, obj_link, side_test hps, obj_balance, obj_setBalance]
    rw [hr] at hh1
    rw [← hh1]
    exact i1

/-! ### The rotation at `y` -/

theorem insertRotate_spec {h : Heap} {par : Option Ref} {f : Frame Cell} {t : Tree} {n : ℤ}
    (hf : f.Bal n) (ht : Balanced t) (hn : height t = n + 1)
    (hx : ∀ x b c, t = .node x b c → f.b = sgn f.dir → b ≠ 0)
    (h2 : f.b + sgn f.dir = 2 * sgn f.dir)
    (hr : Rep h par ((f.withB (f.b + sgn f.dir)).fill t)) (hd : (refs (f.fill t)).Nodup) :
    ∃ h' w, insertRotate f.dir h f.x.ref = some (h', w) ∧ Rep h' par (settle f t) ∧
      root (settle f t) = some w ∧ ∀ a, a ∉ refs (f.fill t) → h' a = h a := by
  obtain ⟨-, -, x, bx, cx, rfl, ⟨hxb, e⟩ | ⟨hxb, hxn, w, bw, cw, hw, e⟩⟩ :=
    settle_cases hf ht hn hx h2
  · obtain ⟨ey, rx, -⟩ := rep_fill.1 hr
    obtain ⟨ex, -⟩ := (rep_node f.dir).1 rx
    simp only [Frame.withB_x, Frame.withB_b, Frame.withB_dir, Frame.withB_sib, root_node] at ey ex
    have hyx : f.x.ref ≠ x.ref := fun e => ((nodup_node f.dir).1 hd).1
      (by rw [pair_same, e]; exact (mem_refs_node true).2 (.inl rfl))
    obtain ⟨h1, e1, y1, x1, f1⟩ := insertSingle_spec ey ex hyx
    obtain ⟨h', e2, r2, f2⟩ := single_spec hr hd y1 x1 f1
    refine ⟨h', x.ref, ?_, e ▸ r2, by rw [e]; rfl, f2⟩
    simp only [Frame.withB_x, Frame.withB_dir] at e2
    simp only [insertRotate, ey, ex, e1, y1, e2, hxb, Option.bind_eq_bind, Option.bind_some,
      obj_link, obj_balance, pair_same, if_true]
    rfl
  · obtain ⟨ey, rx, -⟩ := rep_fill.1 hr
    obtain ⟨ex, -⟩ := (rep_node f.dir).1 rx
    simp only [Frame.withB_x, Frame.withB_b, Frame.withB_dir, Frame.withB_sib, root_node] at ey ex
    obtain ⟨h', e1, r1, f1⟩ := doubleRotate_spec hr hd hw
    refine ⟨h', w.ref, ?_, e ▸ r1, by rw [e]; rfl, f1⟩
    rw [hxn] at hxb
    simp only [insertRotate, ey, ex, Option.bind_eq_bind, Option.bind_some, obj_link, obj_balance,
      pair_same, hxn, hxb, if_false, guard_true, Option.pure_def]
    exact e1

theorem relink_spec {h : Heap} {rt : Option Ref} {up : Path} {y w : Ref} {t : Tree}
    (hp : RepPath h rt up (some y)) (ht : Rep h (parentOf up) t) (hw : root t = some w)
    (hn : (refs (plug up t)).Nodup) (hy : y ∉ pathRefs up) :
    ∃ h' rt', relink h rt y w = some (h', rt') ∧ Rep h' none (plug up t) ∧ rt' = root (plug up t) := by
  obtain ⟨n1, n2, n3⟩ := nodup_plug.1 hn
  have hpar : ∃ n, h w = some n ∧ n.avl_parent = parentOf up := by
    cases t with
    | nil => cases hw
    | node x b c => cases hw; exact ⟨_, ht.1, rfl⟩
  obtain ⟨n, e1, e2⟩ := hpar
  cases up with
  | nil =>
    refine ⟨h, some w, ?_, ht, hw.symm⟩
    simp [relink, e1, e2]
  | cons f fs =>
    obtain ⟨h', rt', s1, s2, s3, s4⟩ :=
      setSlot_spec hp n2 (some w) f.dir (by simp) (by simp)
    have hsib : y ∉ refs f.sib := fun hb => hy (mem_pathRefs.2 (.inr (.inl hb)))
    refine ⟨h', rt', ?_, ?_⟩
    · rw [← s1]
      simp only [relink, e1, e2, parentOf_cons, hp.1, side_test hsib, setSlot, Option.bind_eq_bind,
        Option.bind_some, obj_link]
    · rw [← hw] at s2
      exact rep_plug.2 ⟨s2, ht.congr fun a ha => s3 a (n3 a ha)⟩

theorem insertRebalance_spec {h : Heap} {rt : Option Ref} {f : Frame Cell} {up : Path} {t : Tree}
    {n : ℤ} (hf : f.Bal n) (ht : Balanced t) (hn : height t = n + 1)
    (hx : ∀ x b c, t = .node x b c → f.b = sgn f.dir → b ≠ 0)
    (hp : RepPath h rt (f.withB (f.b + sgn f.dir) :: up) (root t)) (hr : Rep h (some f.x.ref) t)
    (hd : (refs (plug up (f.fill t))).Nodup) :
    ∃ h' rt', insertRebalance h rt f.x.ref = some (h', rt') ∧
      Rep h' none (plug up (settle f t)) ∧ rt' = root (plug up (settle f t)) := by
  obtain ⟨ey, rsib, rup⟩ := hp
  have hrf : Rep h (parentOf up) ((f.withB (f.b + sgn f.dir)).fill t) :=
    rep_fill.2 ⟨ey, hr, rsib⟩
  obtain ⟨q1, q2, q3⟩ := nodup_plug.1 hd
  have hfup : f.x.ref ∉ pathRefs up := q3 _ ((mem_refs_node true).2 (.inl rfl))
  simp only [Frame.withB_x, Frame.withB_b, Frame.withB_dir, Frame.withB_sib] at ey rup
  have hdS : (refs (plug up (settle f t))).Nodup := by
    have e : (plug up (settle f t)).toList = (plug up (f.fill t)).toList := by
      rw [toList_plug, toList_settle, ← toList_plug]
    rw [refs, e]
    exact hd
  by_cases h2 : f.b + sgn f.dir = 2 * sgn f.dir
  · obtain ⟨h1, w, e1, r1, hw, f1⟩ := insertRotate_spec hf ht hn hx h2 hrf q1
    have rup1 : RepPath h1 rt up (some f.x.ref) := rup.congr fun a ha => f1 a fun hb => q3 a hb ha
    obtain ⟨h', rt', e2, r2, hrt⟩ := relink_spec rup1 r1 hw hdS hfup
    refine ⟨h', rt', ?_, r2, hrt⟩
    have hs : f.b + sgn f.dir = if f.dir then 2 else -2 := by
      rw [h2]; cases f.dir <;> rfl
    simp only [insertRebalance, ey, Option.bind_eq_bind, Option.bind_some, obj_balance, hs]
    cases hdir : f.dir with
    | true =>
      rw [hdir] at e1
      simp only [if_true, e1, Option.bind_some, e2]
      rfl
    | false =>
      rw [hdir] at e1
      simp only [Bool.false_eq_true, if_false, if_true, e1, Option.bind_some, e2]
  · have e : settle f t = (f.withB (f.b + sgn f.dir)).fill t := if_neg h2
    refine ⟨h, rt, ?_, ?_⟩
    · obtain ⟨-, b1, b2, -⟩ := hf
      have g1 : ¬ f.b + sgn f.dir = -2 := by
        rcases sgn_eq f.dir with hd | hd <;> rw [hd] at h2 ⊢ <;> omega
      have g2 : ¬ f.b + sgn f.dir = 2 := by
        rcases sgn_eq f.dir with hd | hd <;> rw [hd] at h2 ⊢ <;> omega
      simp only [insertRebalance, ey, Option.bind_eq_bind, Option.bind_some, obj_balance, g1, g2, if_false]
      rfl
    · rw [e]
      exact rep_plug.2 ⟨rup, hrf⟩

/-! ### `map_get` -/

/-- The heap holds the search tree `T`: balanced, sorted, without shared nodes, counted. -/
structure Holds (m : AvlTable) (T : Tree) : Prop where
  rep : Rep m.heap none T
  root : m.avl_root = root T
  nodup : (refs T).Nodup
  bal : Balanced T
  sorted : Sorted T.toList
  count : m.avl_count = T.toList.length

theorem Holds.fuel {m : AvlTable} {T : Tree} (hT : Holds m T) :
    height T < ((m.avl_count + 1 : ℕ) : ℤ) := by
  have := height_le_length T
  rw [hT.count]
  push_cast
  omega

theorem Holds.fresh {m : AvlTable} {T : Tree} (hT : Holds m T) {n : Ref} (hn : m.heap n = none) :
    n ∉ refs T := by
  intro h
  obtain ⟨o, ho⟩ := hT.rep.get h
  rw [hn] at ho
  cases ho

theorem map_find_spec {m : AvlTable} {T : Tree} (hT : Holds m T) (key : Str) :
    map_find m key = some ((find str_cmp Cell.key key T.toList).map Cell.ref) := by
  rw [map_find, hT.root]
  exact findLoop_spec key hT.rep hT.fuel hT.sorted

theorem path_length_le (fs : Path) (t : Tree) : fs.length ≤ (plug fs t).toList.length := by
  induction fs generalizing t with
  | nil => simp
  | cons f fs ih =>
    rw [plug_cons, toList_plug]
    have := ih .nil
    rw [toList_plug] at this
    have hne : 1 ≤ (f.fill t).toList.length := by
      simp only [Frame.fill, toList, length_append, length_cons]
      omega
    simp only [length_append, length_cons, toList_nil, length_nil] at this ⊢
    omega

/-- **`map_get` finds the entry or inserts it**: in the second case the new entry, with value
`NULL`, sits in the sorted list of entries and the tree is balanced again. -/
theorem map_get_spec {m : AvlTable} {T : Tree} (hT : Holds m T) (key : Str) {n : Ref} (hn : m.heap n = none) :
    (∃ x ∈ T.toList, str_cmp key x.key = 0 ∧ map_get m key n = some (m, x.ref)) ∨
    ∃ m' T' A B, find str_cmp Cell.key key T.toList = none ∧ T.toList = A ++ B ∧
      map_get m key n = some (m', n) ∧ Holds m' T' ∧ T'.toList = A ++ ⟨n, key, NULL⟩ :: B := by
  have hfresh := hT.fresh hn
  rcases getLoop_spec key [] hT.rep hT.fuel m.avl_root false (by simp)
    with ⟨x, hx, hk, e⟩ | ⟨fs, dir, hpl, htn, hdir, e⟩
  · refine .inl ⟨x, hx, hk, ?_⟩
    rw [← hT.root, parentOf_nil] at e
    simp [map_get, e]
  · rw [append_nil] at e hdir
    rw [parentOf_nil, ← hT.root] at e
    subst hpl
    set x : Cell := ⟨n, key, NULL⟩ with hx
    set leaf : Tree := .node x 0 fun _ => .nil with hleaf
    have hs := sorted_insert (x := x) rfl htn hT.sorted
    have hTl : (plug fs .nil : Tree).toList = pathL fs ++ pathR fs := by
      rw [toList_plug, toList_nil, append_nil]
    have hLl : (plug fs leaf).toList = pathL fs ++ x :: pathR fs := by
      rw [toList_plug]; simp [hleaf, toList]
    have hnd : (refs (plug fs leaf)).Nodup := by
      have := hT.nodup
      rw [refs, hTl, map_append] at this
      rw [refs, hTl, map_append] at hfresh
      rw [refs, hLl, map_append, map_cons]
      exact nodup_middle.2 (nodup_cons.2 ⟨hfresh, this⟩)
    have hcount : m.avl_count + 1 = (plug fs leaf).toList.length := by
      rw [hT.count, hTl, hLl]
      simp only [length_append, length_cons]
      omega
    refine .inr ?_
    obtain ⟨n1, n2, n3⟩ := nodup_plug.1 hnd
    have hnp : n ∉ pathRefs fs := n3 n ((mem_refs_node true).2 (.inl rfl))
    have hlb : AvlTree.Balanced leaf := by simp [hleaf, AvlTree.Balanced]
    have hlh : height leaf = 1 := by simp [hleaf, height]
    -- the state behind the allocation and `n->avl_parent = q`
    set h0 := update m.heap n (some ⟨fun _ => none, parentOf fs, key, NULL, 0⟩) with hh0
    have rp0 : RepPath h0 m.avl_root fs none := by
      have := rep_plug.1 ⟨hT.rep, hT.root⟩
      exact this.1.congr fun a ha => update_off hnp ha
    have rl0 : Rep h0 (parentOf fs) leaf := by
      refine ⟨?_, fun d => trivial⟩
      simp only [hh0, hx, update_self]
      rfl
    cases fs with
    | nil =>
      refine ⟨⟨h0, some n, m.avl_count + 1⟩, leaf, [], [], hs.2, rfl, ?_,
        ⟨rl0, rfl, hnd, hlb, by simp [hleaf, toList, SortedBy], hcount⟩, rfl⟩
      simp only [map_get, e, Option.bind_eq_bind, Option.bind_some]
      rfl
    | cons g gs =>
      obtain ⟨h1, rt1, s1, s2, s3, s4⟩ :=
        setSlot_spec rp0 n2 (some n) dir hdir (by simp)
      have hrt1 := s4 (by simp)
      subst hrt1
      have rl1 : Rep h1 (parentOf (g :: gs)) leaf := rl0.congr fun a ha => s3 a (n3 a ha)
      have e1 : store h0 g.x.ref (.setLink dir (some n)) = some h1 := by
        simp only [setSlot, parentOf_cons] at s1
        cases hst : store h0 g.x.ref (.setLink dir (some n)) with
        | none => rw [hst] at s1; cases s1
        | some h => rw [hst] at s1; cases s1; rfl
      have hrne : root (plug (g :: gs) (.nil : Tree)) ≠ none := by
        intro hr
        cases hp : plug (g :: gs) (.nil : Tree) with
        | nil =>
          have := congrArg (fun t : Tree => t.toList.length) hp
          have hl := path_length_le (g :: gs) (.nil : Tree)
          simp only [toList_nil, length_nil] at this
          rw [this] at hl
          simp at hl
        | node x b c => rw [hp] at hr; cases hr
      obtain ⟨low, f, up, hsp, hlow, hf, hy⟩ := split_lastUnbal (g :: gs) (by simp) hrne
      rw [← hT.root] at hy
      rw [hy] at e
      rw [hsp] at s2 rl1 hnd
      have hlen : low.length + 2 ≤ m.avl_count + 1 + 1 := by
        have := path_length_le (g :: gs) (.nil : Tree)
        rw [← hT.count, hsp] at this
        simp only [length_append, length_cons] at this
        omega
      obtain ⟨h2, e2, p2, r2⟩ := bumpLoop_spec (p := n) s2 rl1 rfl hnd hlen
      have hbT := hT.bal
      rw [hsp] at hbT
      obtain ⟨b1, b2, b3, b4, b5⟩ := insert_settle hbT hlow hlb hlh
      have hnd2 : (refs (plug up (f.fill (plug (bump low) leaf)))).Nodup := by
        have : (plug up (f.fill (plug (bump low) leaf))).toList = (plug (low ++ f :: up) leaf).toList := by
          rw [← toList_insert, toList_plug, toList_plug, toList_settle]
        rw [refs, this]
        exact hnd
      obtain ⟨h3, rt3, e3, r3, hrt3⟩ := insertRebalance_spec b1 b3 b4 b5 p2 r2 hnd2
      have hlist : (plug up (settle f (plug (bump low) leaf))).toList = (plug (g :: gs) leaf).toList := by
        rw [toList_insert, ← hsp]
      refine ⟨⟨h3, rt3, m.avl_count + 1⟩, plug up (settle f (plug (bump low) leaf)),
        pathL (g :: gs), pathR (g :: gs), hs.2, hTl, ?_,
        ⟨r3, hrt3, ?_, insert_bal hbT hlow hf hlb hlh, ?_, ?_⟩, hlist.trans hLl⟩
      · simp only [parentOf_cons] at hh0
        simp only [map_get, e, parentOf_cons, Option.bind_eq_bind, Option.bind_some, ← hh0, e1, e2, e3]
        rfl
      · rw [refs, hlist, hsp]; exact hnd
      · rw [hlist, hLl]; exact hs.1
      · rw [hlist]; exact hcount

end OpenSips.Map
