import OpenSips.FMalloc.Frags

/-!
# OpenSips.FMalloc.Links — `fm_insert_free` and `fm_remove_free`

Both write to cells of one bucket only (`remove_spec`, `insert_spec`): the sizes of the fragments, the
other buckets and what is on no list stay as they are.
-/

namespace OpenSips.FMalloc

open Lib List Option Function
open QMalloc (Frag wrap wsub)

variable {b : Build} {q q' q'' : FmBlock} {frs A B : List Frag} {L : ℕ → List ℕ} {f : Frag}

structure SameArena (q q' : FmBlock) : Prop where
  qm : q'.qm = q.qm
  size : q'.size = q.size
  first_frag : q'.first_frag = q.first_frag
  last_frag : q'.last_frag = q.last_frag

theorem SameArena.refl (q : FmBlock) : SameArena q q := ⟨rfl, rfl, rfl, rfl⟩

theorem SameArena.trans (h : SameArena q q') (h' : SameArena q' q'') : SameArena q q'' :=
  ⟨h'.1.trans h.1, h'.2.trans h.2, h'.3.trans h.3, h'.4.trans h.4⟩

theorem SameArena.free_hash (h : SameArena q q') (hash : ℕ) : free_hash b q' hash = free_hash b q hash := by
  unfold FMalloc.free_hash
  rw [h.qm]

/-- The fragments of `G` that are on no list were not written at all. -/
def Frozen (b : Build) (q q' : FmBlock) (G : List Frag) : Prop :=
  ∀ g ∈ G, g.free = false → ∀ j < span b g, q'.mem (g.addr + j) = q.mem (g.addr + j)

theorem Frozen.refl (G : List Frag) : Frozen b q q G := fun _ _ _ _ _ => rfl

theorem Frozen.trans {G : List Frag} (h : Frozen b q q' G) (h' : Frozen b q' q'' G) :
    Frozen b q q'' G := fun g hg hf j hj => (h' g hg hf j hj).trans (h g hg hf j hj)

theorem Frozen.mono {G G' : List Frag} (h : Frozen b q q' G) (hs : ∀ g ∈ G', g ∈ G) :
    Frozen b q q' G' := fun g hg => h g (hs g hg)

theorem mem_middle {α : Type*} {g f : α} {A B : List α} : g ∈ A ++ f :: B ↔ g = f ∨ g ∈ A ++ B := by
  rw [mem_append, mem_cons, mem_append]
  tauto

/-! ### Structure without memory -/

theorem Base.flag (u : Bool) (hB : Base b q (A ++ f :: B)) : Base b q (A ++ { f with free := u } :: B) := by
  have hmem : ∀ {P : ℕ → ℕ → Prop}, (∀ g ∈ A ++ f :: B, P g.addr g.size) →
      ∀ g ∈ A ++ { f with free := u } :: B, P g.addr g.size := fun h g hg => by
    rcases mem_middle.1 hg with rfl | hg
    · exact h f (mem_middle.2 (.inl rfl))
    · exact h g (mem_middle.2 (.inr hg))
  refine ⟨?_, hB.ctl, hB.top, hB.aligned, hmem (P := fun _ s => 8 ∣ s) hB.dvd, hmem (P := fun a s => q.mem a = s) hB.head⟩
  obtain ⟨m, h1, h2⟩ := tiled_append.1 hB.tiled
  exact tiled_append.2 ⟨m, h1, h2⟩

theorem Base.addr_ne (hB : Base b q (A ++ f :: B)) {g : Frag} (hg : g ∈ A ++ B) : g.addr ≠ f.addr := by
  have hnd := hB.tiled.nodup fun x _ => (by decide : 0 < 24).trans_le (span_pos x)
  rw [map_append, map_cons, nodup_middle, ← map_append] at hnd
  exact fun e => (nodup_cons.1 hnd).1 (List.mem_map.2 ⟨g, hg, e⟩)

theorem Filed.flag (u : Bool) {l : List ℕ} (hF : Filed (A ++ f :: B) L) (hB : Base b q (A ++ f :: B))
    (hl : l.Nodup) (hmem : ∀ x, x ∈ l ↔ (x ∈ L (GET_HASH f.size) ∧ x ≠ f.addr) ∨ (u = true ∧ x = f.addr)) :
    Filed (A ++ { f with free := u } :: B) (Function.update L (GET_HASH f.size) l) := by
  have hne : ∀ g ∈ A ++ B, g.addr ≠ f.addr := fun g hg => hB.addr_ne hg
  have split : ∀ {h : Frag} {P : Frag → Prop}, (∃ g ∈ A ++ h :: B, P g) ↔ P h ∨ ∃ g ∈ A ++ B, P g :=
    fun {h P} => by
      simp only [mem_middle, or_and_right, exists_or, exists_eq_left]
  refine ⟨fun h hh x => ?_, fun h hh => ?_⟩
  · have hold := hF.mem_iff h hh x
    rw [split] at hold ⊢
    by_cases e : h = GET_HASH f.size
    · subst e
      rw [update_self, hmem, hold]
      constructor
      · rintro (⟨h1, h2⟩ | ⟨h1, h2⟩)
        · exact .inr (h1.resolve_left fun h => h2 h.1.symm)
        · exact .inl ⟨h2.symm, h1, rfl⟩
      · rintro (⟨h1, h2, -⟩ | ⟨g, hg, h1, h2⟩)
        · exact .inr ⟨h2, h1.symm⟩
        · exact .inl ⟨.inr ⟨g, hg, h1, h2⟩, h1 ▸ hne g hg⟩
    · rw [update_of_ne e, hold]
      have e' : GET_HASH f.size ≠ h := fun h => e h.symm
      simp only [e', and_false, false_or]
  · by_cases e : h = GET_HASH f.size
    · rw [e, update_self]
      exact hl
    · rw [update_of_ne e]
      exact hF.nodup h hh

/-- **Writes to the cells of one bucket** spare the sizes, the other buckets and what is on no list. -/
theorem Base.rewire {h : ℕ} (hB : Base b q frs) (hF : Filed frs L) (hh : h < F_HASH_SIZE) (ha : SameArena q q')
    (hm : ∀ c ∉ cells nxt_free prev (free_hash b q h) (L h), q'.mem c = q.mem c) :
    Base b q' frs ∧ Frozen b q q' frs ∧ ∀ k < F_HASH_SIZE, k ≠ h →
      CellList nxt_free prev q.mem (free_hash b q k) (L k) →
      CellList nxt_free prev q'.mem (free_hash b q' k) (L k) := by
  refine ⟨⟨?_, ?_, ?_, ?_, hB.dvd, fun g hg => ?_⟩, fun g hg hu j hj => ?_, fun k hk hne hl => ?_⟩
  · rw [ha.first_frag, ha.last_frag]
    exact hB.tiled
  · rw [ha.free_hash, ha.first_frag]
    exact hB.ctl
  · rw [ha.last_frag]
    exact hB.top
  · rw [ha.first_frag]
    exact hB.aligned
  · have hs := span_pos (b := b) g
    have hoff := hB.off_cells hF hg (j := 0) (by omega) (.inr (by decide)) hh
    exact (hm _ hoff).trans (hB.head g hg)
  · exact hm _ (hB.off_cells hF hg hj (.inl hu) hh)
  · rw [ha.free_hash]
    exact hl.congr fun c hc => hm c (hB.cells_disjoint hF hk hh hne hc)

/-! ### Taking out -/

theorem free_minus_ctl (q : FmBlock) (size : ℕ) : (free_minus b q size).mem = q.mem ∧
    (free_minus b q size).no = q.no ∧ SameArena q (free_minus b q size) := by
  unfold free_minus
  split_ifs <;> exact ⟨rfl, rfl, rfl, rfl, rfl, rfl⟩

theorem free_plus_ctl (q : FmBlock) (size : ℕ) : (free_plus b q size).mem = q.mem ∧
    (free_plus b q size).no = q.no ∧ SameArena q (free_plus b q size) := by
  unfold free_plus
  split_ifs <;> exact ⟨rfl, rfl, rfl, rfl, rfl, rfl⟩

theorem store_if (c : Prop) [Decidable c] (q : FmBlock) (a v : ℕ) : (if c then q.store a v else q) =
    { q with mem := if c then Function.update q.mem a v else q.mem } := by
  split_ifs <;> rfl

theorem fm_remove_free_ctl (q : FmBlock) (n : ℕ) : (fm_remove_free b q n).mem = linkOut nxt_free prev q.mem n ∧
    (fm_remove_free b q n).no = Function.update q.no (GET_HASH (q.mem n)) (q.no (GET_HASH (q.mem n)) - 1) ∧
    SameArena q (fm_remove_free b q n) := by
  unfold fm_remove_free
  dsimp only
  rw [store_if]
  refine ⟨(free_minus_ctl _ _).1, (free_minus_ctl _ _).2.1, SameArena.trans ?_ (free_minus_ctl _ _).2.2⟩
  exact ⟨rfl, rfl, rfl, rfl⟩

/-- **`fm_remove_free`** takes a fragment off its list. -/
theorem remove_spec (hC : Core b q (A ++ f :: B) L) (hf : f.free = true) :
    ∃ L', Core b (fm_remove_free b q f.addr) (A ++ { f with free := false } :: B) L' ∧
      (fm_remove_free b q f.addr).mem (prev f.addr) = 0 ∧
      SameArena q (fm_remove_free b q f.addr) ∧ Frozen b q (fm_remove_free b q f.addr) (A ++ B) := by
  have hfm : f ∈ A ++ f :: B := mem_middle.2 (.inl rfl)
  have hh := hC.hash_lt hfm
  obtain ⟨hmem, hno, ha⟩ := fm_remove_free_ctl (b := b) q f.addr
  obtain ⟨X, Y, hL⟩ := append_of_mem ((hC.mem_iff _ hh f.addr).2 ⟨f, hfm, rfl, hf, rfl⟩)
  have hnd := hC.nodup _ hh
  rw [hL, nodup_middle, nodup_cons] at hnd
  have hlist := hC.list _ hh
  have hcells := hC.toBase.cells_nodup hC.toFiled hh
  rw [hL] at hlist hcells
  obtain ⟨h1, h2, h3⟩ := hlist.linkOut hcells fun y hy => hC.toFiled.ne_zero hC.toBase hh
    (hL ▸ mem_append_right _ (mem_cons_of_mem _ hy))
  rw [← hmem] at h1 h2 h3
  rw [hC.head f hfm] at hno
  obtain ⟨hB, hfr, hothers⟩ := hC.toBase.rewire hC.toFiled hh ha (hL ▸ h3)
  have hF := hC.toFiled.flag false hC.toBase hnd.2 fun x => by
    rw [hL, mem_append, mem_append, mem_cons]
    have : x ∈ X ∨ x ∈ Y → x ≠ f.addr := fun h e => hnd.1 (mem_append.2 (e ▸ h))
    tauto
  refine ⟨_, ⟨hB.flag false, hF, fun k hk => ?_, fun k hk => ?_⟩, h2, ha,
    hfr.mono fun g hg => mem_middle.2 (.inr hg)⟩
  · by_cases e : k = GET_HASH f.size
    · rw [e, update_self, ha.free_hash]
      exact h1
    · rw [update_of_ne e]
      exact hothers k hk e (hC.list k hk)
  · rw [hno]
    by_cases e : k = GET_HASH f.size
    · rw [e, update_self, update_self, hC.no _ hh, hL]
      simp only [length_append, length_cons]
      omega
    · rw [update_of_ne e, update_of_ne e, hC.no k hk]

/-! ### Putting in -/

/-- The walk of `fm_insert_free` stops at a cell of the list. -/
theorem insertLoop_spec {m : FmBlock} {size fuel a : ℕ} {l : List ℕ}
    (h : CellList nxt_free prev m.mem a l) (h0 : ∀ x ∈ l, x ≠ 0) (hf : l.length < fuel) :
    ∃ X Y, l = X ++ Y ∧ insertLoop m size fuel a = some (lastCell nxt_free a X) := by
  induction l generalizing a fuel with
  | nil =>
    obtain ⟨fuel, rfl⟩ := Nat.exists_eq_add_one_of_ne_zero (Nat.ne_zero_of_lt hf)
    exact ⟨[], [], rfl, if_pos h⟩
  | cons x l ih =>
    obtain ⟨fuel, rfl⟩ := Nat.exists_eq_add_one_of_ne_zero (Nat.ne_zero_of_lt hf)
    obtain ⟨h1, -, h3⟩ := h
    have hx : m.mem a ≠ 0 := h1 ▸ h0 x mem_cons_self
    by_cases hs : size ≤ m.mem x
    · refine ⟨[], x :: l, rfl, ?_⟩
      rw [insertLoop, if_neg hx, h1, if_pos hs]
      rfl
    · obtain ⟨X, Y, hl, he⟩ := ih h3 (fun y hy => h0 y (mem_cons_of_mem _ hy))
        (Nat.lt_of_succ_lt_succ hf)
      refine ⟨x :: X, Y, by rw [hl, cons_append], ?_⟩
      rw [insertLoop, if_neg hx, h1, if_neg hs, he, lastCell]

theorem fm_insert_free_ctl {frag cell : ℕ} (hcell : insertCell b q frag = some cell) :
    ∃ q', fm_insert_free b q frag = some q' ∧ q'.mem = linkIn nxt_free prev q.mem cell frag ∧
      q'.no = Function.update q.no (GET_HASH (q.mem frag)) (q.no (GET_HASH (q.mem frag)) + 1) ∧
      SameArena q q' := by
  unfold fm_insert_free
  simp only [hcell, bind_eq_bind, bind_some]
  rw [store_if]
  refine ⟨_, rfl, (free_plus_ctl _ _).1, (free_plus_ctl _ _).2.1, SameArena.trans ?_ (free_plus_ctl _ _).2.2⟩
  exact ⟨rfl, rfl, rfl, rfl⟩

/-- **`fm_insert_free`** puts a fragment on the list of its size. -/
theorem insert_spec (hC : Core b q (A ++ f :: B) L) (hf : f.free = false) :
    ∃ q' L', fm_insert_free b q f.addr = some q' ∧ Core b q' (A ++ { f with free := true } :: B) L' ∧
      SameArena q q' ∧ Frozen b q q' (A ++ B) := by
  have hfm : f ∈ A ++ f :: B := mem_middle.2 (.inl rfl)
  have hh := hC.hash_lt hfm
  have hsize := hC.head f hfm
  have hne : ∀ {h : ℕ}, h < F_HASH_SIZE → f.addr ∉ L h := fun hk hx => by
    obtain ⟨g, hg, e, hu, -⟩ := (hC.mem_iff _ hk f.addr).1 hx
    rw [hC.toBase.inj hg hfm e, hf] at hu
    cases hu
  obtain ⟨X, Y, hL, hcell⟩ : ∃ X Y, L (GET_HASH f.size) = X ++ Y ∧
      insertCell b q f.addr = some (lastCell nxt_free (free_hash b q (GET_HASH f.size)) X) := by
    unfold insertCell
    rw [hsize]
    split_ifs
    · exact insertLoop_spec (hC.list _ hh) (fun x hx => hC.toFiled.ne_zero hC.toBase hh hx)
        ((hC.toFiled.length_le hh).trans_lt hC.toBase.length_lt)
    · exact ⟨[], _, rfl, rfl⟩
  obtain ⟨q', hq', hmem, hno, ha⟩ := fm_insert_free_ctl hcell
  rw [hsize] at hno
  have hnd := hC.nodup _ hh
  rw [hL] at hnd
  have hnd' : (X ++ f.addr :: Y).Nodup := by
    rw [nodup_middle, nodup_cons]
    exact ⟨hL ▸ hne hh, hnd⟩
  have hF := hC.toFiled.flag true hC.toBase hnd' fun x => by
    rw [hL, mem_middle]
    have : x ∈ X ++ Y → x ≠ f.addr := fun h e => hne hh (hL ▸ e ▸ h)
    tauto
  have hBt := hC.toBase.flag true
  have hcells := hBt.cells_nodup hF hh
  have hlist := hC.list _ hh
  rw [update_self] at hcells
  rw [hL] at hlist
  obtain ⟨h1, h2⟩ := hlist.linkIn hcells fun y hy =>
    hC.toFiled.ne_zero hC.toBase hh (hL ▸ mem_append_right _ hy)
  rw [← hmem] at h1 h2
  obtain ⟨hB, hfr, hothers⟩ := hBt.rewire hF hh ha (by rwa [update_self])
  refine ⟨q', _, hq', ⟨hB, hF, fun k hk => ?_, fun k hk => ?_⟩, ha, hfr.mono fun g hg => mem_middle.2 (.inr hg)⟩
  · by_cases e : k = GET_HASH f.size
    · rw [e, update_self, ha.free_hash]
      exact h1
    · have hk' := hothers k hk e
      rw [update_of_ne e] at hk' ⊢
      exact hk' (hC.list k hk)
  · rw [hno]
    by_cases e : k = GET_HASH f.size
    · rw [e, update_self, update_self, hC.no _ hh, hL]
      simp only [length_append, length_cons]
      omega
    · rw [update_of_ne e, update_of_ne e, hC.no k hk]

end OpenSips.FMalloc
