import Mathlib.Data.List.Nodup
import Mathlib.Data.List.Pairwise

/-!
# OpenSips.Lib.Ring — doubly linked lists given by two link functions

`Chain nxt prv a xs e`: following `nxt` from `a` one meets the nodes `xs` and then `e`, and `prv`
leads back.  A ring is a chain from a head back to it.  The link functions are arbitrary; how a
program stores them is the client's affair, so insertion and removal are stated by what the new
links must satisfy.
-/

namespace OpenSips.Lib

open List

variable {α : Type*}

/-- The nodes `xs` linked between `a` and `e`. -/
def Chain (nxt prv : α → α) : α → List α → α → Prop
  | a, [], e => nxt a = e ∧ prv e = a
  | a, x :: xs, e => nxt a = x ∧ prv x = a ∧ Chain nxt prv x xs e

/-- The nodes `xs` in a ring around the head `h`. -/
def Ring (nxt prv : α → α) (h : α) (xs : List α) : Prop := Chain nxt prv h xs h

namespace Chain

variable {nxt prv nxt' prv' : α → α}

theorem congr {a e : α} {xs : List α} (hc : Chain nxt prv a xs e)
    (hn : ∀ y ∈ a :: xs, nxt' y = nxt y) (hp : ∀ y, y ∈ xs ∨ y = e → prv' y = prv y) :
    Chain nxt' prv' a xs e := by
  induction xs generalizing a with
  | nil =>
    obtain ⟨h1, h2⟩ := hc
    exact ⟨by rw [hn a (by simp), h1], by rw [hp e (by simp), h2]⟩
  | cons x xs ih =>
    obtain ⟨h1, h2, h3⟩ := hc
    refine ⟨by rw [hn a (by simp), h1], by rw [hp x (by simp), h2],
      ih h3 (fun y hy => hn y (by simp [hy])) fun y hy => hp y ?_⟩
    rcases hy with hy | hy
    · exact .inl (by simp [hy])
    · exact .inr hy

theorem mid {a e : α} (xs : List α) {ys : List α} (hc : Chain nxt prv a (xs ++ ys) e) :
    nxt (xs.getLastD a) = ys.headD e ∧ prv (ys.headD e) = xs.getLastD a := by
  induction xs generalizing a with
  | nil =>
    cases ys with
    | nil => exact hc
    | cons y ys => exact ⟨hc.1, hc.2.1⟩
  | cons x xs ih =>
    rw [getLastD_cons]
    exact ih hc.2.2

theorem ne_last {a z : α} {zs ws : List α} (ha : a ∉ z :: (zs ++ ws)) : a ≠ zs.getLastD z := by
  rintro rfl
  exact ha (cons_subset_cons z (subset_append_left _ _) getLastD_mem_cons)

theorem ne_head {z e : α} {zs ws ys : List α} (hz : z ∉ zs ++ ws) (he : e ∉ z :: (zs ++ ws)) (hys : ys ⊆ ws) :
    z ≠ ys.headD e := by
  rintro rfl
  cases ys with
  | nil => exact he mem_cons_self
  | cons y ys => exact hz (mem_append_right _ (hys mem_cons_self))

theorem insert {a e x : α} {xs ys : List α} (hc : Chain nxt prv a (xs ++ ys) e)
    (hnd : (xs ++ ys).Nodup) (ha : a ∉ xs ++ ys) (he : e ∉ xs ++ ys)
    (h1 : nxt' (xs.getLastD a) = x) (h2 : nxt' x = ys.headD e) (h3 : prv' x = xs.getLastD a)
    (h4 : prv' (ys.headD e) = x)
    (h5 : ∀ y ∈ a :: (xs ++ ys), y ≠ xs.getLastD a → nxt' y = nxt y)
    (h6 : ∀ y, y ∈ xs ++ ys ∨ y = e → y ≠ ys.headD e → prv' y = prv y) :
    Chain nxt' prv' a (xs ++ x :: ys) e := by
  induction xs generalizing a with
  | nil =>
    rw [nil_append] at hc hnd ha he h5 h6 ⊢
    refine ⟨h1, h3, ?_⟩
    cases ys with
    | nil => exact ⟨h2, h4⟩
    | cons y ys =>
      refine ⟨h2, h4, hc.2.2.congr (fun z hz => h5 z (mem_cons_of_mem _ hz) ?_) fun z hz => ?_⟩
      · rintro rfl
        exact ha hz
      · refine h6 z (hz.imp (mem_cons_of_mem _) id) ?_
        rintro rfl
        rcases hz with hz | rfl
        · exact (nodup_cons.1 hnd).1 hz
        · exact he (mem_cons_self ..)
  | cons z zs ih =>
    rw [cons_append] at hc hnd ha he h5 h6 ⊢
    rw [getLastD_cons] at h1 h3 h5
    obtain ⟨c1, c2, c3⟩ := hc
    obtain ⟨hz, hnd'⟩ := nodup_cons.1 hnd
    refine ⟨?_, ?_, ih c3 hnd' hz (fun h => he (mem_cons_of_mem _ h)) h1 h3
      (fun y hy hne => h5 y (mem_cons_of_mem _ hy) hne)
      fun y hy hne => h6 y (hy.imp (mem_cons_of_mem _) id) hne⟩
    · rw [h5 a mem_cons_self (ne_last ha), c1]
    · rw [h6 z (.inl mem_cons_self) (ne_head hz he (Subset.refl ys)), c2]

theorem remove {a e x : α} {xs ys : List α} (hc : Chain nxt prv a (xs ++ x :: ys) e)
    (hnd : (xs ++ x :: ys).Nodup) (ha : a ∉ xs ++ x :: ys) (he : e ∉ xs ++ x :: ys)
    (h1 : nxt' (xs.getLastD a) = ys.headD e) (h2 : prv' (ys.headD e) = xs.getLastD a)
    (h5 : ∀ y ∈ a :: (xs ++ ys), y ≠ xs.getLastD a → nxt' y = nxt y)
    (h6 : ∀ y, y ∈ xs ++ ys ∨ y = e → y ≠ ys.headD e → prv' y = prv y) :
    Chain nxt' prv' a (xs ++ ys) e := by
  induction xs generalizing a with
  | nil =>
    rw [nil_append] at hc hnd ha he h5 h6 ⊢
    obtain ⟨-, -, c3⟩ := hc
    cases ys with
    | nil => exact ⟨h1, h2⟩
    | cons y ys =>
      refine ⟨h1, h2, c3.2.2.congr (fun z hz => h5 z (mem_cons_of_mem _ hz) ?_) fun z hz => ?_⟩
      · rintro rfl
        exact ha (mem_cons_of_mem _ hz)
      · refine h6 z (hz.imp (mem_cons_of_mem _) id) ?_
        rintro rfl
        rcases hz with hz | rfl
        · exact (nodup_cons.1 (nodup_cons.1 hnd).2).1 hz
        · exact he (by simp)
  | cons z zs ih =>
    rw [cons_append] at hc hnd ha he h5 h6 ⊢
    rw [getLastD_cons] at h1 h2 h5
    obtain ⟨c1, c2, c3⟩ := hc
    obtain ⟨hz, hnd'⟩ := nodup_cons.1 hnd
    refine ⟨?_, ?_, ih c3 hnd' hz (fun h => he (mem_cons_of_mem _ h)) h1 h2
      (fun y hy hne => h5 y (mem_cons_of_mem _ hy) hne)
      fun y hy hne => h6 y (hy.imp (mem_cons_of_mem _) id) hne⟩
    · rw [h5 a mem_cons_self (ne_last ha), c1]
    · rw [h6 z (.inl mem_cons_self) (ne_head hz he (subset_cons_self x ys)), c2]

end Chain

end OpenSips.Lib
