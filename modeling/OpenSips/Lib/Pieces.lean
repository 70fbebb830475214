import Mathlib.Data.List.Basic

/-!
# OpenSips.Lib.Pieces — texts in pieces between separators

`[a].intercalate ds` has the pieces `ds` with an `a` between them.
-/

namespace OpenSips.Lib

open List

variable {α : Type*} {a c : α} {d s : List α} {ds es : List (List α)}

theorem exists_pieces [DecidableEq α] (a : α) (s : List α) :
    ∃ ds, ds ≠ [] ∧ (∀ d ∈ ds, a ∉ d) ∧ s = [a].intercalate ds := by
  induction s with
  | nil =>
    refine ⟨[[]], cons_ne_nil _ _, fun d hd => ?_, rfl⟩
    rw [mem_singleton.1 hd]
    exact not_mem_nil
  | cons c s ih =>
    obtain ⟨ds, hne, hds, rfl⟩ := ih
    obtain ⟨d, ds, rfl⟩ := exists_cons_of_ne_nil hne
    by_cases hc : c = a
    · refine ⟨[] :: d :: ds, cons_ne_nil _ _, fun e he => ?_, ?_⟩
      · rcases mem_cons.1 he with rfl | he
        · exact not_mem_nil
        · exact hds e he
      · rw [intercalate_cons_cons, hc]
        rfl
    · refine ⟨(c :: d) :: ds, cons_ne_nil _ _, fun e he => ?_, intercalate_cons_cons_left.symm⟩
      rcases mem_cons.1 he with rfl | he
      · intro hm
        rcases mem_cons.1 hm with rfl | hm
        · exact hc rfl
        · exact hds d mem_cons_self hm
      · exact hds e (mem_cons_of_mem _ he)

theorem pieces_unique [DecidableEq α] (hds : ∀ d ∈ ds, a ∉ d) (hes : ∀ e ∈ es, a ∉ e) (hd : ds ≠ [])
    (he : es ≠ []) (h : [a].intercalate ds = [a].intercalate es) : ds = es := by
  rw [← splitOn_intercalate a hds hd, h, splitOn_intercalate a hes he]

theorem mem_pieces (hd : d ∈ ds) (hc : c ∈ d) : c ∈ [a].intercalate ds := by
  induction ds with
  | nil => cases hd
  | cons e ds ih =>
    cases ds with
    | nil =>
      rw [mem_singleton.1 hd] at hc
      rwa [intercalate_singleton]
    | cons f ds =>
      rw [intercalate_cons_cons, mem_append, mem_append]
      rcases mem_cons.1 hd with rfl | hd
      · exact .inl (.inl hc)
      · exact .inr (ih hd)

theorem of_mem_pieces (h : c ∈ [a].intercalate ds) : c = a ∨ ∃ d ∈ ds, c ∈ d := by
  induction ds with
  | nil => cases h
  | cons e ds ih =>
    cases ds with
    | nil =>
      rw [intercalate_singleton] at h
      exact .inr ⟨e, mem_cons_self, h⟩
    | cons f ds =>
      rw [intercalate_cons_cons, mem_append, mem_append] at h
      rcases h with (h | h) | h
      · exact .inr ⟨e, mem_cons_self, h⟩
      · exact .inl (mem_singleton.1 h)
      · exact (ih h).imp id fun ⟨d, hd, hc⟩ => ⟨d, mem_cons_of_mem _ hd, hc⟩

theorem count_pieces [DecidableEq α] (hds : ∀ d ∈ ds, a ∉ d) (hne : ds ≠ []) :
    ([a].intercalate ds).count a + 1 = ds.length := by
  induction ds with
  | nil => exact absurd rfl hne
  | cons d ds ih =>
    have hd : d.count a = 0 := count_eq_zero.2 (hds d mem_cons_self)
    cases ds with
    | nil => rw [intercalate_singleton, hd, length_singleton]
    | cons e ds =>
      rw [intercalate_cons_cons, count_append, count_append, hd, count_singleton_self,
        Nat.zero_add, Nat.add_comm 1, ih (fun d hd => hds d (mem_cons_of_mem _ hd)) (cons_ne_nil _ _)]
      rfl

theorem pieces_append (h : es ≠ []) :
    [a].intercalate (ds ++ es) = (ds.flatMap fun d => d ++ [a]) ++ [a].intercalate es := by
  induction ds with
  | nil => rfl
  | cons d ds ih =>
    rw [cons_append, intercalate_cons_of_ne_nil (append_ne_nil_of_right_ne_nil _ h), ih, flatMap_cons]
    simp only [append_assoc]

end OpenSips.Lib
