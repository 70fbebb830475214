import OpenSips.Resolve.Records

/-!
# OpenSips.Resolve.Draws — the draws among SRV records (`core/resolve/parsers.c`)

What `sort_srvs` does with the records of one priority, as an operation on lists: each record has its
`running_sum`, a number of sixteen bits, and the sum of all weights has thirty-two.
-/

namespace OpenSips.Resolve.Draws

open List Option

variable {α : Type}

/-- The first record whose weight, added to those in front of it, reaches `r`. -/
def pick (w : α → ℕ) (r : ℕ) : ℕ → List α → Option α
  | _, [] => none
  | acc, x :: l => if r ≤ acc + w x then some x else pick w r (acc + w x) l

/-- How a record came to its place: with the random number of its draw and what the search found, or without
a draw. -/
structure Choice (α : Type) where
  crt : α
  draw : Option (ℕ × Option α)
  deriving DecidableEq

section Model

variable (weight : α → UInt16)

/-- The running sums behind a sum. -/
def sums : UInt32 → List α → List (α × UInt16)
  | _, [] => []
  | weight_sum, x :: l =>
    let weight_sum := weight_sum + (weight x).toUInt32
    (x, weight_sum.toUInt16) :: sums weight_sum l

/-- The sum of all weights. -/
def total (weight_sum : UInt32) (l : List α) : UInt32 := l.foldl (fun s x => s + (weight x).toUInt32) weight_sum

/-- The pool around the first record whose running sum reaches `r`. -/
def search (r : ℕ) : List (α × UInt16) → Option (List (α × UInt16) × α × List (α × UInt16))
  | [] => none
  | c :: pool =>
    if r ≤ c.2.toNat then some ([], c.1, pool)
    else (search r pool).map fun f => (c :: f.1, f.2)

/-- The running sums behind a record that is taken out. -/
def lower (taken : UInt16) (pool : List (α × UInt16)) : List (α × UInt16) :=
  pool.map fun c => (c.1, c.2 - taken)

/-- The records of one priority: as long as there are two, one is drawn. -/
def order (rand : ℕ → UInt32 → ℕ) : ℕ → ℕ → UInt32 → List (α × UInt16) → List (Choice α)
  | k + 1, n, weight_sum, rd :: next :: pool =>
    let rand_no := rand n weight_sum
    match search rand_no (rd :: next :: pool) with
    | some (front, crt, back) =>
      ⟨crt, some (rand_no, some crt)⟩ ::
        order rand k (n + 1) (weight_sum - (weight crt).toUInt32) (front ++ lower (weight crt) back)
    -- "bug in sorting SRVs - rand>sum"
    | none =>
      ⟨rd.1, some (rand_no, none)⟩ ::
        order rand k (n + 1) (weight_sum - (weight rd.1).toUInt32) (lower (weight rd.1) (next :: pool))
  | _, _, _, pool => pool.map fun c => ⟨c.1, none⟩

end Model

/-- The records as they are chosen one by one: each draw takes the first one of its priority whose weight,
added to those in front of it, reaches the random number. -/
def Fair [DecidableEq α] (priority weight : α → UInt16) : List α → List (Choice α) → Prop
  | _, [] => True
  | remaining, c :: choices =>
    (∀ d ∈ c.draw, d.2 = some c.crt ∧
      pick (fun x => (weight x).toNat) d.1 0 (remaining.filter fun x => priority x = priority c.crt) = some c.crt) ∧
    Fair priority weight (remaining.erase c.crt) choices

variable {weight : α → UInt16} {rand : ℕ → UInt32 → ℕ} {x : α} {pool front back : List (α × UInt16)}
  {k n r acc : ℕ} {weight_sum : UInt32} {taken : UInt16}

/-- A pool whose running sums are the sums of the weights behind `acc`. -/
def Exact (weight : α → UInt16) : ℕ → List (α × UInt16) → Prop
  | _, [] => True
  | acc, c :: pool => c.2.toNat = acc + (weight c.1).toNat ∧ Exact weight (acc + (weight c.1).toNat) pool

/-- The sum of the weights. -/
def load (weight : α → UInt16) (l : List α) : ℕ := (l.map fun x => (weight x).toNat).sum

@[simp] theorem load_nil : load weight [] = 0 := rfl

@[simp] theorem load_cons {l : List α} : load weight (x :: l) = (weight x).toNat + load weight l := by
  rw [load, map_cons, sum_cons, load]

@[simp] theorem load_append {l m : List α} : load weight (l ++ m) = load weight l + load weight m := by
  rw [load, map_append, sum_append, load, load]

@[simp] theorem lower_fst : (lower taken pool).map Prod.fst = pool.map Prod.fst := by
  rw [lower, List.map_map]
  rfl

@[simp] theorem sums_fst {l : List α} : (sums weight weight_sum l).map Prod.fst = l := by
  induction l generalizing weight_sum with
  | nil => rfl
  | cons x l ih => rw [sums, map_cons, ih]

theorem Exact.append : Exact weight acc (front ++ back) ↔
    Exact weight acc front ∧ Exact weight (acc + load weight (front.map Prod.fst)) back := by
  induction front generalizing acc with
  | nil => simp [Exact]
  | cons c front ih => rw [cons_append, Exact, Exact, ih, map_cons, load_cons, add_assoc, and_assoc]

theorem Exact.lower (h : Exact weight (acc + taken.toNat) pool) : Exact weight acc (lower taken pool) := by
  induction pool generalizing acc with
  | nil => trivial
  | cons c pool ih =>
    obtain ⟨hc, hp⟩ := h
    refine ⟨?_, ih ?_⟩
    · show (c.2 - taken).toNat = acc + (weight c.1).toNat
      rw [UInt16.toNat_sub_of_le _ _ (UInt16.le_iff_toNat_le.2 (by omega)), hc]
      omega
    · show Exact weight (acc + (weight c.1).toNat + taken.toNat) pool
      rwa [Nat.add_right_comm]

/-- **The search finds what the weights say.** -/
theorem Exact.search (h : Exact weight acc pool) {rest : List α}
    (hr : pool ≠ [] → r ≤ acc + load weight (pool.map Prod.fst)) (hne : pool ≠ []) :
    ∃ front crt s back, search r pool = some (front, crt, back) ∧ pool = front ++ (crt, s) :: back ∧
      pick (fun x => (weight x).toNat) r acc (pool.map Prod.fst ++ rest) = some crt := by
  induction pool generalizing acc with
  | nil => exact absurd rfl hne
  | cons c pool ih =>
    obtain ⟨hc, hp⟩ := h
    rw [Draws.search, map_cons, cons_append, pick, hc]
    by_cases hle : r ≤ acc + (weight c.1).toNat
    · rw [if_pos hle, if_pos hle]
      exact ⟨[], c.1, c.2, pool, rfl, rfl, rfl⟩
    · rw [if_neg hle, if_neg hle]
      have hr' := hr (cons_ne_nil _ _)
      rw [map_cons, load_cons, ← add_assoc] at hr'
      have hne' : pool ≠ [] := by
        rintro rfl
        exact hle hr'
      obtain ⟨front, crt, s, back, hs, he, hpick⟩ := ih hp (fun _ => hr') hne'
      exact ⟨c :: front, crt, s, back, by rw [hs]; rfl, congrArg (c :: ·) he, hpick⟩

theorem sums_exact {l : List α} (h : weight_sum.toNat + load weight l ≤ 65535) :
    Exact weight weight_sum.toNat (sums weight weight_sum l) := by
  induction l generalizing weight_sum with
  | nil => trivial
  | cons x l ih =>
    rw [load_cons] at h
    have hsum : (weight_sum + (weight x).toUInt32).toNat = weight_sum.toNat + (weight x).toNat := by
      rw [UInt32.toNat_add, UInt16.toNat_toUInt32]
      omega
    rw [sums, Exact, ← hsum]
    refine ⟨?_, ih (by omega)⟩
    show (weight_sum + (weight x).toUInt32).toUInt16.toNat = _
    rw [UInt32.toNat_toUInt16, hsum]
    omega

theorem total_toNat {l : List α} :
    (total weight weight_sum l).toNat = (weight_sum.toNat + load weight l) % 2 ^ 32 := by
  induction l generalizing weight_sum with
  | nil =>
    have := weight_sum.toNat_lt
    rw [total, foldl_nil, load_nil, add_zero, Nat.mod_eq_of_lt this]
  | cons x l ih =>
    have h := @ih (weight_sum + (weight x).toUInt32)
    rw [UInt32.toNat_add, UInt16.toNat_toUInt32, Nat.mod_add_mod] at h
    rw [load_cons, ← add_assoc, ← h]
    rfl

/-- The running sums of a pool, and the sum of all its weights, are what the weights say. -/
structure Weighed (weight : α → UInt16) (pool : List (α × UInt16)) (weight_sum : UInt32) : Prop where
  exact : Exact weight 0 pool
  sum : weight_sum.toNat = load weight (pool.map Prod.fst)

/-- **One draw**: the record that the weights say is found, and the sums of the others are right again. -/
theorem Weighed.draw (h : Weighed weight pool weight_sum) (hne : pool ≠ []) (hr : r ≤ weight_sum.toNat)
    (rest : List α) : ∃ front crt back, search r pool = some (front, crt, back) ∧
      pool.map Prod.fst = front.map Prod.fst ++ crt :: back.map Prod.fst ∧
      pick (fun x => (weight x).toNat) r 0 (pool.map Prod.fst ++ rest) = some crt ∧
      Weighed weight (front ++ lower (weight crt) back) (weight_sum - (weight crt).toUInt32) := by
  obtain ⟨hex, hsum⟩ := h
  obtain ⟨front, crt, s, back, hs, rfl, hpick⟩ := @Exact.search _ _ _ r _ hex rest
    (fun _ => by rw [zero_add, ← hsum]; exact hr) hne
  have hfst : (front ++ (crt, s) :: back).map Prod.fst = front.map Prod.fst ++ crt :: back.map Prod.fst := by
    rw [map_append, map_cons]
  obtain ⟨hfront, -, hback⟩ := Exact.append.1 hex
  rw [hfst, load_append, load_cons] at hsum
  refine ⟨front, crt, back, hs, hfst, hpick, Exact.append.2 ⟨hfront, hback.lower⟩, ?_⟩
  rw [map_append, lower_fst, load_append, UInt32.toNat_sub_of_le _ _ ?_, hsum, UInt16.toNat_toUInt32]
  · omega
  · rw [UInt32.le_iff_toNat_le, hsum, UInt16.toNat_toUInt32]
    omega

/-- The pool that `sort_srvs` starts from. -/
theorem weighed_sums {l : List α} (h : load weight l ≤ 65535) :
    Weighed weight (sums weight 0 l) (total weight 0 l) := by
  refine ⟨?_, ?_⟩
  · have := @sums_exact _ weight 0 l (by rw [UInt32.toNat_zero]; omega)
    rwa [UInt32.toNat_zero] at this
  · rw [total_toNat, sums_fst, UInt32.toNat_zero, zero_add]
    exact Nat.mod_eq_of_lt (by omega)

section Order

theorem order_last (h : pool.length ≤ 1) :
    order weight rand k n weight_sum pool = pool.map fun c => ⟨c.1, none⟩ := by
  match k, pool, h with
  | 0, _, _ => rfl
  | _ + 1, [], _ => rfl
  | _ + 1, [c], _ => rfl

theorem order_found {crt : α} (h : 2 ≤ pool.length) (hs : search (rand n weight_sum) pool = some (front, crt, back)) :
    order weight rand (k + 1) n weight_sum pool = ⟨crt, some (rand n weight_sum, some crt)⟩ ::
      order weight rand k (n + 1) (weight_sum - (weight crt).toUInt32) (front ++ lower (weight crt) back) := by
  match pool, h with
  | rd :: next :: pool, _ =>
    rw [order]
    simp only [hs]

theorem search_none (h : 65535 < r) : search r pool = none := by
  induction pool with
  | nil => rfl
  | cons c pool ih =>
    have := c.2.toNat_lt
    rw [search, if_neg (by omega), ih]
    rfl

theorem order_missed {c : α × UInt16} (h : 2 ≤ (c :: pool).length)
    (hs : search (rand n weight_sum) (c :: pool) = none) :
    order weight rand (k + 1) n weight_sum (c :: pool) = ⟨c.1, some (rand n weight_sum, none)⟩ ::
      order weight rand k (n + 1) (weight_sum - (weight c.1).toUInt32) (lower (weight c.1) pool) := by
  match pool, h with
  | next :: pool, _ =>
    rw [order]
    simp only [hs]

theorem load_le (l : List α) : load weight l ≤ 65535 * l.length := by
  induction l with
  | nil => exact Nat.zero_le _
  | cons x l ih =>
    have := (weight x).toNat_lt
    rw [load_cons, length_cons]
    omega

/-- Draws of the whole sum where it does not fit into sixteen bits, and of nothing elsewhere. -/
def extreme : ℕ → UInt32 → ℕ := fun _ weight_sum => if weight_sum.toNat ≤ 65535 then 0 else weight_sum.toNat

theorem extreme_le (n : ℕ) (weight_sum : UInt32) : extreme n weight_sum ≤ weight_sum.toNat := by
  unfold extreme
  split_ifs
  · exact Nat.zero_le _
  · exact Nat.le_refl _

/-- **Weights that do not fit into sixteen bits**: a draw of their sum finds no record. -/
theorem order_overflow (hk : pool.length ≤ k + 1) (hlen : 2 ≤ pool.length)
    (hsum : weight_sum.toNat = load weight (pool.map Prod.fst) % 2 ^ 32)
    (hbig : 65535 < load weight (pool.map Prod.fst)) :
    ∃ c ∈ order weight extreme k n weight_sum pool, ∃ r, c.draw = some (r, none) := by
  induction k generalizing n weight_sum pool with
  | zero => omega
  | succ k ih =>
    by_cases hw : weight_sum.toNat ≤ 65535
    · -- the sum went round: the first record is taken
      obtain ⟨c, pool, rfl⟩ := exists_cons_of_length_pos (Nat.lt_of_lt_of_le Nat.zero_lt_two hlen)
      have hs : search (extreme n weight_sum) (c :: pool) = some ([], c.1, pool) := by
        rw [extreme, if_pos hw, search, if_pos (Nat.zero_le _)]
      have hc := (weight c.1).toNat_lt
      rw [map_cons, load_cons] at hsum hbig
      have hload : load weight ((lower (weight c.1) pool).map Prod.fst) = load weight (pool.map Prod.fst) := by
        rw [lower_fst]
      have hle := @load_le _ weight (pool.map Prod.fst)
      rw [length_map] at hle
      rw [length_cons] at hk
      have hlow : (lower (weight c.1) pool).length = pool.length := length_map _
      obtain ⟨c', hc', hr⟩ := @ih (lower (weight c.1) pool) (n + 1)
        (weight_sum - (weight c.1).toUInt32) (by omega) (by omega)
        (by rw [hload, UInt32.toNat_sub, UInt16.toNat_toUInt32, hsum]; omega) (by rw [hload]; omega)
      rw [order_found hlen hs]
      exact ⟨c', mem_cons_of_mem _ hc', hr⟩
    · have hs : search (extreme n weight_sum) pool = none := by
        refine search_none ?_
        rw [extreme, if_neg hw]
        omega
      obtain ⟨c, pool, rfl⟩ := exists_cons_of_length_pos (Nat.lt_of_lt_of_le Nat.zero_lt_two hlen)
      rw [order_missed hlen hs]
      exact ⟨_, mem_cons_self, _, rfl⟩

variable [DecidableEq α] {priority : α → UInt16} {p : UInt16} {rest : List α} {choices : List (Choice α)}

/-- **The records of one priority are drawn as their weights say**, if the running sums are right. -/
theorem order_fair (hrand : ∀ n w, rand n w ≤ w.toNat) (h : Weighed weight pool weight_sum)
    (hp : ∀ x ∈ pool.map Prod.fst, priority x = p) (hk : pool.length ≤ k + 1)
    (hnd : (pool.map Prod.fst ++ rest).Nodup) (hrest : Fair priority weight rest choices) :
    ((order weight rand k n weight_sum pool).map Choice.crt).Perm (pool.map Prod.fst) ∧
      Fair priority weight (pool.map Prod.fst ++ rest) (order weight rand k n weight_sum pool ++ choices) := by
  induction k generalizing n weight_sum pool with
  | zero =>
    rw [order_last hk, List.map_map]
    refine ⟨.refl _, ?_⟩
    match pool, hk with
    | [], _ => exact hrest
    | [c], _ => exact ⟨fun d hd => (by cases hd), by simpa using hrest⟩
  | succ k ih =>
    by_cases hlen : pool.length ≤ 1
    · have := ih (n := n) h hp (hlen.trans (Nat.le_add_left 1 k)) hnd
      rw [order_last hlen] at this ⊢
      exact this
    · obtain ⟨front, crt, back, hs, hfst, hpick, hw⟩ := h.draw (r := rand n weight_sum)
        (fun e => hlen (by rw [e]; exact Nat.zero_le 1)) (hrand n weight_sum) (rest.filter fun x => priority x = p)
      have hcrt : priority crt = p := hp crt (hfst ▸ mem_append_right _ mem_cons_self)
      -- what is left of the pool
      have hleft : (front ++ lower (weight crt) back).map Prod.fst = front.map Prod.fst ++ back.map Prod.fst := by
        rw [map_append, lower_fst]
      have hperm : (pool.map Prod.fst).Perm (crt :: (front ++ lower (weight crt) back).map Prod.fst) := by
        rw [hfst, hleft]
        exact perm_middle
      have hlen' := hperm.length_eq
      rw [length_cons, length_map, length_map] at hlen'
      have hnd' := (hperm.append_right rest).nodup_iff.1 hnd
      rw [cons_append, nodup_cons] at hnd'
      obtain ⟨hout, hfair⟩ := ih (n := n + 1) hw
        (fun x hx => hp x (hperm.mem_iff.2 (mem_cons_of_mem _ hx))) (by omega) hnd'.2
      rw [order_found (by omega) hs]
      refine ⟨(hout.cons crt).trans hperm.symm, ?_, ?_⟩
      · rintro d ⟨⟩
        refine ⟨rfl, ?_⟩
        rw [hcrt, filter_append, filter_eq_self.2 fun x hx => decide_eq_true (hp x hx)]
        exact hpick
      · rw [hfst, append_assoc, cons_append, erase_append_right, erase_cons_head, ← append_assoc,
          ← hleft]
        · exact hfair
        · intro hm
          rw [hleft, append_assoc] at hnd'
          exact hnd'.1 (mem_append_left _ hm)

theorem Fair.found {remaining : List α} (h : Fair priority weight remaining choices) :
    ∀ c ∈ choices, ∀ d ∈ c.draw, d.2 ≠ none := by
  induction choices generalizing remaining with
  | nil => exact fun c hc => absurd hc not_mem_nil
  | cons c choices ih =>
    intro c' hc' d hd
    rcases mem_cons.1 hc' with rfl | hc'
    · rw [(h.1 d hd).1]
      exact some_ne_none _
    · exact ih h.2 c' hc' d hd

end Order

/-! ### Lists of records -/

section Groups

variable (record : α → Rdata)

def isSrv : Rdata → Bool
  | .T_SRV _ => true
  | _ => false

/-- `rd2srv(rd)->priority` of a record with data. -/
def prio (x : α) : UInt16 := (record x).priority.getD 0

/-- `rd2srv(rd)->weight` of an SRV record. -/
def wt (x : α) : UInt16 :=
  match record x with
  | .T_SRV srv => srv.weight
  | _ => 0

/-- The records behind one of priority `p` that are taken for records of this priority, and the others;
nothing if a record has no data, or is no SRV record and would be written as if it were one. -/
def group (p : UInt16) : List α → Option (List α × List α)
  | [] => some ([], [])
  | x :: l => do
    let q ← (record x).priority
    if q = p then
      if isSrv (record x) then
        let (same, rest) ← group p l
        some (x :: same, rest)
      else none
    else some ([], x :: l)

variable {record} {p : UInt16} {same rest l : List α}

theorem group_spec (h : group record p l = some (same, rest)) : l = same ++ rest ∧
    (∀ x ∈ same, isSrv (record x) = true ∧ prio record x = p) ∧
    ∀ y ∈ rest.head?, ∃ q, (record y).priority = some q ∧ q ≠ p := by
  induction l generalizing same with
  | nil =>
    cases h
    exact ⟨rfl, fun x hx => absurd hx not_mem_nil, fun y hy => (by cases hy)⟩
  | cons x l ih =>
    obtain ⟨q, hq, h⟩ := bind_eq_some_iff.1 h
    split_ifs at h with hqp hsrv
    · obtain ⟨⟨same', rest'⟩, hg, h⟩ := bind_eq_some_iff.1 h
      cases h
      obtain ⟨he, hs, hr⟩ := ih hg
      refine ⟨congrArg (x :: ·) he, fun y hy => ?_, hr⟩
      rcases mem_cons.1 hy with rfl | hy
      · exact ⟨hsrv, by rw [prio, hq, hqp]; rfl⟩
      · exact hs y hy
    · cases h
      refine ⟨rfl, fun x hx => absurd hx not_mem_nil, fun y hy => ?_⟩
      cases hy
      exact ⟨q, hq, hqp⟩

theorem isSrv_priority {x : α} (h : isSrv (record x) = true) : (record x).priority = some (prio record x) := by
  unfold prio
  cases hr : record x with
  | T_SRV srv => rfl
  | T_NAPTR naptr => rw [hr] at h; cases h
  | other type priority => rw [hr] at h; cases h

theorem apart_iff {x y : α} (h : isSrv (record x) = true) : apart (record x) (record y) ↔
    isSrv (record y) = true ∨ ∃ q, (record y).priority = some q ∧ q ≠ prio record x := by
  unfold prio
  cases hx : record x with
  | T_SRV srv =>
    cases record y with
    | T_SRV srv' => exact ⟨fun _ => .inl rfl, fun _ => trivial⟩
    | T_NAPTR naptr => exact ⟨.inr, fun h => h.resolve_left Bool.false_ne_true⟩
    | other type priority => exact ⟨.inr, fun h => h.resolve_left Bool.false_ne_true⟩
  | T_NAPTR naptr => rw [hx] at h; cases h
  | other type priority => rw [hx] at h; cases h

theorem apart_other {x y : α} (h : ¬ isSrv (record x) = true) : apart (record x) (record y) := by
  cases hx : record x with
  | T_SRV srv => rw [hx] at h; exact absurd rfl h
  | T_NAPTR naptr => trivial
  | other type priority => trivial

theorem group_apart {x : α} (hx : isSrv (record x) = true) :
    List.IsChain (fun x y => apart (record x) (record y)) (x :: l) ↔
      ∃ same rest, group record (prio record x) l = some (same, rest) ∧
        List.IsChain (fun x y => apart (record x) (record y)) rest := by
  induction l generalizing x with
  | nil => exact ⟨fun _ => ⟨[], [], rfl, .nil⟩, fun _ => .singleton _⟩
  | cons y l ih =>
    rw [isChain_cons_cons, apart_iff hx, group]
    by_cases hy : isSrv (record y) = true
    · rw [isSrv_priority hy, bind_eq_bind, bind_some]
      by_cases he : prio record y = prio record x
      · rw [if_pos he, if_pos hy, ih hy, he]
        constructor
        · rintro ⟨-, same, rest, hg, hc⟩
          exact ⟨y :: same, rest, by rw [hg]; rfl, hc⟩
        · rintro ⟨same, rest, hg, hc⟩
          obtain ⟨⟨same', rest'⟩, hg', h⟩ := bind_eq_some_iff.1 hg
          cases h
          exact ⟨.inl hy, same', _, hg', hc⟩
      · rw [if_neg he]
        constructor
        · exact fun h => ⟨[], y :: l, rfl, h.2⟩
        · rintro ⟨same, rest, hg, hc⟩
          cases hg
          exact ⟨.inl hy, hc⟩
    · constructor
      · rintro ⟨h, hc⟩
        obtain ⟨q, hq, hne⟩ := h.resolve_left hy
        exact ⟨[], y :: l, by rw [hq, bind_eq_bind, bind_some, if_neg hne], hc⟩
      · rintro ⟨same, rest, hg, hc⟩
        obtain ⟨q, hq, hg⟩ := bind_eq_some_iff.1 hg
        rw [if_neg hy] at hg
        split_ifs at hg with hne
        cases hg
        exact ⟨.inr ⟨q, hq, hne⟩, hc⟩

/-- `sort_srvs` on lists; `n` draws were made before. -/
def sort (record : α → Rdata) (rand : ℕ → UInt32 → ℕ) (n : ℕ) : List α → Option (List (Choice α))
  | [] => some []
  | x :: l =>
    if isSrv (record x) then
      match _h : group record (prio record x) l with
      | none => none
      | some (same, rest) =>
        (sort record rand (n + same.length) rest).map fun choices =>
          order (wt record) rand same.length n (total (wt record) 0 (x :: same)) (sums (wt record) 0 (x :: same)) ++
            choices
    else sort record rand n l
termination_by l => l.length
decreasing_by
  · have := congrArg List.length (group_spec _h).1
    rw [length_append] at this
    rw [length_cons]
    omega
  · exact Nat.lt_succ_self _

theorem sort_other {x : α} (h : ¬ isSrv (record x) = true) :
    sort record rand n (x :: l) = sort record rand n l := by
  rw [sort, if_neg h]

theorem sort_none {x : α} (h : isSrv (record x) = true) (hg : group record (prio record x) l = none) :
    sort record rand n (x :: l) = none := by
  rw [sort, if_pos h]
  split <;> rename_i h'
  · rfl
  · rw [hg] at h'
    cases h'

theorem sort_some {x : α} (h : isSrv (record x) = true) (hg : group record (prio record x) l = some (same, rest)) :
    sort record rand n (x :: l) = (sort record rand (n + same.length) rest).map fun choices =>
      order (wt record) rand same.length n (total (wt record) 0 (x :: same)) (sums (wt record) 0 (x :: same)) ++
        choices := by
  rw [sort, if_pos h]
  split <;> rename_i h'
  · rw [hg] at h'
    cases h'
  · rw [hg] at h'
    cases h'
    rfl

/-- **When the records are sorted by their weights**: records of other types are told apart from the SRV records
in front of them, and the weights of neighbours of one priority fit into sixteen bits. -/
structure Sound (record : α → Rdata) (l : List α) : Prop where
  apart : List.IsChain (fun x y => apart (record x) (record y)) l
  light : ∀ A G B p, l = A ++ G ++ B → 2 ≤ G.length → (∀ x ∈ G, isSrv (record x) = true ∧ prio record x = p) →
    load (wt record) G ≤ 65535

theorem sound_nil : Sound record [] := by
  refine ⟨.nil, fun A G B p h hlen => ?_⟩
  obtain ⟨⟨-, rfl⟩, -⟩ := (append_eq_nil_iff.1 h.symm).imp append_eq_nil_iff.1 id
  exact absurd hlen (Nat.not_succ_le_zero _)

theorem sound_other {x : α} (hx : ¬ isSrv (record x) = true) : Sound record (x :: l) ↔ Sound record l := by
  constructor
  · rintro ⟨hc, hl⟩
    exact ⟨hc.of_cons, fun A G B p h => hl (x :: A) G B p (congrArg (x :: ·) h)⟩
  · rintro ⟨hc, hl⟩
    refine ⟨isChain_cons.2 ⟨fun y _ => apart_other hx, hc⟩, fun A G B p h hlen hG => ?_⟩
    cases A with
    | nil =>
      obtain ⟨y, G, rfl⟩ := exists_cons_of_length_pos (lt_of_lt_of_le Nat.zero_lt_two hlen)
      obtain ⟨rfl, -⟩ := cons.inj h
      exact absurd (hG x mem_cons_self).1 hx
    | cons y A => exact hl A G B p (cons.inj h).2 hlen hG

theorem sound_group {x : α} (hx : isSrv (record x) = true)
    (hg : group record (prio record x) l = some (same, rest)) :
    Sound record (x :: l) ↔ (same ≠ [] → load (wt record) (x :: same) ≤ 65535) ∧ Sound record rest := by
  obtain ⟨rfl, hsame, hrest⟩ := group_spec hg
  have hall : ∀ y ∈ x :: same, isSrv (record y) = true ∧ prio record y = prio record x := by
    intro y hy
    rcases mem_cons.1 hy with rfl | hy
    · exact ⟨hx, rfl⟩
    · exact hsame y hy
  constructor
  · rintro ⟨hc, hl⟩
    obtain ⟨same', rest', hg', hc'⟩ := (group_apart hx).1 hc
    rw [hg] at hg'
    cases hg'
    refine ⟨fun hne => hl [] (x :: same) rest _ rfl ?_ hall, hc', fun A G B p h => ?_⟩
    · exact Nat.succ_le_succ (length_pos_of_ne_nil hne)
    · refine hl (x :: (same ++ A)) G B p ?_
      rw [h]
      simp only [cons_append, append_assoc]
  · rintro ⟨hload, hc, hl⟩
    refine ⟨(group_apart hx).2 ⟨_, _, hg, hc⟩, fun A G B p h hlen hG => ?_⟩
    have hinside : ∀ A B, x :: same = A ++ G ++ B → load (wt record) G ≤ 65535 := fun A B he => by
      have hne : same ≠ [] := by
        rintro rfl
        have := congrArg List.length he
        simp only [length_append, length_singleton] at this
        omega
      have := hload hne
      rw [he, load_append, load_append] at this
      omega
    rw [← cons_append] at h
    rcases append_eq_append_iff.1 h with ⟨c, hAG, hB⟩ | ⟨c, hAG, -⟩
    · rcases append_eq_append_iff.1 hAG with ⟨d, hA, rfl⟩ | ⟨d, hA, rfl⟩
      · rcases eq_nil_or_concat' d with rfl | ⟨d, z, rfl⟩
        · exact hl [] c B p hB hlen hG
        · cases c with
          | nil => exact hinside A [] (by rw [hA, append_nil, append_nil])
          | cons y c =>
            -- the first record behind the group has another priority
            obtain ⟨q, hq, hne⟩ := hrest y (by rw [hB]; rfl)
            have hz := hG z (mem_append_left _ (mem_append_right _ mem_cons_self))
            have hy := hG y (mem_append_right _ mem_cons_self)
            have hzx := (hall z (by rw [hA]; simp)).2
            refine absurd ?_ hne
            rw [← hzx, hz.2, ← hy.2, prio, hq]
            rfl
      · -- behind the group
        exact hl d G B p hB hlen hG
    · exact hinside A c hAG

theorem sound_of_sort {choices : List (Choice α)} (hc : sort record extreme n l = some choices)
    (hfound : ∀ c ∈ choices, ∀ d ∈ c.draw, d.2 ≠ none) : Sound record l := by
  induction n, l using sort.induct record generalizing choices with
  | case1 n => exact sound_nil
  | case2 n x l hx hg =>
    rw [sort_none hx hg] at hc
    cases hc
  | case3 n x l hx same rest hg ih =>
    rw [sort_some hx hg] at hc
    obtain ⟨tail, ht, rfl⟩ := map_eq_some_iff.1 hc
    refine (sound_group hx hg).2 ⟨fun hne => ?_, ih ht fun c hc => hfound c (mem_append_right _ hc)⟩
    apply le_of_not_gt
    intro hbig
    have hpool : (sums (wt record) 0 (x :: same)).map Prod.fst = x :: same := sums_fst
    have hlen : (sums (wt record) 0 (x :: same)).length = same.length + 1 := by
      rw [← length_map (f := Prod.fst), hpool]
      rfl
    have hpos := length_pos_of_ne_nil hne
    obtain ⟨c, hmem, r, hr⟩ := @order_overflow _ _
      (sums (wt record) 0 (x :: same)) same.length n _ (by omega) (by omega)
      (by rw [hpool, total_toNat, UInt32.toNat_zero, zero_add]) (by rw [hpool]; exact hbig)
    exact hfound c (mem_append_left _ hmem) _ hr rfl
  | case4 n x l hx ih =>
    rw [sort_other hx] at hc
    exact (sound_other hx).2 (ih hc hfound)

variable [DecidableEq α]

/-- What is promised of the records that are chosen: they are the SRV records, in the order of their
priorities, each drawn as the weights say. -/
structure Chosen (record : α → Rdata) (l : List α) (choices : List (Choice α)) : Prop where
  perm : (choices.map Choice.crt).Perm (l.filter fun x => isSrv (record x))
  sorted : (choices.map Choice.crt).Pairwise fun x y => prio record x ≤ prio record y
  fair : Fair (prio record) (wt record) (l.filter fun x => isSrv (record x)) choices

def Ordered (record : α → Rdata) (l : List α) : Prop :=
  (l.filter fun x => isSrv (record x)).Pairwise fun x y => prio record x ≤ prio record y

/-- **Sound records are chosen as promised**, whatever the draws. -/
theorem sort_chosen (hrand : ∀ n w, rand n w ≤ w.toNat) (hl : l.Nodup) (ho : Ordered record l)
    (hs : Sound record l) : ∃ choices, sort record rand n l = some choices ∧ Chosen record l choices := by
  induction n, l using sort.induct record with
  | case1 n => exact ⟨[], by rw [sort], .refl _, Pairwise.nil, trivial⟩
  | case2 n x l hx hg =>
    obtain ⟨same, rest, hg', -⟩ := (group_apart hx).1 hs.apart
    rw [hg] at hg'
    cases hg'
  | case3 n x l hx same rest hg ih =>
    obtain ⟨rfl, hsame, -⟩ := group_spec hg
    obtain ⟨hload, hrest⟩ := (sound_group hx hg).1 hs
    have hfilter : (x :: (same ++ rest)).filter (fun x => isSrv (record x)) =
        (x :: same) ++ rest.filter fun x => isSrv (record x) := by
      rw [← cons_append, filter_append, filter_eq_self.2]
      intro y hy
      rcases mem_cons.1 hy with rfl | hy
      · exact hx
      · exact (hsame y hy).1
    have hone : load (wt record) (x :: same) ≤ 65535 := by
      by_cases hne : same = []
      · rw [hne]
        exact load_le [x]
      · exact hload hne
    have hall : ∀ y ∈ x :: same, prio record y = prio record x := fun y hy => by
      rcases mem_cons.1 hy with rfl | hy
      · rfl
      · exact (hsame y hy).2
    rw [Ordered, hfilter, pairwise_append] at ho
    rw [← cons_append] at hl
    obtain ⟨choices, hc, hperm, hsorted, hfair⟩ := ih hl.of_append_right ho.2.1 hrest
    have hpool : (sums (wt record) 0 (x :: same)).map Prod.fst = x :: same := sums_fst
    obtain ⟨hperm', hfair'⟩ := @order_fair _ _ _ _ same.length n
      _ _ (prio record) (prio record x) _ _ hrand (weighed_sums hone)
      (by rw [hpool]; exact hall)
      (by rw [← length_map (f := Prod.fst), hpool]; exact le_rfl)
      (by rw [hpool]; exact (Sublist.append (Sublist.refl _) filter_sublist).nodup hl) hfair
    rw [hpool] at hperm' hfair'
    refine ⟨_, by rw [sort_some hx hg, hc]; rfl, ?_, ?_, ?_⟩
    · rw [hfilter, map_append]
      exact hperm'.append hperm
    · rw [map_append, pairwise_append]
      refine ⟨pairwise_of_forall_mem_list fun a ha b hb => ?_, hsorted, fun a ha b hb => ?_⟩
      · rw [hall a (hperm'.mem_iff.1 ha), hall b (hperm'.mem_iff.1 hb)]
        exact UInt16.le_refl _
      · exact ho.2.2 a (hperm'.mem_iff.1 ha) b (hperm.mem_iff.1 hb)
    · rw [hfilter]
      exact hfair'
  | case4 n x l hx ih =>
    have hfilter : (x :: l).filter (fun x => isSrv (record x)) = l.filter fun x => isSrv (record x) :=
      filter_cons_of_neg hx
    rw [Ordered, hfilter] at ho
    obtain ⟨choices, hc, h⟩ := ih (nodup_cons.1 hl).2 ho ((sound_other hx).1 hs)
    refine ⟨choices, by rw [sort_other hx, hc], ?_, h.sorted, ?_⟩
    · rw [hfilter]
      exact h.perm
    · rw [hfilter]
      exact h.fair

end Groups

end OpenSips.Resolve.Draws
