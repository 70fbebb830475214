import OpenSips.Parser.Rr

/-!
# OpenSips.Parser.RrPrint — a chain of Record-Route headers as one body (`print_rr_body`)

One loop adds up what is allocated, and chooses the routes by a test of their number; the loops that write start at a
number of their own.
-/

namespace OpenSips.ParseRr

open Lib ParseParam List Option

/-- A header field of the chain, and its entries when it was parsed before. -/
structure RrHdr where
  body : Str
  past : UInt8
  parsed : Option (List Rr)
  kept : ∀ rs, parsed = some rs → do_parse_rr_body past body = some rs

/-- `route_len`, which is asked of `pkg_malloc`, what is written, and `*nb_recs`. -/
structure Printed where
  size : ℤ
  s : Str
  nb_recs : Option ℕ
  deriving DecidableEq

section Source

def parse_rr (h : RrHdr) : Option (List Rr) :=
  match h.parsed with
  | some rs => some rs
  | none => do_parse_rr_body h.past h.body

/-- `len` characters of the text, from the name on. -/
def Rr.text (s : Str) (r : Rr) (len : ℕ) : Str := (s.drop r.nameaddr.name.pos).take len

def MAX_RR_HDRS := 64

/-- The loop over the headers. -/
def collect : List RrHdr → List Str → Option (List Str)
  | [], route => some route
  | h :: hs, route =>
    match parse_rr h with
    | none => none
    | some rs =>
      let route := route ++ rs.map fun r => r.text h.body r.len
      if MAX_RR_HDRS ≤ route.length then none else collect hs route

/-- The test of a route's number; `n - *nb_recs` is unsigned. -/
def selected (order : Bool) (nb_recs : Option ℕ) (n i : ℕ) : Bool :=
  match nb_recs with
  | none => true
  | some k => if order then (i : ℤ) ≤ ((n : ℤ) - k) % 2 ^ 32 else k ≤ i

def measure (sel : ℕ → Bool) : ℕ → List Str → ℤ × ℤ → ℤ × ℤ
  | _, [], acc => acc
  | i, r :: rs, (route_len, nr) =>
    measure sel (i + 1) rs (if sel i then (route_len + r.length, nr + 1) else (route_len, nr))

/-- The loop that writes the routes from number `i` on. -/
def write_up (route : List Str) : ℕ → ℕ → Str → Str
  | 0, _, cp => cp
  | fuel + 1, i, cp =>
    if i < route.length then
      let cp := cp ++ route.getD i []
      write_up route fuel (i + 1) (if i + 1 < route.length then cp ++ [COMMA] else cp)
    else cp

/-- The loop that writes the routes in front of number `i` backwards. -/
def write_down (route : List Str) : ℕ → Str → Str
  | 0, cp => cp
  | i + 1, cp =>
    let cp := cp ++ route.getD i []
    write_down route i (if 0 < i then cp ++ [COMMA] else cp)

/-- `print_rr_body` of a chain; `none` is -1. -/
def print_rr_body (iroute : RrHdr) (next_siblings : List RrHdr) (order : Bool) (nb_recs : Option ℕ) :
    Option Printed :=
  (collect (iroute :: next_siblings) []).map fun route =>
    let n := route.length
    let (route_len, nr) := measure (selected order nb_recs n) 0 route (0, 0)
    { size := route_len + (nr - 1)
      s := if order then write_down route (n - nb_recs.getD 0) [] else write_up route n (nb_recs.getD 0) []
      nb_recs := nb_recs.map fun _ => n }

end Source

section Meaning

def routes : List RrHdr → Option (List (Str × Rr))
  | [] => some []
  | h :: hs => (parse_rr h).bind fun rs => (routes hs).map fun xs => rs.map (Prod.mk h.body) ++ xs

/-- What remains, in the order it is printed in. -/
def remaining {α : Type} (order : Bool) (nb_recs : Option ℕ) (xs : List α) : List α :=
  if order then (xs.take (xs.length - nb_recs.getD 0)).reverse else xs.drop (nb_recs.getD 0)

/-- A route with all its parameters. -/
def whole (x : Str × Rr) : Str := x.2.text x.1 x.2.full

structure Meets (xs : List (Str × Rr)) (order : Bool) (nb_recs : Option ℕ) (p : Printed) : Prop where
  s : p.s = [COMMA].intercalate ((remaining order nb_recs xs).map whole)
  size : p.size = p.s.length
  nb_recs : p.nb_recs = nb_recs.map fun _ => xs.length

/-- The routes that remain have one parameter at most, and nothing is skipped, or some but not all in normal order. -/
structure Exact (xs : List (Str × Rr)) (order : Bool) (nb_recs : Option ℕ) : Prop where
  single : ∀ x ∈ remaining order nb_recs xs, x.2.params.length ≤ 1
  skip : ∀ k ∈ nb_recs, k = 0 ∨ order = false ∧ k < xs.length

end Meaning

section Loops

variable {route rs : List Str} {α : Type}

def total (rs : List Str) : ℕ := (rs.map List.length).sum

theorem total_cons (r : Str) (rs : List Str) : total (r :: rs) = r.length + total rs := sum_cons

/-- The routes from number `k` on. -/
theorem measure_up (k : ℕ) : ∀ rs i (a b : ℤ), measure (fun i => decide (k ≤ i)) i rs (a, b) =
    (a + total (rs.drop (k - i)), b + (rs.drop (k - i)).length)
  | [], i, a, b => by simp [measure, total]
  | r :: rs, i, a, b => by
    rw [measure]
    by_cases hi : k ≤ i
    · have hzero : k - i = 0 ∧ k - (i + 1) = 0 := by omega
      rw [if_pos (decide_eq_true hi), measure_up, hzero.1, hzero.2, drop_zero, drop_zero, total_cons,
        length_cons]
      push_cast
      rw [Int.add_assoc, Int.add_assoc, Int.add_comm 1]
    · have hsucc : k - i = k - (i + 1) + 1 := by omega
      rw [if_neg (by simpa using hi), measure_up, hsucc, drop_succ_cons]

/-- The routes up to number `m`. -/
theorem measure_down (m : ℕ) : ∀ rs i (a b : ℤ), measure (fun i => decide (i ≤ m)) i rs (a, b) =
    (a + total (rs.take (m + 1 - i)), b + (rs.take (m + 1 - i)).length)
  | [], i, a, b => by simp [measure, total]
  | r :: rs, i, a, b => by
    rw [measure]
    by_cases hi : i ≤ m
    · have hsucc : m + 1 - i = m + 1 - (i + 1) + 1 := by omega
      rw [if_pos (decide_eq_true hi), measure_down, hsucc, take_succ_cons, total_cons, length_cons]
      push_cast
      rw [Int.add_assoc, Int.add_assoc, Int.add_comm 1]
    · have hzero : m + 1 - i = 0 ∧ m + 1 - (i + 1) = 0 := by omega
      rw [if_neg (by simpa using hi), measure_down, hzero.1, hzero.2, take_zero, take_zero]

theorem write_up_eq : ∀ fuel i cp, route.length ≤ i + fuel →
    write_up route fuel i cp = cp ++ [COMMA].intercalate (route.drop i)
  | 0, i, cp, h => by
    have hlen : route.length ≤ i := h
    rw [write_up, drop_eq_nil_of_le hlen]
    exact (append_nil cp).symm
  | fuel + 1, i, cp, h => by
    rw [write_up]
    by_cases hi : i < route.length
    · have hget : route.getD i [] = route[i] := (getElem_eq_getD []).symm
      rw [if_pos hi]
      rw [write_up_eq fuel (i + 1) _ (by omega), drop_eq_getElem_cons hi, hget]
      by_cases hnext : i + 1 < route.length
      · rw [if_pos hnext, drop_eq_getElem_cons hnext, intercalate_cons_cons]
        simp only [append_assoc]
      · rw [if_neg hnext, drop_eq_nil_of_le (le_of_not_gt hnext), intercalate_singleton,
          intercalate_nil, append_nil]
    · rw [if_neg hi, drop_eq_nil_of_le (le_of_not_gt hi), intercalate_nil, append_nil]

theorem write_down_eq : ∀ i cp, i ≤ route.length →
    write_down route i cp = cp ++ [COMMA].intercalate (route.take i).reverse
  | 0, cp, _ => (append_nil cp).symm
  | i + 1, cp, h => by
    have hget : route.getD i [] = route[i] := (getElem_eq_getD []).symm
    rw [write_down, write_down_eq i _ (by omega), take_succ_eq_append_getElem h, reverse_append, hget]
    cases i with
    | zero => simp
    | succ i =>
      have hi : i < route.length := by omega
      rw [if_pos (Nat.succ_pos i), take_succ_eq_append_getElem hi, reverse_append]
      simp only [reverse_singleton, singleton_append, intercalate_cons_cons, append_assoc]

end Loops

section Main

variable {hs : List RrHdr} {h : RrHdr} {xs ys : List (Str × Rr)} {x : Str × Rr} {order : Bool} {nb_recs : Option ℕ}
  {route rs : List Str}

def noted (x : Str × Rr) : Str := x.2.text x.1 x.2.len

theorem parse_rr_body (h : RrHdr) : parse_rr h = do_parse_rr_body h.past h.body := by
  rw [parse_rr]
  cases hp : h.parsed with
  | none => rfl
  | some rs => exact (h.kept rs hp).symm

theorem routes_cons (hr : routes (h :: hs) = some xs) : ∃ rs ys, parse_rr h = some rs ∧ routes hs = some ys ∧
    xs = rs.map (Prod.mk h.body) ++ ys := by
  obtain ⟨rs, hrs, hrest⟩ := bind_eq_some_iff.1 hr
  obtain ⟨ys, hys, rfl⟩ := map_eq_some_iff.1 hrest
  exact ⟨rs, ys, hrs, hys, rfl⟩

theorem entries_of_hdr {rs : List Rr} (hp : parse_rr h = some rs) : rs ≠ [] ∧ ∀ r ∈ rs, Entry h.body r :=
  body_entries ((parse_rr_body h).symm.trans hp)

theorem routes_entries : ∀ {hs xs}, routes hs = some xs → ∀ x ∈ xs, Entry x.1 x.2
  | [], xs, hr, x, hx => by
    cases hr
    cases hx
  | h :: hs, xs, hr, x, hx => by
    obtain ⟨rs, ys, hp, hys, rfl⟩ := routes_cons hr
    rcases mem_append.1 hx with hx | hx
    · obtain ⟨r, hmem, rfl⟩ := List.mem_map.1 hx
      exact (entries_of_hdr hp).2 r hmem
    · exact routes_entries hys x hx

theorem routes_ne_nil (hr : routes (h :: hs) = some xs) : xs ≠ [] := by
  obtain ⟨rs, ys, hp, -, rfl⟩ := routes_cons hr
  exact append_ne_nil_of_left_ne_nil (map_eq_nil_iff.not.2 (entries_of_hdr hp).1) ys

theorem collect_routes : ∀ {hs xs route}, routes hs = some xs → route.length + xs.length < MAX_RR_HDRS →
    collect hs route = some (route ++ xs.map noted)
  | [], xs, route, hr, _ => by
    cases hr
    rw [collect, map_nil, append_nil]
  | h :: hs, xs, route, hr, hlt => by
    obtain ⟨rs, ys, hp, hys, rfl⟩ := routes_cons hr
    have hmap : (rs.map (Prod.mk h.body)).map noted = rs.map fun r => r.text h.body r.len := by
      rw [List.map_map]
      rfl
    have hlen : (route ++ rs.map fun r => r.text h.body r.len).length = route.length + rs.length := by
      rw [length_append, length_map]
    rw [length_append, length_map] at hlt
    have hroom : ¬ MAX_RR_HDRS ≤ (route ++ rs.map fun r => r.text h.body r.len).length := by omega
    rw [collect, hp]
    dsimp only
    rw [if_neg hroom, collect_routes hys (by omega), map_append, hmap, append_assoc]

theorem text_length {s : Str} {r : Rr} {len : ℕ} (h : r.nameaddr.name.pos + len ≤ s.length) :
    (r.text s len).length = len := by
  rw [Rr.text, length_take, length_drop]
  omega

theorem noted_length (hx : Entry x.1 x.2) : (noted x).length = x.2.len ∧ (whole x).length = x.2.full := by
  have hle := (len_full hx).1
  have hin := (full_inside hx).2
  exact ⟨text_length (by omega), text_length hin⟩

theorem total_noted (hy : ∀ y ∈ ys, Entry y.1 y.2) : total (ys.map noted) ≤ total (ys.map whole) ∧
    (total (ys.map noted) = total (ys.map whole) → ∀ y ∈ ys, y.2.params.length ≤ 1) := by
  induction ys with
  | nil => exact ⟨le_rfl, fun _ y h => absurd h not_mem_nil⟩
  | cons x ys ih =>
    have hx := hy x mem_cons_self
    obtain ⟨hle, hsingle⟩ := ih fun y h => hy y (mem_cons_of_mem x h)
    obtain ⟨hlen, hfull⟩ := noted_length hx
    obtain ⟨hxle, hxiff⟩ := len_full hx
    rw [map_cons, map_cons, total_cons, total_cons, hlen, hfull]
    refine ⟨by omega, fun heq => forall_mem_cons.2 ⟨hxiff.1 (by omega), hsingle (by omega)⟩⟩

theorem length_intercalate : ∀ rs : List Str, ([COMMA].intercalate rs).length = total rs + (rs.length - 1)
  | [] => rfl
  | [r] => by rw [intercalate_singleton, total_cons]; rfl
  | r :: s :: rs => by
    rw [intercalate_cons_cons, length_append, length_append, length_intercalate, total_cons r,
      length_singleton, length_cons, length_cons, length_cons]
    omega

theorem text_iff (hy : ∀ y ∈ ys, Entry y.1 y.2) :
    [COMMA].intercalate (ys.map noted) = [COMMA].intercalate (ys.map whole) ↔ ∀ y ∈ ys, y.2.params.length ≤ 1 := by
  constructor
  · intro heq
    have hlen := congrArg List.length heq
    rw [length_intercalate, length_intercalate, length_map, length_map] at hlen
    exact (total_noted hy).2 (by omega)
  · intro hsingle
    have hmap : ys.map noted = ys.map whole := by
      apply map_congr_left
      intro y hmem
      rw [noted, whole, (len_full (hy y hmem)).2.2 (hsingle y hmem)]
    rw [hmap]

theorem remaining_map {α β : Type} (f : α → β) (xs : List α) :
    remaining order nb_recs (xs.map f) = (remaining order nb_recs xs).map f := by
  cases order with
  | false => exact map_drop.symm
  | true =>
    show ((xs.map f).take ((xs.map f).length - _)).reverse = ((xs.take _).reverse).map f
    rw [length_map, map_reverse, map_take]

theorem mem_remaining {α : Type} {xs : List α} {x : α} (h : x ∈ remaining order nb_recs xs) : x ∈ xs := by
  cases order with
  | false => exact mem_of_mem_drop h
  | true => exact mem_of_mem_take (mem_reverse.1 h)

theorem total_reverse (rs : List Str) : total rs.reverse = total rs := by
  rw [total, total, map_reverse, sum_reverse]

theorem written (order : Bool) (nb_recs : Option ℕ) (route : List Str) :
    (if order then write_down route (route.length - nb_recs.getD 0) []
      else write_up route route.length (nb_recs.getD 0) []) = [COMMA].intercalate (remaining order nb_recs route) := by
  cases order with
  | false => exact write_up_eq _ _ [] (Nat.le_add_left _ _)
  | true => exact write_down_eq _ [] (Nat.sub_le _ _)

/-- Routes from number `k` on, with `k` as it is for no skip count too. -/
theorem selected_up (k n : ℕ) : selected false (some k) n = fun i => decide (k ≤ i) := rfl

theorem selected_none (order : Bool) (n : ℕ) : selected order none n = fun i => decide (0 ≤ i) := by
  funext i
  exact (decide_eq_true (Nat.zero_le i)).symm

theorem selected_down {k n : ℕ} (hk : k ≤ n) (hn : n < MAX_RR_HDRS) :
    selected true (some k) n = fun i => decide (i ≤ n - k) := by
  have hmod : ((n : ℤ) - k) % 2 ^ 32 = ((n - k : ℕ) : ℤ) := by
    rw [MAX_RR_HDRS] at hn
    omega
  funext i
  rw [selected, if_pos rfl, hmod]
  simp only [Int.ofNat_le]

theorem up_iff {k : ℕ} (hk : k ≤ route.length) : (measure (fun i => decide (k ≤ i)) 0 route (0, 0)).1 +
      ((measure (fun i => decide (k ≤ i)) 0 route (0, 0)).2 - 1) =
        ([COMMA].intercalate (route.drop k)).length ↔ k < route.length := by
  rw [measure_up, length_intercalate]
  dsimp only [Nat.sub_zero]
  rw [length_drop]
  constructor
  · intro heq
    by_contra hlt
    have hnil : route.drop k = [] := drop_eq_nil_of_le (le_of_not_gt hlt)
    have htotal : total (route.drop k) = 0 := by
      rw [hnil]
      rfl
    omega
  · intro hlt
    omega

theorem down_ne {k : ℕ} (hk : 0 < k) (hle : k ≤ route.length) (hr : ∀ r ∈ route, r ≠ []) :
    (measure (fun i => decide (i ≤ route.length - k)) 0 route (0, 0)).1 +
      ((measure (fun i => decide (i ≤ route.length - k)) 0 route (0, 0)).2 - 1) ≠
        ([COMMA].intercalate (route.take (route.length - k)).reverse).length := by
  have hlt : route.length - k < route.length := by omega
  have hone : total (route.take (route.length - k + 1)) =
      total (route.take (route.length - k)) + (route[route.length - k]).length := by
    rw [total, total, take_succ_eq_append_getElem hlt, map_append, sum_append]
    rfl
  have hpos : 0 < (route[route.length - k]).length := length_pos_iff.2 (hr _ (getElem_mem hlt))
  rw [measure_down, length_intercalate, total_reverse, length_reverse]
  dsimp only [Nat.sub_zero]
  rw [hone, length_take, length_take]
  omega

/-- **The allocation is exact** when nothing is skipped, or some but not all in normal order. -/
theorem size_iff (hne : route ≠ []) (hn : route.length < MAX_RR_HDRS) (hr : ∀ r ∈ route, r ≠ [])
    (hk : ∀ k ∈ nb_recs, k ≤ route.length) :
    (measure (selected order nb_recs route.length) 0 route (0, 0)).1 +
        ((measure (selected order nb_recs route.length) 0 route (0, 0)).2 - 1) =
      ([COMMA].intercalate (remaining order nb_recs route)).length ↔
    ∀ k ∈ nb_recs, k = 0 ∨ order = false ∧ k < route.length := by
  have hpos : 0 < route.length := length_pos_iff.2 hne
  -- nothing is skipped
  have hall : ([COMMA].intercalate (remaining order none route)).length =
      ([COMMA].intercalate (route.drop 0)).length := by
    cases order with
    | false => rfl
    | true =>
      show ([COMMA].intercalate (route.take route.length).reverse).length = _
      rw [length_intercalate, length_intercalate, total_reverse, length_reverse, take_length, drop_zero]
  cases nb_recs with
  | none =>
    rw [selected_none, hall]
    exact iff_of_true ((up_iff (Nat.zero_le _)).2 hpos) fun k hk => by cases hk
  | some k =>
    have hle := hk k rfl
    cases order with
    | false =>
      rw [selected_up]
      refine (up_iff hle).trans ⟨fun hlt j hj => ?_, fun h => ?_⟩
      · obtain rfl := some.inj hj
        exact .inr ⟨rfl, hlt⟩
      · rcases h k rfl with rfl | h
        · exact hpos
        · exact h.2
    | true =>
      rcases Nat.eq_zero_or_pos k with rfl | hk0
      · refine iff_of_true ?_ fun j hj => .inl (some.inj hj).symm
        have hsel : remaining true (some 0) route = remaining true none route := rfl
        have hdown : measure (fun i => decide (i ≤ route.length - 0)) 0 route (0, 0) =
            measure (fun i => decide (0 ≤ i)) 0 route (0, 0) := by
          rw [measure_down, measure_up, take_of_length_le (by omega), drop_zero]
        rw [selected_down hle hn, hsel, hall, hdown]
        exact (up_iff (Nat.zero_le _)).2 hpos
      · rw [selected_down hle hn]
        refine iff_of_false (down_ne hk0 hle hr) fun h => ?_
        rcases h k rfl with rfl | h
        · exact absurd hk0 (Nat.lt_irrefl 0)
        · cases h.1

/-- **`print_rr_body` prints the routes that remain, each with all its parameters**, in a block of the exact size, and
counts the routes, exactly when the routes that remain have one parameter at most, and nothing is skipped, or some but
not all in normal order. -/
theorem print_rr_body_spec (hr : routes (h :: hs) = some xs) (hn : xs.length < MAX_RR_HDRS)
    (hk : ∀ k ∈ nb_recs, k ≤ xs.length) :
    (∃ p, print_rr_body h hs order nb_recs = some p ∧ Meets xs order nb_recs p) ↔ Exact xs order nb_recs := by
  have hentries := routes_entries hr
  have hremaining : ∀ y ∈ remaining order nb_recs xs, Entry y.1 y.2 := fun y hy => hentries y (mem_remaining hy)
  have hcollect : collect (h :: hs) [] = some (xs.map noted) := collect_routes hr (by simpa using hn)
  have hlen : (xs.map noted).length = xs.length := length_map noted
  have hne : xs.map noted ≠ [] := map_eq_nil_iff.not.2 (routes_ne_nil hr)
  have hnonempty : ∀ r ∈ xs.map noted, r ≠ [] := by
    intro r hmem
    obtain ⟨x, hx, rfl⟩ := List.mem_map.1 hmem
    have htwo := (full_inside (hentries x hx)).1
    rw [← length_pos_iff, (noted_length (hentries x hx)).1]
    omega
  have hsize := @size_iff order nb_recs _ hne (hlen ▸ hn) hnonempty (hlen ▸ hk)
  rw [print_rr_body, hcollect, map_some]
  dsimp only
  rw [written, remaining_map] at *
  constructor
  · rintro ⟨p, hp, hm⟩
    obtain rfl := some.inj hp
    refine ⟨(text_iff hremaining).1 hm.s, ?_⟩
    rw [← hlen]
    exact hsize.1 hm.size
  · intro hexact
    refine ⟨_, rfl, (text_iff hremaining).2 hexact.single, hsize.2 ?_, ?_⟩
    · rw [hlen]
      exact hexact.skip
    · rw [hlen]

def fresh (body : String) : RrHdr := ⟨body.toList.map chr, 0, none, fun _ h => by cases h⟩

/-- **A route with two parameters**: the second one is not printed. -/
theorem second_param_lost : ∃ xs, routes [fresh "<sip:a>;x;y"] = some xs ∧ xs.length = 1 ∧
    print_rr_body (fresh "<sip:a>;x;y") [] false none = some ⟨9, "<sip:a>;x".toList.map chr, none⟩ ∧
    ¬ ∃ p, print_rr_body (fresh "<sip:a>;x;y") [] false none = some p ∧ Meets xs false none p := by
  have hprint : print_rr_body (fresh "<sip:a>;x;y") [] false none =
      some ⟨9, "<sip:a>;x".toList.map chr, none⟩ := by decide
  refine ⟨[((fresh "<sip:a>;x;y").body, ⟨⟨⟨0, 0⟩, ⟨1, 5⟩, 7⟩, [⟨.P_OTHER, ⟨8, 1⟩, none, 1⟩, ⟨.P_OTHER, ⟨10, 1⟩, none, 1⟩],
    9⟩)], by decide, rfl, hprint, ?_⟩
  rintro ⟨p, hp, hm⟩
  obtain rfl := some.inj (hprint.symm.trans hp)
  exact absurd hm.s (by decide)

/-- `<sip:a>,<sip:b>;x` and `"c"<sip:c>`, the first one skipped. -/
theorem print_two : ∃ xs, routes [fresh "<sip:a>,<sip:b>;x", fresh "\"c\"<sip:c>"] = some xs ∧
    ∃ p, print_rr_body (fresh "<sip:a>,<sip:b>;x") [fresh "\"c\"<sip:c>"] false (some 1) = some p ∧
      Meets xs false (some 1) p := by
  refine ⟨[((fresh "<sip:a>,<sip:b>;x").body, ⟨⟨⟨0, 0⟩, ⟨1, 5⟩, 7⟩, [], 7⟩),
    ((fresh "<sip:a>,<sip:b>;x").body, ⟨⟨⟨8, 0⟩, ⟨9, 5⟩, 7⟩, [⟨.P_OTHER, ⟨16, 1⟩, none, 1⟩], 9⟩),
    ((fresh "\"c\"<sip:c>").body, ⟨⟨⟨0, 3⟩, ⟨4, 5⟩, 10⟩, [], 10⟩)], by decide, ?_⟩
  refine (print_rr_body_spec (by decide) (by decide) fun k hk => ?_).2 ⟨?_, fun k hk => ?_⟩
  · obtain rfl := some.inj hk
    decide
  · exact forall_mem_cons.2 ⟨Nat.le_refl 1, forall_mem_cons.2 ⟨Nat.zero_le 1, fun x hx => by cases hx⟩⟩
  · obtain rfl := some.inj hk
    exact .inr ⟨rfl, by decide⟩

end Main

end OpenSips.ParseRr
