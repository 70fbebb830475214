import OpenSips.Db.Url
import OpenSips.Mi.Model
import OpenSips.Parser.FirstLine
import Mathlib.Data.List.Pairwise

/-!
# OpenSips.Db.Connections — one pool for each connection (`db/db_id.c`, `db/db_to_user.c`)

Two identifiers are compared component by component, and `strcmp` is given the users whether there are any or not.
-/

namespace OpenSips.DbId

open List Option

open Mi (cstr)
open FirstLine (tolower)

/-- What `new_db_id` can return. -/
abbrev NewId := { id : Id // ∃ url, parse_db_url url = .ok id }

section Source

/-- `strcmp`, of texts without NULs. -/
def strcmp : Str → Str → ℤ
  | [], [] => 0
  | [], b :: _ => -b.toNat
  | a :: _, [] => a.toNat
  | a :: s1, b :: s2 => if a ≠ b then (a.toNat : ℤ) - b.toNat else strcmp s1 s2

def strcasecmp (s1 s2 : Str) : ℤ := strcmp (s1.map tolower) (s2.map tolower)

/-- A comparison of two strings; `none` where it is given a NULL. -/
def compare (f : Str → Str → ℤ) : Option Chunk → Option Chunk → Option ℤ
  | some (_, s1), some (_, s2) => some (f (cstr s1) (cstr s2))
  | _, _ => none

/-- What `cmp_db_id` does behind the passwords. -/
def cmp_host (id1 id2 : Id) : Option ℕ :=
  (compare strcasecmp id1.host id2.host).bind fun r => if r ≠ 0 then some 0
  else (compare strcmp id1.database id2.database).bind fun r => if r ≠ 0 then some 0
  else some 1

def cmp_db_id (id1 id2 : Id) : Option ℕ :=
  if id1.port ≠ id2.port then some 0
  else (compare strcmp id1.scheme id2.scheme).bind fun r => if r ≠ 0 then some 0
  else (compare strcmp id1.username id2.username).bind fun r => if r ≠ 0 then some 0
  else if id1.password.isSome ∧ id2.password.isSome then
    (compare strcmp id1.password id2.password).bind fun r => if r ≠ 0 then some 0 else cmp_host id1 id2
  else if id1.password.isSome ∨ id2.password.isSome then some 0
  else cmp_host id1 id2

def new_db_id (url : Str) : Option NewId :=
  match h : parse_db_url url with
  | .ok id => some ⟨id, url, h⟩
  | .err .. => none

/-- The loop over `pool_list`. -/
def find_pool : List NewId → NewId → Option (Option NewId)
  | [], _ => some none
  | p :: pools, id => (cmp_db_id p.1 id.1).bind fun r => if r ≠ 0 then some (some p) else find_pool pools id

/-- `db_init`: the list and the pool that it returns.  Without an identifier `id->scheme` is read. -/
def db_init (pools : List NewId) (url : Str) : Option (List NewId × NewId) :=
  (new_db_id url).bind fun id => (find_pool pools id).map fun
    | some p => (pools, p)
    | none => (id :: pools, id)

end Source

section Keys

/-- What a connection is known by. -/
structure Key where
  port : ℕ
  scheme : Option Str
  username : Option Str
  password : Option Str
  host : Option Str
  database : Option Str
  deriving DecidableEq

def Id.key (id : Id) : Key where
  port := id.port
  scheme := id.scheme.map fun c => cstr c.2
  username := id.username.map fun c => cstr c.2
  password := id.password.map fun c => cstr c.2
  host := id.host.map fun c => (cstr c.2).map tolower
  database := id.database.map fun c => cstr c.2

def Same (id1 id2 : Id) : Prop := id1.key = id2.key

instance (id1 id2 : Id) : Decidable (Same id1 id2) := inferInstanceAs (Decidable (_ = _))

def Comparable (id1 id2 : Id) : Prop :=
  id1.port ≠ id2.port ∨ id1.key.scheme ≠ id2.key.scheme ∨ (id1.username.isSome ∧ id2.username.isSome)

end Keys

section Compared

variable {s1 s2 : Str} {a b : Option Chunk} {x : Option ℕ} {f : Str → Str → ℤ} {g : Str → Str}

theorem strcmp_eq_zero (h1 : 0 ∉ s1) (h2 : 0 ∉ s2) : strcmp s1 s2 = 0 ↔ s1 = s2 := by
  have hpos : ∀ {c : UInt8} {s : Str}, 0 ∉ c :: s → c.toNat ≠ 0 := by
    intro c s h h0
    exact h (UInt8.toNat_inj.1 (h0.trans (UInt8.toNat_zero).symm) ▸ mem_cons_self)
  induction s1 generalizing s2 with
  | nil =>
    cases s2 with
    | nil => exact ⟨fun _ => rfl, fun _ => rfl⟩
    | cons b s2 =>
      have hb := hpos h2
      rw [strcmp]
      exact ⟨fun h => absurd h (by omega), fun h => absurd h (by simp)⟩
  | cons a s1 ih =>
    cases s2 with
    | nil =>
      have ha := hpos h1
      rw [strcmp]
      exact ⟨fun h => absurd h (by omega), fun h => absurd h (by simp)⟩
    | cons b s2 =>
      rw [strcmp, cons.injEq]
      by_cases hab : a = b
      · have hrest : strcmp s1 s2 = 0 ↔ s1 = s2 :=
          ih (fun h => h1 (mem_cons_of_mem a h)) fun h => h2 (mem_cons_of_mem b h)
        rw [if_neg (not_not.2 hab)]
        exact ⟨fun h => ⟨hab, hrest.1 h⟩, fun h => hrest.2 h.2⟩
      · have hne : (a.toNat : ℤ) - b.toNat ≠ 0 := fun h => hab (UInt8.toNat_inj.1 (by omega))
        rw [if_pos hab]
        exact ⟨fun h => absurd h hne, fun h => absurd h.1 hab⟩

theorem tolower_ne {c : UInt8} (h : tolower c = 0) : c = 0 := by
  unfold tolower at h
  split at h
  · next hc =>
    have hA := UInt8.le_iff_toNat_le.1 hc.1
    have hZ := UInt8.le_iff_toNat_le.1 hc.2
    have hn := congrArg UInt8.toNat h
    rw [UInt8.toNat_add] at hn
    have h65 : (chr 'A').toNat = 65 := rfl
    have h90 : (chr 'Z').toNat = 90 := rfl
    have h32 : (32 : UInt8).toNat = 32 := rfl
    have h0 : (0 : UInt8).toNat = 0 := rfl
    omega
  · exact h

theorem strcasecmp_eq_zero (h1 : 0 ∉ s1) (h2 : 0 ∉ s2) :
    strcasecmp s1 s2 = 0 ↔ s1.map tolower = s2.map tolower := by
  have hmap : ∀ {s : Str}, 0 ∉ s → 0 ∉ s.map tolower := by
    intro s h hin
    obtain ⟨c, hc, h0⟩ := List.mem_map.1 hin
    exact h (tolower_ne h0 ▸ hc)
  exact strcmp_eq_zero (hmap h1) (hmap h2)

theorem cstr_ne (s : Str) : 0 ∉ cstr s := fun h => absurd (mem_takeWhile_imp h) (by decide)

theorem compare_bind (hf : ∀ {s1 s2 : Str}, 0 ∉ s1 → 0 ∉ s2 → (f s1 s2 = 0 ↔ g s1 = g s2)) (ha : a.isSome)
    (hb : b.isSome) : ((compare f a b).bind fun r => if r ≠ 0 then some 0 else x) =
      if a.map (fun c => g (cstr c.2)) = b.map (fun c => g (cstr c.2)) then x else some 0 := by
  obtain ⟨⟨i, s1⟩, rfl⟩ := isSome_iff_exists.1 ha
  obtain ⟨⟨j, s2⟩, rfl⟩ := isSome_iff_exists.1 hb
  have hiff := hf (cstr_ne s1) (cstr_ne s2)
  rw [compare, bind_some, map_some, map_some]
  by_cases h : f (cstr s1) (cstr s2) = 0
  · rw [if_neg (not_not.2 h), if_pos (congrArg some (hiff.1 h))]
  · rw [if_pos h, if_neg fun heq => h (hiff.2 (some.inj heq))]

theorem compare_null (h : ¬ (a.isSome ∧ b.isSome)) : compare f a b = none := by
  cases a with
  | none => rfl
  | some a =>
    cases b with
    | none => rfl
    | some b => exact absurd ⟨rfl, rfl⟩ h

end Compared

section Totality

variable {id1 id2 : Id}

theorem NewId.present (p : NewId) : p.1.scheme.isSome ∧ p.1.host.isSome ∧ p.1.database.isSome := by
  obtain ⟨id, url, hok⟩ := p
  have hlong : SHORTEST_DB_URL_LEN ≤ url.length := by
    by_contra hshort
    rw [parse_db_url_short hshort] at hok
    exact absurd hok (by simp)
  rw [parse_db_url_long hlong] at hok
  obtain ⟨n, f, herr, -⟩ | ⟨u, hu, rfl⟩ | htwice := parse_cases url
  · exact absurd (hok.symm.trans herr) (by simp)
  · obtain ⟨id', hok', hparts⟩ := loose_parts hu
    obtain rfl := Result.ok.inj (hok.symm.trans hok')
    have hs : ∀ {o : Option Chunk} {t : Str}, o.map Prod.snd = some t → o.isSome := by
      intro o t ho
      rw [← isSome_map, ho]
      rfl
    exact ⟨hs (congrArg Parts.scheme hparts), hs (congrArg Parts.host hparts), hs (congrArg Parts.database hparts)⟩
  · obtain ⟨n, f, herr, -⟩ := twice_err htwice
    exact absurd (hok.symm.trans herr) (by simp)

theorem password_key (x : Option ℕ) : (if id1.password.isSome ∧ id2.password.isSome then
      (compare strcmp id1.password id2.password).bind fun r => if r ≠ 0 then some 0 else x
    else if id1.password.isSome ∨ id2.password.isSome then some 0 else x) =
      if id1.key.password = id2.key.password then x else some 0 := by
  by_cases h : id1.password.isSome ∧ id2.password.isSome
  · rw [if_pos h, compare_bind (g := id) strcmp_eq_zero h.1 h.2]
    rfl
  · rw [if_neg h, Id.key, Id.key]
    cases h1 : id1.password with
    | none =>
      cases h2 : id2.password with
      | none => rfl
      | some b => rfl
    | some a =>
      cases h2 : id2.password with
      | none => rfl
      | some b => exact absurd ⟨congrArg Option.isSome h1, congrArg Option.isSome h2⟩ h

theorem same_iff : Same id1 id2 ↔ id1.port = id2.port ∧ id1.key.scheme = id2.key.scheme ∧
    id1.key.username = id2.key.username ∧ id1.key.password = id2.key.password ∧ id1.key.host = id2.key.host ∧
    id1.key.database = id2.key.database := by
  rw [Same, Id.key, Id.key, Key.mk.injEq]

theorem cmp_host_key (p q : NewId) : cmp_host p.1 q.1 =
    if p.1.key.host = q.1.key.host then if p.1.key.database = q.1.key.database then some 1 else some 0 else some 0 := by
  obtain ⟨-, hh1, hd1⟩ := p.present
  obtain ⟨-, hh2, hd2⟩ := q.present
  rw [cmp_host, compare_bind (g := List.map tolower) strcasecmp_eq_zero hh1 hh2,
    compare_bind (g := id) strcmp_eq_zero hd1 hd2]
  rfl

theorem scheme_key (p q : NewId) (x : Option ℕ) :
    ((compare strcmp p.1.scheme q.1.scheme).bind fun r => if r ≠ 0 then some 0 else x) =
      if p.1.key.scheme = q.1.key.scheme then x else some 0 :=
  compare_bind (g := id) strcmp_eq_zero p.present.1 q.present.1

theorem cmp_db_id_comparable (p q : NewId) (h : Comparable p.1 q.1) :
    cmp_db_id p.1 q.1 = some (if Same p.1 q.1 then 1 else 0) := by
  have hsame := @same_iff p.1 q.1
  rw [cmp_db_id, password_key, cmp_host_key, scheme_key]
  by_cases hport : p.1.port = q.1.port
  swap
  · rw [if_pos hport, if_neg fun hs => hport (hsame.1 hs).1]
  by_cases hscheme : p.1.key.scheme = q.1.key.scheme
  swap
  · rw [if_neg (not_not.2 hport), if_neg hscheme, if_neg fun hs => hscheme (hsame.1 hs).2.1]
  obtain ⟨hu1, hu2⟩ := (h.resolve_left (not_not.2 hport)).resolve_left (not_not.2 hscheme)
  rw [if_neg (not_not.2 hport), if_pos hscheme, compare_bind (g := id) strcmp_eq_zero hu1 hu2]
  change (if p.1.key.username = q.1.key.username then _ else _) = _
  by_cases hall : p.1.key.username = q.1.key.username ∧ p.1.key.password = q.1.key.password ∧
      p.1.key.host = q.1.key.host ∧ p.1.key.database = q.1.key.database
  · obtain ⟨h1, h2, h3, h4⟩ := hall
    rw [if_pos h1, if_pos h2, if_pos h3, if_pos h4, if_pos (hsame.2 ⟨hport, hscheme, h1, h2, h3, h4⟩)]
  · rw [if_neg fun hs => hall (hsame.1 hs).2.2, ← ite_and, ← ite_and, ← ite_and]
    exact if_neg fun hand => hall ⟨hand.1.1.1, hand.1.1.2, hand.1.2, hand.2⟩

/-- Otherwise a NULL is given to `strcmp`. -/
theorem cmp_db_id_null (p q : NewId) (h : ¬ Comparable p.1 q.1) : cmp_db_id p.1 q.1 = none := by
  obtain ⟨hport, h⟩ := not_or.1 h
  obtain ⟨hscheme, husers⟩ := not_or.1 h
  rw [cmp_db_id, if_neg hport, scheme_key, if_pos (not_not.1 hscheme), compare_null husers]
  rfl

theorem cmp_db_id_iff (p q : NewId) :
    cmp_db_id p.1 q.1 = some (if Same p.1 q.1 then 1 else 0) ↔ Comparable p.1 q.1 := by
  refine ⟨fun h => ?_, cmp_db_id_comparable p q⟩
  by_contra hnot
  rw [cmp_db_id_null p q hnot] at h
  exact absurd h (by simp)

end Totality

section Pools

/-- The pools up to the first one with the same connection can be compared with it. -/
inductive Searchable : List NewId → NewId → Prop
  | nil (id : NewId) : Searchable [] id
  | found (p id : NewId) (pools : List NewId) (hc : Comparable p.1 id.1) (hs : Same p.1 id.1) :
    Searchable (p :: pools) id
  | next (p id : NewId) (pools : List NewId) (hc : Comparable p.1 id.1) (h : Searchable pools id) :
    Searchable (p :: pools) id

theorem find_pool_iff (pools : List NewId) (id : NewId) :
    find_pool pools id = some (pools.find? fun p => decide (Same p.1 id.1)) ↔ Searchable pools id := by
  induction pools with
  | nil => exact ⟨fun _ => .nil id, fun _ => rfl⟩
  | cons p pools ih =>
    rw [find_pool]
    by_cases hc : Comparable p.1 id.1
    swap
    · rw [cmp_db_id_null p id hc]
      refine ⟨fun h => absurd h (by simp), fun h => ?_⟩
      cases h with
      | found _ _ _ hc' => exact absurd hc' hc
      | next _ _ _ hc' => exact absurd hc' hc
    rw [cmp_db_id_comparable p id hc, bind_some]
    by_cases hs : Same p.1 id.1
    · rw [if_pos hs, if_pos Nat.one_ne_zero, find?_cons_of_pos (p := fun p : NewId => decide (Same p.1 id.1)) (decide_eq_true hs)]
      exact ⟨fun _ => .found p id pools hc hs, fun _ => rfl⟩
    · rw [if_neg hs, if_neg (not_not.2 rfl), find?_cons_of_neg (by simpa using hs), ih]
      refine ⟨fun h => .next p id pools hc h, fun h => ?_⟩
      cases h with
      | found _ _ _ _ hs' => exact absurd hs' hs
      | next _ _ _ _ h => exact h

/-- Identifiers are compared exactly when they are comparable, and a pool is found or not as its connection is the
one that is asked for exactly when the pools can be searched. -/
theorem cmp_db_id_spec (pools : List NewId) (id : NewId) :
    (∀ p : NewId, cmp_db_id p.1 id.1 = some (if Same p.1 id.1 then 1 else 0) ↔ Comparable p.1 id.1) ∧
    (find_pool pools id = some (pools.find? fun p => decide (Same p.1 id.1)) ↔ Searchable pools id) :=
  ⟨fun p => cmp_db_id_iff p id, find_pool_iff pools id⟩

/-- What `new_db_id` makes of `s://h/db`. -/
def without_user : NewId :=
  ⟨⟨some (0, [chr 's']), none, none, some (1, [chr 'h']), 0, some (2, [chr 'd', chr 'b'])⟩,
    "s://h/db".toList.map chr, by decide⟩

/-- It cannot be compared with itself. -/
theorem without_user_null : cmp_db_id without_user.1 without_user.1 = none ∧
    ¬ ∀ p q : NewId, cmp_db_id p.1 q.1 = some (if Same p.1 q.1 then 1 else 0) := by
  have hnull : cmp_db_id without_user.1 without_user.1 = none := by decide
  refine ⟨hnull, fun h => ?_⟩
  rw [h without_user without_user] at hnull
  exact absurd hnull (by simp)

variable {pools pools' : List NewId} {p id : NewId} {url : Str}

/-- Pools that can be searched: the pool that is returned has the connection, and one that was there is returned
exactly when there was one. -/
theorem db_init_returns (hid : new_db_id url = some id) (hs : Searchable pools id) :
    ∃ p, db_init pools url = some (if ∃ p ∈ pools, Same p.1 id.1 then pools else id :: pools, p) ∧
      Same p.1 id.1 ∧ p ∈ if ∃ p ∈ pools, Same p.1 id.1 then pools else id :: pools := by
  rw [db_init, hid, bind_some, (find_pool_iff pools id).2 hs, map_some]
  cases hfind : pools.find? fun p => decide (Same p.1 id.1) with
  | none =>
    have hno : ¬ ∃ p ∈ pools, Same p.1 id.1 := by
      rintro ⟨p, hp, hsame⟩
      exact find?_eq_none.1 hfind p hp (decide_eq_true hsame)
    rw [if_neg hno]
    exact ⟨id, rfl, rfl, mem_cons_self⟩
  | some p =>
    have hsame : Same p.1 id.1 :=
      of_decide_eq_true (find?_some (p := fun p : NewId => decide (Same p.1 id.1)) hfind)
    have hp := mem_of_find?_eq_some hfind
    rw [if_pos ⟨p, hp, hsame⟩]
    exact ⟨p, rfl, hsame, hp⟩

/-- The pools behind calls of `db_init` that could search them. -/
inductive Reached : List NewId → Prop
  | init : Reached []
  | step {pools pools' : List NewId} {url : Str} {id p : NewId} (h : Reached pools) (hid : new_db_id url = some id)
    (hs : Searchable pools id) (hstep : db_init pools url = some (pools', p)) : Reached pools'

theorem reached_pairwise (h : Reached pools) : pools.Pairwise fun p q => ¬ Same p.1 q.1 := by
  induction h with
  | init => exact Pairwise.nil
  | step _ hid hs hstep ih =>
    obtain ⟨p, heq, -⟩ := db_init_returns hid hs
    obtain rfl := (Prod.mk.inj (some.inj (hstep.symm.trans heq))).1
    split
    · exact ih
    · next hno => exact pairwise_cons.2 ⟨fun q hq hsame => hno ⟨q, hq, hsame.symm⟩, ih⟩

/-- **A pool for each connection**: no two pools of any run have the same one, and `db_init` returns the only pool
that has the connection of the URL. -/
theorem pools_distinct (pools : List NewId) (url : Str) (id : NewId) (h : Reached pools)
    (hid : new_db_id url = some id) (hs : Searchable pools id) :
    pools.Pairwise (fun p q => ¬ Same p.1 q.1) ∧ ∃ pools' p, db_init pools url = some (pools', p) ∧
      Reached pools' ∧ p ∈ pools' ∧ Same p.1 id.1 ∧ ∀ q ∈ pools', Same q.1 id.1 → q = p := by
  obtain ⟨p, heq, hsame, hp⟩ := db_init_returns hid hs
  have hreached := Reached.step h hid hs heq
  refine ⟨reached_pairwise h, _, p, heq, hreached, hp, hsame, fun q hq hqs => ?_⟩
  by_contra hne
  have hsymm : Std.Symm fun p q : NewId => ¬ Same p.1 q.1 := ⟨fun _ _ hn he => hn (Eq.symm he)⟩
  exact (reached_pairwise hreached).forall hq hp hne (hqs.trans hsame.symm)

theorem pools_distinct_first : ∃ pools' p, db_init [] ("s://u:p@h/db".toList.map chr) = some (pools', p) ∧
    ∀ q ∈ pools', Same q.1 p.1 → q = p := by
  obtain ⟨id, hid⟩ := ne_none_iff_exists'.1 (show new_db_id ("s://u:p@h/db".toList.map chr) ≠ none by decide)
  obtain ⟨-, pools', p, e, -, -, hp, huniq⟩ := pools_distinct [] _ id .init hid (.nil id)
  exact ⟨pools', p, e, fun q hq hs => huniq q hq (hs.trans hp)⟩

end Pools

end OpenSips.DbId
