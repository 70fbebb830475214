import OpenSips.Address
import OpenSips.Lib.Pieces
import Mathlib.Data.List.GetD

/-!
# OpenSips.Address.Forms — the texts of addresses (`net/ip_addr.h`)

What `str2ip` and `str2ip6` take for an address, against the forms that addresses have: numbers up to 255
between dots, and groups of hexadecimal digits between colons.
-/

namespace OpenSips.Address

open Lib List Option Function

/-- The number that is spelled to some base. -/
def number (base : ℕ) (digit : UInt8 → ℕ) (d : Str) : ℕ := d.foldl (fun n c => n * base + digit c) 0

section Dotted

def Digits (d : Str) : Prop := ∀ c ∈ d, c ≤ chr '9' ∧ chr '0' ≤ c

def decimal (d : Str) : ℕ := number 10 (fun c => (c - chr '0').toNat) d

def dotted (ds : List Str) : Str := [chr '.'].intercalate ds

structure Octet (d : Str) : Prop where
  digits : Digits d
  some_digit : d ≠ []
  le : decimal d ≤ 255

def octets (ds : List Str) : IpAddr := .AF_INET fun i => UInt8.ofNat (decimal (ds.getD i.val []))

/-- The text of an IPv4 address: four numbers up to 255, separated by dots. -/
def Dotted (st : Str) (a : IpAddr) : Prop :=
  ∃ ds, st = dotted ds ∧ ds.length = 4 ∧ (∀ d ∈ ds, Octet d) ∧ a = octets ds

def Bounded (st : Str) : Prop :=
  ∀ ds, st = dotted ds → ds.length = 4 → (∀ d ∈ ds, Digits d) → ∀ d ∈ ds, d ≠ [] ∧ decimal d ≤ 255

variable {i : Fin 4} {addr : Fin 4 → UInt8} {d s st : Str} {ds : List Str} {c : UInt8} {n : ℕ}

theorem digit_ne_dot (h : c ≤ chr '9' ∧ chr '0' ≤ c) : c ≠ chr '.' := by
  rintro rfl
  exact absurd h.2 (by decide)

theorem foldl_octet (d : Str) (n : ℕ) : d.foldl (fun x c => x * 10 + c - chr '0') (UInt8.ofNat n) =
    UInt8.ofNat (d.foldl (fun n c => n * 10 + (c - chr '0').toNat) n) := by
  induction d generalizing n with
  | nil => rfl
  | cons c d ih =>
    rw [foldl_cons, foldl_cons, ← ih]
    congr 1
    rw [UInt8.ofNat_add, UInt8.ofNat_mul, UInt8.ofNat_toNat, UInt8.sub_eq_add_neg, UInt8.sub_eq_add_neg, UInt8.add_assoc]
    rfl

theorem str2ip_loop_digits (hd : Digits d) (h0 : addr i = 0) : str2ip_loop i addr (d ++ s) =
    str2ip_loop i (Function.update addr i (UInt8.ofNat (decimal d))) s := by
  have hgo : ∀ (d : Str) addr, Digits d → str2ip_loop i addr (d ++ s) =
      str2ip_loop i (Function.update addr i (d.foldl (fun x c => x * 10 + c - chr '0') (addr i))) s := by
    intro d
    induction d with
    | nil =>
      intro addr _
      rw [foldl_nil, update_eq_self]
      rfl
    | cons c d ih =>
      intro addr hd
      have hc := hd c mem_cons_self
      rw [cons_append, str2ip_loop, if_neg (digit_ne_dot hc), if_pos hc,
        ih _ fun c hc => hd c (mem_cons_of_mem _ hc), update_self, update_idem]
      rfl
  rw [hgo d addr hd, h0, decimal, number, ← foldl_octet]
  rfl

theorem str2ip_loop_some {i' : Fin 4} {addr' : Fin 4 → UInt8} (h : str2ip_loop i addr s = some (i', addr')) :
    i'.val = i.val + s.count (chr '.') ∧ ∀ c ∈ s, c ≠ chr '.' → c ≤ chr '9' ∧ chr '0' ≤ c := by
  induction s generalizing i addr with
  | nil =>
    cases h
    exact ⟨rfl, fun c hc => absurd hc not_mem_nil⟩
  | cons c s ih =>
    rw [str2ip_loop] at h
    by_cases hdot : c = chr '.'
    · rw [if_pos hdot] at h
      split_ifs at h
      obtain ⟨hi, hs⟩ := ih h
      refine ⟨?_, fun e he hne => ?_⟩
      · rw [hi, hdot, count_cons_self, Nat.add_right_comm]
        rfl
      · rcases mem_cons.1 he with rfl | he
        · exact absurd hdot hne
        · exact hs e he hne
    · rw [if_neg hdot] at h
      split_ifs at h with hc
      obtain ⟨hi, hs⟩ := ih h
      refine ⟨?_, fun e he hne => ?_⟩
      · rw [hi, count_cons_of_ne hdot]
      · rcases mem_cons.1 he with rfl | he
        · exact hc
        · exact hs e he hne

theorem digits_no_dot (hd : Digits d) : chr '.' ∉ d := fun h => digit_ne_dot (hd _ h) rfl

theorem str2ip_dotted {a : IpAddr} (h : str2ip st = some a) :
    ∃ ds, st = dotted ds ∧ ds.length = 4 ∧ ∀ d ∈ ds, Digits d := by
  unfold str2ip at h
  cases hl : str2ip_loop 0 (fun _ => 0) st with
  | none =>
    rw [hl] at h
    cases h
  | some x =>
    obtain ⟨i, addr⟩ := x
    rw [hl] at h
    simp only at h
    split_ifs at h with hi
    obtain ⟨hcount, hall⟩ := str2ip_loop_some hl
    obtain ⟨ds, hne, hds, rfl⟩ := exists_pieces (chr '.') st
    have hlen := count_pieces hds hne
    have hi4 := i.isLt
    have h0 : ((0 : Fin 4).val) = 0 := rfl
    refine ⟨ds, rfl, by omega, fun d hd c hc => hall c (mem_pieces hd hc) fun e => ?_⟩
    exact hds d hd (e ▸ hc)

/-- **Each number is stored modulo 256.** -/
theorem str2ip_octets (hlen : ds.length = 4) (hds : ∀ d ∈ ds, Digits d) : str2ip (dotted ds) = some (octets ds) := by
  rcases ds with _ | ⟨d0, _ | ⟨d1, _ | ⟨d2, _ | ⟨d3, _ | ⟨d4, ds⟩⟩⟩⟩⟩ <;> try cases hlen
  have h0 := hds d0 (by simp)
  have h1 := hds d1 (by simp)
  have h2 := hds d2 (by simp)
  have h3 := hds d3 (by simp)
  have htext : dotted [d0, d1, d2, d3] = d0 ++ chr '.' :: (d1 ++ chr '.' :: (d2 ++ chr '.' :: (d3 ++ []))) := by
    simp [dotted]
  rw [htext, str2ip, str2ip_loop_digits h0 rfl, str2ip_loop_dot (by decide), str2ip_loop_digits h1 (by simp),
    str2ip_loop_dot (by decide), str2ip_loop_digits h2 (by simp), str2ip_loop_dot (by decide),
    str2ip_loop_digits h3 (by simp)]
  show some (IpAddr.AF_INET _) = _
  congr 2
  exact funext (Fin.forall_fin_succ.2 ⟨rfl, Fin.forall_fin_succ.2 ⟨rfl, Fin.forall_fin_two.2 ⟨rfl, rfl⟩⟩⟩)

/-- **When a text is an IPv4 address for `str2ip`** exactly if it is one. -/
theorem str2ip_exact (st : Str) : (∀ a, str2ip st = some a ↔ Dotted st a) ↔ Bounded st := by
  constructor
  · rintro h ds rfl hlen hds d hd
    obtain ⟨es, he, helen, hes, -⟩ := (h _).1 (str2ip_octets hlen hds)
    have hne : ∀ {l : List Str}, l.length = 4 → l ≠ [] := by
      rintro l hl rfl
      cases hl
    obtain rfl : ds = es := pieces_unique (fun d hd => digits_no_dot (hds d hd))
      (fun e he => digits_no_dot (hes e he).digits) (hne hlen) (hne helen) he
    exact ⟨(hes d hd).some_digit, (hes d hd).le⟩
  · intro h a
    constructor
    · intro ha
      obtain ⟨ds, rfl, hlen, hds⟩ := str2ip_dotted ha
      rw [str2ip_octets hlen hds] at ha
      refine ⟨ds, rfl, hlen, fun d hd => ?_, (some_inj.1 ha).symm⟩
      obtain ⟨hne, hle⟩ := h ds rfl hlen hds d hd
      exact ⟨hds d hd, hne, hle⟩
    · rintro ⟨ds, rfl, hlen, hds, rfl⟩
      exact str2ip_octets hlen fun d hd => (hds d hd).digits

end Dotted

section Colons

def HexDigits (g : Str) : Prop := ∀ c ∈ g, (HEX2I c).isSome

def hexadecimal (g : Str) : ℕ := number 16 (fun c => (HEX2I c).getD 0) g

def word (g : Str) : UInt16 := UInt16.ofNat (hexadecimal g)

def colons (gs : List Str) : Str := [chr ':'].intercalate gs

structure Group (g : Str) : Prop where
  digits : HexDigits g
  some_digit : g ≠ []
  le : g.length ≤ 4

def address6 (ws : List UInt16) : IpAddr := .AF_INET6 fun r => ws.getD r.val 0

/-- The texts of IPv6 addresses with their words: eight groups, or fewer with a double colon. -/
inductive Words6 : Str → List UInt16 → Prop
  | eight (gs) : gs.length = 8 → (∀ g ∈ gs, Group g) → Words6 (colons gs) (gs.map word)
  | fewer (gs hs) : gs.length + hs.length < 8 → (∀ g ∈ gs, Group g) → (∀ h ∈ hs, Group h) →
      Words6 (colons gs ++ chr ':' :: chr ':' :: colons hs)
        (gs.map word ++ List.replicate (8 - (gs.length + hs.length)) 0 ++ hs.map word)

def Bare (st t : Str) : Prop := st = t ∨ st = chr '[' :: (t ++ [chr ']'])

def Spelled6 (st : Str) (a : IpAddr) : Prop := ∃ t ws, Bare st t ∧ Words6 t ws ∧ a = address6 ws

/-- Up to eight groups; what is empty between the first and the last is one of them at most, or none of
eight. -/
inductive Shaped : List Str → Prop
  | eight (g hs k) : hs.length = 6 → (∀ h ∈ hs, h ≠ []) → Shaped (g :: (hs ++ [k]))
  | fewer (g hs ks k) : hs.length + ks.length ≤ 5 → (∀ h ∈ hs, h ≠ []) → (∀ h ∈ ks, h ≠ []) →
      Shaped (g :: (hs ++ [] :: (ks ++ [k])))

/-- No group has more than four digits, and there is no single colon at an end. -/
structure Tidy (gs : List Str) : Prop where
  le : ∀ g ∈ gs, g.length ≤ 4
  front : ∀ hs, gs = [] :: hs → ∃ ks, hs = [] :: ks
  back : ∀ hs, gs = hs ++ [[]] → ∃ ks, hs = ks ++ [[]]

def Seven (gs : List Str) : Prop :=
  ∃ hs, hs.length = 7 ∧ (∀ h ∈ hs, Group h) ∧ (gs = [] :: [] :: hs ∨ gs = hs ++ [[], []])

/-- Where the groups have the shape that is accepted, they are tidy; and they are not seven with a double
colon at an end. -/
def Regular (st : Str) : Prop :=
  ∀ t gs, Bare st t → t = colons gs → (∀ g ∈ gs, HexDigits g) → (Shaped gs → Tidy gs) ∧ ¬ Seven gs

variable {u : Vars6} {g h s t st : Str} {gs hs ks : List Str} {ws es : List UInt16} {c : UInt8} {n : ℕ}
  {x : UInt16} {a : IpAddr}

/-- The word the loop is in. -/
def Vars6.here (u : Vars6) : UInt16 := if u.at_end then u.addr_end u.i else u.addr_start u.i

def Vars6.put (u : Vars6) (x : UInt16) : Vars6 :=
  if u.at_end then { u with addr_end := Function.update u.addr_end u.i x, double_colon := false }
  else { u with addr_start := Function.update u.addr_start u.i x, double_colon := false }

theorem push_put (u : Vars6) (n : ℕ) : u.push n = u.put (u.here * 16 + UInt16.ofNat n) := by
  unfold Vars6.push Vars6.put Vars6.here
  split_ifs <;> rfl

theorem put_here (u : Vars6) (x : UInt16) : (u.put x).here = x := by
  unfold Vars6.put Vars6.here
  by_cases h : u.at_end
  · rw [if_pos h]
    exact (if_pos h).trans (update_self ..)
  · rw [if_neg h]
    exact (if_neg h).trans (update_self ..)

theorem put_put (u : Vars6) (x y : UInt16) : (u.put x).put y = u.put y := by
  unfold Vars6.put
  by_cases h : u.at_end
  · rw [if_pos h, if_pos h, if_pos h, update_idem]
  · rw [if_neg h, if_neg h, if_neg h, update_idem]

theorem hex_ne_colon (hc : (HEX2I c).isSome) : c ≠ chr ':' := by
  rintro rfl
  exact absurd hc (by decide)

theorem str2ip6_loop_group (hg : HexDigits g) (hne : g ≠ []) (h0 : u.here = 0) :
    str2ip6_loop u (g ++ s) = str2ip6_loop (u.put (word g)) s := by
  have hone : ∀ {c} (u : Vars6) t, (HEX2I c).isSome → str2ip6_loop u (c :: t) =
      str2ip6_loop (u.put (u.here * 16 + UInt16.ofNat ((HEX2I c).getD 0))) t := by
    intro c u t hc
    obtain ⟨n, hn⟩ := isSome_iff_exists.1 hc
    rw [str2ip6_loop, if_neg (hex_ne_colon hc), hn, ← push_put]
    rfl
  have hmul : ∀ m d : ℕ, UInt16.ofNat m * 16 + UInt16.ofNat d = UInt16.ofNat (m * 16 + d) := fun m d => by
    rw [UInt16.ofNat_add, UInt16.ofNat_mul]
    rfl
  have hgo : ∀ (g : Str) n, HexDigits g → str2ip6_loop (u.put (UInt16.ofNat n)) (g ++ s) =
      str2ip6_loop (u.put (UInt16.ofNat (g.foldl (fun n c => n * 16 + (HEX2I c).getD 0) n))) s := by
    intro g
    induction g with
    | nil => exact fun n _ => rfl
    | cons c g ih =>
      intro n hg
      rw [cons_append, hone _ _ (hg c mem_cons_self), put_here, put_put, hmul,
        ih _ fun c hc => hg c (mem_cons_of_mem _ hc)]
      rfl
  obtain ⟨c, g, rfl⟩ := exists_cons_of_ne_nil hne
  have hzero : u.here * 16 = UInt16.ofNat (0 * 16) := by
    rw [h0]
    rfl
  rw [cons_append, hone _ _ (hg c mem_cons_self), hzero, ← UInt16.ofNat_add,
    hgo g _ fun c hc => hg c (mem_cons_of_mem _ hc)]
  rfl

/-- `ws` was read, each word with its colon. -/
def before (ws : List UInt16) : Vars6 where
  i := ws.length
  idx1 := 0
  no_colons := ws.length
  double_colon := decide (ws ≠ [])
  at_end := false
  addr_start := fun r => ws.getD r 0
  addr_end := fun _ => 0

/-- `ws` was read, a colon, and `es` each with its colon. -/
def behind (ws es : List UInt16) : Vars6 where
  i := es.length
  idx1 := ws.length
  no_colons := ws.length + 1 + es.length
  double_colon := true
  at_end := true
  addr_start := fun r => ws.getD r 0
  addr_end := fun r => es.getD r 0

theorem before_here (ws : List UInt16) : (before ws).here = 0 := getD_eq_default _ _ (le_rfl)

theorem behind_here (ws es : List UInt16) : (behind ws es).here = 0 := getD_eq_default _ _ (le_rfl)

theorem getD_snoc (ws : List UInt16) (x : UInt16) : Function.update (fun r => ws.getD r 0) ws.length x =
    fun r => (ws ++ [x]).getD r 0 := by
  ext r
  rcases lt_trichotomy r ws.length with hr | rfl | hr
  · rw [update_of_ne (ne_of_lt hr), getD_append _ _ _ _ hr]
  · rw [update_self, getD_append_right _ _ _ _ (le_rfl), Nat.sub_self]
    rfl
  · rw [update_of_ne (ne_of_gt hr), getD_eq_default _ _ (le_of_lt hr),
      getD_eq_default _ _ (by rw [length_append]; exact hr)]

theorem getD_snoc_zero (ws : List UInt16) (r : ℕ) : (ws ++ [0]).getD r 0 = ws.getD r 0 := by
  rw [← congrFun (getD_snoc ws 0) r]
  by_cases hr : r = ws.length
  · rw [hr, update_self, getD_eq_default _ _ (le_rfl)]
  · rw [update_of_ne hr]

theorem str2ip6_before (hg : HexDigits g) : str2ip6_loop (before ws) (g ++ chr ':' :: s) =
    if 7 < ws.length + 1 then none
    else if g = [] ∧ ws ≠ [] then str2ip6_loop (behind ws []) s
    else str2ip6_loop (before (ws ++ [word g])) s := by
  by_cases hne : g = []
  · subst hne
    rw [nil_append, str2ip6_loop, if_pos rfl]
    refine if_congr Iff.rfl rfl ?_
    by_cases hws : ws = []
    · subst hws
      refine congrArg (fun u => str2ip6_loop u s) ?_
      unfold before
      congr 1
      ext r
      cases r <;> rfl
    · have hdouble : (before ws).double_colon := decide_eq_true hws
      refine (if_pos hdouble).trans (Eq.trans ?_ (if_pos ⟨rfl, hws⟩).symm)
      rw [hdouble]
      rfl
  · rw [str2ip6_loop_group hg hne (before_here ws), str2ip6_loop, if_pos rfl]
    refine if_congr Iff.rfl rfl ?_
    refine (if_neg Bool.false_ne_true).trans (Eq.trans ?_ (if_neg fun h => hne h.1).symm)
    refine congrArg (fun u => str2ip6_loop u s) ?_
    simp only [before, Vars6.put, getD_snoc, length_append, length_singleton, Bool.false_eq_true, if_false]
    simp

theorem str2ip6_behind (hg : HexDigits g) : str2ip6_loop (behind ws es) (g ++ chr ':' :: s) =
    if 7 < ws.length + 1 + es.length + 1 ∨ g = [] then none
    else str2ip6_loop (behind ws (es ++ [word g])) s := by
  by_cases hne : g = []
  · subst hne
    rw [if_pos (.inr rfl), nil_append, str2ip6_loop, if_pos rfl]
    exact ite_eq_left_iff.2 fun _ => rfl
  · rw [str2ip6_loop_group hg hne (behind_here ws es), str2ip6_loop, if_pos rfl]
    refine if_congr ⟨.inl, fun h => h.resolve_right hne⟩ rfl ?_
    refine (if_neg Bool.false_ne_true).trans (congrArg (fun u => str2ip6_loop u s) ?_)
    simp only [behind, Vars6.put, getD_snoc, length_append, length_singleton, if_true, add_assoc]

theorem str2ip6_before_groups (hgs : ∀ g ∈ gs, HexDigits g ∧ (g ≠ [] ∨ ws = [] ∧ gs = [g]))
    (hlen : ws.length + gs.length ≤ 7) : str2ip6_loop (before ws) ((gs.flatMap fun g => g ++ [chr ':']) ++ s) =
    str2ip6_loop (before (ws ++ gs.map word)) s := by
  induction gs generalizing ws with
  | nil =>
    rw [map_nil, append_nil]
    rfl
  | cons g gs ih =>
    obtain ⟨hg, hne⟩ := hgs g mem_cons_self
    rw [length_cons] at hlen
    have hno : ¬ (g = [] ∧ ws ≠ []) := fun h => hne.elim (fun hne => hne h.1) fun hne => h.2 hne.1
    rw [flatMap_cons, append_assoc, append_assoc, singleton_append, str2ip6_before hg,
      if_neg (by omega), if_neg hno, ih, map_cons, append_assoc, singleton_append]
    · intro h hh
      obtain ⟨hhex, hne⟩ := hgs h (mem_cons_of_mem _ hh)
      refine ⟨hhex, hne.imp id fun ⟨_, he⟩ => ?_⟩
      rw [(cons_eq_cons.1 he).2] at hh
      exact absurd hh not_mem_nil
    · rw [length_append, length_singleton]
      omega

theorem str2ip6_behind_groups (hgs : ∀ g ∈ gs, HexDigits g ∧ g ≠ []) (hlen : ws.length + es.length + gs.length ≤ 6) :
    str2ip6_loop (behind ws es) ((gs.flatMap fun g => g ++ [chr ':']) ++ s) =
    str2ip6_loop (behind ws (es ++ gs.map word)) s := by
  induction gs generalizing es with
  | nil =>
    rw [map_nil, append_nil]
    rfl
  | cons g gs ih =>
    obtain ⟨hg, hne⟩ := hgs g mem_cons_self
    rw [length_cons] at hlen
    rw [flatMap_cons, append_assoc, append_assoc, singleton_append, str2ip6_behind hg,
      if_neg (by rintro (h | h); exacts [by omega, hne h]), ih (fun h hh => hgs h (mem_cons_of_mem _ hh)) _,
      map_cons, append_assoc, singleton_append]
    rw [length_append, length_singleton]
    omega

/-- The text of an address without brackets. -/
def core (t : Str) : Option IpAddr := (str2ip6_loop str2ip6_init t).bind str2ip6_end

theorem str2ip6_before_end (hg : HexDigits g) : (str2ip6_loop (before ws) g).bind str2ip6_end =
    if ws.length < 7 then none else some (address6 (ws ++ [word g])) := by
  have hfin : ∀ u : Vars6, u.at_end = false → u.no_colons = ws.length →
      (∀ r, u.addr_start r = (ws ++ [word g]).getD r 0) →
      str2ip6_end u = if ws.length < 7 then none else some (address6 (ws ++ [word g])) := by
    intro u he hn ha
    unfold str2ip6_end
    rw [he, hn]
    refine (if_neg Bool.false_ne_true).trans (if_congr Iff.rfl rfl ?_)
    exact congrArg (fun f => some (IpAddr.AF_INET6 f)) (funext fun r => ha r)
  by_cases hne : g = []
  · subst hne
    exact hfin (before ws) rfl rfl fun r => (getD_snoc_zero ws r).symm
  · have hloop := @str2ip6_loop_group (before ws) g [] hg hne (before_here ws)
    rw [append_nil] at hloop
    rw [hloop]
    exact hfin ((before ws).put (word g)) rfl rfl fun r => congrFun (getD_snoc ws (word g)) r

theorem getD_ends (hlen : ws.length + es.length ≤ 8) (r : ℕ) :
    (ws ++ List.replicate (8 - (ws.length + es.length)) 0 ++ es).getD r 0 =
    if 8 - es.length ≤ r then es.getD (r - (8 - es.length)) 0 else ws.getD r 0 := by
  have hfront : (ws ++ List.replicate (8 - (ws.length + es.length)) (0 : UInt16)).length = 8 - es.length := by
    rw [length_append, length_replicate]
    omega
  split_ifs with h
  · rw [getD_append_right _ _ _ _ (by rwa [hfront]), hfront]
  · rw [getD_append _ _ _ _ (by rw [hfront]; omega)]
    by_cases hw : r < ws.length
    · rw [getD_append _ _ _ _ hw]
    · rw [getD_append_right _ _ _ _ (by omega), getD_replicate _ (by omega),
        getD_eq_default _ _ (by omega)]

theorem str2ip6_behind_end (hg : HexDigits g) (hlen : ws.length + es.length ≤ 7) :
    (str2ip6_loop (behind ws es) g).bind str2ip6_end = some (address6
      (let es' := if g = [] then es else es ++ [word g]
       ws ++ List.replicate (8 - (ws.length + es'.length)) 0 ++ es')) := by
  have hfin : ∀ (u : Vars6) (es' : List UInt16), u.at_end → u.idx1 = ws.length →
      (if u.double_colon then u.i else u.i + 1) = es'.length → ws.length + es'.length ≤ 8 →
      (∀ r, u.addr_start r = ws.getD r 0) → (∀ r, u.addr_end r = es'.getD r 0) →
      str2ip6_end u = some (address6 (ws ++ List.replicate (8 - (ws.length + es'.length)) 0 ++ es')) := by
    intro u es' he h1 hi hlen' hs ha
    unfold str2ip6_end
    simp only [he, h1, hi, if_true]
    refine congrArg (fun f => some (IpAddr.AF_INET6 f)) (funext fun r => ?_)
    rw [getD_ends hlen' r.val, show ws.length + (8 - es'.length - ws.length) = 8 - es'.length by omega, hs, ha]
    exact if_congr (by omega) rfl rfl
  by_cases hne : g = []
  · subst hne
    exact hfin (behind ws es) es rfl rfl rfl (by omega) (fun r => rfl) fun r => rfl
  · have hloop := @str2ip6_loop_group (behind ws es) g [] hg hne (behind_here ws es)
    rw [append_nil] at hloop
    rw [hloop]
    simp only [if_neg hne]
    refine hfin ((behind ws es).put (word g)) (es ++ [word g]) rfl rfl ?_ ?_ (fun r => rfl) fun r => congrFun (getD_snoc es (word g)) r
    · rw [length_append]
      rfl
    · rw [length_append, length_singleton]
      omega

theorem colons_cons (hne : gs ≠ []) : colons (g :: gs) = g ++ chr ':' :: colons gs := by
  rw [colons, intercalate_cons_of_ne_nil hne, append_assoc]
  rfl

theorem colons_append (hs : List Str) (hne : gs ≠ []) :
    colons (hs ++ gs) = (hs.flatMap fun h => h ++ [chr ':']) ++ colons gs := pieces_append hne

theorem core_first (hg : HexDigits g) : core (g ++ chr ':' :: s) =
    (str2ip6_loop (before [word g]) s).bind str2ip6_end := by
  have hfirst := @str2ip6_before g s [] hg
  rw [if_neg (by decide), if_neg fun hn => hn.2 rfl] at hfirst
  exact congrArg (fun o => o.bind str2ip6_end) hfirst

theorem shaped_behind (hgs : ∀ g ∈ gs, HexDigits g) (hne : gs ≠ []) (hlen : ws.length + es.length ≤ 6)
    (h : ((str2ip6_loop (behind ws es) (colons gs)).bind str2ip6_end).isSome) :
    ∃ ks k, gs = ks ++ [k] ∧ (∀ k ∈ ks, k ≠ []) ∧ ws.length + es.length + ks.length ≤ 6 := by
  induction gs generalizing es with
  | nil => exact absurd rfl hne
  | cons g gs ih =>
    by_cases hgs' : gs = []
    · subst hgs'
      exact ⟨[], g, rfl, fun k hk => absurd hk not_mem_nil, hlen⟩
    · rw [colons_cons hgs', str2ip6_behind (hgs g mem_cons_self)] at h
      split_ifs at h with hno
      · cases h
      · obtain ⟨hcount, hg⟩ := not_or.1 hno
        have hes : (es ++ [word g]).length = es.length + 1 := length_append
        obtain ⟨ks, k, rfl, hks, hlen'⟩ := ih (fun g hg => hgs g (mem_cons_of_mem _ hg)) hgs' (by omega) h
        refine ⟨g :: ks, k, rfl, fun k hk => ?_, ?_⟩
        · rcases mem_cons.1 hk with rfl | hk
          · exact hg
          · exact hks k hk
        · rw [length_cons]
          omega

theorem shaped_before (hgs : ∀ g ∈ gs, HexDigits g) (hne : gs ≠ []) (hws : ws ≠ []) (hlen : ws.length ≤ 7)
    (h : ((str2ip6_loop (before ws) (colons gs)).bind str2ip6_end).isSome) :
    (∃ hs k, gs = hs ++ [k] ∧ (∀ h ∈ hs, h ≠ []) ∧ ws.length + hs.length = 7) ∨
      ∃ hs ks k, gs = hs ++ [] :: (ks ++ [k]) ∧ (∀ h ∈ hs, h ≠ []) ∧ (∀ k ∈ ks, k ≠ []) ∧
        ws.length + hs.length + ks.length ≤ 6 := by
  induction gs generalizing ws with
  | nil => exact absurd rfl hne
  | cons g gs ih =>
    by_cases hgs' : gs = []
    · subst hgs'
      rw [colons, intercalate_singleton, str2ip6_before_end (hgs g mem_cons_self)] at h
      split_ifs at h with hcount
      · cases h
      · exact .inl ⟨[], g, rfl, fun k hk => absurd hk not_mem_nil, le_antisymm hlen (le_of_not_gt hcount)⟩
    · have htail : ∀ g ∈ gs, HexDigits g := fun g hg => hgs g (mem_cons_of_mem _ hg)
      rw [colons_cons hgs', str2ip6_before (hgs g mem_cons_self)] at h
      split_ifs at h with hcount hgap
      · cases h
      · obtain ⟨ks, k, rfl, hks, hlen'⟩ := @shaped_behind gs ws [] htail hgs'
          (le_of_not_gt fun hl => hcount (Nat.succ_lt_succ hl)) h
        refine .inr ⟨[], ks, k, ?_, fun k hk => absurd hk not_mem_nil, hks, hlen'⟩
        rw [hgap.1]
        rfl
      · have hg : g ≠ [] := fun he => hgap ⟨he, hws⟩
        have hws' : (ws ++ [word g]).length = ws.length + 1 := length_append
        have hcons : ∀ {hs : List Str}, (∀ h ∈ hs, h ≠ []) → ∀ h ∈ g :: hs, h ≠ [] := fun hhs h hh => by
          rcases mem_cons.1 hh with rfl | hh
          · exact hg
          · exact hhs h hh
        rcases ih htail hgs' (append_ne_nil_of_right_ne_nil _ (cons_ne_nil _ _)) (by omega) h with
          ⟨hs, k, rfl, hhs, hl⟩ | ⟨hs, ks, k, rfl, hhs, hks, hl⟩
        · exact .inl ⟨g :: hs, k, rfl, hcons hhs, by rw [length_cons]; omega⟩
        · exact .inr ⟨g :: hs, ks, k, rfl, hcons hhs, hks, by rw [length_cons]; omega⟩

theorem shaped_of_core (hgs : ∀ g ∈ gs, HexDigits g) (hne : gs ≠ []) (h : (core (colons gs)).isSome) : Shaped gs := by
  obtain ⟨g, gs, rfl⟩ := exists_cons_of_ne_nil hne
  by_cases hgs' : gs = []
  · subst hgs'
    have hone := @str2ip6_before_end g [] (hgs g mem_cons_self)
    rw [if_pos (by decide)] at hone
    rw [colons, intercalate_singleton, core, show str2ip6_init = before [] from rfl, hone] at h
    cases h
  · have hone : [word g].length = 1 := rfl
    rw [colons_cons hgs', core_first (hgs g mem_cons_self)] at h
    rcases shaped_before (fun g hg => hgs g (mem_cons_of_mem _ hg)) hgs' (cons_ne_nil _ _) (by omega) h with
      ⟨hs, k, rfl, hhs, hl⟩ | ⟨hs, ks, k, rfl, hhs, hks, hl⟩
    · exact Shaped.eight g hs k (by omega) hhs
    · exact Shaped.fewer g hs ks k (by omega) hhs hks

theorem core_eight {k : Str} (hgs : ∀ h ∈ g :: (hs ++ [k]), HexDigits h) (hhs : ∀ h ∈ hs, h ≠ []) (hlen : hs.length = 6) :
    core (colons (g :: (hs ++ [k]))) = some (address6 ((g :: (hs ++ [k])).map word)) := by
  have hhex : ∀ h ∈ hs, HexDigits h := fun h hh => hgs h (mem_cons_of_mem _ (mem_append_left _ hh))
  have hk : HexDigits k := hgs k (mem_cons_of_mem _ (mem_append_right _ mem_cons_self))
  rw [colons_cons (append_ne_nil_of_right_ne_nil _ (cons_ne_nil _ _)), core_first (hgs g mem_cons_self),
    colons_append hs (cons_ne_nil _ _), str2ip6_before_groups (fun h hh => ⟨hhex h hh, .inl (hhs h hh)⟩)
      (by rw [hlen]; exact le_rfl), colons, intercalate_singleton, str2ip6_before_end hk, if_neg, map_cons,
    map_append]
  · rfl
  · rw [length_append, length_map, hlen, length_singleton]
    decide

/-- The groups that are there. -/
def present (gs : List Str) : List Str := if gs = [[]] then [] else gs

theorem colons_present (gs : List Str) : colons (present gs) = colons gs := by
  unfold present
  split_ifs with h
  · rw [h]
    rfl
  · rfl

theorem colons_gap {k : Str} : colons (g :: (hs ++ [] :: (ks ++ [k]))) =
    colons (present (g :: hs)) ++ chr ':' :: chr ':' :: colons (present (ks ++ [k])) := by
  have hne : ks ++ [k] ≠ [] := append_ne_nil_of_right_ne_nil _ (cons_ne_nil _ _)
  have hsplit : ∀ {ds : List Str}, ds ≠ [] → ∀ s, (ds.flatMap fun d => d ++ [chr ':']) ++ s = colons ds ++ chr ':' :: s := by
    intro ds hds s
    have happ := @pieces_append UInt8 (chr ':') ds [s] (cons_ne_nil _ _)
    rw [intercalate_singleton] at happ
    rw [← happ]
    obtain ⟨d, ds, rfl⟩ := exists_cons_of_ne_nil hds
    clear happ hds
    induction ds generalizing d with
    | nil =>
      rw [singleton_append, intercalate_cons_cons, intercalate_singleton, colons,
        intercalate_singleton, append_assoc]
      rfl
    | cons e ds ih =>
      rw [cons_append, cons_append, intercalate_cons_cons, ← cons_append, ih,
        colons_cons (cons_ne_nil _ _), append_assoc, append_assoc]
      rfl
  rw [colons_present, colons_present, ← cons_append, colons_append _ (cons_ne_nil _ _),
    hsplit (cons_ne_nil _ _), colons_cons hne]
  rfl

theorem core_fewer {k : Str} (hgs : ∀ h ∈ g :: (hs ++ [] :: (ks ++ [k])), HexDigits h) (hhs : ∀ h ∈ hs, h ≠ [])
    (hks : ∀ h ∈ ks, h ≠ []) (hlen : hs.length + ks.length ≤ 5) :
    core (colons (g :: (hs ++ [] :: (ks ++ [k])))) = some (address6
      (let es := if k = [] then ks.map word else ks.map word ++ [word k]
       (word g :: hs.map word) ++ List.replicate (8 - ((word g :: hs.map word).length + es.length)) 0 ++ es)) := by
  have hk : HexDigits k := hgs k (by simp)
  have hne : ks ++ [k] ≠ [] := append_ne_nil_of_right_ne_nil _ (cons_ne_nil _ _)
  have hws : (word g :: hs.map word).length = hs.length + 1 := by rw [length_cons, length_map]
  have hfirst := @str2ip6_before [] (colons (ks ++ [k])) (word g :: hs.map word) fun c hc => absurd hc not_mem_nil
  rw [hws, if_neg (by omega), if_pos ⟨rfl, cons_ne_nil _ _⟩] at hfirst
  rw [colons_cons (append_ne_nil_of_right_ne_nil _ (cons_ne_nil _ _)), core_first (hgs g mem_cons_self),
    colons_append hs (cons_ne_nil _ _), str2ip6_before_groups, colons_cons hne, singleton_append, hfirst,
    colons_append ks (cons_ne_nil _ _), str2ip6_behind_groups, colons, intercalate_singleton,
    str2ip6_behind_end hk]
  · rfl
  · rw [hws, nil_append, length_map]
    omega
  · exact fun h hh => ⟨hgs h (by simp [hh]), hks h hh⟩
  · rw [hws, length_nil]
    omega
  · exact fun h hh => ⟨hgs h (by simp [hh]), .inl (hhs h hh)⟩
  · rw [length_singleton]
    omega

variable {k : Str}

theorem tidy_eight (hhs : ∀ h ∈ hs, h ≠ []) (hlen : hs.length = 6) : Tidy (g :: (hs ++ [k])) ↔
    (∀ h ∈ g :: (hs ++ [k]), h.length ≤ 4) ∧ g ≠ [] ∧ k ≠ [] := by
  have hne : hs ≠ [] := by
    rintro rfl
    cases hlen
  constructor
  · rintro ⟨hle, hfront, hback⟩
    refine ⟨hle, ?_, ?_⟩
    · rintro rfl
      obtain ⟨ks, hks⟩ := hfront _ rfl
      obtain ⟨h, hs, rfl⟩ := exists_cons_of_ne_nil hne
      exact hhs h mem_cons_self (cons_eq_cons.1 hks).1
    · rintro rfl
      obtain ⟨ks, hks⟩ := hback (g :: hs) rfl
      have hlast : ([] : Str) ∈ hs := by
        obtain ⟨hs, h, rfl⟩ := (eq_nil_or_concat' hs).resolve_left hne
        rw [← cons_append] at hks
        rw [(append_inj' hks rfl).2]
        simp
      exact hhs [] hlast rfl
  · rintro ⟨hle, hg, hk⟩
    refine ⟨hle, fun ks hks => absurd (cons_eq_cons.1 hks).1 hg, fun ks hks => ?_⟩
    rw [← cons_append] at hks
    exact absurd (cons_eq_cons.1 (append_inj' hks rfl).2).1 hk

theorem tidy_fewer (hhs : ∀ h ∈ hs, h ≠ []) (hks : ∀ h ∈ ks, h ≠ []) : Tidy (g :: (hs ++ [] :: (ks ++ [k]))) ↔
    (∀ h ∈ g :: (hs ++ [] :: (ks ++ [k])), h.length ≤ 4) ∧ (g = [] → hs = []) ∧ (k = [] → ks = []) := by
  have hback' : g :: (hs ++ [] :: (ks ++ [k])) = (g :: hs ++ [] :: ks) ++ [k] := by simp
  constructor
  · rintro ⟨hle, hfront, hback⟩
    refine ⟨hle, ?_, ?_⟩
    · rintro rfl
      obtain ⟨ks', hks'⟩ := hfront _ rfl
      cases hs with
      | nil => rfl
      | cons h hs => exact absurd (cons_eq_cons.1 hks').1 (hhs h mem_cons_self)
    · rintro rfl
      obtain ⟨ks', hks'⟩ := hback _ hback'
      rcases eq_nil_or_concat' ks with rfl | ⟨js, j, rfl⟩
      · rfl
      · have hj : (g :: hs ++ [] :: js) ++ [j] = ks' ++ [[]] := by
          rw [← hks']
          simp
        exact absurd (cons_eq_cons.1 (append_inj' hj rfl).2).1 (hks j (mem_append_right _ mem_cons_self))
  · rintro ⟨hle, hg, hk⟩
    refine ⟨hle, fun ks' hks' => ?_, fun ks' hks' => ?_⟩
    · obtain ⟨rfl, rfl⟩ := cons_eq_cons.1 hks'
      rw [hg rfl]
      exact ⟨_, rfl⟩
    · rw [hback'] at hks'
      obtain ⟨rfl, hk'⟩ := append_inj' hks' rfl
      rw [hk (cons_eq_cons.1 hk').1]
      exact ⟨_, rfl⟩

def Filled (gs : List Str) : Prop := ∀ h ∈ gs, h = [] → gs = [[]]

theorem present_ne (hgs : Filled gs) : ∀ h ∈ present gs, h ∈ gs ∧ h ≠ [] := by
  intro h hh
  unfold present at hh
  split_ifs at hh with hnone
  · cases hh
  · exact ⟨hh, fun he => hnone (hgs h hh he)⟩

theorem present_of (hgs : ∀ h ∈ gs, h ≠ []) : ∃ hs, hs ≠ [] ∧ Filled hs ∧ present hs = gs ∧
    (hs = gs ∨ gs = [] ∧ hs = [[]]) := by
  by_cases hnil : gs = []
  · refine ⟨[[]], cons_ne_nil _ _, fun h hh he => rfl, ?_, .inr ⟨hnil, rfl⟩⟩
    rw [hnil]
    exact if_pos rfl
  · refine ⟨gs, hnil, fun h hh he => absurd he (hgs h hh), if_neg ?_, .inl rfl⟩
    rintro rfl
    exact hgs [] mem_cons_self rfl

theorem filled_cons : Filled (g :: hs) ↔ (∀ h ∈ hs, h ≠ []) ∧ (g = [] → hs = []) := by
  constructor
  · intro hf
    refine ⟨fun h hh he => ?_, fun hg => (cons_eq_cons.1 (hf g mem_cons_self hg)).2⟩
    rw [(cons_eq_cons.1 (hf h (mem_cons_of_mem _ hh) he)).2] at hh
    exact not_mem_nil hh
  · rintro ⟨hhs, hg⟩ h hh he
    rcases mem_cons.1 hh with rfl | hh
    · rw [he, hg he]
    · exact absurd he (hhs h hh)

theorem filled_snoc : Filled (ks ++ [k]) ↔ (∀ h ∈ ks, h ≠ []) ∧ (k = [] → ks = []) := by
  have hlen : ks ++ [k] = [[]] → ks = [] := fun he => by
    cases ks with
    | nil => rfl
    | cons h ks => cases ks <;> cases he
  constructor
  · intro hf
    refine ⟨fun h hh he => ?_, fun hk => hlen (hf k (by simp) hk)⟩
    rw [hlen (hf h (mem_append_left _ hh) he)] at hh
    exact not_mem_nil hh
  · rintro ⟨hks, hk⟩ h hh he
    rcases mem_append.1 hh with hh | hh
    · exact absurd he (hks h hh)
    · obtain rfl := mem_singleton.1 hh
      rw [he, hk he]
      rfl

def gap (gs hs : List Str) : List UInt16 :=
  (present gs).map word ++ List.replicate (8 - ((present gs).length + (present hs).length)) 0 ++ (present hs).map word

theorem words_fewer (hfront : Filled (g :: hs)) (hback : Filled (ks ++ [k])) (hlen : hs.length + ks.length ≤ 5)
    (hgs : ∀ h ∈ g :: (hs ++ [] :: (ks ++ [k])), HexDigits h ∧ h.length ≤ 4) :
    Words6 (colons (g :: (hs ++ [] :: (ks ++ [k])))) (gap (g :: hs) (ks ++ [k])) ∧
      core (colons (g :: (hs ++ [] :: (ks ++ [k])))) = some (address6 (gap (g :: hs) (ks ++ [k]))) := by
  have hle : ∀ gs : List Str, (present gs).length ≤ gs.length := fun gs => by
    unfold present
    split_ifs
    · exact Nat.zero_le _
    · exact Nat.le_refl _
  have hgroup : ∀ {gs : List Str}, Filled gs → gs ⊆ g :: (hs ++ [] :: (ks ++ [k])) → ∀ h ∈ present gs, Group h :=
    fun hf hsub h hh => ⟨(hgs h (hsub (present_ne hf h hh).1)).1, (present_ne hf h hh).2, (hgs h (hsub (present_ne hf h hh).1)).2⟩
  have hl := hle (g :: hs)
  have hr := hle (ks ++ [k])
  rw [length_cons] at hl
  rw [length_append, length_singleton] at hr
  constructor
  · rw [colons_gap]
    refine Words6.fewer _ _ (by omega) (hgroup hfront ?_) (hgroup hback ?_)
    · rw [← cons_append]
      exact subset_append_left _ _
    · exact fun h hh => mem_cons_of_mem _ (mem_append_right _ (mem_cons_of_mem _ hh))
  · rw [core_fewer (fun h hh => (hgs h hh).1) (filled_cons.1 hfront).1 (filled_snoc.1 hback).1 hlen]
    have hes : (if k = [] then ks.map word else ks.map word ++ [word k]) = (present (ks ++ [k])).map word := by
      unfold present
      split_ifs with hk hone hone
      · rw [(filled_snoc.1 hback).2 hk]
      · rw [(filled_snoc.1 hback).2 hk, hk] at hone
        exact absurd rfl hone
      · exact absurd (cons_eq_cons.1 (@append_inj' _ ks [k] [] [[]] hone rfl).2).1 hk
      · rw [map_append, map_singleton]
    simp only [hes, gap, length_map, length_cons]
    refine congrArg (fun ws => some (address6 (ws ++ _))) ?_
    by_cases hg : g = []
    · obtain rfl := (filled_cons.1 hfront).2 hg
      have hfew : (present (ks ++ [k])).length ≤ 6 := by
        rw [length_nil] at hlen
        omega
      have hzero : 8 - (0 + (present (ks ++ [k])).length) = 8 - (1 + (present (ks ++ [k])).length) + 1 := by omega
      rw [hg, show present [([] : Str)] = [] from rfl, length_nil, hzero, replicate_succ]
      rfl
    · have hhere : present (g :: hs) = g :: hs := if_neg fun he => hg (cons_eq_cons.1 he).1
      rw [hhere]
      rfl

theorem words_of_tidy (hgs : ∀ g ∈ gs, HexDigits g) (hshape : Shaped gs) (htidy : Tidy gs) :
    ∃ ws, Words6 (colons gs) ws ∧ core (colons gs) = some (address6 ws) := by
  cases hshape with
  | eight g hs k hlen hhs =>
    obtain ⟨hle, hg, hk⟩ := (tidy_eight hhs hlen).1 htidy
    refine ⟨_, Words6.eight _ ?_ fun h hh => ⟨hgs h hh, ?_, hle h hh⟩, core_eight hgs hhs hlen⟩
    · rw [length_cons, length_append, hlen]
      rfl
    · rcases mem_cons.1 hh with rfl | hh
      · exact hg
      · rcases mem_append.1 hh with hh | hh
        · exact hhs h hh
        · rwa [mem_singleton.1 hh]
  | fewer g hs ks k hlen hhs hks =>
    obtain ⟨hle, hg, hk⟩ := (tidy_fewer hhs hks).1 htidy
    exact ⟨_, words_fewer (filled_cons.2 ⟨hhs, hg⟩) (filled_snoc.2 ⟨hks, hk⟩) hlen fun h hh => ⟨hgs h hh, hle h hh⟩⟩

theorem tidy_of_words (h : Words6 t ws) : ∃ gs, gs ≠ [] ∧ t = colons gs ∧ (∀ g ∈ gs, HexDigits g) ∧
    (Seven gs ∨ Shaped gs ∧ Tidy gs ∧ core t = some (address6 ws)) := by
  have hne : ∀ {gs : List Str}, (∀ g ∈ gs, Group g) → ∀ g ∈ gs, g ≠ [] := fun hgs g hg => (hgs g hg).some_digit
  cases h with
  | eight gs hlen hgs =>
    obtain ⟨g, gs, rfl⟩ := exists_cons_of_ne_nil (show gs ≠ [] by rintro rfl; cases hlen)
    obtain ⟨hs, k, rfl⟩ := (eq_nil_or_concat' gs).resolve_left (by rintro rfl; cases hlen)
    rw [length_cons, length_append, length_singleton] at hlen
    have hhs : ∀ h ∈ hs, h ≠ [] := fun h hh => hne hgs h (mem_cons_of_mem _ (mem_append_left _ hh))
    have hsix : hs.length = 6 := by omega
    refine ⟨_, cons_ne_nil _ _, rfl, fun h hh => (hgs h hh).digits, .inr ⟨Shaped.eight g hs k hsix hhs, ?_, ?_⟩⟩
    · exact (tidy_eight hhs hsix).2 ⟨fun h hh => (hgs h hh).le, hne hgs g (by simp), hne hgs k (by simp)⟩
    · exact core_eight (fun h hh => (hgs h hh).digits) hhs hsix
  | fewer gs hs hlen hgs hhs =>
    obtain ⟨gs', hgne, hgf, rfl, hgc⟩ := present_of (hne hgs)
    obtain ⟨hs', hhne, hhf, rfl, hhc⟩ := present_of (hne hhs)
    obtain ⟨g, gs', rfl⟩ := exists_cons_of_ne_nil hgne
    obtain ⟨ks, k, rfl⟩ := (eq_nil_or_concat' hs').resolve_left hhne
    have hnil : HexDigits [] ∧ ([] : Str).length ≤ 4 := ⟨fun c hc => absurd hc not_mem_nil, Nat.zero_le _⟩
    have hdigits : ∀ {ds : List Str}, (∀ d ∈ present ds, Group d) → ∀ d ∈ ds, HexDigits d ∧ d.length ≤ 4 := by
      intro ds hds d hd
      by_cases hone : ds = [[]]
      · rw [hone] at hd
        rw [mem_singleton.1 hd]
        exact hnil
      · have hd' := hds d (by rwa [present, if_neg hone])
        exact ⟨hd'.digits, hd'.le⟩
    have hall : ∀ d ∈ g :: (gs' ++ [] :: (ks ++ [k])), HexDigits d ∧ d.length ≤ 4 := by
      intro d hd
      rw [← cons_append] at hd
      rcases mem_append.1 hd with hd | hd
      · exact hdigits hgs d hd
      · rcases mem_cons.1 hd with rfl | hd
        · exact hnil
        · exact hdigits hhs d hd
    refine ⟨g :: (gs' ++ [] :: (ks ++ [k])), cons_ne_nil _ _, colons_gap.symm, fun d hd => (hall d hd).1, ?_⟩
    by_cases hfew : gs'.length + ks.length ≤ 5
    · have hgf' := filled_cons.1 hgf
      have hhf' := filled_snoc.1 hhf
      refine .inr ⟨Shaped.fewer g gs' ks k hfew hgf'.1 hhf'.1, ?_, ?_⟩
      · exact (tidy_fewer hgf'.1 hhf'.1).2 ⟨fun d hd => (hall d hd).2, hgf'.2, hhf'.2⟩
      · rw [← colons_gap]
        exact (words_fewer hgf hhf hfew hall).2
    · -- one side is empty, and the other has seven groups
      refine .inl ?_
      have hone : ∀ {ds : List Str} {d : Str}, ds ++ [d] = [[]] → ds = [] ∧ d = [] := fun he => by
        obtain ⟨rfl, hd⟩ := @append_inj' _ _ _ [] [[]] he rfl
        exact ⟨rfl, (cons_eq_cons.1 hd).1⟩
      rcases hgc with hgc | ⟨hgnil, hgc⟩
      · rcases hhc with hhc | ⟨hhnil, hhc⟩
        · rw [← hgc, ← hhc, length_cons, length_append, length_singleton] at hlen
          omega
        · obtain ⟨rfl, rfl⟩ := hone hhc
          rw [hhnil, ← hgc, length_cons] at hlen
          rw [length_nil] at hlen hfew
          refine ⟨g :: gs', ?_, fun d hd => hgs d (by rwa [← hgc]), .inr rfl⟩
          rw [length_cons]
          omega
      · obtain ⟨rfl, rfl⟩ := cons_eq_cons.1 hgc
        rw [length_nil] at hfew
        rcases hhc with hhc | ⟨hhnil, hhc⟩
        · refine ⟨ks ++ [k], ?_, fun d hd => hhs d (by rwa [← hhc]), .inl rfl⟩
          rw [hgnil, ← hhc, length_nil, length_append, length_singleton] at hlen
          rw [length_append, length_singleton]
          omega
        · rw [(hone hhc).1, length_nil] at hfew
          omega

theorem core_of_shaped (hgs : ∀ g ∈ gs, HexDigits g) (h : Shaped gs) : (core (colons gs)).isSome := by
  cases h with
  | eight g hs k hlen hhs => exact isSome_iff_exists.2 ⟨_, core_eight hgs hhs hlen⟩
  | fewer g hs ks k hlen hhs hks => exact isSome_iff_exists.2 ⟨_, core_fewer hgs hhs hks hlen⟩

theorem seven_length (h : Seven gs) : gs.length = 9 := by
  obtain ⟨hs, hlen, -, rfl | rfl⟩ := h
  · rw [length_cons, length_cons, hlen]
  · rw [length_append, hlen]
    rfl

theorem shaped_not_seven (h : Seven gs) : ¬ Shaped gs := by
  have hnine := seven_length h
  rintro (⟨g, hs, k, hlen, -⟩ | ⟨g, hs, ks, k, hlen, -, -⟩)
  · rw [length_cons, length_append, hlen] at hnine
    cases hnine
  · rw [length_cons, length_append, length_cons, length_append, length_singleton] at hnine
    omega

theorem words_of_seven (h : Seven gs) : ∃ ws, Words6 (colons gs) ws := by
  obtain ⟨hs, hlen, hhs, he⟩ := h
  have hne : hs ≠ [] := by
    rintro rfl
    cases hlen
  have hpresent : present hs = hs := if_neg fun ho => by
    rw [ho] at hlen
    cases hlen
  rcases he with rfl | rfl
  · obtain ⟨ks, k, rfl⟩ := (eq_nil_or_concat' hs).resolve_left hne
    have htext := @colons_gap [] [] ks k
    rw [hpresent] at htext
    refine ⟨_, htext ▸ Words6.fewer [] (ks ++ [k]) ?_ (fun h hh => absurd hh not_mem_nil) hhs⟩
    rw [hlen]
    decide
  · obtain ⟨g, hs, rfl⟩ := exists_cons_of_ne_nil hne
    have htext := @colons_gap g hs [] []
    rw [hpresent] at htext
    refine ⟨_, htext ▸ Words6.fewer (g :: hs) [] ?_ hhs fun h hh => absurd hh not_mem_nil⟩
    rw [hlen]
    decide

theorem core_digits (h : (core t).isSome) : ∃ gs, gs ≠ [] ∧ t = colons gs ∧ ∀ g ∈ gs, HexDigits g := by
  have hgo : ∀ (t : Str) u, (str2ip6_loop u t).isSome → ∀ c ∈ t, c ≠ chr ':' → (HEX2I c).isSome := by
    intro t
    induction t with
    | nil => exact fun u _ c hc => absurd hc not_mem_nil
    | cons d t ih =>
      intro u hu c hc hne
      rw [str2ip6_loop] at hu
      have hrest : ∀ {u}, (str2ip6_loop u t).isSome → c ∈ t → (HEX2I c).isSome := fun hu hc => ih _ hu c hc hne
      by_cases hcolon : d = chr ':'
      · have hct : c ∈ t := (mem_cons.1 hc).resolve_left fun he => hne (he.trans hcolon)
        rw [if_pos hcolon] at hu
        split_ifs at hu
        · cases hu
        · cases hu
        · exact hrest hu hct
        · exact hrest hu hct
      · rw [if_neg hcolon] at hu
        cases hhex : HEX2I d with
        | none =>
          rw [hhex] at hu
          cases hu
        | some n =>
          rw [hhex] at hu
          rcases mem_cons.1 hc with rfl | hc
          · rw [hhex]
            rfl
          · exact hrest hu hc
  have hloop : (str2ip6_loop str2ip6_init t).isSome := by
    unfold core at h
    cases hl : str2ip6_loop str2ip6_init t with
    | none =>
      rw [hl] at h
      cases h
    | some u => rfl
  obtain ⟨gs, hne, hgs, rfl⟩ := exists_pieces (chr ':') t
  exact ⟨gs, hne, rfl, fun g hg c hc => hgo _ _ hloop c (mem_pieces hg hc) fun he => hgs g hg (he ▸ hc)⟩

theorem digits_no_colon (hg : HexDigits g) : chr ':' ∉ g := fun h => hex_ne_colon (hg _ h) rfl

theorem colons_unique (hgs : ∀ g ∈ gs, HexDigits g) (hhs : ∀ h ∈ hs, HexDigits h) (hne : gs ≠ []) (hne' : hs ≠ [])
    (h : colons gs = colons hs) : gs = hs :=
  pieces_unique (fun g hg => digits_no_colon (hgs g hg)) (fun h hh => digits_no_colon (hhs h hh)) hne hne' h

theorem no_bracket (hgs : ∀ g ∈ gs, HexDigits g) : chr '[' ∉ colons gs := by
  intro hm
  rcases of_mem_pieces hm with he | ⟨g, hg, hc⟩
  · exact absurd he (by decide)
  · exact absurd (hgs g hg _ hc) (by decide)

theorem bare_unique {t' : Str} (ht : chr '[' ∉ t) (ht' : chr '[' ∉ t') (h : Bare st t) (h' : Bare st t') : t = t' := by
  rcases h with rfl | rfl
  · rcases h' with h' | h'
    · exact h'
    · exact absurd (h' ▸ mem_cons_self) ht
  · rcases h' with h' | h'
    · exact absurd (h' ▸ mem_cons_self) ht'
    · exact (append_inj' (cons_eq_cons.1 h').2 rfl).1

theorem str2ip6_some : str2ip6 st = some a ↔ ∃ t, Bare st t ∧ core t = some a := by
  have hbracket : ∀ s, core (chr '[' :: s) = none := fun s => rfl
  cases st with
  | nil =>
    constructor
    · exact fun h => ⟨[], .inl rfl, h⟩
    · rintro ⟨t, ht | ht, h⟩
      · rw [← ht] at h
        exact h
      · cases ht
  | cons c s =>
    have hdef : str2ip6 (c :: s) = if c = chr '[' then
      if (c :: s).getLastD 0 = chr ']' then core s.dropLast else none
      else core (c :: s) := rfl
    rw [hdef]
    constructor
    · intro h
      split_ifs at h with hc hlast
      · refine ⟨s.dropLast, .inr ?_, h⟩
        obtain ⟨s', d, rfl⟩ := (eq_nil_or_concat' s).resolve_left (by
          rintro rfl
          rw [hc] at hlast
          exact absurd hlast (by decide))
        rw [← cons_append, getLastD_concat] at hlast
        rw [dropLast_concat, hc, hlast]
      · exact ⟨c :: s, .inl rfl, h⟩
    · rintro ⟨t, rfl | ht, h⟩
      · rw [if_neg, h]
        rintro rfl
        rw [hbracket] at h
        cases h
      · obtain ⟨rfl, rfl⟩ := cons_eq_cons.1 ht
        rw [if_pos rfl, ← cons_append, getLastD_concat, if_pos rfl, dropLast_concat, h]

/-- **When a text is an IPv6 address for `str2ip6`** exactly if it is one. -/
theorem str2ip6_exact (st : Str) : (∀ a, str2ip6 st = some a ↔ Spelled6 st a) ↔ Regular st := by
  constructor
  · rintro h t gs ht rfl hgs
    have hunique : ∀ {t' gs'}, Bare st t' → t' = colons gs' → (∀ g ∈ gs', HexDigits g) → gs ≠ [] → gs' ≠ [] → gs = gs' := by
      rintro t' gs' ht' rfl hgs' hne hne'
      exact colons_unique hgs hgs' hne hne' (bare_unique (no_bracket hgs) (no_bracket hgs') ht ht')
    constructor
    · intro hshape
      have hne : gs ≠ [] := by cases hshape <;> exact cons_ne_nil _ _
      obtain ⟨a, ha⟩ := isSome_iff_exists.1 (core_of_shaped hgs hshape)
      obtain ⟨t', ws, ht', hws, -⟩ := (h a).1 (str2ip6_some.2 ⟨_, ht, ha⟩)
      obtain ⟨gs', hne', he, hgs', hcase⟩ := tidy_of_words hws
      obtain rfl := hunique ht' he hgs' hne hne'
      rcases hcase with hseven | ⟨-, htidy, -⟩
      · exact absurd hshape (shaped_not_seven hseven)
      · exact htidy
    · intro hseven
      have hne : gs ≠ [] := by
        rintro rfl
        have hlen := seven_length hseven
        cases hlen
      obtain ⟨ws, hws⟩ := words_of_seven hseven
      obtain ⟨t', ht', hcore⟩ := str2ip6_some.1 ((h _).2 ⟨_, ws, ht, hws, rfl⟩)
      obtain ⟨gs', hne', he, hgs'⟩ := core_digits (isSome_iff_exists.2 ⟨_, hcore⟩)
      obtain rfl := hunique ht' he hgs' hne hne'
      rw [he] at hcore
      exact shaped_not_seven hseven (shaped_of_core hgs hne (isSome_iff_exists.2 ⟨_, hcore⟩))
  · intro h a
    rw [str2ip6_some]
    constructor
    · rintro ⟨t, ht, hcore⟩
      obtain ⟨gs, hne, rfl, hgs⟩ := core_digits (isSome_iff_exists.2 ⟨a, hcore⟩)
      have hshape := shaped_of_core hgs hne (isSome_iff_exists.2 ⟨a, hcore⟩)
      obtain ⟨ws, hws, hval⟩ := words_of_tidy hgs hshape ((h _ gs ht rfl hgs).1 hshape)
      exact ⟨_, ws, ht, hws, some_inj.1 (hcore.symm.trans hval)⟩
    · rintro ⟨t, ws, ht, hws, rfl⟩
      obtain ⟨gs, -, rfl, hgs, hseven | ⟨-, -, hval⟩⟩ := tidy_of_words hws
      · exact absurd hseven (h _ gs ht rfl hgs).2
      · exact ⟨_, ht, hval⟩

end Colons

/-- **When `str2ip` and `str2ip6` take a text for the address it is, and no other text.** -/
theorem texts_exact (st : Str) :
    ((∀ a, str2ip st = some a ↔ Dotted st a) ↔ Bounded st) ∧ ((∀ a, str2ip6 st = some a ↔ Spelled6 st a) ↔ Regular st) :=
  ⟨str2ip_exact st, str2ip6_exact st⟩

/-- 256.0.0.1 is taken for 0.0.0.1, 12345:: for 2345::, and 1:2:3:4:5:6:7: for an address; 1:2:3:4:5:6:7:: is not
taken. -/
theorem texts_wrapped : (¬ ∀ a, str2ip ("256.0.0.1".toList.map chr) = some a ↔ Dotted ("256.0.0.1".toList.map chr) a) ∧
    (¬ ∀ a, str2ip6 ("12345::".toList.map chr) = some a ↔ Spelled6 ("12345::".toList.map chr) a) ∧
    (¬ ∀ a, str2ip6 ("1:2:3:4:5:6:7:".toList.map chr) = some a ↔ Spelled6 ("1:2:3:4:5:6:7:".toList.map chr) a) ∧
    ¬ ∀ a, str2ip6 ("1:2:3:4:5:6:7::".toList.map chr) = some a ↔ Spelled6 ("1:2:3:4:5:6:7::".toList.map chr) a := by
  refine ⟨fun h => ?_, fun h => ?_, fun h => ?_, fun h => ?_⟩
  · let ds := [[chr '2', chr '5', chr '6'], [chr '0'], [chr '0'], [chr '1']]
    have hle := ((str2ip_exact _).1 h ds (by decide) rfl (by unfold Digits; decide +kernel)
      [chr '2', chr '5', chr '6'] mem_cons_self).2
    exact absurd hle (by decide)
  · have hreg := (str2ip6_exact _).1 h
    let gs := [[chr '1', chr '2', chr '3', chr '4', chr '5'], [], []]
    have hshape := (hreg _ gs (.inl rfl) (by decide) (by unfold HexDigits; decide +kernel)).1
      (Shaped.fewer _ [] [] _ (by decide) (by decide) (by decide))
    exact absurd (hshape.le [chr '1', chr '2', chr '3', chr '4', chr '5'] mem_cons_self) (by decide)
  · have hreg := (str2ip6_exact _).1 h
    let hs := [[chr '2'], [chr '3'], [chr '4'], [chr '5'], [chr '6'], [chr '7']]
    have hshape := (hreg _ ([chr '1'] :: (hs ++ [[]])) (.inl rfl) (by decide) (by unfold HexDigits; decide +kernel)).1
      (Shaped.eight _ hs _ rfl (by decide))
    obtain ⟨ks, hks⟩ := hshape.back ([chr '1'] :: hs) rfl
    exact absurd (@append_inj' _ ([chr '1'] :: hs.dropLast) [[chr '7']] ks [[]] hks rfl).2 (by decide)
  · have hreg := (str2ip6_exact _).1 h
    let hs := [[chr '1'], [chr '2'], [chr '3'], [chr '4'], [chr '5'], [chr '6'], [chr '7']]
    refine (hreg _ (hs ++ [[], []]) (.inl rfl) (by decide) (by unfold HexDigits; decide +kernel)).2 ⟨hs, rfl, fun h hh => ?_, .inr rfl⟩
    have hone : ∀ h ∈ hs, (∀ c ∈ h, (HEX2I c).isSome) ∧ h ≠ [] ∧ h.length ≤ 4 := by decide +kernel
    exact ⟨(hone h hh).1, (hone h hh).2.1, (hone h hh).2.2⟩

end OpenSips.Address
