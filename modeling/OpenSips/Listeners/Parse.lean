import OpenSips.Resolve.Records
import OpenSips.Parser.Numbers
import OpenSips.Lib.Words

/-!
# OpenSips.Listeners.Parse — the text of a listener (`net/socket.c`)

`parse_listener` returns what it finds through four pointers, so they point into a memory of bytes here; the
text is not in it.  A number has its lowest byte first.
-/

namespace OpenSips.Listeners

open Lib Numbers Resolve List Option

def proto2str : Proto → Option Str
  | .PROTO_UDP => some (['u', 'd', 'p'].map chr)
  | .PROTO_TCP => some (['t', 'c', 'p'].map chr)
  | .PROTO_TLS => some (['t', 'l', 's'].map chr)
  | .PROTO_SCTP => some (['s', 'c', 't', 'p'].map chr)
  | .PROTO_NONE => none

def proto_value : Proto → ℕ
  | .PROTO_NONE => 0
  | .PROTO_UDP => 1
  | .PROTO_TCP => 2
  | .PROTO_TLS => 3
  | .PROTO_SCTP => 4

def PROTO2UINT (a b c : UInt8) : ℕ := (a.toNat <<< 16 + b.toNat <<< 8 + c.toNat) ||| 0x20202020

/-- `parse_proto`; on `none` it stored `PROTO_NONE`.  The cases of its switch are by length here. -/
def parse_proto (cfg : Config) : Str → Option Proto
  | [a, b, c] =>
    if PROTO2UINT a b c = PROTO2UINT (chr 'u') (chr 'd') (chr 'p') then some .PROTO_UDP
    else if cfg.USE_TCP ∧ PROTO2UINT a b c = PROTO2UINT (chr 't') (chr 'c') (chr 'p') then some .PROTO_TCP
    else if (cfg.USE_TCP ∧ cfg.USE_TLS) ∧ PROTO2UINT a b c = PROTO2UINT (chr 't') (chr 'l') (chr 's') then
      some .PROTO_TLS
    else none
  | [a, b, c, d] =>
    if cfg.USE_SCTP ∧ PROTO2UINT a b c = PROTO2UINT (chr 's') (chr 'c') (chr 't') ∧ (d = chr 'p' ∨ d = chr 'P') then
      some .PROTO_SCTP
    else none
  | _ => none

/-- The loop for the first two colons that are not in brackets, at `p`. -/
def colons_loop : ℕ → ℕ → Option ℕ → Option ℕ → Str → Option (Option ℕ × Option ℕ)
  | _, _, first, second, [] => some (first, second)
  | p, bracket, first, second, c :: s =>
    if c = chr '[' then
      if 1 < bracket + 1 then none else colons_loop (p + 1) (bracket + 1) first second s
    else if c = chr ']' then
      if bracket = 0 then none else colons_loop (p + 1) (bracket - 1) first second s
    else if c = chr ':' ∧ bracket = 0 then
      match first, second with
      | none, second => colons_loop (p + 1) bracket (some p) second s
      | some first, none => colons_loop (p + 1) bracket (some first) (some p) s
      | some _, some _ => none
    else colons_loop (p + 1) bracket first second s

abbrev Mem := ℕ → UInt8

/-- The loop of `str2int` where `n` points into the memory. -/
def str2int_loop (n : ℕ) : Mem → Str → Mem × Bool
  | m, [] => (m, true)
  | m, c :: s => if is_num c then str2int_loop n (store m n 4 (load m n 4 * 10 + num c)) s else (m, false)

def str2int_at (n : ℕ) (m : Mem) (s : Str) : Mem × Bool := str2int_loop n (store m n 4 0) s

/-- Where the results go: a `char *`, an `int` and two `unsigned short`. -/
structure Results where
  host : ℕ
  hlen : ℕ
  port : ℕ
  proto : ℕ

/-- `parse_listener` of the text at `s`. -/
def parse_listener (cfg : Config) (s : ℕ) (text : Str) (r : Results) (m : Mem) : Mem × ℤ :=
  match colons_loop 0 0 none none text with
  | none => (m, -1)
  | some (first, second) =>
    if text = [] ∨ text.getLast? = some (chr ':') then (m, -1)
    else
      match first, second with
      | none, _ => (store (store (store (store m r.host 8 s) r.hlen 4 text.length) r.port 2 0) r.proto 2 0, 0)
      | some first, some second =>
        match parse_proto cfg (text.take first) with
        | none => (store m r.proto 2 0, -1)
        | some proto =>
          let m := store m r.proto 2 (proto_value proto)
          match str2int (text.drop (second + 1)) with
          | none => (m, -1)
          | some tmp_port =>
            (store (store (store m r.port 2 tmp_port) r.host 8 (s + (first + 1))) r.hlen 4 (second - (first + 1)), 0)
      | some first, none =>
        match str2int_at r.port m (text.drop (first + 1)) with
        | (m, false) =>
          match parse_proto cfg (text.take first) with
          | none => (store m r.proto 2 0, -1)
          | some proto =>
            (store (store (store (store m r.proto 2 (proto_value proto)) r.port 2 0) r.host 8 (s + (first + 1)))
              r.hlen 4 (text.length - (first + 1)), 0)
        | (m, true) => (store (store (store m r.proto 2 0) r.host 8 s) r.hlen 4 first, 0)

section Promise

def Named (cfg : Config) (s : Str) (p : Proto) : Prop :=
  proto2str p = some (s.map tolower) ∧ (p = .PROTO_TCP → cfg.USE_TCP) ∧
    (p = .PROTO_TLS → cfg.USE_TCP ∧ cfg.USE_TLS) ∧ (p = .PROTO_SCTP → cfg.USE_SCTP)

def Plain (s : Str) : Prop := ∀ c ∈ s, c ≠ chr ':' ∧ c ≠ chr '[' ∧ c ≠ chr ']'

/-- A name, an IPv4 address, or anything in brackets. -/
def Host (h : Str) : Prop :=
  h ≠ [] ∧ Plain h ∨ ∃ g : Str, h = chr '[' :: (g ++ [chr ']']) ∧ chr '[' ∉ g ∧ chr ']' ∉ g

/-- The texts of listeners.  A number behind the only colon is a port, not the name of a host. -/
inductive Listener (cfg : Config) : Str → Proto → Str → ℕ → Prop
  | host (h) : Host h → Listener cfg h .PROTO_NONE h 0
  | host_port (h n) : Host h → 0 < n → n < 2 ^ 16 → Listener cfg (h ++ chr ':' :: int2str n) .PROTO_NONE h n
  | proto_host (s p h) : Named cfg s p → Host h → ¬ Digits h → Listener cfg (s ++ chr ':' :: h) p h 0
  | all (s p h n) : Named cfg s p → Host h → 0 < n → n < 2 ^ 16 →
      Listener cfg (s ++ chr ':' :: (h ++ chr ':' :: int2str n)) p h n

def Front (cfg : Config) (f : Str) : Prop := Host f ∨ ∃ s p h, f = s ++ chr ':' :: h ∧ Named cfg s p ∧ Host h

def Results.Has (r : Results) (a : ℕ) : Prop :=
  r.host ≤ a ∧ a < r.host + 8 ∨ r.hlen ≤ a ∧ a < r.hlen + 4 ∨ r.port ≤ a ∧ a < r.port + 2 ∨
    r.proto ≤ a ∧ a < r.proto + 2

structure Results.Apart (r : Results) : Prop where
  host_hlen : r.host + 8 ≤ r.hlen ∨ r.hlen + 4 ≤ r.host
  host_port : r.host + 8 ≤ r.port ∨ r.port + 2 ≤ r.host
  host_proto : r.host + 8 ≤ r.proto ∨ r.proto + 2 ≤ r.host
  hlen_port : r.hlen + 4 ≤ r.port ∨ r.port + 2 ≤ r.hlen
  hlen_proto : r.hlen + 4 ≤ r.proto ∨ r.proto + 2 ≤ r.hlen
  port_proto : r.port + 2 ≤ r.proto ∨ r.proto + 2 ≤ r.port

def Returned (s : ℕ) (text : Str) (r : Results) (m : Mem) (p : Proto) (h : Str) (n : ℕ) : Prop :=
  (∃ off, load m r.host 8 = s + off ∧ (text.drop off).take h.length = h) ∧ load m r.hlen 4 = h.length ∧
    load m r.port 2 = n ∧ load m r.proto 2 = proto_value p

/-- A listener is returned, a port that is no number or too large is rejected, and nothing else is written. -/
def Promised (cfg : Config) (s : ℕ) (text : Str) (r : Results) : Prop :=
  ∀ m, (∀ p h n, Listener cfg text p h n →
      (parse_listener cfg s text r m).2 = 0 ∧ Returned s text r (parse_listener cfg s text r m).1 p h n) ∧
    (∀ f x, text = f ++ chr ':' :: x → Front cfg f → Plain x → ¬ (x ≠ [] ∧ Digits x ∧ decimal x < 2 ^ 16) →
      (¬ ∃ p h n, Listener cfg text p h n) → (parse_listener cfg s text r m).2 = -1) ∧
    ∀ a, ¬ r.Has a → (parse_listener cfg s text r m).1 a = m a

def OneColon (text : Str) : Prop :=
  (∃ first, colons_loop 0 0 none none text = some (some first, none)) ∧ text.getLast? ≠ some (chr ':')

/-- With one colon the two bytes behind the port belong to other results; and no port has a number that is too
large. -/
def Harmless (cfg : Config) (text : Str) (r : Results) : Prop :=
  (OneColon text → r.Has (r.port + 2) ∧ r.Has (r.port + 3)) ∧
    ∀ f x, text = f ++ chr ':' :: x → Front cfg f → Digits x → decimal x < 2 ^ 16

end Promise

section Scanning

variable {cfg : Config} {s h x t text : Str} {p : Proto} {pos : ℕ} {first second : Option ℕ}

theorem or_byte {r : ℕ} (q k : ℕ) (hr : r < 256) :
    (q * 256 + r) ||| (k * 256 + 32) = (q ||| k) * 256 + (r ||| 32) := by
  have hmod : ((q * 256 + r) ||| (k * 256 + 32)) % 256 = r ||| 32 := by
    show _ % 2 ^ 8 = _
    rw [Nat.or_mod_two_pow, show (q * 256 + r) % 2 ^ 8 = r by omega, show (k * 256 + 32) % 2 ^ 8 = 32 by omega]
  have hdiv : ((q * 256 + r) ||| (k * 256 + 32)) / 256 = q ||| k := by
    show _ / 2 ^ 8 = _
    rw [Nat.or_div_two_pow, show (q * 256 + r) / 2 ^ 8 = q by omega, show (k * 256 + 32) / 2 ^ 8 = k by omega]
  rw [← Nat.div_add_mod' (_ ||| _) 256, hmod, hdiv]

theorem PROTO2UINT_eq {a b c x y z : UInt8} : PROTO2UINT a b c = PROTO2UINT x y z ↔
    a.toNat ||| 32 = x.toNat ||| 32 ∧ b.toNat ||| 32 = y.toNat ||| 32 ∧ c.toNat ||| 32 = z.toNat ||| 32 := by
  have hval : ∀ a b c : UInt8, PROTO2UINT a b c =
      ((8192 + (a.toNat ||| 32)) * 256 + (b.toNat ||| 32)) * 256 + (c.toNat ||| 32) := by
    intro a b c
    have hb := or_byte a.toNat 8224 b.toNat_lt
    have hc := or_byte (a.toNat * 256 + b.toNat) 2105376 c.toNat_lt
    have ha := or_byte 0 32 a.toNat_lt
    have hsum : a.toNat <<< 16 + b.toNat <<< 8 + c.toNat = (a.toNat * 256 + b.toNat) * 256 + c.toNat := by
      rw [Nat.shiftLeft_eq, Nat.shiftLeft_eq]
      omega
    rw [zero_mul, zero_add] at ha
    rw [PROTO2UINT, hsum]
    refine hc.trans ?_
    rw [show 2105376 = 8224 * 256 + 32 from rfl, hb, show 8224 = 32 * 256 + 32 from rfl, ha]
    rfl
  have hlt : ∀ a : UInt8, a.toNat ||| 32 < 256 := fun a => Nat.or_lt_two_pow (n := 8) a.toNat_lt (by decide)
  have h1 := hlt b
  have h2 := hlt c
  have h3 := hlt y
  have h4 := hlt z
  rw [hval, hval]
  omega

theorem letter_eq (c : UInt8) : ∀ l ∈ ['u', 'd', 'p', 't', 'c', 'l', 's'].map chr,
    c.toNat ||| 32 = l.toNat ||| 32 ↔ tolower c = l := by
  have hall : ∀ n < 256, ∀ l ∈ ['u', 'd', 'p', 't', 'c', 'l', 's'].map chr,
      n ||| 32 = l.toNat ||| 32 ↔ tolower (UInt8.ofNat n) = l := by decide +kernel
  have hc := hall c.toNat c.toNat_lt
  rwa [UInt8.ofNat_toNat] at hc

theorem tolower_p (c : UInt8) : c = chr 'p' ∨ c = chr 'P' ↔ tolower c = chr 'p' := by
  have hall : ∀ n < 256, UInt8.ofNat n = chr 'p' ∨ UInt8.ofNat n = chr 'P' ↔ tolower (UInt8.ofNat n) = chr 'p' := by
    decide +kernel
  have hc := hall c.toNat c.toNat_lt
  rwa [UInt8.ofNat_toNat] at hc

theorem parse_proto_iff : parse_proto cfg s = some p ↔ Named cfg s p := by
  have hl : ∀ {a b c} (x y z : Char), chr x ∈ ['u', 'd', 'p', 't', 'c', 'l', 's'].map chr →
      chr y ∈ ['u', 'd', 'p', 't', 'c', 'l', 's'].map chr → chr z ∈ ['u', 'd', 'p', 't', 'c', 'l', 's'].map chr →
      (PROTO2UINT a b c = PROTO2UINT (chr x) (chr y) (chr z) ↔ [a, b, c].map tolower = [x, y, z].map chr) := by
    intro a b c x y z hx hy hz
    rw [PROTO2UINT_eq, letter_eq _ _ hx, letter_eq _ _ hy, letter_eq _ _ hz]
    simp
  have hu := fun a b c => @hl a b c 'u' 'd' 'p' (by decide) (by decide) (by decide)
  have ht := fun a b c => @hl a b c 't' 'c' 'p' (by decide) (by decide) (by decide)
  have hs := fun a b c => @hl a b c 't' 'l' 's' (by decide) (by decide) (by decide)
  have hx := fun a b c => @hl a b c 's' 'c' 't' (by decide) (by decide) (by decide)
  constructor
  · intro h
    unfold parse_proto at h
    split at h
    · split_ifs at h with h1 h2 h3 <;> cases h
      · exact ⟨congrArg some ((hu ..).1 h1).symm, nofun, nofun, nofun⟩
      · exact ⟨congrArg some ((ht ..).1 h2.2).symm, fun _ => h2.1, nofun, nofun⟩
      · exact ⟨congrArg some ((hs ..).1 h3.2).symm, nofun, fun _ => h3.1, nofun⟩
    · rename_i a b c d
      split_ifs at h with h1
      cases h
      obtain ⟨hsctp, h1, h2⟩ := h1
      refine ⟨?_, nofun, nofun, fun _ => hsctp⟩
      have h3 := (hx ..).1 h1
      rw [show [a, b, c, d] = [a, b, c] ++ [d] from rfl, map_append, h3, map_singleton, (tolower_p d).1 h2]
      rfl
    · cases h
  · rintro ⟨hp, htcp, htls, hsctp⟩
    have hlen := fun (l : Str) (he : proto2str p = some l) => congrArg List.length (some.inj (hp.symm.trans he))
    cases p with
    | PROTO_NONE => cases hp
    | PROTO_SCTP =>
      have hfour := hlen _ rfl
      rw [length_map] at hfour
      match s, hfour with
      | [a, b, c, d], _ =>
        have hmap := some.inj hp
        simp only [map_cons, map_nil, cons.injEq] at hmap
        refine if_pos ⟨hsctp rfl, (hx ..).2 ?_, (tolower_p d).2 hmap.2.2.2.1.symm⟩
        rw [map_cons, map_cons, map_cons, ← hmap.1, ← hmap.2.1, ← hmap.2.2.1]
        rfl
    | PROTO_UDP | PROTO_TCP | PROTO_TLS =>
      have hthree := hlen _ rfl
      rw [length_map] at hthree
      match s, hthree with
      | [a, b, c], _ =>
        have hmap := (some.inj hp).symm
        simp only [parse_proto, hu, ht, hs, hmap]
        simp [*]
        try decide

theorem named_plain (h : Named cfg s p) : Plain s := by
  intro c hc
  have hname : ∀ {l : Str}, proto2str p = some l → ∀ d ∈ l, d ≠ tolower (chr ':') ∧ d ≠ tolower (chr '[') ∧
      d ≠ tolower (chr ']') := by
    intro l hl
    cases p <;> cases hl
    all_goals decide +kernel
  obtain ⟨h1, h2, h3⟩ := hname h.1 _ (List.mem_map_of_mem hc)
  exact ⟨fun he => h1 (congrArg tolower he), fun he => h2 (congrArg tolower he), fun he => h3 (congrArg tolower he)⟩

theorem digits_plain (h : Digits x) : Plain x := by
  intro c hc
  refine ⟨?_, ?_, ?_⟩
  all_goals
    rintro rfl
    exact absurd (h _ hc) (by decide)

theorem scan_other {c : UInt8} {bracket : ℕ} (h1 : c ≠ chr '[') (h2 : c ≠ chr ']') (h3 : ¬ (c = chr ':' ∧ bracket = 0)) :
    colons_loop pos bracket first second (c :: t) = colons_loop (pos + 1) bracket first second t := by
  rw [colons_loop.eq_def]
  exact (if_neg h1).trans ((if_neg h2).trans (if_neg h3))

theorem scan_plain {bracket : ℕ} (h : ∀ c ∈ x, c ≠ chr '[' ∧ c ≠ chr ']') (hcolon : bracket = 0 → chr ':' ∉ x) :
    colons_loop pos bracket first second (x ++ t) = colons_loop (pos + x.length) bracket first second t := by
  induction x generalizing pos with
  | nil => rfl
  | cons c x ih =>
    obtain ⟨h1, h2⟩ := h c mem_cons_self
    have h3 : ¬ (c = chr ':' ∧ bracket = 0) := fun ⟨he, hb⟩ => hcolon hb (he ▸ mem_cons_self)
    rw [cons_append, scan_other h1 h2 h3, ih (fun c hc => h c (mem_cons_of_mem _ hc))
      fun hb hc => hcolon hb (mem_cons_of_mem _ hc), length_cons, add_assoc, add_comm 1]

theorem scan_host (h : Host x) :
    colons_loop pos 0 first second (x ++ t) = colons_loop (pos + x.length) 0 first second t := by
  rcases h with ⟨-, h⟩ | ⟨g, rfl, h1, h2⟩
  · exact scan_plain (fun c hc => (h c hc).2) fun _ hc => (h _ hc).1 rfl
  · have hg : ∀ c ∈ g, c ≠ chr '[' ∧ c ≠ chr ']' := fun c hc => ⟨fun he => h1 (he ▸ hc), fun he => h2 (he ▸ hc)⟩
    have hopen : colons_loop pos 0 first second (chr '[' :: (g ++ chr ']' :: t)) =
        colons_loop (pos + 1) 1 first second (g ++ chr ']' :: t) := by
      rw [colons_loop.eq_def]
      rfl
    have hclose : colons_loop (pos + 1 + g.length) 1 first second (chr ']' :: t) =
        colons_loop (pos + 1 + g.length + 1) 0 first second t := by
      rw [colons_loop.eq_def]
      rfl
    rw [cons_append, append_assoc, singleton_append, hopen, scan_plain hg (fun hb => absurd hb (by decide)), hclose,
      length_cons, length_append, length_singleton]
    congr 1
    omega

theorem scan_colon : colons_loop pos 0 none second (chr ':' :: t) = colons_loop (pos + 1) 0 (some pos) second t := rfl

theorem scan_second {first : ℕ} : colons_loop pos 0 (some first) none (chr ':' :: t) =
    colons_loop (pos + 1) 0 (some first) (some pos) t := rfl

/-- One colon in front of `x`. -/
theorem scan_one (h : Host s) (hx : Plain x) :
    colons_loop 0 0 none none (s ++ chr ':' :: x) = some (some s.length, none) := by
  have hend := @scan_plain x [] (0 + s.length + 1) (some (0 + s.length)) none 0 (fun c hc => (hx c hc).2)
    fun _ hc => (hx _ hc).1 rfl
  rw [append_nil] at hend
  rw [scan_host h, scan_colon, hend, zero_add]
  rfl

theorem scan_proto (hs : Plain s) (h : Host x) : colons_loop 0 0 none none (s ++ chr ':' :: (x ++ t)) =
    colons_loop (s.length + 1 + x.length) 0 (some s.length) none t := by
  rw [scan_plain (fun c hc => (hs c hc).2) fun _ hc => (hs _ hc).1 rfl, zero_add, scan_colon, scan_host h]

theorem scan_two (hs : Plain s) (h : Host t) (hx : Plain x) :
    colons_loop 0 0 none none (s ++ chr ':' :: (t ++ chr ':' :: x)) =
      some (some s.length, some (s.length + 1 + t.length)) := by
  have hend := @scan_plain x [] (s.length + 1 + t.length + 1) (some s.length) (some (s.length + 1 + t.length)) 0
    (fun c hc => (hx c hc).2) fun _ hc => (hx _ hc).1 rfl
  rw [append_nil] at hend
  rw [scan_proto hs h, scan_second, hend]
  rfl

end Scanning

section Writing

variable {cfg : Config} {s a f : ℕ} {text t x : Str} {r : Results} {m : Mem}

theorem str2int_at_spec (n : ℕ) (x : Str) : ∃ v, (∀ m, str2int_at n m x = (store m n 4 v, x.all is_num)) ∧
    (Digits x → v % 2 ^ 32 = decimal x % 2 ^ 32) := by
  have hmod : ∀ (x : Str) (v w : ℕ), v % 2 ^ 32 = w % 2 ^ 32 → x.foldl (fun n c => n * 10 + num c) v % 2 ^ 32 =
      x.foldl (fun n c => n * 10 + num c) w % 2 ^ 32 := by
    intro x
    induction x with
    | nil => exact fun v w h => h
    | cons c x ih =>
      intro v w h
      exact ih (v * 10 + num c) (w * 10 + num c) (by omega)
  have hloop : ∀ (x : Str) (v : ℕ), ∃ v', (∀ m, str2int_loop n (store m n 4 v) x = (store m n 4 v', x.all is_num)) ∧
      (Digits x → v' % 2 ^ 32 = x.foldl (fun n c => n * 10 + num c) v % 2 ^ 32) := by
    intro x
    induction x with
    | nil => exact fun v => ⟨v, fun m => rfl, fun _ => rfl⟩
    | cons c x ih =>
      intro v
      by_cases hc : is_num c
      · obtain ⟨v', hv', hval⟩ := ih (v % 256 ^ 4 * 10 + num c)
        refine ⟨v', fun m => ?_, fun hd => ?_⟩
        · rw [str2int_loop, if_pos hc, load_store, store_store, hv', all_cons, hc, Bool.true_and]
        · rw [hval fun d hd' => hd d (mem_cons_of_mem _ hd'), foldl_cons]
          exact hmod _ _ _ (by omega)
      · refine ⟨v, fun m => ?_, fun hd => absurd (hd c mem_cons_self) hc⟩
        rw [str2int_loop, if_neg hc, all_cons, Bool.eq_false_iff.2 hc, Bool.false_and]
  exact hloop x 0

theorem parse_one (h : colons_loop 0 0 none none text = some (some f, none)) (hlast : text.getLast? ≠ some (chr ':')) :
    parse_listener cfg s text r m =
      if (str2int_at r.port m (text.drop (f + 1))).2 then
        (store (store (store (str2int_at r.port m (text.drop (f + 1))).1 r.proto 2 0) r.host 8 s) r.hlen 4 f, 0)
      else match parse_proto cfg (text.take f) with
        | none => (store (str2int_at r.port m (text.drop (f + 1))).1 r.proto 2 0, -1)
        | some proto =>
          (store (store (store (store (str2int_at r.port m (text.drop (f + 1))).1 r.proto 2 (proto_value proto))
            r.port 2 0) r.host 8 (s + (f + 1))) r.hlen 4 (text.length - (f + 1)), 0) := by
  have hne : ¬ (text = [] ∨ text.getLast? = some (chr ':')) := by
    rintro (rfl | he)
    · cases h
    · exact hlast he
  rw [parse_listener, h]
  refine (if_neg hne).trans ?_
  dsimp only
  rcases hstr : str2int_at r.port m (text.drop (f + 1)) with ⟨m', _ | _⟩ <;> rfl

theorem parse_two {k : ℕ} (h : colons_loop 0 0 none none text = some (some f, some k))
    (hlast : text.getLast? ≠ some (chr ':')) : parse_listener cfg s text r m =
      match parse_proto cfg (text.take f) with
      | none => (store m r.proto 2 0, -1)
      | some proto =>
        match str2int (text.drop (k + 1)) with
        | none => (store m r.proto 2 (proto_value proto), -1)
        | some tmp_port => (store (store (store (store m r.proto 2 (proto_value proto)) r.port 2 tmp_port)
            r.host 8 (s + (f + 1))) r.hlen 4 (k - (f + 1)), 0) := by
  have hne : ¬ (text = [] ∨ text.getLast? = some (chr ':')) := by
    rintro (rfl | he)
    · cases h
    · exact hlast he
  rw [parse_listener, h]
  exact if_neg hne

theorem Results.outside (h : ¬ r.Has a) (n : ℕ) (m : Mem) : store m r.host 8 n a = m a ∧ store m r.hlen 4 n a = m a ∧
    store m r.port 2 n a = m a ∧ store m r.proto 2 n a = m a := by
  unfold Results.Has at h
  refine ⟨store_outside ?_, store_outside ?_, store_outside ?_, store_outside ?_⟩ <;> omega

theorem parse_one_byte (h : colons_loop 0 0 none none text = some (some f, none))
    (hlast : text.getLast? ≠ some (chr ':')) : ∃ v, ∀ a, ¬ r.Has a → ∀ m,
      (parse_listener cfg s text r m).1 a = store m r.port 4 v a := by
  obtain ⟨v, hv, -⟩ := str2int_at_spec r.port (text.drop (f + 1))
  refine ⟨v, fun a hout m => ?_⟩
  have ho := r.outside hout
  rw [parse_one h hlast, hv]
  split_ifs
  · dsimp only
    rw [(ho _ _).2.1, (ho _ _).1, (ho _ _).2.2.2]
  · split
    · exact (ho _ _).2.2.2
    · dsimp only
      rw [(ho _ _).2.1, (ho _ _).1, (ho _ _).2.2.1, (ho _ _).2.2.2]

theorem parse_listener_outside (h : ¬ r.Has a) (hone : OneColon text → a < r.port ∨ r.port + 4 ≤ a) :
    (parse_listener cfg s text r m).1 a = m a := by
  have ho := r.outside h
  cases hscan : colons_loop 0 0 none none text with
  | none =>
    rw [parse_listener, hscan]
  | some x =>
    obtain ⟨_ | f, second⟩ := x
    · rw [parse_listener, hscan]
      split_ifs
      · rfl
      · dsimp only
        rw [(ho _ _).2.2.2, (ho _ _).2.2.1, (ho _ _).2.1, (ho _ _).1]
    · by_cases hlast : text.getLast? = some (chr ':')
      · rw [parse_listener, hscan]
        exact congrArg (fun o : Mem × ℤ => o.1 a) (if_pos (.inr hlast))
      · cases second with
        | none =>
          obtain ⟨v, hv⟩ := @parse_one_byte cfg s f text r hscan hlast
          rw [hv a h m]
          exact store_outside (hone ⟨⟨f, hscan⟩, hlast⟩)
        | some k =>
          rw [parse_two hscan hlast]
          split
          · exact (ho _ _).2.2.2
          · split
            · exact (ho _ _).2.2.2
            · dsimp only
              rw [(ho _ _).2.1, (ho _ _).1, (ho _ _).2.2.1, (ho _ _).2.2.2]

theorem plain_last {y : Str} (hx : Plain x) (hne : x ≠ []) : (y ++ chr ':' :: x).getLast? ≠ some (chr ':') := by
  rw [getLast?_append, getLast?_cons, getLast?_eq_some_getLast hne]
  intro he
  exact (hx _ (some.inj he ▸ getLast_mem hne)).1 rfl

theorem behind_last {y y' x' : Str} (hx : Plain x) (hx' : Plain x') (h : y ++ chr ':' :: x = y' ++ chr ':' :: x') :
    x = x' := by
  have hrun : ∀ {y x : Str}, Plain x → ((y ++ chr ':' :: x).reverse.takeWhile (· ≠ chr ':')).reverse = x := by
    intro y x hx
    rw [reverse_append, reverse_cons, append_assoc, takeWhile_append_of_pos fun c hc => by
      simpa using (hx c (mem_reverse.1 hc)).1]
    simp
  rw [← hrun hx, h, hrun hx']

theorem str2int_all (x : Str) : str2int x = if x.all is_num then some (decimal x % 2 ^ 32) else none := by
  by_cases hx : x.all is_num
  · rw [if_pos hx, str2int_digits (List.all_eq_true.1 hx)]
  · have hloop : ∀ (x : Str) n, ¬ x.all is_num → Numbers.str2int_loop n x = none := by
      intro x
      induction x with
      | nil => exact fun n h => absurd rfl h
      | cons c x ih =>
        intro n h
        rw [Numbers.str2int_loop]
        split_ifs with hc
        · exact ih _ fun hx => h (by rw [all_cons, hc, hx]; rfl)
        · rfl
    rw [if_neg hx]
    exact hloop x 0 hx

variable {h : Str} {p : Proto} {n : ℕ}

theorem drop_colon (f x : Str) : (f ++ chr ':' :: x).drop (f.length + 1) = x := by
  rw [← singleton_append, ← append_assoc]
  exact drop_left' (by rw [length_append]; rfl)

theorem parse_host (hscan : colons_loop 0 0 none none (h ++ chr ':' :: x) = some (some h.length, none))
    (hlast : (h ++ chr ':' :: x).getLast? ≠ some (chr ':')) : parse_listener cfg s (h ++ chr ':' :: x) r m =
    if x.all is_num then
      (store (store (store (str2int_at r.port m x).1 r.proto 2 0) r.host 8 s) r.hlen 4 h.length, 0)
    else match parse_proto cfg h with
      | none => (store (str2int_at r.port m x).1 r.proto 2 0, -1)
      | some proto => (store (store (store (store (str2int_at r.port m x).1 r.proto 2 (proto_value proto))
          r.port 2 0) r.host 8 (s + (h.length + 1))) r.hlen 4 x.length, 0) := by
  have hlen : (h ++ chr ':' :: x).length - (h.length + 1) = x.length := by
    rw [length_append, length_cons]
    omega
  obtain ⟨v, hv, -⟩ := str2int_at_spec r.port x
  rw [parse_one hscan hlast, drop_colon, take_left' rfl, hlen, hv]

/-- The result for `proto:host:port`. -/
theorem parse_all (hp : Named cfg t p) (hf : Host h) (hx : Plain x) (hne : x ≠ []) :
    parse_listener cfg s (t ++ chr ':' :: (h ++ chr ':' :: x)) r m = if x.all is_num then
        (store (store (store (store m r.proto 2 (proto_value p)) r.port 2 (decimal x % 2 ^ 32))
          r.host 8 (s + (t.length + 1))) r.hlen 4 h.length, 0)
      else (store m r.proto 2 (proto_value p), -1) := by
  have hassoc : t ++ chr ':' :: (h ++ chr ':' :: x) = (t ++ chr ':' :: h) ++ chr ':' :: x := by simp
  have hk : t.length + 1 + h.length = (t ++ chr ':' :: h).length := by
    rw [length_append, length_cons]
    omega
  have hlen : t.length + 1 + h.length - (t.length + 1) = h.length := Nat.add_sub_cancel_left ..
  have hdrop : (t ++ chr ':' :: (h ++ chr ':' :: x)).drop (t.length + 1 + h.length + 1) = x := by
    rw [hassoc, hk, drop_colon]
  rw [parse_two (scan_two (named_plain hp) hf hx) (hassoc ▸ plain_last hx hne), take_left' rfl,
    parse_proto_iff.2 hp, hdrop, str2int_all, hlen]
  split_ifs <;> rfl

theorem proto_value_lt (p : Proto) : proto_value p % 256 ^ 2 = proto_value p := by cases p <;> rfl

theorem host_ne (hh : Host h) : h ≠ [] := by
  rcases hh with ⟨hh, -⟩ | ⟨g, rfl, -⟩
  · exact hh
  · exact cons_ne_nil _ _

theorem host_last (hh : Host h) : h.getLast? ≠ some (chr ':') := by
  intro he
  rcases hh with ⟨-, hp⟩ | ⟨g, rfl, -⟩
  · exact (hp _ (mem_of_getLast? he)).1 rfl
  · rw [← cons_append, getLast?_concat] at he
    exact absurd (some.inj he) (by decide)

/-- **A listener is returned.** -/
theorem parse_listener_returns (ha : r.Apart) (hlen : text.length < 2 ^ 31) (hs : s + text.length < 2 ^ 64)
    (hl : Listener cfg text p h n) :
    (parse_listener cfg s text r m).2 = 0 ∧ Returned s text r (parse_listener cfg s text r m).1 p h n := by
  obtain ⟨h1, h2, h3, h4, h5, h6⟩ := ha
  have hport : ∀ {n : ℕ}, n < 2 ^ 16 → Digits (int2str n) ∧ decimal (int2str n) = n ∧ int2str n ≠ [] := fun hn =>
    decimal_int2str (lt_of_lt_of_le hn (by decide))
  cases hl with
  | host _ hh =>
    have hscan := @scan_host text [] 0 none none hh
    have hgood : ¬ (text = [] ∨ text.getLast? = some (chr ':')) := fun he => he.elim (host_ne hh) (host_last hh)
    rw [append_nil] at hscan
    have hparse : parse_listener cfg s text r m =
        (store (store (store (store m r.host 8 s) r.hlen 4 text.length) r.port 2 0) r.proto 2 0, 0) := by
      rw [parse_listener, hscan]
      exact if_neg hgood
    rw [hparse]
    refine ⟨rfl, ⟨0, ?_, take_length⟩, ?_, ?_, ?_⟩
    all_goals simp (disch := omega) only [load_store_of_disjoint, load_store, Nat.zero_mod]
    · exact Nat.mod_eq_of_lt (by omega)
    · exact Nat.mod_eq_of_lt (by omega)
    · rfl
  | host_port h n hh hn hn' =>
    obtain ⟨hd, hdec, hx⟩ := hport hn'
    obtain ⟨v, hv, hval⟩ := str2int_at_spec r.port (int2str n)
    rw [length_append] at hlen hs
    rw [parse_host (scan_one hh (digits_plain hd)) (plain_last (digits_plain hd) hx), if_pos (List.all_eq_true.2 hd), hv]
    refine ⟨rfl, ⟨0, ?_, take_left' rfl⟩, ?_, ?_, ?_⟩
    all_goals simp (disch := omega) only [load_store_of_disjoint, load_store, load_store_low, Nat.zero_mod]
    · rw [Nat.mod_eq_of_lt (by omega)]
      rfl
    · exact Nat.mod_eq_of_lt (by omega)
    · have hv' := hval hd
      rw [hdec] at hv'
      omega
    · rfl
  | proto_host t p h ht hh hd =>
    have hscan := @scan_proto t h [] (named_plain ht) hh
    have hlast : (t ++ chr ':' :: h).getLast? ≠ some (chr ':') := by
      rw [getLast?_append, getLast?_cons, getLast?_eq_some_getLast (host_ne hh)]
      exact fun he => host_last hh (by rw [getLast?_eq_some_getLast (host_ne hh)]; exact he)
    rw [append_nil] at hscan
    obtain ⟨v, hv, -⟩ := str2int_at_spec r.port h
    rw [length_append, length_cons] at hlen hs
    rw [parse_host hscan hlast, if_neg fun ha => hd (List.all_eq_true.1 ha), hv, parse_proto_iff.2 ht]
    refine ⟨rfl, ⟨t.length + 1, ?_, ?_⟩, ?_, ?_, ?_⟩
    · simp (disch := omega) only [load_store_of_disjoint, load_store]
      exact Nat.mod_eq_of_lt (by omega)
    · rw [drop_colon, take_length]
    all_goals simp (disch := omega) only [load_store_of_disjoint, load_store, Nat.zero_mod]
    · exact Nat.mod_eq_of_lt (by omega)
    · exact proto_value_lt p
  | all t p h n ht hh hn hn' =>
    obtain ⟨hd, hdec, hx⟩ := hport hn'
    rw [length_append, length_cons, length_append] at hlen hs
    rw [parse_all ht hh (digits_plain hd) hx, if_pos (List.all_eq_true.2 hd)]
    refine ⟨rfl, ⟨t.length + 1, ?_, ?_⟩, ?_, ?_, ?_⟩
    · simp (disch := omega) only [load_store_of_disjoint, load_store]
      exact Nat.mod_eq_of_lt (by omega)
    · rw [drop_colon, take_left' rfl]
    all_goals simp (disch := omega) only [load_store_of_disjoint, load_store]
    · exact Nat.mod_eq_of_lt (by omega)
    · rw [hdec]
      omega
    · exact proto_value_lt p

theorem front_scan {f : Str} (hf : Front cfg f) (hx : Plain x) : ∃ k second,
    colons_loop 0 0 none none (f ++ chr ':' :: x) = some (some k, second) ∧ (second = none → k = f.length) := by
  rcases hf with hf | ⟨t, p, h, rfl, ht, hh⟩
  · exact ⟨_, _, scan_one hf hx, fun _ => rfl⟩
  · have htwo := scan_two (named_plain ht) hh hx
    rw [append_assoc]
    exact ⟨_, _, htwo, nofun⟩

theorem no_listener {f : Str} (hf : Front cfg f) (hx : Digits x) (hl : Listener cfg (f ++ chr ':' :: x) p h n) :
    decimal x < 2 ^ 16 := by
  obtain ⟨k, second, hscan, hk⟩ := front_scan hf (digits_plain hx)
  have hport : ∀ {y : Str} {n : ℕ}, n < 2 ^ 16 → f ++ chr ':' :: x = y ++ chr ':' :: int2str n → decimal x < 2 ^ 16 := by
    intro y n hn he
    obtain ⟨hd, hdec, -⟩ := decimal_int2str (lt_of_lt_of_le hn (by decide))
    rwa [behind_last (digits_plain hx) (digits_plain hd) he, hdec]
  obtain ⟨t, htext⟩ : ∃ t, f ++ chr ':' :: x = t := ⟨_, rfl⟩
  rw [htext] at hl hscan
  cases hl with
  | host _ hh =>
    have hnone := @scan_host _ [] 0 none none hh
    rw [append_nil, hscan] at hnone
    cases hnone
  | host_port h n hh hn hn' => exact hport hn' htext
  | all t p h n ht hh hn hn' => exact @hport (t ++ chr ':' :: h) n hn' (htext.trans
      (append_assoc t (chr ':' :: h) (chr ':' :: int2str n)).symm)
  | proto_host t p h ht hh hd =>
    have hone := @scan_proto t h [] (named_plain ht) hh
    rw [append_nil, hscan] at hone
    obtain ⟨hk', hsecond⟩ := Prod.mk.inj (some.inj hone)
    have hlen : f.length = t.length := (hk hsecond).symm.trans (some.inj hk')
    exact absurd ((cons_eq_cons.1 (append_inj htext hlen).2).2 ▸ hx) hd

/-- **When a listener is read as promised**, with no byte written that is not a result. -/
theorem parse_listener_promised (cfg : Config) (s : ℕ) (text : Str) (r : Results) (ha : r.Apart)
    (hlen : text.length < 2 ^ 31) (hs : s + text.length < 2 ^ 64) :
    Promised cfg s text r ↔ Harmless cfg text r := by
  constructor
  · intro hp
    constructor
    · rintro ⟨⟨f, hscan⟩, hlast⟩
      obtain ⟨v, hv⟩ := @parse_one_byte cfg s f text r hscan hlast
      have hbyte : ∀ i, i < 4 → r.Has (r.port + i) := by
        intro i hi
        by_contra hout
        have hi' : i < (word 4 v).length := by rwa [length_word]
        have hsame := (hp fun _ => (word 4 v)[i] + 1).2.2 _ hout
        rw [hv _ hout, store, write_inside hi'] at hsame
        exact absurd hsame (by simp)
      exact ⟨hbyte 2 (by decide), hbyte 3 (by decide)⟩
    · rintro f x rfl hf hx
      by_contra hbig
      have hne : x ≠ [] := by
        rintro rfl
        exact hbig (by decide)
      have hall := List.all_eq_true.2 hx
      have hno : ¬ ∃ p h n, Listener cfg (f ++ chr ':' :: x) p h n := by
        rintro ⟨p, h, n, hl⟩
        exact hbig (no_listener hf hx hl)
      have hrej := (hp fun _ => 0).2.1 f x rfl hf (digits_plain hx) (fun h => hbig h.2.2) hno
      rcases hf with hf | ⟨t, p, h, rfl, ht, hh⟩
      · rw [parse_host (scan_one hf (digits_plain hx)) (plain_last (digits_plain hx) hne), if_pos hall] at hrej
        cases hrej
      · rw [append_assoc, cons_append, parse_all ht hh (digits_plain hx) hne, if_pos hall] at hrej
        cases hrej
  · rintro ⟨hone, hnum⟩ m
    refine ⟨fun p h n hl => parse_listener_returns ha hlen hs hl, ?_, fun a hout => ?_⟩
    · rintro f x rfl hf hx hbad hno
      by_cases hne : x = []
      · rw [hne, parse_listener]
        cases colons_loop 0 0 none none (f ++ [chr ':']) with
        | none => rfl
        | some o => exact congrArg (fun o : Mem × ℤ => o.2) (if_pos (.inr getLast?_concat))
      · have hdig : ¬ x.all is_num := fun ha =>
          hbad ⟨hne, List.all_eq_true.1 ha, hnum f x rfl hf (List.all_eq_true.1 ha)⟩
        rcases hf with hf | ⟨t, p, h, rfl, ht, hh⟩
        · rw [parse_host (scan_one hf hx) (plain_last hx hne), if_neg hdig]
          cases hproto : parse_proto cfg f with
          | none => rfl
          | some p =>
            exact absurd ⟨p, x, 0, Listener.proto_host f p x (parse_proto_iff.1 hproto) (.inl ⟨hne, hx⟩)
              fun hd => hdig (List.all_eq_true.2 hd)⟩ hno
        · rw [append_assoc, cons_append, parse_all ht hh hx hne, if_neg hdig]
    · refine parse_listener_outside hout fun h => ?_
      obtain ⟨h2, h3⟩ := hone h
      by_contra hin
      have hfour : a = r.port ∨ a = r.port + 1 ∨ a = r.port + 2 ∨ a = r.port + 3 := by omega
      rcases hfour with rfl | rfl | rfl | rfl
      · exact hout (.inr (.inr (.inl ⟨le_rfl, by omega⟩)))
      · exact hout (.inr (.inr (.inl ⟨Nat.le_succ _, by omega⟩)))
      · exact hout h2
      · exact hout h3

/-- A listener on port 5060 of all, with room for the results one behind the other. -/
theorem parse_listener_promised_all :
    let r : Results := ⟨0, 8, 12, 14⟩
    let text := "udp:127.0.0.1:5060".toList.map chr
    Promised ⟨true, false, false, false, false, false, false⟩ 100 text r ↔
      Harmless ⟨true, false, false, false, false, false, false⟩ text r :=
  parse_listener_promised _ 100 _ ⟨0, 8, 12, 14⟩ ⟨by decide, by decide, by decide, by decide, by decide, by decide⟩
    (by decide) (by decide)

/-- Where `hlen` is not behind `port`, what is behind it is cleared; and 70000 is taken for a port. -/
theorem parse_listener_clears : let r : Results := ⟨0, 8, 14, 12⟩
    let cfg : Config := ⟨true, false, false, false, false, false, false⟩
    ¬ Promised cfg 100 ("udp:localhost".toList.map chr) r ∧
      (parse_listener cfg 100 ("udp:localhost".toList.map chr) r fun _ => 1).1 16 = 0 ∧
      ¬ Promised cfg 100 ("udp:localhost:70000".toList.map chr) r := by
  intro r cfg
  have hclear : (parse_listener cfg 100 ("udp:localhost".toList.map chr) r fun _ => 1).1 16 = 0 := by decide +kernel
  refine ⟨fun hp => ?_, hclear, fun hp => ?_⟩
  · have hkept := (hp fun _ => 1).2.2 16 (by unfold Results.Has; decide)
    rw [hclear] at hkept
    exact absurd hkept (by decide)
  · let x := "70000".toList.map chr
    have hx : Digits x := by unfold Digits; decide +kernel
    have hf : Front cfg ("udp:localhost".toList.map chr) := .inr ⟨['u', 'd', 'p'].map chr, .PROTO_UDP,
      "localhost".toList.map chr, rfl, ⟨by decide, nofun, nofun, nofun⟩, .inl ⟨by decide, by unfold Plain; decide +kernel⟩⟩
    have hbig : ¬ decimal x < 2 ^ 16 := by decide
    have hrej := (hp fun _ => 1).2.1 _ x (by decide) hf (digits_plain hx) (fun h => hbig h.2.2)
      fun ⟨p, h, n, hl⟩ => hbig (no_listener hf hx hl)
    have hzero : (parse_listener cfg 100 ("udp:localhost:70000".toList.map chr) r fun _ => 1).2 = 0 := by decide +kernel
    rw [hzero] at hrej
    cases hrej

end Writing

end OpenSips.Listeners
