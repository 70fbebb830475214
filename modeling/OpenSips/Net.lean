import OpenSips.Utils
import Mathlib.Data.List.FinRange

/-!
# OpenSips.Net — protocols, addresses and listeners (`core/net`)
-/

namespace OpenSips

open List

/-- `PROTO_NONE` and the protocols of `net/proto.h`. -/
inductive Proto where
  | PROTO_NONE | PROTO_UDP | PROTO_TCP | PROTO_TLS | PROTO_SCTP
  deriving DecidableEq

instance instNeZeroFour : NeZero (4 : ℕ) := ⟨by decide⟩

instance instNeZeroEight : NeZero (8 : ℕ) := ⟨by decide⟩

/-- `struct ip_addr`; the words of an IPv6 address in host order. -/
inductive IpAddr where
  | AF_INET (addr : Fin 4 → UInt8)
  | AF_INET6 (addr16 : Fin 8 → UInt16)

/-- A number of an IPv4 address. -/
def octet (x : UInt8) : Str :=
  let n := x.toNat
  if n / 100 ≠ 0 then [digit (n / 100), digit (n % 100 / 10), digit n]
  else if n % 100 / 10 ≠ 0 then [digit (n % 100 / 10), digit n]
  else [digit n]

def HEXDIG (x : ℕ) : UInt8 :=
  if 10 ≤ x then UInt8.ofNat (x - 10 + (chr 'A').toNat) else UInt8.ofNat (x + (chr '0').toNat)

/-- A word of an IPv6 address. -/
def hex4 (x : UInt16) : Str :=
  let n := x.toNat
  let a := n / 4096
  let b := n / 256 % 16
  let c := n / 16 % 16
  let d := n % 16
  if a ≠ 0 then [HEXDIG a, HEXDIG b, HEXDIG c, HEXDIG d]
  else if b ≠ 0 then [HEXDIG b, HEXDIG c, HEXDIG d]
  else if c ≠ 0 then [HEXDIG c, HEXDIG d]
  else [HEXDIG d]

/-- `ip_addr2a` -/
def ip_addr2a : IpAddr → Str
  | .AF_INET addr =>
    ((List.finRange 3).map fun r => octet (addr r.castSucc) ++ [chr '.']).flatten ++ octet (addr 3)
  | .AF_INET6 addr16 =>
    ((List.finRange 7).map fun r => hex4 (addr16 r.castSucc) ++ [chr ':']).flatten ++ hex4 (addr16 7)

/-- Whether `str2ip` takes a text for an IPv4 address: three dots, and digits. -/
def str2ip_loop : ℕ → Str → Bool
  | i, [] => 3 ≤ i
  | i, c :: s =>
    if c = chr '.' then if 3 < i + 1 then false else str2ip_loop (i + 1) s
    else if chr '0' ≤ c ∧ c ≤ chr '9' then str2ip_loop i s
    else false

def str2ip (st : Str) : Bool := str2ip_loop 0 st

def HEX2I (c : UInt8) : Option ℕ :=
  if chr '0' ≤ c ∧ c ≤ chr '9' then some (c - chr '0').toNat
  else if chr 'A' ≤ c ∧ c ≤ chr 'F' then some ((c - chr 'A').toNat + 10)
  else if chr 'a' ≤ c ∧ c ≤ chr 'f' then some ((c - chr 'a').toNat + 10)
  else none

/-- The loop of `str2ip6`: the colons so far, whether the last character was one, and whether there was
a double colon. -/
def str2ip6_loop : ℕ → Bool → Bool → Str → Bool
  | no_colons, _, addr_end, [] => addr_end ∨ 7 ≤ no_colons
  | no_colons, double_colon, addr_end, c :: s =>
    if c = chr ':' then
      if 7 < no_colons + 1 then false
      else if double_colon then if addr_end then false else str2ip6_loop (no_colons + 1) true true s
      else str2ip6_loop (no_colons + 1) true addr_end s
    else if (HEX2I c).isSome then str2ip6_loop no_colons false addr_end s
    else false

/-- Whether `str2ip6` takes a text for an IPv6 address, which may stand in brackets. -/
def str2ip6 (st : Str) : Bool :=
  match st with
  | [] => str2ip6_loop 0 false false []
  | c :: s =>
    if c = chr '[' then
      if st.getLastD 0 = chr ']' then str2ip6_loop 0 false false s.dropLast else false
    else str2ip6_loop 0 false false st

/-- What the builders read of `struct socket_info`. -/
structure SocketInfo where
  proto : Proto
  address : IpAddr
  port : UInt16
  address_str : Str
  port_str : Str

/-- What `fix_all_listeners` sets for a listener with a resolved address. -/
def fix_listener (proto : Proto) (address : IpAddr) (port : UInt16) : SocketInfo where
  proto := proto
  address := address
  port := port
  address_str :=
    match address with
    | .AF_INET6 _ => chr '[' :: ip_addr2a address ++ [chr ']']
    | .AF_INET _ => ip_addr2a address
  port_str := int2str port.toNat

section Text

theorem octet_digits (x : UInt8) : ∃ n ns, octet x = digit n :: List.map digit ns := by
  unfold octet
  dsimp only
  split_ifs
  · exact ⟨_, [_, _], rfl⟩
  · exact ⟨_, [_], rfl⟩
  · exact ⟨_, [], rfl⟩

theorem hex4_digits (x : UInt16) :
    ∃ n ns, hex4 x = HEXDIG n :: List.map HEXDIG ns ∧ ∀ m ∈ n :: ns, m < 16 := by
  have hx := x.toNat_lt
  unfold hex4
  dsimp only
  split_ifs
  · refine ⟨_, [_, _, _], rfl, fun m hm => ?_⟩
    simp only [mem_cons, not_mem_nil, or_false] at hm
    omega
  · refine ⟨_, [_, _], rfl, fun m hm => ?_⟩
    simp only [mem_cons, not_mem_nil, or_false] at hm
    omega
  · refine ⟨_, [_], rfl, fun m hm => ?_⟩
    simp only [mem_cons, not_mem_nil, or_false] at hm
    omega
  · refine ⟨_, [], rfl, fun m hm => ?_⟩
    simp only [mem_cons, not_mem_nil, or_false] at hm
    omega

theorem flatten_cons {α : Type} {P : UInt8 → Prop} {f : α → Str} {sep : UInt8}
    (hf : ∀ r, ∃ c cs, f r = c :: cs ∧ ∀ d ∈ c :: cs, P d) (rs : List α) (r : α) :
    ∃ c cs, (rs.map fun r => f r ++ [sep]).flatten ++ f r = c :: cs ∧ P c ∧ ∀ d ∈ cs, P d ∨ d = sep := by
  induction rs with
  | nil =>
    obtain ⟨c, cs, h, hP⟩ := hf r
    exact ⟨c, cs, h, hP c mem_cons_self, fun d hd => .inl (hP d (mem_cons_of_mem _ hd))⟩
  | cons r' rs ih =>
    obtain ⟨c, cs, h, hc, hcs⟩ := ih
    obtain ⟨c', cs', h', hP'⟩ := hf r'
    refine ⟨c', cs' ++ sep :: c :: cs, ?_, hP' c' mem_cons_self, fun d hd => ?_⟩
    · rw [map_cons, List.flatten_cons, append_assoc, h, h']
      simp
    · rcases mem_append.1 hd with hd | hd
      · exact .inl (hP' d (mem_cons_of_mem _ hd))
      · rcases mem_cons.1 hd with rfl | hd
        · exact .inr rfl
        · rcases mem_cons.1 hd with rfl | hd
          · exact .inl hc
          · exact hcs d hd

theorem ip_addr2a_inet (addr : Fin 4 → UInt8) : ∃ c cs, ip_addr2a (.AF_INET addr) = c :: cs ∧
    (∃ n, c = digit n) ∧ ∀ d ∈ cs, (∃ n, d = digit n) ∨ d = chr '.' := by
  have hf : ∀ r, ∃ c cs, octet (addr r) = c :: cs ∧ ∀ d ∈ c :: cs, ∃ n, d = digit n := by
    intro r
    obtain ⟨n, ns, h⟩ := octet_digits (addr r)
    refine ⟨_, _, h, fun d hd => ?_⟩
    rcases mem_cons.1 hd with rfl | hd
    · exact ⟨n, rfl⟩
    · obtain ⟨m, -, rfl⟩ := List.mem_map.1 hd
      exact ⟨m, rfl⟩
  obtain ⟨c, cs, h, hc, hcs⟩ := flatten_cons hf ((List.finRange 3).map Fin.castSucc) 3
  refine ⟨c, cs, ?_, hc, hcs⟩
  rw [← h, ip_addr2a, List.map_map]
  rfl

theorem ip_addr2a_inet6 (addr16 : Fin 8 → UInt16) : ∃ c cs,
    ip_addr2a (.AF_INET6 addr16) = c :: cs ∧ (∃ n < 16, c = HEXDIG n) ∧
      ∀ d ∈ cs, (∃ n < 16, d = HEXDIG n) ∨ d = chr ':' := by
  have hf : ∀ r, ∃ c cs, hex4 (addr16 r) = c :: cs ∧ ∀ d ∈ c :: cs, ∃ n < 16, d = HEXDIG n := by
    intro r
    obtain ⟨n, ns, h, hlt⟩ := hex4_digits (addr16 r)
    refine ⟨_, _, h, fun d hd => ?_⟩
    rcases mem_cons.1 hd with rfl | hd
    · exact ⟨n, hlt n mem_cons_self, rfl⟩
    · obtain ⟨m, hm, rfl⟩ := List.mem_map.1 hd
      exact ⟨m, hlt m (mem_cons_of_mem _ hm), rfl⟩
  obtain ⟨c, cs, h, hc, hcs⟩ := flatten_cons hf ((List.finRange 7).map Fin.castSucc) 7
  refine ⟨c, cs, ?_, hc, hcs⟩
  rw [← h, ip_addr2a, List.map_map]
  rfl

end Text

end OpenSips
