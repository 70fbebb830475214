import OpenSips.Listeners.Parse
import OpenSips.Lib.NextList
import Mathlib.Data.List.Range

/-!
# OpenSips.Listeners.Startup — the listeners at start-up (`net/socket.c`, `main.c`)

A listener is named by its number.  What the system and the protocol libraries do is in a `World`.
-/

namespace OpenSips.Listeners

open Lib Resolve List Option Function

/-- `struct socket_info` but for `next`; `su` is what `init_listener` binds the socket to. -/
structure SocketInfo where
  name : Str
  host : Str
  port : UInt16
  proto : Proto
  address : Option IpAddr
  address_str : Str
  port_str : Str
  sock_str : Str
  su : Option (Option IpAddr × UInt16)

/-- The listeners, with those that are registered and those of `protos[proto]`; `funcs` has the default port of a
protocol that is loaded. -/
structure State where
  si : Ref → SocketInfo
  next : Ref → Option Ref
  fresh : ℕ
  registered_listeners : Option Ref
  listeners : Proto → Option Ref
  funcs : Proto → Option UInt16

structure World where
  shm_malloc : Ref → Bool
  resolvehost : Ref → Str → Option IpAddr
  load_proto_lib : Proto → Option UInt16
  init_listener : Ref → Bool

def last_loop (next : Ref → Option Ref) : ℕ → Option Ref → Option Ref
  | 0, it => it
  | _ + 1, none => none
  | fuel + 1, some it => if (next it).isSome then last_loop next fuel (next it) else some it

def link_last (next : Ref → Option Ref) (fuel : ℕ) (list : Option Ref) (si : Ref) : Option Ref × (Ref → Option Ref) :=
  match last_loop next fuel list with
  | none => (some si, next)
  | some it => (list, Function.update next it (some si))

/-- The variables of `register_listener` that `parse_listener` writes to. -/
def locals : Results := ⟨0, 8, 12, 16⟩

def proto_of (n : ℕ) : Proto :=
  if n = 1 then .PROTO_UDP else if n = 2 then .PROTO_TCP else if n = 3 then .PROTO_TLS
  else if n = 4 then .PROTO_SCTP else .PROTO_NONE

/-- What `register_listener` makes of a text, which is at address 32. -/
def parsed (cfg : Config) (text : Str) : Option SocketInfo :=
  let o := parse_listener cfg 32 text locals fun _ => 0
  if text = [] ∨ o.2 ≠ 0 then none
  else some {
    name := text
    host := (text.drop (load o.1 locals.host 8 - 32)).take (load o.1 locals.hlen 4)
    port := UInt16.ofNat (load o.1 locals.port 2)
    proto := proto_of (load o.1 locals.proto 2)
    address := none
    address_str := []
    port_str := []
    sock_str := []
    su := none }

def register_listener (cfg : Config) (s : State) (text : Str) : State :=
  match parsed cfg text with
  | none => s
  | some si =>
    let (list, next) := link_last (Function.update s.next s.fresh none) s.fresh s.registered_listeners s.fresh
    { s with
      si := Function.update s.si s.fresh si
      next := next
      fresh := s.fresh + 1
      registered_listeners := list }

def MAX_PORT_LEN : ℕ := 7

/-- One turn of `fix_all_listeners`. -/
def fix_listener (w : World) (r : Ref) (si : SocketInfo) : Option SocketInfo :=
  match w.resolvehost r si.host with
  | none => none
  | some address =>
    let address_str := match address with
      | .AF_INET6 _ => chr '[' :: (ip_addr2a address ++ [chr ']'])
      | .AF_INET _ => ip_addr2a address
    let port_str := int2str si.port.toNat
    if ¬ w.shm_malloc r ∨ MAX_PORT_LEN ≤ port_str.length then none
    else
      match proto2str si.proto with
      | none => none
      | some proto => some { si with
          address := some address
          address_str := address_str
          port_str := port_str
          sock_str := proto ++ chr ':' :: (address_str ++ chr ':' :: port_str) }

def fix_all_loop (w : World) : ℕ → Option Ref → State → Option State
  | _, none, s => some s
  | 0, some _, s => some s
  | fuel + 1, some r, s =>
    match fix_listener w r (s.si r) with
    | none => none
    | some si => fix_all_loop w fuel (s.next r) { s with si := Function.update s.si r si }

def fix_all_listeners (w : World) (s : State) : Option State := fix_all_loop w s.fresh s.registered_listeners s

/-- A listener with the defaults, bound to its port. -/
def bound (si : SocketInfo) (default_port : UInt16) : SocketInfo :=
  let port := if si.port = 0 then default_port else si.port
  { si with
    proto := if si.proto = .PROTO_NONE then .PROTO_UDP else si.proto
    port := port
    su := some (si.address, port) }

/-- A listener goes to the list of its protocol. -/
def move (s : State) (r : Ref) (si : SocketInfo) (default_port : UInt16) : State :=
  let (list, next) := link_last s.next s.fresh (s.listeners si.proto) r
  { s with
    si := Function.update s.si r si
    funcs := Function.update s.funcs si.proto (some default_port)
    listeners := Function.update s.listeners si.proto list
    next := Function.update next r none }

/-- One turn of `init_all_listeners`. -/
def init_listener (w : World) (r : Ref) (s : State) : Option State :=
  let proto := (bound (s.si r) 0).proto
  match s.funcs proto <|> w.load_proto_lib proto with
  | none => none
  | some default_port =>
    if w.init_listener r then some (move s r (bound (s.si r) default_port) default_port) else none

def init_all_loop (w : World) : ℕ → Option Ref → State → Option State
  | _, none, s => some s
  | 0, some _, s => some s
  | fuel + 1, some r, s =>
    match init_listener w r s with
    | none => none
    | some s' => init_all_loop w fuel (s.next r) s'

def init_all_listeners (w : World) (s : State) : Option State := init_all_loop w s.fresh s.registered_listeners s

/-- No listener, and no protocol. -/
def init_protos : State where
  si _ := ⟨[], [], 0, .PROTO_NONE, none, [], [], [], none⟩
  next _ := none
  fresh := 0
  registered_listeners := none
  listeners _ := none
  funcs _ := none

/-- The listeners as `main` starts them; `auto_register_listeners` fails. -/
def start (w : World) (cfg : Config) (texts : List Str) : Option State :=
  let s := texts.foldl (register_listener cfg) init_protos
  if s.registered_listeners = none then none
  else (fix_all_listeners w s).bind (init_all_listeners w)

/-- The listener's texts are those of the port it is bound to. -/
structure Consistent (si : SocketInfo) : Prop where
  su : si.su = some (si.address, si.port)
  port_str : si.port_str = int2str si.port.toNat
  sock_str : ∃ proto, proto2str si.proto = some proto ∧
    si.sock_str = proto ++ chr ':' :: (si.address_str ++ chr ':' :: int2str si.port.toNat)

/-- What the start promises for the listeners that were registered. -/
structure Started (sis : List SocketInfo) (s : State) : Prop where
  lists : ∀ proto, Linked s.next (s.listeners proto)
    ((List.range sis.length).filter fun r => (s.si r).proto = proto) none
  proto : ∀ r (h : r < sis.length), (s.si r).proto = sis[r].proto
  consistent : ∀ r, r < sis.length → Consistent (s.si r)

variable {w : World} {cfg : Config} {next : Ref → Option Ref} {p : Option Ref} {l : List Ref} {r : Ref} {fuel : ℕ}
  {s s' : State} {sis : List SocketInfo}

theorem last_loop_eq (h : Linked next p l none) (hf : l.length ≤ fuel) : last_loop next fuel p = l.getLast? := by
  induction l generalizing p fuel with
  | nil =>
    rw [show p = none from h]
    cases fuel <;> rfl
  | cons x l ih =>
    obtain ⟨fuel, rfl⟩ := Nat.exists_eq_add_of_le' (le_trans (Nat.succ_pos _) hf)
    rw [h.1, last_loop]
    cases l with
    | nil =>
      rw [show next x = none from h.2]
      rfl
    | cons y l =>
      rw [if_pos (by rw [h.2.1]; rfl), ih h.2 (Nat.le_of_succ_le_succ hf), getLast?_cons_cons]

/-- **A listener is put at the end of a list.** -/
theorem link_last_spec (h : Linked next p l none) (hf : l.length ≤ fuel) (hr : r ∉ l) :
    Linked (Function.update (link_last next fuel p r).2 r none) (link_last next fuel p r).1 (l ++ [r]) none ∧
      ∀ x ∉ l, (link_last next fuel p r).2 x = next x := by
  rw [link_last, last_loop_eq h hf]
  rcases eq_nil_or_concat' l with rfl | ⟨A, x, rfl⟩
  · exact ⟨⟨rfl, update_self ..⟩, fun _ _ => rfl⟩
  · rw [getLast?_concat]
    have hx : x ∉ A := fun hx => (nodup_append.1 h.nodup).2.2 x hx x mem_cons_self rfl
    refine ⟨Linked.append.2 ⟨some r, (h.redirect hx _).update hr none, rfl, update_self ..⟩, fun y hy => ?_⟩
    exact update_of_ne (fun he => hy (by rw [he]; simp)) _ _

/-- The listeners were registered in this order, and nothing else was done. -/
structure Registered (sis : List SocketInfo) (s : State) : Prop where
  fresh : s.fresh = sis.length
  list : Linked s.next s.registered_listeners (List.range sis.length) none
  si : ∀ r (h : r < sis.length), s.si r = sis[r]
  listeners : s.listeners = fun _ => none
  funcs : s.funcs = fun _ => none

theorem Registered.register (h : Registered sis s) (text : Str) :
    Registered (sis ++ (parsed cfg text).toList) (register_listener cfg s text) := by
  rw [register_listener]
  cases hp : parsed cfg text with
  | none => rwa [toList_none, append_nil]
  | some si =>
    have hout : s.fresh ∉ List.range sis.length := by rw [h.fresh, mem_range]; exact lt_irrefl _
    obtain ⟨hlink, hsame⟩ := link_last_spec (h.list.update hout none) (le_of_eq (length_range.trans h.fresh.symm)) hout
    have hself := (hsame s.fresh hout).trans (update_self ..)
    have hlist : Linked (link_last (Function.update s.next s.fresh none) s.fresh s.registered_listeners s.fresh).2
        (link_last (Function.update s.next s.fresh none) s.fresh s.registered_listeners s.fresh).1
        (List.range sis.length ++ [s.fresh]) none := by
      refine hlink.congr fun x _ => ?_
      by_cases hx : x = s.fresh
      · rw [hx, update_self, hself]
      · rw [update_of_ne hx]
    refine ⟨?_, ?_, fun r hr => ?_, h.listeners, h.funcs⟩
    · show s.fresh + 1 = _
      rw [h.fresh, length_append]
      rfl
    · rw [toList_some, length_append, length_singleton, range_succ, ← h.fresh]
      rw [← h.fresh] at hlist
      exact hlist
    · show Function.update s.si s.fresh si r = _
      rw [toList_some, length_append, length_singleton] at hr
      by_cases hlast : r = s.fresh
      · subst hlast
        rw [update_self]
        simp [h.fresh]
      · have hr' : r < sis.length := by rw [h.fresh] at hlast; omega
        rw [update_of_ne hlast, h.si r hr']
        exact (getElem_append_left hr').symm

theorem registered_all (texts : List Str) (h : Registered sis s) :
    Registered (sis ++ texts.filterMap (parsed cfg)) (texts.foldl (register_listener cfg) s) := by
  induction texts generalizing sis s with
  | nil => rwa [filterMap_nil, append_nil]
  | cons text texts ih =>
    have hnext := ih (@Registered.register cfg s sis h text)
    rw [append_assoc] at hnext
    rw [filterMap_cons]
    cases hp : parsed cfg text with
    | none =>
      rw [hp] at hnext
      exact hnext
    | some si =>
      rw [hp] at hnext
      exact hnext

theorem fix_all_loop_spec (h : Linked s.next p l none) (hf : l.length ≤ fuel) (heq : fix_all_loop w fuel p s = some s') :
    ∃ si, s' = { s with si := si } ∧ (∀ r ∈ l, fix_listener w r (s.si r) = some (si r)) ∧ ∀ r ∉ l, si r = s.si r := by
  have hnd := h.nodup
  induction l generalizing p fuel s with
  | nil =>
    rw [show p = none from h, fix_all_loop] at heq
    exact ⟨s.si, (some.inj heq).symm, fun r hr => absurd hr not_mem_nil, fun _ _ => rfl⟩
  | cons x l ih =>
    obtain ⟨fuel, rfl⟩ := Nat.exists_eq_add_of_le' (le_trans (Nat.succ_pos _) hf)
    rw [h.1, fix_all_loop] at heq
    cases hfix : fix_listener w x (s.si x) with
    | none =>
      rw [hfix] at heq
      cases heq
    | some si =>
      rw [hfix] at heq
      obtain ⟨hx, hnd⟩ := nodup_cons.1 hnd
      obtain ⟨si', rfl, hall, hout⟩ := @ih (s.next x) fuel { s with si := Function.update s.si x si } h.2
        (Nat.le_of_succ_le_succ hf) heq hnd
      refine ⟨si', rfl, fun r hr => ?_, fun r hr => ?_⟩
      · by_cases hrx : r = x
        · rw [hrx, hfix, hout x hx]
          exact (congrArg some (update_self x si s.si)).symm
        · rw [← hall r ((mem_cons.1 hr).resolve_left hrx)]
          exact congrArg (fix_listener w r) (update_of_ne hrx _ _).symm
      · rw [hout r fun hl => hr (mem_cons_of_mem _ hl)]
        exact update_of_ne (fun he => hr (by rw [he]; exact mem_cons_self)) _ _

/-- What `init_all_listeners` makes of a listener. -/
def Bound (w : World) (si0 si : SocketInfo) : Prop :=
  ∃ default_port, w.load_proto_lib si.proto = some default_port ∧ si = bound si0 default_port

/-- Between two turns: `moved` are in the lists of their protocols, and `left` are still in the first list. -/
structure Moving (w : World) (si0 : Ref → SocketInfo) (moved left : List Ref) (p : Option Ref) (s : State) : Prop where
  rest : Linked s.next p left none
  lists : ∀ proto, Linked s.next (s.listeners proto) (moved.filter fun r => (s.si r).proto = proto) none
  nodup : (moved ++ left).Nodup
  fuel : (moved ++ left).length ≤ s.fresh
  init : ∀ r ∈ moved, Bound w (si0 r) (s.si r)
  same : ∀ r ∈ left, s.si r = si0 r
  funcs : ∀ proto port, s.funcs proto = some port → w.load_proto_lib proto = some port

variable {si0 : Ref → SocketInfo} {left moved : List Ref}

theorem Moving.move {si : SocketInfo} {default_port : UInt16} (h : Moving w si0 moved (r :: left) p s)
    (hsi : si = bound (s.si r) default_port) (hload : w.load_proto_lib si.proto = some default_port) :
    Moving w si0 (moved ++ [r]) left (s.next r) (move s r si default_port) := by
  obtain ⟨-, hleft, hdisj⟩ := nodup_append.1 h.nodup
  have hr : r ∉ left := (nodup_cons.1 hleft).1
  have hne : ∀ x ∈ moved, x ≠ r := fun x hx => hdisj x hx r mem_cons_self
  have hother : ∀ x, x ≠ r → (Listeners.move s r si default_port).si x = s.si x := fun x hx => update_of_ne hx _ _
  have hself : (Listeners.move s r si default_port).si r = si := update_self ..
  have hsub : ∀ proto, r ∉ moved.filter fun r => (s.si r).proto = proto := fun proto hm =>
    hne r (mem_of_mem_filter hm) rfl
  have hlen : (moved.filter fun r => (s.si r).proto = si.proto).length ≤ s.fresh :=
    le_trans (length_filter_le ..) (le_trans (by rw [length_append]; omega) h.fuel)
  obtain ⟨hlink, hsame⟩ := link_last_spec (h.lists si.proto) hlen (hsub si.proto)
  have hnext : ∀ x, x ≠ r → x ∉ (moved.filter fun r => (s.si r).proto = si.proto) →
      (Listeners.move s r si default_port).next x = s.next x := fun x hx hm =>
    (update_of_ne hx _ _).trans (hsame x hm)
  refine ⟨?_, fun proto => ?_, ?_, ?_, fun x hx => ?_, fun x hx => ?_, fun proto port hp => ?_⟩
  · exact h.rest.2.congr fun x hx => hnext x (fun he => hr (he ▸ hx)) fun hm =>
      hdisj x (mem_of_mem_filter hm) x (mem_cons_of_mem _ hx) rfl
  · have hold : (moved.filter fun x => ((Listeners.move s r si default_port).si x).proto = proto) =
        moved.filter fun x => (s.si x).proto = proto :=
      filter_congr fun x hx => by rw [hother x (hne x hx)]
    rw [filter_append, hold]
    by_cases hp : si.proto = proto
    · rw [show [r].filter _ = [r] by simp [hself, hp], ← hp,
        show (Listeners.move s r si default_port).listeners si.proto = _ from update_self ..]
      exact hlink
    · rw [show [r].filter _ = [] by simp [hself, hp], append_nil,
        show (Listeners.move s r si default_port).listeners proto = _ from update_of_ne (Ne.symm hp) _ _]
      refine (h.lists proto).congr fun x hx => ?_
      obtain ⟨hxm, hxp⟩ := mem_filter.1 hx
      refine hnext x (hne x hxm) fun hm => hp ?_
      exact (of_decide_eq_true (mem_filter.1 hm).2).symm.trans (of_decide_eq_true hxp)
  · rw [append_assoc]
    exact h.nodup
  · rw [append_assoc]
    exact h.fuel
  · rcases mem_append.1 hx with hx | hx
    · rw [hother x (hne x hx)]
      exact h.init x hx
    · rw [mem_singleton.1 hx, hself, ← h.same r mem_cons_self]
      exact ⟨default_port, hload, hsi⟩
  · rw [hother x fun he => hr (he ▸ hx)]
    exact h.same x (mem_cons_of_mem _ hx)
  · by_cases hpp : proto = si.proto
    · rw [hpp, show (Listeners.move s r si default_port).funcs si.proto = _ from update_self ..] at hp
      rw [hpp, hload, hp]
    · exact h.funcs proto port ((update_of_ne hpp _ _).symm.trans hp)

theorem Moving.run (h : Moving w si0 moved left p s) (hf : left.length ≤ fuel)
    (heq : init_all_loop w fuel p s = some s') : Moving w si0 (moved ++ left) [] none s' := by
  induction left generalizing moved p fuel s with
  | nil =>
    rw [show p = none from h.rest, init_all_loop] at heq
    cases heq
    rw [append_nil]
    exact (show p = none from h.rest) ▸ h
  | cons r left ih =>
    obtain ⟨fuel, rfl⟩ := Nat.exists_eq_add_of_le' (le_trans (Nat.succ_pos _) hf)
    rw [h.rest.1, init_all_loop, init_listener] at heq
    cases hport : s.funcs (bound (s.si r) 0).proto <|> w.load_proto_lib (bound (s.si r) 0).proto with
    | none =>
      rw [hport] at heq
      cases heq
    | some default_port =>
      rw [hport] at heq
      dsimp only at heq
      have hload : w.load_proto_lib (bound (s.si r) default_port).proto = some default_port := by
        cases hfuncs : s.funcs (bound (s.si r) 0).proto with
        | none => rwa [hfuncs] at hport
        | some port =>
          rw [hfuncs] at hport
          rw [← hport]
          exact h.funcs _ port hfuncs
      split_ifs at heq with hinit
      have hnext := ih (h.move rfl hload) (Nat.le_of_succ_le_succ hf) heq
      rwa [append_assoc] at hnext

theorem fix_listener_spec {si si' : SocketInfo} (h : fix_listener w r si = some si') :
    si'.proto = si.proto ∧ si'.port = si.port ∧ si'.port_str = int2str si.port.toNat ∧
      ∃ proto, proto2str si.proto = some proto ∧
        si'.sock_str = proto ++ chr ':' :: (si'.address_str ++ chr ':' :: int2str si.port.toNat) := by
  unfold fix_listener at h
  split at h
  · cases h
  · dsimp only at h
    split_ifs at h
    split at h
    · cases h
    · rename_i proto hproto
      cases h
      exact ⟨rfl, rfl, rfl, proto, hproto, rfl⟩

theorem int2str_inj {a b : UInt16} (h : int2str a.toNat = int2str b.toNat) : a = b := by
  have hdec : ∀ a : UInt16, Numbers.decimal (int2str a.toNat) = a.toNat := fun a =>
    (Numbers.decimal_int2str (lt_trans a.toNat_lt (by decide))).2.1
  rw [← UInt16.toNat_inj, ← hdec a, h, hdec b]

theorem consistent_iff {si0 si : SocketInfo} (hfix : ∃ si', fix_listener w r si' = some si0) (h : Bound w si0 si) :
    si.proto = si0.proto ∧ (Consistent si ↔ si0.port ≠ 0 ∨ w.load_proto_lib si0.proto = some 0) := by
  obtain ⟨si', hfix⟩ := hfix
  obtain ⟨hproto, hport, hstr, name, hname, hsock⟩ := fix_listener_spec hfix
  obtain ⟨default_port, hload, rfl⟩ := h
  have hne : si0.proto ≠ .PROTO_NONE := by
    rw [hproto]
    intro he
    rw [he] at hname
    cases hname
  have hp : (bound si0 default_port).proto = si0.proto := if_neg hne
  rw [hp] at hload
  refine ⟨hp, ⟨fun h => ?_, fun h => ?_⟩⟩
  · have hsame : si0.port = (bound si0 default_port).port := by
      refine int2str_inj ?_
      rw [hport, ← hstr]
      exact h.port_str
    by_cases h0 : si0.port = 0
    · refine .inr ?_
      have h1 : (bound si0 default_port).port = default_port := if_pos h0
      rw [hload, ← h1, ← hsame, h0]
    · exact .inl h0
  · have hsame : (bound si0 default_port).port = si'.port := by
      rw [← hport]
      by_cases h0 : si0.port = 0
      · rw [h.resolve_left (fun hn => hn h0)] at hload
        cases hload
        exact (if_pos h0).trans h0.symm
      · exact if_neg h0
    exact ⟨rfl, by rw [hsame]; exact hstr, name, by rw [hp, hproto, hname], by rw [hsame]; exact hsock⟩

/-- A system that knows one address, where the protocols have the default port 5060. -/
def world : World where
  shm_malloc _ := true
  resolvehost _ _ := some (.AF_INET fun _ => 127)
  load_proto_lib _ := some 5060
  init_listener _ := true

def udp_only : Config := ⟨true, false, false, false, false, false, false⟩

end OpenSips.Listeners
