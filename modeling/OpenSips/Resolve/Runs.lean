import OpenSips.Lib.Machine
import OpenSips.Lib.Worklist
import OpenSips.Resolve.Refine

/-!
# OpenSips.Resolve.Runs — lookups call back

Any number of users look up targets and go on with the alternatives they were handed; the resolver
library answers in any order.  Each lookup calls the user's function exactly once, and does so after
finitely many answers.
-/

namespace OpenSips.Resolve

open Lib List Option

section React

def ReqType.rank : ReqType → ℕ
  | .DNS_A_REQUEST | .DNS_AAAA_REQUEST => 0
  | .DNS_SRV_REQUEST => 1
  | .DNS_NAPTR_REQUEST => 2

def Request.Named (x : Request) : Prop := 0 < x.type.rank → ∃ len, x.name_len = some len

/-- An answer that does not lead to undefined behaviour: SRV records are told from others, and the name
of an SRV request that finds nothing starts with a prefix, or is as long. -/
def Gentle (cfg : Config) (x : Request) : Answer → Prop
  | .ARES_SUCCESS reply => x.type = .DNS_SRV_REQUEST → List.IsChain apart reply.records
  | .ARES_ENODATA | .ARES_ENOTFOUND =>
    x.type = .DNS_SRV_REQUEST → ∀ len, x.name_len = some len → (srv_prefix_of cfg x.proto).length ≤ len
  | .other => True

variable {cfg : Config} {shm : ℕ → Bool} {rand : ℕ → ℕ → ℕ} {x z : Request}
  {l rest : List Request} {answer : Answer} {found : Option Ptr} {reply : Reply}

theorem unprefix_name_spec {pre : Str} {len : ℕ} (h : x.name_len = some len) :
    (∃ z, unprefix_name x pre = some z) ↔ pre.length ≤ len := by
  unfold unprefix_name
  rw [h]
  dsimp only [bind_eq_bind, bind_some]
  split_ifs with hlt
  · exact ⟨fun ⟨_, hz⟩ => (by cases hz), fun hle => absurd hlt (not_lt.2 hle)⟩
  · exact ⟨fun _ => not_lt.1 hlt, fun _ => ⟨_, rfl⟩⟩

theorem srv_2_a_spec (cfg : Config) (hx : x.Named) : (∃ z, srv_2_a cfg x = some z) ↔
    (x.type = .DNS_SRV_REQUEST → ∀ len, x.name_len = some len → (srv_prefix_of cfg x.proto).length ≤ len) := by
  unfold srv_2_a
  by_cases ht : x.type = .DNS_SRV_REQUEST
  · obtain ⟨len, hlen⟩ := hx (by rw [ht]; exact Nat.one_pos)
    have hiff : (∀ len', some len = some len' → (srv_prefix_of cfg x.proto).length ≤ len') ↔
        (srv_prefix_of cfg x.proto).length ≤ len :=
      ⟨fun h => h len rfl, fun h len' e => some.inj e ▸ h⟩
    rw [hlen, hiff]
    by_cases hp : srv_prefix_of cfg x.proto = []
    · rw [if_neg (by rw [hp]; exact fun h => h.2 rfl)]
      exact ⟨fun _ _ => by rw [hp]; exact Nat.zero_le _, fun _ => ⟨_, rfl⟩⟩
    · rw [if_pos ⟨ht, hp⟩, ← unprefix_name_spec hlen]
      constructor
      · rintro ⟨z, hz⟩ -
        obtain ⟨w, hw, -⟩ := bind_eq_some_iff.1 hz
        exact ⟨w, hw⟩
      · intro h
        obtain ⟨w, hw⟩ := h ht
        exact ⟨_, by rw [hw]; rfl⟩
  · rw [if_neg fun h => ht h.1]
    exact ⟨fun _ h => absurd h ht, fun _ => ⟨_, rfl⟩⟩

theorem srv_2_a_type (h : srv_2_a cfg x = some z) : z.type = .DNS_A_REQUEST := by
  simp only [srv_2_a, bind_eq_bind] at h
  split_ifs at h
  · obtain ⟨w, -, hw⟩ := bind_eq_some_iff.1 h
    cases hw
    rfl
  · cases h
    rfl

theorem natpr_2_srv_type (h : natpr_2_srv cfg x = some (some z)) :
    z.type = .DNS_SRV_REQUEST ∧ ∃ len, z.name_len = some len := by
  unfold natpr_2_srv at h
  obtain ⟨len, -, h⟩ := bind_eq_some_iff.1 h
  have hpush : ∀ pre, some (some (prefix_name x len pre)) = some (some z) →
      z.type = .DNS_SRV_REQUEST ∧ ∃ len, z.name_len = some len := by
    rintro pre ⟨⟩
    exact ⟨rfl, _, rfl⟩
  split_ifs at h
  · cases h
  all_goals cases hp : x.proto <;> simp only [hp] at h <;> first | exact hpush _ h | cases h

theorem natpr_2_srv_some (cfg : Config) (h : x.Named) (ht : x.type = .DNS_NAPTR_REQUEST) :
    ∃ o, natpr_2_srv cfg x = some o := by
  obtain ⟨len, hlen⟩ := h (by rw [ht]; exact Nat.two_pos)
  unfold natpr_2_srv
  rw [hlen]
  simp only [bind_eq_bind, bind_some]
  split_ifs
  all_goals cases x.proto <;> exact ⟨_, rfl⟩

/-- What `react` does, when it does not go wrong: lesser requests come in front of the rest. -/
structure Reaction (x : Request) (rest l : List Request) : Prop where
  replaced : ∃ new, l = new ++ rest ∧ ∀ z ∈ new, z.type.rank < x.type.rank ∧ z.Named

theorem Reaction.skip : Reaction x rest rest := ⟨[], rfl, fun _ hz => by cases hz⟩

theorem reaction_direct_a (hx : 0 < x.type.rank) (h : react_direct_a cfg z rest = some (l, found)) :
    Reaction x rest l := by
  obtain ⟨w, hw, e⟩ := map_eq_some_iff.1 h
  cases e
  refine ⟨[w], rfl, fun y hy => ?_⟩
  rw [mem_singleton.1 hy]
  have ht := srv_2_a_type hw
  exact ⟨by rw [ht]; exact hx, fun hr => absurd hr (by rw [ht]; exact lt_irrefl _)⟩

theorem reaction_add {news : List Request} (hnews : ∀ z ∈ news, z.type.rank < x.type.rank ∧ z.Named) :
    Reaction x rest (react_add shm news rest).1 :=
  ⟨_, rfl, fun z hz => hnews z (allotted_sub hz)⟩

theorem dns_types_rank {type : ReqType} (h : type ∈ dns_types cfg) : type.rank = 0 := by
  unfold dns_types at h
  split_ifs at h <;> simp only [mem_cons, not_mem_nil, or_false] at h
  · rcases h with rfl | rfl <;> rfl
  · rw [h]
    rfl

theorem reaction_no_data (h : react_no_data cfg x rest = some (l, found)) : Reaction x rest l := by
  unfold react_no_data at h
  cases ht : x.type with
  | DNS_A_REQUEST =>
    rw [ht] at h
    cases h
    exact .skip
  | DNS_AAAA_REQUEST =>
    rw [ht] at h
    cases h
    exact .skip
  | DNS_SRV_REQUEST =>
    rw [ht] at h
    exact reaction_direct_a (by rw [ht]; exact one_pos) h
  | DNS_NAPTR_REQUEST =>
    rw [ht] at h
    dsimp only at h
    split at h
    · cases h
    · rename_i z hz
      cases h
      refine ⟨[z], rfl, fun y hy => ?_⟩
      obtain ⟨htz, hlen⟩ := natpr_2_srv_type hz
      rw [mem_singleton.1 hy, ht, htz]
      exact ⟨Nat.lt_succ_self _, fun _ => hlen⟩
    · exact reaction_direct_a (by rw [ht]; exact Nat.two_pos) h

/-- **Every answer leaves lesser requests.** -/
theorem react_reaction (h : react cfg shm rand x rest answer = some (l, found)) : Reaction x rest l := by
  cases answer with
  | ARES_SUCCESS reply =>
    change react_success cfg shm rand x rest reply = _ at h
    unfold react_success at h
    cases ht : x.type with
    | DNS_A_REQUEST =>
      rw [ht] at h
      cases h
      exact .skip
    | DNS_AAAA_REQUEST =>
      rw [ht] at h
      cases h
      exact .skip
    | DNS_SRV_REQUEST =>
      simp only [ht] at h
      split_ifs at h
      · cases h
        exact .skip
      · obtain ⟨head, -, e⟩ := map_eq_some_iff.1 h
        rw [Prod.ext_iff] at e
        obtain rfl := e.1
        refine reaction_add fun z hz => ?_
        obtain ⟨srv, -, hz⟩ := mem_flatMap.1 hz
        obtain ⟨type, htype, rfl⟩ := List.mem_map.1 hz
        rw [ht]
        exact ⟨by rw [dns_types_rank htype]; exact one_pos, fun _ => ⟨_, rfl⟩⟩
    | DNS_NAPTR_REQUEST =>
      simp only [ht] at h
      split_ifs at h
      · cases h
        exact .skip
      · have e := some.inj h
        rw [Prod.ext_iff] at e
        obtain rfl := e.1
        refine reaction_add fun z hz => ?_
        obtain ⟨n, -, rfl⟩ := List.mem_map.1 hz
        rw [ht]
        exact ⟨Nat.lt_succ_self _, fun _ => ⟨_, rfl⟩⟩
  | ARES_ENODATA => exact reaction_no_data h
  | ARES_ENOTFOUND => exact reaction_no_data h
  | other =>
    cases h
    exact .skip

theorem react_direct_a_spec (cfg : Config) (rest : List Request) (hx : x.Named) :
    (∃ q, react_direct_a cfg x rest = some q) ↔
    (x.type = .DNS_SRV_REQUEST → ∀ len, x.name_len = some len → (srv_prefix_of cfg x.proto).length ≤ len) := by
  refine Iff.trans ?_ (srv_2_a_spec cfg (x := { x with port := some (default_port x.is_sips x.proto) }) hx)
  unfold react_direct_a
  constructor
  · rintro ⟨q, hq⟩
    obtain ⟨w, hw, -⟩ := map_eq_some_iff.1 hq
    exact ⟨w, hw⟩
  · rintro ⟨w, hw⟩
    exact ⟨_, by rw [hw]; rfl⟩

theorem react_no_data_spec (hx : x.Named) : (∃ q, react_no_data cfg x rest = some q) ↔
    (x.type = .DNS_SRV_REQUEST → ∀ len, x.name_len = some len → (srv_prefix_of cfg x.proto).length ≤ len) := by
  have hdirect := react_direct_a_spec cfg rest hx
  unfold react_no_data
  cases ht : x.type with
  | DNS_A_REQUEST => exact ⟨fun _ h => (by cases h), fun _ => ⟨_, rfl⟩⟩
  | DNS_AAAA_REQUEST => exact ⟨fun _ h => (by cases h), fun _ => ⟨_, rfl⟩⟩
  | DNS_SRV_REQUEST =>
    rw [ht] at hdirect
    exact hdirect
  | DNS_NAPTR_REQUEST =>
    refine ⟨fun _ h => (by cases h), fun _ => ?_⟩
    have hx' : (set_default_proto x).Named := hx
    obtain ⟨o, ho⟩ := natpr_2_srv_some cfg hx' ht
    dsimp only
    rw [ho]
    cases o with
    | some z => exact ⟨_, rfl⟩
    | none =>
      refine (react_direct_a_spec cfg rest hx').2 fun h => ?_
      rw [show (set_default_proto x).type = x.type from rfl, ht] at h
      cases h

/-- **The code goes wrong exactly on the answers that are not gentle.** -/
theorem react_gentle (cfg : Config) (shm : ℕ → Bool) (rand : ℕ → ℕ → ℕ) (rest : List Request)
    (answer : Answer) (hx : x.Named) :
    (∃ q, react cfg shm rand x rest answer = some q) ↔ Gentle cfg x answer := by
  cases answer with
  | ARES_SUCCESS reply =>
    change (∃ q, react_success cfg shm rand x rest reply = some q) ↔ (_ → _)
    unfold react_success
    cases ht : x.type with
    | DNS_A_REQUEST => exact ⟨fun _ h => (by cases h), fun _ => ⟨_, rfl⟩⟩
    | DNS_AAAA_REQUEST => exact ⟨fun _ h => (by cases h), fun _ => ⟨_, rfl⟩⟩
    | DNS_NAPTR_REQUEST =>
      refine ⟨fun _ h => (by cases h), fun _ => ?_⟩
      split_ifs <;> exact ⟨_, rfl⟩
    | DNS_SRV_REQUEST =>
      split_ifs with hr
      · rw [hr]
        exact ⟨fun _ _ => .nil, fun _ => ⟨_, rfl⟩⟩
      · rw [← sort_srvs_apart rand 0]
        constructor
        · rintro ⟨q, hq⟩ -
          obtain ⟨head, hh, -⟩ := map_eq_some_iff.1 hq
          exact ⟨head, hh⟩
        · intro h
          obtain ⟨head, hh⟩ := h rfl
          exact ⟨_, by rw [hh]; rfl⟩
  | ARES_ENODATA => exact react_no_data_spec hx
  | ARES_ENOTFOUND => exact react_no_data_spec hx
  | other => exact ⟨fun _ => trivial, fun _ => ⟨_, rfl⟩⟩

end React

section System

/-- What a user's lookup has come to: a query is under way, the call of the user's function is in the
dispatcher, or it was called and the user has the requests that were not tried. -/
inductive Conv where
  | waiting (pack : Pack)
  | queued (pack : Pack)
  | held (requests : Option Ref)

def Conv.requests : Conv → Option Ref
  | .waiting pack | .queued pack => pack.requests
  | .held requests => requests

/-- The requests in memory, and the users' lookups by their numbers. -/
structure Sys where
  store : Objects Request
  conv : ℕ → Option Conv
  fresh : ℕ

def Sys.init : Sys := ⟨.empty, fun _ => none, 0⟩

def Sys.put (s : Sys) (id : ℕ) (c : Conv) (store : Objects Request) (fresh : ℕ) : Sys :=
  ⟨store, fun i => if i = id then some c else s.conv i, fresh⟩

/-- A user starts a lookup, the library answers one, the dispatcher calls a user's function, or a user
goes on with the requests it has. -/
inductive Op where
  | sip_resolvehost (he : Ptr) (shm : Bool × Bool) (name : Str) (port : UInt16) (proto : Proto)
    (is_sips : Bool)
  | sip_ares_to_dns (id : ℕ) (shm : ℕ → Bool) (rand : ℕ → ℕ → ℕ) (answer : Answer)
  | sip_dns_to_user (id : ℕ)
  | next_he (id : ℕ) (shm : Bool)

/-- The user whose lookup starts, and the one whose function is called. -/
structure Event where
  lookup : Option ℕ
  callback : Option ℕ

def Call.conv : Call → Conv
  | .callback _ _ _ requests => .held requests
  | .pack p (.search _ _) => .waiting p
  | .pack p .submit => .queued p

def Call.event (call : Call) (id : ℕ) : Event :=
  ⟨some id, match call with | .callback .. => some id | .pack .. => none⟩

def exec (cfg : Config) (s : Sys) : Op → Option (Sys × Event)
  | .sip_resolvehost he shm name port proto is_sips => do
    let (m, call) ← Resolve.sip_resolvehost cfg he shm s.store name port proto is_sips
    some (s.put s.fresh call.conv m (s.fresh + 1), call.event s.fresh)
  | .sip_ares_to_dns id shm rand answer =>
    match s.conv id with
    | some (.waiting pack) => do
      let (m, pack, next) ← Resolve.sip_ares_to_dns cfg shm rand s.store pack answer
      some (s.put id (Call.pack pack next).conv m s.fresh, ⟨none, none⟩)
    | _ => none
  | .sip_dns_to_user id =>
    match s.conv id with
    | some (.queued pack) => some (s.put id (.held pack.requests) s.store s.fresh, ⟨none, some id⟩)
    | _ => none
  | .next_he id shm =>
    match s.conv id with
    | some (.held requests) => do
      let call ← Resolve.next_he shm s.store requests
      some (s.put id call.conv s.store s.fresh, call.event id)
    | _ => none

/-- The library answers queries, the dispatcher runs its tasks, and users go on with what they have. -/
def Proper (s : Sys) : Op → Prop
  | .sip_resolvehost .. => True
  | .sip_ares_to_dns id .. => ∃ pack, s.conv id = some (.waiting pack)
  | .sip_dns_to_user id => ∃ pack, s.conv id = some (.queued pack)
  | .next_he id _ => ∃ requests, s.conv id = some (.held requests)

def Op.Answers (id : ℕ) : Op → Prop
  | .sip_ares_to_dns i .. => i = id
  | _ => False

def GentleOp (cfg : Config) (s : Sys) : Op → Prop
  | .sip_ares_to_dns id _ _ answer => ∀ pack r x, s.conv id = some (.waiting pack) →
    pack.requests = some r → s.store.get r = some x → Gentle cfg x answer
  | _ => True

/-- Whether a lookup has still to call its user's function. -/
def Conv.pending : Conv → ℕ
  | .waiting _ | .queued _ => 1
  | .held _ => 0

def Sys.pending (s : Sys) (id : ℕ) : ℕ := ((s.conv id).map Conv.pending).getD 0

/-- A query is under way, and these are the ranks of the requests that are to be tried. -/
def Ranked (s : Sys) (id : ℕ) (a : List ℕ) : Prop :=
  ∃ pack refs l, s.conv id = some (.waiting pack) ∧ Listed s.store pack.requests refs l ∧
    a = l.map fun x => x.type.rank

/-- The requests of each lookup are linked, and shared with no other lookup. -/
structure Inv (s : Sys) : Prop where
  valid : s.store.Valid
  fresh : ∀ id, s.fresh ≤ id → s.conv id = none
  listed : ∀ id c, s.conv id = some c → ∃ refs l, Listed s.store c.requests refs l ∧ ∀ z ∈ l, z.Named
  apart : ∀ i j c d refs refs' l l', i ≠ j → s.conv i = some c → s.conv j = some d →
    Listed s.store c.requests refs l → Listed s.store d.requests refs' l' → ∀ r ∈ refs, r ∉ refs'
  waiting : ∀ id pack, s.conv id = some (.waiting pack) → pack.requests ≠ none

variable {cfg : Config} {s s' : Sys} {id j n : ℕ} {c d : Conv} {m' : Objects Request}
  {refs refs' : List Ref} {l l' : List Request}

theorem Sys.put_self (s : Sys) : (s.put id c m' n).conv id = some c := if_pos rfl

theorem Sys.put_ne (s : Sys) (h : j ≠ id) : (s.put id c m' n).conv j = s.conv j := if_neg h

/-- What a step keeps, and what it does to the lookups: a user's function is called for a lookup that
started, and an answer leaves lesser requests. -/
structure Step (s : Sys) (op : Op) (s' : Sys) (e : Event) : Prop where
  inv : Inv s'
  counts : ∀ id, s.pending id + (if e.lookup = some id then 1 else 0) =
    s'.pending id + if e.callback = some id then 1 else 0
  ranked : ∀ id a, Ranked s id a → (∃ pack, s'.conv id = some (.queued pack)) ∨
    ∃ a', Ranked s' id a' ∧ (a' = a ∨ Replaced (· < ·) a' a) ∧ (op.Answers id → Replaced (· < ·) a' a)

theorem Inv.put (h : Inv s) (hid : id < n) (hn : s.fresh ≤ n) (hf : Objects.Frame refs s.store m')
    (hown : ∀ j d refs' l', j ≠ id → s.conv j = some d → Listed s.store d.requests refs' l' →
      ∀ r ∈ refs, r ∉ refs')
    (hl : Listed m' c.requests refs' l') (hfrom : ∀ r ∈ refs', r ∈ refs ∨ s.store.fresh ≤ r)
    (hnamed : ∀ z ∈ l', z.Named) (hw : ∀ pack, c = .waiting pack → pack.requests ≠ none) :
    Inv (s.put id c m' n) ∧ ∀ j d refs l, j ≠ id → s.conv j = some d →
      Listed s.store d.requests refs l → Listed m' d.requests refs l := by
  have hother : ∀ j d refs l, j ≠ id → s.conv j = some d → Listed s.store d.requests refs l →
      Listed m' d.requests refs l := fun j d refs₂ l₂ hj hd hl₂ =>
    hl₂.frame hf h.valid fun r hr hmem => hown j d refs₂ l₂ hj hd hl₂ r hmem hr
  -- the requests of the lookup that moves are apart from those of another one
  have hnew : ∀ j d refs₂ l₂, j ≠ id → s.conv j = some d → Listed m' d.requests refs₂ l₂ →
      ∀ r ∈ refs', r ∉ refs₂ := by
    intro j d refs₂ l₂ hj hd hl₂ r hr hmem
    obtain ⟨refs₃, l₃, hl₃, -⟩ := h.listed j d hd
    obtain ⟨rfl, -⟩ := (hother j d refs₃ l₃ hj hd hl₃).unique hl₂
    rcases hfrom r hr with hr | hr
    · exact hown j d _ l₃ hj hd hl₃ r hr hmem
    · exact absurd (hl₃.lt_fresh h.valid hmem) (not_lt.2 hr)
  refine ⟨⟨hf.valid h.valid, fun j hj => ?_, fun j d hd => ?_, ?_, fun j pack hd => ?_⟩, hother⟩
  · rw [s.put_ne (ne_of_gt (lt_of_lt_of_le hid hj))]
    exact h.fresh j (le_trans hn hj)
  · by_cases hj : j = id
    · subst hj
      obtain rfl := some.inj (s.put_self.symm.trans hd)
      exact ⟨refs', l', hl, hnamed⟩
    · have hd' : s.conv j = some d := (s.put_ne hj).symm.trans hd
      obtain ⟨refs₂, l₂, hl₂, hn₂⟩ := h.listed j d hd'
      exact ⟨refs₂, l₂, hother j d refs₂ l₂ hj hd' hl₂, hn₂⟩
  · intro i j ci cj ri rj li lj hij hci hcj hli hlj r hr hmem
    by_cases hi : i = id
    · subst hi
      obtain rfl := some.inj (s.put_self.symm.trans hci)
      obtain ⟨rfl, -⟩ := hl.unique hli
      exact hnew j cj rj lj hij.symm ((s.put_ne hij.symm).symm.trans hcj) hlj r hr hmem
    · have hci' : s.conv i = some ci := (s.put_ne hi).symm.trans hci
      by_cases hj : j = id
      · subst hj
        obtain rfl := some.inj (s.put_self.symm.trans hcj)
        obtain ⟨rfl, -⟩ := hl.unique hlj
        exact hnew i ci ri li hij hci' hli r hmem hr
      · have hcj' : s.conv j = some cj := (s.put_ne hj).symm.trans hcj
        obtain ⟨ri', li', hli', -⟩ := h.listed i ci hci'
        obtain ⟨rj', lj', hlj', -⟩ := h.listed j cj hcj'
        obtain ⟨rfl, -⟩ := (hother i ci ri' li' hi hci' hli').unique hli
        obtain ⟨rfl, -⟩ := (hother j cj rj' lj' hj hcj' hlj').unique hlj
        exact h.apart i j ci cj _ _ li' lj' hij hci' hcj' hli' hlj' r hr hmem
  · by_cases hj : j = id
    · subst hj
      exact hw pack (some.inj (s.put_self.symm.trans hd))
    · exact h.waiting j pack ((s.put_ne hj).symm.trans hd)

variable {op : Op}

theorem Inv.step {e : Event} (h : Inv s) (hid : id < n) (hn : s.fresh ≤ n) (hf : Objects.Frame refs s.store m')
    (hown : ∀ j d refs' l', j ≠ id → s.conv j = some d → Listed s.store d.requests refs' l' →
      ∀ r ∈ refs, r ∉ refs')
    (hl : Listed m' c.requests refs' l') (hfrom : ∀ r ∈ refs', r ∈ refs ∨ s.store.fresh ≤ r)
    (hnamed : ∀ z ∈ l', z.Named) (hw : ∀ pack, c = .waiting pack → pack.requests ≠ none)
    (he : ∀ j, e.lookup = some j ∨ e.callback = some j ∨ op.Answers j → j = id)
    (hcount : s.pending id + (if e.lookup = some id then 1 else 0) =
      c.pending + if e.callback = some id then 1 else 0)
    (hrank : ∀ a, Ranked s id a → (∃ pack, c = .queued pack) ∨
      (∃ pack, c = .waiting pack) ∧ Replaced (· < ·) (l'.map fun x => x.type.rank) a) :
    Step s op (s.put id c m' n) e := by
  obtain ⟨hinv, hother⟩ := h.put hid hn hf hown hl hfrom hnamed hw
  refine ⟨hinv, fun j => ?_, fun j a hj => ?_⟩
  · by_cases hji : j = id
    · subst hji
      rw [hcount, Sys.pending, s.put_self]
      rfl
    · rw [if_neg fun e' => hji (he j (.inl e')), if_neg fun e' => hji (he j (.inr (.inl e'))),
        Sys.pending, Sys.pending, s.put_ne hji]
  · by_cases hji : j = id
    · subst hji
      rcases hrank a hj with ⟨pack, rfl⟩ | ⟨⟨pack, rfl⟩, hr⟩
      · exact .inl ⟨pack, s.put_self⟩
      · exact .inr ⟨_, ⟨pack, refs', l', s.put_self, hl, rfl⟩, .inr hr, fun _ => hr⟩
    · obtain ⟨pack, refs₂, l₂, hc, hl₂, rfl⟩ := hj
      exact .inr ⟨_, ⟨pack, refs₂, l₂, (s.put_ne hji).trans hc, hother j _ refs₂ l₂ hji hc hl₂, rfl⟩, .inl rfl,
        fun ha => absurd (he j (.inr (.inr ha))) hji⟩

theorem Inv.own (h : Inv s) (hc : s.conv id = some c) (hl : Listed s.store c.requests refs l) :
    ∀ j d refs' l', j ≠ id → s.conv j = some d → Listed s.store d.requests refs' l' → ∀ r ∈ refs, r ∉ refs' :=
  fun j d refs' l' hj hd hl' => h.apart id j c d refs refs' l l' hj.symm hc hd hl hl'

theorem Inv.id_lt (h : Inv s) (hc : s.conv id = some c) : id < s.fresh :=
  lt_of_not_ge fun hle => by
    rw [h.fresh id hle] at hc
    cases hc

variable {pack : Pack}

theorem Inv.waiting_head (h : Inv s) (hc : s.conv id = some (.waiting pack)) :
    ∃ r refs x l y, Listed s.store pack.requests (r :: refs) (x :: l) ∧ pack.requests = some r ∧
      s.store.get r = some y ∧ y.body = x ∧ ∀ z ∈ x :: l, z.Named := by
  obtain ⟨refs, l, hl, hnamed⟩ := h.listed id _ hc
  obtain ⟨r, refs, rfl⟩ : ∃ r rs, refs = r :: rs := by
    cases refs with
    | nil => exact absurd hl.segment (h.waiting id pack hc)
    | cons r rs => exact ⟨r, rs, rfl⟩
  obtain ⟨x, l, rfl⟩ : ∃ x xs, l = x :: xs := by
    cases l with
    | nil => exact absurd (hl.nil_iff.2 rfl) (h.waiting id pack hc)
    | cons x xs => exact ⟨x, xs, rfl⟩
  obtain ⟨hp, y, hy, hyx, -⟩ := hl.head
  exact ⟨r, refs, x, l, y, hl, hp, hy, hyx, hnamed⟩

/-- An answer goes wrong, or replaces the requests of one lookup, as `react` does. -/
theorem exec_answer_eq (cfg : Config) (shm : ℕ → Bool) (rand : ℕ → ℕ → ℕ) (answer : Answer) {r : Ref} {x : Request} (h : Inv s) (hc : s.conv id = some (.waiting pack))
    (hl : Listed s.store pack.requests (r :: refs) (x :: l)) :
    match react cfg shm rand x l answer with
    | none => exec cfg s (.sip_ares_to_dns id shm rand answer) = none
    | some (l', found) => ∃ out, After s.store (r :: refs) x l' found out ∧
      exec cfg s (.sip_ares_to_dns id shm rand answer) =
        some (s.put id (Call.pack out.2.1 out.2.2).conv out.1 s.fresh, ⟨none, none⟩) := by
  have href := sip_ares_to_dns_refines cfg shm rand h.valid hl answer
  simp only [exec, hc]
  cases hq : react cfg shm rand x l answer with
  | none =>
    rw [hq] at href
    exact (congrArg (· >>= _) href).trans rfl
  | some q =>
    rw [hq] at href
    obtain ⟨out, e, ha⟩ := href
    exact ⟨out, ha, (congrArg (· >>= _) e).trans rfl⟩

theorem answer_step {shm : ℕ → Bool} {rand : ℕ → ℕ → ℕ} {answer : Answer}
    (h : Inv s) (hc : s.conv id = some (.waiting pack)) :
    (GentleOp cfg s (.sip_ares_to_dns id shm rand answer) →
      ∃ s' e, exec cfg s (.sip_ares_to_dns id shm rand answer) = some (s', e) ∧
        Step s (.sip_ares_to_dns id shm rand answer) s' e) ∧
    (¬ GentleOp cfg s (.sip_ares_to_dns id shm rand answer) →
      exec cfg s (.sip_ares_to_dns id shm rand answer) = none) := by
  obtain ⟨r, refs, x, l, y, hl, hp, hy, hyx, hnamed⟩ := h.waiting_head hc
  have hgentle : GentleOp cfg s (.sip_ares_to_dns id shm rand answer) ↔ Gentle cfg x answer := by
    constructor
    · intro hg
      have hgy := hg pack r y hc hp hy
      rw [← hyx]
      cases answer <;> exact hgy
    · intro hg pack' r' y' hc' hp' hy'
      obtain rfl := Conv.waiting.inj (some.inj (hc.symm.trans hc'))
      obtain rfl := some.inj (hp.symm.trans hp')
      obtain rfl := some.inj (hy.symm.trans hy')
      rw [← hyx] at hg
      cases answer <;> exact hg
  have hexec := exec_answer_eq cfg shm rand answer h hc hl
  have hreact := react_gentle cfg shm rand l answer (hnamed x mem_cons_self)
  rw [hgentle, ← hreact]
  constructor
  · rintro ⟨⟨l', found⟩, hq⟩
    rw [hq] at hexec
    obtain ⟨⟨m', pack', next⟩, ha, e⟩ := hexec
    obtain ⟨refs', hl', hfrom⟩ := ha.listed
    obtain ⟨new, rfl, hlt⟩ := (react_reaction hq).replaced
    have hreq : (Call.pack pack' next).conv.requests = pack'.requests := by cases next <;> rfl
    refine ⟨_, _, e, h.step (h.id_lt hc) (le_rfl) ha.frame (h.own hc hl) (hreq ▸ hl') hfrom
      ?_ ?_ ?_ ?_ ?_⟩
    · intro z hz
      rcases mem_append.1 hz with hz | hz
      · exact (hlt z hz).2
      · exact hnamed z (mem_cons_of_mem _ hz)
    · intro p hp'
      cases next with
      | submit => cases hp'
      | search name type =>
        cases hp'
        have hnext := ha.next
        intro hnone
        rw [hl'.nil_iff.1 hnone] at hnext
        cases found <;> cases hnext
    · rintro j (he | he | he)
      · cases he
      · cases he
      · exact he.symm
    · rw [Sys.pending, hc]
      cases next <;> rfl
    · rintro a ⟨pack₂, refs₂, l₂, hc₂, hl₂, rfl⟩
      obtain rfl := Conv.waiting.inj (some.inj (hc.symm.trans hc₂))
      obtain ⟨-, rfl⟩ := hl.unique hl₂
      cases next with
      | submit => exact .inl ⟨pack', rfl⟩
      | search name type =>
        refine .inr ⟨⟨pack', rfl⟩, ?_⟩
        rw [map_append, map_cons]
        refine .intro _ _ _ fun k hk => ?_
        obtain ⟨z, hz, rfl⟩ := List.mem_map.1 hk
        exact (hlt z hz).1
  · intro hn
    cases hq : react cfg shm rand x l answer with
    | some q => exact absurd ⟨q, hq⟩ hn
    | none =>
      rw [hq] at hexec
      exact hexec

theorem first_request_spec {name : Str} {port : UInt16} {proto : Proto} {is_sips : Bool}
    {req : Request} (h : first_request cfg name port proto is_sips = some req) :
    req.Named ∧ req.next = none := by
  have hnamed : ∀ x : Request, (∃ len, x.name_len = some len) → x.next = none → some x = some req →
      req.Named ∧ req.next = none := by
    rintro x hlen hx ⟨⟩
    exact ⟨fun _ => hlen, hx⟩
  have hdirect : ∀ x : Request, x.type = .DNS_A_REQUEST → x.next = none → some x = some req →
      req.Named ∧ req.next = none := by
    rintro x ht hx ⟨⟩
    exact ⟨fun hr => absurd hr (by rw [ht]; exact lt_irrefl _), hx⟩
  unfold first_request at h
  dsimp only at h
  split_ifs at h
  all_goals first
    | cases h; done
    | exact hdirect _ rfl rfl h
    | exact hnamed _ ⟨_, rfl⟩ rfl h
    | (cases proto <;> first | cases h; done | exact hnamed _ ⟨_, rfl⟩ rfl h)

theorem Inv.call_step {call : Call} (h : Inv s) (hid : id < n) (hn : s.fresh ≤ n)
    (hidle : ∀ c, s.conv id = some c → ∃ requests, c = .held requests)
    (hf : Objects.Frame refs s.store m')
    (hown : ∀ j d refs' l', j ≠ id → s.conv j = some d → Listed s.store d.requests refs' l' →
      ∀ r ∈ refs, r ∉ refs')
    (hl : Listed m' call.conv.requests refs' l')
    (hfrom : ∀ r ∈ refs', r ∈ refs ∨ s.store.fresh ≤ r) (hnamed : ∀ z ∈ l', z.Named)
    (hcall : (∃ port proto he requests, call = .callback port proto he requests) ∨
      ∃ pack name type, call = .pack pack (.search name type) ∧ pack.requests ≠ none)
    (hop : ∀ id, ¬ op.Answers id) : Step s op (s.put id call.conv m' n) (call.event id) := by
  have hpend : s.pending id = 0 := by
    unfold Sys.pending
    cases hc : s.conv id with
    | none => rfl
    | some c =>
      obtain ⟨requests, rfl⟩ := hidle c hc
      rfl
  refine h.step hid hn hf hown hl hfrom hnamed ?_ ?_ ?_ ?_
  · rintro pack hp
    rcases hcall with ⟨port, proto, he, requests, rfl⟩ | ⟨pack', name, type, rfl, hne⟩
    · cases hp
    · cases hp
      exact hne
  · rintro j (he | he | he)
    · exact (some.inj he).symm
    · rcases hcall with ⟨port, proto, x, requests, rfl⟩ | ⟨pack', name, type, rfl, hne⟩
      · exact (some.inj he).symm
      · cases he
    · exact absurd he (hop j)
  · rw [hpend]
    rcases hcall with ⟨port, proto, he, requests, rfl⟩ | ⟨pack', name, type, rfl, -⟩ <;>
      simp [Call.event, Call.conv, Conv.pending]
  · rintro a ⟨pack, -, -, hc, -⟩
    obtain ⟨requests, he⟩ := hidle _ hc
    cases he

theorem next_he_spec (shm : Bool) {requests : Option Ref} (h : Listed m' requests refs l) :
    ∃ call, next_he shm m' requests = some call ∧ (call = .error ∨ ∃ pack name type,
      call = .pack pack (.search name type) ∧ pack.requests = requests ∧ requests ≠ none) := by
  unfold next_he
  split_ifs
  · cases requests with
    | none => exact ⟨_, rfl, .inl rfl⟩
    | some r =>
      obtain ⟨x, hx⟩ : ∃ x, m'.get r = some x := by
        cases refs with
        | nil => exact absurd h.segment (by simp [Objects.Segment])
        | cons i is =>
          obtain ⟨hi, x, hx, -⟩ := h.segment
          exact ⟨x, some.inj hi ▸ hx⟩
      exact ⟨.pack ⟨none, .PROTO_NONE, NULL, some r⟩ (.search x.name x.type),
        (congrArg (· >>= _) hx).trans rfl, .inr ⟨_, _, _, rfl, rfl, fun h => (by cases h)⟩⟩
  · exact ⟨_, rfl, .inl rfl⟩

theorem listed_none : Listed m' none [] [] := ⟨rfl, nodup_nil, rfl⟩

theorem next_he_step {shm : Bool} {requests : Option Ref} (h : Inv s) (hc : s.conv id = some (.held requests)) :
    ∃ s' e, exec cfg s (.next_he id shm) = some (s', e) ∧ Step s (.next_he id shm) s' e := by
  obtain ⟨refs, l, hl, hnamed⟩ := h.listed id _ hc
  obtain ⟨call, hcall, hkind⟩ := next_he_spec shm hl
  have hexec : exec cfg s (.next_he id shm) = some (s.put id call.conv s.store s.fresh, call.event id) := by
    simp only [exec, hc]
    exact (congrArg (· >>= _) hcall).trans rfl
  have hidle : ∀ c, s.conv id = some c → ∃ requests, c = .held requests := by
    intro c hc'
    rw [hc] at hc'
    exact ⟨requests, (some.inj hc').symm⟩
  rcases hkind with rfl | ⟨pack, name, type, rfl, hp, hne⟩
  · exact ⟨_, _, hexec, h.call_step (h.id_lt hc) (le_rfl) hidle (.refl refs _) (h.own hc hl)
      listed_none (fun _ hr => (by cases hr)) (fun _ hz => (by cases hz))
      (.inl ⟨_, _, _, _, rfl⟩) fun _ h => h⟩
  · exact ⟨_, _, hexec, h.call_step (h.id_lt hc) (le_rfl) hidle (.refl refs _) (h.own hc hl)
      (show Listed s.store pack.requests refs l from hp ▸ hl) (fun _ hr => .inl hr) hnamed
      (.inr ⟨_, _, _, rfl, hp ▸ hne⟩) fun _ h => h⟩

theorem listed_alloc {req : Request} (hnext : req.next = none) :
    Listed (m'.alloc req) (some m'.fresh) [m'.fresh] [req] := by
  refine ⟨⟨rfl, req, Objects.get_alloc_self, hnext⟩, nodup_singleton _, ?_⟩
  rw [map_singleton, Objects.get_alloc_self, map_some, Request.body, body_eq hnext]
  rfl

theorem sip_resolvehost_spec (cfg : Config) (he : Ptr) (shm : Bool × Bool) (m : Objects Request)
    (name : Str) (port : UInt16) (proto : Proto) (is_sips : Bool) :
    ∃ m' call, Resolve.sip_resolvehost cfg he shm m name port proto is_sips = some (m', call) ∧
      Objects.Frame [] m m' ∧
      ((∃ port proto he, call = .callback port proto he none) ∨
        ∃ req, first_request cfg name port proto is_sips = some req ∧
          ¬ (str2ip name ∨ str2ip6 name : Prop) ∧ Listed m' (some m.fresh) [m.fresh] [req] ∧
          call = .pack ⟨none, .PROTO_NONE, NULL, some m.fresh⟩ (.search req.name req.type)) := by
  unfold Resolve.sip_resolvehost
  by_cases hip : (str2ip name ∨ str2ip6 name : Prop)
  · rw [if_pos hip]
    exact ⟨_, _, rfl, .refl _ _, .inl ⟨_, _, _, rfl⟩⟩
  rw [if_neg hip]
  by_cases hshm : ¬ shm.1
  · rw [if_pos hshm]
    exact ⟨_, _, rfl, .refl _ _, .inl ⟨_, _, _, rfl⟩⟩
  · rw [if_neg hshm]
    cases hreq : first_request cfg name port proto is_sips with
    | none => exact ⟨_, _, rfl, .refl _ _, .inl ⟨_, _, _, rfl⟩⟩
    | some req =>
      have hl : Listed (m.alloc req) _ _ _ := listed_alloc (first_request_spec hreq).2
      dsimp only
      rw [next_he]
      by_cases hpack : ¬ shm.2
      · rw [if_pos hpack]
        exact ⟨_, _, rfl, Objects.frame_alloc _ _ _, .inl ⟨_, _, _, rfl⟩⟩
      · rw [if_neg hpack]
        simp only [Objects.get_alloc_self, bind_eq_bind, bind_some]
        exact ⟨_, _, rfl, Objects.frame_alloc _ _ _, .inr ⟨req, rfl, hip, hl, rfl⟩⟩

theorem sip_resolvehost_step {he : Ptr} {shm : Bool × Bool} {name : Str} {port : UInt16}
    {proto : Proto} {is_sips : Bool} (h : Inv s) :
    ∃ s' e, exec cfg s (.sip_resolvehost he shm name port proto is_sips) = some (s', e) ∧
      Step s (.sip_resolvehost he shm name port proto is_sips) s' e := by
  have hnew : s.conv s.fresh = none := h.fresh _ (le_rfl)
  have hidle : ∀ c, s.conv s.fresh = some c → ∃ requests, c = .held requests := by
    intro c hc
    rw [hnew] at hc
    cases hc
  have hown : ∀ j d refs' l', j ≠ s.fresh → s.conv j = some d →
      Listed s.store d.requests refs' l' → ∀ r ∈ ([] : List Ref), r ∉ refs' :=
    fun _ _ _ _ _ _ _ _ hr => by cases hr
  obtain ⟨m', call, hcall, hf, hkind⟩ :=
    sip_resolvehost_spec cfg he shm s.store name port proto is_sips
  refine ⟨_, _, (congrArg (· >>= _) hcall).trans rfl, ?_⟩
  rcases hkind with ⟨port, proto, he, rfl⟩ | ⟨req, hreq, -, hl, rfl⟩
  · exact h.call_step (Nat.lt_succ_self _) (Nat.le_succ _) hidle hf hown listed_none
      (fun _ hr => (by cases hr)) (fun _ hz => (by cases hz)) (.inl ⟨_, _, _, _, rfl⟩) fun _ h => h
  · refine h.call_step (Nat.lt_succ_self _) (Nat.le_succ _) hidle hf hown hl
      (fun r hr => .inr (le_of_eq (mem_singleton.1 hr).symm)) (fun z hz => ?_)
      (.inr ⟨_, _, _, rfl, fun h => (by cases h)⟩) fun _ h => h
    rw [mem_singleton.1 hz]
    exact (first_request_spec hreq).1

theorem quiet_step (h : Inv s) (hp : Proper s op) (hop : ∀ id, ¬ op.Answers id) :
    ∃ s' e, exec cfg s op = some (s', e) ∧ Step s op s' e := by
  cases op with
  | sip_ares_to_dns id shm rand answer => exact absurd rfl (hop id)
  | next_he id shm =>
    obtain ⟨requests, hc⟩ := hp
    exact next_he_step h hc
  | sip_resolvehost he shm name port proto is_sips => exact sip_resolvehost_step h
  | sip_dns_to_user id =>
    obtain ⟨pack, hc⟩ := hp
    obtain ⟨refs, l, hl, hnamed⟩ := h.listed id _ hc
    refine ⟨_, _, by simp only [exec, hc]; rfl, h.step (c := .held pack.requests) (h.id_lt hc)
      (le_rfl) (.refl refs _) (h.own hc hl) hl (fun r hr => .inl hr) hnamed
      (fun p hp' => by cases hp') ?_ ?_ ?_⟩
    · rintro j (he | he | he)
      · cases he
      · exact (some.inj he).symm
      · exact absurd he (hop j)
    · rw [Sys.pending, hc]
      simp [Conv.pending]
    · rintro a ⟨pack', -, -, hc', -⟩
      rw [hc] at hc'
      cases hc'

theorem op_step (h : Inv s) (hp : Proper s op) :
    (GentleOp cfg s op → ∃ s' e, exec cfg s op = some (s', e) ∧ Step s op s' e) ∧
    (¬ GentleOp cfg s op → exec cfg s op = none) := by
  cases op with
  | sip_ares_to_dns id shm rand answer =>
    obtain ⟨pack, hc⟩ := hp
    exact answer_step h hc
  | sip_resolvehost he shm name port proto is_sips =>
    exact ⟨fun _ => quiet_step h hp fun _ h => h, fun hn => absurd trivial hn⟩
  | sip_dns_to_user id => exact ⟨fun _ => quiet_step h hp fun _ h => h, fun hn => absurd trivial hn⟩
  | next_he id shm => exact ⟨fun _ => quiet_step h hp fun _ h => h, fun hn => absurd trivial hn⟩

theorem exec_step {e : Event} (h : Inv s) (hp : Proper s op)
    (he : exec cfg s op = some (s', e)) : Step s op s' e := by
  by_cases hg : GentleOp cfg s op
  · obtain ⟨s₁, e₁, he₁, hs⟩ := (op_step h hp).1 hg
    rw [he] at he₁
    cases he₁
    exact hs
  · rw [(op_step h hp).2 hg] at he
    cases he

theorem Inv.init : Inv Sys.init where
  valid := fun _ _ h => by cases h
  fresh := fun _ _ => rfl
  listed := fun _ _ h => by cases h
  apart := fun _ _ _ _ _ _ _ _ _ h => by cases h
  waiting := fun _ _ h => by cases h

end System

section Lookups

/-- How often each user looked something up, and how often its function was called. -/
structure Seen where
  lookups : ℕ → ℕ
  callbacks : ℕ → ℕ

def Seen.init : Seen := ⟨fun _ => 0, fun _ => 0⟩

def Seen.next (_ : Sys) (g : Seen) (_ : Op) (e : Event) : Seen :=
  ⟨fun id => g.lookups id + if e.lookup = some id then 1 else 0,
    fun id => g.callbacks id + if e.callback = some id then 1 else 0⟩

/-- The library answers every query of a user in the end, and the dispatcher runs every task. -/
def Served (id : ℕ) (run : ℕ → Sys) (ops : ℕ → Op) : Prop :=
  (∀ n pack, (run n).conv id = some (.waiting pack) → ∃ m, n ≤ m ∧ (ops m).Answers id) ∧
  ∀ n pack, (run n).conv id = some (.queued pack) → ∃ m, n ≤ m ∧ ops m = .sip_dns_to_user id

variable {cfg : Config} {run : ℕ → Sys} {ops : ℕ → Op} {events : ℕ → Event} {id n : ℕ}

/-- **A query leads to a call**, after finitely many answers. -/
theorem queued_of_waiting (h : Forever (exec cfg) (fun s op => Proper s op ∧ GentleOp cfg s op) run ops events)
    (h0 : Inv (run 0)) (hs : Served id run ops) {pack : Pack}
    (hw : (run n).conv id = some (.waiting pack)) :
    ∃ m, n ≤ m ∧ ∃ pack, (run m).conv id = some (.queued pack) := by
  have hinv : ∀ n, Inv (run n) :=
    h.invariant h0 fun s op s' e hi ok he => (exec_step hi ok.1 he).inv
  obtain ⟨refs, l, hl, -⟩ := (hinv n).listed id _ hw
  refine eventually_of_rank (replaced_wellFounded Nat.lt_wfRel.wf) run (Ranked · id)
    (fun m => (ops m).Answers id) (fun s => ∃ pack, s.conv id = some (.queued pack)) ?_ ?_
    ⟨pack, refs, l, hw, hl, rfl⟩
  · rintro n a ⟨pack, -, -, hc, -⟩
    exact hs.1 n pack hc
  · intro n a _ ha
    exact (exec_step (hinv n) (h.ok n).1 (h.eq n)).ranked id a ha

theorem callback_of_queued (h : Forever (exec cfg) (fun s op => Proper s op ∧ GentleOp cfg s op) run ops events)
    (hs : Served id run ops) {pack : Pack} (hq : (run n).conv id = some (.queued pack)) :
    ∃ m, n ≤ m ∧ (events m).callback = some id := by
  obtain ⟨m, hm, hop⟩ := hs.2 n pack hq
  refine ⟨m, hm, ?_⟩
  have hok := (h.ok m).1
  have heq := h.eq m
  rw [hop] at hok heq
  obtain ⟨pack', hc⟩ := hok
  simp only [exec, hc, some.injEq, Prod.mk.injEq] at heq
  rw [← heq.2]

/-- **Every lookup calls its user's function once, and nothing goes wrong**, exactly as long as no SRV
reply mixes its records with others and no SRV request for a name without its prefix finds nothing. -/
theorem lookups_call_back {s : Sys} {g : Seen}
    (hr : Run (exec cfg) (fun s _ op => Proper s op ∧ GentleOp cfg s op) Seen.next
      (Sys.init, Seen.init) s g) :
    (∀ id, g.lookups id = g.callbacks id + s.pending id) ∧
    (∀ op, Proper s op → ((∃ s' e, exec cfg s op = some (s', e)) ↔ GentleOp cfg s op)) ∧
    ∀ run ops events,
      Forever (exec cfg) (fun s op => Proper s op ∧ GentleOp cfg s op) run ops events → run 0 = s →
      ∀ id, Served id run ops → ∀ n, 0 < (run n).pending id →
        ∃ m, n ≤ m ∧ (events m).callback = some id := by
  have hinv : Inv s ∧ ∀ id, g.lookups id = g.callbacks id + s.pending id := by
    refine hr.invariant (I := fun s g => Inv s ∧ ∀ id, g.lookups id = g.callbacks id + s.pending id)
      ⟨Inv.init, fun _ => rfl⟩ fun s g op s' e hi ok he => ?_
    have hs := exec_step hi.1 ok.1 he
    refine ⟨hs.inv, fun id => ?_⟩
    have hcount := hs.counts id
    have hi := hi.2 id
    simp only [Seen.next]
    omega
  refine ⟨hinv.2, fun op hp => ⟨?_, ?_⟩, ?_⟩
  · rintro ⟨s', e, he⟩
    refine of_not_not fun hg => ?_
    rw [(op_step hinv.1 hp).2 hg] at he
    cases he
  · intro hg
    obtain ⟨s', e, he, -⟩ := (op_step hinv.1 hp).1 hg
    exact ⟨s', e, he⟩
  · intro run ops events hf h0 id hs n hn
    unfold Sys.pending at hn
    cases hc : (run n).conv id with
    | none =>
      rw [hc] at hn
      exact absurd hn (lt_irrefl _)
    | some c =>
      rw [hc] at hn
      cases c with
      | held requests => exact absurd hn (lt_irrefl _)
      | queued pack => exact callback_of_queued hf hs hc
      | waiting pack =>
        obtain ⟨m, hm, pack', hq⟩ := queued_of_waiting hf (h0 ▸ hinv.1) hs hc
        obtain ⟨k, hk, he⟩ := callback_of_queued hf hs hq
        exact ⟨k, le_trans hm hk, he⟩

/-- A record for SIP over UDP whose replacement `a` is shorter than the prefix of an SRV name. -/
def naptr_a : NaptrRdata :=
  ⟨0, 0, [chr 's'], "SIP+D2U".toList.map chr, [], [chr 'a', 0], 3⟩

def plain : Config := ⟨true, false, false, false, true, true, false⟩

/-- A user looks up `x`, and the library finds the record. -/
def lookup_x : Op := .sip_resolvehost 1 (true, true) [chr 'x'] 0 .PROTO_NONE false

def naptr_reply : Op :=
  .sip_ares_to_dns 0 (fun _ => true) (fun _ _ => 0) (.ARES_SUCCESS ⟨none, none, [.T_NAPTR naptr_a]⟩)

def no_reply : Op := .sip_ares_to_dns 0 (fun _ => true) (fun _ _ => 0) .ARES_ENODATA

theorem lookups_call_back_x : ∃ s g,
    Run (exec plain) (fun s _ op => Proper s op ∧ GentleOp plain s op) Seen.next
      (Sys.init, Seen.init) s g ∧ g.lookups 0 = g.callbacks 0 + s.pending 0 ∧ s.pending 0 = 1 := by
  have hr : Run (exec plain) (fun s _ op => Proper s op ∧ GentleOp plain s op) Seen.next
      (Sys.init, Seen.init) _ _ :=
    .step .init (show Proper Sys.init lookup_x ∧ GentleOp plain Sys.init lookup_x from
      ⟨trivial, trivial⟩) rfl
  exact ⟨_, _, hr, (lookups_call_back hr).1 0, rfl⟩

/-- The SRV request for `a` finds nothing, and `srv_2_a` takes more off the name than there is. -/
theorem lookup_short_replacement : ∃ s g,
    Run (exec plain) (fun s _ op => Proper s op) Seen.next (Sys.init, Seen.init) s g ∧
      Proper s no_reply ∧ exec plain s no_reply = none := by
  have h₁ : Run (exec plain) (fun s _ op => Proper s op) Seen.next (Sys.init, Seen.init) _ _ :=
    .step .init (show Proper Sys.init lookup_x from trivial) rfl
  have h₂ := h₁.step (show Proper _ naptr_reply from ⟨_, rfl⟩) rfl
  exact ⟨_, _, h₂, ⟨_, rfl⟩, rfl⟩

end Lookups

end OpenSips.Resolve
