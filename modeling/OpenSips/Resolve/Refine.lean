import OpenSips.Resolve.Model

/-!
# OpenSips.Resolve.Refine — the requests of a lookup as a list

What an answer does to the requests that are still to be tried is a function on lists of requests;
the linked list in memory follows it, and touches no other requests.
-/

namespace OpenSips.Resolve

open Lib List Option

/-- A request without its link. -/
def Request.body (x : Request) : Request := { x with next := none }

/-- From the pointer `p` on the requests at `refs` are linked, and `l` are their contents. -/
structure Listed (m : Objects Request) (p : Option Ref) (refs : List Ref) (l : List Request) :
    Prop where
  segment : Objects.Segment Request.next m p refs none
  nodup : refs.Nodup
  contents : refs.map (fun r => (m.get r).map Request.body) = l.map some

section Lists

def allotted (shm : ℕ → Bool) : ℕ → List Request → List Request × Bool
  | _, [] => ([], true)
  | n, new :: rest =>
    if shm n then
      let (news, ok) := allotted shm (n + 1) rest
      (new :: news, ok)
    else ([], false)

theorem allotted_sub {shm : ℕ → Bool} {n : ℕ} {news : List Request} {x : Request}
    (h : x ∈ (allotted shm n news).1) : x ∈ news := by
  induction news generalizing n with
  | nil => exact h
  | cons y news ih =>
    rw [allotted] at h
    split_ifs at h
    · rcases mem_cons.1 h with rfl | h
      · exact mem_cons_self
      · exact mem_cons_of_mem _ (ih h)
    · cases h

/-- `direct_a` on a list. -/
def react_direct_a (cfg : Config) (req : Request) (rest : List Request) :
    Option (List Request × Option Ptr) :=
  (srv_2_a cfg { req with port := some (default_port req.is_sips req.proto) }).map fun req =>
    (req :: rest, none)

def react_add (shm : ℕ → Bool) (news rest : List Request) : List Request × Option Ptr :=
  ((allotted shm 0 news).1 ++ rest, if (allotted shm 0 news).2 then none else some NULL)

/-- `on_success` on a list. -/
def react_success (cfg : Config) (shm : ℕ → Bool) (rand : ℕ → ℕ → ℕ) (req : Request)
    (rest : List Request) (reply : Reply) : Option (List Request × Option Ptr) :=
  match req.type with
  | .DNS_A_REQUEST | .DNS_AAAA_REQUEST => some (rest, reply.he req.type)
  | .DNS_SRV_REQUEST =>
    if reply.records = [] then some (rest, none)
    else
      (sort_srvs rand 0 reply.records).map fun head =>
        react_add shm (srv_requests cfg req req.proto head) rest
  | .DNS_NAPTR_REQUEST =>
    if reply.records = [] then some (rest, none)
    else
      some (react_add shm (naptr_requests cfg req (filter_and_sort_naptr cfg req.is_sips []
        reply.records)) rest)

/-- `on_no_data` on a list. -/
def react_no_data (cfg : Config) (req : Request) (rest : List Request) :
    Option (List Request × Option Ptr) :=
  match req.type with
  | .DNS_A_REQUEST | .DNS_AAAA_REQUEST => some (rest, none)
  | .DNS_NAPTR_REQUEST =>
    let req := set_default_proto req
    match natpr_2_srv cfg req with
    | none => none
    | some (some req) => some (req :: rest, none)
    | some none => react_direct_a cfg req rest
  | .DNS_SRV_REQUEST => react_direct_a cfg req rest

/-- What an answer for `req` does: the requests to be tried next, and the host entry for the user
unless the search goes on. -/
def react (cfg : Config) (shm : ℕ → Bool) (rand : ℕ → ℕ → ℕ) (req : Request) (rest : List Request)
    (answer : Answer) : Option (List Request × Option Ptr) :=
  match answer with
  | .ARES_SUCCESS reply => react_success cfg shm rand req rest reply
  | .ARES_ENODATA | .ARES_ENOTFOUND => react_no_data cfg req rest
  | .other => some (rest, none)

/-- What follows: a query for the first request, or the task that calls the user's function. -/
def follow (l : List Request) (found : Option Ptr) : Next :=
  match found, l with
  | none, x :: _ => .search x.name x.type
  | _, _ => .submit

end Lists

section Linked

open Objects

variable {m m' : Objects Request} {p : Option Ref} {refs done old : List Ref}
  {l ld lo news : List Request} {r : Ref} {x y : Request} {pack : Pack}

@[simp] theorem body_body : x.body.body = x.body := rfl

theorem Listed.head (h : Listed m p (r :: refs) (x :: l)) :
    p = some r ∧ ∃ y, m.get r = some y ∧ y.body = x ∧ Listed m y.next refs l := by
  obtain ⟨hp, y, hy, hs⟩ := h.segment
  have hc := h.contents
  rw [map_cons, map_cons, hy] at hc
  obtain ⟨hb, hc⟩ := cons.inj hc
  exact ⟨hp, y, hy, some.inj hb, hs, (nodup_cons.1 h.nodup).2, hc⟩

theorem Listed.nil_iff (h : Listed m p refs l) : p = none ↔ l = [] := by
  have hlen := congrArg List.length h.contents
  rw [length_map, length_map] at hlen
  cases refs with
  | nil =>
    obtain rfl : l = [] := length_eq_zero_iff.1 hlen.symm
    exact ⟨fun _ => rfl, fun _ => h.segment⟩
  | cons r refs =>
    refine ⟨fun hp => ?_, fun hl => ?_⟩
    · rw [h.segment.1] at hp
      cases hp
    · subst hl
      cases hlen

theorem Listed.unique {refs' : List Ref} {l' : List Request} (h : Listed m p refs l)
    (h' : Listed m p refs' l') : refs = refs' ∧ l = l' := by
  obtain rfl := h.segment.unique h'.segment
  exact ⟨rfl, map_injective_iff.2 (some_injective _) (h.contents.symm.trans h'.contents)⟩

theorem Listed.frame (h : Listed m p refs l) (hf : Frame old m m') (hv : m.Valid)
    (hd : ∀ r ∈ refs, r ∉ old) : Listed m' p refs l := by
  refine ⟨h.segment.frame hf hv hd, h.nodup, ?_⟩
  rw [← h.contents]
  refine map_congr_left fun r hr => ?_
  obtain ⟨y, hy⟩ := h.segment.live hr
  rw [hf.get r (hd r hr) (hv r y hy)]

theorem Listed.lt_fresh (h : Listed m p refs l) (hv : m.Valid) (hr : r ∈ refs) : r < m.fresh := by
  obtain ⟨y, hy⟩ := h.segment.live hr
  exact hv r y hy

/-- **Adding one request** behind those that were added before it. -/
theorem add_request_spec (hv : m.Valid)
    (h : Listed m pack.requests (done ++ old) (ld ++ lo)) (hlen : done.length = ld.length)
    (x : Request) : ∃ m' pack', add_request m pack done.getLast? x = some (m', pack', some m.fresh) ∧
      pack' = { pack with requests := pack'.requests } ∧ Frame done m m' ∧
      m'.fresh = m.fresh + 1 ∧
      Listed m' pack'.requests ((done ++ [m.fresh]) ++ old) ((ld ++ [x.body]) ++ lo) := by
  have hfresh : m.fresh ∉ done ++ old := fun hmem => lt_irrefl _ (h.lt_fresh hv hmem)
  have hnd : ((done ++ [m.fresh]) ++ old).Nodup := by
    rw [append_assoc]
    exact (perm_middle.nodup_iff).2 (nodup_cons.2 ⟨hfresh, h.nodup⟩)
  have hc := h.contents
  rw [map_append, map_append] at hc
  obtain ⟨hcd, hco⟩ := append_inj hc (by simpa using hlen)
  rcases eq_nil_or_concat done with rfl | ⟨d, r, rfl⟩
  · -- in front of all others
    obtain rfl : ld = [] := length_eq_zero_iff.1 hlen.symm
    have hold : Listed (m.alloc { x with next := pack.requests }) pack.requests old lo :=
      h.frame (frame_alloc [] m _) hv fun _ _ => not_mem_nil
    refine ⟨_, _, rfl, rfl, frame_alloc _ _ _, rfl, ⟨rfl, _, get_alloc_self, hold.segment⟩, hnd, ?_⟩
    rw [append_assoc, nil_append, singleton_append, map_cons, get_alloc_self, hold.contents]
    rfl
  · -- behind the last one
    rw [concat_eq_append] at *
    have hr : r ∈ d ++ [r] := mem_append_right _ (mem_singleton_self r)
    obtain ⟨s, hs, hs'⟩ := segment_append.1 h.segment
    obtain ⟨y, hy⟩ := hs.live hr
    obtain ⟨_, _, _, y', hy', hnext⟩ := segment_append.1 hs
    obtain rfl : y.next = s := by
      rw [hy] at hy'
      cases hy'
      exact hnext
    have hy1 : (m.alloc { x with next := y.next }).get r = some y := (get_alloc (hv.ne_fresh hy)).trans hy
    obtain ⟨m2, e2, hf2, hr2, hsame, hfr2⟩ := set_spec hy1 { y with next := some m.fresh }
    have hf : Frame (d ++ [r]) m m2 := (frame_alloc _ m _).trans hf2 fun i hi _ => mem_singleton.1 hi ▸ hr
    have hdn : r ∉ d := by
      have := (nodup_append.1 (nodup_append.1 h.nodup).1).2.2
      exact fun hmem => this r hmem r (mem_singleton_self r) rfl
    have hd : ∀ i ∈ d, m2.get i = m.get i := by
      intro i hi
      rw [hsame i fun e => hdn (e ▸ hi)]
      exact get_alloc fun e => hfresh (e ▸ mem_append_left _ (mem_append_left _ hi))
    have hnew : m2.get m.fresh = some { x with next := y.next } := by
      rw [hsame _ (hv.ne_fresh hy).symm]
      exact get_alloc_self
    have hdisj : ∀ i ∈ old, i ∉ d ++ [r] := fun i hi hmem => (nodup_append.1 h.nodup).2.2 i hmem i hi rfl
    have hold : Segment Request.next m2 y.next old none := hs'.frame hf hv hdisj
    refine ⟨m2, pack, ?_, rfl, hf, hfr2, ?_, hnd, ?_⟩
    · rw [getLast?_concat]
      simp only [add_request, hy, e2, bind_eq_bind, bind_some]
    · rw [append_assoc]
      exact segment_append.2 ⟨some m.fresh, hs.relink hr2 hd, rfl, _, hnew, hold⟩
    · have hdone : (d ++ [r]).map (fun i => (m2.get i).map Request.body) = ld.map some := by
        rw [← hcd]
        refine map_congr_left fun i hi => ?_
        rcases mem_append.1 hi with hi | hi
        · rw [hd i hi]
        · rw [mem_singleton.1 hi, hr2, hy]
          rfl
      have holds : old.map (fun i => (m2.get i).map Request.body) = lo.map some := by
        rw [← hco]
        refine map_congr_left fun i hi => ?_
        obtain ⟨z, hz⟩ := hs'.live hi
        rw [hf.get i (hdisj i hi) (hv i z hz)]
      rw [map_append, map_append, hdone, holds, map_singleton, hnew, map_append, map_append]
      rfl

/-- Adding requests: those that can be allocated are listed behind `done`. -/
theorem add_requests_spec {shm : ℕ → Bool} {n : ℕ} (hv : m.Valid)
    (h : Listed m pack.requests (done ++ old) (ld ++ lo)) (hlen : done.length = ld.length)
    (news : List Request) : ∃ m' pack' new,
      add_requests shm n m pack done.getLast? news = some (m', pack', (allotted shm n news).2) ∧
      pack' = { pack with requests := pack'.requests } ∧ Frame done m m' ∧
      (∀ r ∈ new, m.fresh ≤ r) ∧ Listed m' pack'.requests ((done ++ new) ++ old)
        ((ld ++ (allotted shm n news).1.map Request.body) ++ lo) := by
  induction news generalizing n m pack done ld with
  | nil =>
    refine ⟨m, pack, [], rfl, rfl, .refl _ _, fun _ hr => (by cases hr), ?_⟩
    simpa [allotted] using h
  | cons x news ih =>
    rw [add_requests, allotted]
    by_cases hs : shm n = true
    · obtain ⟨m1, pack1, e, hp1, hf1, hfr1, h1⟩ := add_request_spec hv h hlen x
      obtain ⟨m', pack', new, e', hp', hf', hnew, h'⟩ := ih (n := n + 1) (hf1.valid hv) h1 (by simp [hlen])
      rw [getLast?_concat] at e'
      refine ⟨m', pack', m.fresh :: new, ?_, by rw [hp', hp1], hf1.trans hf' ?_, ?_, ?_⟩
      · simp only [if_pos hs, e, e', bind_eq_bind, bind_some]
      · intro r hr hlt
        rcases mem_append.1 hr with hr | hr
        · exact hr
        · exact absurd hlt (mem_singleton.1 hr ▸ lt_irrefl _)
      · intro r hr
        rcases mem_cons.1 hr with rfl | hr
        · exact le_rfl
        · exact le_trans (by omega) (hnew r hr)
      · simpa [if_pos hs, append_assoc] using h'
    · refine ⟨m, pack, [], ?_, rfl, .refl _ _, fun _ hr => (by cases hr), ?_⟩
      · simp only [if_neg hs]
      · simpa [if_neg hs] using h

/-- What an answer leaves behind, given what it does to the list of requests: the memory outside of the
lookup is as before, and the list is linked in it. -/
structure After (m : Objects Request) (refs : List Ref) (x : Request) (l : List Request)
    (found : Option Ptr) (out : Objects Request × Pack × Next) : Prop where
  frame : Frame refs m out.1
  listed : ∃ refs', Listed out.1 out.2.1.requests refs' l ∧ ∀ r ∈ refs', r ∈ refs ∨ m.fresh ≤ r
  port : out.2.1.port = x.port
  proto : out.2.1.proto = x.proto
  next : out.2.2 = follow l found
  he : out.2.2 = .submit → out.2.1.he = found.getD NULL

section After

variable {m1 : Objects Request} {refs' : List Ref} {req : Option Ref} {z : Request}
  {found : Option Ptr}

theorem free_request_spec (hv : m.Valid) (hf : Frame (r :: refs) m m1) (hl : Listed m1 p refs' l)
    (hreq : req = none ∨ req = some r ∧ r ∉ refs' ∧ m1.get r = some z) :
    ∃ m2, free_request m1 req = some m2 ∧ Frame (r :: refs) m m2 ∧ Listed m2 p refs' l := by
  rcases hreq with rfl | ⟨rfl, hr, hz⟩
  · exact ⟨m1, rfl, hf, hl⟩
  · obtain ⟨m2, e, hf2, -⟩ := free_spec hz
    refine ⟨m2, e, hf.trans hf2 fun i hi _ => mem_singleton.1 hi ▸ mem_cons_self, ?_⟩
    exact hl.frame hf2 (hf.valid hv) fun i hi hmem => hr (mem_singleton.1 hmem ▸ hi)

variable (hv : m.Valid) (hf : Frame (r :: refs) m m1) (hl : Listed m1 pack.requests refs' l)
  (hnew : ∀ i ∈ refs', i ∈ r :: refs ∨ m.fresh ≤ i) (hport : pack.port = x.port)
  (hproto : pack.proto = x.proto)
  (hreq : req = none ∨ req = some r ∧ r ∉ refs' ∧ m1.get r = some z)

include hv hf hl hnew hport hproto hreq

theorem error_spec : ∃ out, error m1 pack req = some out ∧ After m (r :: refs) x l (some NULL) out := by
  obtain ⟨m2, e, hf2, hl2⟩ := free_request_spec hv hf hl hreq
  refine ⟨_, by rw [error, e]; rfl, hf2, ⟨refs', hl2, hnew⟩, hport, hproto, ?_, fun _ => rfl⟩
  cases l <;> rfl

variable (pack req z) in
theorem search_again_spec :
    ∃ out, search_again m1 pack req = some out ∧ After m (r :: refs) x l none out := by
  obtain ⟨m2, e, hf2, hl2⟩ := free_request_spec hv hf hl hreq
  cases l with
  | nil =>
    obtain ⟨out, e', ha⟩ := error_spec hv hf hl hnew hport hproto hreq
    exact ⟨out, by rw [search_again, hl.nil_iff.2 rfl]; exact e', ha.frame, ha.listed, ha.port,
      ha.proto, ha.next, ha.he⟩
  | cons y l =>
    obtain ⟨i, is, rfl⟩ : ∃ i is, refs' = i :: is := by
      cases refs' with
      | nil => exact absurd (hl.nil_iff.1 hl.segment) (by simp)
      | cons i is => exact ⟨i, is, rfl⟩
    obtain ⟨hp, y', hy', rfl, -⟩ := hl.head
    refine ⟨(m2, pack, .search y'.name y'.type), ?_, hf2, ⟨_, hl2, hnew⟩, hport, hproto, rfl,
      fun h => by cases h⟩
    simp only [search_again, hp, hy', e, bind_eq_bind, bind_some]

end After

def Agree (m : Objects Request) (refs : List Ref) (x : Request) :
    Option (List Request × Option Ptr) → Option (Objects Request × Pack × Next) → Prop
  | none, out => out = none
  | some q, out => ∃ o, out = some o ∧ After m refs x q.1 q.2 o

section Names

variable {cfg : Config} {q : Option Ref} {z : Request}

theorem unprefix_name_next (pre : Str) :
    unprefix_name { x with next := q } pre = (unprefix_name x pre).map fun z => { z with next := q } := by
  unfold unprefix_name
  cases x.name_len with
  | none => rfl
  | some len =>
    simp only [bind_eq_bind, bind_some]
    split_ifs <;> rfl

theorem srv_2_a_next (cfg : Config) (x : Request) (q : Option Ref) :
    srv_2_a cfg { x with next := q } = (srv_2_a cfg x).map fun z => { z with next := q } := by
  simp only [srv_2_a, unprefix_name_next, bind_eq_bind]
  split_ifs
  · cases unprefix_name x (srv_prefix_of cfg x.proto) <;> rfl
  · rfl

theorem natpr_2_srv_next (cfg : Config) (x : Request) (q : Option Ref) :
    natpr_2_srv cfg { x with next := q } =
    (natpr_2_srv cfg x).map fun z => z.map fun z => { z with next := q } := by
  obtain ⟨type, name, name_len, is_sips, port, proto, next⟩ := x
  cases name_len with
  | none => rfl
  | some len =>
    unfold natpr_2_srv
    simp only [bind_eq_bind, bind_some]
    split_ifs
    · rfl
    all_goals cases proto <;> rfl

theorem body_eq (hx : x.next = none) : { x with next := none } = x := by rw [← hx]

theorem srv_2_a_body (hx : x.next = none) (h : srv_2_a cfg x = some z) : z.body = z := by
  have hn := srv_2_a_next cfg x none
  rw [body_eq hx, h] at hn
  exact (some.inj hn).symm

theorem natpr_2_srv_body (hx : x.next = none) (h : natpr_2_srv cfg x = some (some z)) : z.body = z := by
  have hn := natpr_2_srv_next cfg x none
  rw [body_eq hx, h] at hn
  exact (some.inj (some.inj hn)).symm

end Names

section Refines

variable {cfg : Config} {shm : ℕ → Bool} {rand : ℕ → ℕ → ℕ} {q : Option Ref} {z : Request}

theorem reuse_spec (hv : m.Valid) (h : Listed m p (r :: refs) (x :: l))
    (hy : m.get r = some y) (hz : z.next = y.next) : ∃ m', m.set r z = some m' ∧
      Frame (r :: refs) m m' ∧ Listed m' p (r :: refs) (z.body :: l) := by
  obtain ⟨hp, y', hy', rfl, hrest⟩ := h.head
  obtain rfl : y' = y := by
    rw [hy] at hy'
    exact (some.inj hy').symm
  obtain ⟨m', e, hf, hr, hsame, -⟩ := set_spec hy z
  have hnot : r ∉ refs := (nodup_cons.1 h.nodup).1
  have hrest' : Listed m' y'.next refs l :=
    hrest.frame hf hv fun i hi hmem => hnot (mem_singleton.1 hmem ▸ hi)
  refine ⟨m', e, hf.mono fun i hi => mem_singleton.1 hi ▸ mem_cons_self,
    ⟨hp, z, hr, hz ▸ hrest'.segment⟩, h.nodup, ?_⟩
  rw [map_cons, map_cons, hr, hrest'.contents]
  rfl

theorem direct_a_refines (hv : m.Valid) (h : Listed m pack.requests (r :: refs) (x :: l))
    (hy : m.get r = some y) (hport : pack.port = x.port) (hproto : pack.proto = x.proto)
    (hz : z.next = none) :
    Agree m (r :: refs) x (react_direct_a cfg z l) (direct_a cfg m pack r { z with next := y.next }) := by
  have hnext := srv_2_a_next cfg { z with port := some (default_port z.is_sips z.proto) } y.next
  unfold react_direct_a direct_a
  cases hs : srv_2_a cfg { z with port := some (default_port z.is_sips z.proto) } with
  | none =>
    rw [hs] at hnext
    exact (congrArg (· >>= _) hnext).trans rfl
  | some w =>
    rw [hs] at hnext
    have hw : w.body = w := srv_2_a_body (x := { z with port := some (default_port z.is_sips z.proto) }) hz hs
    obtain ⟨m', e, hf, hl⟩ := reuse_spec (z := { w with next := y.next }) hv h hy rfl
    obtain ⟨out, e', ha⟩ := search_again_spec pack none y hv hf hl (fun i hi => .inl hi)
      hport hproto (.inl rfl)
    refine ⟨out, ?_, hw ▸ ha⟩
    exact (congrArg (· >>= _) hnext).trans ((congrArg (· >>= _) e).trans e')

theorem srv_requests_body {req : Request} {proto : Proto} {srvs : List SrvRdata}
    (hz : z ∈ srv_requests cfg req proto srvs) : z.body = z := by
  obtain ⟨srv, -, hz⟩ := mem_flatMap.1 hz
  obtain ⟨type, -, rfl⟩ := List.mem_map.1 hz
  rfl

theorem naptr_requests_body {req : Request} {ns : List NaptrRdata}
    (hz : z ∈ naptr_requests cfg req ns) : z.body = z := by
  obtain ⟨n, -, rfl⟩ := List.mem_map.1 hz
  rfl

theorem add_refines (pack : Pack) (hv : m.Valid) (hy : m.get r = some y)
    (hrest : Listed m pack.requests refs l) (hnot : r ∉ refs) (hport : pack.port = x.port) (hproto : pack.proto = x.proto)
    {news : List Request} (hnews : ∀ z ∈ news, z.body = z) :
    Agree m (r :: refs) x (some (react_add shm news l)) (do
      let (m, pack, ok) ← add_requests shm 0 m pack none news
      if ok then search_again m pack (some r) else error m pack (some r)) := by
  obtain ⟨m1, pk1, new, e, hpk1, hf, hfresh, hl⟩ :=
    @add_requests_spec m [] refs [] l pack shm 0 hv hrest rfl news
  have hbody : (allotted shm 0 news).1.map Request.body = (allotted shm 0 news).1 :=
    (map_congr_left fun z hz => hnews z (allotted_sub hz)).trans (List.map_id _)
  rw [hbody] at hl
  have hr1 : m1.get r = some y := (hf.get r not_mem_nil (hv r y hy)).trans hy
  have hrnew : r ∉ new ++ refs := by
    intro hmem
    rcases mem_append.1 hmem with hmem | hmem
    · exact absurd (hv r y hy) (not_lt.2 (hfresh r hmem))
    · exact hnot hmem
  have hfrom : ∀ i ∈ new ++ refs, i ∈ r :: refs ∨ m.fresh ≤ i := by
    intro i hi
    rcases mem_append.1 hi with hi | hi
    · exact .inr (hfresh i hi)
    · exact .inl (mem_cons_of_mem _ hi)
  have hf' : Frame (r :: refs) m m1 := hf.mono fun i hi => by cases hi
  have hport1 : pk1.port = x.port := by rw [hpk1]; exact hport
  have hproto1 : pk1.proto = x.proto := by rw [hpk1]; exact hproto
  simp only [getLast?_nil] at e
  simp only [e, bind_eq_bind, bind_some, react_add]
  cases (allotted shm 0 news).2 with
  | true => exact search_again_spec pk1 _ _ hv hf' hl hfrom hport1 hproto1 (.inr ⟨rfl, hrnew, hr1⟩)
  | false => exact error_spec hv hf' hl hfrom hport1 hproto1 (.inr ⟨rfl, hrnew, hr1⟩)

section Answers

variable (hv : m.Valid) (h : Listed m pack.requests (r :: refs) (x :: l)) (hy : m.get r = some y)
  (hport : pack.port = x.port) (hproto : pack.proto = x.proto)

include hv h hy hport hproto

theorem skip_refines : Agree m (r :: refs) x (some (l, none))
    (search_again m { pack with requests := y.next } (some r)) := by
  obtain ⟨-, y', hy', rfl, hrest⟩ := h.head
  obtain rfl : y' = y := some.inj (hy'.symm.trans hy)
  exact search_again_spec { pack with requests := y'.next } _ _ hv (.refl _ _) hrest
    (fun i hi => .inl (mem_cons_of_mem _ hi)) hport hproto
    (.inr ⟨rfl, (nodup_cons.1 h.nodup).1, hy⟩)

theorem on_success_refines (reply : Reply) : Agree m (r :: refs) x
    (react_success cfg shm rand x l reply) (on_success cfg shm rand m pack r y reply) := by
  have hskip := skip_refines hv h hy hport hproto
  obtain ⟨-, y', hy', rfl, hrest⟩ := h.head
  obtain rfl : y' = y := some.inj (hy'.symm.trans hy)
  have hnot : r ∉ refs := (nodup_cons.1 h.nodup).1
  have hfound : ∀ he, Agree m (r :: refs) y'.body (some (l, some he)) (do
        some (← free_request m (some r), { pack with requests := y'.next, he := he }, .submit)) := by
    intro he
    obtain ⟨m2, e, hf2, hl2⟩ := free_request_spec hv (.refl _ _) hrest (.inr ⟨rfl, hnot, hy⟩)
    refine ⟨_, by rw [e]; rfl, hf2, ⟨refs, hl2, fun i hi => .inl (mem_cons_of_mem _ hi)⟩,
      hport, hproto, ?_, fun _ => rfl⟩
    cases l <;> rfl
  have hadd : ∀ news : List Request, (∀ z ∈ news, z.body = z) → Agree m (r :: refs) y'.body
      (some (react_add shm news l)) (do
        let (m, pack, ok) ← add_requests shm 0 m { pack with requests := y'.next } none news
        if ok then search_again m pack (some r) else error m pack (some r)) :=
    fun news hnews => add_refines { pack with requests := y'.next } hv hy hrest hnot hport
      hproto hnews
  unfold react_success on_success
  rw [show y'.body.type = y'.type from rfl]
  cases y'.type with
  | DNS_A_REQUEST | DNS_AAAA_REQUEST =>
    cases reply.he _ with
    | none => exact hskip
    | some he => exact hfound he
  | DNS_SRV_REQUEST =>
    split_ifs
    · exact hskip
    · cases sort_srvs rand 0 reply.records with
      | none => rfl
      | some head =>
        rw [← hproto]
        exact hadd (srv_requests cfg y' pack.proto head) fun z hz => srv_requests_body hz
  | DNS_NAPTR_REQUEST =>
    split_ifs
    · exact hskip
    · exact hadd (naptr_requests cfg y' _) fun z hz => naptr_requests_body hz

theorem on_no_data_refines : Agree m (r :: refs) x (react_no_data cfg x l) (on_no_data cfg m pack r y) := by
  have hskip := skip_refines hv h hy hport hproto
  have hdirect : ∀ z : Request, z.next = none → Agree m (r :: refs) x (react_direct_a cfg z l)
      (direct_a cfg m pack r { z with next := y.next }) :=
    fun z hz => direct_a_refines hv h hy hport hproto hz
  obtain ⟨-, y', hy', rfl, -⟩ := h.head
  obtain rfl : y' = y := some.inj (hy'.symm.trans hy)
  unfold react_no_data on_no_data
  rw [show y'.body.type = y'.type from rfl]
  cases y'.type with
  | DNS_A_REQUEST => exact hskip
  | DNS_AAAA_REQUEST => exact hskip
  | DNS_SRV_REQUEST => exact hdirect y'.body rfl
  | DNS_NAPTR_REQUEST =>
    obtain ⟨x', hx'⟩ : ∃ x', x' = set_default_proto y'.body := ⟨_, rfl⟩
    have hn : x'.next = none := by rw [hx']; rfl
    have hy' : set_default_proto y' = { x' with next := y'.next } := by rw [hx']; rfl
    dsimp only
    rw [hy', natpr_2_srv_next cfg x' y'.next, ← hx']
    cases hs : natpr_2_srv cfg x' with
    | none => rfl
    | some o =>
      cases o with
      | none => exact hdirect x' hn
      | some z =>
        have hz : z.body = z := natpr_2_srv_body hn hs
        obtain ⟨m', e, hf, hl⟩ := reuse_spec (z := { z with next := y'.next }) hv h hy rfl
        obtain ⟨out, e', ha⟩ := search_again_spec pack none y' hv hf hl
          (fun i hi => .inl hi) hport hproto (.inl rfl)
        refine ⟨out, ?_, hz ▸ ha⟩
        exact (congrArg (· >>= _) e).trans e'

end Answers

/-- **The refinement**: what an answer does in memory is what it does to the list. -/
theorem sip_ares_to_dns_refines (cfg : Config) (shm : ℕ → Bool) (rand : ℕ → ℕ → ℕ)
    (hv : m.Valid) (h : Listed m pack.requests (r :: refs) (x :: l)) (answer : Answer) : Agree m (r :: refs) x (react cfg shm rand x l answer)
      (sip_ares_to_dns cfg shm rand m pack answer) := by
  obtain ⟨hp, y, hy, hx, -⟩ := h.head
  obtain ⟨pk, hpk⟩ : ∃ pk, pk = { pack with port := y.port, proto := y.proto } := ⟨_, rfl⟩
  have h' : Listed m pk.requests (r :: refs) (x :: l) := by rw [hpk]; exact h
  have hport : pk.port = x.port := by rw [hpk, ← hx]; rfl
  have hproto : pk.proto = x.proto := by rw [hpk, ← hx]; rfl
  have hstart : sip_ares_to_dns cfg shm rand m pack answer = match answer with
      | .ARES_SUCCESS reply => on_success cfg shm rand m pk r y reply
      | .ARES_ENODATA | .ARES_ENOTFOUND => on_no_data cfg m pk r y
      | .other => search_again m { pk with requests := y.next } (some r) := by
    rw [sip_ares_to_dns, hpk]
    simp only [hp, hy, bind_eq_bind, bind_some] <;> rfl
  rw [hstart]
  cases answer with
  | ARES_SUCCESS reply => exact on_success_refines hv h' hy hport hproto reply
  | ARES_ENODATA => exact on_no_data_refines hv h' hy hport hproto
  | ARES_ENOTFOUND => exact on_no_data_refines hv h' hy hport hproto
  | other => exact skip_refines hv h' hy hport hproto

end Refines

end Linked

end OpenSips.Resolve
