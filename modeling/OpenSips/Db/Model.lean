import OpenSips.Lib.Threads
import OpenSips.Str

/-!
# OpenSips.Db.Model — queries and connections (`core/db/db_core.c`)

What runs under the lock of a pool is one turn.  A query that was given a connection (`q->item`, which
is written once) is written with it.  A task that the dispatcher or a reactor has is a thread at its
first point, and so is a result that waits to be finalised.  The contents of queries and results, and
`use_table`, are left out.
-/

namespace OpenSips.Db

open Lib

inductive OpType where
  | OP_QUERY | OP_RAW | OP_INSERT | OP_DELETE | OP_UPDATE | OP_INSERT_UPDATE
  deriving DecidableEq

/-- What does not change: the type of a query, whether it has a `ps_idx` and which pool it is submitted
to; the pool of a connection; and the pools whose driver has no `socket` function. -/
structure Env where
  type : Ref → OpType
  ps_idx : Ref → Bool
  pool : Ref → ℕ
  item_pool : Ref → ℕ
  blocking : ℕ → Bool

/-- The query has a result. -/
def Env.fetches (env : Env) (q : Ref) : Bool := env.type q = .OP_QUERY || env.type q = .OP_RAW

/-- A query and its `item`. -/
structure Active where
  q : Ref
  item : Ref
  deriving DecidableEq

/-- What a thread does behind `db_submit_item`: a worker waits for the next query, the call in
`unpack_result` is followed by the callback, and that in `continue_query` by `unpack_result`. -/
inductive After where
  | worker (q : Ref) | callback (q : Ref) | unpack (x : Active)
  deriving DecidableEq

inductive Pc where
  -- `work` has taken the query
  | send_query (x : Active)
  -- and has put it on the dispatcher
  | posted (x : Active)
  | db_submit_item (item : Ref) (after : After)
  -- `unpack_result`; there is a result or not
  | unpack_result (x : Active) (res : Bool)
  | callback (q : Ref)
  | shm_free (q : Ref)
  | continue_query (x : Active)
  -- a result that was given to the user
  | result (item : Ref)
  deriving DecidableEq

/-- What the driver answers: the return code, and whether there is a result. -/
structure Answer where
  ret : ℤ
  res : Bool
  deriving DecidableEq

/-- The pools and the list `waiting`, and, from `submitted` on, what happened to the records: which
were submitted, how often their callback was called and they were freed, and whether one was read when
it was freed already. -/
structure Shared where
  items : ℕ → List Ref
  queries : ℕ → List Ref
  waiting : List Active
  submitted : List Ref
  calls : Ref → ℕ
  frees : Ref → ℕ
  stale : Bool

/-- The record of `q` is read. -/
def touch (s : Shared) (q : Ref) : Shared := { s with stale := s.stale || 0 < s.frees q }

/-- The query is handed to a worker: the driver blocks, or the statement is a prepared one
(`funcs->cap | DB_CAP_SYNC_PREP_STMT` is never 0). -/
def Env.synchronous (env : Env) (q : Ref) : Bool := env.blocking (env.pool q) || env.ps_idx q

/-- `ret` is what a driver that does not block answers when the query is sent. -/
def db_submit_active_query (env : Env) (s : Shared) (x : Active) (ret : ℤ) : Shared × List Pc :=
  if env.synchronous x.q then ({ s with waiting := x :: s.waiting }, [])
  else if 0 ≤ ret then (s, [.continue_query x])
  else (s, [])

def db_submit_query (env : Env) (s : Shared) (q : Ref) (ret : ℤ) : Shared × List Pc :=
  let pool := env.pool q
  match s.items pool with
  | item :: rest =>
    db_submit_active_query env { s with items := Function.update s.items pool rest } ⟨q, item⟩ ret
  | [] => ({ s with queries := Function.update s.queries pool (q :: s.queries pool) }, [])

def db_submit_item (env : Env) (s : Shared) (item : Ref) (ret : ℤ) : Shared × List Pc :=
  let pool := env.item_pool item
  match s.queries pool with
  | q :: rest =>
    db_submit_active_query env { s with queries := Function.update s.queries pool rest } ⟨q, item⟩ ret
  | [] => ({ s with items := Function.update s.items pool (item :: s.items pool) }, [])

def After.pcs : After → List Pc
  | .worker _ => []
  | .callback q => [.callback q]
  | .unpack x => [.unpack_result x false]

/-- The next turn of a thread. -/
def turn (env : Env) (s : Shared) (pc : Pc) (answer : Answer) : Option (Shared × List Pc) :=
  match pc with
  | .send_query x => some (touch s x.q, [.posted x, .unpack_result x answer.res])
  | .posted x =>
    -- reads q->type
    some (touch s x.q, if env.fetches x.q then [] else [.db_submit_item x.item (.worker x.q)])
  | .db_submit_item item after =>
    let (s, pcs) := db_submit_item env s item answer.ret
    some (s, pcs ++ after.pcs)
  | .unpack_result x res =>
    some (touch s x.q,
      if !env.fetches x.q then [.callback x.q]
      else if res then [.result x.item, .callback x.q]
      else [.db_submit_item x.item (.callback x.q)])
  | .callback q =>
    let s := touch s q
    some ({ s with calls := Function.update s.calls q (s.calls q + 1) }, [.shm_free q])
  | .shm_free q => some ({ s with frees := Function.update s.frees q (s.frees q + 1) }, [])
  | .continue_query x =>
    some (touch s x.q,
      if 0 < answer.ret then [.continue_query x]
      else if env.fetches x.q then [.unpack_result x answer.res]
      else [.db_submit_item x.item (.unpack x)])
  | .result item => some (db_submit_item env s item answer.ret)

/-- A new query is submitted, or `work` takes the query that is first in `waiting`. -/
inductive Event where
  | db_submit_query (q : Ref) (ret : ℤ)
  | work
  deriving DecidableEq

def event (env : Env) (s : Shared) : Event → Option (Shared × List Pc)
  | .db_submit_query q ret =>
    if q ∈ s.submitted then none
    else some (db_submit_query env { s with submitted := q :: s.submitted } q ret)
  | .work =>
    match s.waiting with
    | [] => none
    | x :: rest => some ({ s with waiting := rest }, [.send_query x])

/-- `conns p` are the connections of pool `p`. -/
def init (conns : ℕ → List Ref) : Pool Shared Pc where
  shared := ⟨conns, fun _ => [], [], [], fun _ => 0, fun _ => 0, false⟩
  threads := 0

end OpenSips.Db
