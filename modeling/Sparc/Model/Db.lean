import Sparc.Model.App
import Sparc.Model.Pgsql

/-! # Database queries: `sparc/detail/db.cpp`

The objects of type `Sql`, and for each request the objects of type `PgsqlAsync` made for
it, are numbered. A request passes through the states of `pgsql_async_states`, one callback
a step; application code runs inside a step of its own and acts on the database by further
steps. What is called, and which objects are destroyed, is recorded in the trace of the
request.
-/

namespace Sparc

/-! ## Synchronous queries -/

/-- An object of type `Sql`: the connection of its `PgSqlResult`, whether it is a member of a
`PgsqlAsync`, and whether it exists. -/
structure SqlObject where
  result : Option ℕ := none
  member : Bool := false
  live : Bool := true
  deriving DecidableEq, Repr

/-- The database of a worker. -/
structure Db where
  pgsql : Pgsql
  sqls : List SqlObject
  deriving DecidableEq, Repr

namespace Db

/-- `PgSqlResult::~PgSqlResult`, if there is a result. -/
def deleteResult (db : Db) (result : Option ℕ) : Db :=
  match result with
  | some c => { db with pgsql := db.pgsql.connRelease c }
  | none => db

/-- `Sql::setResult`. -/
def setResult (db : Db) (i : ℕ) (sql : SqlObject) (result : Option ℕ) : Db :=
  let db := db.deleteResult sql.result
  { db with sqls := db.sqls.set i { sql with result } }

/-- `PgSqlContext::exec`: the connection of the result. A query that fails gives up its
`kore_pgsql` as it is. -/
def exec (db : Db) (pq : Libpq) : Option (Option ℕ × Db) :=
  match db.pgsql.queryInit pq false with
  | none => none
  | some (false, pgsql, _) => some (none, { db with pgsql })
  | some (true, pgsql, query) =>
      match query.query pq with
      | (true, query) => some (query.conn, { db with pgsql })
      | (false, _) => some (none, { db with pgsql })

/-- `db::query` on an object that exists. -/
def query (db : Db) (i : ℕ) (pq : Libpq) : Option Db :=
  match db.sqls[i]? with
  | some sql =>
      if sql.live then (db.exec pq).map (fun res => res.2.setResult i sql res.1)
      else none
  | none => none

/-- `Sql::~Sql`. -/
def deleteSql (db : Db) (i : ℕ) : Db :=
  match db.sqls[i]? with
  | some sql =>
      let db := db.deleteResult sql.result
      { db with sqls := db.sqls.set i { sql with result := none, live := false } }
  | none => db

/-- The move constructor of `Sql` into a new `PgsqlAsync`. -/
def moveSql (db : Db) (i : ℕ) (sql : SqlObject) : Db :=
  { db with sqls := db.sqls.set i { sql with result := none } ++
      [{ result := sql.result, member := true }] }

end Db

/-! ## Asynchronous queries -/

/-- `PgsqlAsync`. The route handler is the one of the request; of the callback it only
matters here whether there is one. The constructor does not set `pgsql`: until
`kore_pgsql_query_init` does, it has what its block held, and `cleared` says whether that is
zero. -/
structure PgsqlAsync where
  sql : ℕ
  pgsql : KorePgsql := {}
  cleared : Bool
  handler : Bool
  status : ℤ := Status.internalError
  live : Bool := true
  deriving DecidableEq, Repr

/-- Where a request is: in its filters and its route handler, in the loop of
`http_state_run`, in the callback of a query, in `App::completeRequest` (called for a query
or by `App::handle`), with kore, freed, or gone with its worker. -/
inductive Control where
  | handling
  | running
  | reading (a : ℕ)
  | completing (a : Option ℕ)
  | idle
  | freed
  | fatal
  | crashed
  deriving DecidableEq, Repr

/-- The objects owned by a request. -/
inductive Owned where
  | request
  | response
  | async (a : ℕ)
  deriving DecidableEq, Repr

inductive DbEvent where
  | suspended
  | callback (state : ℕ) (hdlrExtra : Bool)
  | sent (handler : Bool) (results : List ExecStatus)
  | invoked (status : ℤ)
  | completeRequest (status : ℤ)
  | httpResponse (status : ℤ)
  | cleanUp
  | destroyed (object : Owned)
  deriving DecidableEq, Repr

/-- `struct http_request` of kore, as far as asynchronous queries are concerned. The data
slots are given by whether they are set, `delete_` is the flag `HTTP_REQUEST_DELETE`. -/
structure RawRequest where
  fsmState : ℕ := 0
  hdlrExtra : Option ℕ := none
  freeHdlrExtra : Bool := false
  data0 : Bool := false
  data1 : Bool := false
  asyncStates : Bool := false
  delete_ : Bool := false
  pgsqls : List ℕ := []
  asyncs : List PgsqlAsync := []
  control : Control := .handling
  trace : List DbEvent := []
  deriving DecidableEq, Repr

namespace AsyncState

/-- The values of `dbasync_states`. -/
def init : ℕ := 0
def query : ℕ := 1
def wait : ℕ := 2
def read : ℕ := 3
def error : ℕ := 4
def done : ℕ := 5

end AsyncState

/-- What a use of `pgsql` would find is left over from other objects. -/
def PgsqlAsync.leftOver (async : PgsqlAsync) : Bool :=
  decide (async.pgsql.state = .unset) && !async.cleared

namespace RawRequest

def log (r : RawRequest) (e : DbEvent) : RawRequest := { r with trace := r.trace ++ [e] }

def setPgsql (r : RawRequest) (a : ℕ) (async : PgsqlAsync) (pgsql : KorePgsql) : RawRequest :=
  { r with asyncs := r.asyncs.set a { async with pgsql } }

/-- `kore_pgsql_cleanup` on the query of an `PgsqlAsync`. -/
def cleanup (db : Db) (r : RawRequest) (a : ℕ) (async : PgsqlAsync) : Db × RawRequest :=
  let res := db.pgsql.cleanup async.pgsql
  ({ db with pgsql := res.1 },
    { r.setPgsql a async res.2 with pgsqls := r.pgsqls.filter (fun b => b ≠ a) })

/-- `delete` of a `PgsqlAsync`. -/
def deleteAsync (db : Db) (r : RawRequest) (a : ℕ) (async : PgsqlAsync) : Db × RawRequest :=
  (db.deleteSql async.sql,
    ({ r with asyncs := r.asyncs.set a { async with live := false } }).log
      (.destroyed (.async a)))

/-! ### Results of a callback -/

/-- `HTTP_STATE_CONTINUE`, with the state to go to. -/
def continue_ (r : RawRequest) (state : ℕ) : RawRequest :=
  { r with fsmState := state, control := .running }

/-- `HTTP_STATE_RETRY`. -/
def retry (r : RawRequest) (state : ℕ) : RawRequest :=
  { r with fsmState := state, control := .idle }

/-- `HTTP_STATE_COMPLETE`, up to the flag set by `http_process_request`. -/
def complete (r : RawRequest) : RawRequest :=
  { r with fsmState := 0, control := .idle, delete_ := true }

/-- The process ends, in a `fatal` of `pgsql.c` or at a pointer that leads nowhere. -/
def crash (r : RawRequest) : RawRequest := { r with control := .crashed }

/-! ### The callbacks -/

/-- The object behind a pointer. -/
def object (r : RawRequest) (a : ℕ) : Option PgsqlAsync :=
  (r.asyncs[a]?).filter (fun async => async.live)

/-- The object that `hdlr_extra` points to. -/
def current (r : RawRequest) : Option (ℕ × PgsqlAsync) :=
  r.hdlrExtra.bind (fun a => (r.object a).map (fun async => (a, async)))

/-- `pgsql_async_init`. -/
def asyncInit (db : Db) (r : RawRequest) (pq : Libpq) : Option (Db × RawRequest) :=
  match r.hdlrExtra with
  | none => some (db, (r.log (.httpResponse 500)).complete)
  | some a =>
      match r.object a with
      | none => some (db, r.crash)
      | some async =>
          match db.pgsql.queryInit pq true with
          | none => none
          | some (true, pgsql, query) =>
              some ({ db with pgsql },
                { (r.setPgsql a async query).continue_ AsyncState.query with
                  pgsqls := a :: r.pgsqls })
          | some (false, pgsql, query) =>
              let r := r.setPgsql a async query
              if query.state = .init then some ({ db with pgsql }, r.retry AsyncState.init)
              else some ({ db with pgsql }, r.continue_ AsyncState.error)

/-- The other callbacks use the `pgsql` of the current object, and have no result where that is
left over. -/
def withCurrent (db : Db) (r : RawRequest) (cb : ℕ → PgsqlAsync → Db × RawRequest) :
    Option (Db × RawRequest) :=
  match r.current with
  | none => some (db, r.crash)
  | some (a, async) => if async.leftOver then none else some (cb a async)

/-- `pgsql_async_query`. -/
def asyncQuery (db : Db) (r : RawRequest) (pq : Libpq) : Option (Db × RawRequest) :=
  withCurrent db r fun a async =>
    match async.pgsql.query pq with
    | (false, query) => (db, (r.setPgsql a async query).continue_ AsyncState.wait)
    | (true, query) =>
        (db, ((r.setPgsql a async query).log (.sent async.handler query.results)).retry
          AsyncState.wait)

/-- `pgsql_async_wait`. -/
def asyncWait (db : Db) (r : RawRequest) (pq : Libpq) : Option (Db × RawRequest) :=
  withCurrent db r fun a async =>
    match async.pgsql.state with
    | .wait => (db, r.retry r.fsmState)
    | .complete => (db, r.continue_ AsyncState.done)
    | .error =>
        let asyncs := r.asyncs.set a { async with status := Status.internalError }
        (db, ({ r with asyncs }).continue_ AsyncState.error)
    | .result => (db, r.continue_ AsyncState.read)
    | _ =>
        match db.pgsql.continue_ async.pgsql pq with
        | none => (db, r.crash)
        | some (pgsql, query) =>
            ({ db with pgsql }, (r.setPgsql a async query).continue_ r.fsmState)

/-- `pgsql_async_read` behind its callback. -/
def readStatus (db : Db) (r : RawRequest) (a : ℕ) (async : PgsqlAsync) (pq : Libpq) :
    Db × RawRequest :=
  if async.status ≠ Status.ok then (db, r.continue_ AsyncState.done)
  else
    match db.pgsql.continue_ async.pgsql pq with
    | none => (db, r.crash)
    | some (pgsql, query) =>
        ({ db with pgsql }, (r.setPgsql a async query).continue_ AsyncState.wait)

/-- `pgsql_async_read` up to its callback. -/
def asyncRead (db : Db) (r : RawRequest) (pq : Libpq) : Option (Db × RawRequest) :=
  withCurrent db r fun a async =>
    if async.handler then (db, { r with control := .reading a })
    else readStatus db r a async pq

/-- `pgsql_async_error` and `pgsql_async_done` up to `App::completeRequest`. -/
def finish (db : Db) (r : RawRequest) (_ : Libpq) : Option (Db × RawRequest) :=
  withCurrent db r fun a async =>
    let res := cleanup db { r with hdlrExtra := none, freeHdlrExtra := false } a async
    (res.1, { res.2.log (.completeRequest async.status) with control := .completing (some a) })

def asyncError : Db → RawRequest → Libpq → Option (Db × RawRequest) := finish

def asyncDone : Db → RawRequest → Libpq → Option (Db × RawRequest) := finish

/-- `pgsql_async_states`. -/
def pgsqlAsyncStates : List (Db → RawRequest → Libpq → Option (Db × RawRequest)) :=
  [asyncInit, asyncQuery, asyncWait, asyncRead, asyncError, asyncDone]

/-- One turn of the loop of `http_state_run`. -/
def httpStateRun (db : Db) (r : RawRequest) (pq : Libpq) : Option (Db × RawRequest) :=
  match pgsqlAsyncStates[r.fsmState]? with
  | none => some (db, { r with control := .fatal })
  | some cb => cb db (r.log (.callback r.fsmState r.hdlrExtra.isSome)) pq

/-! ### The application -/

/-- How the filters and the route handler of a request end: with `$ASYNC`, with another
status, or before the handler is called. -/
inductive Handled where
  | async
  | status (s : ℤ)
  | aborted
  deriving DecidableEq, Repr

/-- The end of `App::handle` without `App::completeRequest`. -/
def abandon (r : RawRequest) : RawRequest :=
  { (r.log (.destroyed .request)).log (.destroyed .response) with
    control := .idle, delete_ := true }

/-- `App::handle` behind the route handler. -/
def handled (r : RawRequest) : Handled → RawRequest
  | .async =>
      if r.asyncStates then
        { r.log .suspended with data0 := true, data1 := true, control := .running }
      else r.abandon
  | .status s => { r.log (.completeRequest s) with control := .completing none }
  | .aborted => r.abandon

/-- Application code runs for the request. -/
def inApplication (r : RawRequest) : Bool :=
  match r.control with
  | .handling | .reading _ | .completing _ => true
  | _ => false

/-- `db::query` with a callback. -/
def exec (db : Db) (r : RawRequest) (i : ℕ) (sql : SqlObject) (handler cleared : Bool) :
    Db × RawRequest :=
  (db.moveSql i sql,
    { r with
      asyncs := r.asyncs ++ [{ sql := db.sqls.length, cleared, handler }]
      hdlrExtra := some r.asyncs.length
      freeHdlrExtra := true
      asyncStates := true })

/-- The status a callback leaves in its `PgsqlAsync`, or none if its exception is not
caught. -/
def callbackStatus : Outcome → Option ℤ
  | .ret status => some status
  | .halt _ _ => some Status.internalError
  | .exception => some Status.internalError
  | .foreign => none

/-- The callback of a query returns. -/
def returned (db : Db) (r : RawRequest) (a : ℕ) (outcome : Outcome) (pq : Libpq) :
    Db × RawRequest :=
  match r.object a, callbackStatus outcome with
  | some async, some status =>
      let async := { async with status }
      readStatus db (({ r with asyncs := r.asyncs.set a async }).log (.invoked status)) a async pq
  | _, _ => (db, r.crash)

/-- `App::completeRequest` destroys the objects of the request and returns; the callback that
called it destroys its `PgsqlAsync`. -/
def completed (db : Db) (r : RawRequest) (a : Option ℕ) : Db × RawRequest :=
  let r := (r.log (.destroyed .request)).log (.destroyed .response)
  match a with
  | none => (db, { r with control := .idle, delete_ := true })
  | some a =>
      match r.object a with
      | none => (db, r.crash)
      | some async =>
          let res := deleteAsync db r a async
          (res.1, res.2.complete)

/-! ### kore -/

/-- `kore_pgsql_handle` on the connection of an `PgsqlAsync`. -/
def event (r : RawRequest) (a : ℕ) (async : PgsqlAsync) (pq : Libpq) : RawRequest :=
  r.setPgsql a async (async.pgsql.handle pq)

/-- `kore_pgsql_handle` with an error: the connection is closed. -/
def lost (db : Db) (r : RawRequest) (a : ℕ) (async : PgsqlAsync) (c : ℕ) : Db × RawRequest :=
  ({ db with pgsql := db.pgsql.connCleanup c },
    r.setPgsql a async { async.pgsql with state := .error, conn := none })

/-- `sparcxx`, called again for a request. -/
def sparcxx (r : RawRequest) : RawRequest :=
  if r.hdlrExtra = none then { r with asyncStates := false, control := .handling }
  else if r.data0 ∧ r.asyncStates then { r with control := .running }
  else r

/-- `App::asyncError`, with its second test as it is. -/
def appAsyncError (r : RawRequest) : RawRequest :=
  let r := if r.data0 then { r.log (.destroyed .request) with data0 := false } else r
  if r.data0 then { r.log (.destroyed .response) with data1 := false } else r

/-- `pgsql_async_clean_up`. -/
def asyncCleanUp (db : Db) (r : RawRequest) : Db × RawRequest :=
  let r := r.log .cleanUp
  match r.hdlrExtra with
  | none => (db, r.appAsyncError)
  | some a =>
      let r := { r with hdlrExtra := none, freeHdlrExtra := false }
      match r.object a with
      | none => (db, r.crash)
      | some async =>
          let res := cleanup db r a async
          let pgsql := (db.pgsql.cleanup async.pgsql).2
          let res := deleteAsync res.1 res.2 a { async with pgsql }
          (res.1, res.2.appAsyncError)

/-- The loop of `http_request_free` over the queries of the request. -/
def cleanupAll (db : Db) (r : RawRequest) : List ℕ → Db × RawRequest
  | [] => (db, r)
  | a :: pgsqls =>
      match r.object a with
      | none => (db, r.crash)
      | some async =>
          let res := cleanup db r a async
          cleanupAll res.1 res.2 pgsqls

/-- The part of `http_request_free` behind its loop. -/
def freeExtra (db : Db) (r : RawRequest) : Db × RawRequest :=
  match r.hdlrExtra with
  | none => (db, r)
  | some a =>
      if r.freeHdlrExtra then asyncCleanUp db r
      else
        match r.object a with
        | none => (db, r.crash)
        | some async => (db, { r with asyncs := r.asyncs.set a { async with live := false } })

/-- `http_request_free`. -/
def httpRequestFree (db : Db) (r : RawRequest) : Db × RawRequest :=
  let res := cleanupAll db r r.pgsqls
  let res := freeExtra res.1 res.2
  (res.1, { res.2 with control := if res.2.control = .crashed then .crashed else .freed })

/-- If `pgsql_async_clean_up` is called, the `pgsql` it cleans up is not left over. -/
def cleanable (r : RawRequest) : Bool :=
  !r.freeHdlrExtra || r.current.all (fun p => !p.2.leftOver)

/-- What can happen to a request. -/
inductive Input where
  | exec (i : ℕ) (handler cleared : Bool)
  | handled (ret : Handled)
  | run (pq : Libpq)
  | returned (outcome : Outcome) (pq : Libpq)
  | completed
  | event (a : ℕ) (pq : Libpq)
  | lost (a : ℕ)
  | process
  | disconnect
  | free
  deriving DecidableEq, Repr

/-- A step of a request. There is none when it is not in a place where this can happen, when the
application names an object that does not exist, or when memory is used that nothing has set. -/
def step (db : Db) (r : RawRequest) : Input → Option (Db × RawRequest)
  | .exec i handler cleared =>
      match db.sqls[i]? with
      | some sql =>
          if r.inApplication ∧ sql.live then some (exec db r i sql handler cleared) else none
      | none => none
  | .handled ret => if r.control = .handling then some (db, r.handled ret) else none
  | .run pq => if r.control = .running then httpStateRun db r pq else none
  | .returned outcome pq =>
      match r.control with
      | .reading a => some (returned db r a outcome pq)
      | _ => none
  | .completed =>
      match r.control with
      | .completing a => some (completed db r a)
      | _ => none
  | .event a pq =>
      match r.object a with
      | some async =>
          if r.control = .idle ∧ async.pgsql.conn ≠ none then some (db, r.event a async pq)
          else none
      | none => none
  | .lost a =>
      match r.object a with
      | some async =>
          match async.pgsql.conn with
          | some c => if r.control = .idle then some (lost db r a async c) else none
          | none => none
      | none => none
  | .process => if r.control = .idle ∧ r.delete_ = false then some (db, r.sparcxx) else none
  | .disconnect => if r.control = .idle then some (db, { r with delete_ := true }) else none
  | .free =>
      if r.control = .idle ∧ r.delete_ ∧ r.cleanable then some (httpRequestFree db r) else none

end RawRequest

/-! ## A worker -/

/-- The database and the requests of a worker, freed ones included. -/
structure DbWorker where
  db : Db
  requests : List RawRequest
  deriving DecidableEq, Repr

/-- What can happen in a worker: a request arrives, application code makes, destroys and
queries objects of type `Sql`, or something happens to a request. -/
inductive DbInput where
  | accept
  | newSql
  | deleteSql (i : ℕ)
  | query (i : ℕ) (pq : Libpq)
  | request (n : ℕ) (e : RawRequest.Input)
  deriving DecidableEq, Repr

namespace DbWorker

/-- A worker that has just started, with the configured `pgsql_conn_max`. -/
def start (connMax : ℕ) : DbWorker := ⟨⟨Pgsql.start connMax, []⟩, []⟩

/-- A step of the worker. -/
def step (s : DbWorker) : DbInput → Option (DbWorker × Unit)
  | .accept => some ({ s with requests := s.requests ++ [{}] }, ())
  | .newSql => some ({ s with db := { s.db with sqls := s.db.sqls ++ [{}] } }, ())
  | .deleteSql i =>
      match s.db.sqls[i]? with
      | some sql =>
          if sql.live ∧ sql.member = false then some ({ s with db := s.db.deleteSql i }, ())
          else none
      | none => none
  | .query i pq => (s.db.query i pq).map (fun db => ({ s with db }, ()))
  | .request n e =>
      match s.requests[n]? with
      | some r =>
          (r.step s.db e).map (fun res => (⟨res.1, s.requests.set n res.2⟩, ()))
      | none => none

end DbWorker

end Sparc
