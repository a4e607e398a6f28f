import Mathlib.Data.Nat.Notation
import Mathlib.Data.List.Basic

/-! # Database connections: `kore/pgsql.c`

A connection is named by its number. What libpq answers during a step is a parameter of
the step, and so is what the block holds that `kore_malloc` hands out in it. Error messages and
results are only printed or handed to the application and are left out; so are the lists of
sleeping and waiting requests, which only say which request kore runs next.
-/

namespace Sparc

/-- `ExecStatusType` of libpq. -/
inductive ExecStatus where
  | emptyQuery | commandOk | tuplesOk | copyOut | copyIn | badResponse | nonfatalError
  | fatalError | copyBoth | singleTuple
  deriving DecidableEq, Repr

/-- What a block holds where the members of a `struct pgsql_conn` will be: whether the flag
`PGSQL_CONN_FREE` is set, and whether `job` and `name` are pointers other than NULL. -/
structure ConnBlock where
  free : Bool := false
  job : Bool := false
  name : Bool := false
  deriving DecidableEq, Repr

/-- What libpq answers: whether `PQconnectdb` connects, the status of the result of `PQexec`,
the results the server has for a query if `PQsendQuery` sends it, whether `PQconsumeInput`
succeeds, and `PQisBusy`. A new connection lies in `block`. -/
structure Libpq where
  connect : Bool := true
  block : ConnBlock := {}
  exec : ExecStatus := .tuplesOk
  send : Option (List ExecStatus) := some []
  consume : Bool := true
  busy : Bool := false
  deriving DecidableEq, Repr

/-- The `KORE_PGSQL_STATE` values; `unset` is that of a query which has not been set up. -/
inductive PgsqlState where
  | unset | init | wait | result | error | done | complete
  deriving DecidableEq, Repr

/-- `struct kore_pgsql`. The flag is `KORE_PGSQL_ASYNC`; `results` is what `PQgetResult` will
return on the connection. -/
structure KorePgsql where
  state : PgsqlState := .unset
  async : Bool := false
  conn : Option ℕ := none
  results : List ExecStatus := []
  deriving DecidableEq, Repr

/-- The static variables of `pgsql.c` for one registered database, with the number of
connections opened so far and the connections closed. -/
structure Pgsql where
  connFree : List ℕ
  connCount : ℕ
  connMax : ℕ
  made : ℕ
  closed : List ℕ
  deriving DecidableEq, Repr

/-- The outcomes of `pgsql_conn_next`. -/
inductive Next where
  | conn (c : ℕ)
  | refused
  | failed
  deriving DecidableEq, Repr

namespace Pgsql

/-- `kore_pgsql_init`. -/
def start (connMax : ℕ) : Pgsql := ⟨[], 0, connMax, 0, []⟩

/-- `pgsql_conn_create`. For a connection that cannot be opened, `pgsql_conn_cleanup` reads members
of the block that nothing has set: where they are zero the connection is only discounted again,
and otherwise it unlinks, reads or frees what they point to, and there is no result. -/
def connCreate (pg : Pgsql) (pq : Libpq) : Option (Next × Pgsql) :=
  if pq.connect then
    some (.conn pg.made, { pg with connCount := pg.connCount + 1, made := pg.made + 1 })
  else if pq.block = {} then some (.failed, pg)
  else none

/-- `pgsql_conn_next`. -/
def connNext (pg : Pgsql) (pq : Libpq) : Option (Next × Pgsql) :=
  match pg.connFree with
  | c :: connFree => some (.conn c, { pg with connFree })
  | [] =>
      if pg.connMax ≤ pg.connCount then some (.refused, pg)
      else pg.connCreate pq

/-- `pgsql_conn_release`, as to the connection. -/
def connRelease (pg : Pgsql) (c : ℕ) : Pgsql := { pg with connFree := pg.connFree ++ [c] }

/-- `pgsql_conn_cleanup`, as to a connection in use. -/
def connCleanup (pg : Pgsql) (c : ℕ) : Pgsql :=
  { pg with connCount := pg.connCount - 1, closed := pg.closed ++ [c] }

/-- `kore_pgsql_query_init`. An asynchronous query without a connection waits in its state,
a synchronous one fails. -/
def queryInit (pg : Pgsql) (pq : Libpq) (async : Bool) : Option (Bool × Pgsql × KorePgsql) :=
  match pg.connNext pq with
  | none => none
  | some (.conn c, pg) => some (true, pg, { state := .init, async, conn := some c })
  | some (.refused, pg) => some (false, pg, { state := if async then .init else .error, async })
  | some (.failed, pg) => some (false, pg, { state := .error, async })

end Pgsql

namespace KorePgsql

/-- `kore_pgsql_query`. -/
def query (pgsql : KorePgsql) (pq : Libpq) : Bool × KorePgsql :=
  match pgsql.conn with
  | none => (false, { pgsql with state := .error })
  | some _ =>
      if pgsql.async then
        match pq.send with
        | none => (false, { pgsql with state := .error })
        | some results => (true, { pgsql with state := .wait, results })
      else if pq.exec = .tuplesOk ∨ pq.exec = .commandOk then
        (true, { pgsql with state := .done })
      else (false, { pgsql with state := .error })

/-- The state after `PQgetResult` has returned a result. A result of a copy leaves the state
as it was. -/
def resultState (state : PgsqlState) : ExecStatus → PgsqlState
  | .copyOut | .copyIn | .nonfatalError | .copyBoth => state
  | .commandOk => .done
  | .tuplesOk | .singleTuple => .result
  | .emptyQuery | .badResponse | .fatalError => .error

/-- `pgsql_read_result`. -/
def readResult (pgsql : KorePgsql) (pq : Libpq) : KorePgsql :=
  if pq.busy then { pgsql with state := .wait }
  else
    match pgsql.results with
    | [] => { pgsql with state := .done }
    | res :: results => { pgsql with state := resultState pgsql.state res, results }

/-- `kore_pgsql_handle` on the connection of this query, without an error. -/
def handle (pgsql : KorePgsql) (pq : Libpq) : KorePgsql :=
  if pq.consume then pgsql.readResult pq else { pgsql with state := .error }

/-- What is left of a query behind `pgsql_conn_release`, which drains its connection. -/
def released (pgsql : KorePgsql) : KorePgsql :=
  { pgsql with state := .complete, conn := none, results := [] }

end KorePgsql

namespace Pgsql

/-- `kore_pgsql_continue`. There is no result where it ends the process: in a state it does
not know, or on a connection that is not there. -/
def continue_ (pg : Pgsql) (pgsql : KorePgsql) (pq : Libpq) : Option (Pgsql × KorePgsql) :=
  match pgsql.state, pgsql.conn with
  | .init, _ | .wait, _ => some (pg, pgsql)
  | .done, some c => some (pg.connRelease c, pgsql.released)
  | .done, none => some (pg, pgsql)
  | .error, some _ | .result, some _ => some (pg, pgsql.handle pq)
  | _, _ => none

/-- `kore_pgsql_cleanup`. -/
def cleanup (pg : Pgsql) (pgsql : KorePgsql) : Pgsql × KorePgsql :=
  match pgsql.conn with
  | some c => (pg.connRelease c, pgsql.released)
  | none => (pg, pgsql)

end Pgsql

end Sparc
