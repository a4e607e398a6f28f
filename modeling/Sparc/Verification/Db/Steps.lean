import Sparc.Library.Ledger
import Sparc.Model.Db

/-! # What a step of a request can do

The rules list the steps with the places where they are taken and what they leave behind.
They do not call the callbacks; a step of the model is one of the rules.
-/

namespace Sparc

/-- Without a connection nothing has changed. -/
theorem Pgsql.connNext_same {pg pg' : Pgsql} {pq : Libpq} {next : Next}
    (hnext : pg.connNext pq = some (next, pg')) (hnone : ∀ c, next ≠ .conn c) : pg' = pg := by
  unfold connNext connCreate at hnext
  split at hnext
  · cases hnext
    exact absurd rfl (hnone _)
  · split at hnext
    · cases hnext
      rfl
    · split at hnext
      · cases hnext
        exact absurd rfl (hnone _)
      · split at hnext
        · cases hnext
          rfl
        · cases hnext

/-- The outcomes of `kore_pgsql_query_init`, with what it leaves behind. -/
theorem Pgsql.queryInit_cases {pg pg' : Pgsql} {pq : Libpq} {async ok : Bool} {query : KorePgsql}
    (h : pg.queryInit pq async = some (ok, pg', query)) :
    (∃ c, pg.connNext pq = some (.conn c, pg') ∧ ok = true ∧
      query = { state := .init, async, conn := some c }) ∨
    (pg.connNext pq = some (.refused, pg) ∧ ok = false ∧ pg' = pg ∧
      query = { state := if async then .init else .error, async }) ∨
    (pg.connNext pq = some (.failed, pg) ∧ ok = false ∧ pg' = pg ∧
      query = { state := .error, async }) := by
  unfold queryInit at h
  split at h
  · cases h
  · next c _ hnext =>
    cases h
    exact Or.inl ⟨c, hnext, rfl, rfl⟩
  · next hnext =>
    cases h
    obtain rfl := connNext_same hnext nofun
    exact Or.inr (Or.inl ⟨hnext, rfl, rfl, rfl⟩)
  · next hnext =>
    cases h
    obtain rfl := connNext_same hnext nofun
    exact Or.inr (Or.inr ⟨hnext, rfl, rfl, rfl⟩)

/-- `kore_pgsql_continue` does nothing, gives the connection back, or reads on. -/
theorem Pgsql.continue_cases {pg pg' : Pgsql} {pgsql query : KorePgsql} {pq : Libpq}
    (h : pg.continue_ pgsql pq = some (pg', query)) :
    (pg' = pg ∧ query = pgsql ∧
      (pgsql.state = .init ∨ pgsql.state = .wait ∨ pgsql.state = .done ∧ pgsql.conn = none)) ∨
    (∃ c, pgsql.state = .done ∧ pgsql.conn = some c ∧ pg' = pg.connRelease c ∧
      query = pgsql.released) ∨
    ((pgsql.state = .error ∨ pgsql.state = .result) ∧ pgsql.conn ≠ none ∧ pg' = pg ∧
      query = pgsql.handle pq) := by
  unfold continue_ at h
  split at h
  · next hstate =>
    cases h
    exact Or.inl ⟨rfl, rfl, Or.inl hstate⟩
  · next hstate =>
    cases h
    exact Or.inl ⟨rfl, rfl, Or.inr (Or.inl hstate)⟩
  · next c hstate hconn =>
    cases h
    exact Or.inr (Or.inl ⟨c, hstate, hconn, rfl, rfl⟩)
  · next hstate hconn =>
    cases h
    exact Or.inl ⟨rfl, rfl, Or.inr (Or.inr ⟨hstate, hconn⟩)⟩
  · next c hstate hconn =>
    cases h
    exact Or.inr (Or.inr ⟨Or.inl hstate, by simp [hconn], rfl, rfl⟩)
  · next c hstate hconn =>
    cases h
    exact Or.inr (Or.inr ⟨Or.inr hstate, by simp [hconn], rfl, rfl⟩)
  · cases h

namespace RawRequest

/-- The end of `pgsql_async_read`. -/
inductive Reads (db : Db) (r : RawRequest) (a : ℕ) (async : PgsqlAsync) (pq : Libpq) :
    Db → RawRequest → Prop where
  | stop (hstatus : async.status ≠ Status.ok) :
      Reads db r a async pq db (r.continue_ AsyncState.done)
  | onward {pgsql : Pgsql} {query : KorePgsql} (hstatus : async.status = Status.ok)
      (hcontinue : db.pgsql.continue_ async.pgsql pq = some (pgsql, query)) :
      Reads db r a async pq { db with pgsql } ((r.setPgsql a async query).continue_ AsyncState.wait)
  | crash (hstatus : async.status = Status.ok)
      (hcontinue : db.pgsql.continue_ async.pgsql pq = none) : Reads db r a async pq db r.crash

/-- A callback. -/
inductive Calls (db : Db) (r : RawRequest) (pq : Libpq) : Db → RawRequest → Prop where
  | unexpected (hstate : r.fsmState = AsyncState.init) (hextra : r.hdlrExtra = none) :
      Calls db r pq db (r.log (.httpResponse 500)).complete
  | taken {a : ℕ} {async : PgsqlAsync} {c : ℕ} {pgsql : Pgsql}
      (hstate : r.fsmState = AsyncState.init) (hcurrent : r.current = some (a, async))
      (hnext : db.pgsql.connNext pq = some (.conn c, pgsql)) :
      Calls db r pq { db with pgsql }
        { (r.setPgsql a async { state := .init, async := true, conn := some c }).continue_
            AsyncState.query with pgsqls := a :: r.pgsqls }
  | refused {a : ℕ} {async : PgsqlAsync} (hstate : r.fsmState = AsyncState.init)
      (hcurrent : r.current = some (a, async))
      (hnext : db.pgsql.connNext pq = some (.refused, db.pgsql)) :
      Calls db r pq db
        ((r.setPgsql a async { state := .init, async := true }).retry AsyncState.init)
  | failed {a : ℕ} {async : PgsqlAsync} (hstate : r.fsmState = AsyncState.init)
      (hcurrent : r.current = some (a, async))
      (hnext : db.pgsql.connNext pq = some (.failed, db.pgsql)) :
      Calls db r pq db
        ((r.setPgsql a async { state := .error, async := true }).continue_ AsyncState.error)
  | unsent {a : ℕ} {async : PgsqlAsync} {query : KorePgsql}
      (hstate : r.fsmState = AsyncState.query) (hcurrent : r.current = some (a, async))
      (hquery : async.pgsql.query pq = (false, query)) :
      Calls db r pq db ((r.setPgsql a async query).continue_ AsyncState.wait)
  | sent {a : ℕ} {async : PgsqlAsync} {query : KorePgsql}
      (hstate : r.fsmState = AsyncState.query) (hcurrent : r.current = some (a, async))
      (hquery : async.pgsql.query pq = (true, query)) :
      Calls db r pq db (((r.setPgsql a async query).log
        (.sent async.handler query.results)).retry AsyncState.wait)
  | waiting {a : ℕ} {async : PgsqlAsync} (hstate : r.fsmState = AsyncState.wait)
      (hcurrent : r.current = some (a, async)) (hpgsql : async.pgsql.state = .wait) :
      Calls db r pq db (r.retry AsyncState.wait)
  | drained {a : ℕ} {async : PgsqlAsync} (hstate : r.fsmState = AsyncState.wait)
      (hcurrent : r.current = some (a, async)) (hpgsql : async.pgsql.state = .complete) :
      Calls db r pq db (r.continue_ AsyncState.done)
  | error {a : ℕ} {async : PgsqlAsync} (hstate : r.fsmState = AsyncState.wait)
      (hcurrent : r.current = some (a, async)) (hpgsql : async.pgsql.state = .error) :
      Calls db r pq db
        ({ r with asyncs := r.asyncs.set a { async with status := Status.internalError } }
          |>.continue_ AsyncState.error)
  | result {a : ℕ} {async : PgsqlAsync} (hstate : r.fsmState = AsyncState.wait)
      (hcurrent : r.current = some (a, async)) (hpgsql : async.pgsql.state = .result) :
      Calls db r pq db (r.continue_ AsyncState.read)
  | onward {a : ℕ} {async : PgsqlAsync} {pgsql : Pgsql} {query : KorePgsql}
      (hstate : r.fsmState = AsyncState.wait) (hcurrent : r.current = some (a, async))
      (hpgsql : async.pgsql.state ≠ .wait ∧ async.pgsql.state ≠ .result ∧
        async.pgsql.state ≠ .error)
      (hcontinue : db.pgsql.continue_ async.pgsql pq = some (pgsql, query)) :
      Calls db r pq { db with pgsql } ((r.setPgsql a async query).continue_ AsyncState.wait)
  | reading {a : ℕ} {async : PgsqlAsync} (hstate : r.fsmState = AsyncState.read)
      (hcurrent : r.current = some (a, async)) (hhandler : async.handler = true) :
      Calls db r pq db { r with control := .reading a }
  | silent {a : ℕ} {async : PgsqlAsync} {db' : Db} {r' : RawRequest}
      (hstate : r.fsmState = AsyncState.read) (hcurrent : r.current = some (a, async))
      (hhandler : async.handler = false) (hreads : Reads db r a async pq db' r') :
      Calls db r pq db' r'
  | finish {a : ℕ} {async : PgsqlAsync}
      (hstate : r.fsmState = AsyncState.error ∨ r.fsmState = AsyncState.done)
      (hcurrent : r.current = some (a, async)) :
      Calls db r pq { db with pgsql := (db.pgsql.cleanup async.pgsql).1 }
        { (r.setPgsql a async (db.pgsql.cleanup async.pgsql).2).log
            (.completeRequest async.status) with
          hdlrExtra := none, freeHdlrExtra := false,
          pgsqls := r.pgsqls.filter (fun b => b ≠ a), control := .completing (some a) }
  | crash : Calls db r pq db r.crash

theorem readStatus_reads (db : Db) (r : RawRequest) (a : ℕ) (async : PgsqlAsync) (pq : Libpq) :
    Reads db r a async pq (readStatus db r a async pq).1 (readStatus db r a async pq).2 := by
  unfold readStatus
  split
  · next hstatus => exact .stop hstatus
  · next hstatus =>
    split
    · next hcontinue => exact .crash (not_not.1 hstatus) hcontinue
    · next hcontinue => exact .onward (not_not.1 hstatus) hcontinue

theorem object_eq_some {r : RawRequest} {a : ℕ} {async : PgsqlAsync} :
    r.object a = some async ↔ r.asyncs[a]? = some async ∧ async.live = true := by
  unfold object
  rw [Option.filter_eq_some_iff]

theorem current_eq_some {r : RawRequest} {a : ℕ} {async : PgsqlAsync} :
    r.current = some (a, async) ↔ r.hdlrExtra = some a ∧ r.object a = some async := by
  unfold current
  cases r.hdlrExtra with
  | none => simp
  | some b =>
      simp only [Option.bind_some, Option.map_eq_some_iff, Prod.mk.injEq, Option.some.injEq]
      constructor
      · rintro ⟨async', hobject, rfl, rfl⟩
        exact ⟨rfl, hobject⟩
      · rintro ⟨rfl, hobject⟩
        exact ⟨async, hobject, rfl, rfl⟩

theorem object_set {r : RawRequest} {a : ℕ} {async : PgsqlAsync} (hobject : r.object a = some async)
    (async' : PgsqlAsync) (hlive : async'.live = true) :
    ({ r with asyncs := r.asyncs.set a async' } : RawRequest).object a = some async' := by
  have hlt := (List.getElem?_eq_some_iff.1 (object_eq_some.1 hobject).1).1
  exact object_eq_some.2 ⟨List.getElem?_set_self hlt, hlive⟩

theorem current_set {r : RawRequest} {a : ℕ} {async : PgsqlAsync}
    (hcurrent : r.current = some (a, async)) (async' : PgsqlAsync) (hlive : async'.live = true) :
    ({ r with asyncs := r.asyncs.set a async' } : RawRequest).current = some (a, async') := by
  obtain ⟨hextra, hobject⟩ := current_eq_some.1 hcurrent
  exact current_eq_some.2 ⟨hextra, object_set hobject async' hlive⟩

theorem current_get {r : RawRequest} {a : ℕ} {async : PgsqlAsync}
    (hcurrent : r.current = some (a, async)) : r.asyncs[a]? = some async ∧ async.live = true :=
  object_eq_some.1 (current_eq_some.1 hcurrent).2

section

variable {db : Db} {r : RawRequest}

theorem asyncInit_calls {pq : Libpq} (hstate : r.fsmState = AsyncState.init) {db' : Db}
    {r' : RawRequest} (hcall : asyncInit db r pq = some (db', r')) : Calls db r pq db' r' := by
  unfold asyncInit at hcall
  split at hcall
  · next hextra =>
    cases hcall
    exact .unexpected hstate hextra
  · next a hextra =>
    split at hcall
    · cases hcall
      exact .crash
    · next async hobject =>
      have hcurrent := current_eq_some.2 ⟨hextra, hobject⟩
      split at hcall
      · cases hcall
      · next pgsql query hinit =>
        cases hcall
        rcases Pgsql.queryInit_cases hinit with ⟨c, hnext, -, rfl⟩ | ⟨-, hok, -⟩ | ⟨-, hok, -⟩
        · exact .taken hstate hcurrent hnext
        · cases hok
        · cases hok
      · next pgsql query hinit =>
        rcases Pgsql.queryInit_cases hinit with ⟨c, -, hok, -⟩ | ⟨hnext, -, rfl, rfl⟩ |
          ⟨hnext, -, rfl, rfl⟩
        · cases hok
        · cases hcall
          exact .refused hstate hcurrent hnext
        · cases hcall
          exact .failed hstate hcurrent hnext

/-- A callback that works on the current object. -/
theorem withCurrent_calls {pq : Libpq} {cb : ℕ → PgsqlAsync → Db × RawRequest} {db' : Db}
    {r' : RawRequest} (hcb : ∀ a async, r.current = some (a, async) →
      Calls db r pq (cb a async).1 (cb a async).2)
    (hcall : withCurrent db r cb = some (db', r')) : Calls db r pq db' r' := by
  unfold withCurrent at hcall
  split at hcall
  · cases hcall
    exact .crash
  · next a async hcurrent =>
    split at hcall
    · cases hcall
    · have hcalls := hcb a async hcurrent
      rwa [Option.some.inj hcall] at hcalls

theorem asyncQuery_calls {pq : Libpq} (hstate : r.fsmState = AsyncState.query) {db' : Db}
    {r' : RawRequest} (hcall : asyncQuery db r pq = some (db', r')) : Calls db r pq db' r' := by
  refine withCurrent_calls (fun a async hcurrent => ?_) hcall
  split
  · next query hquery => exact .unsent hstate hcurrent hquery
  · next query hquery => exact .sent hstate hcurrent hquery

theorem asyncWait_calls {pq : Libpq} (hstate : r.fsmState = AsyncState.wait) {db' : Db}
    {r' : RawRequest} (hcall : asyncWait db r pq = some (db', r')) : Calls db r pq db' r' := by
  refine withCurrent_calls (fun a async hcurrent => ?_) hcall
  split
  · next hpgsql => exact hstate ▸ .waiting hstate hcurrent hpgsql
  · next hpgsql => exact .drained hstate hcurrent hpgsql
  · next hpgsql => exact .error hstate hcurrent hpgsql
  · next hpgsql => exact .result hstate hcurrent hpgsql
  · next hwait hcomplete herror hresult =>
    split
    · exact .crash
    · next pgsql query hcontinue =>
      exact hstate ▸ .onward hstate hcurrent ⟨hwait, hresult, herror⟩ hcontinue

theorem asyncRead_calls {pq : Libpq} (hstate : r.fsmState = AsyncState.read) {db' : Db}
    {r' : RawRequest} (hcall : asyncRead db r pq = some (db', r')) : Calls db r pq db' r' := by
  refine withCurrent_calls (fun a async hcurrent => ?_) hcall
  split
  · next hhandler => exact .reading hstate hcurrent hhandler
  · next hhandler =>
    exact .silent hstate hcurrent (by simpa using hhandler) (readStatus_reads db r a async pq)

theorem finish_calls {pq : Libpq}
    (hstate : r.fsmState = AsyncState.error ∨ r.fsmState = AsyncState.done) {db' : Db}
    {r' : RawRequest} (hcall : finish db r pq = some (db', r')) : Calls db r pq db' r' :=
  withCurrent_calls (fun _ _ hcurrent => .finish hstate hcurrent) hcall

/-- The table has these callbacks. -/
theorem calls_of_getElem {cb : Db → RawRequest → Libpq → Option (Db × RawRequest)} {pq : Libpq}
    (hcb : pgsqlAsyncStates[r.fsmState]? = some cb) {db' : Db} {r' : RawRequest}
    (hcall : cb db r pq = some (db', r')) : Calls db r pq db' r' := by
  have hlt : r.fsmState < 6 := (List.getElem?_eq_some_iff.1 hcb).1
  obtain h | h | h | h | h | h : r.fsmState = AsyncState.init ∨ r.fsmState = AsyncState.query ∨
      r.fsmState = AsyncState.wait ∨ r.fsmState = AsyncState.read ∨
      r.fsmState = AsyncState.error ∨ r.fsmState = AsyncState.done := by
    simp only [AsyncState.init, AsyncState.query, AsyncState.wait, AsyncState.read,
      AsyncState.error, AsyncState.done]
    omega
  all_goals rw [h] at hcb
  all_goals cases hcb
  · exact asyncInit_calls h hcall
  · exact asyncQuery_calls h hcall
  · exact asyncWait_calls h hcall
  · exact asyncRead_calls h hcall
  · exact finish_calls (Or.inl h) hcall
  · exact finish_calls (Or.inr h) hcall

end

/-- A step. -/
inductive Moves (db : Db) (r : RawRequest) : Input → Db → RawRequest → Prop where
  | exec {i : ℕ} {handler cleared : Bool} {sql : SqlObject} (hcontrol : r.inApplication = true)
      (hsql : db.sqls[i]? = some sql) (hlive : sql.live = true) :
      Moves db r (.exec i handler cleared) (exec db r i sql handler cleared).1
        (exec db r i sql handler cleared).2
  | suspend (hcontrol : r.control = .handling) (hstates : r.asyncStates = true) :
      Moves db r (.handled .async) db
        { r.log .suspended with data0 := true, data1 := true, control := .running }
  | complete (s : ℤ) (hcontrol : r.control = .handling) :
      Moves db r (.handled (.status s)) db
        { r.log (.completeRequest s) with control := .completing none }
  | abandon (ret : Handled) (hcontrol : r.control = .handling) :
      Moves db r (.handled ret) db r.abandon
  | fatal (pq : Libpq) (hcontrol : r.control = .running)
      (hstate : pgsqlAsyncStates.length ≤ r.fsmState) :
      Moves db r (.run pq) db { r with control := .fatal }
  | call {pq : Libpq} {db' : Db} {r' : RawRequest} (hcontrol : r.control = .running)
      (hcall : Calls db (r.log (.callback r.fsmState r.hdlrExtra.isSome)) pq db' r') :
      Moves db r (.run pq) db' r'
  | returned {a : ℕ} {async : PgsqlAsync} {outcome : Outcome} {status : ℤ} {pq : Libpq} {db' : Db}
      {r' : RawRequest} (hcontrol : r.control = .reading a) (hobject : r.object a = some async)
      (hstatus : callbackStatus outcome = some status)
      (hreads : Reads db (({ r with asyncs := r.asyncs.set a { async with status } }).log
        (.invoked status)) a { async with status } pq db' r') :
      Moves db r (.returned outcome pq) db' r'
  | escaped {a : ℕ} (outcome : Outcome) (pq : Libpq) (hcontrol : r.control = .reading a) :
      Moves db r (.returned outcome pq) db r.crash
  | handledAll (hcontrol : r.control = .completing none) : Moves db r .completed db r.abandon
  | completed {a : ℕ} {async : PgsqlAsync} (hcontrol : r.control = .completing (some a))
      (hobject : r.object a = some async) :
      Moves db r .completed (deleteAsync db r.abandon a async).1
        (deleteAsync db r.abandon a async).2.complete
  | dangling {a : ℕ} (hcontrol : r.control = .completing (some a)) (hobject : r.object a = none) :
      Moves db r .completed db ((r.log (.destroyed .request)).log (.destroyed .response)).crash
  | event {a : ℕ} {async : PgsqlAsync} (pq : Libpq) (hcontrol : r.control = .idle)
      (hobject : r.object a = some async) (hconn : async.pgsql.conn ≠ none) :
      Moves db r (.event a pq) db (r.event a async pq)
  | lost {a c : ℕ} {async : PgsqlAsync} (hcontrol : r.control = .idle)
      (hobject : r.object a = some async) (hconn : async.pgsql.conn = some c) :
      Moves db r (.lost a) (lost db r a async c).1 (lost db r a async c).2
  | anew (hcontrol : r.control = .idle) (hdelete : r.delete_ = false)
      (hextra : r.hdlrExtra = none) :
      Moves db r .process db { r with asyncStates := false, control := .handling }
  | resume (hcontrol : r.control = .idle) (hdelete : r.delete_ = false)
      (hextra : r.hdlrExtra ≠ none) : Moves db r .process db { r with control := .running }
  | stay (hcontrol : r.control = .idle) (hextra : r.hdlrExtra ≠ none)
      (hdata : ¬ (r.data0 = true ∧ r.asyncStates = true)) : Moves db r .process db r
  | disconnect (hcontrol : r.control = .idle) :
      Moves db r .disconnect db { r with delete_ := true }
  | free (hcontrol : r.control = .idle) (hdelete : r.delete_ = true) :
      Moves db r .free (httpRequestFree db r).1 (httpRequestFree db r).2

theorem httpStateRun_moves {db db' : Db} {r r' : RawRequest} {pq : Libpq}
    (hcontrol : r.control = .running) (hrun : httpStateRun db r pq = some (db', r')) :
    Moves db r (.run pq) db' r' := by
  unfold httpStateRun at hrun
  split at hrun
  · next hnone =>
    cases hrun
    exact .fatal pq hcontrol (List.getElem?_eq_none_iff.1 hnone)
  · next cb hcb =>
    apply Moves.call hcontrol
    generalize hlog : r.log (.callback r.fsmState r.hdlrExtra.isSome) = logged at hrun
    have hstate : logged.fsmState = r.fsmState := by rw [← hlog]; rfl
    rw [← hstate] at hcb
    exact calls_of_getElem hcb hrun

theorem completed_moves {db : Db} {r : RawRequest} {a : Option ℕ}
    (hcontrol : r.control = .completing a) :
    Moves db r .completed (completed db r a).1 (completed db r a).2 := by
  cases a with
  | none => exact .handledAll hcontrol
  | some a =>
      unfold completed
      cases hobject : r.object a with
      | none =>
          have hlogged : ((r.log (.destroyed .request)).log (.destroyed .response)).object a =
              none := hobject
          simp only [hlogged]
          exact .dangling hcontrol hobject
      | some async =>
          have hlogged : ((r.log (.destroyed .request)).log (.destroyed .response)).object a =
              some async := hobject
          simp only [hlogged]
          exact .completed hcontrol hobject

theorem handled_moves {db : Db} {r : RawRequest} (ret : Handled)
    (hcontrol : r.control = .handling) : Moves db r (.handled ret) db (r.handled ret) := by
  cases ret with
  | async =>
      by_cases hstates : r.asyncStates = true
      · rw [show r.handled .async = _ from if_pos hstates]
        exact .suspend hcontrol hstates
      · rw [show r.handled .async = _ from if_neg hstates]
        exact .abandon .async hcontrol
  | status s => exact .complete s hcontrol
  | aborted => exact .abandon .aborted hcontrol

theorem returned_moves {db : Db} {r : RawRequest} {a : ℕ} (outcome : Outcome) (pq : Libpq)
    (hcontrol : r.control = .reading a) :
    Moves db r (.returned outcome pq) (returned db r a outcome pq).1
      (returned db r a outcome pq).2 := by
  unfold returned
  split
  · next async status hobject hstatus =>
    exact .returned hcontrol hobject hstatus (readStatus_reads _ _ _ _ _)
  · exact .escaped outcome pq hcontrol

theorem sparcxx_moves {db : Db} {r : RawRequest} (hcontrol : r.control = .idle)
    (hdelete : r.delete_ = false) : Moves db r .process db r.sparcxx := by
  unfold sparcxx
  split
  · next hextra => exact .anew hcontrol hdelete hextra
  · next hextra =>
    split
    · exact .resume hcontrol hdelete hextra
    · next hdata => exact .stay hcontrol hextra hdata

/-- A step of the model is one of the rules. -/
theorem step_moves {db db' : Db} {r r' : RawRequest} {e : Input}
    (hstep : step db r e = some (db', r')) : Moves db r e db' r' := by
  cases e with
  | exec i handler cleared =>
      simp only [step] at hstep
      split at hstep
      · next sql hsql =>
        split at hstep
        · next hopen =>
          cases hstep
          exact .exec hopen.1 hsql hopen.2
        · cases hstep
      · cases hstep
  | handled ret =>
      simp only [step] at hstep
      split at hstep
      · next hcontrol =>
        cases hstep
        exact handled_moves ret hcontrol
      · cases hstep
  | run pq =>
      simp only [step] at hstep
      split at hstep
      · next hcontrol => exact httpStateRun_moves hcontrol hstep
      · cases hstep
  | returned outcome pq =>
      simp only [step] at hstep
      split at hstep
      · next a hcontrol =>
        have hmoves := @returned_moves db r a outcome pq hcontrol
        rwa [Option.some.inj hstep] at hmoves
      · cases hstep
  | completed =>
      simp only [step] at hstep
      split at hstep
      · next a hcontrol =>
        have hmoves := @completed_moves db r a hcontrol
        rwa [Option.some.inj hstep] at hmoves
      · cases hstep
  | event a pq =>
      simp only [step] at hstep
      split at hstep
      · next async hobject =>
        split at hstep
        · next hidle =>
          cases hstep
          exact .event pq hidle.1 hobject hidle.2
        · cases hstep
      · cases hstep
  | lost a =>
      simp only [step] at hstep
      split at hstep
      · next async hobject =>
        split at hstep
        · next c hconn =>
          split at hstep
          · next hidle =>
            cases hstep
            exact .lost hidle hobject hconn
          · cases hstep
        · cases hstep
      · cases hstep
  | process =>
      simp only [step] at hstep
      split at hstep
      · next hidle =>
        cases hstep
        exact sparcxx_moves hidle.1 hidle.2
      · cases hstep
  | disconnect =>
      simp only [step] at hstep
      split at hstep
      · next hidle =>
        cases hstep
        exact .disconnect hidle
      · cases hstep
  | free =>
      simp only [step] at hstep
      split at hstep
      · next hidle =>
        cases hstep
        exact .free hidle.1 hidle.2.1
      · cases hstep

end RawRequest

/-! ## Workers -/

namespace DbWorker

/-- A step of a worker. -/
inductive Moves (s : DbWorker) : DbInput → DbWorker → Prop where
  | accept : Moves s .accept { s with requests := s.requests ++ [{}] }
  | newSql : Moves s .newSql { s with db := { s.db with sqls := s.db.sqls ++ [{}] } }
  | deleteSql {i : ℕ} : Moves s (.deleteSql i) { s with db := s.db.deleteSql i }
  | query {i : ℕ} {pq : Libpq} {sql : SqlObject} {result : Option ℕ} {db : Db}
      (hsql : s.db.sqls[i]? = some sql) (hlive : sql.live = true)
      (hexec : s.db.exec pq = some (result, db)) :
      Moves s (.query i pq) { s with db := db.setResult i sql result }
  | request {n : ℕ} {e : RawRequest.Input} {r r' : RawRequest} {db : Db}
      (hget : s.requests[n]? = some r) (hstep : RawRequest.step s.db r e = some (db, r')) :
      Moves s (.request n e) ⟨db, s.requests.set n r'⟩

theorem step_moves {s s' : DbWorker} {i : DbInput} {o : Unit}
    (hstep : step s i = some (s', o)) : Moves s i s' := by
  cases i with
  | accept =>
      cases hstep
      exact .accept
  | newSql =>
      cases hstep
      exact .newSql
  | deleteSql i =>
      simp only [step] at hstep
      split at hstep
      · split at hstep
        · cases hstep
          exact .deleteSql
        · cases hstep
      · cases hstep
  | query i pq =>
      simp only [step, Db.query] at hstep
      split at hstep
      · next sql hsql =>
        split at hstep
        · next hlive =>
          rw [Option.map_map] at hstep
          obtain ⟨⟨result, db⟩, hexec, hsame⟩ := Option.map_eq_some_iff.1 hstep
          cases hsame
          exact .query hsql hlive hexec
        · cases hstep
      · cases hstep
  | request n e =>
      simp only [step] at hstep
      split at hstep
      · next r hget =>
        obtain ⟨⟨db, r'⟩, hreq, hsame⟩ := Option.map_eq_some_iff.1 hstep
        cases hsame
        exact .request hget hreq
      · cases hstep

end DbWorker

end Sparc
