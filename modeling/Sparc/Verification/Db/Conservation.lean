import Sparc.Library.Ledger
import Sparc.Verification.Db.Completion

/-! # Connections are conserved

A ledger is kept of the connections: the free ones, the closed ones, those held by results
of objects of type `Sql`, and those held outside the database, by the queries of requests.
-/

namespace Sparc

open Ledger

/-! ## The connection of a query -/

theorem Pgsql.cleanup_conn (pg : Pgsql) (pgsql : KorePgsql) :
    (pg.cleanup pgsql).2.conn = none := by
  unfold Pgsql.cleanup
  cases hconn : pgsql.conn with
  | none => exact hconn
  | some c => rfl

theorem KorePgsql.query_conn (pgsql : KorePgsql) (pq : Libpq) :
    (pgsql.query pq).2.conn = pgsql.conn := by
  unfold KorePgsql.query
  split
  · rfl
  · split
    · split <;> rfl
    · split <;> rfl

theorem KorePgsql.handle_conn (pgsql : KorePgsql) (pq : Libpq) :
    (pgsql.handle pq).conn = pgsql.conn := by
  unfold KorePgsql.handle KorePgsql.readResult
  split
  · split
    · rfl
    · split <;> rfl
  · rfl

/-! ## The database -/

namespace Db

/-- The connections in the database. -/
def held (db : Db) : List ℕ :=
  db.pgsql.connFree ++ db.pgsql.closed ++ db.sqls.flatMap (fun sql => sql.result.toList)

/-- A destroyed object has no result. -/
def DeadFree (sqls : List SqlObject) : Prop := ∀ sql ∈ sqls, sql.live = false → sql.result = none

/-- Every connection is in one place, here or outside, and the open ones are counted. -/
structure Conserves (db : Db) (out : ℕ → ℕ) : Prop where
  conns : Balanced db.pgsql.made (fun x => db.held.count x + out x)
  counted : db.pgsql.connCount + db.pgsql.closed.length = db.pgsql.made
  dead : DeadFree db.sqls
  room : 0 < db.pgsql.connMax

variable {db : Db} {out out' : ℕ → ℕ} {pq : Libpq}

theorem Conserves.congr (h : db.Conserves out) (heq : ∀ x, out' x = out x) : db.Conserves out' :=
  ⟨h.conns.congr (fun x => by rw [heq x]), h.counted, h.dead, h.room⟩

theorem count_held (db : Db) (x : ℕ) :
    db.held.count x = db.pgsql.connFree.count x + db.pgsql.closed.count x +
      (db.sqls.flatMap (fun sql => sql.result.toList)).count x := by
  rw [held, List.count_append, List.count_append]

/-- Two databases that hold the same connections, here and outside. -/
theorem Conserves.move {db' : Db} (h : db.Conserves out)
    (hcounts : ∀ x, db'.held.count x + out' x = db.held.count x + out x)
    (hmade : db'.pgsql.made = db.pgsql.made)
    (hcounted : db'.pgsql.connCount + db'.pgsql.closed.length =
      db.pgsql.connCount + db.pgsql.closed.length)
    (hdead : DeadFree db'.sqls) (hmax : db'.pgsql.connMax = db.pgsql.connMax) :
    db'.Conserves out' := by
  refine ⟨?_, ?_, hdead, hmax ▸ h.room⟩
  · rw [hmade]
    exact h.conns.congr hcounts
  · rw [hmade, hcounted]
    exact h.counted

theorem Conserves.next {c : ℕ} {pgsql : Pgsql} (h : db.Conserves out)
    (hnext : db.pgsql.connNext pq = some (.conn c, pgsql)) :
    ({ db with pgsql } : Db).Conserves (fun x => out x + [c].count x) := by
  unfold Pgsql.connNext Pgsql.connCreate at hnext
  split at hnext
  · next d connFree hfree =>
    cases hnext
    refine h.move ?_ rfl rfl h.dead rfl
    intro x
    simp only [count_held, hfree, List.count_cons, List.count_nil]
    omega
  · next hfree =>
    split at hnext
    · cases hnext
    · split at hnext
      · cases hnext
        refine ⟨?_, ?_, h.dead, h.room⟩
        · refine h.conns.issue.congr (fun x => ?_)
          rw [count_held, count_held]
          simp only
          omega
        · have hcounted := h.counted
          simp only
          omega
      · split at hnext <;> cases hnext

theorem Conserves.release {c : ℕ} (h : db.Conserves (fun x => out x + [c].count x)) :
    ({ db with pgsql := db.pgsql.connRelease c } : Db).Conserves out := by
  refine h.move ?_ rfl rfl h.dead rfl
  intro x
  rw [count_held, count_held]
  simp only [Pgsql.connRelease, List.count_append]
  omega

theorem Conserves.close {c : ℕ} (h : db.Conserves (fun x => out x + [c].count x)) :
    ({ db with pgsql := db.pgsql.connCleanup c } : Db).Conserves out := by
  have hplaces : Balanced db.pgsql.made (fun x => (db.pgsql.connFree.count x +
      (db.sqls.flatMap (fun sql => sql.result.toList)).count x + out x) +
      (db.pgsql.closed.count x + [c].count x)) := by
    refine h.conns.congr (fun x => ?_)
    rw [count_held]
    omega
  have hlength := hplaces.length_lt
  have hcounted := h.counted
  refine h.move ?_ rfl ?_ h.dead rfl
  · intro x
    rw [count_held, count_held]
    simp only [Pgsql.connCleanup, List.count_append]
    omega
  · simp only [Pgsql.connCleanup, List.length_append, List.length_singleton]
    omega

/-! ## Objects of type `Sql` -/

theorem Conserves.deleteResult {result : Option ℕ}
    (h : db.Conserves (fun x => out x + result.toList.count x)) :
    (db.deleteResult result).Conserves out := by
  cases result with
  | none => exact h.congr (fun x => by simp)
  | some c => exact h.release

theorem DeadFree.set {sqls : List SqlObject} (h : DeadFree sqls) (i : ℕ) (sql : SqlObject)
    (hsql : sql.live = true ∨ sql.result = none) : DeadFree (sqls.set i sql) := by
  refine forall_mem_set h i (fun hdead => hsql.resolve_left ?_)
  simp [hdead]

theorem DeadFree.append {sqls : List SqlObject} (h : DeadFree sqls) {sql : SqlObject}
    (hlive : sql.live = true) : DeadFree (sqls ++ [sql]) := by
  intro other hmem hdead
  rcases List.mem_append.1 hmem with hmem | hmem
  · exact h other hmem hdead
  · rw [List.mem_singleton.1 hmem, hlive] at hdead
    cases hdead

/-- Replace the result of an object, once the old one is given up. -/
theorem Conserves.set {i : ℕ} {sql sql' : SqlObject} (hsql : db.sqls[i]? = some sql)
    (hlive : sql'.live = true ∨ sql'.result = none)
    (h : db.Conserves (fun x => out x + sql'.result.toList.count x)) :
    ({ db with sqls := db.sqls.set i sql' } : Db).Conserves
      (fun x => out x + sql.result.toList.count x) := by
  refine h.move ?_ rfl rfl (h.dead.set i sql' hlive) rfl
  intro x
  obtain ⟨rest, hold, hnew⟩ := exists_rest (fun sql : SqlObject => sql.result.toList) hsql
  rw [count_held, count_held, hold x, hnew sql' x]
  simp only
  omega

theorem deleteResult_set (db : Db) (result : Option ℕ) (i : ℕ) (sql : SqlObject) :
    ({ db with sqls := db.sqls.set i sql } : Db).deleteResult result =
      { db.deleteResult result with sqls := (db.deleteResult result).sqls.set i sql } := by
  cases result <;> rfl

theorem Conserves.setResult {i : ℕ} {sql : SqlObject} {result : Option ℕ}
    (hsql : db.sqls[i]? = some sql) (hlive : sql.live = true)
    (h : db.Conserves (fun x => out x + result.toList.count x)) :
    (db.setResult i sql result).Conserves out := by
  have hset : ({ db with sqls := db.sqls.set i { sql with result } } : Db).Conserves
      (fun x => out x + sql.result.toList.count x) :=
    Conserves.set hsql (Or.inl hlive) h
  have hdelete := hset.deleteResult
  rwa [deleteResult_set] at hdelete

/-- A query that gets a connection keeps it for its result, and changes nothing else. -/
theorem exec_cases {pq : Libpq} {result : Option ℕ} {db' : Db}
    (hexec : db.exec pq = some (result, db')) :
    (∃ c pgsql, db.pgsql.connNext pq = some (.conn c, pgsql) ∧ db' = { db with pgsql } ∧
      result = if pq.exec = .tuplesOk ∨ pq.exec = .commandOk then some c else none) ∨
    (db' = db ∧ result = none) := by
  unfold Db.exec at hexec
  split at hexec
  · cases hexec
  · next pgsql query hinit =>
    cases hexec
    rcases Pgsql.queryInit_cases hinit with ⟨c, -, hok, -⟩ | ⟨-, -, rfl, -⟩ | ⟨-, -, rfl, -⟩
    · cases hok
    · exact Or.inr ⟨rfl, rfl⟩
    · exact Or.inr ⟨rfl, rfl⟩
  · next pgsql query hinit =>
    rcases Pgsql.queryInit_cases hinit with ⟨c, hnext, -, rfl⟩ | ⟨-, hok, -⟩ | ⟨-, hok, -⟩
    · refine Or.inl ⟨c, pgsql, hnext, ?_⟩
      simp only [KorePgsql.query, Bool.false_eq_true, if_false] at hexec
      split at hexec
      · next heq =>
        cases hexec
        split at heq
        · next hanswer =>
          cases heq
          exact ⟨rfl, (if_pos hanswer).symm⟩
        · cases heq
      · next heq =>
        cases hexec
        split at heq
        · cases heq
        · next hanswer => exact ⟨rfl, (if_neg hanswer).symm⟩
    · cases hok
    · cases hok

theorem Conserves.exec (h : db.Conserves out) {result : Option ℕ} {db' : Db}
    (hexec : db.exec pq = some (result, db'))
    (hanswer : ∀ c pgsql, db.pgsql.connNext pq = some (.conn c, pgsql) →
      pq.exec = .tuplesOk ∨ pq.exec = .commandOk) :
    db'.Conserves (fun x => out x + result.toList.count x) := by
  rcases exec_cases hexec with ⟨c, pgsql, hnext, rfl, rfl⟩ | ⟨rfl, rfl⟩
  · rw [if_pos (hanswer c pgsql hnext), Option.toList_some]
    exact h.next hnext
  · exact h.congr (fun x => by simp)

theorem exec_sqls {result : Option ℕ} {db' : Db} (hexec : db.exec pq = some (result, db')) :
    db'.sqls = db.sqls := by
  rcases exec_cases hexec with ⟨c, pgsql, -, rfl, -⟩ | ⟨rfl, -⟩ <;> rfl

theorem Conserves.deleteSql (h : db.Conserves out) (i : ℕ) : (db.deleteSql i).Conserves out := by
  unfold Db.deleteSql
  split
  · next sql hsql =>
    have hnone : db.Conserves (fun x => out x +
        ({ sql with result := none, live := false } : SqlObject).result.toList.count x) :=
      h.congr (fun x => by simp)
    have hdelete := (Conserves.set hsql (Or.inr rfl) hnone).deleteResult
    rwa [deleteResult_set] at hdelete
  · exact h

theorem Conserves.moveSql {i : ℕ} {sql : SqlObject} (hsql : db.sqls[i]? = some sql)
    (h : db.Conserves out) : (db.moveSql i sql).Conserves out := by
  refine h.move ?_ rfl rfl ((h.dead.set i _ (Or.inr rfl)).append rfl) rfl
  intro x
  obtain ⟨rest, hold, hnew⟩ := exists_rest (fun sql : SqlObject => sql.result.toList) hsql
  have hmoved := hnew { sql with result := none } x
  rw [count_held, count_held, hold x, Db.moveSql, List.flatMap_append, List.count_append, hmoved]
  simp only [List.flatMap_singleton, Option.toList_none, List.count_nil]
  omega

theorem Conserves.newSql (h : db.Conserves out) :
    ({ db with sqls := db.sqls ++ [{}] } : Db).Conserves out := by
  refine h.move ?_ rfl rfl (h.dead.append rfl) rfl
  intro x
  rw [count_held, count_held]
  simp

/-! ## Queries -/

theorem Conserves.cleanup {pgsql : KorePgsql}
    (h : db.Conserves (fun x => out x + pgsql.conn.toList.count x)) :
    ({ db with pgsql := (db.pgsql.cleanup pgsql).1 } : Db).Conserves out := by
  unfold Pgsql.cleanup
  cases hconn : pgsql.conn with
  | none => exact h.congr (fun x => by simp [hconn])
  | some c =>
      rw [hconn] at h
      exact h.release

theorem Conserves.continue_ {pgsql : Pgsql} {query query' : KorePgsql}
    (h : db.Conserves (fun x => out x + query.conn.toList.count x))
    (hcontinue : db.pgsql.continue_ query pq = some (pgsql, query')) :
    ({ db with pgsql } : Db).Conserves (fun x => out x + query'.conn.toList.count x) := by
  rcases Pgsql.continue_cases hcontinue with ⟨rfl, rfl, -⟩ | ⟨c, -, hconn, rfl, rfl⟩ |
    ⟨-, -, rfl, rfl⟩
  · exact h
  · rw [hconn] at h
    exact h.release.congr (fun x => by simp [KorePgsql.released])
  · rw [KorePgsql.handle_conn]
    exact h

end Db

/-! ## Requests -/

namespace RawRequest

/-- The connections held by the queries of a request. -/
def held (r : RawRequest) : List ℕ := r.asyncs.flatMap (fun async => async.pgsql.conn.toList)

/-- What a step moves between the database and a request stays in the ledger. -/
def Balances (db : Db) (r : RawRequest) (db' : Db) (r' : RawRequest) : Prop :=
  ∀ out : ℕ → ℕ, db.Conserves (fun x => r.held.count x + out x) →
    db'.Conserves (fun x => r'.held.count x + out x)

variable {db db' : Db} {r r' : RawRequest} {pq : Libpq}

theorem Balances.trans {db'' : Db} {r'' : RawRequest} (h : Balances db r db' r')
    (h' : Balances db' r' db'' r'') : Balances db r db'' r'' :=
  fun out hconserves => h' out (h out hconserves)

theorem balances_of_asyncs (h : r'.asyncs = r.asyncs) : Balances db r db r' := by
  intro out hconserves
  unfold held
  rw [h]
  exact hconserves

/-- A step on one query and its connection. -/
theorem balances_set {a : ℕ} {async : PgsqlAsync} (hget : r.asyncs[a]? = some async)
    (async' : PgsqlAsync) (hset : r'.asyncs = r.asyncs.set a async')
    (hdb : ∀ out : ℕ → ℕ, db.Conserves (fun x => out x + async.pgsql.conn.toList.count x) →
      db'.Conserves (fun x => out x + async'.pgsql.conn.toList.count x)) :
    Balances db r db' r' := by
  intro out hconserves
  obtain ⟨rest, hold, hnew⟩ := exists_rest (fun async : PgsqlAsync => async.pgsql.conn.toList) hget
  have hrest := hdb (fun x => rest x + out x) (hconserves.congr (fun x => by
    rw [held, hold x]
    omega))
  refine hrest.congr (fun x => ?_)
  rw [held, hset, hnew async' x]
  omega

/-- A step that leaves the connection of a query alone. -/
theorem balances_set_same {a : ℕ} {async : PgsqlAsync} (hget : r.asyncs[a]? = some async)
    (async' : PgsqlAsync) (hset : r'.asyncs = r.asyncs.set a async')
    (hconn : async'.pgsql.conn = async.pgsql.conn) : Balances db r db r' := by
  refine balances_set hget async' hset (fun out h => ?_)
  rw [hconn]
  exact h

/-- The connection of a query is given back. -/
theorem cleanup_balances {a : ℕ} {async : PgsqlAsync} (hget : r.asyncs[a]? = some async)
    (hset : r'.asyncs = r.asyncs.set a { async with pgsql := (db.pgsql.cleanup async.pgsql).2 }) :
    Balances db r { db with pgsql := (db.pgsql.cleanup async.pgsql).1 } r' := by
  refine balances_set hget _ hset (fun out h => ?_)
  rw [Pgsql.cleanup_conn]
  exact h.cleanup.congr (fun x => by simp)

theorem Reads.balances {a : ℕ} {async : PgsqlAsync} (h : Reads db r a async pq db' r')
    (hget : r.asyncs[a]? = some async) : Balances db r db' r' := by
  cases h with
  | stop => exact balances_of_asyncs rfl
  | @onward pgsql query hstatus hcontinue =>
      exact balances_set hget { async with pgsql := query } rfl
        (fun out h => h.continue_ hcontinue)
  | crash => exact balances_of_asyncs rfl

/-- No query of the request can have a connection yet. -/
def Unconnected (r : RawRequest) : Prop :=
  match r.control with
  | .handling => True
  | .running => r.fsmState = AsyncState.init
  | .idle => r.delete_ = false ∧ r.fsmState = AsyncState.init
  | _ => False

/-- A destroyed query has no connection. -/
def DeadFree (asyncs : List PgsqlAsync) : Prop :=
  ∀ async ∈ asyncs, async.live = false → async.pgsql.conn = none

/-- Connections are given back before their query is destroyed or set up anew. -/
structure Tidy (r : RawRequest) : Prop where
  dead : DeadFree r.asyncs
  completing : ∀ a async, r.control = .completing (some a) → r.asyncs[a]? = some async →
    async.pgsql.conn = none
  unconnected : r.Unconnected → ∀ async ∈ r.asyncs, async.pgsql.conn = none

theorem Calls.balances (h : Calls db r pq db' r')
    (hnone : r.fsmState = AsyncState.init → ∀ async ∈ r.asyncs, async.pgsql.conn = none) :
    Balances db r db' r' := by
  cases h with
  | unexpected => exact balances_of_asyncs rfl
  | @taken a async c pgsql hstate hcurrent hnext =>
      have hget := (current_get hcurrent).1
      have hconn := hnone hstate async (List.mem_of_getElem? hget)
      refine balances_set hget
        { async with pgsql := { state := .init, async := true, conn := some c } } rfl ?_
      intro out h
      rw [hconn] at h
      exact Db.Conserves.next (h.congr (fun x => by simp)) hnext
  | @refused a async hstate hcurrent hnext =>
      have hget := (current_get hcurrent).1
      have hconn := hnone hstate async (List.mem_of_getElem? hget)
      exact balances_set_same hget { async with pgsql := { state := .init, async := true } } rfl
        hconn.symm
  | @failed a async hstate hcurrent hnext =>
      have hget := (current_get hcurrent).1
      have hconn := hnone hstate async (List.mem_of_getElem? hget)
      exact balances_set_same hget { async with pgsql := { state := .error, async := true } } rfl
        hconn.symm
  | @unsent a async query hstate hcurrent hquery =>
      have hconn := async.pgsql.query_conn pq
      rw [hquery] at hconn
      exact balances_set_same (current_get hcurrent).1 { async with pgsql := query } rfl hconn
  | @sent a async query hstate hcurrent hquery =>
      have hconn := async.pgsql.query_conn pq
      rw [hquery] at hconn
      exact balances_set_same (current_get hcurrent).1 { async with pgsql := query } rfl hconn
  | waiting => exact balances_of_asyncs rfl
  | drained => exact balances_of_asyncs rfl
  | @error a async hstate hcurrent hpgsql =>
      exact balances_set_same (current_get hcurrent).1
        { async with status := Status.internalError } rfl rfl
  | result => exact balances_of_asyncs rfl
  | @onward a async pgsql query hstate hcurrent hpgsql hcontinue =>
      exact balances_set (current_get hcurrent).1 { async with pgsql := query } rfl
        (fun out h => h.continue_ hcontinue)
  | reading => exact balances_of_asyncs rfl
  | silent _ hcurrent _ hreads => exact hreads.balances (current_get hcurrent).1
  | finish _ hcurrent => exact cleanup_balances (current_get hcurrent).1 rfl
  | crash => exact balances_of_asyncs rfl

theorem DeadFree.set {asyncs : List PgsqlAsync} (h : DeadFree asyncs) (a : ℕ) (async : PgsqlAsync)
    (hasync : async.live = true ∨ async.pgsql.conn = none) : DeadFree (asyncs.set a async) := by
  refine forall_mem_set h a (fun hdead => hasync.resolve_left ?_)
  simp [hdead]

theorem tidy_of_place (hdead : DeadFree r.asyncs) (hcontrol : ∀ a, r.control ≠ .completing (some a))
    (hnot : ¬ r.Unconnected) : r.Tidy :=
  ⟨hdead, fun a _ h => absurd h (hcontrol a), fun h => absurd h hnot⟩

theorem tidy_of_none (hdead : DeadFree r.asyncs) (hcontrol : ∀ a, r.control ≠ .completing (some a))
    (hnone : ∀ async ∈ r.asyncs, async.pgsql.conn = none) : r.Tidy :=
  ⟨hdead, fun a _ h => absurd h (hcontrol a), fun _ => hnone⟩

theorem tidy_new : ({} : RawRequest).Tidy :=
  tidy_of_none (fun _ hmem => absurd hmem List.not_mem_nil) nofun
    (fun _ hmem => absurd hmem List.not_mem_nil)

/-- A query that is about to be set up. -/
theorem Tidy.unconnected_of_running (h : r.Tidy) (hcontrol : r.control = .running)
    (hstate : r.fsmState = AsyncState.init) : ∀ async ∈ r.asyncs, async.pgsql.conn = none := by
  apply h.unconnected
  unfold Unconnected
  rw [hcontrol]
  exact hstate

theorem Reads.tidy {a : ℕ} {async : PgsqlAsync} (h : Reads db r a async pq db' r')
    (hdead : DeadFree r.asyncs) (hlive : async.live = true) : r'.Tidy := by
  cases h with
  | stop => exact tidy_of_place hdead nofun nofun
  | @onward pgsql query =>
      exact tidy_of_place (hdead.set a { async with pgsql := query } (Or.inl hlive)) nofun nofun
  | crash => exact tidy_of_place hdead nofun id

theorem Calls.tidy (h : Calls db r pq db' r') (hdead : DeadFree r.asyncs)
    (hnone : r.fsmState = AsyncState.init → ∀ async ∈ r.asyncs, async.pgsql.conn = none) :
    r'.Tidy := by
  cases h with
  | unexpected => exact tidy_of_place hdead nofun nofun
  | @taken a async c pgsql hstate hcurrent hnext =>
      exact tidy_of_place (hdead.set a _ (Or.inl (current_get hcurrent).2)) nofun nofun
  | @refused a async hstate hcurrent hnext =>
      exact tidy_of_none (hdead.set a _ (Or.inr rfl)) nofun (forall_mem_set (hnone hstate) a rfl)
  | failed => exact tidy_of_place (hdead.set _ _ (Or.inr rfl)) nofun nofun
  | @unsent a async query hstate hcurrent hquery =>
      exact tidy_of_place (hdead.set a _ (Or.inl (current_get hcurrent).2)) nofun nofun
  | @sent a async query hstate hcurrent hquery =>
      exact tidy_of_place (hdead.set a { async with pgsql := query }
        (Or.inl (current_get hcurrent).2)) nofun nofun
  | waiting => exact tidy_of_place hdead nofun nofun
  | drained => exact tidy_of_place hdead nofun nofun
  | @error a async hstate hcurrent hpgsql =>
      exact tidy_of_place (hdead.set a _ (Or.inl (current_get hcurrent).2)) nofun nofun
  | result => exact tidy_of_place hdead nofun nofun
  | @onward a async pgsql query hstate hcurrent hpgsql hcontinue =>
      exact tidy_of_place (hdead.set a _ (Or.inl (current_get hcurrent).2)) nofun nofun
  | reading => exact tidy_of_place hdead nofun id
  | silent _ hcurrent _ hreads => exact hreads.tidy hdead (current_get hcurrent).2
  | @finish a async hstate hcurrent =>
      obtain ⟨hget, hlive⟩ := current_get hcurrent
      refine ⟨hdead.set a { async with pgsql := (db.pgsql.cleanup async.pgsql).2 } (Or.inl hlive),
        ?_, False.elim⟩
      intro b other hcontrol hother
      obtain rfl : a = b := by simpa using hcontrol
      have hlt := (List.getElem?_eq_some_iff.1 hget).1
      have hset := (List.getElem?_set_self hlt).symm.trans hother
      rw [← Option.some.inj hset]
      exact Pgsql.cleanup_conn _ _
  | crash => exact tidy_of_place hdead nofun id

/-! ### `http_request_free` -/

theorem deleteAsync_balances {a : ℕ} {async : PgsqlAsync} (hget : r.asyncs[a]? = some async) :
    Balances db r (deleteAsync db r a async).1 (deleteAsync db r a async).2 :=
  balances_set hget { async with live := false } rfl (fun _ h => h.deleteSql async.sql)

theorem cleanupAll_balances (db : Db) (r : RawRequest) (pgsqls : List ℕ) :
    Balances db r (cleanupAll db r pgsqls).1 (cleanupAll db r pgsqls).2 := by
  induction pgsqls generalizing db r with
  | nil => exact balances_of_asyncs rfl
  | cons a pgsqls ih =>
      unfold cleanupAll
      split
      · exact balances_of_asyncs rfl
      · next async hobject =>
        have hcleanup : Balances db r (cleanup db r a async).1 (cleanup db r a async).2 :=
          cleanup_balances (object_eq_some.1 hobject).1 rfl
        exact hcleanup.trans (ih _ _)

theorem appAsyncError_asyncs (r : RawRequest) : r.appAsyncError.asyncs = r.asyncs := by
  rw [appAsyncError_eq]
  split <;> rfl

theorem asyncCleanUp_balances (db : Db) (r : RawRequest) :
    Balances db r (asyncCleanUp db r).1 (asyncCleanUp db r).2 := by
  have hlog : Balances db r db (r.log .cleanUp) := balances_of_asyncs rfl
  simp only [asyncCleanUp]
  split
  · exact hlog.trans (balances_of_asyncs (appAsyncError_asyncs _))
  · next a hextra =>
    split
    · exact balances_of_asyncs rfl
    · next async hobject =>
      have hget := (object_eq_some.1 hobject).1
      have hlt := (List.getElem?_eq_some_iff.1 hget).1
      have hcleanup := @cleanup_balances db r (cleanup db
        { r.log .cleanUp with hdlrExtra := none, freeHdlrExtra := false } a async).2 a async hget
        rfl
      refine Balances.trans (Balances.trans hcleanup ?_)
        (balances_of_asyncs (appAsyncError_asyncs _))
      exact deleteAsync_balances (List.getElem?_set_self hlt)

theorem freeExtra_balances (db : Db) (r : RawRequest) :
    Balances db r (freeExtra db r).1 (freeExtra db r).2 := by
  unfold freeExtra
  split
  · exact balances_of_asyncs rfl
  · next a hextra =>
    split
    · exact asyncCleanUp_balances db r
    · split
      · exact balances_of_asyncs rfl
      · next async hobject =>
        exact balances_set_same (object_eq_some.1 hobject).1 { async with live := false } rfl rfl

theorem httpRequestFree_balances (db : Db) (r : RawRequest) :
    Balances db r (httpRequestFree db r).1 (httpRequestFree db r).2 := by
  have h := (cleanupAll_balances db r r.pgsqls).trans
    (freeExtra_balances (cleanupAll db r r.pgsqls).1 (cleanupAll db r r.pgsqls).2)
  exact h.trans (balances_of_asyncs rfl)

theorem cleanupAll_deadFree (db : Db) (r : RawRequest) (pgsqls : List ℕ)
    (hdead : DeadFree r.asyncs) : DeadFree (cleanupAll db r pgsqls).2.asyncs := by
  induction pgsqls generalizing db r with
  | nil => exact hdead
  | cons a pgsqls ih =>
      unfold cleanupAll
      split
      · exact hdead
      · next async hobject =>
        exact ih _ _ (hdead.set a _ (Or.inr (Pgsql.cleanup_conn _ _)))

theorem asyncCleanUp_deadFree (db : Db) (r : RawRequest) (hdead : DeadFree r.asyncs) :
    DeadFree (asyncCleanUp db r).2.asyncs := by
  simp only [asyncCleanUp]
  split
  · rw [appAsyncError_asyncs]
    exact hdead
  · next a hextra =>
    split
    · exact hdead
    · next async hobject =>
      rw [appAsyncError_asyncs]
      refine DeadFree.set ?_ a _ (Or.inr (Pgsql.cleanup_conn _ _))
      exact hdead.set a _ (Or.inr (Pgsql.cleanup_conn _ _))

/-- `hdlr_extra` comes with its function, as long as the request is not freed. -/
def Paired (r : RawRequest) : Prop :=
  r.control = .freed ∨ r.control = .crashed ∨ (r.hdlrExtra ≠ none → r.freeHdlrExtra = true)

theorem cleanupAll_extra (db : Db) (r : RawRequest) (pgsqls : List ℕ) :
    (cleanupAll db r pgsqls).2.hdlrExtra = r.hdlrExtra ∧
      (cleanupAll db r pgsqls).2.freeHdlrExtra = r.freeHdlrExtra := by
  induction pgsqls generalizing db r with
  | nil => exact ⟨rfl, rfl⟩
  | cons a pgsqls ih =>
      unfold cleanupAll
      split
      · exact ⟨rfl, rfl⟩
      · next async hobject => exact ih _ (cleanup db r a async).2

theorem httpRequestFree_deadFree (db : Db) (r : RawRequest) (hdead : DeadFree r.asyncs)
    (hpaired : r.hdlrExtra ≠ none → r.freeHdlrExtra = true) :
    DeadFree (httpRequestFree db r).2.asyncs := by
  have hall := cleanupAll_deadFree db r r.pgsqls hdead
  obtain ⟨hextra, hfree⟩ := cleanupAll_extra db r r.pgsqls
  simp only [httpRequestFree, freeExtra]
  split
  · exact hall
  · next a hsome =>
    have htrue : (cleanupAll db r r.pgsqls).2.freeHdlrExtra = true := by
      rw [hfree]
      apply hpaired
      rw [← hextra, hsome]
      exact Option.some_ne_none a
    rw [if_pos htrue]
    exact asyncCleanUp_deadFree _ _ hall

theorem Reads.paired {a : ℕ} {async : PgsqlAsync} (h : Reads db r a async pq db' r')
    (hpaired : r.hdlrExtra ≠ none → r.freeHdlrExtra = true) : r'.Paired := by
  cases h with
  | stop => exact Or.inr (Or.inr hpaired)
  | onward => exact Or.inr (Or.inr hpaired)
  | crash => exact Or.inr (Or.inl rfl)

theorem Calls.paired (h : Calls db r pq db' r')
    (hpaired : r.hdlrExtra ≠ none → r.freeHdlrExtra = true) : r'.Paired := by
  cases h with
  | finish => exact Or.inr (Or.inr (fun h => absurd rfl h))
  | silent _ _ _ hreads => exact hreads.paired hpaired
  | crash => exact Or.inr (Or.inl rfl)
  | _ => exact Or.inr (Or.inr hpaired)

/-- Nothing happens to a request that is gone. -/
theorem Moves.control {e : Input} (h : Moves db r e db' r') :
    r.control ≠ .freed ∧ r.control ≠ .crashed := by
  cases h with
  | exec hcontrol =>
      unfold inApplication at hcontrol
      constructor <;> intro hgone <;> simp [hgone] at hcontrol
  | _ => simp [*]

theorem Moves.pair {e : Input} (h : Moves db r e db' r') (hpaired : r.Paired) :
    r.hdlrExtra ≠ none → r.freeHdlrExtra = true := by
  rcases hpaired with hgone | hgone | hpair
  · exact absurd hgone h.control.1
  · exact absurd hgone h.control.2
  · exact hpair

theorem Moves.paired {e : Input} (h : Moves db r e db' r') (hpaired : r.Paired) : r'.Paired := by
  have hpair := h.pair hpaired
  cases h with
  | exec => exact Or.inr (Or.inr (fun _ => rfl))
  | call hcontrol hcall => exact hcall.paired hpair
  | returned hcontrol hobject hstatus hreads => exact hreads.paired hpair
  | free =>
      rcases httpRequestFree_control db r with hcontrol | hcontrol
      · exact Or.inl hcontrol
      · exact Or.inr (Or.inl hcontrol)
  | _ => exact Or.inr (Or.inr hpair)

theorem Tidy.exec (h : r.Tidy) (i : ℕ) (sql : SqlObject) (handler cleared : Bool) :
    (RawRequest.exec db r i sql handler cleared).2.Tidy := by
  obtain ⟨hdead, hcompleting, hnone⟩ := h
  refine ⟨?_, ?_, ?_⟩
  · intro async hmem hlive
    rcases List.mem_append.1 hmem with hmem | hmem
    · exact hdead async hmem hlive
    · rw [List.mem_singleton.1 hmem]
  · intro a async hcontrol hget
    rw [RawRequest.exec, List.getElem?_append] at hget
    split at hget
    · exact hcompleting a async hcontrol hget
    · have hmem := List.mem_of_getElem? hget
      rw [List.mem_singleton.1 hmem]
  · intro hplace async hmem
    rcases List.mem_append.1 hmem with hmem | hmem
    · exact hnone hplace async hmem
    · rw [List.mem_singleton.1 hmem]

/-- kore acts on a query that has a connection. -/
theorem Tidy.setPgsql (h : r.Tidy) {a : ℕ} {async : PgsqlAsync} (hcontrol : r.control = .idle)
    (hobject : r.object a = some async) (hconn : async.pgsql.conn ≠ none) (pgsql : KorePgsql) :
    (r.setPgsql a async pgsql).Tidy := by
  obtain ⟨hget, hlive⟩ := object_eq_some.1 hobject
  refine tidy_of_place (h.dead.set a { async with pgsql } (Or.inl hlive)) ?_ ?_
  · exact fun b hb => absurd (hcontrol.symm.trans hb) nofun
  · exact fun hplace => hconn (h.unconnected hplace async (List.mem_of_getElem? hget))

theorem Moves.tidy {e : Input} (h : Moves db r e db' r') (hsound : r.Sound) (hpaired : r.Paired)
    (htidy : r.Tidy) : r'.Tidy := by
  have hmoves := h
  have htidy' := htidy
  obtain ⟨hdead, hcompleting, hnone⟩ := htidy'
  cases h with
  | exec => exact htidy.exec _ _ _ _
  | suspend hcontrol hstates =>
      refine tidy_of_none hdead nofun (hnone ?_)
      unfold Unconnected
      rw [hcontrol]
      exact trivial
  | complete => exact tidy_of_place hdead nofun id
  | abandon => exact tidy_of_place hdead nofun nofun
  | fatal => exact tidy_of_place hdead nofun id
  | call hcontrol hcall =>
      exact hcall.tidy hdead (htidy.unconnected_of_running hcontrol)
  | @returned a async outcome status pq _ _ hcontrol hobject hstatus hreads =>
      have hlive := (object_eq_some.1 hobject).2
      exact hreads.tidy (hdead.set a { async with status } (Or.inl hlive)) hlive
  | escaped => exact tidy_of_place hdead nofun id
  | handledAll => exact tidy_of_place hdead nofun nofun
  | @completed a async hcontrol hobject =>
      have hget := (object_eq_some.1 hobject).1
      have hconn := hcompleting a async hcontrol hget
      exact tidy_of_place (hdead.set a { async with live := false } (Or.inr hconn)) nofun nofun
  | dangling => exact tidy_of_place hdead nofun id
  | event pq hcontrol hobject hconn => exact htidy.setPgsql hcontrol hobject hconn _
  | lost hcontrol hobject hconn =>
      exact htidy.setPgsql hcontrol hobject (by rw [hconn]; nofun) _
  | anew hcontrol hdelete hextra =>
      exact absurd hextra (hsound.active_of_idle hcontrol hdelete).extra
  | resume hcontrol hdelete hextra =>
      refine ⟨hdead, fun b _ hb => Control.noConfusion hb, fun hstate => hnone ?_⟩
      unfold Unconnected
      rw [hcontrol]
      exact ⟨hdelete, hstate⟩
  | stay => exact ⟨hdead, hcompleting, hnone⟩
  | disconnect hcontrol =>
      refine tidy_of_place hdead (fun a h => ?_) ?_
      · exact absurd (hcontrol.symm.trans h) nofun
      · unfold Unconnected
        simp [hcontrol]
  | free hcontrol hdelete =>
      have hpair := hmoves.pair hpaired
      refine tidy_of_place (httpRequestFree_deadFree db r hdead hpair) (fun a h => ?_) ?_
      · rcases httpRequestFree_control db r with hgone | hgone <;>
          exact absurd (hgone.symm.trans h) nofun
      · unfold Unconnected
        rcases httpRequestFree_control db r with hgone | hgone <;> rw [hgone] <;> exact id

theorem Moves.balances {e : Input} (h : Moves db r e db' r') (htidy : r.Tidy) :
    Balances db r db' r' := by
  cases h with
  | exec hcontrol hsql hlive =>
      intro out hconserves
      refine (hconserves.moveSql hsql).congr (fun x => ?_)
      simp [held, RawRequest.exec]
  | suspend => exact balances_of_asyncs rfl
  | complete => exact balances_of_asyncs rfl
  | abandon => exact balances_of_asyncs rfl
  | fatal => exact balances_of_asyncs rfl
  | call hcontrol hcall =>
      have hlog : Balances db r db (r.log (.callback r.fsmState r.hdlrExtra.isSome)) :=
        balances_of_asyncs rfl
      exact hlog.trans (hcall.balances (htidy.unconnected_of_running hcontrol))
  | @returned a async outcome status pq _ _ hcontrol hobject hstatus hreads =>
      have hget := (object_eq_some.1 hobject).1
      have hlt := (List.getElem?_eq_some_iff.1 hget).1
      refine Balances.trans ?_ (hreads.balances (List.getElem?_set_self hlt))
      exact balances_set_same hget { async with status } rfl rfl
  | escaped => exact balances_of_asyncs rfl
  | handledAll => exact balances_of_asyncs rfl
  | @completed a async hcontrol hobject =>
      have habandon : Balances db r db r.abandon := balances_of_asyncs rfl
      refine habandon.trans (Balances.trans ?_ (balances_of_asyncs rfl))
      exact deleteAsync_balances (object_eq_some.1 hobject).1
  | dangling => exact balances_of_asyncs rfl
  | @event a async pq hcontrol hobject hconn =>
      exact balances_set_same (object_eq_some.1 hobject).1
        { async with pgsql := async.pgsql.handle pq } rfl (KorePgsql.handle_conn _ _)
  | @lost a c async hcontrol hobject hconn =>
      refine balances_set (object_eq_some.1 hobject).1
        { async with pgsql := { async.pgsql with state := .error, conn := none } } rfl ?_
      intro out hconserves
      rw [hconn] at hconserves
      exact hconserves.close.congr (fun x => by simp)
  | anew => exact balances_of_asyncs rfl
  | resume => exact balances_of_asyncs rfl
  | stay => exact balances_of_asyncs rfl
  | disconnect => exact balances_of_asyncs rfl
  | free => exact httpRequestFree_balances db r

end RawRequest

/-! ## Workers -/

namespace DbWorker

/-- The connections of results of existing objects of type `Sql`. -/
def resultConns (s : DbWorker) : List ℕ :=
  s.db.sqls.flatMap (fun sql => if sql.live then sql.result.toList else [])

/-- The connections of existing asynchronous queries. -/
def asyncConns (s : DbWorker) : List ℕ :=
  s.requests.flatMap (fun r =>
    r.asyncs.flatMap (fun async => if async.live then async.pgsql.conn.toList else []))

/-- No result and no asynchronous query exists. -/
def Quiet (s : DbWorker) : Prop :=
  (∀ sql ∈ s.db.sqls, sql.live = true → sql.result = none) ∧
    ∀ r ∈ s.requests, ∀ async ∈ r.asyncs, async.live = false

/-- Every connection opened so far is free, held by a result or by an asynchronous query, or
closed, in one place only; the open ones are counted, and a worker without results and
queries refuses no query. -/
structure Conserved (s : DbWorker) : Prop where
  conns : (s.db.pgsql.connFree ++ s.resultConns ++ s.asyncConns ++ s.db.pgsql.closed).Perm
    (List.range s.db.pgsql.made)
  counted : s.db.pgsql.connCount + s.db.pgsql.closed.length = s.db.pgsql.made
  granted : s.Quiet → ∀ pq pgsql, s.db.pgsql.connNext pq ≠ some (.refused, pgsql)

/-- A synchronous query that has got a connection does not fail, the block of a connection that
cannot be opened is clear, and a query that is run or cleaned up has been set up or lies in a
cleared block. -/
def Answers (s : DbWorker) (i : DbInput) : Prop :=
  match i with
  | .query _ pq =>
      s.db.pgsql.connNext pq ≠ none ∧ ∀ c pgsql, s.db.pgsql.connNext pq = some (.conn c, pgsql) →
        pq.exec = .tuplesOk ∨ pq.exec = .commandOk
  | .request n (.run pq) => ∀ r, s.requests[n]? = some r →
      if r.fsmState = AsyncState.init then r.current ≠ none → s.db.pgsql.connNext pq ≠ none
      else ∀ a async, r.current = some (a, async) → async.leftOver = false
  | .request n .free => ∀ r, s.requests[n]? = some r → r.cleanable = true
  | _ => True

/-- The invariant behind conservation. -/
structure Ledgered (s : DbWorker) : Prop where
  requests : ∀ r ∈ s.requests, r.Sound ∧ r.Paired ∧ r.Tidy
  conserves : s.db.Conserves (fun x => (s.requests.flatMap RawRequest.held).count x)

variable {s s' : DbWorker} {i : DbInput}

theorem Ledgered.request (h : s.Ledgered) {n : ℕ} {r r' : RawRequest} {db : Db}
    (hget : s.requests[n]? = some r) (hbalances : RawRequest.Balances s.db r db r')
    (hkept : r'.Sound ∧ r'.Paired ∧ r'.Tidy) : Ledgered ⟨db, s.requests.set n r'⟩ := by
  refine ⟨forall_mem_set h.requests n hkept, ?_⟩
  · obtain ⟨rest, hold, hnew⟩ := exists_rest RawRequest.held hget
    have hrest := hbalances rest (h.conserves.congr (fun x => by
      rw [hold x]
      omega))
    refine hrest.congr (fun x => ?_)
    rw [hnew r' x]
    omega

theorem Moves.ledgered (h : Moves s i s') (hanswers : s.Answers i) (hled : s.Ledgered) :
    s'.Ledgered := by
  cases h with
  | accept =>
      refine ⟨?_, ?_⟩
      · intro r hmem
        rcases List.mem_append.1 hmem with hmem | hmem
        · exact hled.requests r hmem
        · rw [List.mem_singleton.1 hmem]
          exact ⟨RawRequest.sound_new, Or.inr (Or.inr (fun h => absurd rfl h)),
            RawRequest.tidy_new⟩
      · exact hled.conserves.congr (fun x => by simp [RawRequest.held])
  | newSql => exact ⟨hled.requests, hled.conserves.newSql⟩
  | deleteSql => exact ⟨hled.requests, hled.conserves.deleteSql _⟩
  | @query k pq sql result db hsql hlive hexec =>
      have hsame : db.sqls[k]? = some sql := by
        rw [Db.exec_sqls hexec]
        exact hsql
      exact ⟨hled.requests,
        Db.Conserves.setResult hsame hlive (hled.conserves.exec hexec hanswers.2)⟩
  | request hget hstep =>
      have hmoves := RawRequest.step_moves hstep
      obtain ⟨hsound, hpaired, htidy⟩ := hled.requests _ (List.mem_of_getElem? hget)
      exact hled.request hget (hmoves.balances htidy)
        ⟨hmoves.sound hsound, hmoves.paired hpaired, hmoves.tidy hsound hpaired htidy⟩

/-! ### The ledger of a worker -/

theorem Ledgered.resultConns_eq (h : s.Ledgered) :
    s.resultConns = s.db.sqls.flatMap (fun sql => sql.result.toList) := by
  apply List.flatMap_congr
  intro sql hmem
  split
  · rfl
  · next hlive => rw [h.conserves.dead sql hmem (by simpa using hlive), Option.toList_none]

theorem Ledgered.asyncConns_eq (h : s.Ledgered) :
    s.asyncConns = s.requests.flatMap RawRequest.held := by
  apply List.flatMap_congr
  intro r hr
  apply List.flatMap_congr
  intro async hmem
  split
  · rfl
  · next hlive =>
    rw [(h.requests r hr).2.2.dead async hmem (by simpa using hlive), Option.toList_none]

theorem Ledgered.perm (h : s.Ledgered) :
    (s.db.pgsql.connFree ++ s.resultConns ++ s.asyncConns ++ s.db.pgsql.closed).Perm
      (List.range s.db.pgsql.made) := by
  apply balanced_count_iff.1
  refine h.conserves.conns.congr (fun x => ?_)
  rw [h.resultConns_eq, h.asyncConns_eq, Db.count_held, List.count_append, List.count_append,
    List.count_append]
  omega

theorem Quiet.conns (h : s.Quiet) : s.resultConns = [] ∧ s.asyncConns = [] := by
  refine ⟨?_, ?_⟩
  · apply List.flatMap_eq_nil_iff.2
    intro sql hmem
    split
    · next hlive => rw [h.1 sql hmem hlive, Option.toList_none]
    · rfl
  · apply List.flatMap_eq_nil_iff.2
    intro r hr
    apply List.flatMap_eq_nil_iff.2
    intro async hmem
    rw [if_neg (by simp [h.2 r hr async hmem])]

/-- All open connections of a quiet worker are free. -/
theorem Ledgered.not_refused (h : s.Ledgered) (hquiet : s.Quiet) (pq : Libpq) (pgsql : Pgsql) :
    s.db.pgsql.connNext pq ≠ some (.refused, pgsql) := by
  have hlength := h.perm.length_eq
  rw [hquiet.conns.1, hquiet.conns.2, List.append_nil, List.append_nil, List.length_append,
    List.length_range] at hlength
  have hcounted := h.conserves.counted
  have hroom := h.conserves.room
  unfold Pgsql.connNext Pgsql.connCreate
  split
  · nofun
  · next hfree =>
    rw [hfree, List.length_nil] at hlength
    rw [if_neg (by omega)]
    split
    · nofun
    · split <;> nofun

theorem Ledgered.conserved (h : s.Ledgered) : s.Conserved :=
  ⟨h.perm, h.conserves.counted, h.not_refused⟩

theorem ledgered_start {connMax : ℕ} (hmax : 0 < connMax) : (start connMax).Ledgered :=
  ⟨by simp [start], ⟨fun x => rfl, rfl, nofun, hmax⟩⟩

/-- In every run in which no synchronous query fails on its connection, connections are
conserved. -/
theorem exec_conserved {connMax : ℕ} (hmax : 0 < connMax) {inputs : List DbInput}
    {outputs : List Unit} (hanswers : Machine.Always step Answers (start connMax) inputs)
    (hexec : Machine.exec step (start connMax) inputs = some (s, outputs)) : s.Conserved := by
  apply Ledgered.conserved
  refine Machine.exec_invariant (I := Ledgered) ?_ (ledgered_start hmax) hanswers hexec
  intro s i s' o hled hanswer hstep
  exact (step_moves hstep).ledgered hanswer hled

theorem exec_conserved_answered :
    ∃ s outputs, Machine.exec step (start 2) [.newSql, .query 0 {}] = some (s, outputs) ∧
      s.resultConns = [0] ∧ s.Conserved := by
  have hanswers : Machine.Always step Answers (start 2) [.newSql, .query 0 {}] :=
    ⟨trivial, fun _ h => by
      cases h
      exact ⟨⟨Option.some_ne_none _, fun _ _ _ => Or.inl rfl⟩, fun _ _ => trivial⟩⟩
  obtain ⟨s, outputs, hexec, hconns⟩ : ∃ s outputs,
      Machine.exec step (start 2) [.newSql, .query 0 {}] = some (s, outputs) ∧
        s.resultConns = [0] := ⟨_, _, rfl, rfl⟩
  exact ⟨s, outputs, hexec, hconns, exec_conserved (by decide) hanswers hexec⟩

/-- Two synchronous queries that fail use up the connections of a worker. -/
theorem failed_queries_exhaust :
    ¬ ∀ (connMax : ℕ), 0 < connMax → ∀ (inputs : List DbInput) (s : DbWorker)
      (outputs : List Unit), Machine.exec step (start connMax) inputs = some (s, outputs) →
      s.Conserved := by
  intro h
  obtain ⟨s, outputs, hexec, hrequests, hsqls, hrefused⟩ : ∃ s outputs,
      Machine.exec step (start 2) [.newSql, .query 0 { exec := .fatalError },
        .query 0 { exec := .fatalError }] = some (s, outputs) ∧ s.requests = [] ∧
      s.db.sqls = [{}] ∧ s.db.pgsql.connNext {} = some (.refused, s.db.pgsql) :=
    ⟨_, _, rfl, rfl, rfl, rfl⟩
  have hconserved := h 2 (by decide) _ s outputs hexec
  have hquiet : s.Quiet := by
    unfold Quiet
    rw [hrequests, hsqls]
    exact ⟨by simp, by simp⟩
  exact hconserved.granted hquiet {} _ hrefused

end DbWorker

end Sparc
