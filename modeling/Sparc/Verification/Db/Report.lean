import Sparc.Verification.Db.Completion

/-! # What is reported of a successful query

The states of the query in kore and those of the request are followed together. Only a
result with tuples leads through the state in which the callback is called.
-/

namespace Sparc

/-- The server has carried out a query, or a part of it. -/
def ExecStatus.Succeeds (status : ExecStatus) : Prop :=
  status = .tuplesOk ∨ status = .singleTuple ∨ status = .commandOk

instance (status : ExecStatus) : Decidable status.Succeeds :=
  inferInstanceAs (Decidable (_ ∨ _ ∨ _))

/-- The first result has tuples. -/
def Tuples (results : List ExecStatus) : Prop :=
  results.head? = some .tuplesOk ∨ results.head? = some .singleTuple

instance (results : List ExecStatus) : Decidable (Tuples results) :=
  inferInstanceAs (Decidable (_ ∨ _))

/-- The status an invocation of a callback has left. -/
def DbEvent.invokedStatus : DbEvent → Option ℤ
  | .invoked status => some status
  | _ => none

/-! ## The query in kore -/

theorem KorePgsql.handle_cases (pgsql : KorePgsql) {pq : Libpq} (hconsume : pq.consume = true) :
    pgsql.handle pq = { pgsql with state := .wait } ∨
    pgsql.results = [] ∧ pgsql.handle pq = { pgsql with state := .done } ∨
    ∃ res results, pgsql.results = res :: results ∧
      pgsql.handle pq = { pgsql with state := resultState pgsql.state res, results } := by
  unfold handle readResult
  rw [if_pos hconsume]
  split
  · exact Or.inl rfl
  · split
    · next hnil => exact Or.inr (Or.inl ⟨hnil, rfl⟩)
    · next res results hcons => exact Or.inr (Or.inr ⟨res, results, hcons, rfl⟩)

theorem KorePgsql.resultState_of_succeeds {res : ExecStatus} (h : res.Succeeds)
    (state : PgsqlState) :
    resultState state res = .result ∧ Tuples [res] ∨
      resultState state res = .done ∧ ¬ Tuples [res] := by
  rcases h with rfl | rfl | rfl
  · exact Or.inl ⟨rfl, by decide⟩
  · exact Or.inl ⟨rfl, by decide⟩
  · exact Or.inr ⟨rfl, by decide⟩

/-! ## The story of a query -/

/-- Before the callback is called: the state of the request and that of its query in kore. -/
inductive Untold (handler : Bool) (results : List ExecStatus) (pgsql : KorePgsql) :
    ℕ → PgsqlState → Prop where
  | waiting (hresults : pgsql.results = results) :
      Untold handler results pgsql AsyncState.wait .wait
  | found (htuples : Tuples results) : Untold handler results pgsql AsyncState.wait .result
  | read (htuples : Tuples results) : Untold handler results pgsql AsyncState.read .result
  | nothing (hnot : ¬ Tuples results) : Untold handler results pgsql AsyncState.wait .done
  | drained (hnot : ¬ Tuples results) : Untold handler results pgsql AsyncState.wait .complete
  | ended {state : PgsqlState} (hnot : ¬ (handler = true ∧ Tuples results)) :
      Untold handler results pgsql AsyncState.done state

/-- Once it has been called. -/
inductive Going : ℕ → PgsqlState → Prop where
  | waiting : Going AsyncState.wait .wait
  | found : Going AsyncState.wait .result
  | read : Going AsyncState.read .result
  | nothing : Going AsyncState.wait .done
  | drained : Going AsyncState.wait .complete
  | ended {state : PgsqlState} : Going AsyncState.done state

/-- The states of a query, from the time it is sent, with the invocations of its callback and
the status they have left. -/
structure Story (results : List ExecStatus) (invoked : List ℤ) (state : ℕ) (async : PgsqlAsync) :
    Prop where
  kinds : ∀ res ∈ async.pgsql.results, res.Succeeds
  told : (invoked = [] ∧ async.status = Status.internalError ∧
      Untold async.handler results async.pgsql state async.pgsql.state) ∨
    (invoked.getLast? = some async.status ∧ async.handler = true ∧ Tuples results ∧
      Going state async.pgsql.state)

namespace Story

variable {results : List ExecStatus} {invoked : List ℤ} {state : ℕ} {async : PgsqlAsync}
  {pq : Libpq}

theorem handle_kinds (h : ∀ res ∈ async.pgsql.results, res.Succeeds)
    (hconsume : pq.consume = true) : ∀ res ∈ (async.pgsql.handle pq).results, res.Succeeds := by
  rcases async.pgsql.handle_cases hconsume with heq | ⟨-, heq⟩ | ⟨res, rest, hcons, heq⟩
  · rw [heq]
    exact h
  · rw [heq]
    exact h
  · rw [heq]
    intro other hmem
    exact h other (hcons ▸ List.mem_cons_of_mem res hmem)

/-- After the callback, or beside it, kore reads on. -/
theorem going_handle (h : ∀ res ∈ async.pgsql.results, res.Succeeds)
    (hconsume : pq.consume = true) : Going AsyncState.wait (async.pgsql.handle pq).state := by
  rcases async.pgsql.handle_cases hconsume with heq | ⟨-, heq⟩ | ⟨res, rest, hcons, heq⟩
  · rw [heq]
    exact .waiting
  · rw [heq]
    exact .nothing
  · have hres : res.Succeeds := h res (hcons ▸ List.mem_cons_self)
    rw [heq]
    rcases KorePgsql.resultState_of_succeeds hres async.pgsql.state with ⟨hs, -⟩ | ⟨hs, -⟩
    · exact hs ▸ .found
    · exact hs ▸ .nothing

/-- The first answer of the server decides whether the callback will be called. -/
theorem untold_handle {handler : Bool} (h : ∀ res ∈ async.pgsql.results, res.Succeeds)
    (hresults : async.pgsql.results = results) (hconsume : pq.consume = true) :
    Untold handler results (async.pgsql.handle pq) AsyncState.wait
      (async.pgsql.handle pq).state := by
  rcases async.pgsql.handle_cases hconsume with heq | ⟨hnil, heq⟩ | ⟨res, rest, hcons, heq⟩
  · rw [heq]
    exact .waiting hresults
  · rw [heq]
    refine .nothing ?_
    rw [← hresults, hnil]
    decide
  · have hres : res.Succeeds := h res (hcons ▸ List.mem_cons_self)
    have hhead : Tuples results ↔ Tuples [res] := by
      rw [← hresults, hcons]
      rfl
    rw [heq]
    rcases KorePgsql.resultState_of_succeeds hres async.pgsql.state with ⟨hs, ht⟩ | ⟨hs, ht⟩
    · exact hs ▸ .found (hhead.2 ht)
    · exact hs ▸ .nothing (fun h => ht (hhead.1 h))

/-- The server answers while the request waits. -/
theorem event (h : Story results invoked AsyncState.wait async) (hwait : async.pgsql.state = .wait)
    (hconsume : pq.consume = true) :
    Story results invoked AsyncState.wait { async with pgsql := async.pgsql.handle pq } := by
  refine ⟨handle_kinds h.kinds hconsume, ?_⟩
  rcases h.told with ⟨hnone, hstatus, hstage⟩ | ⟨hlast, hhandler, htuples, -⟩
  · rw [hwait] at hstage
    cases hstage with
    | waiting hresults =>
        exact Or.inl ⟨hnone, hstatus, untold_handle h.kinds hresults hconsume⟩
  · exact Or.inr ⟨hlast, hhandler, htuples, going_handle h.kinds hconsume⟩

theorem not_error (h : Story results invoked AsyncState.wait async) :
    async.pgsql.state ≠ .error := by
  intro herror
  rcases h.told with ⟨-, -, hstage⟩ | ⟨-, -, -, hgoing⟩
  · rw [herror] at hstage
    cases hstage
  · rw [herror] at hgoing
    cases hgoing

theorem state_cases (h : Story results invoked state async) :
    state = AsyncState.wait ∨ state = AsyncState.read ∨ state = AsyncState.done := by
  rcases h.told with ⟨-, -, hstage⟩ | ⟨-, -, -, hgoing⟩
  · generalize async.pgsql.state = kore at hstage
    cases hstage <;> decide
  · generalize async.pgsql.state = kore at hgoing
    cases hgoing <;> decide

/-- The connection has been drained. -/
theorem drained (h : Story results invoked AsyncState.wait async)
    (hcomplete : async.pgsql.state = .complete) :
    Story results invoked AsyncState.done async := by
  refine ⟨h.kinds, ?_⟩
  rcases h.told with ⟨hnone, hstatus, hstage⟩ | ⟨hlast, hhandler, htuples, -⟩
  · rw [hcomplete] at hstage
    cases hstage with
    | drained hnot => exact Or.inl ⟨hnone, hstatus, .ended (fun h => hnot h.2)⟩
  · exact Or.inr ⟨hlast, hhandler, htuples, .ended⟩

/-- A result is there. -/
theorem found (h : Story results invoked AsyncState.wait async)
    (hresult : async.pgsql.state = .result) : Story results invoked AsyncState.read async := by
  refine ⟨h.kinds, ?_⟩
  have htold := h.told
  rw [hresult] at htold ⊢
  rcases htold with ⟨hnone, hstatus, hstage⟩ | ⟨hlast, hhandler, htuples, -⟩
  · cases hstage with
    | found htuples => exact Or.inl ⟨hnone, hstatus, .read htuples⟩
  · exact Or.inr ⟨hlast, hhandler, htuples, .read⟩

/-- The connection is given back when there are no more results. -/
theorem released (h : Story results invoked AsyncState.wait async)
    (hdone : async.pgsql.state = .done) :
    Story results invoked AsyncState.wait { async with pgsql := async.pgsql.released } := by
  refine ⟨nofun, ?_⟩
  rcases h.told with ⟨hnone, hstatus, hstage⟩ | ⟨hlast, hhandler, htuples, -⟩
  · rw [hdone] at hstage
    cases hstage with
    | nothing hnot => exact Or.inl ⟨hnone, hstatus, .drained hnot⟩
  · exact Or.inr ⟨hlast, hhandler, htuples, .drained⟩

/-- Without a callback a result ends the query. -/
theorem silent (h : Story results invoked AsyncState.read async) (hnone : async.handler = false) :
    async.status = Status.internalError ∧ Story results invoked AsyncState.done async := by
  have hnot : async.handler ≠ true := by simp [hnone]
  rcases h.told with ⟨hinvoked, hstatus, -⟩ | ⟨-, hhandler, -⟩
  · refine ⟨hstatus, h.kinds, Or.inl ⟨hinvoked, hstatus, .ended ?_⟩⟩
    exact fun hboth => hnot hboth.1
  · exact absurd hhandler hnot

theorem tuples_of_read (h : Story results invoked AsyncState.read async) :
    Tuples results ∧ async.pgsql.state = .result := by
  rcases h.told with ⟨-, -, hstage⟩ | ⟨-, -, htuples, hgoing⟩
  · generalize async.pgsql.state = kore at hstage ⊢
    cases hstage with
    | read htuples => exact ⟨htuples, rfl⟩
  · generalize async.pgsql.state = kore at hgoing ⊢
    cases hgoing with
    | read => exact ⟨htuples, rfl⟩

/-- At its end the callback has been called if there was a result with tuples for it. -/
theorem reported (h : Story results invoked AsyncState.done async) :
    invoked.getLast? = some async.status ↔ async.handler = true ∧ Tuples results := by
  rcases h.told with ⟨hnone, -, hstage⟩ | ⟨hlast, hhandler, htuples, -⟩
  · cases hstage with
    | ended hnot => simp [hnone, hnot]
  · exact ⟨fun _ => ⟨hhandler, htuples⟩, fun _ => hlast⟩

end Story

/-- The query an event sends: whether it has a callback, and what the server answers. -/
def DbEvent.sentQuery : DbEvent → Option (Bool × List ExecStatus)
  | .sent handler results => some (handler, results)
  | _ => none

/-- A callback of a query runs. -/
def Control.isReading : Control → Bool
  | .reading _ => true
  | _ => false

namespace RawRequest

/-- The statuses left by the invocations of callbacks. -/
def invoked (r : RawRequest) : List ℤ := r.trace.filterMap DbEvent.invokedStatus

/-- The queries sent. -/
def sent (r : RawRequest) : List (Bool × List ExecStatus) := r.trace.filterMap DbEvent.sentQuery

/-- A request that has been suspended and completed has sent one query. The status of its
completion is the one its callback has left last, exactly if the query has a callback and
its first result has tuples. -/
def Settled (r : RawRequest) : Prop :=
  DbEvent.suspended ∈ r.trace → ∀ status, DbEvent.completeRequest status ∈ r.trace →
    ∃ handler results, r.sent = [(handler, results)] ∧
      (r.invoked.getLast? = some status ↔ handler = true ∧ Tuples results)

/-- Nothing has been asked yet. -/
structure Unasked (r : RawRequest) : Prop where
  invoked : r.invoked = []
  sent : r.sent = []
  status : ∀ async ∈ r.asyncs, async.status = Status.internalError

/-- A query has not been sent yet. -/
structure Starting (r : RawRequest) : Prop where
  unasked : r.Unasked
  state : r.fsmState = AsyncState.init ∨ r.fsmState = AsyncState.query ∧
    ∀ a async, r.current = some (a, async) → async.pgsql.async = true ∧ async.pgsql.conn ≠ none

/-- The query has been sent. -/
structure Late (r : RawRequest) (a : ℕ) (async : PgsqlAsync) (results : List ExecStatus) :
    Prop where
  current : r.current = some (a, async)
  sent : r.sent = [(async.handler, results)]
  story : Story results r.invoked r.fsmState async

/-- A request in the asynchronous states. -/
def Asking (r : RawRequest) : Prop := r.Starting ∨ ∃ a async results, r.Late a async results

/-- The query of a request, by the place where it is. -/
def Reporting (r : RawRequest) : Prop :=
  match r.control with
  | .handling => r.Unasked ∧ r.fsmState = AsyncState.init ∧ DbEvent.suspended ∉ r.trace
  | .running => r.Asking
  | .reading a => ∃ async results, r.Late a async results ∧ r.fsmState = AsyncState.read ∧
      async.handler = true
  | .idle => r.delete_ = false → r.Asking ∧
      (r.fsmState = AsyncState.init ∨ r.fsmState = AsyncState.wait)
  | _ => True

/-- The database reports no error and kore runs the request between two answers, the client
stays, and the callback starts no other query for the request. -/
def Smooth (r : RawRequest) : Input → Prop
  | .exec _ _ _ => r.control.isReading = false
  | .run pq => pq.connect = true ∧ ∃ results ∈ pq.send, ∀ res ∈ results, res.Succeeds
  | .returned _ pq => pq.consume = true
  | .event a pq => pq.consume = true ∧ ∀ async ∈ r.object a, async.pgsql.state = .wait
  | .lost _ => False
  | .disconnect => False
  | _ => True

instance (r : RawRequest) : DecidablePred r.Smooth := fun e => by
  unfold Smooth
  cases e <;> infer_instance

variable {db db' : Db} {r r' : RawRequest} {pq : Libpq}

theorem invoked_log (r : RawRequest) (e : DbEvent) :
    (r.log e).invoked = r.invoked ++ e.invokedStatus.toList := by
  unfold invoked log
  rw [List.filterMap_append]
  cases h : e.invokedStatus <;> simp [h]

theorem sent_log (r : RawRequest) (e : DbEvent) :
    (r.log e).sent = r.sent ++ e.sentQuery.toList := by
  unfold sent log
  rw [List.filterMap_append]
  cases h : e.sentQuery <;> simp [h]

theorem settled_of_completions (h : r.completions = 0) : r.Settled := by
  intro _ status hmem
  have hnot := List.countP_eq_zero.1 h _ hmem
  exact absurd rfl hnot

theorem settled_of_not_suspended (h : DbEvent.suspended ∉ r.trace) : r.Settled :=
  fun hmem => absurd hmem h

/-- A request that waits for its deletion is not followed any more. -/
theorem reporting_of_delete (hcontrol : r.control = .idle) (hdelete : r.delete_ = true) :
    r.Reporting := by
  unfold Reporting
  rw [hcontrol]
  exact fun hkept => absurd (hdelete.symm.trans hkept) Bool.noConfusion

/-! ## Callbacks -/

theorem Unasked.set (h : r.Unasked) (a : ℕ) (async : PgsqlAsync)
    (hstatus : async.status = Status.internalError) :
    ({ r with asyncs := r.asyncs.set a async } : RawRequest).Unasked := by
  exact ⟨h.invoked, h.sent, Ledger.forall_mem_set h.status a hstatus⟩

theorem connNext_ne_failed {pg : Pgsql} (hconnect : pq.connect = true) :
    pg.connNext pq ≠ some (.failed, pg) := by
  unfold Pgsql.connNext Pgsql.connCreate
  split
  · nofun
  · rw [if_pos hconnect]
    split <;> nofun

/-- A query that is not out yet has a state of its own. -/
theorem Late.not_starting {a : ℕ} {async : PgsqlAsync} {results : List ExecStatus}
    (h : r.Late a async results) :
    r.fsmState ≠ AsyncState.init ∧ r.fsmState ≠ AsyncState.query ∧
      r.fsmState ≠ AsyncState.error := by
  rcases h.story.state_cases with hstate | hstate | hstate <;> rw [hstate] <;> decide

theorem Asking.starting (h : r.Asking)
    (hstate : r.fsmState = AsyncState.init ∨ r.fsmState = AsyncState.query) : r.Starting := by
  rcases h with h | ⟨a, async, results, hlate⟩
  · exact h
  · rcases hstate with hstate | hstate
    · exact absurd hstate hlate.not_starting.1
    · exact absurd hstate hlate.not_starting.2.1

theorem Asking.late (h : r.Asking) {a : ℕ} {async : PgsqlAsync}
    (hcurrent : r.current = some (a, async))
    (hstate : r.fsmState ≠ AsyncState.init ∧ r.fsmState ≠ AsyncState.query) :
    ∃ results, r.Late a async results := by
  rcases h with h | ⟨b, other, results, hlate⟩
  · rcases h.state with hs | ⟨hs, -⟩
    · exact absurd hs hstate.1
    · exact absurd hs hstate.2
  · obtain ⟨rfl, rfl⟩ := Prod.mk.inj (Option.some.inj (hlate.current.symm.trans hcurrent))
    exact ⟨results, hlate⟩

/-- The story of a query that is out, by the state in which kore runs the request. -/
theorem Asking.told (h : r.Asking) {a : ℕ} {async : PgsqlAsync} {state : ℕ}
    (hcurrent : r.current = some (a, async)) (hstate : r.fsmState = state)
    (hne : state ≠ AsyncState.init ∧ state ≠ AsyncState.query) :
    ∃ results, r.sent = [(async.handler, results)] ∧ Story results r.invoked state async := by
  subst hstate
  obtain ⟨results, hlate⟩ := h.late hcurrent hne
  exact ⟨results, hlate.sent, hlate.story⟩

/-- The query is sent, and nothing is known of its results. -/
theorem Starting.send (h : r.Starting) {a : ℕ} {async : PgsqlAsync} {results : List ExecStatus}
    (hcurrent : r.current = some (a, async)) (hkinds : ∀ res ∈ results, res.Succeeds) :
    Late (((r.setPgsql a async { async.pgsql with state := .wait, results }).log
      (.sent async.handler results)).retry AsyncState.wait) a
      { async with pgsql := { async.pgsql with state := .wait, results } } results := by
  obtain ⟨hget, hlive⟩ := current_get hcurrent
  have hnone : (r.log (.sent async.handler results)).invoked = [] := by
    rw [invoked_log, h.unasked.invoked]
    rfl
  have hone : (r.log (.sent async.handler results)).sent = [(async.handler, results)] := by
    rw [sent_log, h.unasked.sent]
    rfl
  have hstatus := h.unasked.status async (List.mem_of_getElem? hget)
  refine ⟨?_, hone, hkinds, Or.inl ⟨hnone, hstatus, .waiting rfl⟩⟩
  exact current_set hcurrent
    { async with pgsql := { async.pgsql with state := .wait, results } } hlive

/-- The request is completed with the status that the callback was told. -/
theorem settled_of_story {async : PgsqlAsync} {results : List ExecStatus}
    (h : Story results r.invoked AsyncState.done async)
    (hsent : r.sent = [(async.handler, results)]) (hcompletions : r.completions = 0) :
    (r.log (.completeRequest async.status)).Settled := by
  intro _ status hmem
  refine ⟨async.handler, results, ?_, ?_⟩
  · exact (sent_log r (.completeRequest async.status)).trans ((List.append_nil _).trans hsent)
  · have hsame : DbEvent.completeRequest status = .completeRequest async.status := by
      refine (mem_log.1 hmem).resolve_left (fun hearlier => ?_)
      exact absurd rfl (List.countP_eq_zero.1 hcompletions _ hearlier)
    have hinvoked : (r.log (.completeRequest async.status)).invoked = r.invoked :=
      (invoked_log r (.completeRequest async.status)).trans (List.append_nil _)
    cases hsame
    rw [← h.reported, ← hinvoked]

theorem Reads.asking {a : ℕ} {async : PgsqlAsync} {results : List ExecStatus}
    (h : Reads db r a async pq db' r') (hcurrent : r.current = some (a, async))
    (hsent : r.sent = [(async.handler, results)])
    (hdone : Story results r.invoked AsyncState.done async)
    (hwait : async.status = Status.ok →
      Story results r.invoked AsyncState.wait { async with pgsql := async.pgsql.handle pq })
    (hresult : async.pgsql.state = .result) (hcompletions : r.completions = 0) :
    r'.Reporting ∧ r'.Settled := by
  have hsettled := settled_of_completions hcompletions
  cases h with
  | stop => exact ⟨Or.inr ⟨a, async, results, hcurrent, hsent, hdone⟩, hsettled⟩
  | @onward pgsql query hstatus hcontinue =>
      refine ⟨Or.inr ⟨a, { async with pgsql := query }, results, ?_, hsent, ?_⟩, hsettled⟩
      · exact current_set hcurrent { async with pgsql := query } (current_get hcurrent).2
      · rcases Pgsql.continue_cases hcontinue with ⟨-, -, hs | hs | ⟨hs, -⟩⟩ | ⟨c, hs, -⟩ |
          ⟨-, -, -, rfl⟩
        · exact absurd (hresult.symm.trans hs) nofun
        · exact absurd (hresult.symm.trans hs) nofun
        · exact absurd (hresult.symm.trans hs) nofun
        · exact absurd (hresult.symm.trans hs) nofun
        · exact hwait hstatus
  | crash => exact ⟨trivial, hsettled⟩

theorem query_sends {pgsql : KorePgsql} {results : List ExecStatus} (hasync : pgsql.async = true)
    (hconn : pgsql.conn ≠ none) (hsend : pq.send = some results) :
    pgsql.query pq = (true, { pgsql with state := .wait, results }) := by
  obtain ⟨c, hconn⟩ := Option.ne_none_iff_exists'.1 hconn
  unfold KorePgsql.query
  simp [hconn, hasync, hsend]

theorem Calls.reporting (h : Calls db r pq db' r') (hconnect : pq.connect = true)
    (hsend : ∃ results, pq.send = some results ∧ ∀ res ∈ results, res.Succeeds)
    (hasking : r.Asking) (hcompletions : r.completions = 0) : r'.Reporting ∧ r'.Settled := by
  have hsettled := settled_of_completions hcompletions
  cases h with
  | unexpected =>
      refine ⟨reporting_of_delete rfl rfl, settled_of_completions ?_⟩
      exact (completions_log r (.httpResponse 500)).trans hcompletions
  | @taken a async c pgsql hstate hcurrent hnext =>
      obtain ⟨hget, hlive⟩ := current_get hcurrent
      have hunasked := (hasking.starting (Or.inl hstate)).unasked
      have hstatus := hunasked.status async (List.mem_of_getElem? hget)
      have hset := hunasked.set a
        { async with pgsql := { state := .init, async := true, conn := some c } } hstatus
      refine ⟨Or.inl ⟨⟨hset.invoked, hset.sent, hset.status⟩, Or.inr ⟨rfl, ?_⟩⟩, hsettled⟩
      intro b other hother
      have hsame := (current_set hcurrent
        { async with pgsql := { state := .init, async := true, conn := some c } } hlive).symm.trans
          hother
      obtain ⟨rfl, rfl⟩ := Prod.mk.inj (Option.some.inj hsame)
      exact ⟨rfl, nofun⟩
  | @refused a async hstate hcurrent hnext =>
      have hunasked := (hasking.starting (Or.inl hstate)).unasked
      have hstatus := hunasked.status async (List.mem_of_getElem? (current_get hcurrent).1)
      have hset := hunasked.set a { async with pgsql := { state := .init, async := true } } hstatus
      refine ⟨fun _ => ⟨Or.inl ⟨⟨hset.invoked, hset.sent, hset.status⟩, Or.inl rfl⟩, ?_⟩, hsettled⟩
      exact Or.inl rfl
  | failed hstate hcurrent hnext => exact absurd hnext (connNext_ne_failed hconnect)
  | @unsent a async query hstate hcurrent hquery =>
      obtain ⟨results, hresults, -⟩ := hsend
      rcases (hasking.starting (Or.inr hstate)).state with hs | ⟨-, hready⟩
      · exact absurd (hstate.symm.trans hs) nofun
      · obtain ⟨hasync, hconn⟩ := hready a async hcurrent
        rw [query_sends hasync hconn hresults] at hquery
        cases hquery
  | @sent a async query hstate hcurrent hquery =>
      obtain ⟨results, hresults, hkinds⟩ := hsend
      have hstart := hasking.starting (Or.inr hstate)
      rcases hstart.state with hs | ⟨-, hready⟩
      · exact absurd (hstate.symm.trans hs) nofun
      · obtain ⟨hasync, hconn⟩ := hready a async hcurrent
        rw [query_sends hasync hconn hresults] at hquery
        cases hquery
        have hlate := hstart.send hcurrent hkinds
        refine ⟨fun _ => ⟨Or.inr ⟨a, _, results, hlate⟩, Or.inr rfl⟩, settled_of_completions ?_⟩
        exact (completions_log r (.sent async.handler results)).trans hcompletions
  | @waiting a async hstate hcurrent hpgsql =>
      obtain ⟨results, hsent, hstory⟩ := hasking.told hcurrent hstate (by decide)
      exact ⟨fun _ => ⟨Or.inr ⟨a, async, results, hcurrent, hsent, hstory⟩, Or.inr rfl⟩, hsettled⟩
  | @drained a async hstate hcurrent hpgsql =>
      obtain ⟨results, hsent, hstory⟩ := hasking.told hcurrent hstate (by decide)
      exact ⟨Or.inr ⟨a, async, results, hcurrent, hsent, hstory.drained hpgsql⟩, hsettled⟩
  | @error a async hstate hcurrent hpgsql =>
      obtain ⟨results, -, hstory⟩ := hasking.told hcurrent hstate (by decide)
      exact absurd hpgsql hstory.not_error
  | @result a async hstate hcurrent hpgsql =>
      obtain ⟨results, hsent, hstory⟩ := hasking.told hcurrent hstate (by decide)
      exact ⟨Or.inr ⟨a, async, results, hcurrent, hsent, hstory.found hpgsql⟩, hsettled⟩
  | @onward a async pgsql query hstate hcurrent hpgsql hcontinue =>
      obtain ⟨results, hsent, hstory⟩ := hasking.told hcurrent hstate (by decide)
      refine ⟨Or.inr ⟨a, { async with pgsql := query }, results, ?_, hsent, ?_⟩, hsettled⟩
      · exact current_set hcurrent { async with pgsql := query } (current_get hcurrent).2
      · rcases Pgsql.continue_cases hcontinue with ⟨-, rfl, -⟩ | ⟨c, hdone, -, -, rfl⟩ |
          ⟨hs | hs, -⟩
        · exact hstory
        · exact hstory.released hdone
        · exact absurd hs hpgsql.2.2
        · exact absurd hs hpgsql.2.1
  | @reading a async hstate hcurrent hhandler =>
      obtain ⟨results, hlate⟩ := hasking.late hcurrent (by rw [hstate]; decide)
      exact ⟨⟨async, results, ⟨hcurrent, hlate.sent, hlate.story⟩, hstate, hhandler⟩, hsettled⟩
  | @silent a async _ _ hstate hcurrent hhandler hreads =>
      obtain ⟨results, hsent, hstory⟩ := hasking.told hcurrent hstate (by decide)
      obtain ⟨hstatus, hdone⟩ := hstory.silent hhandler
      refine hreads.asking hcurrent hsent hdone (fun hok => ?_) hstory.tuples_of_read.2
        hcompletions
      exact absurd (hstatus.symm.trans hok) nofun
  | @finish a async hstate hcurrent =>
      rcases hstate with hstate | hstate
      · obtain ⟨results, hlate⟩ := hasking.late hcurrent (by rw [hstate]; decide)
        exact absurd hstate hlate.not_starting.2.2
      · obtain ⟨results, hsent, hstory⟩ := hasking.told hcurrent hstate (by decide)
        exact ⟨trivial, settled_of_story hstory hsent hcompletions⟩
  | crash => exact ⟨trivial, hsettled⟩

/-! ## Steps -/

/-- The destruction of objects tells nothing about queries. -/
theorem Settled.of_destroyed (h : r.Settled) (hevents : ∃ events, r'.trace = r.trace ++ events ∧
    ∀ e ∈ events, e = .cleanUp ∨ ∃ object, e = .destroyed object) : r'.Settled := by
  obtain ⟨events, htrace, hquiet⟩ := hevents
  have hinvoked : r'.invoked = r.invoked := by
    have hnone : events.filterMap DbEvent.invokedStatus = [] := by
      refine List.filterMap_eq_nil_iff.2 (fun e he => ?_)
      rcases hquiet e he with rfl | ⟨object, rfl⟩ <;> rfl
    rw [invoked, htrace, List.filterMap_append, hnone, List.append_nil]
    rfl
  have hsent : r'.sent = r.sent := by
    have hnone : events.filterMap DbEvent.sentQuery = [] := by
      refine List.filterMap_eq_nil_iff.2 (fun e he => ?_)
      rcases hquiet e he with rfl | ⟨object, rfl⟩ <;> rfl
    rw [sent, htrace, List.filterMap_append, hnone, List.append_nil]
    rfl
  have hold : ∀ e, e ∈ r'.trace → e ≠ .cleanUp → (∀ object, e ≠ .destroyed object) →
      e ∈ r.trace := by
    intro e he hclean hdestroyed
    rw [htrace, List.mem_append] at he
    refine he.resolve_right (fun he => ?_)
    rcases hquiet e he with h | ⟨object, h⟩
    · exact hclean h
    · exact hdestroyed object h
  intro hsuspended status hstatus
  rw [hinvoked, hsent]
  exact h (hold _ hsuspended nofun nofun) status (hold _ hstatus nofun nofun)

theorem destroyed_abandon (r : RawRequest) : ∃ events, r.abandon.trace = r.trace ++ events ∧
    ∀ e ∈ events, e = .cleanUp ∨ ∃ object, e = .destroyed object :=
  ⟨[.destroyed .request, .destroyed .response], by simp [RawRequest.abandon, RawRequest.log],
    by simp⟩

theorem Asking.log (h : r.Asking) {e : DbEvent} (hinvoked : e.invokedStatus = none)
    (hsent : e.sentQuery = none) : (r.log e).Asking := by
  have hinvoked' : (r.log e).invoked = r.invoked := by
    rw [invoked_log, hinvoked]
    exact List.append_nil _
  have hsent' : (r.log e).sent = r.sent := by
    rw [sent_log, hsent]
    exact List.append_nil _
  rcases h with ⟨⟨hnone, hunsent, hstatus⟩, hstate⟩ | ⟨a, async, results, hcurrent, hone, hstory⟩
  · exact Or.inl ⟨⟨hinvoked'.trans hnone, hsent'.trans hunsent, hstatus⟩, hstate⟩
  · refine Or.inr ⟨a, async, results, hcurrent, hsent'.trans hone, ?_⟩
    rw [hinvoked']
    exact hstory

/-- kore runs the request. -/
theorem Asking.running (h : r.Asking) (data0 data1 : Bool) :
    ({ r with data0, data1, control := .running } : RawRequest).Asking := by
  rcases h with ⟨⟨hinvoked, hsent, hstatus⟩, hstate⟩ | ⟨a, async, results, hcurrent, hsent, hstory⟩
  · exact Or.inl ⟨⟨hinvoked, hsent, hstatus⟩, hstate⟩
  · exact Or.inr ⟨a, async, results, hcurrent, hsent, hstory⟩

/-- An answer of the server reaches an object of a request that waits. -/
theorem Asking.event (h : r.Asking)
    (hstate : r.fsmState = AsyncState.init ∨ r.fsmState = AsyncState.wait) {a : ℕ}
    {async : PgsqlAsync} (hobject : r.object a = some async) (hwait : async.pgsql.state = .wait)
    (hconsume : pq.consume = true) : (r.event a async pq).Asking := by
  rcases h with ⟨hunasked, hfsm⟩ | ⟨b, other, results, hcurrent, hsent, hstory⟩
  · have hstatus := hunasked.status async (List.mem_of_getElem? (object_eq_some.1 hobject).1)
    refine Or.inl ⟨hunasked.set a _ hstatus, Or.inl ?_⟩
    rcases hfsm with hfsm | ⟨hfsm, -⟩
    · exact hfsm
    · rw [hfsm] at hstate
      exact absurd hstate (by decide)
  · have hfsm : r.fsmState = AsyncState.wait := by
      refine hstate.resolve_left (fun hinit => ?_)
      exact absurd hinit (Late.not_starting ⟨hcurrent, hsent, hstory⟩).1
    rw [hfsm] at hstory
    obtain ⟨hextra, hother⟩ := current_eq_some.1 hcurrent
    by_cases hab : a = b
    · subst hab
      cases Option.some.inj (hobject.symm.trans hother)
      refine Or.inr ⟨a, { async with pgsql := async.pgsql.handle pq }, results, ?_, hsent, ?_⟩
      · exact current_set hcurrent _ (object_eq_some.1 hobject).2
      · have hnext := hstory.event hwait hconsume
        rw [← hfsm] at hnext
        exact hnext
    · refine Or.inr ⟨b, other, results, current_eq_some.2 ⟨hextra, ?_⟩, hsent, ?_⟩
      · obtain ⟨hget, hlive⟩ := object_eq_some.1 hother
        exact object_eq_some.2 ⟨(List.getElem?_set_ne hab).trans hget, hlive⟩
      · rw [← hfsm] at hstory
        exact hstory

/-- The application starts a query, not from the callback of another one. -/
theorem Reporting.exec (h : r.Reporting) (hcontrol : r.inApplication = true)
    (hreading : r.control.isReading = false) (i : ℕ) (sql : SqlObject) (handler cleared : Bool) :
    (RawRequest.exec db r i sql handler cleared).2.Reporting := by
  have hsame : (RawRequest.exec db r i sql handler cleared).2.control = r.control := rfl
  unfold Reporting at h
  unfold inApplication at hcontrol
  unfold Reporting
  rw [hsame]
  cases hr : r.control with
  | handling =>
      rw [hr] at h
      obtain ⟨⟨hinvoked, hsent, hstatus⟩, hstate, hnot⟩ := h
      refine ⟨⟨hinvoked, hsent, fun async hmem => ?_⟩, hstate, hnot⟩
      rcases List.mem_append.1 hmem with hmem | hmem
      · exact hstatus async hmem
      · rw [List.mem_singleton.1 hmem]
  | reading a => exact absurd (hr ▸ hreading) nofun
  | completing a => trivial
  | _ => simp [hr] at hcontrol

/-- The callback has returned a status for the results it was called with. -/
theorem Reporting.returned {a : ℕ} {async : PgsqlAsync} {status : ℤ} (h : r.Reporting)
    (hcontrol : r.control = .reading a) (hobject : r.object a = some async)
    (hconsume : pq.consume = true) (hcompletions : r.completions = 0)
    (hreads : Reads db (({ r with asyncs := r.asyncs.set a { async with status } }).log
      (.invoked status)) a { async with status } pq db' r') :
    r'.Reporting ∧ r'.Settled := by
  unfold Reporting at h
  rw [hcontrol] at h
  obtain ⟨other, results, ⟨hcurrent, hsent, hstory⟩, hfsm, hhandler⟩ := h
  cases Option.some.inj (hobject.symm.trans (current_eq_some.1 hcurrent).2)
  rw [hfsm] at hstory
  obtain ⟨htuples, hresult⟩ := hstory.tuples_of_read
  have hlast : (r.log (.invoked status)).invoked.getLast? = some status := by
    rw [invoked_log]
    exact List.getLast?_concat
  have hone : (r.log (.invoked status)).sent = [(async.handler, results)] :=
    (sent_log r (.invoked status)).trans ((List.append_nil _).trans hsent)
  refine hreads.asking ?_ hone ⟨hstory.kinds, ?_⟩ (fun _ => ⟨?_, ?_⟩) hresult ?_
  · exact current_set hcurrent { async with status } (object_eq_some.1 hobject).2
  · exact Or.inr ⟨hlast, hhandler, htuples, .ended⟩
  · exact Story.handle_kinds hstory.kinds hconsume
  · exact Or.inr ⟨hlast, hhandler, htuples, Story.going_handle hstory.kinds hconsume⟩
  · exact (completions_log r (.invoked status)).trans hcompletions

theorem Moves.reporting {e : Input} (h : Moves db r e db' r') (hsmooth : r.Smooth e)
    (hsound : r.Sound) (hreporting : r.Reporting) (hsettled : r.Settled) :
    r'.Reporting ∧ r'.Settled := by
  have hall := hreporting
  have hplace := hsound.place
  unfold Place at hplace
  unfold Reporting at hreporting
  cases h with
  | exec hcontrol => exact ⟨hall.exec hcontrol hsmooth _ _ _ _, hsettled⟩
  | suspend hcontrol hstates =>
      rw [hcontrol] at hreporting hplace
      obtain ⟨hunasked, hstate, -⟩ := hreporting
      have hasking : r.Asking := Or.inl ⟨hunasked, Or.inl hstate⟩
      have hlogged : (r.log .suspended).Asking := hasking.log rfl rfl
      refine ⟨?_, settled_of_completions ?_⟩
      · exact hlogged.running true true
      · exact (completions_log r .suspended).trans hplace.1.1
  | complete s hcontrol =>
      rw [hcontrol] at hreporting
      refine ⟨trivial, settled_of_not_suspended ?_⟩
      exact fun hmem => (mem_log.1 hmem).elim hreporting.2.2 nofun
  | abandon ret hcontrol =>
      exact ⟨reporting_of_delete rfl rfl, hsettled.of_destroyed (destroyed_abandon r)⟩
  | fatal pq hcontrol hfsm => exact ⟨trivial, hsettled⟩
  | call hcontrol hcall =>
      rw [hcontrol] at hreporting hplace
      obtain ⟨hconnect, hsend⟩ := hsmooth
      have hlogged := hreporting.log (e := .callback r.fsmState r.hdlrExtra.isSome) rfl rfl
      refine hcall.reporting hconnect hsend hlogged ?_
      exact (completions_log r _).trans hplace.pending.1
  | returned hcontrol hobject hstatus hreads =>
      rw [hcontrol] at hplace
      exact hall.returned hcontrol hobject hsmooth hplace.pending.1 hreads
  | escaped outcome pq hcontrol => exact ⟨trivial, hsettled⟩
  | handledAll hcontrol =>
      exact ⟨reporting_of_delete rfl rfl, hsettled.of_destroyed (destroyed_abandon r)⟩
  | @completed a async hcontrol hobject =>
      refine ⟨reporting_of_delete rfl rfl, hsettled.of_destroyed
        ⟨[.destroyed .request, .destroyed .response, .destroyed (.async a)], ?_, by simp⟩⟩
      simp [RawRequest.abandon, RawRequest.log, RawRequest.complete, RawRequest.deleteAsync]
  | dangling hcontrol hobject =>
      exact ⟨trivial, hsettled.of_destroyed (destroyed_abandon r)⟩
  | @event a async pq hcontrol hobject hconn =>
      rw [hcontrol] at hreporting
      refine ⟨?_, hsettled⟩
      have hsame : (r.event a async pq).control = .idle := hcontrol
      unfold Reporting
      rw [hsame]
      intro hdelete
      obtain ⟨hasking, hstate⟩ := hreporting hdelete
      exact ⟨hasking.event hstate hobject (hsmooth.2 async hobject) hsmooth.1, hstate⟩
  | lost hcontrol hobject hconn => exact hsmooth.elim
  | anew hcontrol hdelete hextra =>
      exact absurd hextra (hsound.active_of_idle hcontrol hdelete).extra
  | resume hcontrol hdelete hextra =>
      rw [hcontrol] at hreporting
      exact ⟨(hreporting hdelete).1.running r.data0 r.data1, hsettled⟩
  | stay hcontrol hextra hdata => exact ⟨hall, hsettled⟩
  | disconnect hcontrol => exact hsmooth.elim
  | free hcontrol hdelete =>
      refine ⟨?_, hsettled.of_destroyed (releases_httpRequestFree db r).trace⟩
      unfold Reporting
      rcases httpRequestFree_control db r with hfreed | hfreed <;> rw [hfreed] <;> trivial

theorem reporting_new : ({} : RawRequest).Reporting := ⟨⟨rfl, rfl, nofun⟩, rfl, nofun⟩

end RawRequest

namespace DbWorker

/-- The steps of one request are smooth. -/
def SmoothFor (n : ℕ) (s : DbWorker) : DbInput → Prop
  | .request m e => m = n → ∀ r ∈ s.requests[n]?, r.Smooth e
  | _ => True

instance (n : ℕ) (s : DbWorker) : DecidablePred (SmoothFor n s) := fun i => by
  unfold SmoothFor
  cases i <;> infer_instance

/-- What is followed of a request along a run. -/
def Followed (n : ℕ) (s : DbWorker) : Prop :=
  ∀ r, s.requests[n]? = some r → r.Sound ∧ r.Reporting ∧ r.Settled

theorem step_followed {n : ℕ} {s s' : DbWorker} {i : DbInput} {o : Unit} (h : s.Followed n)
    (hsmooth : SmoothFor n s i) (hstep : step s i = some (s', o)) : s'.Followed n := by
  intro r hr
  cases step_moves hstep with
  | accept =>
      rcases List.getElem?_eq_some_iff.1 hr with ⟨hlt, hget⟩
      by_cases hold : n < s.requests.length
      · exact h r (List.getElem?_append_left hold ▸ hr)
      · rw [List.getElem_append_right (Nat.not_lt.1 hold), List.getElem_singleton] at hget
        subst hget
        exact ⟨RawRequest.sound_new, RawRequest.reporting_new,
          RawRequest.settled_of_completions rfl⟩
  | newSql => exact h r hr
  | deleteSql => exact h r hr
  | query => exact h r hr
  | @request m e r₀ r' db hget hreq =>
      by_cases hmn : m = n
      · subst hmn
        have hlt := (List.getElem?_eq_some_iff.1 hget).1
        cases Option.some.inj ((List.getElem?_set_self hlt).symm.trans hr)
        obtain ⟨hsound, hreporting, hsettled⟩ := h r₀ hget
        have hmoves := RawRequest.step_moves hreq
        have hnext := hmoves.reporting (hsmooth rfl r₀ hget) hsound hreporting hsettled
        exact ⟨hmoves.sound hsound, hnext⟩
      · exact h r ((List.getElem?_set_ne hmn).symm.trans hr)

/-- In every run in which the database reports no error to a request, its client stays and its
callback is left to return before the next answer: when the request has been suspended and
completed it has sent one query, and the status of its completion is the one that the last
invocation of the callback has left, exactly if there is a callback and the first result has
tuples. -/
theorem completion_reported_iff {connMax n : ℕ} {inputs : List DbInput} {s : DbWorker}
    {outputs : List Unit} (hsmooth : Machine.Always step (SmoothFor n) (start connMax) inputs)
    (hexec : Machine.exec step (start connMax) inputs = some (s, outputs)) {r : RawRequest}
    (hget : s.requests[n]? = some r) (hsuspended : DbEvent.suspended ∈ r.trace) {status : ℤ}
    (hstatus : DbEvent.completeRequest status ∈ r.trace) :
    ∃ handler results, r.sent = [(handler, results)] ∧
      (r.invoked.getLast? = some status ↔ handler = true ∧ Tuples results) := by
  have hfollowed : s.Followed n :=
    Machine.exec_invariant (fun _ _ _ _ => step_followed) (by simp [Followed, start]) hsmooth hexec
  exact (hfollowed r hget).2.2 hsuspended status hstatus

theorem completion_reported_iff_answered :
    ∃ s outputs r, Machine.exec step (start 2) answered = some (s, outputs) ∧
      s.requests[0]? = some r ∧ r.sent = [(true, [.tuplesOk])] ∧
      r.invoked.getLast? = some 200 := by
  obtain ⟨s, outputs, r, hexec, hget, hsuspended, hstatus, hsent⟩ : ∃ s outputs r,
      Machine.exec step (start 2) answered = some (s, outputs) ∧ s.requests[0]? = some r ∧
        DbEvent.suspended ∈ r.trace ∧ DbEvent.completeRequest 200 ∈ r.trace ∧
        r.sent = [(true, [.tuplesOk])] :=
    ⟨_, _, _, rfl, rfl, by decide, by decide, rfl⟩
  have hsmooth : Machine.Always step (SmoothFor 0) (start 2) answered := by decide
  obtain ⟨handler, results, hone, hiff⟩ :=
    completion_reported_iff hsmooth hexec hget hsuspended hstatus
  cases hsent.symm.trans hone
  exact ⟨s, outputs, r, hexec, hget, hsent, hiff.2 (by decide)⟩

/-- The server answers with a command that is carried out, and the request is completed. -/
def commanded : List DbInput :=
  sends [.commandOk] ++ [.request 0 (.event 0 {}), .request 0 .process, .request 0 (.run {}),
    .request 0 (.run {}), .request 0 (.run {})]

/-- The callback of a query without tuples is not called, and the request is completed with
the status its `PgsqlAsync` starts with. -/
theorem command_not_reported :
    ¬ ∀ (connMax n : ℕ) (inputs : List DbInput) (s : DbWorker) (outputs : List Unit),
      Machine.Always step (SmoothFor n) (start connMax) inputs →
      Machine.exec step (start connMax) inputs = some (s, outputs) →
      ∀ r, s.requests[n]? = some r → DbEvent.suspended ∈ r.trace →
      ∀ status, DbEvent.completeRequest status ∈ r.trace → r.invoked.getLast? = some status := by
  intro h
  obtain ⟨s, outputs, r, hexec, hget, hsuspended, hstatus, hinvoked⟩ : ∃ s outputs r,
      Machine.exec step (start 2) commanded = some (s, outputs) ∧ s.requests[0]? = some r ∧
        DbEvent.suspended ∈ r.trace ∧ DbEvent.completeRequest 500 ∈ r.trace ∧ r.invoked = [] :=
    ⟨_, _, _, rfl, rfl, by decide, by decide, rfl⟩
  have hlast := h 2 0 commanded s outputs (by decide) hexec r hget hsuspended 500 hstatus
  rw [hinvoked] at hlast
  exact absurd hlast nofun

end DbWorker

end Sparc
