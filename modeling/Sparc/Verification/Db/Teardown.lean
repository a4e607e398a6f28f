import Sparc.Verification.Db.Completion

/-! # What a dropped request leaves behind -/

namespace Sparc.KorePgsql

/-! ## A query that has been set up -/

theorem resultState_ne_unset {state : PgsqlState} (h : state ≠ .unset)
    (res : ExecStatus) : resultState state res ≠ .unset := by
  cases res with
  | copyOut | copyIn | nonfatalError | copyBoth => exact h
  | commandOk | tuplesOk | singleTuple => exact PgsqlState.noConfusion
  | emptyQuery | badResponse | fatalError => exact PgsqlState.noConfusion

theorem handle_ne_unset {pgsql : KorePgsql} (h : pgsql.state ≠ .unset) (pq : Libpq) :
    (pgsql.handle pq).state ≠ .unset := by
  unfold handle readResult
  split
  · split
    · exact PgsqlState.noConfusion
    · split
      · exact PgsqlState.noConfusion
      · exact resultState_ne_unset h _
  · exact PgsqlState.noConfusion

theorem query_ne_unset {pgsql pgsql' : KorePgsql} {pq : Libpq}
    (h : pgsql.query pq = (true, pgsql')) : pgsql'.state ≠ .unset := by
  unfold query at h
  split at h
  · cases h
  · split at h
    · split at h
      · cases h
      · cases h
        exact PgsqlState.noConfusion
    · split at h
      · cases h
        exact PgsqlState.noConfusion
      · cases h

end Sparc.KorePgsql

namespace Sparc.RawRequest

/-- The objects of the request have each been destroyed once, and its slots are empty. -/
def Released (r : RawRequest) (a : ℕ) : Prop :=
  r.trace.count (.destroyed .request) = 1 ∧ r.trace.count (.destroyed .response) = 1 ∧
    r.trace.count (.destroyed (.async a)) = 1 ∧ r.data0 = false ∧ r.data1 = false

instance (r : RawRequest) (a : ℕ) : Decidable (r.Released a) :=
  inferInstanceAs (Decidable (_ ∧ _))

variable {db db' : Db} {r r' : RawRequest} {pq : Libpq}

/-! ## The slots -/

/-- The slots are filled when the request is suspended, and the one of the response stays
so. -/
structure Filled (r : RawRequest) : Prop where
  data1 : DbEvent.suspended ∈ r.trace → r.data1 = true
  data0 : r.data0 = true → DbEvent.suspended ∈ r.trace

theorem Filled.log (h : r.Filled) {e : DbEvent} (he : e ≠ .suspended) : (r.log e).Filled := by
  refine ⟨?_, fun hdata => mem_log.2 (Or.inl (h.data0 hdata))⟩
  intro hmem
  rcases mem_log.1 hmem with hmem | hmem
  · exact h.data1 hmem
  · exact absurd hmem.symm he

theorem Filled.place (h : r.Filled) (state : ℕ) (hdlrExtra : Option ℕ)
    (freeHdlrExtra asyncStates delete_ : Bool) (pgsqls : List ℕ) (asyncs : List PgsqlAsync)
    (control : Control) :
    ({ r with fsmState := state, hdlrExtra, freeHdlrExtra, asyncStates, delete_, pgsqls, asyncs,
              control } : RawRequest).Filled :=
  ⟨h.data1, h.data0⟩

theorem Reads.filled {a : ℕ} {async : PgsqlAsync} (h : Reads db r a async pq db' r')
    (hfilled : r.Filled) : r'.Filled := by
  cases h <;> exact hfilled.place _ _ _ _ _ _ _ _

theorem Calls.filled (h : Calls db r pq db' r') (hfilled : r.Filled) : r'.Filled := by
  cases h with
  | unexpected => exact (hfilled.log (e := .httpResponse 500) nofun).place _ _ _ _ _ _ _ _
  | @sent a async query =>
      exact (hfilled.log (e := .sent async.handler query.results) nofun).place _ _ _ _ _ _ _ _
  | @finish a async =>
      exact (hfilled.log (e := .completeRequest async.status) nofun).place _ _ _ _ _ _ _ _
  | silent _ _ _ hreads => exact hreads.filled hfilled
  | _ => exact hfilled.place _ _ _ _ _ _ _ _

theorem Filled.destroyed (h : r.Filled) :
    ((r.log (.destroyed .request)).log (.destroyed .response)).Filled := by
  have hrequest : (r.log (.destroyed .request)).Filled := h.log nofun
  exact hrequest.log nofun

/-- `http_request_free` records no suspension, and empties the slot of the response at no
time. -/
theorem Filled.free (h : r.Filled) : (httpRequestFree db r).2.Filled := by
  obtain ⟨⟨events, htrace, hquiet⟩, -, hdata1, hdata0⟩ := releases_httpRequestFree db r
  constructor
  · intro hmem
    rw [htrace, List.mem_append] at hmem
    rcases hmem with hmem | hmem
    · exact hdata1.trans (h.data1 hmem)
    · rcases hquiet _ hmem with h | ⟨object, h⟩ <;> cases h
  · intro hdata
    rw [htrace]
    exact List.mem_append_left events (h.data0 (hdata0 hdata))

theorem Moves.filled {e : Input} (h : Moves db r e db' r') (hfilled : r.Filled) : r'.Filled := by
  cases h with
  | suspend => exact ⟨fun _ => rfl, fun _ => mem_log.2 (Or.inr rfl)⟩
  | complete s => exact (hfilled.log (e := .completeRequest s) nofun).place _ _ _ _ _ _ _ _
  | abandon => exact hfilled.destroyed.place _ _ _ _ _ _ _ _
  | call hcontrol hcall => exact hcall.filled (hfilled.log nofun)
  | @returned a async outcome status _ _ _ hcontrol hobject hstatus hreads =>
      exact hreads.filled ((hfilled.log (e := .invoked status) nofun).place _ _ _ _ _ _ _ _)
  | handledAll => exact hfilled.destroyed.place _ _ _ _ _ _ _ _
  | @completed a =>
      exact (hfilled.destroyed.log (e := .destroyed (.async a)) nofun).place _ _ _ _ _ _ _ _
  | dangling => exact hfilled.destroyed.place _ _ _ _ _ _ _ _
  | free => exact hfilled.free
  | _ => exact hfilled.place _ _ _ _ _ _ _ _

/-! ## The objects of a request in use -/

/-- Nothing of the request has been destroyed, and its pointers lead somewhere. -/
structure Intact (r : RawRequest) : Prop where
  trace : ∀ object, DbEvent.destroyed object ∉ r.trace
  live : ∀ async ∈ r.asyncs, async.live = true
  extra : ∀ a, r.hdlrExtra = some a → a < r.asyncs.length ∧ r.freeHdlrExtra = true
  pgsqls : ∀ a ∈ r.pgsqls, a < r.asyncs.length

/-- The request is neither completed nor dropped. -/
def InUse (r : RawRequest) : Prop :=
  match r.control with
  | .handling | .running | .reading _ => True
  | .idle => r.delete_ = false
  | _ => False

theorem Intact.log (h : r.Intact) {e : DbEvent} (he : ∀ object, e ≠ .destroyed object) :
    (r.log e).Intact := by
  refine ⟨?_, h.live, h.extra, h.pgsqls⟩
  intro object hmem
  rcases mem_log.1 hmem with hmem | hmem
  · exact h.trace object hmem
  · exact he object hmem.symm

theorem Intact.set (h : r.Intact) (a : ℕ) (async : PgsqlAsync) (hlive : async.live = true) :
    ({ r with asyncs := r.asyncs.set a async } : RawRequest).Intact := by
  refine ⟨h.trace, Ledger.forall_mem_set h.live a hlive, ?_, ?_⟩
  · intro b hextra
    simpa using h.extra b hextra
  · intro b hmem
    simpa using h.pgsqls b hmem

theorem Intact.setPgsql (h : r.Intact) {a : ℕ} {async : PgsqlAsync}
    (hobject : r.object a = some async) (pgsql : KorePgsql) :
    (r.setPgsql a async pgsql).Intact :=
  h.set a { async with pgsql } (object_eq_some.1 hobject).2

/-- The other fields do not matter. -/
theorem Intact.place (h : r.Intact) (state : ℕ) (data0 data1 asyncStates delete_ : Bool)
    (control : Control) :
    ({ r with fsmState := state, data0, data1, asyncStates, delete_, control } :
      RawRequest).Intact :=
  ⟨h.trace, h.live, h.extra, h.pgsqls⟩

theorem Reads.intact {a : ℕ} {async : PgsqlAsync} (h : Reads db r a async pq db' r')
    (hintact : r.Intact) (hobject : r.object a = some async) (huse : r'.InUse) : r'.Intact := by
  cases h with
  | stop => exact hintact.place _ _ _ _ _ _
  | onward => exact (hintact.setPgsql hobject _).place _ _ _ _ _ _
  | crash => exact huse.elim

theorem Calls.intact (h : Calls db r pq db' r') (hintact : r.Intact) (huse : r'.InUse) :
    r'.Intact := by
  cases h with
  | unexpected => exact absurd huse nofun
  | @taken a async c pgsql hstate hcurrent hnext =>
      obtain ⟨hextra, hobject⟩ := current_eq_some.1 hcurrent
      obtain ⟨htrace, hlive, hextra', hpgsqls⟩ :=
        hintact.setPgsql hobject { state := .init, async := true, conn := some c }
      refine ⟨htrace, hlive, hextra', ?_⟩
      intro b hmem
      rcases List.mem_cons.1 hmem with rfl | hmem
      · exact (hextra' b hextra).1
      · exact hpgsqls b hmem
  | refused _ hcurrent =>
      exact (hintact.setPgsql (current_eq_some.1 hcurrent).2 _).place _ _ _ _ _ _
  | failed _ hcurrent => exact (hintact.setPgsql (current_eq_some.1 hcurrent).2 _).place _ _ _ _ _ _
  | unsent _ hcurrent => exact (hintact.setPgsql (current_eq_some.1 hcurrent).2 _).place _ _ _ _ _ _
  | @sent a async query hstate hcurrent hquery =>
      have hset := hintact.setPgsql (current_eq_some.1 hcurrent).2 query
      exact (hset.log (e := .sent async.handler query.results) nofun).place _ _ _ _ _ _
  | waiting => exact hintact.place _ _ _ _ _ _
  | drained => exact hintact.place _ _ _ _ _ _
  | @error a async hstate hcurrent =>
      have hlive := (object_eq_some.1 (current_eq_some.1 hcurrent).2).2
      exact (hintact.set a { async with status := Status.internalError } hlive).place _ _ _ _ _ _
  | result => exact hintact.place _ _ _ _ _ _
  | onward _ hcurrent => exact (hintact.setPgsql (current_eq_some.1 hcurrent).2 _).place _ _ _ _ _ _
  | reading => exact hintact.place _ _ _ _ _ _
  | silent _ hcurrent _ hreads => exact hreads.intact hintact (current_eq_some.1 hcurrent).2 huse
  | finish => exact huse.elim
  | crash => exact huse.elim

theorem Intact.exec (h : r.Intact) (i : ℕ) (sql : SqlObject) (handler cleared : Bool) :
    (RawRequest.exec db r i sql handler cleared).2.Intact := by
  refine ⟨h.trace, ?_, ?_, ?_⟩
  · intro async hmem
    rcases List.mem_append.1 hmem with hmem | hmem
    · exact h.live async hmem
    · rw [List.mem_singleton.1 hmem]
  · rintro a ⟨rfl⟩
    exact ⟨by simp [RawRequest.exec], rfl⟩
  · intro a hmem
    have hlt := h.pgsqls a hmem
    simp only [RawRequest.exec, List.length_append, List.length_singleton]
    omega

theorem Moves.intact {e : Input} (h : Moves db r e db' r') (hintact : r.InUse → r.Intact) :
    r'.InUse → r'.Intact := by
  intro huse
  have hused : r.control = .handling ∨ r.control = .running ∨ (∃ a, r.control = .reading a) →
      r.Intact := by
    intro hcontrol
    apply hintact
    unfold InUse
    rcases hcontrol with hcontrol | hcontrol | ⟨a, hcontrol⟩ <;> rw [hcontrol] <;> exact trivial
  have hidle : r.control = .idle → r.delete_ = false → r.Intact := by
    intro hcontrol hdelete
    apply hintact
    unfold InUse
    rw [hcontrol]
    exact hdelete
  cases h with
  | exec hcontrol hsql hlive =>
      apply Intact.exec
      exact hintact huse
  | suspend hcontrol =>
      exact ((hused (Or.inl hcontrol)).log (e := .suspended) nofun).place _ _ _ _ _ _
  | complete => exact huse.elim
  | abandon => exact absurd huse nofun
  | fatal => exact huse.elim
  | call hcontrol hcall =>
      exact hcall.intact ((hused (Or.inr (Or.inl hcontrol))).log nofun) huse
  | @returned a async outcome status _ _ _ hcontrol hobject hstatus hreads =>
      have hlive := (object_eq_some.1 hobject).2
      have hset := (hused (Or.inr (Or.inr ⟨a, hcontrol⟩))).set a { async with status } hlive
      exact hreads.intact (hset.log (e := .invoked status) nofun)
        (object_set hobject { async with status } hlive) huse
  | escaped => exact huse.elim
  | handledAll => exact absurd huse nofun
  | completed => exact absurd huse nofun
  | dangling => exact huse.elim
  | event pq hcontrol hobject hconn => exact (hintact huse).setPgsql hobject _
  | lost hcontrol hobject hconn => exact (hintact huse).setPgsql hobject _
  | anew hcontrol hdelete hextra => exact (hidle hcontrol hdelete).place _ _ _ _ _ _
  | resume hcontrol hdelete hextra => exact (hidle hcontrol hdelete).place _ _ _ _ _ _
  | stay => exact hintact huse
  | disconnect hcontrol =>
      unfold InUse at huse
      simp [hcontrol] at huse
  | free =>
      unfold InUse at huse
      rcases httpRequestFree_control db r with hcontrol | hcontrol <;> rw [hcontrol] at huse <;>
        exact huse.elim

/-! ## The query of a waiting request -/

/-- kore waits for a query that has been set up. -/
def Prepared (r : RawRequest) : Prop :=
  r.control = .idle → r.delete_ = false →
    ∀ a async, r.current = some (a, async) → async.pgsql.state ≠ .unset

theorem prepared_of_control (hcontrol : decide (r.control = .idle) = false) : r.Prepared :=
  fun h => absurd h (of_decide_eq_false hcontrol)

theorem prepared_of_delete (hdelete : r.delete_ = true) : r.Prepared := by
  intro _ h
  rw [hdelete] at h
  cases h

/-- A query in the place of the current one. -/
theorem current_setPgsql {a b : ℕ} {async other : PgsqlAsync} {pgsql : KorePgsql}
    (hcurrent : r.current = some (a, async)) (hstate : pgsql.state ≠ .unset)
    (hother : (r.setPgsql a async pgsql).current = some (b, other)) :
    other.pgsql.state ≠ .unset := by
  have hset := current_set hcurrent { async with pgsql } (current_get hcurrent).2
  obtain ⟨-, rfl⟩ := Prod.mk.inj (Option.some.inj (hset.symm.trans hother))
  exact hstate

/-- Whichever query is handled, the current one stays set up. -/
theorem Prepared.setPgsql (h : r.Prepared) {a : ℕ} {async : PgsqlAsync} {pgsql : KorePgsql}
    (hobject : r.object a = some async)
    (hstate : async.pgsql.state ≠ .unset → pgsql.state ≠ .unset) :
    (r.setPgsql a async pgsql).Prepared := by
  intro hcontrol hdelete b other hother
  obtain ⟨hextra, hget⟩ := current_eq_some.1 hother
  by_cases hsame : a = b
  · subst hsame
    have hcurrent : r.current = some (a, async) := current_eq_some.2 ⟨hextra, hobject⟩
    exact current_setPgsql hcurrent (hstate (h hcontrol hdelete a async hcurrent)) hother
  · have hkept : r.object b = some other := by
      rw [object_eq_some] at hget ⊢
      rwa [RawRequest.setPgsql, List.getElem?_set_ne hsame] at hget
    exact h hcontrol hdelete b other (current_eq_some.2 ⟨hextra, hkept⟩)

theorem Reads.prepared {a : ℕ} {async : PgsqlAsync} (h : Reads db r a async pq db' r') :
    r'.Prepared := by
  cases h <;> exact prepared_of_control rfl

theorem Calls.prepared (h : Calls db r pq db' r') : r'.Prepared := by
  cases h with
  | unexpected => exact prepared_of_delete rfl
  | refused hstate hcurrent =>
      exact fun _ _ b other hother => current_setPgsql hcurrent PgsqlState.noConfusion hother
  | sent hstate hcurrent hquery =>
      exact fun _ _ b other hother =>
        current_setPgsql hcurrent (KorePgsql.query_ne_unset hquery) hother
  | @waiting a async hstate hcurrent hpgsql =>
      intro _ _ b other hother
      have hsame : r.current = some (b, other) := hother
      obtain ⟨-, rfl⟩ := Prod.mk.inj (Option.some.inj (hcurrent.symm.trans hsame))
      rw [hpgsql]
      exact PgsqlState.noConfusion
  | silent _ _ _ hreads => exact hreads.prepared
  | _ => exact prepared_of_control rfl

theorem Moves.prepared {e : Input} (h : Moves db r e db' r') (hprepared : r.Prepared) :
    r'.Prepared := by
  cases h with
  | exec hcontrol =>
      intro hidle
      have hsame : r.control = .idle := hidle
      rw [inApplication, hsame] at hcontrol
      cases hcontrol
  | abandon | handledAll | completed | disconnect => exact prepared_of_delete rfl
  | call _ hcall => exact hcall.prepared
  | returned _ _ _ hreads => exact hreads.prepared
  | event pq _ hobject =>
      exact hprepared.setPgsql hobject (fun h => KorePgsql.handle_ne_unset h pq)
  | lost _ hobject => exact hprepared.setPgsql hobject (fun _ => PgsqlState.noConfusion)
  | stay => exact hprepared
  | free =>
      apply prepared_of_control
      rcases httpRequestFree_control db r with hcontrol | hcontrol <;> rw [hcontrol] <;> rfl
  | _ => exact prepared_of_control rfl

/-! ## A client that leaves -/

theorem Intact.object_of_lt (h : r.Intact) {a : ℕ} (hlt : a < r.asyncs.length) :
    ∃ async, r.object a = some async := by
  refine ⟨r.asyncs[a], object_eq_some.2 ⟨List.getElem?_eq_getElem hlt, ?_⟩⟩
  exact h.live _ (List.getElem_mem hlt)

theorem Intact.cleanup (h : r.Intact) {a : ℕ} {async : PgsqlAsync}
    (hobject : r.object a = some async) : (RawRequest.cleanup db r a async).2.Intact := by
  obtain ⟨htrace, hlive, hextra, hpgsqls⟩ :=
    h.setPgsql hobject (db.pgsql.cleanup async.pgsql).2
  exact ⟨htrace, hlive, hextra, fun b hmem => hpgsqls b (List.mem_filter.1 hmem).1⟩

theorem Intact.cleanupAll (h : r.Intact) {pgsqls : List ℕ}
    (hpgsqls : ∀ a ∈ pgsqls, a < r.asyncs.length) :
    ∃ asyncs left, (RawRequest.cleanupAll db r pgsqls).2 = { r with asyncs, pgsqls := left } ∧
      ({ r with asyncs, pgsqls := left } : RawRequest).Intact := by
  induction pgsqls generalizing db r with
  | nil => exact ⟨r.asyncs, r.pgsqls, rfl, h⟩
  | cons a pgsqls ih =>
      obtain ⟨async, hobject⟩ := h.object_of_lt (hpgsqls a List.mem_cons_self)
      have hlength : ∀ b ∈ pgsqls, b < (RawRequest.cleanup db r a async).2.asyncs.length := by
        intro b hmem
        have hlt := hpgsqls b (List.mem_cons_of_mem a hmem)
        simpa [RawRequest.cleanup, RawRequest.setPgsql] using hlt
      obtain ⟨asyncs, left, heq, hintact⟩ := @ih (RawRequest.cleanup db r a async).1
        (RawRequest.cleanup db r a async).2 (h.cleanup hobject) hlength
      refine ⟨asyncs, left, ?_, hintact⟩
      rw [RawRequest.cleanupAll, hobject]
      exact heq

theorem asyncCleanUp_trace {a : ℕ} {async : PgsqlAsync} (hextra : r.hdlrExtra = some a)
    (hobject : r.object a = some async) (hdata : r.data0 = true) :
    (asyncCleanUp db r).2.trace =
      r.trace ++ [.cleanUp, .destroyed (.async a), .destroyed .request] := by
  simp only [asyncCleanUp]
  split
  · next hnone => exact absurd (hextra.symm.trans hnone) (Option.some_ne_none a)
  · next b hsome =>
    obtain rfl : a = b := Option.some.inj (hextra.symm.trans hsome)
    split
    · next hnone => exact absurd (hobject.symm.trans hnone) (Option.some_ne_none async)
    · rw [appAsyncError_eq, if_pos (by exact hdata)]
      simp [deleteAsync, RawRequest.cleanup, RawRequest.setPgsql, RawRequest.log]

/-- `http_request_free` destroys the query and the `HttpRequest` of a request in use, and not
its `HttpResponse`. -/
theorem Intact.free_trace (h : r.Intact) {a : ℕ} (hextra : r.hdlrExtra = some a)
    (hdata : r.data0 = true) :
    (httpRequestFree db r).2.trace =
      r.trace ++ [.cleanUp, .destroyed (.async a), .destroyed .request] := by
  obtain ⟨asyncs, left, heq, hintact⟩ := @Intact.cleanupAll db r h r.pgsqls h.pgsqls
  obtain ⟨hlt, hfree⟩ := hintact.extra a hextra
  obtain ⟨async, hobject⟩ := hintact.object_of_lt hlt
  have hfreed : ∀ db' : Db, (freeExtra db' { r with asyncs, pgsqls := left }).2.trace =
      r.trace ++ [.cleanUp, .destroyed (.async a), .destroyed .request] := by
    intro db'
    simp only [freeExtra, hextra, if_pos hfree]
    exact asyncCleanUp_trace rfl hobject hdata
  simp only [httpRequestFree, heq]
  exact hfreed _

end Sparc.RawRequest

namespace Sparc

/-- A suspended request for which `http_request_free` has called `pgsql_async_clean_up`. -/
def RawRequest.CleanedUp (r : RawRequest) : Prop :=
  DbEvent.suspended ∈ r.trace ∧ DbEvent.cleanUp ∈ r.trace

namespace DbWorker

variable {connMax : ℕ} {inputs : List DbInput} {s : DbWorker} {outputs : List Unit}

/-- A client can leave while kore waits for its query. The query and the `HttpRequest` are
then destroyed. -/
theorem exec_dropped (hexec : Machine.exec step (start connMax) inputs = some (s, outputs))
    {n : ℕ} {r : RawRequest} (hget : s.requests[n]? = some r) (hcontrol : r.control = .idle)
    (hdelete : r.delete_ = false) :
    ∃ s' r' a, Machine.exec step s [.request n .disconnect, .request n .free] =
        some (s', [(), ()]) ∧ s'.requests[n]? = some r' ∧
      r'.CleanedUp ∧
      r'.trace = r.trace ++ [.cleanUp, .destroyed (.async a), .destroyed .request] := by
  have hmem := List.mem_of_getElem? hget
  have hsound : r.Sound :=
    exec_forall RawRequest.sound_new (fun _ _ _ _ _ => RawRequest.step_sound) hexec r hmem
  have hintact : r.InUse → r.Intact :=
    exec_forall (P := fun r => r.InUse → r.Intact) (fun _ => ⟨nofun, nofun, nofun, nofun⟩)
      (fun _ _ _ _ _ hstep => (RawRequest.step_moves hstep).intact) hexec r hmem
  have hfilled : r.Filled :=
    exec_forall ⟨nofun, nofun⟩ (fun _ _ _ _ _ hstep => (RawRequest.step_moves hstep).filled)
      hexec r hmem
  have hplace := hsound.place
  unfold RawRequest.Place at hplace
  rw [hcontrol] at hplace
  have hactive := hplace.2.2 hdelete
  obtain ⟨a, hextra⟩ := Option.ne_none_iff_exists'.1 hactive.extra
  have huse : r.InUse := by
    unfold RawRequest.InUse
    rw [hcontrol]
    exact hdelete
  have hleft : ({ r with delete_ := true } : RawRequest).Intact := (hintact huse).place _ _ _ _ _ _
  have htrace := @RawRequest.Intact.free_trace s.db _ hleft a hextra hactive.data.1
  have hdrop : step s (.request n .disconnect) =
      some (⟨s.db, s.requests.set n { r with delete_ := true }⟩, ()) := by
    simp [step, hget, RawRequest.step, hcontrol]
  have hprepared : r.Prepared :=
    exec_forall (RawRequest.prepared_of_control rfl)
      (fun _ _ _ _ _ hstep => (RawRequest.step_moves hstep).prepared) hexec r hmem
  have hclean : ({ r with delete_ := true } : RawRequest).cleanable = true := by
    rw [RawRequest.cleanable, Bool.or_eq_true]
    refine Or.inr ((Option.all_eq_true _ _).2 (fun p hp => ?_))
    have hset := hprepared hcontrol hdelete p.1 p.2 hp
    rw [PgsqlAsync.leftOver, decide_eq_false hset, Bool.false_and, Bool.not_false]
  have hlt := (List.getElem?_eq_some_iff.1 hget).1
  have hfree : step ⟨s.db, s.requests.set n { r with delete_ := true }⟩ (.request n .free) =
      some (⟨(RawRequest.httpRequestFree s.db { r with delete_ := true }).1, s.requests.set n
        (RawRequest.httpRequestFree s.db { r with delete_ := true }).2⟩, ()) := by
    simp only [step, List.getElem?_set_self hlt, RawRequest.step]
    rw [if_pos ⟨hcontrol, trivial, hclean⟩, Option.map_some, List.set_set]
  have hrun : Machine.exec step s [.request n .disconnect, .request n .free] =
      some (_, [(), ()]) :=
    Machine.exec_cons_eq_some.2 ⟨_, _, _, hdrop,
      Machine.exec_cons_eq_some.2 ⟨_, _, [], hfree, rfl, rfl⟩, rfl⟩
  refine ⟨_, _, a, hrun, List.getElem?_set_self hlt, ⟨?_, ?_⟩, htrace⟩
  · rw [htrace]
    exact List.mem_append_left _ (hfilled.data0 hactive.data.1)
  · rw [htrace]
    simp

/-- A suspended request that is cleaned up does not give back everything: the second test of
`App::asyncError` looks at the slot that the first has emptied. -/
theorem cleanedUp_not_released
    (hexec : Machine.exec step (start connMax) inputs = some (s, outputs)) :
    ∀ r ∈ s.requests, r.CleanedUp → ∀ a, ¬ r.Released a := by
  intro r hr hcleaned a hreleased
  have hfilled : r.Filled :=
    exec_forall ⟨nofun, nofun⟩ (fun _ _ _ _ _ hstep => (RawRequest.step_moves hstep).filled)
      hexec r hr
  have hdata : r.data1 = true := hfilled.data1 hcleaned.1
  exact absurd (hreleased.2.2.2.2.symm.trans hdata) nofun

/-- The client leaves before the server has answered. -/
def dropped : List DbInput :=
  sends [.tuplesOk] ++ [.request 0 .disconnect, .request 0 .free]

theorem cleanedUp_not_released_dropped :
    ∃ s outputs r, Machine.exec step (start 2) dropped = some (s, outputs) ∧
      r ∈ s.requests ∧ r.CleanedUp ∧ ¬ r.Released 0 := by
  obtain ⟨s, outputs, r, hexec, hr, hsuspended, hclean⟩ : ∃ s outputs r,
      Machine.exec step (start 2) dropped = some (s, outputs) ∧ r ∈ s.requests ∧
        DbEvent.suspended ∈ r.trace ∧ DbEvent.cleanUp ∈ r.trace :=
    ⟨_, _, _, rfl, List.mem_singleton.2 rfl, by decide, by decide⟩
  have hcleaned : r.CleanedUp := ⟨hsuspended, hclean⟩
  exact ⟨s, outputs, r, hexec, hr, hcleaned, cleanedUp_not_released hexec r hr hcleaned 0⟩

/-- The `HttpResponse` of a dropped request is leaked. -/
theorem dropped_keeps_response :
    ¬ ∀ (connMax : ℕ) (inputs : List DbInput) (s : DbWorker) (outputs : List Unit),
      Machine.exec step (start connMax) inputs = some (s, outputs) →
      ∀ r ∈ s.requests, r.CleanedUp → ∃ a, r.Released a := by
  intro h
  obtain ⟨s, outputs, r, hexec, hr, hsuspended, hclean, hresponse⟩ : ∃ s outputs r,
      Machine.exec step (start 2) dropped = some (s, outputs) ∧ r ∈ s.requests ∧
        DbEvent.suspended ∈ r.trace ∧ DbEvent.cleanUp ∈ r.trace ∧
        r.trace.count (.destroyed .response) = 0 :=
    ⟨_, _, _, rfl, List.mem_singleton.2 rfl, by decide, by decide, by decide⟩
  obtain ⟨a, hreleased⟩ := h 2 dropped s outputs hexec r hr ⟨hsuspended, hclean⟩
  exact absurd (hresponse.symm.trans hreleased.2.1) nofun

end DbWorker

end Sparc
