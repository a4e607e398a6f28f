import Sparc.Library.Machine
import Sparc.Verification.Db.Steps

/-! # Asynchronous requests are completed at most once

The invariant says for every place what `App::completeRequest` and `pgsql_async_clean_up`
have been called for, and that a request that kore may run again still has its query.
-/

namespace Sparc

/-- A call of `App::completeRequest`. -/
def DbEvent.isCompletion : DbEvent → Bool
  | .completeRequest _ => true
  | _ => false

namespace RawRequest

/-- The number of calls of `App::completeRequest`. -/
def completions (r : RawRequest) : ℕ := r.trace.countP DbEvent.isCompletion

/-- `App::completeRequest` is called once at most and not behind `pgsql_async_clean_up`, only
the initial callback can find `hdlr_extra` empty, and the table of states is indexed within
its bounds. -/
structure CompletesOnce (r : RawRequest) : Prop where
  once : r.completions ≤ 1
  before : r.trace.Pairwise (fun e f => e = .cleanUp → f.isCompletion = false)
  extra : ∀ state, DbEvent.callback state false ∈ r.trace → state = AsyncState.init
  indexed : r.control = .running → r.fsmState < pgsqlAsyncStates.length
  not_fatal : r.control ≠ .fatal

/-- Neither completed nor cleaned up. -/
def Pending (r : RawRequest) : Prop := r.completions = 0 ∧ DbEvent.cleanUp ∉ r.trace

/-- A request in the asynchronous states. -/
structure Active (r : RawRequest) : Prop where
  pending : r.Pending
  extra : r.hdlrExtra ≠ none
  data : r.data0 = true ∧ r.asyncStates = true
  delete_ : r.delete_ = false

/-- What has happened to a request, by the place where it is. -/
def Place (r : RawRequest) : Prop :=
  match r.control with
  | .handling =>
      r.Pending ∧ (r.asyncStates = true → r.hdlrExtra ≠ none) ∧ r.delete_ = false
  | .running | .reading _ => r.Active
  | .completing _ => r.completions = 1 ∧ DbEvent.cleanUp ∉ r.trace
  | .idle =>
      r.completions ≤ 1 ∧ DbEvent.cleanUp ∉ r.trace ∧ (r.delete_ = false → r.Active)
  | .freed | .crashed =>
      r.completions ≤ 1 ∧ r.trace.Pairwise (fun e f => e = .cleanUp → f.isCompletion = false)
  | .fatal => False

structure Sound (r : RawRequest) : Prop where
  place : r.Place
  state : r.fsmState < pgsqlAsyncStates.length
  callbacks : ∀ state, DbEvent.callback state false ∉ r.trace

theorem pairwise_of_notMem_cleanUp {trace : List DbEvent} (h : DbEvent.cleanUp ∉ trace) :
    trace.Pairwise (fun e f => e = .cleanUp → f.isCompletion = false) := by
  apply List.pairwise_of_forall_mem_list
  intro e he f hf hclean
  exact absurd (hclean ▸ he) h

/-- A request that waits, and not for its deletion. -/
theorem Sound.active_of_idle {r : RawRequest} (h : r.Sound) (hcontrol : r.control = .idle)
    (hdelete : r.delete_ = false) : r.Active := by
  have hplace := h.place
  unfold Place at hplace
  rw [hcontrol] at hplace
  exact hplace.2.2 hdelete

theorem Sound.completesOnce {r : RawRequest} (h : r.Sound) : r.CompletesOnce := by
  have hplace := h.place
  unfold Place at hplace
  refine ⟨?_, ?_, fun state hmem => absurd hmem (h.callbacks state), fun _ => h.state, ?_⟩
  · split at hplace
    · exact hplace.1.1 ▸ Nat.zero_le 1
    · exact hplace.pending.1 ▸ Nat.zero_le 1
    · exact hplace.pending.1 ▸ Nat.zero_le 1
    · exact Nat.le_of_eq hplace.1
    · exact hplace.1
    · exact hplace.1
    · exact hplace.1
    · exact hplace.elim
  · split at hplace
    · exact pairwise_of_notMem_cleanUp hplace.1.2
    · exact pairwise_of_notMem_cleanUp hplace.pending.2
    · exact pairwise_of_notMem_cleanUp hplace.pending.2
    · exact pairwise_of_notMem_cleanUp hplace.2
    · exact pairwise_of_notMem_cleanUp hplace.2.1
    · exact hplace.2
    · exact hplace.2
    · exact hplace.elim
  · intro hfatal
    rw [hfatal] at hplace
    exact hplace

/-! ## Callbacks -/

variable {db db' : Db} {r r' : RawRequest} {pq : Libpq}

theorem completions_log (r : RawRequest) (e : DbEvent) :
    (r.log e).completions = r.completions + if e.isCompletion then 1 else 0 := by
  simp [completions, log, List.countP_append, List.countP_cons]

theorem mem_log {e f : DbEvent} : f ∈ (r.log e).trace ↔ f ∈ r.trace ∨ f = e := by
  simp [log]

theorem Pending.log (h : r.Pending) {e : DbEvent} (hcompletion : e.isCompletion = false)
    (hclean : e ≠ .cleanUp) : (r.log e).Pending := by
  refine ⟨?_, ?_⟩
  · rw [completions_log, h.1, hcompletion]
    rfl
  · rw [mem_log, not_or]
    exact ⟨h.2, hclean.symm⟩

theorem callbacks_log {e : DbEvent} (h : ∀ state, DbEvent.callback state false ∉ r.trace)
    (he : ∀ state, e ≠ .callback state false) :
    ∀ state, DbEvent.callback state false ∉ (r.log e).trace := by
  intro state hmem
  rcases mem_log.1 hmem with hmem | hmem
  · exact h state hmem
  · exact he state hmem.symm

theorem sound_of_running (hactive : r.Active) (hcontrol : r.control = .running)
    (hstate : r.fsmState < 6) (hcallbacks : ∀ state, DbEvent.callback state false ∉ r.trace) :
    r.Sound := by
  refine ⟨?_, hstate, hcallbacks⟩
  unfold Place
  rw [hcontrol]
  exact hactive

theorem sound_of_idle (hactive : r.Active) (hcontrol : r.control = .idle)
    (hstate : r.fsmState < 6) (hcallbacks : ∀ state, DbEvent.callback state false ∉ r.trace) :
    r.Sound := by
  refine ⟨?_, hstate, hcallbacks⟩
  unfold Place
  rw [hcontrol]
  exact ⟨hactive.pending.1 ▸ Nat.zero_le 1, hactive.pending.2, fun _ => hactive⟩

theorem Pending.crash (h : r.Pending) (hstate : r.fsmState < 6)
    (hcallbacks : ∀ state, DbEvent.callback state false ∉ r.trace) : r.crash.Sound :=
  ⟨⟨h.1 ▸ Nat.zero_le 1, pairwise_of_notMem_cleanUp h.2⟩, hstate, hcallbacks⟩

theorem Reads.sound {a : ℕ} {async : PgsqlAsync} (h : Reads db r a async pq db' r')
    (hactive : r.Active) (hstate : r.fsmState < 6)
    (hcallbacks : ∀ state, DbEvent.callback state false ∉ r.trace) : r'.Sound := by
  obtain ⟨hpending, hextra, hdata, hdelete⟩ := hactive
  cases h with
  | stop hstatus =>
      exact sound_of_running ⟨hpending, hextra, hdata, hdelete⟩ rfl (by decide : 5 < 6) hcallbacks
  | onward hstatus hcontinue =>
      exact sound_of_running ⟨hpending, hextra, hdata, hdelete⟩ rfl (by decide : 2 < 6) hcallbacks
  | crash hstatus hcontinue => exact hpending.crash hstate hcallbacks

theorem Calls.sound (h : Calls db r pq db' r') (hactive : r.Active) (hstate : r.fsmState < 6)
    (hcallbacks : ∀ state, DbEvent.callback state false ∉ r.trace) : r'.Sound := by
  have hall := hactive
  obtain ⟨hpending, hextra, hdata, hdelete⟩ := hactive
  cases h with
  | unexpected _ hnone => exact absurd hnone hextra
  | taken =>
      exact sound_of_running ⟨hpending, hextra, hdata, hdelete⟩ rfl (by decide : 1 < 6) hcallbacks
  | refused =>
      exact sound_of_idle ⟨hpending, hextra, hdata, hdelete⟩ rfl (by decide : 0 < 6) hcallbacks
  | failed =>
      exact sound_of_running ⟨hpending, hextra, hdata, hdelete⟩ rfl (by decide : 4 < 6) hcallbacks
  | unsent =>
      exact sound_of_running ⟨hpending, hextra, hdata, hdelete⟩ rfl (by decide : 2 < 6) hcallbacks
  | @sent a async query =>
      have hlog : (r.log (.sent async.handler query.results)).Pending := hpending.log rfl nofun
      exact sound_of_idle ⟨hlog, hextra, hdata, hdelete⟩ rfl (by decide : 2 < 6)
        (callbacks_log hcallbacks nofun)
  | waiting =>
      exact sound_of_idle ⟨hpending, hextra, hdata, hdelete⟩ rfl (by decide : 2 < 6) hcallbacks
  | drained =>
      exact sound_of_running ⟨hpending, hextra, hdata, hdelete⟩ rfl (by decide : 5 < 6) hcallbacks
  | error =>
      exact sound_of_running ⟨hpending, hextra, hdata, hdelete⟩ rfl (by decide : 4 < 6) hcallbacks
  | result =>
      exact sound_of_running ⟨hpending, hextra, hdata, hdelete⟩ rfl (by decide : 3 < 6) hcallbacks
  | onward =>
      exact sound_of_running ⟨hpending, hextra, hdata, hdelete⟩ rfl (by decide : 2 < 6) hcallbacks
  | reading => exact ⟨⟨hpending, hextra, hdata, hdelete⟩, hstate, hcallbacks⟩
  | silent _ _ _ hreads => exact hreads.sound hall hstate hcallbacks
  | @finish a async =>
      refine ⟨⟨?_, ?_⟩, hstate, callbacks_log (e := .completeRequest async.status) hcallbacks nofun⟩
      · exact (completions_log r (.completeRequest async.status)).trans (by rw [hpending.1]; rfl)
      · exact fun hmem => (mem_log.1 hmem).elim hpending.2 nofun
  | crash => exact hpending.crash hstate hcallbacks

/-! ## `http_request_free` -/

/-- What is recorded when a request is freed, and which fields are left alone. -/
structure Releases (r r' : RawRequest) : Prop where
  trace : ∃ events, r'.trace = r.trace ++ events ∧
    ∀ e ∈ events, e = .cleanUp ∨ ∃ object, e = .destroyed object
  state : r'.fsmState = r.fsmState
  data1 : r'.data1 = r.data1
  data0 : r'.data0 = true → r.data0 = true

theorem Releases.refl (r : RawRequest) : Releases r r := ⟨⟨[], by simp, nofun⟩, rfl, rfl, id⟩

theorem Releases.trans {r₁ r₂ r₃ : RawRequest} (h : Releases r₁ r₂) (h' : Releases r₂ r₃) :
    Releases r₁ r₃ := by
  obtain ⟨⟨before, hbefore, hquiet⟩, hstate, hdata, hdata0⟩ := h
  obtain ⟨⟨behind, hbehind, hquiet'⟩, hstate', hdata', hdata0'⟩ := h'
  refine ⟨⟨before ++ behind, ?_, ?_⟩, hstate'.trans hstate, hdata'.trans hdata,
    fun hset => hdata0 (hdata0' hset)⟩
  · rw [hbehind, hbefore, List.append_assoc]
  · intro e he
    exact (List.mem_append.1 he).elim (hquiet e) (hquiet' e)

theorem releases_cleanup (db : Db) (r : RawRequest) (a : ℕ) (async : PgsqlAsync) :
    Releases r (cleanup db r a async).2 := ⟨(Releases.refl r).trace, rfl, rfl, id⟩

theorem releases_crash (r : RawRequest) : Releases r r.crash :=
  ⟨(Releases.refl r).trace, rfl, rfl, id⟩

theorem releases_deleteAsync (db : Db) (r : RawRequest) (a : ℕ) (async : PgsqlAsync) :
    Releases r (deleteAsync db r a async).2 :=
  ⟨⟨[.destroyed (.async a)], rfl, by simp⟩, rfl, rfl, id⟩

/-- The second test of `App::asyncError` repeats the first, so it never succeeds. -/
theorem appAsyncError_eq (r : RawRequest) :
    r.appAsyncError =
      if r.data0 then { r.log (.destroyed .request) with data0 := false } else r := by
  unfold appAsyncError
  cases hdata : r.data0 <;> simp [hdata]

theorem releases_appAsyncError (r : RawRequest) : Releases r r.appAsyncError := by
  rw [appAsyncError_eq]
  split
  · exact ⟨⟨[.destroyed .request], rfl, by simp⟩, rfl, rfl, nofun⟩
  · exact .refl r

theorem releases_asyncCleanUp (db : Db) (r : RawRequest) : Releases r (asyncCleanUp db r).2 := by
  have hlog : Releases r (r.log .cleanUp) := ⟨⟨[.cleanUp], rfl, by simp⟩, rfl, rfl, id⟩
  simp only [asyncCleanUp]
  split
  · exact hlog.trans (releases_appAsyncError _)
  · split
    · exact hlog.trans ⟨(Releases.refl _).trace, rfl, rfl, id⟩
    · next a hextra async hobject =>
      refine hlog.trans (.trans ?_ (releases_appAsyncError _))
      refine .trans ?_ (releases_deleteAsync _ _ _ _)
      exact ⟨(Releases.refl _).trace, rfl, rfl, id⟩

theorem releases_cleanupAll (db : Db) (r : RawRequest) (pgsqls : List ℕ) :
    Releases r (cleanupAll db r pgsqls).2 := by
  induction pgsqls generalizing db r with
  | nil => exact .refl r
  | cons a pgsqls ih =>
      unfold cleanupAll
      split
      · exact releases_crash r
      · next async hobject => exact (releases_cleanup db r a async).trans (ih _ _)

theorem releases_freeExtra (db : Db) (r : RawRequest) : Releases r (freeExtra db r).2 := by
  unfold freeExtra
  split
  · exact .refl r
  · split
    · exact releases_asyncCleanUp db r
    · split
      · exact releases_crash r
      · exact ⟨(Releases.refl r).trace, rfl, rfl, id⟩

theorem releases_httpRequestFree (db : Db) (r : RawRequest) :
    Releases r (httpRequestFree db r).2 := by
  have h := (releases_cleanupAll db r r.pgsqls).trans
    (releases_freeExtra (cleanupAll db r r.pgsqls).1 (cleanupAll db r r.pgsqls).2)
  exact ⟨h.trace, h.state, h.data1, h.data0⟩

theorem httpRequestFree_control (db : Db) (r : RawRequest) :
    (httpRequestFree db r).2.control = .freed ∨ (httpRequestFree db r).2.control = .crashed := by
  simp only [httpRequestFree]
  split
  · exact Or.inr rfl
  · exact Or.inl rfl

theorem Releases.sound (h : Releases r r') (hclean : DbEvent.cleanUp ∉ r.trace)
    (hcompletions : r.completions ≤ 1) (hstate : r.fsmState < 6)
    (hcallbacks : ∀ state, DbEvent.callback state false ∉ r.trace)
    (hcontrol : r'.control = .freed ∨ r'.control = .crashed) : r'.Sound := by
  obtain ⟨⟨events, htrace, hquiet⟩, hsame, -⟩ := h
  have hnot : ∀ e ∈ events, e.isCompletion = false := by
    intro e he
    rcases hquiet e he with rfl | ⟨object, rfl⟩ <;> rfl
  have hcount : r'.completions ≤ 1 := by
    unfold completions
    have hzero : events.countP DbEvent.isCompletion = 0 :=
      List.countP_eq_zero.2 (by simpa using hnot)
    rw [htrace, List.countP_append, hzero]
    exact hcompletions
  have hpairs : r'.trace.Pairwise (fun e f => e = .cleanUp → f.isCompletion = false) := by
    rw [htrace, List.pairwise_append]
    refine ⟨pairwise_of_notMem_cleanUp hclean, ?_, ?_⟩
    · exact List.pairwise_of_forall_mem_list (fun e _ f hf _ => hnot f hf)
    · exact fun e _ f hf _ => hnot f hf
  refine ⟨?_, hsame ▸ hstate, ?_⟩
  · unfold Place
    rcases hcontrol with hcontrol | hcontrol <;> rw [hcontrol] <;> exact ⟨hcount, hpairs⟩
  · intro state hmem
    rw [htrace, List.mem_append] at hmem
    rcases hmem with hmem | hmem
    · exact hcallbacks state hmem
    · rcases hquiet _ hmem with h | ⟨object, h⟩ <;> cases h

/-! ## Steps and runs -/

theorem Active.update (h : r.Active) (asyncs : List PgsqlAsync) (pgsqls : List ℕ) :
    ({ r with asyncs, pgsqls } : RawRequest).Active :=
  ⟨h.pending, h.extra, h.data, h.delete_⟩

/-- Behind the completion of a request its flag for deletion is set. -/
theorem sound_of_delete (hcontrol : r.control = .idle) (hdelete : r.delete_ = true)
    (hcompletions : r.completions ≤ 1) (hclean : DbEvent.cleanUp ∉ r.trace)
    (hstate : r.fsmState < 6) (hcallbacks : ∀ state, DbEvent.callback state false ∉ r.trace) :
    r.Sound := by
  refine ⟨?_, hstate, hcallbacks⟩
  unfold Place
  rw [hcontrol]
  exact ⟨hcompletions, hclean, fun hfalse => absurd (hdelete.symm.trans hfalse) nofun⟩

theorem completions_destroyed (r : RawRequest) :
    ((r.log (.destroyed .request)).log (.destroyed .response)).completions = r.completions := by
  rw [completions_log, completions_log]
  rfl

theorem notMem_destroyed {e : DbEvent} (h : e ∉ r.trace) (he : ∀ object, e ≠ .destroyed object) :
    e ∉ ((r.log (.destroyed .request)).log (.destroyed .response)).trace := by
  rw [mem_log, mem_log, not_or, not_or]
  exact ⟨⟨h, he _⟩, he _⟩

theorem sound_abandon (hcompletions : r.completions ≤ 1) (hclean : DbEvent.cleanUp ∉ r.trace)
    (hstate : r.fsmState < 6) (hcallbacks : ∀ state, DbEvent.callback state false ∉ r.trace) :
    r.abandon.Sound :=
  sound_of_delete rfl rfl (Nat.le_trans (Nat.le_of_eq (completions_destroyed r)) hcompletions)
    (notMem_destroyed hclean nofun) hstate
    (fun state => notMem_destroyed (hcallbacks state) nofun)

theorem Sound.exec (h : r.Sound) (hcontrol : r.inApplication = true) (i : ℕ) (sql : SqlObject)
    (handler cleared : Bool) : (exec db r i sql handler cleared).2.Sound := by
  obtain ⟨hplace, hstate, hcallbacks⟩ := h
  refine ⟨?_, hstate, hcallbacks⟩
  have hsame : (RawRequest.exec db r i sql handler cleared).2.control = r.control := rfl
  unfold Place at hplace ⊢
  unfold inApplication at hcontrol
  rw [hsame]
  cases hr : r.control with
  | handling =>
      rw [hr] at hplace
      exact ⟨hplace.1, fun _ => nofun, hplace.2.2⟩
  | reading a =>
      rw [hr] at hplace
      exact ⟨hplace.pending, nofun, ⟨hplace.data.1, rfl⟩, hplace.delete_⟩
  | completing a =>
      rw [hr] at hplace
      exact hplace
  | _ => simp [hr] at hcontrol

theorem Sound.setPgsql (h : r.Sound) (hcontrol : r.control = .idle) (a : ℕ) (async : PgsqlAsync)
    (pgsql : KorePgsql) : (r.setPgsql a async pgsql).Sound := by
  obtain ⟨hplace, hstate, hcallbacks⟩ := h
  refine ⟨?_, hstate, hcallbacks⟩
  have hsame : (r.setPgsql a async pgsql).control = .idle := hcontrol
  unfold Place at hplace ⊢
  rw [hcontrol] at hplace
  rw [hsame]
  exact ⟨hplace.1, hplace.2.1, fun hdelete => (hplace.2.2 hdelete).update _ r.pgsqls⟩

theorem Moves.sound {e : Input} (h : Moves db r e db' r') (hsound : r.Sound) : r'.Sound := by
  have hall := hsound
  obtain ⟨hplace, hstate, hcallbacks⟩ := hsound
  unfold Place at hplace
  cases h with
  | exec hcontrol hsql hlive => exact hall.exec hcontrol _ _ _ _
  | suspend hcontrol hstates =>
      rw [hcontrol] at hplace
      obtain ⟨hpending, hextra, hdelete⟩ := hplace
      have hlog : (r.log .suspended).Pending := hpending.log rfl nofun
      exact sound_of_running ⟨hlog, hextra hstates, ⟨rfl, hstates⟩, hdelete⟩ rfl hstate
        (callbacks_log hcallbacks nofun)
  | complete s hcontrol =>
      rw [hcontrol] at hplace
      refine ⟨⟨?_, ?_⟩, hstate, callbacks_log hcallbacks nofun⟩
      · exact (completions_log r (.completeRequest s)).trans (by rw [hplace.1.1]; rfl)
      · exact fun hmem => (mem_log.1 hmem).elim hplace.1.2 nofun
  | abandon ret hcontrol =>
      rw [hcontrol] at hplace
      exact sound_abandon (hplace.1.1 ▸ Nat.zero_le 1) hplace.1.2 hstate hcallbacks
  | fatal pq hcontrol hfsm => exact absurd hstate (Nat.not_lt.2 hfsm)
  | call hcontrol hcall =>
      rw [hcontrol] at hplace
      have hsome : r.hdlrExtra.isSome = true := Option.isSome_iff_ne_none.2 hplace.extra
      have hlog : (r.log (.callback r.fsmState r.hdlrExtra.isSome)).Pending :=
        hplace.pending.log rfl nofun
      refine hcall.sound ⟨hlog, hplace.extra, hplace.data, hplace.delete_⟩ hstate ?_
      exact callbacks_log hcallbacks (fun state h => by simp [hsome] at h)
  | @returned a async outcome status pq _ _ hcontrol hobject hstatus hreads =>
      rw [hcontrol] at hplace
      have hlog : (r.log (.invoked status)).Pending := hplace.pending.log rfl nofun
      exact hreads.sound ⟨hlog, hplace.extra, hplace.data, hplace.delete_⟩ hstate
        (callbacks_log hcallbacks nofun)
  | escaped outcome pq hcontrol =>
      rw [hcontrol] at hplace
      exact hplace.pending.crash hstate hcallbacks
  | handledAll hcontrol =>
      rw [hcontrol] at hplace
      exact sound_abandon (Nat.le_of_eq hplace.1) hplace.2 hstate hcallbacks
  | @completed a async hcontrol hobject =>
      rw [hcontrol] at hplace
      refine sound_of_delete rfl rfl ?_ ?_ (by decide : 0 < 6) ?_
      · exact Nat.le_of_eq ((completions_log r.abandon (.destroyed (.async a))).trans
          ((completions_destroyed r).trans hplace.1))
      · exact fun hmem => (mem_log.1 hmem).elim (notMem_destroyed hplace.2 nofun) nofun
      · exact fun state hmem => (mem_log.1 hmem).elim
          (notMem_destroyed (hcallbacks state) nofun) nofun
  | dangling hcontrol hobject =>
      rw [hcontrol] at hplace
      refine ⟨⟨?_, ?_⟩, hstate, fun state => notMem_destroyed (hcallbacks state) nofun⟩
      · exact Nat.le_of_eq ((completions_destroyed r).trans hplace.1)
      · exact pairwise_of_notMem_cleanUp (notMem_destroyed hplace.2 nofun)
  | event pq hcontrol hobject hconn => exact hall.setPgsql hcontrol _ _ _
  | lost hcontrol hobject hconn => exact hall.setPgsql hcontrol _ _ _
  | anew hcontrol hdelete hextra =>
      exact absurd hextra (hall.active_of_idle hcontrol hdelete).extra
  | resume hcontrol hdelete hextra =>
      obtain ⟨hpending, -, hdata, -⟩ := hall.active_of_idle hcontrol hdelete
      exact sound_of_running ⟨hpending, hextra, hdata, hdelete⟩ rfl hstate hcallbacks
  | stay hcontrol hextra hdata => exact hall
  | disconnect hcontrol =>
      rw [hcontrol] at hplace
      exact sound_of_delete hcontrol rfl hplace.1 hplace.2.1 hstate hcallbacks
  | free hcontrol hdelete =>
      rw [hcontrol] at hplace
      exact (releases_httpRequestFree db r).sound hplace.2.1 hplace.1 hstate hcallbacks
        (httpRequestFree_control db r)

theorem step_sound {e : Input} (hstep : step db r e = some (db', r')) (hsound : r.Sound) :
    r'.Sound :=
  (step_moves hstep).sound hsound

theorem sound_new : ({} : RawRequest).Sound :=
  ⟨⟨⟨rfl, nofun⟩, nofun, rfl⟩, by decide, nofun⟩

end RawRequest

namespace DbWorker

/-- What holds of a new request and is kept by the steps of requests is kept by the steps of
a worker, for all its requests. -/
theorem step_forall {P : RawRequest → Prop} (hnew : P {})
    (hkept : ∀ db r e db' r', RawRequest.step db r e = some (db', r') → P r → P r')
    {s s' : DbWorker} {i : DbInput} {o : Unit} (h : ∀ r ∈ s.requests, P r)
    (hstep : step s i = some (s', o)) : ∀ r ∈ s'.requests, P r := by
  cases step_moves hstep with
  | accept => exact List.forall_mem_append.2 ⟨h, List.forall_mem_singleton.2 hnew⟩
  | newSql => exact h
  | deleteSql => exact h
  | query => exact h
  | @request n e r r' db hget hreq =>
      exact Ledger.forall_mem_set h n (hkept _ _ _ _ _ hreq (h r (List.mem_of_getElem? hget)))

/-- The same for runs. -/
theorem exec_forall {P : RawRequest → Prop} (hnew : P {})
    (hkept : ∀ db r e db' r', RawRequest.step db r e = some (db', r') → P r → P r')
    {connMax : ℕ} {inputs : List DbInput} {s : DbWorker} {outputs : List Unit}
    (hexec : Machine.exec step (start connMax) inputs = some (s, outputs)) :
    ∀ r ∈ s.requests, P r := by
  refine Machine.exec_invariant (I := fun s => ∀ r ∈ s.requests, P r) (P := fun _ _ => True)
    ?_ (by simp [start]) ?_ hexec
  · exact fun s i s' o h _ hstep => step_forall hnew hkept h hstep
  · exact Machine.always_of_forall (fun _ _ => trivial) _ _

/-- In every run of a worker, every request is completed at most once. -/
theorem requests_completesOnce {connMax : ℕ} {inputs : List DbInput} {s : DbWorker}
    {outputs : List Unit}
    (hexec : Machine.exec step (start connMax) inputs = some (s, outputs)) :
    ∀ r ∈ s.requests, r.CompletesOnce := by
  intro r hr
  apply RawRequest.Sound.completesOnce
  exact exec_forall RawRequest.sound_new (fun _ _ _ _ _ => RawRequest.step_sound) hexec r hr

/-- A request whose handler sends a query with a callback, for which the server has these
results. -/
def sends (results : List ExecStatus) : List DbInput :=
  [.accept, .newSql, .request 0 (.exec 0 true false), .request 0 (.handled .async),
    .request 0 (.run {}), .request 0 (.run { send := some results })]

/-- The server answers with tuples, the callback accepts them, and the request is freed. -/
def answered : List DbInput :=
  sends [.tuplesOk] ++ [.request 0 (.event 0 {}), .request 0 .process, .request 0 (.run {}),
    .request 0 (.run {}), .request 0 (.returned (.ret 200) {}), .request 0 (.run {}),
    .request 0 (.run {}), .request 0 (.run {}), .request 0 .completed, .request 0 .free]

theorem requests_completesOnce_answered :
    ∃ s outputs, Machine.exec step (start 2) answered = some (s, outputs) ∧
      s.requests.map RawRequest.completions = [1] ∧ ∀ r ∈ s.requests, r.CompletesOnce := by
  obtain ⟨s, outputs, hexec, hone⟩ : ∃ s outputs,
      Machine.exec step (start 2) answered = some (s, outputs) ∧
        s.requests.map RawRequest.completions = [1] := ⟨_, _, rfl, rfl⟩
  exact ⟨s, outputs, hexec, hone, requests_completesOnce hexec⟩

end DbWorker

end Sparc
