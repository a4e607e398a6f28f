import Sparc.Verification.App.Handling

/-! # From the route handler to the release of a request

A request whose before filters let it through enters its route handler, is completed with
the status of the handler or of its asynchronous states, and is closed by the after
filters. `Pending` is the invariant on the way to the after filters.
-/

namespace Sparc

variable {σ : Type*}

namespace Exchange

/-- The latch is right, and the after filters have not been called. -/
structure Pending (x : Exchange σ) : Prop where
  latched : x.Latched
  unfiltered : ∀ ret, .fidecs .after ret ∉ x.trace

theorem Grows.pending {K : Event → Bool} {x y : Exchange σ} (h : Grows K x y)
    (hK : ∀ ret, K (.fidecs .after ret) = false) (hx : x.Pending) (hy : y.Latched) :
    y.Pending :=
  ⟨hy, fun ret hmem => hx.unfiltered ret (h.mem_of_not hmem (hK ret))⟩

theorem Pending.log {x : Exchange σ} (h : x.Pending) {e : Event} (he : e.isResponse = false)
    (hne : ∀ ret, e ≠ .fidecs .after ret) : (x.log e).Pending := by
  refine ⟨h.latched.log he, ?_⟩
  intro ret hmem
  rcases List.mem_append.mp hmem with hmem | hmem
  · exact h.unfiltered ret hmem
  · exact hne ret (List.mem_singleton.mp hmem).symm

theorem Pending.performAll {x : Exchange σ} (h : x.Pending) (calls : List Call) :
    (x.performAll calls).Pending :=
  (grows_performAll x calls).pending (fun _ => rfl) h (h.latched.performAll calls)

theorem Pending.flush {x : Exchange σ} (h : x.Pending) : x.flush.Pending :=
  (grows_end x _ _).pending (fun _ => rfl) h h.latched.flush

end Exchange

namespace App

theorem latched_fidecsFrom {stage : Stage} {pfx : CString} {s : FidecState σ}
    (h : s.x.Latched) (fidecs : List (Fidec σ)) :
    (fidecsFrom stage pfx s fidecs).2.Latched := by
  have hvisited : ∀ (s : FidecState σ) (fc : Fidec σ), s.x.Latched →
      (visited stage s fc).Latched := fun s fc h => h.invoke fc.h rfl
  apply Loop.run_invariant (P := fun s : FidecState σ => s.x.Latched)
    (Q := fun r : Option ℤ × Exchange σ => r.2.Latched)
  · intro s fc s' h hstep
    cases fidecStep_next hstep with
    | skip hc => exact h
    | ret hc ho hne hopen => exact hvisited s fc h
    | halt hc ho => exact (hvisited s fc h).end_ _ _
  · intro s fc r h hstep
    rw [(fidecStep_stop hstep).exchange]
    exact hvisited s fc h
  · exact fun s h => h
  · exact h

theorem latched_callFidecs {stage : Stage} {pfx : CString} {x : Exchange σ} (h : x.Latched)
    (fidecs : List (Fidec σ)) : (callFidecs stage fidecs pfx x).2.Latched := by
  have hloop : (fidecsFrom stage pfx (fidecStart x) fidecs).2.Latched :=
    latched_fidecsFrom h fidecs
  change Exchange.Latched ((fidecsFrom stage pfx (fidecStart x) fidecs).1.elim _ _)
  cases (fidecsFrom stage pfx (fidecStart x) fidecs).1 with
  | none => exact hloop
  | some ret => exact hloop.log rfl

theorem pending_callRequestHandler (rh : RouteHandler (Target σ)) {x : Exchange σ}
    (h : x.Pending) : (callRequestHandler rh x).2.Pending := by
  refine (grows_callRequestHandler rh x).pending (fun _ => rfl) h ?_
  unfold callRequestHandler
  cases rh.h.h with
  | none => exact h.latched
  | some hd =>
      have hinvoke := h.latched.invoke hd
        (e := .handler rh.m rh.prefix_ rh.nparams) rfl
      simp only
      cases (x.reaction hd).outcome with
      | halt status what => exact hinvoke.end_ _ _
      | _ => exact hinvoke

/-! ## The phases -/

section Phases

variable (app : App σ) (method : Method) (path : CString) (headers : List Header) (world : σ)
  (resume : Resumption σ)

/-- The before filters have let the request through, and `rh` is called in `x`. -/
def Entered (x : Exchange σ) (rh : RouteHandler (Target σ)) : Prop :=
  ∃ x₀ status, Routed app method path headers world x₀ rh ∧
    callFidecs .before app.before_ rh.prefix_ x₀ = (some status, x) ∧ status ≠ Ret.abort

/-- The route handler is called in `x` and returns `$ASYNC`, but no states have been set. -/
structure Stranded (x : Exchange σ) (rh : RouteHandler (Target σ)) : Prop where
  entered : Entered app method path headers world x rh
  async : ∃ hd, rh.h.h = some hd ∧ (x.reaction hd).outcome = .ret Ret.async ∧
    (x.performAll (x.reaction hd).calls).req.asyncStates = false

/-- `App::completeRequest` is called in `y`, by `App::handle` or by the last of the
asynchronous states. -/
inductive Completes : Exchange σ → RouteHandler (Target σ) → ℤ → Prop where
  | returned {x y : Exchange σ} {rh : RouteHandler (Target σ)} {status : ℤ}
      (h : Entered app method path headers world x rh)
      (hcall : callRequestHandler rh x = (some status, y)) (hne : status ≠ Ret.async) :
      Completes y rh status
  | resumed {x y : Exchange σ} {rh : RouteHandler (Target σ)}
      (h : Entered app method path headers world x rh)
      (hcall : callRequestHandler rh x = (some Ret.async, y))
      (hstates : y.req.asyncStates = true) :
      Completes (({ y with world := (resume y).2.2 }).performAll (resume y).1) rh
        (resume y).2.1

/-- The exchange behind the transformer. -/
def transformed (rt : ResponseTransformer σ) (y : Exchange σ) : Exchange σ :=
  (({ y with world := (rt y.resp y.world).2 }).log .transform).performAll
    (rt y.resp y.world).1.calls

/-- The exchange in which `App::completeRequest` calls the after filters. -/
def prepared (y : Exchange σ) (rh : RouteHandler (Target σ)) (status : ℤ) : Exchange σ :=
  { y with
    resp := (match rh.contentType with
      | some contentType => y.resp.header "Content-Type".toList contentType
      | none => y.resp).status status }

/-- The after filters are called in `z`. -/
inductive Closes : Exchange σ → RouteHandler (Target σ) → Prop where
  | plain {y : Exchange σ} {rh : RouteHandler (Target σ)} {status : ℤ}
      (h : Completes app method path headers world resume y rh status)
      (ht : rh.h.transformer = none) : Closes (prepared y rh status) rh
  | transform {y : Exchange σ} {rh : RouteHandler (Target σ)} {status : ℤ}
      (h : Completes app method path headers world resume y rh status)
      {rt : ResponseTransformer σ} (ht : rh.h.transformer = some rt) {code : ℤ}
      (hcode : (rt y.resp y.world).1.status = some code) (hne : code ≠ Ret.abort) :
      Closes (prepared { transformed rt y with
        resp := (transformed rt y).resp.swapBody (rt y.resp y.world).1.buffer } rh code) rh

end Phases

/-! ## The steps between the phases -/

theorem performAll_req {x y : Exchange σ} (h : x.req = y.req) (calls : List Call) :
    (x.performAll calls).req = (y.performAll calls).req := by
  induction calls generalizing x y with
  | nil => exact h
  | cons c calls ih =>
      apply ih
      cases c with
      | async states cleanup => exact congrArg (·.async states cleanup) h
      | _ => exact h

theorem invoke_req (x : Exchange σ) (hd : Handler σ) (e : Event) :
    (x.invoke hd e).req = (x.performAll (x.reaction hd).calls).req := by
  unfold Exchange.invoke
  apply performAll_req
  rfl

/-- The exchange in which the route handler has returned. -/
def handled (rh : RouteHandler (Target σ)) (hd : Handler σ) (x : Exchange σ) : Exchange σ :=
  x.invoke hd (.handler rh.m rh.prefix_ rh.nparams)

theorem callRequestHandler_ret {rh : RouteHandler (Target σ)} {hd : Handler σ}
    (hh : rh.h.h = some hd) {x : Exchange σ} {status : ℤ}
    (ho : (x.reaction hd).outcome = .ret status) :
    callRequestHandler rh x = (some status, handled rh hd x) := by
  simp only [callRequestHandler, hh, ho, handled]

/-- Only a handler that returns `$ASYNC` makes a request asynchronous. -/
theorem async_of_callRequestHandler {rh : RouteHandler (Target σ)} {x y : Exchange σ}
    (h : callRequestHandler rh x = (some Ret.async, y)) :
    ∃ hd, rh.h.h = some hd ∧ (x.reaction hd).outcome = .ret Ret.async := by
  unfold callRequestHandler at h
  cases hh : rh.h.h with
  | none =>
      rw [hh] at h
      cases h
  | some hd =>
      refine ⟨hd, rfl, ?_⟩
      simp only [hh] at h
      cases ho : (x.reaction hd).outcome with
      | ret status =>
          rw [ho] at h
          rw [Option.some.inj (Prod.mk.inj h).1]
      | _ =>
          rw [ho] at h
          cases h

/-- `App::completeRequest` from the after filters on. -/
def closing (app : App σ) (z : Exchange σ) (rh : RouteHandler (Target σ)) : Progress σ :=
  match callFidecs .after app.after_ rh.prefix_ z with
  | (none, x) => .escaped x
  | (some ret, x) =>
      let x := { x with resp := afterStatus ret x.resp }
      .released (if ret ≠ Ret.skipFlush then x.flush else x)

@[simp] theorem afterStatus_ended (ret : ℤ) (resp : HttpResponse) :
    (afterStatus ret resp).ended_ = resp.ended_ := by
  unfold afterStatus
  split
  · simp
  · split <;> simp

theorem sendResponse_eq (app : App σ) (y : Exchange σ) (rh : RouteHandler (Target σ))
    (status : ℤ) : app.sendResponse y rh status = app.closing (prepared y rh status) rh := by
  unfold sendResponse closing prepared
  cases rh.contentType <;> rfl

theorem completeRequest_of_none {app : App σ} {rh : RouteHandler (Target σ)}
    (ht : rh.h.transformer = none) (y : Exchange σ) (status : ℤ) :
    app.completeRequest y rh status = app.closing (prepared y rh status) rh := by
  rw [← sendResponse_eq]
  simp only [completeRequest, ht]

theorem completeRequest_of_some {app : App σ} {rh : RouteHandler (Target σ)}
    {rt : ResponseTransformer σ} (ht : rh.h.transformer = some rt) (y : Exchange σ)
    (status : ℤ) :
    app.completeRequest y rh status =
      match (rt y.resp y.world).1.status with
      | none => .escaped (transformed rt y)
      | some code =>
          if code = Ret.abort then .released (transformed rt y).flush
          else app.closing (prepared { transformed rt y with
            resp := (transformed rt y).resp.swapBody (rt y.resp y.world).1.buffer }
            rh code) rh := by
  simp only [completeRequest, ht, sendResponse_eq]
  rfl

theorem closing_ne_suspended (app : App σ) (z : Exchange σ) (rh : RouteHandler (Target σ))
    (x' : Exchange σ) (rh' : RouteHandler (Target σ)) :
    app.closing z rh ≠ .suspended x' rh' := by
  unfold closing
  rcases callFidecs .after app.after_ rh.prefix_ z with ⟨_ | ret, w⟩ <;> simp

theorem completeRequest_ne_suspended (app : App σ) (y : Exchange σ)
    (rh : RouteHandler (Target σ)) (status : ℤ) (x' : Exchange σ)
    (rh' : RouteHandler (Target σ)) : app.completeRequest y rh status ≠ .suspended x' rh' := by
  cases ht : rh.h.transformer with
  | none =>
      rw [completeRequest_of_none ht]
      exact closing_ne_suspended app _ rh x' rh'
  | some rt =>
      rw [completeRequest_of_some ht]
      cases (rt y.resp y.world).1.status with
      | none => simp
      | some code =>
          simp only
          split
          · simp
          · exact closing_ne_suspended app _ rh x' rh'

section Phases

variable {app : App σ} {method : Method} {path : CString} {headers : List Header} {world : σ}
  {resume : Resumption σ} {x y z : Exchange σ} {rh : RouteHandler (Target σ)} {status : ℤ}

/-! ## Where a phase leads -/

theorem Entered.handle_eq (h : Entered app method path headers world x rh) :
    app.handle method path headers world = app.runHandler x rh := by
  obtain ⟨x₀, status, hrouted, hcall, hne⟩ := h
  rw [hrouted.handle_eq]
  simp only [handleRoute, hcall, if_neg hne]

theorem serve_eq_handle
    (h : ∀ x rh, app.handle method path headers world ≠ .suspended x rh) :
    app.serve method path headers world resume = app.handle method path headers world := by
  unfold serve
  cases hhandle : app.handle method path headers world with
  | suspended x rh => exact absurd hhandle (h x rh)
  | released x => rfl
  | escaped x => rfl

theorem Completes.serve_eq (h : Completes app method path headers world resume y rh status) :
    app.serve method path headers world resume = app.completeRequest y rh status := by
  cases h with
  | returned h hcall hne =>
      have hhandle : app.handle method path headers world = app.completeRequest y rh status := by
        rw [h.handle_eq]
        simp only [runHandler, hcall, afterHandler, if_neg hne]
      rw [serve_eq_handle, hhandle]
      intro x' rh' hsuspended
      exact completeRequest_ne_suspended app y rh status x' rh' (hhandle.symm.trans hsuspended)
  | @resumed x y rh h hcall hstates =>
      have hhandle : app.handle method path headers world = .suspended y rh := by
        rw [h.handle_eq]
        simp only [runHandler, hcall, afterHandler, ite_true, hstates]
      simp only [serve, hhandle]

theorem Closes.serve_eq (h : Closes app method path headers world resume z rh) :
    app.serve method path headers world resume = app.closing z rh := by
  cases h with
  | plain h ht => rw [h.serve_eq, completeRequest_of_none ht]
  | transform h ht hcode hne =>
      rw [h.serve_eq, completeRequest_of_some ht, hcode]
      simp only [if_neg hne]

/-! ## The invariant -/

theorem Routed.pending (h : Routed app method path headers world x rh) : x.Pending := by
  have htrace := h.trace_nil
  have hended := h.ended_eq_false
  exact ⟨by simp [Exchange.Latched, Exchange.sentCount, htrace, hended], by simp [htrace]⟩

theorem Entered.pending (h : Entered app method path headers world x rh) : x.Pending := by
  obtain ⟨x₀, status, hrouted, hcall, -⟩ := h
  have hgrows : Exchange.Grows (Event.ofFidecs .before) x₀
    (callFidecs .before app.before_ rh.prefix_ x₀).2 := grows_callFidecs _ _
  have hpending := hgrows.pending (fun _ => rfl) hrouted.pending
    (latched_callFidecs hrouted.pending.latched _)
  rwa [hcall] at hpending

theorem Completes.pending (h : Completes app method path headers world resume y rh status) :
    y.Pending := by
  cases h with
  | returned h hcall hne =>
      have hpending := pending_callRequestHandler rh h.pending
      rwa [hcall] at hpending
  | @resumed x y rh h hcall hstates =>
      have hpending := pending_callRequestHandler rh h.pending
      rw [hcall] at hpending
      have hworld : Exchange.Pending { y with world := (resume y).2.2 } :=
        ⟨hpending.latched, hpending.unfiltered⟩
      exact hworld.performAll _

theorem transformed_pending (h : y.Pending) (rt : ResponseTransformer σ) :
    (transformed rt y).Pending := by
  have hworld : Exchange.Pending { y with world := (rt y.resp y.world).2 } :=
    ⟨h.latched, h.unfiltered⟩
  exact (hworld.log rfl (by simp)).performAll _

theorem swapBody_pending (h : y.Pending) (b : CString) :
    Exchange.Pending { y with resp := y.resp.swapBody b } :=
  ⟨h.latched, h.unfiltered⟩

theorem prepared_pending (h : y.Pending) (rh : RouteHandler (Target σ)) (status : ℤ) :
    (prepared y rh status).Pending := by
  refine ⟨h.latched.of_eq rfl ?_, h.unfiltered⟩
  cases hct : rh.contentType <;> simp [prepared, hct, HttpResponse.header]

theorem Closes.pending (h : Closes app method path headers world resume z rh) : z.Pending := by
  cases h with
  | plain h ht => exact prepared_pending h.pending rh _
  | @transform y rh _ h rt ht code hcode hne =>
      have hpending := transformed_pending h.pending rt
      exact prepared_pending (swapBody_pending hpending _) rh code

/-! ## The end of a request -/

/-- A stranded request is released as the handler left it. -/
theorem Stranded.serve_released (h : Stranded app method path headers world x rh)
    (resume : Resumption σ) :
    ∃ y, app.serve method path headers world resume = .released y ∧ y.Pending ∧
      y.resp.ended_ = x.resp.ended_ := by
  obtain ⟨hd, hh, ho, hstates⟩ := h.async
  set w := handled rh hd x with hw
  have hcall : callRequestHandler rh x = (some Ret.async, w) := callRequestHandler_ret hh ho
  have hpending : w.Pending := by
    have hpending := pending_callRequestHandler rh h.entered.pending
    rwa [hcall] at hpending
  have hnone : w.req.asyncStates = false := by
    rw [hw, handled, invoke_req, hstates]
  have hhandle : app.handle method path headers world = app.afterHandler w rh Ret.async := by
    rw [h.entered.handle_eq]
    simp only [runHandler, hcall]
  set v : Exchange σ := { w with resp := w.resp.status Status.internalError } with hv
  have hended : v.resp.ended_ = x.resp.ended_ := by
    rw [hv, Exchange.status_ended, hw, handled, Exchange.invoke_ended]
  have hset : v.Pending :=
    ⟨hpending.latched.of_eq rfl (Exchange.status_ended _ _), hpending.unfiltered⟩
  have hreleased : ∃ y, app.afterHandler w rh Ret.async = .released y ∧ y.Pending ∧
      y.resp.ended_ = x.resp.ended_ := by
    simp only [afterHandler, ite_true, hnone, Bool.false_eq_true, ite_false]
    split
    · have hlog := hset.log (e := .cleanup) rfl (by simp)
      exact ⟨_, rfl, ⟨hlog.latched, hlog.unfiltered⟩, hended⟩
    · exact ⟨v, rfl, hset, hended⟩
  obtain ⟨y, hy, hrest⟩ := hreleased
  refine ⟨y, ?_, hrest⟩
  rw [serve_eq_handle, hhandle, hy]
  intro x' rh' hsuspended
  rw [hhandle, hy] at hsuspended
  cases hsuspended

/-- The ways in which a request ends. -/
inductive Exit (app : App σ) (method : Method) (path : CString) (headers : List Header)
    (world : σ) (resume : Resumption σ) : Progress σ → Prop where
  | unrouted {y : Exchange σ} {sent : Sent} (h : y.trace = [.response sent]) :
      Exit app method path headers world resume (.released y)
  | flushed {y : Exchange σ} (h : y.Pending) :
      Exit app method path headers world resume (.released y.flush)
  | stranded {x y : Exchange σ} {rh : RouteHandler (Target σ)}
      (h : Stranded app method path headers world x rh) (hy : y.Pending)
      (hended : y.resp.ended_ = x.resp.ended_) :
      Exit app method path headers world resume (.released y)
  | closed {z : Exchange σ} {rh : RouteHandler (Target σ)}
      (h : Closes app method path headers world resume z rh) :
      Exit app method path headers world resume (app.closing z rh)
  | escaped (y : Exchange σ) : Exit app method path headers world resume (.escaped y)

theorem Completes.exit (h : Completes app method path headers world resume y rh status) :
    Exit app method path headers world resume
      (app.serve method path headers world resume) := by
  cases ht : rh.h.transformer with
  | none =>
      rw [(Closes.plain h ht).serve_eq]
      exact .closed (.plain h ht)
  | some rt =>
      cases hcode : (rt y.resp y.world).1.status with
      | none =>
          rw [h.serve_eq, completeRequest_of_some ht, hcode]
          exact .escaped _
      | some code =>
          by_cases hne : code = Ret.abort
          · rw [h.serve_eq, completeRequest_of_some ht, hcode]
            simp only [if_pos hne]
            exact .flushed (transformed_pending h.pending rt)
          · rw [(Closes.transform h ht hcode hne).serve_eq]
            exact .closed (.transform h ht hcode hne)

theorem Entered.exit (h : Entered app method path headers world x rh) :
    Exit app method path headers world resume
      (app.serve method path headers world resume) := by
  cases hcall : callRequestHandler rh x with
  | mk ret y =>
      cases ret with
      | none =>
          have hhandle : app.handle method path headers world = .escaped y := by
            rw [h.handle_eq]
            simp only [runHandler, hcall]
          rw [serve_eq_handle (by simp [hhandle]), hhandle]
          exact .escaped y
      | some status =>
          by_cases hasync : status = Ret.async
          · subst hasync
            cases hstates : y.req.asyncStates with
            | true => exact (Completes.resumed h hcall hstates).exit
            | false =>
                obtain ⟨hd, hh, ho⟩ := async_of_callRequestHandler hcall
                have hy := callRequestHandler_ret hh ho
                rw [hcall] at hy
                rw [(Prod.mk.inj hy).2, handled, invoke_req] at hstates
                have hstranded : Stranded app method path headers world x rh :=
                  ⟨h, hd, hh, ho, hstates⟩
                obtain ⟨w, hw, hpending, hended⟩ := hstranded.serve_released resume
                rw [hw]
                exact .stranded hstranded hpending hended
          · exact (Completes.returned h hcall hasync).exit

theorem serve_exit (app : App σ) (method : Method) (path : CString) (headers : List Header)
    (world : σ) (resume : Resumption σ) :
    Exit app method path headers world resume
      (app.serve method path headers world resume) := by
  by_cases hrouted : ∃ x rh, Routed app method path headers world x rh
  · obtain ⟨x, rh, hrouted⟩ := hrouted
    rcases handleRoute_cases app x rh with ⟨-, heq⟩ | ⟨-, heq⟩ | ⟨status, hstatus, hne, -⟩
    · have hhandle := hrouted.handle_eq.trans heq
      rw [serve_eq_handle (by simp [hhandle]), hhandle]
      exact .escaped _
    · have hhandle := hrouted.handle_eq.trans heq
      rw [serve_eq_handle (by simp [hhandle]), hhandle]
      have hgrows : Exchange.Grows (Event.ofFidecs .before) x
        (callFidecs .before app.before_ rh.prefix_ x).2 := grows_callFidecs _ _
      exact .flushed (hgrows.pending (fun _ => rfl) hrouted.pending
        (latched_callFidecs hrouted.pending.latched _))
    · have hentered : Entered app method path headers world
          (callFidecs .before app.before_ rh.prefix_ x).2 rh :=
        ⟨x, status, hrouted, by rw [← hstatus], hne⟩
      exact hentered.exit
  · obtain ⟨y, sent, hhandle, htrace⟩ := handle_unrouted (fun x rh h => hrouted ⟨x, rh, h⟩)
    rw [serve_eq_handle (by simp [hhandle]), hhandle]
    exact .unrouted htrace

end Phases

end App

end Sparc
