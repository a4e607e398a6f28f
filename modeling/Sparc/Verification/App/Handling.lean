import Sparc.Verification.App.Filters

/-! # The phases of a request

`App::handle` runs the before filters, the route handler and `App::completeRequest` one
after the other. Each phase records events of its own.
-/

namespace Sparc

namespace Event

theorem ofCompletion_of_direct (e : Event) (h : e.isDirect = true) : e.ofCompletion = true := by
  cases e <;> simp_all [isDirect, ofCompletion, ofRoute, isHandler]

theorem ofCompletion_of_response (e : Event) (h : e.isResponse = true) :
    e.ofCompletion = true := by
  cases e <;> simp_all [isResponse, ofCompletion, ofRoute, isHandler]

theorem ofCompletion_of_after (e : Event) (h : e.ofFidecs .after = true) :
    e.ofCompletion = true := by
  cases e <;> simp_all [ofFidecs, ofCompletion, ofRoute, isHandler]

theorem ofRoute_of_completion (e : Event) (h : e.ofCompletion = true) : e.ofRoute = true := by
  simp only [ofCompletion, Bool.and_eq_true] at h
  exact h.1

theorem ofHandler_of_direct (e : Event) (h : e.isDirect = true) : e.ofHandler = true := by
  cases e <;> simp_all [isDirect, ofHandler]

theorem ofHandler_of_response (e : Event) (h : e.isResponse = true) : e.ofHandler = true := by
  cases e <;> simp_all [isResponse, ofHandler]

theorem ofRoute_of_handler (e : Event) (h : e.ofHandler = true) : e.ofRoute = true := by
  cases e <;> simp_all [ofHandler, ofRoute]

end Event

namespace App

variable {σ : Type*}

/-! ## Behind the before filters -/

theorem grows_callRequestHandler (rh : RouteHandler (Target σ)) (x : Exchange σ) :
    Exchange.Grows Event.ofHandler x (callRequestHandler rh x).2 := by
  unfold callRequestHandler
  cases rh.h.h with
  | none => exact .of_trace_eq rfl
  | some h =>
      have hinvoke : Exchange.Grows Event.ofHandler x
          (x.invoke h (.handler rh.m rh.prefix_ rh.nparams)) :=
        Exchange.grows_invoke x h rfl Event.ofHandler_of_direct
      simp only
      cases (x.reaction h).outcome with
      | ret status => exact hinvoke
      | halt status what =>
          exact hinvoke.trans ((Exchange.grows_end _ _ _).mono Event.ofHandler_of_response)
      | exception => exact hinvoke
      | foreign => exact hinvoke

/-- A route handler that is present is invoked. -/
theorem mem_callRequestHandler {rh : RouteHandler (Target σ)} {h : Handler σ}
    (hh : rh.h.h = some h) (x : Exchange σ) :
    .handler rh.m rh.prefix_ rh.nparams ∈ (callRequestHandler rh x).2.trace := by
  have hmem := Exchange.mem_invoke x h (.handler rh.m rh.prefix_ rh.nparams)
  unfold callRequestHandler
  simp only [hh]
  cases (x.reaction h).outcome with
  | ret status => exact hmem
  | halt status what => exact (Exchange.grows_end _ _ _).mem hmem
  | exception => exact hmem
  | foreign => exact hmem

theorem grows_flush (x : Exchange σ) : Exchange.Grows Event.ofCompletion x x.flush :=
  (Exchange.grows_end _ _ _).mono Event.ofCompletion_of_response

theorem grows_sendResponse (app : App σ) (x : Exchange σ) (rh : RouteHandler (Target σ))
    (status : ℤ) :
    Exchange.Grows Event.ofCompletion x (app.sendResponse x rh status).exchange := by
  unfold sendResponse
  simp only
  set y : Exchange σ := { x with resp := _ } with hy
  have hfidecs : Exchange.Grows Event.ofCompletion x
      (callFidecs .after app.after_ rh.prefix_ y).2 := by
    have hstart : Exchange.Grows Event.ofCompletion x y := .of_trace_eq rfl
    exact hstart.trans ((grows_callFidecs _ _).mono Event.ofCompletion_of_after)
  cases hcall : callFidecs .after app.after_ rh.prefix_ y with
  | mk ret z =>
      rw [hcall] at hfidecs
      cases ret with
      | none => exact hfidecs
      | some ret =>
          have hset : Exchange.Grows Event.ofCompletion z
            { z with resp := afterStatus ret z.resp } := .of_trace_eq rfl
          by_cases hskip : ret = Ret.skipFlush
          · simpa [hskip, Progress.exchange] using hfidecs.trans hset
          · simpa [hskip, Progress.exchange] using (hfidecs.trans hset).trans (grows_flush _)

theorem grows_completeRequest (app : App σ) (x : Exchange σ) (rh : RouteHandler (Target σ))
    (status : ℤ) :
    Exchange.Grows Event.ofCompletion x (app.completeRequest x rh status).exchange := by
  unfold completeRequest
  cases rh.h.transformer with
  | none => exact grows_sendResponse app x rh status
  | some rt =>
      simp only
      set y := (({ x with world := (rt x.resp x.world).2 } : Exchange σ).log
        .transform).performAll (rt x.resp x.world).1.calls with hy
      have htransform : Exchange.Grows Event.ofCompletion x y := by
        have hlog : Exchange.Grows Event.ofCompletion x
            (({ x with world := (rt x.resp x.world).2 } : Exchange σ).log .transform) :=
          ⟨[.transform], rfl, by simp [Event.ofCompletion, Event.ofRoute, Event.isHandler]⟩
        exact hlog.trans ((Exchange.grows_performAll _ _).mono Event.ofCompletion_of_direct)
      cases (rt x.resp x.world).1.status with
      | none => exact htransform
      | some status =>
          by_cases habort : status = Ret.abort
          · simpa [habort, Progress.exchange] using htransform.trans (grows_flush y)
          · have hswap : Exchange.Grows Event.ofCompletion y
              { y with resp := y.resp.swapBody (rt x.resp x.world).1.buffer } := .of_trace_eq rfl
            simpa [habort] using
              (htransform.trans hswap).trans (grows_sendResponse app _ rh status)

theorem grows_afterHandler (app : App σ) (x : Exchange σ) (rh : RouteHandler (Target σ))
    (status : ℤ) :
    Exchange.Grows Event.ofCompletion x (app.afterHandler x rh status).exchange := by
  unfold afterHandler
  split
  · split
    · exact .of_trace_eq rfl
    · simp only
      split
      · exact ⟨[.cleanup], rfl, by simp [Event.ofCompletion, Event.ofRoute, Event.isHandler]⟩
      · exact .of_trace_eq rfl
  · exact grows_completeRequest app x rh status

theorem grows_runHandler (app : App σ) (x : Exchange σ) (rh : RouteHandler (Target σ)) :
    Exchange.Grows Event.ofRoute x (app.runHandler x rh).exchange := by
  have hcall := (grows_callRequestHandler rh x).mono Event.ofRoute_of_handler
  unfold runHandler
  cases h : callRequestHandler rh x with
  | mk ret y =>
      rw [h] at hcall
      cases ret with
      | none => exact hcall
      | some status =>
          exact hcall.trans ((grows_afterHandler app y rh status).mono
            Event.ofRoute_of_completion)

theorem mem_runHandler (app : App σ) {rh : RouteHandler (Target σ)} {h : Handler σ}
    (hh : rh.h.h = some h) (x : Exchange σ) :
    .handler rh.m rh.prefix_ rh.nparams ∈ (app.runHandler x rh).exchange.trace := by
  have hmem := mem_callRequestHandler hh x
  unfold runHandler
  cases hcall : callRequestHandler rh x with
  | mk ret y =>
      rw [hcall] at hmem
      cases ret with
      | none => exact hmem
      | some status => exact (grows_afterHandler app y rh status).mem hmem

/-- No other route handler is invoked. -/
theorem of_mem_callRequestHandler {rh : RouteHandler (Target σ)} {x : Exchange σ} {e : Event}
    (he : e ∈ (callRequestHandler rh x).2.trace) (hhandler : e.isHandler = true) :
    e ∈ x.trace ∨ e = .handler rh.m rh.prefix_ rh.nparams := by
  have hdirect : e.isDirect = false := by
    cases e <;> simp_all [Event.isHandler, Event.isDirect]
  have hresponse : e.isResponse = false := by
    cases e <;> simp_all [Event.isHandler, Event.isResponse]
  unfold callRequestHandler at he
  cases hh : rh.h.h with
  | none =>
      rw [hh] at he
      exact Or.inl he
  | some h =>
      simp only [hh] at he
      cases ho : (x.reaction h).outcome with
      | halt status what =>
          rw [ho] at he
          exact Exchange.of_mem_invoke ((Exchange.grows_end _ _ _).mem_of_not he hresponse) hdirect
      | _ =>
          rw [ho] at he
          exact Exchange.of_mem_invoke he hdirect

theorem of_mem_runHandler {app : App σ} {rh : RouteHandler (Target σ)} {x : Exchange σ}
    {e : Event} (he : e ∈ (app.runHandler x rh).exchange.trace) (hhandler : e.isHandler = true) :
    e ∈ x.trace ∨ e = .handler rh.m rh.prefix_ rh.nparams := by
  apply of_mem_callRequestHandler _ hhandler
  unfold runHandler at he
  cases hcall : callRequestHandler rh x with
  | mk ret y =>
      rw [hcall] at he
      cases ret with
      | none => exact he
      | some status =>
          exact (grows_afterHandler app y rh status).mem_of_not he
            (by simp [Event.ofCompletion, hhandler])

/-! ## Static files -/

theorem applyHeaders_snd (sfRouter : StaticFilesRouter σ) (x : Exchange σ) (sf : StaticFile) :
    (sfRouter.applyHeaders x sf).2.trace = x.trace ∧
      (sfRouter.applyHeaders x sf).2.resp.ended_ = x.resp.ended_ := by
  have hheaders : ∀ (headers : List Header) (r : HttpResponse),
      (headers.foldl (fun r hh => r.header hh.1 hh.2) r).ended_ = r.ended_ := by
    intro headers
    induction headers with
    | nil => exact fun r => rfl
    | cons hh headers ih => exact fun r => ih (r.header hh.1 hh.2)
  simp only [StaticFilesRouter.applyHeaders]
  split
  · exact ⟨rfl, rfl⟩
  · refine ⟨rfl, ?_⟩
    simp only [hheaders]
    split
    · split <;> rfl
    · rfl

/-- A static path is answered at once, whether the file exists or not. -/
theorem handleStatic_released (app : App σ) (x : Exchange σ) :
    ∃ y status data, app.handleStatic x = .released (Exchange.end_ y status data) ∧
      y.trace = x.trace ∧ y.resp.ended_ = x.resp.ended_ := by
  have hflush : ∀ (y : Exchange σ) (status : ℤ) (data : Option CString),
      (y.end_ status data).flush = y.end_ status data :=
    fun y status data => Exchange.end_of_ended (Exchange.end_ended y status data) _ _
  unfold handleStatic
  simp only [hflush]
  cases (app.sfRouter_.find x.req.path x.world).1 with
  | none => exact ⟨_, _, _, rfl, rfl, rfl⟩
  | some sf =>
      simp only
      set z : Exchange σ := { x with resp := _, world := _ } with hz
      obtain ⟨htrace, hended⟩ := applyHeaders_snd app.sfRouter_ z sf
      split
      · exact ⟨_, _, _, rfl, htrace, hended⟩
      · exact ⟨_, _, _, rfl, htrace, hended⟩

/-! ## Dispatch -/

/-- The request of `App::handle` has been routed: `x` is the exchange in which the before
filters are called for the handler `rh`. -/
structure Routed (app : App σ) (method : Method) (path : CString) (headers : List Header)
    (world : σ) (x : Exchange σ) (rh : RouteHandler (Target σ)) : Prop where
  dynamic : ¬ assumesStatic path
  exchange : x = { app.start method path headers world with
    req := (HttpRequest.new method path headers).resolveRoute app.router_ }
  handler : x.req.hanadler_ = some rh

section Dispatch

variable {app : App σ} {method : Method} {path : CString} {headers : List Header} {world : σ}
  {x : Exchange σ} {rh : RouteHandler (Target σ)}

theorem Routed.trace_nil (h : Routed app method path headers world x rh) : x.trace = [] := by
  rw [h.exchange]
  rfl

theorem Routed.ended_eq_false (h : Routed app method path headers world x rh) :
    x.resp.ended_ = false := by
  rw [h.exchange]
  rfl

theorem Routed.handle_eq (h : Routed app method path headers world x rh) :
    app.handle method path headers world = app.handleRoute x rh := by
  have hhandler := h.handler
  simp only [h.exchange] at hhandler
  simp only [handle, if_neg h.dynamic, start, hhandler]
  rw [h.exchange]
  rfl

theorem end_trace {y : Exchange σ} (h : y.resp.ended_ = false) (status : ℤ)
    (data : Option CString) :
    ∃ sent, sent.status = status ∧ (y.end_ status data).trace = y.trace ++ [.response sent] := by
  simp only [Exchange.end_, HttpResponse.end_, h, Bool.false_eq_true, ite_false]
  exact ⟨_, rfl, rfl⟩

/-- A request without a route is answered at once. -/
theorem handle_unrouted (h : ∀ x rh, ¬ Routed app method path headers world x rh) :
    ∃ y sent, app.handle method path headers world = .released y ∧
      y.trace = [.response sent] := by
  by_cases hstatic : assumesStatic path
  · obtain ⟨y, status, data, hhandle, htrace, hended⟩ :=
      handleStatic_released app (app.start method path headers world)
    obtain ⟨sent, -, hsent⟩ := end_trace hended status data
    refine ⟨_, sent, ?_, hsent.trans (by rw [htrace]; rfl)⟩
    simp only [handle, if_pos hstatic, hhandle]
  · set x : Exchange σ := { app.start method path headers world with
      req := (HttpRequest.new method path headers).resolveRoute app.router_ } with hx
    obtain ⟨sent, -, hsent⟩ := @end_trace σ x rfl Status.notFound none
    refine ⟨x.end_ Status.notFound none, sent, ?_, hsent⟩
    have hnone : x.req.hanadler_ = none := by
      cases hhandler : x.req.hanadler_ with
      | none => rfl
      | some rh => exact absurd ⟨hstatic, hx, hhandler⟩ (h x rh)
    simp only [handle, if_neg hstatic]
    simp only [hx] at hnone
    simp only [start, hnone]
    rfl

/-- Whatever else happens in a request happens for a route. -/
theorem routed_of_mem {e : Event}
    (he : e ∈ (app.handle method path headers world).exchange.trace)
    (hresponse : e.isResponse = false) :
    ∃ x rh, Routed app method path headers world x rh := by
  by_contra hnone
  obtain ⟨y, sent, heq, htrace⟩ := handle_unrouted (fun x rh h => hnone ⟨x, rh, h⟩)
  rw [heq, Progress.exchange, htrace, List.mem_singleton] at he
  rw [he] at hresponse
  cases hresponse

/-- The three ways on from the before filters. -/
theorem handleRoute_cases (app : App σ) (x : Exchange σ) (rh : RouteHandler (Target σ)) :
    let before := callFidecs .before app.before_ rh.prefix_ x
    (before.1 = none ∧ app.handleRoute x rh = .escaped before.2) ∨
    (before.1 = some Ret.abort ∧ app.handleRoute x rh = .released before.2.flush) ∨
    (∃ status, before.1 = some status ∧ status ≠ Ret.abort ∧
      app.handleRoute x rh = app.runHandler before.2 rh) := by
  simp only
  unfold handleRoute
  cases callFidecs .before app.before_ rh.prefix_ x with
  | mk ret y =>
      cases ret with
      | none => exact Or.inl ⟨rfl, rfl⟩
      | some status =>
          by_cases habort : status = Ret.abort
          · subst habort
            exact Or.inr (Or.inl ⟨rfl, by simp⟩)
          · exact Or.inr (Or.inr ⟨status, rfl, habort, by simp [habort]⟩)

end Dispatch

end App

end Sparc
