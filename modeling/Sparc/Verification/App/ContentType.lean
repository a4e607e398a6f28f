import Sparc.Verification.App.Completion
import Sparc.Verification.App.Dispatch

/-! # The content type of a response

`HttpResponse::type` replaces the header of the content type, `App::completeRequest` appends
the one that is registered with the route. How many of these headers there are beyond the
first does not change but there.
-/

namespace Sparc

variable {σ : Type*}

/-! ## Headers -/

/-- The number of the headers of the content type. -/
def contentTypes (headers : List Header) : ℕ :=
  headers.countP (fun hh => sameNoCase hh.1 "Content-Type".toList)

/-- The call leaves the header of the content type to `HttpResponse::type`. -/
def Call.ByType : Call → Prop
  | .header name _ => sameNoCase name "Content-Type".toList = false
  | _ => True

theorem contentTypes_concat (headers : List Header) (name value : CString) :
    contentTypes (headers ++ [(name, value)]) =
      contentTypes headers + if sameNoCase name "Content-Type".toList then 1 else 0 := by
  rw [contentTypes, List.countP_append, List.countP_singleton]
  rfl

theorem contentTypes_modify (headers : List Header) (i : ℕ) (t : CString) :
    contentTypes (headers.modify i (fun hh => (hh.1, t))) = contentTypes headers := by
  induction headers generalizing i with
  | nil => cases i <;> rfl
  | cons hh headers ih =>
      cases i with
      | zero => rfl
      | succ i =>
          rw [List.modify_succ_cons, contentTypes, contentTypes, List.countP_cons,
            List.countP_cons]
          exact congrArg (· + _) (ih i)

theorem contentTypes_flushFrom (cbuf : CString) (cookies : List Cookie) :
    contentTypes (HttpResponse.flushFrom cbuf cookies) = 0 := by
  induction cookies generalizing cbuf with
  | nil => rfl
  | cons c cookies ih =>
      have hname : sameNoCase "Set-Cookie".toList "Content-Type".toList = false := by decide
      rw [HttpResponse.flushFrom, contentTypes, List.countP_cons, hname, if_neg nofun]
      exact ih _

/-- `HttpResponse::type` adds a header only if there is none. -/
theorem contentTypes_type (r : HttpResponse) (t : CString) :
    contentTypes (r.type t).respHeaders - 1 = contentTypes r.respHeaders - 1 := by
  unfold HttpResponse.type
  cases hidx : r.respHeaders.findIdx? (fun hh => sameNoCase hh.1 "Content-Type".toList) with
  | some i => exact congrArg (· - 1) (contentTypes_modify r.respHeaders i t)
  | none =>
      have hnone : contentTypes r.respHeaders = 0 := by
        rw [contentTypes, List.countP_eq_zero]
        intro hh hmem
        rw [List.findIdx?_eq_none_iff.1 hidx hh hmem]
        exact Bool.false_ne_true
      simp only [HttpResponse.header, contentTypes_concat, hnone]
      split <;> rfl

namespace Exchange

/-! ## The invariant -/

/-- The responses sent so far have `n` content types beyond the first, and as long as the
response is open its headers have. -/
structure Uniform (n : ℕ) (x : Exchange σ) : Prop where
  sent : ∀ sent, .response sent ∈ x.trace → contentTypes sent.headers - 1 = n
  headers : x.resp.ended_ = false → contentTypes x.resp.respHeaders - 1 = n

variable {n : ℕ} {x y : Exchange σ}

/-- Only the trace, the headers and the latch matter. -/
theorem Uniform.of_eq (h : x.Uniform n) (htrace : y.trace = x.trace)
    (hended : y.resp.ended_ = x.resp.ended_)
    (hheaders : contentTypes y.resp.respHeaders - 1 = contentTypes x.resp.respHeaders - 1) :
    y.Uniform n := by
  constructor
  · intro sent hsent
    exact h.sent sent (htrace ▸ hsent)
  · intro hopen
    rw [hheaders]
    exact h.headers (hended ▸ hopen)

theorem Uniform.log (h : x.Uniform n) {e : Event} (he : e.isResponse = false) :
    (x.log e).Uniform n := by
  refine ⟨fun sent hsent => ?_, h.headers⟩
  rcases List.mem_append.1 hsent with hold | hnew
  · exact h.sent sent hold
  · rw [← List.mem_singleton.1 hnew] at he
    cases he

theorem Uniform.perform (h : x.Uniform n) {c : Call} (hc : c.ByType) :
    (x.perform c).Uniform n := by
  cases c with
  | type t => exact h.of_eq rfl (perform_ended x _) (contentTypes_type x.resp t)
  | header name value =>
      have hname : sameNoCase name "Content-Type".toList = false := hc
      refine h.of_eq rfl rfl ?_
      simp only [Exchange.perform, HttpResponse.header, contentTypes_concat, hname,
        Bool.false_eq_true, if_false, Nat.add_zero]
  | redirect location status =>
      refine h.of_eq rfl rfl ?_
      simp only [Exchange.perform, HttpResponse.redirect, HttpResponse.header,
        contentTypes_concat]
      rfl
  | cookie name value path domain expire secure =>
      refine h.of_eq rfl (perform_ended x _) ?_
      simp only [Exchange.perform, HttpResponse.cookie]
      split <;> rfl
  | status s =>
      refine h.of_eq rfl (perform_ended x _) ?_
      simp only [Exchange.perform, HttpResponse.status]
      split <;> rfl
  | httpResponse status => exact h.log rfl
  | _ => exact h.of_eq rfl rfl rfl

theorem Uniform.performAll (h : x.Uniform n) {calls : List Call} (hcalls : ∀ c ∈ calls, c.ByType) :
    (x.performAll calls).Uniform n := by
  induction calls generalizing x with
  | nil => exact h
  | cons c calls ih =>
      obtain ⟨hc, hrest⟩ := List.forall_mem_cons.1 hcalls
      exact ih (h.perform hc) hrest

/-- What is sent has the headers of the response and its cookies. -/
theorem Uniform.end_ (h : x.Uniform n) (status : ℤ) (data : Option CString) :
    (x.end_ status data).Uniform n := by
  cases hended : x.resp.ended_ with
  | true => rwa [end_of_ended hended]
  | false =>
      refine ⟨fun sent hsent => ?_, fun hopen => ?_⟩
      · simp only [Exchange.end_, HttpResponse.end_, hended, Bool.false_eq_true, if_false,
          Exchange.log, HttpResponse.flushCookies] at hsent
        rcases List.mem_append.1 hsent with hold | hnew
        · exact h.sent sent hold
        · obtain rfl := Event.response.inj (List.mem_singleton.1 hnew)
          rw [contentTypes, List.countP_append]
          change contentTypes _ + contentTypes _ - 1 = n
          rw [contentTypes_flushFrom, Nat.add_zero]
          exact h.headers hended
      · rw [end_ended] at hopen
        cases hopen

theorem Uniform.flush (h : x.Uniform n) : x.flush.Uniform n := h.end_ _ _

theorem Uniform.status (h : x.Uniform n) (s : ℤ) :
    Exchange.Uniform n { x with resp := x.resp.status s } :=
  h.perform (c := .status s) trivial

theorem Uniform.invoke (h : x.Uniform n) (hd : Handler σ) {e : Event}
    (he : e.isResponse = false) (hcalls : ∀ c ∈ (x.reaction hd).calls, c.ByType) :
    (x.invoke hd e).Uniform n := by
  have hworld : Exchange.Uniform n { x with world := (hd x.view x.resp x.world).2 } :=
    h.of_eq rfl rfl rfl
  exact (hworld.log he).performAll hcalls

end Exchange

namespace App

open Exchange

/-! ## Code that sets the type by `HttpResponse::type` -/

def Handler.ByType (hd : Handler σ) : Prop :=
  ∀ req resp world, ∀ c ∈ (hd req resp world).1.calls, c.ByType

/-- The filters, the handler, the transformer and the asynchronous states of the route write no
header of the content type themselves. -/
structure ByType (app : App σ) (rh : RouteHandler (Target σ)) (resume : Resumption σ) : Prop where
  before : ∀ fc ∈ app.before_, Handler.ByType fc.h
  handler : ∀ hd ∈ rh.h.h, Handler.ByType hd
  states : ∀ x, ∀ c ∈ (resume x).1, c.ByType
  transformer : ∀ rt ∈ rh.h.transformer, ∀ resp world, ∀ c ∈ (rt resp world).1.calls, c.ByType
  after : ∀ fc ∈ app.after_, Handler.ByType fc.h

/-! ## The phases -/

section Phases

variable {n : ℕ} {stage : Stage} {pfx : CString} {fidecs : List (Fidec σ)}

theorem uniform_visited {s : FidecState σ} {fc : Fidec σ} (h : s.x.Uniform n)
    (hfc : Handler.ByType fc.h) : (visited stage s fc).Uniform n :=
  h.invoke fc.h rfl (fun c hc => hfc _ _ _ c hc)

theorem uniform_fidecsFrom (hfidecs : ∀ fc ∈ fidecs, Handler.ByType fc.h) {s : FidecState σ}
    (h : s.x.Uniform n) : (fidecsFrom stage pfx s fidecs).2.Uniform n := by
  induction fidecs generalizing s with
  | nil => exact h
  | cons fc fidecs ih =>
      obtain ⟨hfc, hrest⟩ := List.forall_mem_cons.1 hfidecs
      have hvisited : (visited stage s fc).Uniform n := uniform_visited h hfc
      rw [fidecsFrom, Loop.run]
      cases hstep : fidecStep stage pfx s fc with
      | stop r =>
          simp only
          rw [(fidecStep_stop hstep).exchange]
          exact hvisited
      | next s' =>
          apply ih hrest
          cases fidecStep_next hstep with
          | skip hc => exact h
          | ret hc ho hne hopen => exact hvisited
          | halt hc ho => exact hvisited.end_ _ _

theorem uniform_callFidecs (hfidecs : ∀ fc ∈ fidecs, Handler.ByType fc.h) {x : Exchange σ}
    (h : x.Uniform n) : (callFidecs stage fidecs pfx x).2.Uniform n := by
  have hloop : (fidecsFrom stage pfx (fidecStart x) fidecs).2.Uniform n :=
    uniform_fidecsFrom hfidecs h
  change Exchange.Uniform n ((fidecsFrom stage pfx (fidecStart x) fidecs).1.elim _ _)
  cases (fidecsFrom stage pfx (fidecStart x) fidecs).1 with
  | none => exact hloop
  | some ret => exact hloop.log rfl

theorem uniform_callRequestHandler {rh : RouteHandler (Target σ)}
    (hhandler : ∀ hd ∈ rh.h.h, Handler.ByType hd) {x : Exchange σ} (h : x.Uniform n) :
    (callRequestHandler rh x).2.Uniform n := by
  unfold callRequestHandler
  cases hh : rh.h.h with
  | none => exact h
  | some hd =>
      have hinvoke := h.invoke hd (e := .handler rh.m rh.prefix_ rh.nparams) rfl
        (fun c hc => hhandler hd hh _ _ _ c hc)
      simp only
      cases (x.reaction hd).outcome with
      | halt status what => exact hinvoke.end_ _ _
      | _ => exact hinvoke

theorem uniform_transformed {rt : ResponseTransformer σ}
    (hrt : ∀ resp world, ∀ c ∈ (rt resp world).1.calls, c.ByType) {y : Exchange σ}
    (h : y.Uniform n) : (transformed rt y).Uniform n := by
  have hworld : Exchange.Uniform n { y with world := (rt y.resp y.world).2 } :=
    h.of_eq rfl rfl rfl
  exact (hworld.log rfl).performAll (fun c hc => hrt _ _ c hc)

/-- Behind the after filters nothing changes any more. -/
theorem uniform_closing {app : App σ} (hafter : ∀ fc ∈ app.after_, Handler.ByType fc.h)
    {z : Exchange σ} (h : z.Uniform n) (rh : RouteHandler (Target σ)) :
    (app.closing z rh).exchange.Uniform n := by
  have hfidecs : (callFidecs .after app.after_ rh.prefix_ z).2.Uniform n :=
    uniform_callFidecs hafter h
  unfold closing
  cases hcall : callFidecs .after app.after_ rh.prefix_ z with
  | mk ret w =>
      rw [hcall] at hfidecs
      cases ret with
      | none => exact hfidecs
      | some ret =>
          have hset : Exchange.Uniform n { w with resp := afterStatus ret w.resp } := by
            unfold afterStatus
            split
            · exact hfidecs.status ret
            · split
              · exact hfidecs
              · exact hfidecs.status Status.internalError
          simp only
          split
          · exact hset.flush
          · exact hset

theorem prepared_of_none {rh : RouteHandler (Target σ)} (hct : rh.contentType = none)
    (y : Exchange σ) (status : ℤ) : prepared y rh status = y.perform (.status status) := by
  rw [prepared, hct]
  rfl

theorem prepared_of_some {rh : RouteHandler (Target σ)} {contentType : CString}
    (hct : rh.contentType = some contentType) (y : Exchange σ) (status : ℤ) :
    prepared y rh status =
      (y.perform (.header "Content-Type".toList contentType)).perform (.status status) := by
  rw [prepared, hct]
  rfl

/-- Without a registered type, and behind the response, `App::completeRequest` leaves the
content types as they are. -/
theorem uniform_prepared {y : Exchange σ} {rh : RouteHandler (Target σ)} (h : y.Uniform n)
    (hstamp : rh.contentType = none ∨ y.resp.ended_ = true) (status : ℤ) :
    (prepared y rh status).Uniform n := by
  cases hct : rh.contentType with
  | none =>
      rw [prepared_of_none hct]
      exact h.perform trivial
  | some contentType =>
      have hended : y.resp.ended_ = true := hstamp.resolve_left (by rw [hct]; exact nofun)
      have hheader : (y.perform (.header "Content-Type".toList contentType)).Uniform n := by
        refine ⟨h.sent, fun hopen => ?_⟩
        rw [perform_ended, hended] at hopen
        cases hopen
      rw [prepared_of_some hct]
      exact hheader.perform trivial

/-- The registered type comes on top of those that are in an open response. -/
theorem uniform_stamped {y : Exchange σ} {rh : RouteHandler (Target σ)} (h : y.Latched)
    (hct : rh.contentType ≠ none) (hopen : y.resp.ended_ = false) (status : ℤ) :
    (prepared y rh status).Uniform (contentTypes y.resp.respHeaders) := by
  obtain ⟨contentType, hct⟩ := Option.ne_none_iff_exists'.1 hct
  have hheader : (y.perform (.header "Content-Type".toList contentType)).Uniform
      (contentTypes y.resp.respHeaders) := by
    constructor
    · intro sent hsent
      have hzero : y.sentCount = 0 := by simpa [Latched, hopen] using h
      exact absurd rfl (List.countP_eq_zero.1 hzero _ hsent)
    · intro _
      have hname : sameNoCase "Content-Type".toList "Content-Type".toList = true := by decide
      change contentTypes (y.resp.respHeaders ++ [("Content-Type".toList, contentType)]) - 1 = _
      rw [contentTypes_concat, if_pos hname, Nat.add_sub_cancel]
  rw [prepared_of_some hct]
  exact hheader.perform trivial

end Phases

/-! ## Requests -/

section Requests

variable {app : App σ} {method : Method} {path : CString} {headers : List Header} {world : σ}
  {resume : Resumption σ} {x y : Exchange σ} {rh : RouteHandler (Target σ)} {status : ℤ}

/-- `App::completeRequest` comes to the content type of the route in `y`. -/
inductive Stamps (app : App σ) (method : Method) (path : CString) (headers : List Header)
    (world : σ) (resume : Resumption σ) : Exchange σ → RouteHandler (Target σ) → ℤ → Prop where
  | plain {y : Exchange σ} {rh : RouteHandler (Target σ)} {status : ℤ}
      (h : Completes app method path headers world resume y rh status)
      (ht : rh.h.transformer = none) : Stamps app method path headers world resume y rh status
  | transform {y : Exchange σ} {rh : RouteHandler (Target σ)} {status : ℤ}
      (h : Completes app method path headers world resume y rh status)
      {rt : ResponseTransformer σ} (ht : rh.h.transformer = some rt) {code : ℤ}
      (hcode : (rt y.resp y.world).1.status = some code) (hne : code ≠ Ret.abort) :
      Stamps app method path headers world resume { transformed rt y with
        resp := (transformed rt y).resp.swapBody (rt y.resp y.world).1.buffer } rh code

theorem Stamps.serve_eq (h : Stamps app method path headers world resume y rh status) :
    app.serve method path headers world resume = app.closing (prepared y rh status) rh := by
  cases h with
  | plain h ht => exact (Closes.plain h ht).serve_eq
  | transform h ht hcode hne => exact (Closes.transform h ht hcode hne).serve_eq

theorem Stamps.latched (h : Stamps app method path headers world resume y rh status) :
    y.Latched := by
  cases h with
  | plain h ht => exact h.pending.latched
  | @transform y rh status h rt ht code hcode hne =>
      exact (swapBody_pending (transformed_pending h.pending rt) _).latched

theorem Routed.uniform (h : Routed app method path headers world x rh) : x.Uniform 0 := by
  constructor
  · intro sent hsent
    rw [h.trace_nil] at hsent
    cases hsent
  · intro _
    rw [h.exchange]
    rfl

theorem Entered.uniform (h : Entered app method path headers world x rh)
    (hby : ByType app rh resume) : x.Uniform 0 := by
  obtain ⟨x₀, status, hrouted, hcall, -⟩ := h
  have huniform : (callFidecs .before app.before_ rh.prefix_ x₀).2.Uniform 0 :=
    uniform_callFidecs hby.before hrouted.uniform
  rwa [hcall] at huniform

theorem Completes.uniform (h : Completes app method path headers world resume y rh status)
    (hby : ByType app rh resume) : y.Uniform 0 := by
  cases h with
  | returned h hcall hne =>
      have huniform := uniform_callRequestHandler hby.handler (h.uniform hby)
      rwa [hcall] at huniform
  | @resumed x y rh h hcall hstates =>
      have huniform := uniform_callRequestHandler hby.handler (h.uniform hby)
      rw [hcall] at huniform
      have hworld : Exchange.Uniform 0 { y with world := (resume y).2.2 } :=
        huniform.of_eq rfl rfl rfl
      exact hworld.performAll (hby.states y)

theorem Stamps.uniform (h : Stamps app method path headers world resume y rh status)
    (hby : ByType app rh resume) : y.Uniform 0 := by
  cases h with
  | plain h ht => exact h.uniform hby
  | @transform y rh status h rt ht code hcode hne =>
      exact (uniform_transformed (hby.transformer rt ht) (h.uniform hby)).of_eq rfl rfl rfl

/-- The route's own content type is appended to an open response. -/
def Doubles (app : App σ) (method : Method) (path : CString) (headers : List Header)
    (world : σ) (resume : Resumption σ) (y : Exchange σ) (rh : RouteHandler (Target σ)) : Prop :=
  (∃ status, Stamps app method path headers world resume y rh status) ∧
    rh.contentType ≠ none ∧ y.resp.ended_ = false

/-- The responses of a request in which the type of the route is not appended. -/
theorem Stamps.uniform_or_doubles
    (h : Stamps app method path headers world resume y rh status) (hby : ByType app rh resume) :
    (∃ y, Doubles app method path headers world resume y rh) ∨
      (app.serve method path headers world resume).exchange.Uniform 0 := by
  by_cases hdouble : rh.contentType ≠ none ∧ y.resp.ended_ = false
  · exact Or.inl ⟨y, ⟨status, h⟩, hdouble⟩
  · have hstamp : rh.contentType = none ∨ y.resp.ended_ = true := by
      rw [not_and_or, not_not, Bool.not_eq_false] at hdouble
      exact hdouble
    rw [h.serve_eq]
    exact Or.inr (uniform_closing hby.after (uniform_prepared (h.uniform hby) hstamp status) rh)

theorem Completes.uniform_or_doubles
    (h : Completes app method path headers world resume y rh status)
    (hby : ByType app rh resume) :
    (∃ y, Doubles app method path headers world resume y rh) ∨
      (app.serve method path headers world resume).exchange.Uniform 0 := by
  cases ht : rh.h.transformer with
  | none => exact (Stamps.plain h ht).uniform_or_doubles hby
  | some rt =>
      have htransformed := uniform_transformed (hby.transformer rt ht) (h.uniform hby)
      cases hcode : (rt y.resp y.world).1.status with
      | none =>
          rw [h.serve_eq, completeRequest_of_some ht, hcode]
          exact Or.inr htransformed
      | some code =>
          by_cases hne : code = Ret.abort
          · rw [h.serve_eq, completeRequest_of_some ht, hcode]
            simp only [if_pos hne]
            exact Or.inr htransformed.flush
          · exact (Stamps.transform h ht hcode hne).uniform_or_doubles hby

/-- A request whose states are missing is released without `App::completeRequest`. -/
theorem uniform_stranded (app : App σ) {n : ℕ} (h : y.Uniform n)
    (hstates : y.req.asyncStates = false) (rh : RouteHandler (Target σ)) :
    ∃ z, app.afterHandler y rh Ret.async = .released z ∧ z.Uniform n := by
  have hset := h.status Status.internalError
  simp only [afterHandler, ite_true, hstates, Bool.false_eq_true, ite_false]
  split
  · exact ⟨_, rfl, (hset.log (e := .cleanup) rfl).of_eq rfl rfl rfl⟩
  · exact ⟨_, rfl, hset⟩

theorem Entered.uniform_or_doubles (h : Entered app method path headers world x rh)
    (hby : ByType app rh resume) :
    (∃ y, Doubles app method path headers world resume y rh) ∨
      (app.serve method path headers world resume).exchange.Uniform 0 := by
  have huniform := uniform_callRequestHandler hby.handler (h.uniform hby)
  cases hcall : callRequestHandler rh x with
  | mk ret y =>
      rw [hcall] at huniform
      cases ret with
      | none =>
          have hhandle : app.handle method path headers world = .escaped y := by
            rw [h.handle_eq]
            simp only [runHandler, hcall]
          rw [serve_eq_handle (by simp [hhandle]), hhandle]
          exact Or.inr huniform
      | some status =>
          by_cases hasync : status = Ret.async
          · subst hasync
            cases hstates : y.req.asyncStates with
            | true => exact (Completes.resumed h hcall hstates).uniform_or_doubles hby
            | false =>
                obtain ⟨z, hz, hreleased⟩ := uniform_stranded app huniform hstates rh
                have hhandle : app.handle method path headers world = .released z := by
                  rw [h.handle_eq]
                  simp only [runHandler, hcall, hz]
                rw [serve_eq_handle (by simp [hhandle]), hhandle]
                exact Or.inr hreleased
          · exact (Completes.returned h hcall hasync).uniform_or_doubles hby

theorem Routed.uniform_or_doubles (h : Routed app method path headers world x rh)
    (hby : ByType app rh resume) :
    (∃ y, Doubles app method path headers world resume y rh) ∨
      (app.serve method path headers world resume).exchange.Uniform 0 := by
  have huniform : (callFidecs .before app.before_ rh.prefix_ x).2.Uniform 0 :=
    uniform_callFidecs hby.before h.uniform
  rcases handleRoute_cases app x rh with ⟨-, heq⟩ | ⟨-, heq⟩ | ⟨status, hstatus, hne, -⟩
  · have hhandle := h.handle_eq.trans heq
    rw [serve_eq_handle (by simp [hhandle]), hhandle]
    exact Or.inr huniform
  · have hhandle := h.handle_eq.trans heq
    rw [serve_eq_handle (by simp [hhandle]), hhandle]
    exact Or.inr huniform.flush
  · have hentered : Entered app method path headers world
        (callFidecs .before app.before_ rh.prefix_ x).2 rh :=
      ⟨x, status, h, by rw [← hstatus], hne⟩
    exact hentered.uniform_or_doubles hby

/-- Where the type of the route is appended, the responses have as many content types too much
as there were before. -/
theorem Doubles.uniform (h : Doubles app method path headers world resume y rh)
    (hby : ByType app rh resume) :
    (app.serve method path headers world resume).exchange.Uniform
      (contentTypes y.resp.respHeaders) := by
  obtain ⟨⟨status, hstamps⟩, hct, hopen⟩ := h
  rw [hstamps.serve_eq]
  exact uniform_closing hby.after (uniform_stamped hstamps.latched hct hopen status) rh

/-- A response of a route has one content type at most exactly if there was none when the type
of the route was appended. -/
theorem contentTypes_le_one_iff (h : Routed app method path headers world x rh)
    (hby : ByType app rh resume) {sent : Sent}
    (hsent : .response sent ∈ (app.serve method path headers world resume).exchange.trace) :
    contentTypes sent.headers ≤ 1 ↔
      ∀ y, Doubles app method path headers world resume y rh →
        contentTypes y.resp.respHeaders = 0 := by
  constructor
  · intro hle y hdoubles
    have hsurplus := (hdoubles.uniform hby).sent sent hsent
    omega
  · intro hnone
    rcases h.uniform_or_doubles hby with ⟨y, hdoubles⟩ | huniform
    · have hsurplus := (hdoubles.uniform hby).sent sent hsent
      rw [hnone y hdoubles] at hsurplus
      omega
    · have hsurplus := huniform.sent sent hsent
      omega

end Requests

/-- The calls of a handler that sets the type twice. -/
def setTwice : List Call := [.type "text/plain".toList, .type "text/html".toList]

/-- `GET /report`, with this handler. -/
def reportRoute (contentType : Option CString) : Registration (Target Unit) :=
  ⟨.GET, "/report".toList,
    ⟨some (fun _ _ world => (⟨setTwice, .ret Status.ok⟩, world)), none⟩, contentType⟩

def reportApp (contentType : Option CString) : App Unit := single (reportRoute contentType) []

/-- The handler that the router finds for `/report`. -/
def reportHandler (contentType : Option CString) : RouteHandler (Target Unit) :=
  ⟨"/report".toList, contentType, (reportRoute contentType).h, .GET, [], "/report".toList, 0⟩

/-- The exchange in which it is found. -/
def reportExchange (contentType : Option CString) : Exchange Unit :=
  { (reportApp contentType).start .GET "/report".toList [] () with
    req := (HttpRequest.new .GET "/report".toList []).resolveRoute (reportApp contentType).router_ }

/-- The request without asynchronous states. -/
def reportServed (contentType : Option CString) : Exchange Unit :=
  ((reportApp contentType).serve .GET "/report".toList [] ()
    (fun _ => ([], Status.ok, ()))).exchange

theorem report_byType (contentType : Option CString) :
    ByType (reportApp contentType) (reportHandler contentType)
      (fun _ => ([], Status.ok, ())) where
  before _ hfc := absurd hfc List.not_mem_nil
  handler hd hhd := by
    obtain rfl := Option.some.inj hhd
    intro req resp world c hc
    have hcalls : c = .type "text/plain".toList ∨ c = .type "text/html".toList :=
      List.mem_pair.1 hc
    rcases hcalls with rfl | rfl <;> trivial
  states _ _ hc := absurd hc List.not_mem_nil
  transformer _ hrt := by cases hrt
  after _ hfc := absurd hfc List.not_mem_nil

/-- A route without a type of its own. -/
theorem contentTypes_le_one_twice :
    contentTypes [("server".toList, []), ("Content-Type".toList, "text/html".toList)] ≤ 1 := by
  have hrouted : Routed (reportApp none) .GET "/report".toList [] () (reportExchange none)
      (reportHandler none) := ⟨by decide, rfl, rfl⟩
  have hsent : .response ⟨200, [], [("server".toList, []),
      ("Content-Type".toList, "text/html".toList)]⟩ ∈ (reportServed none).trace := by decide
  exact (contentTypes_le_one_iff hrouted (report_byType none) hsent).2
    (fun y hdoubles => absurd rfl hdoubles.2.1)

/-- The type of a route comes on top of the one its handler has set. -/
theorem contentTypes_registered :
    Routed (reportApp (some "application/json".toList)) .GET "/report".toList [] ()
      (reportExchange (some "application/json".toList))
      (reportHandler (some "application/json".toList)) ∧
    ByType (reportApp (some "application/json".toList))
      (reportHandler (some "application/json".toList)) (fun _ => ([], Status.ok, ())) ∧
    .response ⟨200, [], [("server".toList, []), ("Content-Type".toList, "text/html".toList),
      ("Content-Type".toList, "application/json".toList)]⟩ ∈
      (reportServed (some "application/json".toList)).trace ∧
    ¬ contentTypes [("server".toList, []), ("Content-Type".toList, "text/html".toList),
      ("Content-Type".toList, "application/json".toList)] ≤ 1 :=
  ⟨⟨by decide, rfl, rfl⟩, report_byType _, by decide, by decide⟩

end App

end Sparc
