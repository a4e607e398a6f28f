import Sparc.Library.Loop
import Sparc.Model.Request
import Sparc.Model.Response

/-! # The application: `sparc/detail/app.cpp`

Filters, route handlers and transformers are the application's own code. They reach the
framework through the calls of the public `Request` and `Response` interfaces and through
their outcome; everything else they read or change is the world `σ`. What the framework
does is recorded in the trace of an exchange.
-/

namespace Sparc

/-! ## Code of the application -/

/-- What a handler sees of the request. -/
structure Request where
  method : Method
  path : CString
  header : CString → Option CString
  param : CString → Option CString

/-- The calls by which a handler acts on the request and the response. `httpResponse` is
a direct call of kore, as `kore_websocket_handshake` makes it. -/
inductive Call where
  | body (str : CString)
  | append (str : CString)
  | header (name value : CString)
  | type (t : CString)
  | redirect (location : CString) (status : ℤ)
  | cookie (name value : CString) (path domain : Option CString) (expire : ℤ) (secure : Bool)
  | removeCookie (name : CString)
  | status (s : ℤ)
  | async (states cleanup : Bool)
  | hdlrExtra (present : Bool)
  | httpResponse (status : ℤ)
  deriving DecidableEq, Repr

/-- How a handler ends: with a return code, a `HaltException`, another `std::exception`,
or an exception of some other type. -/
inductive Outcome where
  | ret (status : ℤ)
  | halt (status : ℤ) (what : Option CString)
  | exception
  | foreign
  deriving DecidableEq, Repr

structure Reaction where
  calls : List Call
  outcome : Outcome

/-- `sparc::handler`. -/
abbrev Handler (σ : Type*) := Request → HttpResponse → σ → Reaction × σ

/-- The effect of `ResponseTransformer::transform`: calls on the response, the contents of
the buffer, and the return code, or none if it throws. -/
structure Transformed where
  calls : List Call
  buffer : CString
  status : Option ℤ

abbrev ResponseTransformer (σ : Type*) := HttpResponse → σ → Transformed × σ

/-- The members `h` and `transformer` of a `RouteHandler`. -/
structure Target (σ : Type*) where
  h : Option (Handler σ)
  transformer : Option (ResponseTransformer σ) := none

/-- `Fidec`. -/
structure Fidec (σ : Type*) where
  h : Handler σ
  match_ : Option CString

/-! ## Exchanges -/

inductive Stage where
  | before | after
  deriving DecidableEq, Repr

/-- What is recorded of the handling of a request. A route handler is named by the fields
that distinguish it in the router. -/
inductive Event where
  | fidec (stage : Stage) (index : ℕ) (outcome : Outcome)
  | fidecs (stage : Stage) (ret : ℤ)
  | handler (m : Method) (prefix_ : CString) (nparams : ℕ)
  | transform
  | response (sent : Sent)
  | httpResponse (status : ℤ)
  | cleanup
  deriving DecidableEq, Repr

/-- A request in progress. -/
structure Exchange (σ : Type*) where
  req : HttpRequest (Target σ)
  resp : HttpResponse
  hdlrExtra : Bool
  world : σ
  trace : List Event

namespace Exchange

variable {σ : Type*}

def view (x : Exchange σ) : Request where
  method := x.req.method
  path := x.req.path
  header := x.req.header
  param := x.req.param

def log (x : Exchange σ) (e : Event) : Exchange σ := { x with trace := x.trace ++ [e] }

def perform (x : Exchange σ) : Call → Exchange σ
  | .body str => { x with resp := x.resp.body str }
  | .append str => { x with resp := x.resp.append str }
  | .header name value => { x with resp := x.resp.header name value }
  | .type t => { x with resp := x.resp.type t }
  | .redirect location status => { x with resp := x.resp.redirect location status }
  | .cookie name value path domain expire secure =>
      { x with resp := x.resp.cookie name value path domain expire secure }
  | .removeCookie name => { x with resp := x.resp.removeCookie name }
  | .status s => { x with resp := x.resp.status s }
  | .async states cleanup => { x with req := x.req.async states cleanup }
  | .hdlrExtra present => { x with hdlrExtra := present }
  | .httpResponse status => x.log (.httpResponse status)

def performAll (x : Exchange σ) (calls : List Call) : Exchange σ := calls.foldl perform x

/-- A call of `HttpResponse::end`. -/
def end_ (x : Exchange σ) (status : ℤ) (data : Option CString) : Exchange σ :=
  match x.resp.end_ status data with
  | (resp, none) => { x with resp }
  | (resp, some sent) => ({ x with resp }).log (.response sent)

/-- A call of `HttpResponse::flush`. -/
def flush (x : Exchange σ) : Exchange σ := x.end_ x.resp.status_ none

/-- The reaction of a filter or a route handler at this point. -/
def reaction (x : Exchange σ) (h : Handler σ) : Reaction := (h x.view x.resp x.world).1

/-- Run a filter or a route handler and record its invocation. -/
def invoke (x : Exchange σ) (h : Handler σ) (e : Event) : Exchange σ :=
  (({ x with world := (h x.view x.resp x.world).2 }).log e).performAll (x.reaction h).calls

end Exchange

/-! ## Static files -/

/-- The members of `static_file` that `App::handle` uses. -/
structure StaticFile where
  path : CString
  contentType : CString
  ptr : Option CString
  lastMod : ℤ

/-- `StaticFilesRouter`. The lookup of a file reads the file system; it and kore's
conversions of dates are parameters here. -/
structure StaticFilesRouter (σ : Type*) where
  find : CString → σ → Option StaticFile × σ
  headers_ : List Header
  exipires_ : ℤ
  koreDateToTime : CString → ℤ
  koreTimeToDate : ℤ → CString

namespace StaticFilesRouter

variable {σ : Type*}

/-- `StaticFilesRouter::applyHeaders`. -/
def applyHeaders (sfRouter : StaticFilesRouter σ) (x : Exchange σ) (sf : StaticFile) :
    ℤ × Exchange σ :=
  let dot := sf.path.dropWhile (· ≠ '.')
  let cached := dot ≠ [] ∧ sameNoCase ".html".toList dot = false
  let fresh := (x.req.header "If-Modified-Since".toList).any
    (fun sh => decide (sf.lastMod ≤ sfRouter.koreDateToTime sh))
  if cached ∧ fresh then (Status.notModified, x)
  else
    let resp :=
      if cached then
        let resp := x.resp.header "Last-Modified".toList (sfRouter.koreTimeToDate sf.lastMod)
        if 0 < sfRouter.exipires_ then
          resp.header "Cache-Control".toList
            ("public, max-age=".toList ++ (toString sfRouter.exipires_).toList)
        else resp
      else x.resp
    (Status.ok, { x with resp := sfRouter.headers_.foldl (fun r hh => r.header hh.1 hh.2) resp })

end StaticFilesRouter

/-! ## Handling a request -/

/-- `App`, as far as requests are concerned. `serverVersion` is the generated constant
`SPARC_SERVER_VERSION`. -/
structure App (σ : Type*) where
  router_ : Router (Target σ)
  before_ : List (Fidec σ)
  after_ : List (Fidec σ)
  sfRouter_ : StaticFilesRouter σ
  serverVersion : CString

/-- What has become of a request: its objects are released, it is suspended until its
asynchronous states call `completeRequest`, or an exception has left the framework. -/
inductive Progress (σ : Type*) where
  | released (x : Exchange σ)
  | suspended (x : Exchange σ) (rh : RouteHandler (Target σ))
  | escaped (x : Exchange σ)

variable {σ : Type*}

def Progress.exchange : Progress σ → Exchange σ
  | .released x => x
  | .suspended x _ => x
  | .escaped x => x

/-- The test at the head of the loop of `App::callFidecs`. -/
def Fidec.covers (fc : Fidec σ) (pfx : CString) : Bool :=
  match fc.match_ with
  | none => true
  | some m => decide (m.length ≤ pfx.length) && equalsNoCase m pfx

/-- The status sent for a `HaltException`. -/
def haltStatus (status : ℤ) : ℤ := if status < Status.ok then Status.internalError else status

namespace App

/-- The variables of the loop of `App::callFidecs`, with the number of the filter. -/
structure FidecState (σ : Type*) where
  index : ℕ
  status : ℤ
  x : Exchange σ

/-- The body of the loop of `App::callFidecs`. There is no result when an exception
leaves it. A `HaltException` ends the response but not the loop. -/
def fidecStep (stage : Stage) (pfx : CString) (s : FidecState σ) (fc : Fidec σ) :
    Loop.Control (FidecState σ) (Option ℤ × Exchange σ) :=
  if fc.covers pfx = true then
    let outcome := (s.x.reaction fc.h).outcome
    let x := s.x.invoke fc.h (.fidec stage s.index outcome)
    match outcome with
    | .ret status =>
        if status = Ret.abort ∨ x.resp.ended_ = true then .stop (some status, x)
        else .next ⟨s.index + 1, status, x⟩
    | .halt status what => .next ⟨s.index + 1, Ret.abort, x.end_ (haltStatus status) what⟩
    | .exception => .stop (some Status.internalError, x)
    | .foreign => .stop (none, x)
  else .next { s with index := s.index + 1 }

/-- `App::callFidecs`. -/
def callFidecs (stage : Stage) (fidecs : List (Fidec σ)) (pfx : CString) (x : Exchange σ) :
    Option ℤ × Exchange σ :=
  let r := Loop.run (fidecStep stage pfx) (fun s => (some s.status, s.x))
    ⟨0, Ret.continue_, x⟩ fidecs
  (r.1, r.1.elim r.2 (fun ret => r.2.log (.fidecs stage ret)))

/-- `App::callRequestHandler`. -/
def callRequestHandler (hh : RouteHandler (Target σ)) (x : Exchange σ) :
    Option ℤ × Exchange σ :=
  match hh.h.h with
  | none => (some Status.ok, x)
  | some h =>
      let y := x.invoke h (.handler hh.m hh.prefix_ hh.nparams)
      match (x.reaction h).outcome with
      | .ret status => (some status, y)
      | .halt status what => (some Ret.abort, y.end_ (haltStatus status) what)
      | .exception => (some Ret.abort, y)
      | .foreign => (none, y)

/-- The status set from the result of the after filters in `App::completeRequest`. -/
def afterStatus (ret : ℤ) (resp : HttpResponse) : HttpResponse :=
  if Status.ok ≤ ret then resp.status ret
  else if ret = Ret.continue_ ∨ ret = Ret.skipFlush then resp
  else resp.status Status.internalError

/-- `App::completeRequest` behind the transformer. -/
def sendResponse (app : App σ) (x : Exchange σ) (rh : RouteHandler (Target σ)) (status : ℤ) :
    Progress σ :=
  let resp := match rh.contentType with
    | some contentType => x.resp.header "Content-Type".toList contentType
    | none => x.resp
  match callFidecs .after app.after_ rh.prefix_ { x with resp := resp.status status } with
  | (none, x) => .escaped x
  | (some ret, x) =>
      let x := { x with resp := afterStatus ret x.resp }
      .released (if ret ≠ Ret.skipFlush then x.flush else x)

/-- `App::completeRequest`. -/
def completeRequest (app : App σ) (x : Exchange σ) (rh : RouteHandler (Target σ))
    (status : ℤ) : Progress σ :=
  match rh.h.transformer with
  | none => app.sendResponse x rh status
  | some rt =>
      let t := (rt x.resp x.world).1
      let x := (({ x with world := (rt x.resp x.world).2 }).log .transform).performAll t.calls
      match t.status with
      | none => .escaped x
      | some status =>
          if status = Ret.abort then .released x.flush
          else app.sendResponse { x with resp := x.resp.swapBody t.buffer } rh status

/-- The test by which `App::handle` takes a path for a static file. -/
def assumesStatic (path : CString) : Prop :=
  path.dropWhile (· ≠ '.') ≠ [] ∧ '/' ∉ path.dropWhile (· ≠ '.')

instance (path : CString) : Decidable (assumesStatic path) :=
  inferInstanceAs (Decidable (_ ∧ _))

/-- The static branch of `App::handle`. -/
def handleStatic (app : App σ) (x : Exchange σ) : Progress σ :=
  let found := app.sfRouter_.find x.req.path x.world
  let x := { x with world := found.2 }
  match found.1 with
  | none => .released (x.end_ Status.notFound none).flush
  | some sf =>
      let x := { x with resp := x.resp.header "Content-Type".toList sf.contentType }
      let (status, x) := app.sfRouter_.applyHeaders x sf
      if status = Status.notModified then .released (x.end_ Status.notModified none).flush
      else .released (x.end_ Status.ok sf.ptr).flush

/-- The branch of `App::handle` on the status of the route handler. -/
def afterHandler (app : App σ) (x : Exchange σ) (rh : RouteHandler (Target σ)) (status : ℤ) :
    Progress σ :=
  if status = Ret.async then
    if x.req.asyncStates then .suspended x rh
    else
      let x := { x with resp := x.resp.status Status.internalError }
      if x.req.asyncCleanup_ ∧ x.hdlrExtra then
        .released { x.log .cleanup with hdlrExtra := false }
      else .released x
  else app.completeRequest x rh status

/-- `App::handle` behind the before filters. -/
def runHandler (app : App σ) (x : Exchange σ) (rh : RouteHandler (Target σ)) : Progress σ :=
  match callRequestHandler rh x with
  | (none, x) => .escaped x
  | (some status, x) => app.afterHandler x rh status

/-- `App::handle` for a request that has a route. -/
def handleRoute (app : App σ) (x : Exchange σ) (rh : RouteHandler (Target σ)) : Progress σ :=
  match callFidecs .before app.before_ rh.prefix_ x with
  | (none, x) => .escaped x
  | (some status, x) =>
      if status = Ret.abort then .released x.flush else app.runHandler x rh

/-- The objects `App::handle` creates for a request. -/
def start (app : App σ) (method : Method) (path : CString) (headers : List Header)
    (world : σ) : Exchange σ where
  req := .new method path headers
  resp := HttpResponse.new.header "server".toList app.serverVersion
  hdlrExtra := false
  world := world
  trace := []

/-- `App::handle`. -/
def handle (app : App σ) (method : Method) (path : CString) (headers : List Header)
    (world : σ) : Progress σ :=
  let x := app.start method path headers world
  if assumesStatic path then app.handleStatic x
  else
    let x := { x with req := x.req.resolveRoute app.router_ }
    match x.req.hanadler_ with
    | none => .released (x.end_ Status.notFound none)
    | some rh => app.handleRoute x rh

/-- What the asynchronous states of a suspended request have done when they call
`App::completeRequest`: calls on the response, and the final status. -/
abbrev Resumption (σ : Type*) := Exchange σ → List Call × ℤ × σ

/-- A request from `App::handle` to its release. -/
def serve (app : App σ) (method : Method) (path : CString) (headers : List Header)
    (world : σ) (resume : Resumption σ) : Progress σ :=
  match app.handle method path headers world with
  | .suspended x rh =>
      let (calls, status, world) := resume x
      app.completeRequest (({ x with world }).performAll calls) rh status
  | p => p

end App

end Sparc
