import Sparc.Model.Router

/-! # The request object: `sparc/detail/request.cpp`

Only what routing and asynchronous completion use of it.
-/

namespace Sparc

/-- `HttpRequest`. Of the tokenized copy of the path only its presence matters here; of
the asynchronous states and their cleanup, whether they were registered. -/
structure HttpRequest (η : Type*) where
  method : Method
  path : CString
  headers : List (CString × CString) := []
  tokenized_ : Bool := false
  hanadler_ : Option (RouteHandler η) := none
  params_ : List CString := []
  asyncStates : Bool := false
  asyncCleanup_ : Bool := false

namespace HttpRequest

variable {η : Type*}

/-- `HttpRequest::HttpRequest`. -/
def new (method : Method) (path : CString) (headers : List (CString × CString) := []) :
    HttpRequest η :=
  { method, path, headers }

/-- `HttpRequest::header`, by `http_request_header`. -/
def header (req : HttpRequest η) (name : CString) : Option CString :=
  (req.headers.find? (fun hdr => sameNoCase hdr.1 name)).map Prod.snd

/-- The number of elements of the token array in `HttpRequest::resolveRoute`. -/
def resolveSlots : ℕ := 16

/-- `HttpRequest::resolveRoute`. -/
def resolveRoute (req : HttpRequest η) (r : Router η) : HttpRequest η :=
  if req.hanadler_.isNone ∧ req.tokenized_ = false then
    match r.find req.method req.path resolveSlots with
    | none => req
    | some found =>
        { req with tokenized_ := true, hanadler_ := some found.handler, params_ := found.params }
  else req

/-- `HttpRequest::param`. Reading the parameter of a request without a handler has no
result. -/
def param (req : HttpRequest η) (name : CString) : Option CString :=
  req.hanadler_.bind (fun rh =>
    ((List.range rh.nparams).find? (fun i => rh.params[i]? == some name)).bind
      (fun i => req.params_[i]?))

/-- `HttpRequest::async`. The first registered states are kept, the last cleanup counts. -/
def async (req : HttpRequest η) (states cleanup : Bool) : HttpRequest η :=
  { req with
    asyncStates := req.asyncStates || states
    asyncCleanup_ := cleanup }

end HttpRequest

end Sparc
