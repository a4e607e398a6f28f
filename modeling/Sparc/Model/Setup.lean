import Sparc.Model.App

/-! # Setting up an application

The registration functions of `sparc/detail/app.cpp`. Each returns the changed application
and whether it went through; otherwise it has thrown an `InitializetionException`.
-/

namespace Sparc

variable {σ : Type*}

/-- The answer of `kore_websocket_handshake`. The accept key is computed from the key of
the request; it is missing when its encoding fails. -/
def koreWebsocketHandshake (accept : CString → Option CString) (req : Request) : List Call :=
  match req.header "sec-websocket-key".toList with
  | none => [.httpResponse 400]
  | some key =>
      match req.header "sec-websocket-version".toList with
      | none => [.header "sec-websocket-version".toList "13".toList, .httpResponse 400]
      | some version =>
          if version ≠ "13".toList then
            [.header "sec-websocket-version".toList "13".toList, .httpResponse 400]
          else
            match accept key with
            | none => [.httpResponse 500]
            | some base64 =>
                [.header "upgrade".toList "websocket".toList,
                  .header "connection".toList "upgrade".toList,
                  .header "sec-websocket-accept".toList base64,
                  .httpResponse 101]

/-- The handler installed by `webSocket`. -/
def webSocketHandler (accept : CString → Option CString) : Handler σ :=
  fun req _ world => (⟨koreWebsocketHandshake accept req, .ret Ret.skipFlush⟩, world)

namespace App

/-- `App::App`. -/
def new (sfRouter_ : StaticFilesRouter σ) (serverVersion : CString) : App σ :=
  ⟨Router.new, [], [], sfRouter_, serverVersion⟩

def addRoute (app : App σ) (e : Registration (Target σ)) : Option (App σ × Bool) :=
  (app.router_.add e.m e.route e.h e.contentType).map
    (fun res => ({ app with router_ := res.1 }, res.2))

/-- `__route`. -/
def route (app : App σ) (m : Method) (route : Option CString) (type : Option CString)
    (hh : Option (Handler σ)) (trans : Option (ResponseTransformer σ)) :
    Option (App σ × Bool) :=
  match route, hh with
  | some route, some hh => app.addRoute ⟨m, route, ⟨some hh, trans⟩, type⟩
  | _, _ => some (app, false)

/-- `__fidec`. -/
def fidec (app : App σ) (b : Bool) (m : Option CString) (hh : Option (Handler σ)) :
    App σ × Bool :=
  match hh with
  | none => (app, false)
  | some h =>
      if b then ({ app with before_ := app.before_ ++ [⟨h, m⟩] }, true)
      else ({ app with after_ := app.after_ ++ [⟨h, m⟩] }, true)

/-- `webSocket`; only the presence of the message callback is looked at. -/
def webSocket (app : App σ) (accept : CString → Option CString) (route : Option CString)
    (onMessage : Bool) : Option (App σ × Bool) :=
  match route, onMessage with
  | some route, true => app.addRoute ⟨.GET, route, ⟨some (webSocketHandler accept), none⟩, none⟩
  | _, _ => some (app, false)

/-- The applications that the registration functions can build. -/
inductive Configured : App σ → Prop where
  | new (sfRouter_ : StaticFilesRouter σ) (serverVersion : CString) :
      Configured (App.new sfRouter_ serverVersion)
  | route {app app' : App σ} {m : Method} {route type : Option CString}
      {hh : Option (Handler σ)} {trans : Option (ResponseTransformer σ)} {ok : Bool}
      (h : Configured app) (hroute : app.route m route type hh trans = some (app', ok)) :
      Configured app'
  | fidec {app : App σ} (h : Configured app) (b : Bool) (m : Option CString)
      (hh : Option (Handler σ)) : Configured (app.fidec b m hh).1
  | webSocket {app app' : App σ} {accept : CString → Option CString} {route : Option CString}
      {onMessage ok : Bool} (h : Configured app)
      (hroute : app.webSocket accept route onMessage = some (app', ok)) : Configured app'

end App

end Sparc
