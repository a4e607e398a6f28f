import Sparc.Model.Auth

/-! # A worker and the requests alive in it

A worker runs one handler at a time. A request lives from `App::handle` until its handler
is done with it, or, when the handler returns `$ASYNC`, until it is completed or its
client leaves; in between, its callbacks are resumed by `App::nextState`.
-/

namespace Sparc

variable {η : Type*}

/-- The session manager, the clock, the live requests and the one being handled. -/
structure Worker (η : Type*) where
  manager : HttpSessionManager
  now : ℕ
  requests : ℕ → Option (SessionRequest η)
  count : ℕ
  running : Option ℕ

/-- What can happen in a worker. The clock, the timeout, arrivals, resumptions and clients
that leave are up to others; the rest is done by the request being handled. -/
inductive WorkerEvent (η : Type*) where
  | tick (d : ℕ)
  | timeout (timeout : ℤ)
  | handle (req : HttpRequest η) (ip : CString)
  | resume (request : ℕ)
  | drop (request : ℕ)
  | session (create : Bool)
  | authorize (resp : HttpResponse) (realm : CString) (type : AuthType)
      (random : Option CString)
  | authenticate (behind : CString) (getInfo : Option AuthInfoCb) (type : AuthType)
  | suspend
  | finish

/-- What the request being handled gets back. -/
inductive WorkerAnswer where
  | none
  | session (found : Option ℕ)
  | authorized (resp : HttpResponse) (ok : Bool)
  | user (verdict : Verdict)
  deriving DecidableEq

namespace Worker

/-- A worker that has just started. -/
def new (key : CString) (timeout : ℤ) (now : ℕ) : Worker η :=
  ⟨.new key timeout, now, fun _ => none, 0, none⟩

/-- The request being handled. -/
def current (w : Worker η) : Option (ℕ × SessionRequest η) :=
  w.running.bind (fun r => (w.requests r).map (fun req => (r, req)))

/-- The worker after the request being handled has used its session. -/
def update (w : Worker η) (m : HttpSessionManager) (r : ℕ) (req : SessionRequest η) : Worker η :=
  { w with manager := m, requests := Function.update w.requests r (some req) }

/-- Destroy a request. -/
def release (w : Worker η) (r : ℕ) : Worker η :=
  { w with requests := Function.update w.requests r none }

/-- One event. It has no result where it cannot happen or is undefined. -/
def step (md5 : CString → Digest) (w : Worker η) :
    WorkerEvent η → Option (Worker η × WorkerAnswer)
  | .tick d => some ({ w with now := w.now + d }, .none)
  | .timeout timeout =>
      some ({ w with manager := { w.manager with timeout_ := timeout } }, .none)
  | .handle req ip =>
      if w.running = none then
        some ({ w with
          requests := Function.update w.requests w.count (some { req with ip, session_ := none })
          count := w.count + 1
          running := some w.count }, .none)
      else none
  | .resume r =>
      if w.running = none ∧ (w.requests r).isSome then
        some ({ w with running := some r }, .none)
      else none
  | .drop r => if w.running = none then some (w.release r, .none) else none
  | .session create =>
      w.current.map (fun c =>
        let q := c.2.session md5 w.manager w.now create
        (w.update q.1 c.1 q.2, .session q.2.session_))
  | .authorize resp realm type random =>
      w.current.bind (fun c =>
        (authorize md5 w.manager w.now c.2 resp realm type random).map (fun q =>
          (w.update q.1 c.1 q.2.1, .authorized q.2.2.1 q.2.2.2)))
  | .authenticate behind getInfo type =>
      w.current.bind (fun c =>
        (authenticate md5 behind w.manager w.now c.2 getInfo type).map (fun q =>
          (w.update q.1 c.1 q.2.1, .user q.2.2)))
  | .suspend => w.current.map (fun _ => ({ w with running := none }, .none))
  | .finish => w.current.map (fun c => ({ w.release c.1 with running := none }, .none))

end Worker

end Sparc
