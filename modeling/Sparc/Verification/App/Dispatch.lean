import Sparc.Verification.App.Handling
import Sparc.Verification.Router.Refinement

/-! # From a request to its route handler

The router of an application that was set up through the registration functions represents
a table of handlers that are all present. A request is dispatched to the handler that its
path leads to, unless the path is taken for that of a static file.
-/

namespace Sparc

variable {σ : Type*}

theorem Registration.compile_h {η : Type*} {e : Registration η} {rh : RouteHandler η}
    (h : e.compile = some rh) : rh.h = e.h := by
  unfold compile at h
  split at h
  · cases h
  · split at h
    · obtain rfl := Option.some.inj h
      rfl
    · cases h

namespace App

/-! ## Configured applications -/

theorem addRoute_represents {app app' : App σ} {e : Registration (Target σ)} {ok : Bool}
    (hadd : app.addRoute e = some (app', ok)) (he : e.h.h.isSome = true)
    (h : ∃ table, Router.Represents app.router_ table ∧ ∀ rh ∈ table, rh.h.h.isSome = true) :
    ∃ table, Router.Represents app'.router_ table ∧ ∀ rh ∈ table, rh.h.h.isSome = true := by
  obtain ⟨table, hrep, hsome⟩ := h
  obtain ⟨⟨r, ok'⟩, hr, heq⟩ := Option.map_eq_some_iff.mp hadd
  simp only [Prod.mk.injEq] at heq
  obtain ⟨rfl, rfl⟩ := heq
  refine ⟨(tableAdd table e).1, (Router.add_refines hrep e hr).1, ?_⟩
  intro rh hrh
  rcases @mem_foldl_tableAdd _ table [e] rh hrh with hmem | ⟨e', he', hc⟩
  · exact hsome rh hmem
  · rw [Registration.compile_h hc, List.mem_singleton.mp he', he]

/-- Every route of a configured application has a handler. -/
theorem Configured.represents {app : App σ} (h : Configured app) :
    ∃ table, Router.Represents app.router_ table ∧ ∀ rh ∈ table, rh.h.h.isSome = true := by
  induction h with
  | new sfRouter_ serverVersion => exact ⟨[], Router.new_represents, by simp⟩
  | @route app app' m route type hh trans ok _ hroute ih =>
      cases route with
      | none =>
          simp only [App.route, Option.some.injEq, Prod.mk.injEq] at hroute
          obtain ⟨rfl, -⟩ := hroute
          exact ih
      | some route =>
          cases hh with
          | none =>
              simp only [App.route, Option.some.injEq, Prod.mk.injEq] at hroute
              obtain ⟨rfl, -⟩ := hroute
              exact ih
          | some hh => exact addRoute_represents hroute rfl ih
  | fidec _ b m hh ih =>
      cases hh with
      | none => exact ih
      | some hh => cases b <;> exact ih
  | @webSocket app app' accept route onMessage ok _ hroute ih =>
      cases route with
      | none =>
          simp only [App.webSocket, Option.some.injEq, Prod.mk.injEq] at hroute
          obtain ⟨rfl, -⟩ := hroute
          exact ih
      | some route =>
          cases onMessage with
          | false =>
              simp only [App.webSocket, Option.some.injEq, Prod.mk.injEq] at hroute
              obtain ⟨rfl, -⟩ := hroute
              exact ih
          | true => exact addRoute_represents hroute rfl ih

/-! ## Routed requests -/

section Routing

variable {app : App σ} {method : Method} {path : CString} {headers : List Header} {world : σ}
  {x : Exchange σ} {rh : RouteHandler (Target σ)}

theorem Routed.find (h : Routed app method path headers world x rh) :
    ∃ found, app.router_.find method path HttpRequest.resolveSlots = some found ∧
      found.handler = rh := by
  have hhandler := h.handler
  rw [h.exchange] at hhandler
  cases hfind : app.router_.find method path HttpRequest.resolveSlots with
  | none => simp [HttpRequest.resolveRoute, HttpRequest.new, hfind] at hhandler
  | some found =>
      refine ⟨found, rfl, ?_⟩
      simpa [HttpRequest.resolveRoute, HttpRequest.new, hfind] using hhandler

theorem routed_of_find (hdynamic : ¬ assumesStatic path) {found : Router.Found (Target σ)}
    (hfind : app.router_.find method path HttpRequest.resolveSlots = some found)
    (headers : List Header) (world : σ) :
    ∃ x, Routed app method path headers world x found.handler := by
  refine ⟨_, hdynamic, rfl, ?_⟩
  simp [HttpRequest.resolveRoute, HttpRequest.new, hfind]

/-- The literal prefix of the route is a prefix of the path. -/
theorem Routed.prefix_isPrefix (h : Routed app method path headers world x rh)
    {table : List (RouteHandler (Target σ))} (hrep : Router.Represents app.router_ table)
    (hslash : path.head? = some '/') : rh.prefix_ <+: path := by
  obtain ⟨found, hfind, rfl⟩ := h.find
  have hslots : 2 ≤ HttpRequest.resolveSlots := by decide
  obtain ⟨s, hs, -, hanswers, -⟩ := (hrep.find_eq_some_iff hslots method path found).mp hfind
  obtain ⟨rest, rfl⟩ := List.head?_eq_some_iff.mp hslash
  rw [hanswers.2.1]
  rcases Router.mem_stops hslots hs with ⟨hnil, -⟩ | ⟨-, hkey, -⟩
  · rw [hnil]
    exact ⟨rest, rfl⟩
  · obtain ⟨more, hmore⟩ := hkey
    exact ⟨more, by simpa using hmore⟩

theorem Routed.handler_isSome (h : Routed app method path headers world x rh)
    (hconf : Configured app) : ∃ hd, rh.h.h = some hd := by
  obtain ⟨table, hrep, hsome⟩ := hconf.represents
  obtain ⟨found, hfind, rfl⟩ := h.find
  obtain ⟨s, -, hmem, -⟩ := (hrep.find_eq_some_iff (by decide) method path found).mp hfind
  exact Option.isSome_iff_exists.mp (hsome _ hmem)

end Routing

/-! ## Instances of a registered pattern -/

/-- Behind before filters that do not abort, the route handler is invoked. -/
theorem Routed.mem_handler {app : App σ} {method : Method} {path : CString}
    {headers : List Header} {world : σ} {x : Exchange σ} {rh : RouteHandler (Target σ)}
    (h : Routed app method path headers world x rh) {hd : Handler σ} (hh : rh.h.h = some hd)
    {status : ℤ} (hpass : (callFidecs .before app.before_ rh.prefix_ x).1 = some status)
    (hne : status ≠ Ret.abort) :
    .handler rh.m rh.prefix_ rh.nparams ∈
      (app.handle method path headers world).exchange.trace := by
  rw [h.handle_eq]
  rcases handleRoute_cases app x rh with ⟨hnone, -⟩ | ⟨habort, -⟩ | ⟨_, -, -, heq⟩
  · rw [hpass] at hnone
    cases hnone
  · rw [hpass] at habort
    exact absurd (Option.some.inj habort) hne
  · rw [heq]
    exact mem_runHandler app hh _

/-- The path that instantiates a registered pattern finds its handler, if no other
registered pattern accepts it. -/
theorem find_instance {r : Router (Target σ)} {es : List (PatternRegistration (Target σ))}
    (hr : Router.new.addAll (es.map PatternRegistration.toRegistration) = some r)
    {e : PatternRegistration (Target σ)}
    (hreg : e.handler ∈ Router.registered (es.map PatternRegistration.toRegistration))
    (hslash : e.pattern.slash = false) {segments : List CString}
    (hproper : ∀ s ∈ segments, Fields.Proper '/' s)
    (hlen : segments.length < HttpRequest.resolveSlots) (haccepts : e.pattern.Accepts segments)
    (hother : ∀ e' ∈ es,
      e'.handler ∈ Router.registered (es.map PatternRegistration.toRegistration) →
      e'.m = e.m → e'.pattern.Accepts segments → e'.handler = e.handler) :
    ∃ found, r.find e.m (requestPath segments false) HttpRequest.resolveSlots = some found ∧
      found.handler = e.handler := by
  have hrep : Router.Represents r (Router.registered _) :=
    Router.addAll_refines Router.new_represents _ hr
  have hopen : ¬ e.pattern.Closed := by
    intro hclosed
    have := hslash.symm.trans hclosed.1
    cases this
  obtain ⟨s, hs, hanswers⟩ := Router.exists_answer e hproper hlen haccepts hopen
  rw [hslash] at hs hanswers
  cases hfind : r.find e.m (requestPath segments false) HttpRequest.resolveSlots with
  | none =>
      exact absurd hanswers ((hrep.find_eq_none_iff _ _ _).mp hfind s hs e.handler hreg)
  | some found =>
      refine ⟨found, rfl, ?_⟩
      obtain ⟨s', hs', hmem, hanswers', -⟩ :=
        (hrep.find_eq_some_iff (by decide) _ _ found).mp hfind
      obtain ⟨e', he', hhandler⟩ := Router.registered_patterns hr hmem
      rw [hhandler] at hanswers' hmem ⊢
      obtain ⟨hm, haccepts', -⟩ := Router.accepts_of_answers hproper hlen hs' hanswers'
      exact hother e' he' hmem hm haccepts'

/-- A path that instantiates a registered pattern, and that no other one accepts, is
dispatched to its handler unless it is taken for a static file. -/
theorem dispatches_instance {app : App σ} {es : List (PatternRegistration (Target σ))}
    (hr : Router.new.addAll (es.map PatternRegistration.toRegistration) = some app.router_)
    {e : PatternRegistration (Target σ)}
    (hreg : e.handler ∈ Router.registered (es.map PatternRegistration.toRegistration))
    (hlast : e.pattern.ParamsLast) (hslash : e.pattern.slash = false) {hd : Handler σ}
    (hh : e.h.h = some hd) {segments : List CString}
    (hmatch : List.Forall₂ Segment.Matches e.pattern.segs segments)
    (hfree : ∀ s ∈ segments, '/' ∉ s) (hlen : segments.length ≤ 15)
    (hother : ∀ e' ∈ es,
      e'.handler ∈ Router.registered (es.map PatternRegistration.toRegistration) →
      e'.m = e.m → e'.pattern.Accepts segments → e'.handler = e.handler)
    (hdynamic : ¬ assumesStatic (requestPath segments false)) (headers : List Header)
    (world : σ) :
    ∃ x, Routed app e.m (requestPath segments false) headers world x e.handler ∧
      ∀ status, (callFidecs .before app.before_ e.pattern.pfx x).1 = some status →
        status ≠ Ret.abort →
        .handler e.m e.pattern.pfx e.pattern.names.length ∈
          (app.handle e.m (requestPath segments false) headers world).exchange.trace := by
  have hproper : ∀ s ∈ segments, Fields.Proper '/' s :=
    fun s hs => ⟨Segment.ne_nil_of_forall₂ hmatch s hs, hfree s hs⟩
  obtain ⟨found, hfind, hhandler⟩ := find_instance hr hreg hslash hproper
    (Nat.lt_succ_of_le hlen) (e.pattern.accepts_of_forall₂ hlast hmatch) hother
  obtain ⟨x, hrouted⟩ := @routed_of_find σ app e.m _ hdynamic found hfind headers world
  rw [hhandler] at hrouted
  exact ⟨x, hrouted, fun status hpass hne => hrouted.mem_handler hh hpass hne⟩

/-- A handler without calls. -/
def always (o : Outcome) : Handler Unit := fun _ _ world => (⟨[], o⟩, world)

def noFiles : StaticFilesRouter Unit :=
  ⟨fun _ world => (none, world), [], 0, fun _ => 0, fun _ => []⟩

/-- An application with one route, behind before filters for every path that have the given
outcomes. -/
def single (e : Registration (Target Unit)) (filters : List Outcome) : App Unit where
  router_ := (Router.new.addAll [e]).getD Router.new
  before_ := filters.map (fun o => ⟨always o, none⟩)
  after_ := []
  sfRouter_ := noFiles
  serverVersion := []

theorem single_configured {e : Registration (Target Unit)} (h : Configured (single e []))
    (filters : List Outcome) : Configured (single e filters) := by
  induction filters using List.reverseRecOn with
  | nil => exact h
  | append_singleton filters o ih =>
      have hfidec := ih.fidec true none (some (always o))
      simpa [App.fidec, single] using hfidec

/-- A filter that halts, and one behind it that lets the request through. -/
def haltContinue : List Outcome := [.halt 401 (some "no".toList), .ret Ret.continue_]

/-- `GET /users/:name`, with a handler that returns `OK`. -/
def serveUser : PatternRegistration (Target Unit) :=
  ⟨.GET, Router.getUser.pattern, ⟨some (always (.ret Status.ok)), none⟩, none⟩

theorem dispatches_joe :
    ∃ app : App Unit, Router.new.addAll [serveUser.toRegistration] = some app.router_ ∧
      .handler .GET "/users/".toList 1 ∈
        (app.handle .GET "/users/joe".toList [] ()).exchange.trace := by
  obtain ⟨r, hr⟩ : ∃ r, Router.new.addAll
      ([serveUser].map PatternRegistration.toRegistration) = some r := ⟨_, rfl⟩
  have hregistered : Router.registered ([serveUser].map PatternRegistration.toRegistration) =
      [serveUser.handler] := rfl
  obtain ⟨x, -, hrun⟩ := @dispatches_instance Unit ⟨r, [], [], noFiles, []⟩ [serveUser] hr
    serveUser (hregistered ▸ List.mem_singleton_self _)
    (.cons (by simp [Segment.isParam]) (.cons (by simp) .nil)) rfl (always (.ret Status.ok)) rfl
    ["users".toList, "joe".toList]
    (.cons rfl (.cons (List.cons_ne_nil _ _) .nil)) (by decide) (by decide)
    (fun e' he' _ _ _ => by rw [List.mem_singleton.mp he']) (by decide) [] ()
  exact ⟨⟨r, [], [], noFiles, []⟩, hr, hrun Ret.continue_ rfl (by decide)⟩

/-- A parameter value with a dot makes the path a static one. -/
theorem static_path_not_dispatched :
    ∃ app : App Unit, Router.new.addAll [serveUser.toRegistration] = some app.router_ ∧
      app.before_ = [] ∧
      ∀ e ∈ (app.handle .GET "/users/john.doe".toList [] ()).exchange.trace,
        e.isHandler = false :=
  ⟨⟨_, [], [], noFiles, []⟩, rfl, rfl, by decide⟩

end App

end Sparc
