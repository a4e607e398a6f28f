import Sparc.Verification.Router.Listing
import Mathlib.Algebra.GroupWithZero.Nat
import Mathlib.Data.List.Induction

/-! # The cache of the listing

`Router::toJson` keeps the listing it made at its first call, and `Router::add` does not
drop it. A listing is fresh as long as no handler has been registered since then.
-/

namespace Sparc

variable {η : Type*}

namespace RouterCall

/-- The registrations among the calls. -/
def registrations (calls : List (RouterCall η)) : List (Registration η) :=
  calls.filterMap (fun
    | .add e => some e
    | .toJson => none)

def isToJson : RouterCall η → Bool
  | .add _ => false
  | .toJson => true

/-- The calls in front of the first `toJson`. -/
def upToListing (calls : List (RouterCall η)) : List (RouterCall η) :=
  calls.takeWhile (fun c => !c.isToJson)

/-- Every `toJson` returns what a first one returns on a router with the same registrations. -/
def Fresh (calls : List (RouterCall η)) : Prop :=
  ∀ pre post, calls = pre ++ .toJson :: post →
    ∃ r r₀, CachingRouter.new.run pre = some r ∧
      Router.new.addAll (registrations pre) = some r₀ ∧
      r.toJson.2 = (CachingRouter.mk r₀ none).toJson.2

/-- At every `toJson` the handlers are those that were registered at the first one. -/
def Settled (calls : List (RouterCall η)) : Prop :=
  ∀ pre post, calls = pre ++ .toJson :: post →
    (∀ e ∈ registrations pre, (Fields.tokens ':' e.route).length < 32) ∧
    (pre.any isToJson = true →
      Router.registered (registrations (upToListing pre)) =
        Router.registered (registrations pre))

@[simp] theorem registrations_append (calls calls' : List (RouterCall η)) :
    registrations (calls ++ calls') = registrations calls ++ registrations calls' :=
  List.filterMap_append

theorem registrations_upToListing (calls : List (RouterCall η)) :
    ∃ rest, registrations calls = registrations (upToListing calls) ++ rest := by
  refine ⟨registrations (calls.dropWhile (fun c => !c.isToJson)), ?_⟩
  rw [← registrations_append, upToListing, List.takeWhile_append_dropWhile]

theorem upToListing_append_of_any {calls : List (RouterCall η)} (h : calls.any isToJson = true)
    (calls' : List (RouterCall η)) : upToListing (calls ++ calls') = upToListing calls := by
  induction calls with
  | nil => cases h
  | cons c calls ih =>
      cases c with
      | toJson => rfl
      | add e => exact congrArg (List.cons _) (ih h)

theorem upToListing_concat_toJson {calls : List (RouterCall η)} (h : calls.any isToJson = false) :
    upToListing (calls ++ [.toJson]) = calls := by
  induction calls with
  | nil => rfl
  | cons c calls ih =>
      cases c with
      | toJson => cases h
      | add e => exact congrArg (List.cons _) (ih h)

end RouterCall

open RouterCall

/-! ## Runs -/

namespace Router

theorem addAll_append (r : Router η) (es es' : List (Registration η)) :
    r.addAll (es ++ es') = (r.addAll es).bind (fun r => r.addAll es') := by
  induction es generalizing r with
  | nil => rfl
  | cons e es ih =>
      rw [List.cons_append, addAll, addAll, Option.bind_assoc]
      exact congrArg _ (funext (fun res => ih res.1))

theorem addAll_singleton (r : Router η) (e : Registration η) :
    r.addAll [e] = (r.add e.m e.route e.h e.contentType).map Prod.fst := by
  rw [addAll]
  cases r.add e.m e.route e.h e.contentType <;> rfl

theorem exists_addAll_iff (es : List (Registration η)) :
    (∃ r : Router η, new.addAll es = some r) ↔
      ∀ e ∈ es, (Fields.tokens ':' e.route).length < 32 := by
  have hparts : ∀ e : Registration η, (koreSplitString ':' addSlots e.route).length < 32 ↔
      (Fields.tokens ':' e.route).length < 32 := by
    intro e
    rw [koreSplitString_eq, List.length_take, addSlots]
    omega
  simp only [← hparts]
  constructor
  · rintro ⟨r, hr⟩
    exact addAll_bound hr
  · exact addAll_isSome new es

/-! ## When two listings agree -/

/-- The number of members of an object. -/
def entrySize : Json → ℕ
  | .object members => members.length
  | .array _ => 0
  | .string _ => 0

theorem entrySize_jsonEntry (route : Route η) :
    entrySize (jsonEntry route) = route.handlers.length * 5 := by
  rw [jsonEntry, entrySize]
  induction route.handlers with
  | nil => rfl
  | cons rh rest ih =>
      rw [List.flatMap_cons, List.length_append, ih, List.length_cons, Nat.add_mul, Nat.add_comm]
      rfl

theorem sum_entrySize (routes : List (Route η)) :
    ((routes.map jsonEntry).map entrySize).sum = (routes.flatMap Route.handlers).length * 5 := by
  induction routes with
  | nil => rfl
  | cons route routes ih =>
      rw [List.map_cons, List.map_cons, List.sum_cons, ih, entrySize_jsonEntry, List.flatMap_cons,
        List.length_append, Nat.add_mul]

/-- Routers with the same listing have equally many handlers. -/
theorem length_handlers_of_createJson {r r' : Router η} (h : r.createJson = r'.createJson) :
    r.handlers.length = r'.handlers.length := by
  have hroutes := congrArg (Json.findMember "routes".toList) h
  rw [findMember_createJson, findMember_createJson, Option.some.injEq, Json.array.injEq] at hroutes
  have hsizes := congrArg (fun entries => (entries.map entrySize).sum) hroutes
  simp only [sum_entrySize] at hsizes
  exact Nat.eq_of_mul_eq_mul_right (by decide) hsizes

/-- Registrations are only added. -/
theorem isPrefix_foldl_tableAdd (table : List (RouteHandler η)) (es : List (Registration η)) :
    table <+: es.foldl (fun t e => (tableAdd t e).1) table := by
  induction es generalizing table with
  | nil => exact List.prefix_rfl
  | cons e es ih =>
      have hstep : table <+: (tableAdd table e).1 := by
        unfold tableAdd
        split
        · exact List.prefix_rfl
        · split
          · exact List.prefix_rfl
          · exact List.prefix_append _ _
      exact hstep.trans (ih _)

/-- Calls that register nothing leave the router as it was. -/
theorem addAll_of_registered {r r' : Router η} {table : List (RouteHandler η)}
    (h : Represents r table) {es : List (Registration η)} (hr : r.addAll es = some r')
    (hsame : es.foldl (fun t e => (tableAdd t e).1) table = table) : r' = r := by
  induction es generalizing r with
  | nil =>
      simp only [addAll, Option.some.injEq] at hr
      exact hr.symm
  | cons e es ih =>
      simp only [addAll, Option.bind_eq_some_iff] at hr
      obtain ⟨⟨r₁, ok⟩, hadd, hrest⟩ := hr
      have hstep : (tableAdd table e).1 = table := by
        have hback := isPrefix_foldl_tableAdd (tableAdd table e).1 es
        rw [← List.foldl_cons (f := fun t e => (tableAdd t e).1), hsame] at hback
        exact hback.eq_of_length_le (isPrefix_foldl_tableAdd table [e]).length_le
      have hrep := (add_refines h e hadd).1
      rw [hstep] at hrep
      have hr₁ : r₁ = r := by
        have hparts := parts_bound hadd
        rcases h.add_cases e hparts with ⟨-, heq⟩ | ⟨key, toks, r₂, hacc, htoks, -, -⟩
        · rw [heq, Option.some.injEq, Prod.mk.injEq] at hadd
          exact hadd.1.symm
        · rw [tableAdd_of_accepted hparts htoks hacc] at hstep
          exact absurd hstep (by simp)
      subst hr₁
      rw [List.foldl_cons, hstep] at hsame
      exact ih hrep hrest hsame

/-- The listings agree exactly when nothing was registered in between. -/
theorem createJson_eq_iff {r r' : Router η} {es es' : List (Registration η)}
    (hr : new.addAll es = some r) (hr' : r.addAll es' = some r') :
    r.createJson = r'.createJson ↔ registered es = registered (es ++ es') := by
  have hrep := addAll_refines new_represents es hr
  have hfold : registered (es ++ es') =
      es'.foldl (fun t e => (tableAdd t e).1) (registered es) := List.foldl_append
  constructor
  · intro h
    have hall : new.addAll (es ++ es') = some r' := by
      rw [addAll_append, hr]
      exact hr'
    have hlength : (registered (es ++ es')).length = (registered es).length := by
      rw [← (listed_of_addAll hr).perm.length_eq, ← (listed_of_addAll hall).perm.length_eq]
      exact (length_handlers_of_createJson h).symm
    have hpre : registered es <+: registered (es ++ es') := by
      rw [hfold]
      exact isPrefix_foldl_tableAdd _ es'
    exact hpre.eq_of_length_le (Nat.le_of_eq hlength)
  · intro h
    rw [hfold] at h
    rw [addAll_of_registered hrep hr' h.symm]

end Router

/-! ## The state of the cache -/

namespace CachingRouter

theorem run_concat (r : CachingRouter η) (calls : List (RouterCall η)) (c : RouterCall η) :
    r.run (calls ++ [c]) = (r.run calls).bind (fun r => (r.step c).map Prod.fst) := by
  unfold run
  rw [List.foldlM_append]
  cases calls.foldlM (fun r c => (step r c).map Prod.fst) r <;> simp

theorem step_keeps {r r' : CachingRouter η} {json : Json} (h : r.jsonCache_ = some json)
    {c : RouterCall η} (hstep : (r.step c).map Prod.fst = some r') :
    r'.jsonCache_ = r.jsonCache_ := by
  cases c with
  | add e =>
      simp only [step, add, Option.map_map, Option.map_eq_some_iff] at hstep
      obtain ⟨res, -, rfl⟩ := hstep
      rfl
  | toJson =>
      simp only [step, toJson, h, Option.map_some, Option.some.injEq] at hstep
      rw [← hstep]

/-- The cache does not change what the registrations do. -/
theorem run_router (r : CachingRouter η) (calls : List (RouterCall η)) :
    (r.run calls).map router = r.router.addAll (registrations calls) := by
  induction calls using List.reverseRecOn with
  | nil => rfl
  | append_singleton calls c ih =>
      rw [run_concat, registrations_append, Router.addAll_append, ← ih]
      cases r.run calls with
      | none => rfl
      | some r₁ =>
          cases c with
          | toJson =>
              simp only [step, toJson, Option.bind_some, Option.map_some]
              cases r₁.jsonCache_ <;> rfl
          | add e =>
              have hone : registrations [RouterCall.add e] = [e] := rfl
              rw [hone, Option.map_some, Option.bind_some, Option.bind_some,
                Router.addAll_singleton, step, add]
              cases r₁.router.add e.m e.route e.h e.contentType <;> rfl

theorem addAll_of_run {r : CachingRouter η} {calls : List (RouterCall η)}
    (h : new.run calls = some r) : Router.new.addAll (registrations calls) = some r.router := by
  have hrouter := run_router new calls
  rw [h] at hrouter
  exact hrouter.symm

/-- The cache is empty, or it is the listing made at the first `toJson`. -/
theorem run_cache {r : CachingRouter η} {calls : List (RouterCall η)}
    (h : new.run calls = some r) :
    (calls.any isToJson = false → r.jsonCache_ = none) ∧
    (calls.any isToJson = true → ∃ r₀ : Router η,
      Router.new.addAll (registrations (upToListing calls)) = some r₀ ∧
      r.jsonCache_ = some r₀.createJson) := by
  induction calls using List.reverseRecOn generalizing r with
  | nil =>
      have hr : r = new := (Option.some.inj h).symm
      exact ⟨fun _ => by rw [hr]; rfl, fun hany => Bool.noConfusion hany⟩
  | append_singleton calls c ih =>
      rw [run_concat] at h
      obtain ⟨r₁, hrun, hstep⟩ := Option.bind_eq_some_iff.1 h
      obtain ⟨hempty, hcached⟩ := ih hrun
      rw [List.any_append]
      cases hany : calls.any isToJson with
      | true =>
          -- The listing has been made: neither kind of call replaces it.
          obtain ⟨r₀, hr₀, hcache⟩ := hcached hany
          have hkeep : r.jsonCache_ = r₁.jsonCache_ := step_keeps hcache hstep
          refine ⟨fun hno => Bool.noConfusion hno, fun _ => ⟨r₀, ?_, hkeep.trans hcache⟩⟩
          rwa [upToListing_append_of_any hany]
      | false =>
          have hnone := hempty hany
          cases c with
          | add e =>
              refine ⟨fun _ => ?_, fun hyes => Bool.noConfusion hyes⟩
              simp only [step, add, Option.map_map, Option.map_eq_some_iff] at hstep
              obtain ⟨res, -, rfl⟩ := hstep
              exact hnone
          | toJson =>
              refine ⟨fun hno => Bool.noConfusion hno,
                fun _ => ⟨r₁.router, ?_, ?_⟩⟩
              · rw [upToListing_concat_toJson hany]
                exact addAll_of_run hrun
              · simp only [step, toJson, hnone, Option.map_some, Option.some.injEq] at hstep
                rw [← hstep]

/-- What one `toJson` returns. -/
theorem toJson_fresh_iff (calls : List (RouterCall η)) :
    (∃ r r₀, new.run calls = some r ∧ Router.new.addAll (registrations calls) = some r₀ ∧
      r.toJson.2 = (CachingRouter.mk r₀ none).toJson.2) ↔
    (∀ e ∈ registrations calls, (Fields.tokens ':' e.route).length < 32) ∧
    (calls.any isToJson = true →
      Router.registered (registrations (upToListing calls)) =
        Router.registered (registrations calls)) := by
  rw [← Router.exists_addAll_iff]
  have hlisting : ∀ {r : CachingRouter η} {r₀ : Router η}, new.run calls = some r →
      r.jsonCache_ = some r₀.createJson →
      Router.new.addAll (registrations (upToListing calls)) = some r₀ →
      (r₀.createJson = r.router.createJson ↔
        Router.registered (registrations (upToListing calls)) =
          Router.registered (registrations calls)) := by
    intro r r₀ hrun hcache hr₀
    obtain ⟨rest, hrest⟩ := registrations_upToListing calls
    have hall := addAll_of_run hrun
    rw [hrest, Router.addAll_append, hr₀, Option.bind_some] at hall
    rw [hrest]
    exact Router.createJson_eq_iff hr₀ hall
  constructor
  · rintro ⟨r, r₀, hrun, hr₀, hfresh⟩
    refine ⟨⟨r₀, hr₀⟩, fun hany => ?_⟩
    have hrouter : r.router = r₀ := Option.some.inj ((addAll_of_run hrun).symm.trans hr₀)
    obtain ⟨r₁, hr₁, hcache⟩ := (run_cache hrun).2 hany
    apply (hlisting hrun hcache hr₁).1
    rw [hrouter]
    simpa only [toJson, hcache] using hfresh
  · rintro ⟨⟨r₀, hr₀⟩, hsettled⟩
    have hmap := run_router new calls
    rw [show (new : CachingRouter η).router = Router.new from rfl, hr₀] at hmap
    obtain ⟨r, hrun, rfl⟩ := Option.map_eq_some_iff.1 hmap
    refine ⟨r, r.router, hrun, hr₀, ?_⟩
    cases hany : calls.any isToJson with
    | false => simp only [toJson, (run_cache hrun).1 hany]
    | true =>
        obtain ⟨r₁, hr₁, hcache⟩ := (run_cache hrun).2 hany
        simpa only [toJson, hcache] using (hlisting hrun hcache hr₁).2 (hsettled hany)

/-- The listings are never stale exactly when nothing is registered behind the first one. -/
theorem listings_fresh_iff (calls : List (RouterCall η)) : Fresh calls ↔ Settled calls :=
  forall₃_congr (fun pre _ _ => toJson_fresh_iff pre)

/-- A route that is registered between two listings. -/
theorem listing_stale : ¬ Fresh
    [.add ⟨.GET, "/a".toList, (0 : ℕ), none⟩, .toJson,
      .add ⟨.GET, "/b".toList, 1, none⟩, .toJson] := by
  intro hfresh
  have hsame := ((toJson_fresh_iff _).1 (hfresh
    [.add ⟨.GET, "/a".toList, 0, none⟩, .toJson, .add ⟨.GET, "/b".toList, 1, none⟩] [] rfl)).2 rfl
  exact absurd (congrArg List.length hsame) (by decide)

end CachingRouter

end Sparc
