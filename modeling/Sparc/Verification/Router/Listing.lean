import Sparc.Model.Listing
import Sparc.Verification.Router.Registration
import Mathlib.Data.List.Forall2
import Mathlib.Algebra.BigOperators.Group.List.Basic

/-! # The listing and the handlers

The listing has one entry for each route. It describes the handlers one by one as long as
no two of them share a route.
-/

namespace Sparc

variable {η : Type*}

/-- The name of a method. -/
def Method.name : Method → CString
  | .GET => "GET".toList
  | .POST => "POST".toList
  | .PUT => "PUT".toList
  | .DELETE => "DELETE".toList
  | .HEAD => "HEAD".toList
  | .UPDATE => "UPDATE".toList

/-- The entry shows the method, the route and the parameters of the handler. -/
structure Json.Describes (entry : Json) (rh : RouteHandler η) : Prop where
  method : entry.findMember "method".toList = some (.string rh.m.name)
  route : entry.findMember "route".toList = some (.string rh.route)
  params : entry.findMember "params".toList = some (.array (rh.params.map .string))

/-- The array of routes has exactly one entry for each of the handlers. -/
def Json.Lists (listing : Json) (handlers : List (RouteHandler η)) : Prop :=
  ∃ entries order, listing.findMember "routes".toList = some (.array entries) ∧
    order.Perm handlers ∧ List.Forall₂ Json.Describes entries order

namespace Router

/-! ## The entries of the listing -/

theorem jsonAddRoute_eq (obj : List Json) (route : Option (Route η)) :
    jsonAddRoute obj route = obj ++ route.toList.map jsonEntry := by
  cases route with
  | none => exact (List.append_nil obj).symm
  | some route => rfl

theorem jsonAddChildren_eq (f : Forest Char (Route η)) (obj : List Json) :
    jsonAddChildren obj f = obj ++ f.values.map jsonEntry := by
  induction f generalizing obj with
  | nil => exact (List.append_nil obj).symm
  | cons tag route children siblings ihc ihs =>
      rw [jsonAddChildren, ihs, ihc, jsonAddRoute_eq, Forest.values, List.map_append,
        List.map_append, List.append_assoc, List.append_assoc, List.append_assoc]

theorem jsonAddNode_eq (obj : List Json) (node : Node η) :
    jsonAddNode obj node = obj ++ node.values.map jsonEntry := by
  rw [jsonAddNode, jsonAddChildren_eq, jsonAddRoute_eq, Trie.Node.values, List.map_append,
    List.append_assoc]

theorem findMember_createJson (r : Router η) :
    r.createJson.findMember "routes".toList = some (.array (r.root_.values.map jsonEntry)) := by
  rw [createJson, jsonAddNode_eq]
  rfl

/-- An entry shows the first handler of its route. -/
theorem jsonEntry_cons {route : Route η} {rh : RouteHandler η} {rest : List (RouteHandler η)}
    (h : route.handlers = rh :: rest) :
    (jsonEntry route).findMember "method".toList = some (.string (httpMethodText rh.m)) ∧
    (jsonEntry route).findMember "route".toList = some (.string rh.route) ∧
    (jsonEntry route).findMember "params".toList =
      some (.array ((rh.params.take rh.nparams).map .string)) := by
  have hentry : jsonEntry route = .object (jsonMembers rh ++ rest.flatMap jsonMembers) := by
    rw [jsonEntry, h, List.flatMap_cons]
  rw [hentry]
  exact ⟨rfl, rfl, rfl⟩

theorem httpMethodText_eq_name_iff (m m' : Method) :
    httpMethodText m = m'.name ↔ m = m' ∧ m ≠ .UPDATE := by
  cases m <;> cases m' <;> decide

/-! ## One handler for each route -/

theorem length_le_flatMap {α β : Type*} {f : α → List β} {l : List α}
    (hne : ∀ x ∈ l, f x ≠ []) : l.length ≤ (l.flatMap f).length := by
  induction l with
  | nil => exact Nat.le_refl 0
  | cons x l ih =>
      obtain ⟨hx, hl⟩ := List.forall_mem_cons.1 hne
      rw [List.flatMap_cons, List.length_append, List.length_cons, Nat.add_comm]
      exact Nat.add_le_add (List.length_pos_iff.2 hx) (ih hl)

/-- As many lists as there are elements in all of them. -/
theorem singletons_of_length {α β : Type*} {f : α → List β} {l : List α}
    (hne : ∀ x ∈ l, f x ≠ []) (hlen : (l.flatMap f).length ≤ l.length) :
    ∀ x ∈ l, ∃ y, f x = [y] := by
  induction l with
  | nil => exact fun x hx => absurd hx List.not_mem_nil
  | cons x l ih =>
      obtain ⟨hx, hl⟩ := List.forall_mem_cons.1 hne
      rw [List.flatMap_cons, List.length_append, List.length_cons] at hlen
      have hpos := List.length_pos_iff.2 hx
      have hmore := length_le_flatMap hl
      refine List.forall_mem_cons.2 ⟨List.length_eq_one_iff.1 (by omega), ih hl (by omega)⟩

theorem Listed.nodup_iff {routes : List (Route η)} {table : List (RouteHandler η)}
    (h : Listed routes table) :
    (table.map RouteHandler.prefix_).Nodup ↔ ∀ rt ∈ routes, ∃ rh, rt.handlers = [rh] := by
  rw [← (h.perm.map RouteHandler.prefix_).nodup_iff]
  constructor
  · intro hnodup rt hrt
    have hown : rt.handlers.map RouteHandler.prefix_ =
        List.replicate rt.handlers.length rt.prefix_ := by
      apply List.eq_replicate_iff.2
      refine ⟨List.length_map _, fun p hp => ?_⟩
      obtain ⟨rh, hrh, rfl⟩ := List.mem_map.1 hp
      exact h.own rt hrt rh hrh
    have hsub : (rt.handlers.map RouteHandler.prefix_).Nodup := by
      rw [List.map_flatMap] at hnodup
      exact (List.nodup_flatMap.1 hnodup).1 rt hrt
    rw [hown, List.nodup_replicate] at hsub
    have hpos := List.length_pos_iff.2 (h.filled rt hrt)
    exact List.length_eq_one_iff.1 (Nat.le_antisymm hsub hpos)
  · intro hone
    have hsame : (routes.flatMap Route.handlers).map RouteHandler.prefix_ =
        routes.map Route.prefix_ := by
      rw [List.map_flatMap, ← List.flatMap_singleton' (routes.map Route.prefix_), List.flatMap_map]
      apply List.flatMap_congr
      intro rt hrt
      obtain ⟨rh, hrh⟩ := hone rt hrt
      have hpfx := h.own rt hrt rh (hrh ▸ List.mem_cons_self)
      rw [hrh, List.map_singleton, hpfx]
    rw [hsame]
    exact h.nodup

theorem exists_of_forall₂ {α β : Type*} {R : α → β → Prop} {l : List α} {l' : List β}
    (h : List.Forall₂ R l l') {a : α} (ha : a ∈ l) : ∃ b, R a b := by
  induction h with
  | nil => exact absurd ha List.not_mem_nil
  | cons hab _ ih =>
      rcases List.mem_cons.1 ha with rfl | ha
      · exact ⟨_, hab⟩
      · exact ih ha

/-- Each entry describes the one handler of its route. -/
theorem forall₂_describes {routes : List (Route η)}
    (hone : ∀ rt ∈ routes, ∃ rh, rt.handlers = [rh])
    (hgood : ∀ rt ∈ routes, ∀ rh ∈ rt.handlers,
      rh.params.take rh.nparams = rh.params ∧ rh.m ≠ .UPDATE) :
    List.Forall₂ Json.Describes (routes.map jsonEntry) (routes.flatMap Route.handlers) := by
  induction routes with
  | nil => exact List.Forall₂.nil
  | cons rt routes ih =>
      obtain ⟨⟨rh, hrh⟩, hone⟩ := List.forall_mem_cons.1 hone
      obtain ⟨hrt, hgood⟩ := List.forall_mem_cons.1 hgood
      obtain ⟨hparams, hm⟩ := hrt rh (hrh ▸ List.mem_cons_self)
      obtain ⟨hmethod, hroute, hpar⟩ := jsonEntry_cons hrh
      rw [(httpMethodText_eq_name_iff rh.m rh.m).2 ⟨rfl, hm⟩] at hmethod
      rw [hparams] at hpar
      rw [List.map_cons, List.flatMap_cons, hrh]
      exact List.Forall₂.cons ⟨hmethod, hroute, hpar⟩ (ih hone hgood)

/-- The listing of a router is complete exactly when no two handlers share a prefix and none is
for the method that `http_method_text` has no name for. -/
theorem createJson_lists_iff {r : Router η} {es : List (Registration η)}
    (hr : new.addAll es = some r) :
    r.createJson.Lists (registered es) ↔
      ((registered es).map RouteHandler.prefix_).Nodup ∧
      ∀ rh ∈ registered es, rh.m ≠ .UPDATE := by
  have hlisted := listed_of_addAll hr
  rw [hlisted.nodup_iff]
  constructor
  · rintro ⟨entries, order, hentries, hperm, hdesc⟩
    rw [findMember_createJson, Option.some.injEq, Json.array.injEq] at hentries
    subst hentries
    have hone : ∀ rt ∈ r.root_.values, ∃ rh, rt.handlers = [rh] := by
      apply singletons_of_length hlisted.filled
      exact Nat.le_of_eq (by
        rw [hlisted.perm.length_eq, ← hperm.length_eq, ← hdesc.length_eq, List.length_map])
    refine ⟨hone, fun rh hrh hm => ?_⟩
    obtain ⟨rt, hrt, hin⟩ := (hlisted.mem_iff rh).1 hrh
    obtain ⟨rh', hrh'⟩ := hone rt hrt
    rw [hrh', List.mem_singleton] at hin
    obtain ⟨shown, hshown⟩ := exists_of_forall₂ hdesc (List.mem_map_of_mem hrt)
    have hmethod := hshown.method
    rw [(jsonEntry_cons hrh').1, Option.some.injEq, Json.string.injEq,
      httpMethodText_eq_name_iff] at hmethod
    exact hmethod.2 (hin ▸ hm)
  · rintro ⟨hone, hm⟩
    refine ⟨_, _, findMember_createJson r, hlisted.perm, forall₂_describes hone ?_⟩
    intro rt hrt rh hrh
    have hmem := (hlisted.mem_iff rh).2 ⟨rt, hrt, hrh⟩
    exact ⟨List.take_of_length_le (Nat.le_of_eq (length_params hmem)), hm rh hmem⟩

/-- What the first call of `toJson` returns. -/
theorem toJson_lists_iff {r : Router η} {es : List (Registration η)}
    (hr : new.addAll es = some r) :
    (CachingRouter.mk r none).toJson.2.Lists (registered es) ↔
      ((registered es).map RouteHandler.prefix_).Nodup ∧
      ∀ rh ∈ registered es, rh.m ≠ .UPDATE :=
  createJson_lists_iff hr

theorem toJson_lists_two : ∃ r : Router ℕ,
    new.addAll [⟨.GET, "/a".toList, 0, none⟩, ⟨.GET, "/b/:id".toList, 1, none⟩] = some r ∧
    (CachingRouter.mk r none).toJson.2.Lists
      (registered [⟨.GET, "/a".toList, 0, none⟩, ⟨.GET, "/b/:id".toList, 1, none⟩]) := by
  obtain ⟨r, hr⟩ := Option.isSome_iff_exists.1 (show (new.addAll
    [⟨.GET, "/a".toList, 0, none⟩, ⟨.GET, "/b/:id".toList, (1 : ℕ), none⟩]).isSome by decide)
  exact ⟨r, hr, (toJson_lists_iff hr).2 (by decide)⟩

/-- Two methods of one path. -/
theorem toJson_merges_methods : ∃ r : Router ℕ,
    new.addAll [⟨.GET, "/a".toList, 0, none⟩, ⟨.POST, "/a".toList, 1, none⟩] = some r ∧
    (registered [⟨.GET, "/a".toList, 0, none⟩, ⟨.POST, "/a".toList, (1 : ℕ), none⟩]).length = 2 ∧
    ¬ (CachingRouter.mk r none).toJson.2.Lists
      (registered [⟨.GET, "/a".toList, 0, none⟩, ⟨.POST, "/a".toList, 1, none⟩]) := by
  obtain ⟨r, hr⟩ := Option.isSome_iff_exists.1 (show (new.addAll
    [⟨.GET, "/a".toList, 0, none⟩, ⟨.POST, "/a".toList, (1 : ℕ), none⟩]).isSome by decide)
  refine ⟨r, hr, by decide, fun hlists => ?_⟩
  exact absurd ((createJson_lists_iff hr).1 hlists) (by decide)

end Router

end Sparc
