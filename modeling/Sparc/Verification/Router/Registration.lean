import Sparc.Verification.Router.Table
import Mathlib.Data.List.Nodup

/-! # What one registration does to the router

A rejected call of `Router::add` leaves the trie as it was: the node and the route of a
prefix that holds a handler exist already. An accepted call appends one handler to one route.
-/

namespace Sparc

variable {η : Type*}

/-- The route has no part, its first part does not start at the root, or there is a handler
for the same method, prefix and number of parameters. -/
def Registration.Rejected (handlers : List (RouteHandler η)) (e : Registration η) : Prop :=
  Fields.tokens ':' e.route = [] ∨
  (∃ pfx ∈ (Fields.tokens ':' e.route).head?, pfx.head? ≠ some '/') ∨
  ∃ old ∈ handlers, old.m = e.m ∧ (Fields.tokens ':' e.route).head? = some old.prefix_ ∧
    (Fields.tokens ':' e.route).length = old.nparams + 1

theorem Registration.rejected_iff_clash (handlers : List (RouteHandler η)) {e : Registration η}
    {key : CString} {toks : List CString}
    (h : Fields.tokens ':' e.route = ('/' :: key) :: toks) :
    e.Rejected handlers ↔ ∃ old ∈ handlers, Clash old (e.handler ('/' :: key) toks) := by
  unfold Rejected
  rw [h]
  constructor
  · rintro (hnil | ⟨pfx, hpfx, hhead⟩ | ⟨old, hold, hm, hp, hn⟩)
    · cases hnil
    · rw [List.head?_cons, Option.mem_some_iff] at hpfx
      rw [← hpfx] at hhead
      exact absurd rfl hhead
    · rw [List.head?_cons, Option.some.injEq] at hp
      rw [List.length_cons, Nat.add_right_cancel_iff] at hn
      exact ⟨old, hold, hm, hp.symm, hn.symm⟩
  · rintro ⟨old, hold, hm, hp, hn⟩
    refine Or.inr (Or.inr ⟨old, hold, hm, ?_, ?_⟩)
    · rw [List.head?_cons, hp]
      rfl
    · rw [List.length_cons, hn]
      rfl

theorem Registration.rejected_of_compile (handlers : List (RouteHandler η)) {e : Registration η}
    (hsplit : koreSplitString ':' Router.addSlots e.route = Fields.tokens ':' e.route)
    (h : e.compile = none) : e.Rejected handlers := by
  rw [compile, hsplit] at h
  cases htoks : Fields.tokens ':' e.route with
  | nil => exact Or.inl htoks
  | cons pfx toks =>
      refine Or.inr (Or.inl ⟨pfx, by rw [htoks]; rfl, ?_⟩)
      intro hhead
      simp [htoks, hhead] at h

theorem Registration.Rejected.congr {handlers handlers' : List (RouteHandler η)}
    (h : ∀ rh, rh ∈ handlers ↔ rh ∈ handlers') (e : Registration η) :
    e.Rejected handlers ↔ e.Rejected handlers' := by
  simp only [Rejected, h]

namespace Router

/-! ## The two outcomes of a call -/

theorem splitString_eq {e : Registration η} (h : (Fields.tokens ':' e.route).length < 32) :
    koreSplitString ':' addSlots e.route = Fields.tokens ':' e.route := by
  rw [koreSplitString_eq]
  exact List.take_of_length_le (Nat.le_of_lt (Nat.lt_trans h (by decide)))

/-- What `Router::add` can do. -/
theorem Represents.add_cases {r : Router η} {table : List (RouteHandler η)}
    (h : Represents r table) (e : Registration η)
    (hparts : (Fields.tokens ':' e.route).length < 32) :
    (e.Rejected table ∧ r.add e.m e.route e.h e.contentType = some (r, false)) ∨
    ∃ key toks r₁, ¬ e.Rejected table ∧
      Fields.tokens ':' e.route = ('/' :: key) :: toks ∧
      r.addNode ('/' :: key) = some r₁ ∧
      r.add e.m e.route e.h e.contentType =
        some (r₁.setRoute ('/' :: key)
          (((r.routeAt ('/' :: key)).getD (Route.new ('/' :: key))).add e.m
            (e.handler ('/' :: key) toks).params toks.length
            (e.handler ('/' :: key) toks).route e.contentType e.h), true) := by
  have hsplit := splitString_eq hparts
  rcases h.add_eq e (hsplit ▸ hparts) with ⟨hcompile, heq⟩ | ⟨key, toks, r₁, htoks, hnode, heq⟩
  · exact Or.inl ⟨Registration.rejected_of_compile table hsplit hcompile, heq⟩
  · rw [hsplit] at htoks
    by_cases hclash : ∃ old ∈ table, Clash old (e.handler ('/' :: key) toks)
    · refine Or.inl ⟨(e.rejected_iff_clash table htoks).2 hclash, ?_⟩
      rw [heq, if_pos hclash]
    · refine Or.inr ⟨key, toks, r₁, ?_, htoks, hnode, ?_⟩
      · rwa [e.rejected_iff_clash table htoks]
      · rw [heq, if_neg hclash]

/-! ## The routes of the trie -/

/-- The routes of the trie hold the handlers of the table, one route for each prefix. -/
structure Listed (routes : List (Route η)) (table : List (RouteHandler η)) : Prop where
  perm : (routes.flatMap Route.handlers).Perm table
  nodup : (routes.map Route.prefix_).Nodup
  filled : ∀ rt ∈ routes, rt.handlers ≠ []
  own : ∀ rt ∈ routes, ∀ rh ∈ rt.handlers, rh.prefix_ = rt.prefix_

theorem Listed.mem_iff {routes : List (Route η)} {table : List (RouteHandler η)}
    (h : Listed routes table) (rh : RouteHandler η) :
    rh ∈ table ↔ ∃ rt ∈ routes, rh ∈ rt.handlers := by
  rw [← h.perm.mem_iff, List.mem_flatMap]

/-- The prefix of a route is the prefix of one of the handlers. -/
theorem Listed.exists_handler {routes : List (Route η)} {table : List (RouteHandler η)}
    (h : Listed routes table) {rt : Route η} (hrt : rt ∈ routes) :
    ∃ rh ∈ table, rh.prefix_ = rt.prefix_ := by
  obtain ⟨rh, hrh⟩ := List.exists_mem_of_ne_nil _ (h.filled rt hrt)
  exact ⟨rh, (h.mem_iff rh).2 ⟨rt, hrt, hrh⟩, h.own rt hrt rh hrh⟩

/-- A route for a prefix that no handler has yet, and so no route. -/
theorem Listed.nodup_insert {l₁ l₂ : List (Route η)} {table : List (RouteHandler η)}
    (h : Listed (l₁ ++ l₂) table) {rt : Route η} (hnew : ∀ old ∈ table, old.prefix_ ≠ rt.prefix_) :
    ((l₁ ++ rt :: l₂).map Route.prefix_).Nodup := by
  have hfresh : rt.prefix_ ∉ (l₁ ++ l₂).map Route.prefix_ := by
    intro hin
    obtain ⟨x, hx, hxp⟩ := List.mem_map.1 hin
    obtain ⟨old, holdmem, holdp⟩ := h.exists_handler hx
    exact hnew old holdmem (holdp.trans hxp)
  have hcons : ((rt :: (l₁ ++ l₂)).map Route.prefix_).Nodup :=
    List.nodup_cons.2 ⟨hfresh, h.nodup⟩
  exact ((List.perm_middle.map Route.prefix_).nodup_iff).2 hcons

/-- A handler is appended to the route of its prefix. -/
theorem Listed.append {l₁ l₂ : List (Route η)} {o : Option (Route η)}
    {table : List (RouteHandler η)} (h : Listed (l₁ ++ o.toList ++ l₂) table) {pfx : CString}
    (hpfx : (o.getD (Route.new pfx)).prefix_ = pfx)
    (hnew : o = none → ∀ old ∈ table, old.prefix_ ≠ pfx) {rt : Route η} {rh : RouteHandler η}
    (hrt : rt.prefix_ = pfx) (hrh : rh.prefix_ = pfx)
    (hhandlers : rt.handlers = (o.getD (Route.new pfx)).handlers ++ [rh]) :
    Listed (l₁ ++ rt :: l₂) (table ++ [rh]) := by
  have hmem : ∀ {x}, x ∈ l₁ ++ rt :: l₂ → x = rt ∨ x ∈ l₁ ++ o.toList ++ l₂ := by
    intro x hx
    simp only [List.mem_append, List.mem_cons] at hx ⊢
    tauto
  have hold : o.toList.flatMap Route.handlers = (o.getD (Route.new pfx)).handlers := by
    cases o with
    | none => rfl
    | some old => exact List.append_nil old.handlers
  have hown : ∀ x ∈ (o.getD (Route.new pfx)).handlers, x.prefix_ = pfx := by
    cases o with
    | none => exact fun x hx => absurd hx List.not_mem_nil
    | some old =>
        intro x hx
        have hin : old ∈ l₁ ++ (some old).toList ++ l₂ := by simp
        exact (h.own old hin x hx).trans hpfx
  refine ⟨?_, ?_, ?_, ?_⟩
  · have hall : ((l₁ ++ rt :: l₂).flatMap Route.handlers).Perm
        ((l₁ ++ o.toList ++ l₂).flatMap Route.handlers ++ [rh]) := by
      simp only [List.flatMap_append, List.flatMap_cons, hhandlers, hold, List.append_assoc]
      exact (List.perm_append_comm.append_left _).append_left _
    exact hall.trans (h.perm.append_right [rh])
  · cases o with
    | none =>
        have hnone : Listed (l₁ ++ l₂) table := by simpa using h
        exact hnone.nodup_insert (hrt ▸ hnew rfl)
    | some old =>
        have hsame : (l₁ ++ rt :: l₂).map Route.prefix_ =
            (l₁ ++ (some old).toList ++ l₂).map Route.prefix_ := by
          have hold : old.prefix_ = pfx := hpfx
          simp [hrt, hold]
        rw [hsame]
        exact h.nodup
  · intro x hx
    rcases hmem hx with rfl | hx
    · rw [hhandlers]
      exact List.append_ne_nil_of_right_ne_nil _ (List.cons_ne_nil rh [])
    · exact h.filled x hx
  · intro x hx
    rcases hmem hx with rfl | hx
    · intro y hy
      rw [hhandlers] at hy
      rw [hrt]
      rcases List.mem_append.1 hy with hy | hy
      · exact hown y hy
      · rw [List.mem_singleton.1 hy, hrh]
    · exact h.own x hx

/-- Storing a route puts it in the place of the one that was there. -/
theorem values_setRoute {r r₁ : Router η} {pfx : CString} (h : r.addNode pfx = some r₁) :
    ∃ l₁ l₂, r.root_.values = l₁ ++ (r.routeAt pfx).toList ++ l₂ ∧
      ∀ rt, (r₁.setRoute pfx rt).root_.values = l₁ ++ rt :: l₂ := by
  obtain rfl := addNode_eq_some h
  obtain ⟨l₁, l₂, hvalues, hset⟩ := Trie.values_set (Trie.descend_grow pfx.tail r.root_)
  rw [Trie.values_grow, Trie.valueAt_grow] at hvalues
  refine ⟨l₁, l₂, hvalues, fun rt => ?_⟩
  rw [setRoute, hset, Option.toList_some, List.append_assoc, List.singleton_append]

/-- The handler an accepted call appends. -/
theorem Represents.add_handlers {r : Router η} {table : List (RouteHandler η)}
    (h : Represents r table) (e : Registration η) (key : CString) {toks : List CString}
    (htoks : toks.length < 256) :
    (((r.routeAt ('/' :: key)).getD (Route.new ('/' :: key))).add e.m
      (e.handler ('/' :: key) toks).params toks.length
      (e.handler ('/' :: key) toks).route e.contentType e.h).handlers =
    ((r.routeAt ('/' :: key)).getD (Route.new ('/' :: key))).handlers ++
      [e.handler ('/' :: key) toks] := by
  simp [Route.add, Registration.handler, (h.current key).1, Nat.mod_eq_of_lt htoks]

theorem tableAdd_of_accepted {table : List (RouteHandler η)} {e : Registration η}
    {key : CString} {toks : List CString} (hparts : (Fields.tokens ':' e.route).length < 32)
    (htoks : Fields.tokens ':' e.route = ('/' :: key) :: toks) (h : ¬ e.Rejected table) :
    tableAdd table e = (table ++ [e.handler ('/' :: key) toks], true) := by
  have hcompile : e.compile = some (e.handler ('/' :: key) toks) := by
    rw [Registration.compile, splitString_eq hparts, htoks]
    rfl
  rw [e.rejected_iff_clash table htoks] at h
  simp only [tableAdd, hcompile, if_neg h]

theorem tableAdd_of_false {table : List (RouteHandler η)} {e : Registration η}
    (h : (tableAdd table e).2 = false) : (tableAdd table e).1 = table := by
  unfold tableAdd at h ⊢
  split
  · rfl
  · rename_i rh hcompile
    simp only [hcompile] at h
    split
    · rfl
    · rename_i hfree
      simp only [if_neg hfree] at h
      cases h

theorem parts_bound {r : Router η} {e : Registration η} {res : Router η × Bool}
    (h : r.add e.m e.route e.h e.contentType = some res) :
    (Fields.tokens ':' e.route).length < 32 := by
  have hbound := add_bound h
  rw [koreSplitString_eq, List.length_take, addSlots] at hbound
  omega

/-- One registration keeps the routes and the table in step. -/
theorem Listed.add {r r' : Router η} {table : List (RouteHandler η)} (hrep : Represents r table)
    (h : Listed r.root_.values table) (e : Registration η) {ok : Bool}
    (hadd : r.add e.m e.route e.h e.contentType = some (r', ok)) :
    Listed r'.root_.values (tableAdd table e).1 := by
  have hparts := parts_bound hadd
  have hok := (add_refines hrep e hadd).2
  rcases hrep.add_cases e hparts with ⟨-, heq⟩ | ⟨key, toks, r₁, hacc, htoks, hnode, heq⟩
  · rw [heq, Option.some.injEq, Prod.mk.injEq] at hadd
    rw [← hadd.1, tableAdd_of_false (hok.symm.trans hadd.2.symm)]
    exact h
  · rw [heq, Option.some.injEq, Prod.mk.injEq] at hadd
    rw [← hadd.1, tableAdd_of_accepted hparts htoks hacc]
    have hsmall : toks.length < 256 := by
      rw [htoks, List.length_cons] at hparts
      omega
    obtain ⟨l₁, l₂, hvalues, hset⟩ := values_setRoute hnode
    rw [hset]
    rw [hvalues] at h
    refine h.append (hrep.current key).1 ?_ (hrep.current key).1 rfl
      (hrep.add_handlers e key hsmall)
    intro hnone old hold hpfx
    have hempty := hrep.handlers key
    rw [hnone, Option.elim_none] at hempty
    have hin : old ∈ table.filter (fun rh => decide (rh.prefix_ = '/' :: key)) :=
      List.mem_filter.2 ⟨hold, decide_eq_true hpfx⟩
    rw [← hempty] at hin
    exact absurd hin List.not_mem_nil

theorem addAll_listed {r r' : Router η} {table : List (RouteHandler η)}
    (hrep : Represents r table) (h : Listed r.root_.values table) (es : List (Registration η))
    (hr : r.addAll es = some r') :
    Listed r'.root_.values (es.foldl (fun t e => (tableAdd t e).1) table) := by
  induction es generalizing r table with
  | nil =>
      simp only [addAll, Option.some.injEq] at hr
      subst hr
      exact h
  | cons e es ih =>
      simp only [addAll, Option.bind_eq_some_iff] at hr
      obtain ⟨⟨r₁, ok⟩, hadd, hrest⟩ := hr
      exact ih (add_refines hrep e hadd).1 (h.add hrep e hadd) hrest

theorem listed_of_addAll {r : Router η} {es : List (Registration η)}
    (hr : new.addAll es = some r) : Listed r.root_.values (registered es) := by
  have hnew : Listed (new : Router η).root_.values [] :=
    ⟨List.Perm.nil, List.nodup_nil, fun _ h => absurd h List.not_mem_nil,
      fun _ h => absurd h List.not_mem_nil⟩
  exact addAll_listed new_represents hnew es hr

/-! ## All or nothing -/

/-- The handlers of all routes. -/
def handlers (r : Router η) : List (RouteHandler η) := r.root_.values.flatMap Route.handlers

/-- The list of the route behind a key. -/
def handlersAt (r : Router η) (key : CString) : List (RouteHandler η) :=
  (r.routeAt ('/' :: key)).elim [] Route.handlers

theorem elim_eq_getD_new (o : Option (Route η)) (pfx : CString) :
    o.elim [] Route.handlers = (o.getD (Route.new pfx)).handlers := by
  cases o <;> rfl

/-- A call of `Router::add` is rejected and leaves the router as it was, or it appends its
handler to the route of its prefix and touches no other route. -/
theorem add_all_or_nothing {r : Router η} {es : List (Registration η)}
    (hr : new.addAll es = some r) (e : Registration η)
    (hparts : (Fields.tokens ':' e.route).length < 32) :
    ∃ r' ok, r.add e.m e.route e.h e.contentType = some (r', ok) ∧
      (ok = false ↔ e.Rejected r.handlers) ∧
      (ok = false → r' = r) ∧
      (ok = true → ∃ key toks, Fields.tokens ':' e.route = ('/' :: key) :: toks ∧
        r'.handlersAt key = r.handlersAt key ++ [e.handler ('/' :: key) toks] ∧
        ∀ other, other ≠ key → r'.routeAt ('/' :: other) = r.routeAt ('/' :: other)) := by
  have hrep := addAll_refines new_represents es hr
  have hsame : e.Rejected r.handlers ↔ e.Rejected (registered es) :=
    Registration.Rejected.congr (fun _ => (listed_of_addAll hr).perm.mem_iff) e
  rw [hsame]
  rcases hrep.add_cases e hparts with ⟨hrej, heq⟩ | ⟨key, toks, r₁, hacc, htoks, hnode, heq⟩
  · exact ⟨r, false, heq, iff_of_true rfl hrej, fun _ => rfl, fun h => Bool.noConfusion h⟩
  · refine ⟨_, true, heq, iff_of_false (fun h => Bool.noConfusion h) hacc,
      fun h => Bool.noConfusion h, fun _ => ⟨key, toks, htoks, ?_, fun other hne => ?_⟩⟩
    · have hsmall : toks.length < 256 := by
        rw [htoks, List.length_cons] at hparts
        omega
      rw [handlersAt, routeAt_setRoute hnode, List.tail_cons, if_pos rfl, Option.elim_some,
        hrep.add_handlers e key hsmall, handlersAt, elim_eq_getD_new _ ('/' :: key)]
    · rw [routeAt_setRoute hnode, List.tail_cons, if_neg hne]

theorem add_nothing_of_duplicate : ∃ r : Router ℕ,
    new.addAll [⟨.GET, "/a/:id".toList, 0, none⟩] = some r ∧
    r.add .GET "/a/:name/b".toList 1 none = some (r, false) := by
  obtain ⟨r, hr⟩ : ∃ r : Router ℕ, new.addAll [⟨.GET, "/a/:id".toList, 0, none⟩] = some r :=
    Option.isSome_iff_exists.1 (by decide)
  obtain ⟨r', ok, hadd, -, hsame, -⟩ :=
    add_all_or_nothing hr ⟨.GET, "/a/:name/b".toList, 1, none⟩ (by decide)
  have hok : ((new.addAll [⟨.GET, "/a/:id".toList, 0, none⟩]).bind (fun r : Router ℕ =>
      r.add .GET "/a/:name/b".toList 1 none)).map Prod.snd = some false := by
    decide
  rw [hr, Option.bind_some, hadd, Option.map_some, Option.some.injEq] at hok
  refine ⟨r, hr, ?_⟩
  rw [hadd, hsame hok, show ok = false from hok]

end Router

end Sparc
