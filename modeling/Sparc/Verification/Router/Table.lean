import Sparc.Model.Router
import Mathlib.Data.List.Basic
import Mathlib.Tactic.Cases

/-! # The router trie as a table of handlers

The trie, the routes and the method masks together hold a list of handlers in which no
two agree in method, prefix and number of parameters. `Represents` is that reading;
`add_refines` shows that `Router::add` appends to the list or leaves it alone.
-/

namespace Sparc

variable {η : Type*}

/-- Two handlers between which a lookup could not choose. -/
def Clash (a b : RouteHandler η) : Prop :=
  a.m = b.m ∧ a.prefix_ = b.prefix_ ∧ a.nparams = b.nparams

instance (a b : RouteHandler η) : Decidable (Clash a b) := inferInstanceAs (Decidable (_ ∧ _))

/-- The handler built from the literal prefix and the parameter tokens of a route. -/
def Registration.handler (e : Registration η) (pfx : CString) (toks : List CString) :
    RouteHandler η where
  route := e.route.takeWhile (· ≠ ':')
  contentType := e.contentType
  h := e.h
  m := e.m
  params := toks.map (fun tok => tok.takeWhile (· ≠ '/'))
  prefix_ := pfx
  nparams := toks.length

/-- The handler a registration compiles to, if its literal prefix starts at the root. -/
def Registration.compile (e : Registration η) : Option (RouteHandler η) :=
  match koreSplitString ':' Router.addSlots e.route with
  | [] => none
  | pfx :: toks => if pfx.head? = some '/' then some (e.handler pfx toks) else none

/-- Registration on the level of the table. -/
def tableAdd (table : List (RouteHandler η)) (e : Registration η) :
    List (RouteHandler η) × Bool :=
  match e.compile with
  | none => (table, false)
  | some rh => if ∃ old ∈ table, Clash old rh then (table, false) else (table ++ [rh], true)

/-- The table entry for a prefix, a method and a number of parameters. -/
def tableLookup (table : List (RouteHandler η)) (pfx : CString) (m : Method) (n : ℤ) :
    Option (RouteHandler η) :=
  table.find? (fun rh => decide (rh.prefix_ = pfx ∧ rh.m = m ∧ n = rh.nparams))

namespace Router

structure Represents (r : Router η) (table : List (RouteHandler η)) : Prop where
  tag : r.root_.tag = '/'
  proper : ∀ rh ∈ table, ∃ key, rh.prefix_ = '/' :: key
  distinct : table.Pairwise (fun a b => ¬ Clash a b)
  handlers : ∀ key, (r.routeAt ('/' :: key)).elim [] Route.handlers =
    table.filter (fun rh => decide (rh.prefix_ = '/' :: key))
  routes : ∀ key rt, r.routeAt ('/' :: key) = some rt → rt.prefix_ = '/' :: key ∧
    ∀ m : Method, rt.methods &&& (1#32 <<< m.val) ≠ 0#32 ↔ ∃ rh ∈ rt.handlers, rh.m = m

/-! ## Method masks -/

theorem mask_or (x : BitVec 32) (m m' : Method) :
    (x ||| (1#32 <<< m.val)) &&& (1#32 <<< m'.val) ≠ 0#32 ↔
      x &&& (1#32 <<< m'.val) ≠ 0#32 ∨ m = m' := by
  rw [BitVec.and_or_distrib_right]
  by_cases hm : m = m'
  · subst hm
    have hself : (1#32 <<< m.val) &&& (1#32 <<< m.val) ≠ 0#32 := by cases m <;> decide
    simp only [or_true, iff_true, ne_eq, BitVec.or_eq_zero_iff, not_and]
    exact fun _ => hself
  · have hother : (1#32 <<< m.val) &&& (1#32 <<< m'.val) = 0#32 := by
      revert hm
      cases m <;> cases m' <;> decide
    simp [hother, hm]

/-! ## Lookup in one route -/

theorem Represents.find_eq {r : Router η} {table : List (RouteHandler η)}
    (h : Represents r table) (key : CString) (m : Method) (n : ℤ) :
    (r.routeAt ('/' :: key)).bind (fun rt => rt.find m n) =
      tableLookup table ('/' :: key) m n := by
  have hsplit : tableLookup table ('/' :: key) m n =
      (table.filter (fun rh => decide (rh.prefix_ = '/' :: key))).find?
        (fun rh => decide (rh.m = m ∧ n = rh.nparams)) := by
    rw [List.find?_filter]
    simp only [tableLookup, Bool.decide_and, Bool.decide_eq_true]
  rw [hsplit, ← h.handlers key]
  cases hr : r.routeAt ('/' :: key) with
  | none => rfl
  | some rt =>
      obtain ⟨-, hmask⟩ := h.routes key rt hr
      simp only [Option.bind_some, Option.elim_some, Route.find]
      by_cases hm : rt.methods &&& (1#32 <<< m.val) ≠ 0#32
      · rw [if_pos hm]
      · rw [if_neg hm]
        symm
        apply List.find?_eq_none.mpr
        intro rh hrh hmatch
        simp only [decide_eq_true_eq] at hmatch
        exact hm ((hmask m).mpr ⟨rh, hrh, hmatch.1⟩)

theorem tableLookup_eq_some {table : List (RouteHandler η)} {pfx : CString} {m : Method}
    {n : ℤ} {rh : RouteHandler η} (h : tableLookup table pfx m n = some rh) :
    rh ∈ table ∧ rh.prefix_ = pfx ∧ rh.m = m ∧ n = rh.nparams := by
  have hmem := List.mem_of_find?_eq_some h
  have hp := List.find?_some h
  simp only [decide_eq_true_eq] at hp
  exact ⟨hmem, hp⟩

/-- Without clashes the table entry is determined by prefix, method and arity. -/
theorem tableLookup_iff {table : List (RouteHandler η)} {pfx : CString} {m : Method}
    {n : ℤ} {rh : RouteHandler η} (hd : table.Pairwise (fun a b => ¬ Clash a b)) :
    tableLookup table pfx m n = some rh ↔
      rh ∈ table ∧ rh.prefix_ = pfx ∧ rh.m = m ∧ n = rh.nparams := by
  refine ⟨tableLookup_eq_some, ?_⟩
  rintro ⟨hmem, hpfx, hm, hn⟩
  induction table with
  | nil => simp at hmem
  | cons a table ih =>
      obtain ⟨hhead, htail⟩ := List.pairwise_cons.mp hd
      rcases List.mem_cons.mp hmem with rfl | hmem
      · simp [tableLookup, hpfx, hm, hn]
      · have hclash := hhead rh hmem
        have ha : ¬ (a.prefix_ = pfx ∧ a.m = m ∧ n = a.nparams) := by
          rintro ⟨h1, h2, h3⟩
          exact hclash ⟨h2.trans hm.symm, h1.trans hpfx.symm, by omega⟩
        simpa [tableLookup, ha] using ih htail hmem

/-! ## Registration -/

/-- Where a node is returned, the nodes of the prefix are there. -/
theorem addNode_eq_some {r r₁ : Router η} {pfx : CString} (h : r.addNode pfx = some r₁) :
    r₁ = ⟨Trie.grow pfx.tail r.root_, r.depth + Trie.missing pfx.tail r.root_⟩ := by
  unfold addNode at h
  split at h
  · exact (Option.some.inj h).symm
  · cases h

/-- Storing a route at the node of a prefix replaces that route and no other. -/
theorem routeAt_setRoute {r r₁ : Router η} {pfx : CString} (h : r.addNode pfx = some r₁)
    (rt : Route η) (key : CString) :
    (r₁.setRoute pfx rt).routeAt ('/' :: key) =
      if key = pfx.tail then some rt else r.routeAt ('/' :: key) := by
  obtain rfl := addNode_eq_some h
  simp only [setRoute, routeAt, List.tail_cons]
  rw [Trie.valueAt_set _ _ _ _ (Trie.descend_grow _ _), Trie.valueAt_grow]

theorem routeAt_addNode {r r₁ : Router η} {pfx : CString} (h : r.addNode pfx = some r₁)
    (q : CString) : r₁.routeAt q = r.routeAt q := by
  obtain rfl := addNode_eq_some h
  exact Trie.valueAt_grow _ _ _

theorem root_tag_setRoute {r r₁ : Router η} {pfx : CString} (h : r.addNode pfx = some r₁)
    (rt : Route η) : (r₁.setRoute pfx rt).root_.tag = r.root_.tag := by
  obtain rfl := addNode_eq_some h
  simp [setRoute]

/-- The route a call of `Router::add` works on: the stored one or a new, empty one. -/
theorem Represents.current {r : Router η} {table : List (RouteHandler η)}
    (h : Represents r table) (key : CString) :
    let rt := (r.routeAt ('/' :: key)).getD (Route.new ('/' :: key))
    rt.prefix_ = '/' :: key ∧
    rt.handlers = table.filter (fun rh => decide (rh.prefix_ = '/' :: key)) ∧
    ∀ m : Method, rt.methods &&& (1#32 <<< m.val) ≠ 0#32 ↔ ∃ rh ∈ rt.handlers, rh.m = m := by
  have hh := h.handlers key
  cases hr : r.routeAt ('/' :: key) with
  | none =>
      simp only [hr, Option.elim_none] at hh
      refine ⟨rfl, hh, ?_⟩
      intro m
      simp [Route.new]
  | some rt =>
      simp only [hr, Option.elim_some] at hh
      exact ⟨(h.routes key rt hr).1, hh, (h.routes key rt hr).2⟩

/-- Putting a stored route back changes nothing. -/
theorem setRoute_stored {r r₁ : Router η} {pfx : CString} {rt : Route η}
    (h : r.addNode pfx = some r₁) (hrt : r.routeAt pfx = some rt) : r₁.setRoute pfx rt = r := by
  have hpath : (Trie.descend pfx.tail r.root_).isSome := by
    obtain ⟨n, hn, -⟩ := Option.bind_eq_some_iff.1 hrt
    exact Option.isSome_of_eq_some hn
  obtain rfl := addNode_eq_some h
  have hset := Trie.set_valueAt pfx.tail r.root_
  unfold routeAt at hrt
  rw [hrt] at hset
  simp only [setRoute, Trie.grow_of_descend hpath, Trie.missing_of_descend hpath, hset]
  rfl

/-- The method bits tell the methods of the handlers, also of a new one. -/
theorem mask_add {rt : Route η} (rh : RouteHandler η) (m : Method)
    (hmask : rt.methods &&& (1#32 <<< m.val) ≠ 0#32 ↔ ∃ x ∈ rt.handlers, x.m = m) :
    (rt.methods ||| (1#32 <<< rh.m.val)) &&& (1#32 <<< m.val) ≠ 0#32 ↔
      ∃ x ∈ rt.handlers ++ [rh], x.m = m := by
  rw [mask_or, hmask]
  simp only [List.mem_append, List.mem_singleton]
  constructor
  · rintro (⟨x, hx, rfl⟩ | rfl)
    · exact ⟨x, Or.inl hx, rfl⟩
    · exact ⟨rh, Or.inr rfl, rfl⟩
  · rintro ⟨x, hx | rfl, rfl⟩
    · exact Or.inl ⟨x, hx, rfl⟩
    · exact Or.inr rfl

/-- Appending a handler to the route of its prefix appends it to the table. -/
theorem Represents.setRoute_add {r r₁ : Router η} {table : List (RouteHandler η)}
    (h : Represents r table) {key : CString} (hn : r.addNode ('/' :: key) = some r₁)
    {rh : RouteHandler η} (hkey : rh.prefix_ = '/' :: key) (hnparams : rh.nparams < 256)
    (hfresh : ∀ old ∈ table, ¬ Clash old rh) :
    Represents (r₁.setRoute ('/' :: key)
      (((r.routeAt ('/' :: key)).getD (Route.new ('/' :: key))).add rh.m rh.params rh.nparams
        rh.route rh.contentType rh.h)) (table ++ [rh]) := by
  obtain ⟨hpfx, hhandlers, hmask⟩ := h.current key
  set rt := (r.routeAt ('/' :: key)).getD (Route.new ('/' :: key)) with hrt
  have hadd : (rt.add rh.m rh.params rh.nparams rh.route rh.contentType rh.h).handlers =
      rt.handlers ++ [rh] := by
    cases rh
    simp only at hkey hnparams
    simp [Route.add, hpfx, hkey, Nat.mod_eq_of_lt hnparams]
  refine ⟨(root_tag_setRoute hn _).trans h.tag, ?_, ?_, ?_, ?_⟩
  · intro x hx
    rcases List.mem_append.mp hx with hx | hx
    · exact h.proper x hx
    · rw [List.mem_singleton.mp hx]
      exact ⟨key, hkey⟩
  · apply List.pairwise_append.mpr
    refine ⟨h.distinct, by simp, ?_⟩
    intro a ha b hb
    rw [List.mem_singleton.mp hb]
    exact hfresh a ha
  · intro k
    rw [routeAt_setRoute hn, List.filter_append]
    by_cases hk : k = key
    · subst hk
      simp [hadd, hhandlers, hkey]
    · have hne : rh.prefix_ ≠ '/' :: k := by
        rw [hkey]
        simpa using Ne.symm hk
      simpa [hk, hne] using h.handlers k
  · intro k rt' hrt'
    rw [routeAt_setRoute hn] at hrt'
    by_cases hk : k = key
    · subst hk
      simp only [List.tail_cons, ite_true, Option.some.injEq] at hrt'
      subst hrt'
      refine ⟨hpfx, ?_⟩
      intro m
      rw [hadd]
      exact mask_add rh m (hmask m)
    · simp only [List.tail_cons, hk, ite_false] at hrt'
      exact h.routes k rt' hrt'

theorem getD_new_find (route : Option (Route η)) (pfx : CString) (m : Method) (n : ℤ) :
    (route.getD (Route.new pfx)).find m n = route.bind (fun rt => rt.find m n) := by
  cases route with
  | none => simp [Route.new, Route.find]
  | some rt => rfl

theorem Represents.addNode_eq_none_iff {r : Router η} {table : List (RouteHandler η)}
    (h : Represents r table) (pfx : CString) :
    r.addNode pfx = none ↔ pfx.head? ≠ some '/' := by
  simp [addNode, h.tag]

theorem lookup_isSome_iff_clash (table : List (RouteHandler η)) (rh : RouteHandler η) :
    (tableLookup table rh.prefix_ rh.m rh.nparams).isSome ↔ ∃ old ∈ table, Clash old rh := by
  rw [tableLookup, List.find?_isSome]
  simp only [decide_eq_true_eq, Clash]
  constructor
  · rintro ⟨old, hold, hp, hm, hn⟩
    exact ⟨old, hold, hm, hp, by omega⟩
  · rintro ⟨old, hold, hm, hp, hn⟩
    exact ⟨old, hold, hp, hm, by omega⟩

theorem add_bound {r : Router η} {e : Registration η} {res : Router η × Bool}
    (h : r.add e.m e.route e.h e.contentType = some res) :
    (koreSplitString ':' addSlots e.route).length < 32 := by
  by_contra hlen
  simp only [add, if_pos (Nat.le_of_not_lt hlen)] at h
  cases h

/-- What `Router::add` does. A route that is refused for a clash is there already, so putting
it back changes nothing. -/
theorem Represents.add_eq {r : Router η} {table : List (RouteHandler η)} (h : Represents r table)
    (e : Registration η) (hlen : (koreSplitString ':' addSlots e.route).length < 32) :
    (e.compile = none ∧ r.add e.m e.route e.h e.contentType = some (r, false)) ∨
    ∃ key toks r₁, koreSplitString ':' addSlots e.route = ('/' :: key) :: toks ∧
      r.addNode ('/' :: key) = some r₁ ∧
      r.add e.m e.route e.h e.contentType =
        if ∃ old ∈ table, Clash old (e.handler ('/' :: key) toks) then some (r, false)
        else some (r₁.setRoute ('/' :: key)
          (((r.routeAt ('/' :: key)).getD (Route.new ('/' :: key))).add e.m
            (e.handler ('/' :: key) toks).params toks.length
            (e.handler ('/' :: key) toks).route e.contentType e.h), true) := by
  cases htoks : koreSplitString ':' addSlots e.route with
  | nil =>
      refine Or.inl ⟨?_, ?_⟩
      · rw [Registration.compile, htoks]
      · simp [add, htoks]
  | cons pfx toks =>
      have hfits : ¬ 32 ≤ (pfx :: toks).length := Nat.not_le.2 (htoks ▸ hlen)
      cases hnode : r.addNode pfx with
      | none =>
          have hhead := (h.addNode_eq_none_iff pfx).1 hnode
          refine Or.inl ⟨?_, ?_⟩
          · rw [Registration.compile, htoks]
            exact if_neg hhead
          · simp only [add, htoks, if_neg hfits, hnode]
      | some r₁ =>
          have hhead : pfx.head? = some '/' := by
            by_contra hne
            rw [(h.addNode_eq_none_iff pfx).2 hne] at hnode
            cases hnode
          obtain ⟨key, rfl⟩ := List.head?_eq_some_iff.1 hhead
          refine Or.inr ⟨key, toks, r₁, rfl, hnode, ?_⟩
          have hcount : ((('/' :: key) :: toks).length : ℤ) - 1 =
              ((e.handler ('/' :: key) toks).nparams : ℤ) := by
            simp [Registration.handler]
          have hfind : ((r.routeAt ('/' :: key)).bind (fun rt => rt.find e.m
              (e.handler ('/' :: key) toks).nparams)).isSome ↔
              ∃ old ∈ table, Clash old (e.handler ('/' :: key) toks) := by
            rw [h.find_eq]
            exact lookup_isSome_iff_clash table (e.handler ('/' :: key) toks)
          simp only [add, htoks, if_neg hfits, hnode, routeAt_addNode hnode, hcount, getD_new_find]
          by_cases hclash : ∃ old ∈ table, Clash old (e.handler ('/' :: key) toks)
          · have hsome := hfind.2 hclash
            obtain ⟨rt, hrt, -⟩ := Option.bind_eq_some_iff.1 (Option.some_get hsome).symm
            rw [if_pos hsome, if_pos hclash, hrt, Option.getD_some, setRoute_stored hnode hrt]
          · rw [if_neg (fun hsome => hclash (hfind.1 hsome)), if_neg hclash]
            rfl

/-- `Router::add` performs `tableAdd`, and reports whether it appended a handler. -/
theorem add_refines {r r' : Router η} {table : List (RouteHandler η)} (h : Represents r table)
    (e : Registration η) {ok : Bool}
    (hadd : r.add e.m e.route e.h e.contentType = some (r', ok)) :
    Represents r' (tableAdd table e).1 ∧ ok = (tableAdd table e).2 := by
  have hlen := add_bound hadd
  rcases h.add_eq e hlen with ⟨hcompile, heq⟩ | ⟨key, toks, r₁, htoks, hnode, heq⟩
  · rw [heq, Option.some.injEq, Prod.mk.injEq] at hadd
    obtain ⟨rfl, rfl⟩ := hadd
    rw [tableAdd, hcompile]
    exact ⟨h, rfl⟩
  · have hcompile : e.compile = some (e.handler ('/' :: key) toks) := by
      rw [Registration.compile, htoks]
      rfl
    rw [htoks, List.length_cons] at hlen
    have hsmall : (e.handler ('/' :: key) toks).nparams < 256 := by
      simp only [Registration.handler]
      omega
    rw [heq] at hadd
    rw [tableAdd, hcompile]
    simp only
    by_cases hc : ∃ old ∈ table, Clash old (e.handler ('/' :: key) toks)
    · rw [if_pos hc, Option.some.injEq, Prod.mk.injEq] at hadd
      obtain ⟨rfl, rfl⟩ := hadd
      rw [if_pos hc]
      exact ⟨h, rfl⟩
    · rw [if_neg hc, Option.some.injEq, Prod.mk.injEq] at hadd
      obtain ⟨rfl, rfl⟩ := hadd
      rw [if_neg hc]
      have hkey : (e.handler ('/' :: key) toks).prefix_ = '/' :: key := rfl
      have hfresh : ∀ old ∈ table, ¬ Clash old (e.handler ('/' :: key) toks) :=
        fun old hold hclash => hc ⟨old, hold, hclash⟩
      have hset := h.setRoute_add hnode hkey hsmall hfresh
      exact ⟨hset, rfl⟩

/-! ## Runs of registrations -/

/-- The handlers of the accepted calls in a sequence of registrations. -/
def registered (es : List (Registration η)) : List (RouteHandler η) :=
  es.foldl (fun t e => (tableAdd t e).1) []

/-- A sequence of calls of `Router::add`. Rejected calls are part of it; it has no result
when one call writes behind its token array. -/
def addAll : Router η → List (Registration η) → Option (Router η)
  | r, [] => some r
  | r, e :: es => (r.add e.m e.route e.h e.contentType).bind (fun res => addAll res.1 es)

theorem new_represents : Represents (new : Router η) [] := by
  refine ⟨rfl, by simp, by simp, ?_, ?_⟩
  · intro key
    cases key <;> simp [new, routeAt, Trie.valueAt, Trie.descend, Trie.get]
  · intro key rt hrt
    cases key <;> simp [new, routeAt, Trie.valueAt, Trie.descend, Trie.get] at hrt

theorem addAll_refines {r r' : Router η} {table : List (RouteHandler η)}
    (h : Represents r table) (es : List (Registration η)) (hr : r.addAll es = some r') :
    Represents r' (es.foldl (fun t e => (tableAdd t e).1) table) := by
  induction es generalizing r table with
  | nil =>
      simp only [addAll, Option.some.injEq] at hr
      subst hr
      exact h
  | cons e es ih =>
      simp only [addAll, Option.bind_eq_some_iff] at hr
      obtain ⟨⟨r₁, ok⟩, hadd, hrest⟩ := hr
      exact ih (add_refines h e hadd).1 hrest

theorem addAll_bound {r r' : Router η} {es : List (Registration η)}
    (hr : r.addAll es = some r') :
    ∀ e ∈ es, (koreSplitString ':' addSlots e.route).length < 32 := by
  induction es generalizing r with
  | nil => simp
  | cons e es ih =>
      simp only [addAll, Option.bind_eq_some_iff] at hr
      obtain ⟨res, hadd, hrest⟩ := hr
      intro x hx
      rcases List.mem_cons.mp hx with rfl | hx
      · exact add_bound hadd
      · exact ih hrest x hx

theorem add_isSome (r : Router η) (e : Registration η)
    (h : (koreSplitString ':' addSlots e.route).length < 32) :
    ∃ res, r.add e.m e.route e.h e.contentType = some res := by
  unfold add
  simp only [if_neg (Nat.not_le_of_lt h)]
  repeat' split
  all_goals exact ⟨_, rfl⟩

theorem addAll_isSome (r : Router η) (es : List (Registration η))
    (h : ∀ e ∈ es, (koreSplitString ':' addSlots e.route).length < 32) :
    ∃ r', r.addAll es = some r' := by
  induction es generalizing r with
  | nil => exact ⟨r, rfl⟩
  | cons e es ih =>
      obtain ⟨res, hres⟩ := r.add_isSome e (h e (by simp))
      obtain ⟨r', hr'⟩ := ih res.1 (fun x hx => h x (by simp [hx]))
      exact ⟨r', by simp [addAll, hres, hr']⟩

end Router

/-- Every handler of the table comes from a registration. -/
theorem mem_foldl_tableAdd {table : List (RouteHandler η)} {es : List (Registration η)}
    {rh : RouteHandler η} (h : rh ∈ es.foldl (fun t e => (tableAdd t e).1) table) :
    rh ∈ table ∨ ∃ e ∈ es, e.compile = some rh := by
  induction es generalizing table with
  | nil => exact Or.inl h
  | cons e es ih =>
      rcases ih h with hmem | ⟨e', he', hc⟩
      · unfold tableAdd at hmem
        cases hc : e.compile with
        | none =>
            simp only [hc] at hmem
            exact Or.inl hmem
        | some new =>
            simp only [hc] at hmem
            split at hmem
            · exact Or.inl hmem
            · rcases List.mem_append.mp hmem with hmem | hmem
              · exact Or.inl hmem
              · exact Or.inr ⟨e, by simp, by rw [hc, List.mem_singleton.mp hmem]⟩
      · exact Or.inr ⟨e', by simp [he'], hc⟩

/-- A handler that was registered has a name for each of its parameters. -/
theorem Router.length_params {es : List (Registration η)} {rh : RouteHandler η}
    (h : rh ∈ Router.registered es) : rh.params.length = rh.nparams := by
  rcases mem_foldl_tableAdd h with hnil | ⟨e, -, hcompile⟩
  · exact absurd hnil List.not_mem_nil
  · rw [Registration.compile] at hcompile
    split at hcompile
    · exact absurd hcompile.symm (Option.some_ne_none rh)
    · split at hcompile
      · obtain rfl := Option.some.inj hcompile
        exact List.length_map _
      · exact absurd hcompile.symm (Option.some_ne_none rh)

end Sparc
