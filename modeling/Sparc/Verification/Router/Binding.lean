import Sparc.Model.Accessors
import Sparc.Verification.Router.Soundness

/-! # Parameters are tokens of the path

`Router::find` counts slashes, and the tokens skip empty segments. Still it returns a handler only
where the tokens behind its count are as many as the handler has parameters.
-/

namespace Sparc

variable {η : Type*}

/-- A text that can be bound to a parameter. -/
def IsPiece (path text : CString) : Prop := text ≠ [] ∧ text <:+: path

namespace Router

/-- What is returned through `params` and `ntoks`: from an index on the last tokens, one for each
parameter of the handler. -/
structure Bound (tokens : List CString) (found : Found η) : Prop where
  remaining : ∃ itok, remaining tokens itok = found.handler.nparams ∧
    found.params = (tokens.drop itok).take found.handler.nparams
  length : found.params.length = found.handler.nparams
  le : found.handler.nparams ≤ tokens.length
  suffix : found.params <:+ tokens

theorem mem_pathTokens_piece {slots : ℕ} {path tok : CString}
    (h : tok ∈ pathTokens slots path) : IsPiece path tok := by
  refine ⟨mem_pathTokens_ne_nil h, ?_⟩
  rw [pathTokens_eq] at h
  exact Fields.infix_of_mem_tokens '/' (List.mem_of_mem_take h)

/-- A lookup in any node binds the tokens that are left. -/
theorem lookup_bound {route : Option (Route η)} {m : Method} {tokens : List CString} {itok : ℕ}
    {found : Found η} (h : lookup route m tokens itok = some found) : Bound tokens found := by
  cases route with
  | none => exact absurd h.symm (Option.some_ne_none found)
  | some route =>
      obtain ⟨rh, hrh, rfl⟩ := Option.map_eq_some_iff.mp h
      have hcount : Router.remaining tokens itok = rh.nparams := by
        rw [Route.find] at hrh
        split at hrh
        · have hmatch := List.find?_some hrh
          exact (of_decide_eq_true hmatch).2
        · exact absurd hrh.symm (Option.some_ne_none rh)
      have hslice : (tokens.drop itok).take (Router.remaining tokens itok).toNat =
          (tokens.drop itok).take rh.nparams := by rw [hcount, Int.toNat_natCast]
      by_cases hempty : tokens.length = 0
      · obtain rfl := List.length_eq_zero_iff.mp hempty
        have hnone : rh.nparams = 0 := by
          rw [Router.remaining, if_pos hempty] at hcount
          omega
        exact ⟨⟨itok, hcount, hslice⟩, by simp [hnone], by simp [hnone], by simp⟩
      · have hsum : itok + rh.nparams = tokens.length := by
          rw [Router.remaining, if_neg hempty] at hcount
          omega
        have hrest : (tokens.drop itok).take (Router.remaining tokens itok).toNat =
            tokens.drop itok := by
          rw [hslice]
          refine List.take_of_length_le ?_
          rw [List.length_drop]
          omega
        refine ⟨⟨itok, hcount, hslice⟩, ?_, ?_, ?_⟩
        · change List.length _ = rh.nparams
          rw [hrest, List.length_drop]
          omega
        · change rh.nparams ≤ tokens.length
          omega
        · rw [hrest]
          exact List.drop_suffix itok tokens

/-- A handler that is found was registered, and its parameters are bound. -/
theorem find_bound {es : List (Registration η)} {r : Router η} (hr : new.addAll es = some r)
    {m : Method} {path : CString} {slots : ℕ} {found : Found η}
    (h : r.find m path slots = some found) :
    found.handler ∈ registered es ∧ Bound (pathTokens slots path) found := by
  have hrep : Represents r (registered es) := addAll_refines new_represents es hr
  rw [find_eq_findSome] at h
  obtain ⟨s, -, hlookup⟩ := List.exists_of_findSome?_eq_some h
  exact ⟨((hrep.lookup_eq_some_iff m _ s found).mp hlookup).1, lookup_bound hlookup⟩

end Router

/-! ## What a request reads -/

theorem visitParams_of_length {names values : List CString} {path : CString} (it : KVIterator)
    (hvalues : ∀ value ∈ values, IsPiece path value) {seen : List (CString × Option CString)}
    (hseen : ∀ kv ∈ seen, ∀ value ∈ kv.2, IsPiece path value) {indices : List ℕ}
    (hnames : ∀ i ∈ indices, i < names.length) (hindices : ∀ i ∈ indices, i < values.length) :
    ∃ pairs, visitParams names values it seen indices = some pairs ∧
      ∀ kv ∈ pairs, ∀ value ∈ kv.2, IsPiece path value := by
  induction indices generalizing seen with
  | nil => exact ⟨seen, rfl, hseen⟩
  | cons i indices ih =>
      obtain ⟨hname, hnames⟩ := List.forall_mem_cons.mp hnames
      obtain ⟨hindex, hindices⟩ := List.forall_mem_cons.mp hindices
      have hmore : ∀ kv ∈ seen ++ [(names[i], some values[i])], ∀ value ∈ kv.2,
          IsPiece path value := by
        intro kv hkv value hvalue
        rcases List.mem_append.mp hkv with hkv | hkv
        · exact hseen kv hkv value hvalue
        · rw [List.mem_singleton.mp hkv] at hvalue
          exact Option.some.inj hvalue ▸ hvalues _ (List.getElem_mem hindex)
      rw [visitParams, List.getElem?_eq_getElem hname, Option.bind_some,
        List.getElem?_eq_getElem hindex, Option.bind_some]
      simp only
      split
      · exact ih hmore hnames hindices
      · exact ⟨_, rfl, hmore⟩

namespace HttpRequest

/-- Every element of `params_` that `param` and `eachParam` can read is there, and it is a
nonempty piece of the path. -/
structure Bound (req : HttpRequest η) (rh : RouteHandler η) : Prop where
  elements : ∀ i < rh.nparams, ∃ value, req.params_[i]? = some value ∧ IsPiece req.path value
  param : ∀ name value, req.param name = some value → IsPiece req.path value
  eachParam : ∀ it, ∃ pairs, req.eachParam it = some pairs ∧
    ∀ kv ∈ pairs, ∀ value ∈ kv.2, IsPiece req.path value

theorem bound_of_length {req : HttpRequest η} {rh : RouteHandler η}
    (hhandler : req.hanadler_ = some rh) (hnames : rh.params.length = rh.nparams)
    (hlength : req.params_.length = rh.nparams)
    (hpieces : ∀ value ∈ req.params_, IsPiece req.path value) : Bound req rh where
  elements := fun i hi => by
    have hindex : i < req.params_.length := hlength ▸ hi
    exact ⟨_, List.getElem?_eq_getElem hindex, hpieces _ (List.getElem_mem hindex)⟩
  param := fun name value hparam => by
    rw [HttpRequest.param, hhandler, Option.bind_some] at hparam
    obtain ⟨i, -, hvalue⟩ := Option.bind_eq_some_iff.mp hparam
    exact hpieces value (List.mem_of_getElem? hvalue)
  eachParam := fun it => by
    cases it with
    | none => exact ⟨[], rfl, by simp⟩
    | some it =>
        rw [HttpRequest.eachParam, Option.elim_some, hhandler, Option.bind_some]
        refine visitParams_of_length it hpieces (by simp) ?_ ?_
        · exact fun i hi => hnames ▸ List.mem_range.mp hi
        · exact fun i hi => hlength ▸ List.mem_range.mp hi

end HttpRequest

/-- Whatever `Router::find` returns is bound to tokens of the path, and so is what a request reads
whose route was resolved. -/
theorem params_within_tokens {es : List (Registration η)} {r : Router η}
    (hr : Router.new.addAll es = some r) (m : Method) (path : CString) :
    (∀ slots found, r.find m path slots = some found →
      Router.Bound (koreSplitString '/' slots path) found ∧
        ∀ token ∈ found.params, IsPiece path token) ∧
    ∀ headers rh, ((HttpRequest.new m path headers).resolveRoute r).hanadler_ = some rh →
      HttpRequest.Bound ((HttpRequest.new m path headers).resolveRoute r) rh := by
  have hpieces : ∀ slots found, r.find m path slots = some found →
      ∀ token ∈ found.params, IsPiece path token := by
    intro slots found hfound token htoken
    exact Router.mem_pathTokens_piece
      ((Router.find_bound hr hfound).2.suffix.subset htoken)
  refine ⟨fun slots found hfound => ⟨(Router.find_bound hr hfound).2, hpieces slots found hfound⟩,
    ?_⟩
  intro headers rh hhandler
  cases hfind : r.find m path HttpRequest.resolveSlots with
  | none =>
      simp [HttpRequest.resolveRoute, HttpRequest.new, hfind] at hhandler
  | some found =>
      obtain ⟨hregistered, hbound⟩ := Router.find_bound hr hfind
      have hreq : (HttpRequest.new m path headers).resolveRoute r =
          { (HttpRequest.new m path headers : HttpRequest η) with
            tokenized_ := true, hanadler_ := some found.handler, params_ := found.params } := by
        simp [HttpRequest.resolveRoute, HttpRequest.new, hfind]
      rw [hreq] at hhandler ⊢
      obtain rfl := Option.some.inj hhandler
      exact HttpRequest.bound_of_length rfl (Router.length_params hregistered) hbound.length
        (hpieces _ found hfind)

/-- Two parameters behind repeated slashes. -/
theorem params_within_tokens_two :
    ∃ r : Router Unit,
      Router.new.addAll [⟨.GET, "/users/:id/:tab".toList, (), none⟩] = some r ∧
      (r.find .GET "/users/7//posts/".toList HttpRequest.resolveSlots).map Router.Found.params =
        some ["7".toList, "posts".toList] ∧
      (∀ slots found, r.find .GET "/users/7//posts/".toList slots = some found →
        Router.Bound (koreSplitString '/' slots "/users/7//posts/".toList) found ∧
          ∀ token ∈ found.params, IsPiece "/users/7//posts/".toList token) := by
  refine ⟨_, rfl, by decide, ?_⟩
  exact (@params_within_tokens Unit [⟨.GET, "/users/:id/:tab".toList, (), none⟩] _ rfl .GET
    "/users/7//posts/".toList).1

end Sparc
