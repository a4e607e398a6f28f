import Sparc.Verification.Router.Soundness

/-! # The size of the token array

`HttpRequest::resolveRoute` provides 16 slots, of which `kore_split_string` fills at most
15. The walk with the shortened token list makes the same stops until it has read fifteen
slashes, but it counts the tokens that are left up to the fifteenth only.
-/

namespace Sparc.Router

variable {η : Type*}

/-! ## Stops under a shortened token list -/

theorem filter_map_under (l : List Stop) (c : Char) (p : Stop → Bool) :
    (l.map (Stop.under [c])).filter p =
      (l.filter (fun s => p (s.under [c]))).map (Stop.under [c]) := by
  rw [List.filter_map]
  rfl

/-- With a shorter token list the walk leaves at the slash where the tokens run out. -/
theorem trail_take (tokens : List CString) (n itok tlen : ℕ) (path : CString) (hn : itok < n) :
    trail (tokens.take n) false itok tlen path =
      (trail tokens false itok tlen path).filter
        (fun s => decide (itok + s.key.count '/' < n)) := by
  induction path generalizing itok tlen with
  | nil => rfl
  | cons c rest ih =>
      by_cases hc : c = '/'
      · subst hc
        simp only [trail_slash, List.length_take]
        by_cases hall : tokens.length ≤ itok + 1
        · rw [if_pos hall, if_pos (by omega)]
          rfl
        · rw [if_neg hall]
          by_cases hshort : n ≤ itok + 1
          · rw [if_pos (by omega)]
            symm
            apply List.filter_eq_nil_iff.mpr
            intro s hs
            have hcount : 0 < s.key.count '/' := by
              apply List.count_pos_iff.mpr
              rcases List.mem_cons.mp hs with rfl | hs
              · simp
              · obtain ⟨s', -, rfl⟩ := List.mem_map.mp hs
                simp [Stop.under]
            simp only [decide_eq_true_eq]
            omega
          · have hget : (tokens.take n).getD (itok + 1) [] = tokens.getD (itok + 1) [] := by
              simp [Nat.lt_of_not_le hshort]
            rw [if_neg (by omega), hget, ih _ _ (Nat.lt_of_not_le hshort), List.filter_cons,
              filter_map_under]
            simp [Stop.under, Nat.lt_of_not_le hshort, Nat.add_assoc, Nat.add_comm 1]
      · have hunder : ∀ s : Stop, (s.under [c]).key.count '/' = s.key.count '/' := by
          intro s
          simp [Stop.under, hc]
        cases tlen with
        | zero =>
            rw [trail_token_end _ itok hc, trail_token_end _ itok hc, ih _ _ hn,
              List.filter_cons, filter_map_under]
            simp [hunder, hn, hc]
        | succ tlen =>
            rw [trail_pass _ false itok tlen hc, trail_pass _ false itok tlen hc, ih _ _ hn]
            simp only [Bool.false_eq_true, ite_false, filter_map_under, hunder]

theorem pathTokens_take {small large : ℕ} (h : small ≤ large) (path : CString) :
    pathTokens small path = (pathTokens large path).take (small - 1) := by
  rw [pathTokens_eq, pathTokens_eq, List.take_take]
  congr 1
  omega

/-- Fewer slots keep the stops with fewer slashes. -/
theorem mem_stops_take {small large : ℕ} (hsmall : 2 ≤ small) (h : small ≤ large)
    (path : CString) (s : Stop) :
    s ∈ stops small path ↔ s ∈ stops large path ∧ s.key.count '/' < small - 1 := by
  cases path with
  | nil => simp [stops, trail]
  | cons c rest =>
      have hhead : (pathTokens small (c :: rest)).headD [] =
          (pathTokens large (c :: rest)).headD [] := by
        rw [pathTokens_take h]
        obtain ⟨k, hk⟩ : ∃ k, small - 1 = k + 1 := ⟨small - 2, by omega⟩
        rw [hk]
        cases pathTokens large (c :: rest) <;> rfl
      have htrail := trail_take (pathTokens large (c :: rest)) (small - 1) 0
        (((pathTokens large (c :: rest)).headD []).length - 1) rest (by omega)
      rw [← pathTokens_take h] at htrail
      simp only [Nat.zero_add] at htrail
      by_cases hc : c = '/'
      · subst hc
        simp only [stops_slash, hhead, htrail, List.mem_cons, List.mem_filter, decide_eq_true_eq]
        constructor
        · rintro (rfl | hs)
          · exact ⟨Or.inl rfl, by simp; omega⟩
          · exact ⟨Or.inr hs.1, hs.2⟩
        · rintro ⟨rfl | hs, hcount⟩
          · exact Or.inl rfl
          · exact Or.inr ⟨hs, hcount⟩
      · simp only [stops_other hsmall hc, stops_other (Nat.le_trans hsmall h) hc, hhead, htrail,
          List.mem_filter, decide_eq_true_eq]

/-! ## Long paths -/

theorem length_tokens_le_tail (path : CString) :
    (Fields.tokens '/' path).length ≤ path.tail.count '/' + 1 := by
  cases path with
  | nil => simp
  | cons c rest =>
      by_cases hc : c = '/'
      · subst hc
        rw [Fields.tokens_sep_cons]
        exact Fields.length_tokens_le '/' rest
      · have h := Fields.length_tokens_le '/' (c :: rest)
        simpa [hc] using h

/-- On a path with more tokens than slots, no stop has consumed all the slots. -/
theorem itok_lt_slots {slots : ℕ} (hslots : 2 ≤ slots) {path : CString} {s : Stop}
    (hs : s ∈ stops slots path) (hlong : slots - 1 < (Fields.tokens '/' path).length) :
    s.itok < slots - 1 := by
  rcases mem_stops hslots hs with ⟨-, rest, rfl, hitok⟩ | ⟨-, -, hspec⟩
  · by_cases hrest : rest = []
    · simp [hrest] at hlong
    · rw [hitok, if_neg hrest]
      omega
  · have hlen : (pathTokens slots path).length = slots - 1 := by
      rw [pathTokens_eq, List.length_take]
      omega
    have hcount : s.key.count '/' < slots - 1 := by
      by_cases hm : '/' ∈ s.key
      · have := hspec.open_ hm
        omega
      · rw [List.count_eq_zero_of_not_mem hm]
        omega
    by_cases hlast : s.key.getLast? = some '/'
    · have := hspec.slash hlast
      omega
    · by_cases hend : s.key = path.tail
      · have htokens := length_tokens_le_tail path
        rw [← hend] at htokens
        omega
      · have := hspec.inner hlast hend
        omega

theorem count_le_itok {slots : ℕ} (hslots : 2 ≤ slots) {path : CString} {s : Stop}
    (hs : s ∈ stops slots path) : s.key.count '/' ≤ s.itok := by
  rcases mem_stops hslots hs with ⟨hnil, -⟩ | ⟨-, -, hspec⟩
  · simp [hnil]
  · by_cases hlast : s.key.getLast? = some '/'
    · have := hspec.slash hlast
      omega
    · by_cases hend : s.key = path.tail
      · have := hspec.final hlast hend
        omega
      · have := hspec.inner hlast hend
        omega

/-- With all tokens and with the first ones only, the same handler cannot be found. -/
theorem Represents.find_ne {r : Router η} {table : List (RouteHandler η)}
    (h : Represents r table) {small large : ℕ} (hsmall : 2 ≤ small) {m : Method}
    {path : CString} (hlong : small - 1 < (Fields.tokens '/' path).length)
    (hlarge : (Fields.tokens '/' path).length < large) {found found' : Found η}
    (hfound : r.find m path small = some found) (hfound' : r.find m path large = some found') :
    found.handler ≠ found'.handler := by
  intro hsame
  have hle : small ≤ large := by omega
  obtain ⟨s, hs, -, hanswers, -⟩ := (h.find_eq_some_iff hsmall m path found).mp hfound
  obtain ⟨s', hs', -, hanswers', -⟩ :=
    (h.find_eq_some_iff (Nat.le_trans hsmall hle) m path found').mp hfound'
  rw [← hsame] at hanswers'
  have hkey : s.key = s'.key :=
    (List.cons.inj (hanswers.2.1.symm.trans hanswers'.2.1)).2
  have hin := ((mem_stops_take hsmall hle path s).mp hs).1
  obtain rfl : s = s' := Search.eq_of_rank_eq (fun s : Stop => s.key.length)
    (stops_sorted (Nat.le_trans hsmall hle) path) hin hs' (by simp only [hkey])
  have hn := hanswers.2.2
  rw [← hanswers'.2.2, remaining, remaining, if_neg, if_neg] at hn
  all_goals simp only [pathTokens_eq, List.length_take] at *
  all_goals omega

theorem answers_iff {tokens : List CString} (hne : tokens.length ≠ 0) (s : Stop) (m : Method)
    (rh : RouteHandler η) :
    s.Answers tokens m rh ↔
      rh.m = m ∧ rh.prefix_ = '/' :: s.key ∧ s.itok + rh.nparams = tokens.length := by
  unfold Stop.Answers remaining
  rw [if_neg hne]
  constructor
  · rintro ⟨hm, hpfx, hn⟩
    exact ⟨hm, hpfx, by omega⟩
  · rintro ⟨hm, hpfx, hn⟩
    exact ⟨hm, hpfx, by omega⟩

theorem find_congr (r : Router η) (m : Method) (path : CString) {slots slots' : ℕ}
    (h : pathTokens slots path = pathTokens slots' path) :
    r.find m path slots = r.find m path slots' := by
  simp only [find_eq_findSome, stops, h]

/-- With slots for all tokens, a handler is found at a stop whose parameters are the tokens left. -/
theorem Represents.find_all_eq_none_iff {r : Router η} {table : List (RouteHandler η)}
    (h : Represents r table) (m : Method) {path : CString} {slots : ℕ}
    (hne : (Fields.tokens '/' path).length ≠ 0)
    (hslots : (Fields.tokens '/' path).length < slots) :
    r.find m path slots = none ↔
      ∀ s ∈ stops slots path, ∀ rh ∈ table, rh.m = m → rh.prefix_ = '/' :: s.key →
        s.itok + rh.nparams ≠ (Fields.tokens '/' path).length := by
  have htokens : pathTokens slots path = Fields.tokens '/' path := by
    rw [pathTokens_eq]
    apply List.take_of_length_le
    omega
  rw [h.find_eq_none_iff slots m path, htokens]
  constructor
  · intro hnone s hs rh hrh hm hpfx hn
    exact hnone s hs rh hrh ((answers_iff hne s m rh).mpr ⟨hm, hpfx, hn⟩)
  · intro hfree s hs rh hrh hanswers
    obtain ⟨hm, hpfx, hn⟩ := (answers_iff hne s m rh).mp hanswers
    exact hfree s hs rh hrh hm hpfx hn

/-- With the 16 slots of `HttpRequest`, a long path is read as its first 15 tokens. -/
theorem Represents.find_long_eq_none_iff {r : Router η} {table : List (RouteHandler η)}
    (h : Represents r table) (m : Method) {path : CString} {slots : ℕ}
    (hlong : 15 < (Fields.tokens '/' path).length)
    (hslots : (Fields.tokens '/' path).length < slots) :
    r.find m path HttpRequest.resolveSlots = none ↔
      ∀ s ∈ stops slots path, ∀ rh ∈ table, rh.m = m → rh.prefix_ = '/' :: s.key →
        ¬ (0 < rh.nparams ∧ s.itok + rh.nparams = 15) := by
  have htwo : 2 ≤ HttpRequest.resolveSlots := by decide
  have hfifteen : (pathTokens HttpRequest.resolveSlots path).length = 15 := by
    rw [length_pathTokens]
    omega
  have hle : HttpRequest.resolveSlots ≤ slots := by
    change 16 ≤ slots
    omega
  have hanswer := @answers_iff η (pathTokens HttpRequest.resolveSlots path) (by omega)
  rw [hfifteen] at hanswer
  rw [h.find_eq_none_iff _ m path]
  constructor
  · rintro hnone s hs rh hrh hm hpfx ⟨hpos, hn⟩
    have hcount := count_le_itok (Nat.le_trans htwo hle) hs
    have hs' := (mem_stops_take htwo hle path s).mpr ⟨hs, by
      change _ < 15
      omega⟩
    exact hnone s hs' rh hrh ((hanswer s m rh).mpr ⟨hm, hpfx, hn⟩)
  · intro hfree s hs rh hrh hanswers
    obtain ⟨hm, hpfx, hn⟩ := (hanswer s m rh).mp hanswers
    have hlt : s.itok < 15 := itok_lt_slots htwo hs hlong
    have hs' := ((mem_stops_take htwo hle path s).mp hs).1
    exact hfree s hs' rh hrh hm hpfx ⟨by omega, hn⟩

/-- The result does not depend on the 16 slots exactly for paths of at most 15 tokens and
for paths on which no handler is found with either count of the tokens. -/
theorem find_slots_eq_iff {es : List (Registration η)} {r : Router η}
    (hr : new.addAll es = some r) (m : Method) (path : CString) {slots : ℕ}
    (hslots : (Fields.tokens '/' path).length < slots) :
    r.find m path HttpRequest.resolveSlots = r.find m path slots ↔
      (Fields.tokens '/' path).length ≤ 15 ∨
      ∀ s ∈ stops slots path, ∀ rh ∈ registered es, rh.m = m → rh.prefix_ = '/' :: s.key →
        s.itok + rh.nparams ≠ (Fields.tokens '/' path).length ∧
        ¬ (0 < rh.nparams ∧ s.itok + rh.nparams = 15) := by
  have hrep : Represents r (registered es) := addAll_refines new_represents es hr
  by_cases hshort : (Fields.tokens '/' path).length ≤ 15
  · simp only [hshort, true_or, iff_true]
    apply find_congr
    rw [pathTokens_eq, pathTokens_eq]
    exact (List.take_of_length_le hshort).trans (List.take_of_length_le (by omega)).symm
  · have hlong := Nat.lt_of_not_le hshort
    have hall := hrep.find_all_eq_none_iff m (by omega) hslots
    have hfirst := hrep.find_long_eq_none_iff m hlong hslots
    simp only [hshort, false_or]
    constructor
    · intro heq
      -- no handler is found twice, so both lookups fail
      have hnone : r.find m path HttpRequest.resolveSlots = none := by
        cases hfind : r.find m path HttpRequest.resolveSlots with
        | none => rfl
        | some found =>
            exact absurd rfl (hrep.find_ne (by decide) hlong hslots hfind (heq ▸ hfind))
      intro s hs rh hrh hm hpfx
      exact ⟨hall.mp (heq ▸ hnone) s hs rh hrh hm hpfx,
        hfirst.mp hnone s hs rh hrh hm hpfx⟩
    · intro hfree
      rw [hall.mpr (fun s hs rh hrh hm hpfx => (hfree s hs rh hrh hm hpfx).1),
        hfirst.mpr (fun s hs rh hrh hm hpfx => (hfree s hs rh hrh hm hpfx).2)]

/-- A path of sixteen segments that no handler answers for, whatever the slots are. -/
theorem find_slots_users :
    ∃ r : Router Unit, new.addAll [getUser.toRegistration] = some r ∧
      r.find .GET "/users/2/3/4/5/6/7/8/9/10/11/12/13/14/15/16".toList HttpRequest.resolveSlots =
        r.find .GET "/users/2/3/4/5/6/7/8/9/10/11/12/13/14/15/16".toList 1000 := by
  refine ⟨_, rfl, ?_⟩
  apply (@find_slots_eq_iff Unit [getUser.toRegistration] _ rfl .GET _ 1000 (by decide)).mpr
  exact Or.inr (by decide +kernel)

/-- A pattern of fifteen parameters answers for a path of sixteen segments. -/
theorem find_slots_differ :
    ∃ r : Router Unit,
      new.addAll [⟨.GET, "/:a/:b/:c/:d/:e/:f/:g/:h/:i/:j/:k/:l/:m/:n/:o".toList, (), none⟩] =
        some r ∧
      (r.find .GET "/1/2/3/4/5/6/7/8/9/10/11/12/13/14/15/16".toList
        HttpRequest.resolveSlots).isSome = true ∧
      r.find .GET "/1/2/3/4/5/6/7/8/9/10/11/12/13/14/15/16".toList 17 = none :=
  ⟨_, rfl, rfl, rfl⟩

end Sparc.Router
