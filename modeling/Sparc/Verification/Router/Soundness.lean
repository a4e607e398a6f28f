import Sparc.Model.Request
import Sparc.Verification.Router.Pattern

/-! # What a returned handler says about the path

A stop that answers for a pattern has consumed as many tokens as the pattern has leading
literals, and there are as many left as it has parameters. Whether the path then matches
the pattern depends on what the router does not look at: the first character of the path,
literals behind a parameter, and tokens beyond the token array.
-/

namespace Sparc

variable {η : Type*}

namespace Router

/-! ## Reading the literal prefix of a stop -/

theorem closed_isPrefix_tokens {lits : List CString} {path : CString}
    (hlits : ∀ l ∈ lits, Fields.Proper '/' l) (hkey : Fields.closed '/' lits <+: path.tail)
    (hpath : path.head? = some '/') : lits <+: Fields.tokens '/' path := by
  obtain ⟨rest, rfl⟩ := List.head?_eq_some_iff.mp hpath
  obtain ⟨more, hmore⟩ := hkey
  refine ⟨Fields.tokens '/' more, ?_⟩
  rw [Fields.tokens_sep_cons, ← Fields.tokens_closed_append '/' lits more hlits, hmore,
    List.tail_cons]

/-- The part of a pattern a stop has read, and what is left for its parameters. -/
structure Reading (slots : ℕ) (path : CString) (s : Stop) (lits : List CString) (n : ℕ) :
    Prop where
  count : lits.length + n = (pathTokens slots path).length
  rest : (pathTokens slots path).drop s.itok = (pathTokens slots path).drop lits.length
  lead : path.head? = some '/' → lits <+: Fields.tokens '/' path

theorem reading_root {slots : ℕ} (hslots : 2 ≤ slots) {path : CString} {s : Stop}
    (hs : s ∈ stops slots path) (hkey : s.key = []) {n : ℕ}
    (hn : remaining (pathTokens slots path) s.itok = n) : Reading slots path s [] n := by
  rcases mem_stops hslots hs with ⟨-, rest, rfl, hitok⟩ | ⟨hne, -⟩
  · by_cases hrest : rest = []
    · subst hrest
      have htokens : pathTokens slots ['/'] = [] := by simp [pathTokens_eq]
      rw [htokens] at hn
      simp only [remaining, List.length_nil, ite_true] at hn
      exact ⟨by simp [htokens]; omega, by simp [htokens], by simp⟩
    · rw [if_neg hrest] at hitok
      rw [hitok] at hn
      refine ⟨?_, by rw [hitok]; rfl, by simp⟩
      unfold remaining at hn
      simp only [List.length_nil]
      split at hn <;> omega
  · exact absurd hkey hne

theorem reading_closed {slots : ℕ} (hslots : 2 ≤ slots) {path : CString} {s : Stop}
    (hs : s ∈ stops slots path) {lits : List CString} (hne : lits ≠ [])
    (hlits : ∀ l ∈ lits, Fields.Proper '/' l) (hkey : s.key = Fields.closed '/' lits) {n : ℕ}
    (hn : remaining (pathTokens slots path) s.itok = n) :
    Reading slots path s lits n ∧ 0 < n := by
  have hcount : s.key.count '/' = lits.length := by
    rw [hkey]
    exact Fields.count_closed '/' lits (fun l hl => (hlits l hl).2)
  have hlast : s.key.getLast? = some '/' := by
    rcases List.eq_nil_or_concat' lits with rfl | ⟨init, last, rfl⟩
    · exact absurd rfl hne
    · simp [hkey, Fields.closed_append, Fields.closed_cons]
  rcases mem_stops hslots hs with ⟨hnil, -⟩ | ⟨-, hpath, hspec⟩
  · simp [hnil] at hlast
  · have hitok := hspec.slash hlast
    have hopen := hspec.open_ (List.mem_of_getLast? hlast)
    rw [hcount, Nat.zero_add] at hitok hopen
    unfold remaining at hn
    rw [if_neg (by omega)] at hn
    refine ⟨⟨by omega, by rw [hitok], ?_⟩, by omega⟩
    exact closed_isPrefix_tokens hlits (hkey ▸ hpath)

theorem reading_full {slots : ℕ} (hslots : 2 ≤ slots) {path : CString} {s : Stop}
    (hs : s ∈ stops slots path) {init : List CString} {last : CString}
    (hlits : ∀ l ∈ init ++ [last], Fields.Proper '/' l)
    (hkey : s.key = Fields.closed '/' init ++ last)
    (hn : remaining (pathTokens slots path) s.itok = 0) :
    Reading slots path s (init ++ [last]) 0 := by
  have hinit : ∀ l ∈ init, Fields.Proper '/' l := fun l hl => hlits l (by simp [hl])
  obtain ⟨hne, hslash⟩ := hlits last (by simp)
  obtain ⟨c, hc⟩ : ∃ c, last.getLast? = some c := ⟨_, List.getLast?_eq_some_getLast hne⟩
  have hc' : c ≠ '/' := fun h => hslash (h ▸ List.mem_of_getLast? hc)
  have hcount : s.key.count '/' = init.length := by
    rw [hkey, List.count_append, List.count_eq_zero_of_not_mem hslash, Nat.add_zero]
    exact Fields.count_closed '/' init (fun l hl => (hinit l hl).2)
  have hlast : s.key.getLast? ≠ some '/' := by
    rw [hkey, List.getLast?_append, hc]
    simpa using hc'
  rcases mem_stops hslots hs with ⟨hnil, -⟩ | ⟨-, hpath, hspec⟩
  · simp [hkey, hne] at hnil
  · -- the key holds a character other than a slash, so there is a token
    have htokens : 0 < (pathTokens slots path).length := by
      have hmem : c ∈ path := by
        apply List.mem_of_mem_tail
        apply hpath.subset
        simp [hkey, List.mem_of_getLast? hc]
      have hpos := List.length_pos_iff.mpr (Fields.tokens_ne_nil '/' path hmem hc')
      rw [pathTokens_eq, List.length_take]
      omega
    have hopen : init.length < (pathTokens slots path).length := by
      by_cases hm : '/' ∈ s.key
      · simpa [hcount] using hspec.open_ hm
      · rw [List.count_eq_zero_of_not_mem hm] at hcount
        omega
    unfold remaining at hn
    rw [if_neg (by omega)] at hn
    by_cases hend : s.key = path.tail
    · have hitok := hspec.final hlast hend
      rw [hcount, Nat.zero_add] at hitok
      have hlen : (init ++ [last]).length = init.length + 1 := by simp
      refine ⟨by omega, by rw [hitok, hlen], ?_⟩
      intro hhead
      obtain ⟨rest, rfl⟩ := List.head?_eq_some_iff.mp hhead
      rw [List.tail_cons] at hend
      rw [← hend, hkey, Fields.tokens_sep_cons, Fields.tokens_closed_append '/' init last hinit,
        Fields.tokens_proper '/' last ⟨hne, hslash⟩]
    · have hitok := hspec.inner hlast hend
      omega

/-- What an answering stop has read of the pattern whose handler answers. A literal
pattern with a final slash never answers. -/
theorem Stop.Answers.reading {slots : ℕ} (hslots : 2 ≤ slots) {path : CString} {s : Stop}
    (hs : s ∈ stops slots path) {m : Method} {e : PatternRegistration η}
    (h : s.Answers (pathTokens slots path) m e.handler) :
    Reading slots path s e.pattern.lead e.pattern.names.length ∧ ¬ e.pattern.Closed := by
  obtain ⟨-, hpfx, hn⟩ := h
  change e.pattern.pfx = '/' :: s.key at hpfx
  change remaining _ _ = ((e.pattern.names.length : ℕ) : ℤ) at hn
  have hproper := Segment.lead_proper e.pattern.segs
  rcases e.pattern.pfx_cases with ⟨-, hshape⟩ | ⟨hnames, hslash, init, last, hlead, hshape⟩
  · have hkey : s.key = Fields.closed '/' e.pattern.lead := by
      rw [hshape] at hpfx
      exact (List.cons.inj hpfx).2.symm
    by_cases hnil : e.pattern.lead = []
    · rw [hnil] at hkey ⊢
      refine ⟨reading_root hslots hs hkey hn, ?_⟩
      intro hclosed
      exact hclosed.2.2 ((e.pattern.lead_eq_nil_iff hclosed.2.1).mp hnil)
    · obtain ⟨hread, hpos⟩ := reading_closed hslots hs hnil hproper hkey hn
      refine ⟨hread, ?_⟩
      intro hclosed
      simp [hclosed.2.1] at hpos
  · have hkey : s.key = Fields.closed '/' init ++ last := by
      rw [hshape] at hpfx
      exact (List.cons.inj hpfx).2.symm
    rw [hnames] at hn ⊢
    rw [hlead]
    refine ⟨reading_full hslots hs (by rw [← hlead]; exact hproper) hkey hn, ?_⟩
    intro hclosed
    simp [hclosed.1] at hslash

end Router

/-! ## Matching -/

namespace Pattern

/-- The literals behind the first parameter stand at their places in the path. -/
def LateLiterals (p : Pattern) (segments : List CString) : Prop :=
  ∀ (i : ℕ) (w : Word), p.lead.length ≤ i → p.segs[i]? = some (.lit w) →
    segments[i]? = some w.text

/-- The path starts with a slash, and its segments fit into the token array and the
pattern has no literal behind a parameter, or they do not fit and the pattern has as many,
with its late literals in their places. -/
def SoundFor (p : Pattern) (path : CString) : Prop :=
  path.head? = some '/' ∧
  (((Fields.tokens '/' path).length ≤ 15 ∧ p.ParamsLast) ∨
    (15 < (Fields.tokens '/' path).length ∧
      p.segs.length = (Fields.tokens '/' path).length ∧
      p.LateLiterals (Fields.tokens '/' path)))

theorem matches_iff_lateLiterals (p : Pattern) (path : CString)
    (hhead : path.head? = some '/') (hlead : p.lead <+: Fields.tokens '/' path) :
    p.Matches path ↔ p.segs.length = (Fields.tokens '/' path).length ∧
      p.LateLiterals (Fields.tokens '/' path) := by
  have htoks : ∀ t ∈ Fields.tokens '/' path, t ≠ [] :=
    fun t ht => (Fields.mem_tokens_proper '/' path t ht).1
  rw [Matches, Segment.forall₂_matches_iff p.segs _ htoks]
  constructor
  · rintro ⟨-, hlen, hlits⟩
    exact ⟨hlen, fun i w _ hw => hlits i w hw⟩
  · rintro ⟨hlen, hlate⟩
    refine ⟨hhead, hlen, ?_⟩
    intro i w hw
    by_cases hi : i < p.lead.length
    · obtain ⟨more, hmore⟩ := hlead
      rw [← hmore, List.getElem?_append_left hi]
      exact Segment.lead_getElem p.segs hi hw
    · exact hlate i w (Nat.le_of_not_lt hi) hw

theorem matches_iff_paramsLast (p : Pattern) (path : CString) (hhead : path.head? = some '/')
    (hlead : p.lead <+: Fields.tokens '/' path)
    (hcount : p.lead.length + p.names.length = (Fields.tokens '/' path).length) :
    p.Matches path ↔ p.ParamsLast := by
  have hlast : p.ParamsLast ↔ p.lead.length + p.names.length = p.segs.length :=
    Segment.paramsLast_iff p.segs
  rw [p.matches_iff_lateLiterals path hhead hlead]
  constructor
  · rintro ⟨hlen, -⟩
    exact hlast.mpr (hcount.trans hlen.symm)
  · intro h
    refine ⟨(hlast.mp h).symm.trans hcount, ?_⟩
    intro i w hi hw
    exact absurd (Segment.lit_lt_length_lead p.segs h hw) (Nat.not_lt_of_le hi)

end Pattern

/-! ## Soundness -/

/-- The registration of a pattern with a handler that carries it. The router does not look
at handlers, so the label tells which pattern a returned handler was registered with. -/
def PatternRegistration.labelled (e : PatternRegistration η) :
    PatternRegistration (Pattern × η) :=
  { e with h := (e.pattern, e.h) }

/-- A path that matches, with one nonempty value for each parameter. -/
structure SoundMatch (p : Pattern) (path : CString) (params : List CString) : Prop where
  segments : p.Matches path
  count : params.length = p.names.length
  bound : ∀ value ∈ params, value ≠ []

namespace Router

theorem mem_pathTokens_ne_nil {slots : ℕ} {path tok : CString}
    (h : tok ∈ pathTokens slots path) : tok ≠ [] := by
  rw [pathTokens_eq] at h
  exact (Fields.mem_tokens_proper '/' path tok (List.mem_of_mem_take h)).1

/-- The handlers of a router filled with patterns are those of the patterns. -/
theorem registered_patterns {es : List (PatternRegistration η)} {r : Router η}
    (hr : new.addAll (es.map PatternRegistration.toRegistration) = some r)
    {rh : RouteHandler η}
    (hrh : rh ∈ registered (es.map PatternRegistration.toRegistration)) :
    ∃ e ∈ es, rh = e.handler := by
  rcases mem_foldl_tableAdd hrh with hnil | ⟨e', he', hcompile⟩
  · simp at hnil
  · obtain ⟨e, he, rfl⟩ := List.mem_map.mp he'
    have hbound := addAll_bound hr _ he'
    have hn : e.pattern.names.length < 255 := by
      have hlen : _ < 32 := e.length_split_text ▸ hbound
      omega
    rw [e.compile_toRegistration hn] at hcompile
    exact ⟨e, he, (Option.some.inj hcompile).symm⟩

theorem length_pathTokens (path : CString) :
    (pathTokens HttpRequest.resolveSlots path).length =
      min 15 (Fields.tokens '/' path).length := by
  rw [pathTokens_eq, List.length_take]
  rfl

theorem Reading.matches_iff {path : CString} {s : Stop} {p : Pattern}
    (h : Reading HttpRequest.resolveSlots path s p.lead p.names.length) :
    p.Matches path ↔ p.SoundFor path := by
  have hcount := h.count
  rw [length_pathTokens] at hcount
  unfold Pattern.SoundFor
  by_cases hhead : path.head? = some '/'
  · by_cases hshort : (Fields.tokens '/' path).length ≤ 15
    · rw [p.matches_iff_paramsLast path hhead (h.lead hhead) (by omega)]
      simp [hhead, hshort, Nat.not_lt_of_le hshort]
    · rw [p.matches_iff_lateLiterals path hhead (h.lead hhead)]
      simp [hhead, hshort, Nat.lt_of_not_le hshort]
  · simp [Pattern.Matches, hhead]

/-- The tokens left at the stop are one value for each parameter. -/
theorem Reading.length_params {slots : ℕ} {path : CString} {s : Stop} {lits : List CString}
    {n : ℕ} (h : Reading slots path s lits n) :
    (((pathTokens slots path).drop s.itok).take n).length = n := by
  have hcount := h.count
  rw [h.rest, List.length_take, List.length_drop]
  omega

/-- A handler returned for a path was registered with a pattern the path matches exactly
when the path is one its pattern is sound for. -/
theorem find_sound_iff {es : List (PatternRegistration η)} {r : Router (Pattern × η)}
    (hr : new.addAll (es.map (fun e => e.labelled.toRegistration)) = some r) (m : Method)
    (path : CString) {found : Found (Pattern × η)}
    (hfound : r.find m path HttpRequest.resolveSlots = some found) :
    SoundMatch found.handler.h.1 path found.params ↔ found.handler.h.1.SoundFor path := by
  have hslots : 2 ≤ HttpRequest.resolveSlots := by decide
  have hr' : new.addAll ((es.map PatternRegistration.labelled).map
      PatternRegistration.toRegistration) = some r := by
    rw [List.map_map]
    exact hr
  obtain ⟨s, hs, hmem, hanswers, hparams, -⟩ :=
    ((addAll_refines new_represents _ hr').find_eq_some_iff hslots m path found).mp hfound
  obtain ⟨e', he', hhandler⟩ := registered_patterns hr' hmem
  obtain ⟨e, -, rfl⟩ := List.mem_map.mp he'
  rw [hhandler] at hanswers hparams ⊢
  obtain ⟨hread, -⟩ := hanswers.reading hslots hs
  change SoundMatch e.labelled.pattern _ _ ↔ e.labelled.pattern.SoundFor _
  rw [← Reading.matches_iff hread]
  refine ⟨SoundMatch.segments, ?_⟩
  intro h
  refine ⟨h, ?_, ?_⟩
  · rw [hparams]
    exact hread.length_params
  · intro value hvalue
    rw [hparams] at hvalue
    exact mem_pathTokens_ne_nil (List.mem_of_mem_drop (List.mem_of_mem_take hvalue))

/-- `GET /users/:name`. -/
def getUser : PatternRegistration Unit :=
  ⟨.GET, ⟨[.lit (.of "users"), .param (.of "name")], false⟩, (), none⟩

theorem find_sound_users :
    ∃ (r : Router (Pattern × Unit)) (found : Found (Pattern × Unit)),
      new.addAll [getUser.labelled.toRegistration] = some r ∧
      r.find .GET "/users/joe".toList HttpRequest.resolveSlots = some found ∧
      SoundMatch found.handler.h.1 "/users/joe".toList found.params := by
  refine ⟨_, _, rfl, rfl, ?_⟩
  apply (@find_sound_iff Unit [getUser] _ rfl .GET _ _ rfl).mpr
  refine ⟨rfl, Or.inl ⟨by decide, ?_⟩⟩
  exact .cons (by simp [Segment.isParam]) (.cons (by simp) .nil)

/-- `GET /a/:p/b`. -/
def getLate : PatternRegistration Unit :=
  ⟨.GET, ⟨[.lit (.of "a"), .param (.of "p"), .lit (.of "b")], false⟩, (), none⟩

theorem find_ignores_late_literal :
    ∃ (r : Router (Pattern × Unit)) (found : Found (Pattern × Unit)),
      new.addAll [getLate.labelled.toRegistration] = some r ∧
      r.find .GET "/a/x".toList HttpRequest.resolveSlots = some found ∧
      ¬ SoundMatch found.handler.h.1 "/a/x".toList found.params := by
  refine ⟨_, _, rfl, rfl, ?_⟩
  intro h
  have hlen := h.segments.2.length_eq
  revert hlen
  decide

end Router

end Sparc
