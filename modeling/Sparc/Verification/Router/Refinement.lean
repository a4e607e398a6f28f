import Sparc.Verification.Router.Completeness

/-! # Lookup against a reference

For patterns with their parameters at the end, no two of which conflict, lookup picks the
registration with the fewest literals among those that accept the path.
-/

namespace Sparc

variable {η : Type*}

namespace PatternRegistration

/-- The same method, the same literals and equally many parameters. -/
def Conflict (a b : PatternRegistration η) : Prop :=
  a.m = b.m ∧ a.pattern.lead = b.pattern.lead ∧
    a.pattern.names.length = b.pattern.names.length

/-- Literals, then at most thirty parameters, and no final slash. -/
structure Plain (e : PatternRegistration η) : Prop where
  paramsLast : e.pattern.ParamsLast
  noSlash : e.pattern.slash = false
  few : e.pattern.names.length ≤ 30

/-- The registration that serves a request: it accepts the segments, and no other one for
the method does with fewer literals. -/
structure Serves (es : List (PatternRegistration η)) (m : Method) (segments : List CString)
    (e : PatternRegistration η) : Prop where
  mem : e ∈ es
  method : e.m = m
  accepts : e.pattern.Accepts segments
  least : ∀ e' ∈ es, e'.m = m → e'.pattern.Accepts segments →
    e.pattern.lead.length ≤ e'.pattern.lead.length

/-- What serves a request does not depend on the order of registration. -/
theorem Serves.perm {es es' : List (PatternRegistration η)} {m : Method}
    {segments : List CString} {e : PatternRegistration η} (h : Serves es m segments e)
    (hperm : es.Perm es') : Serves es' m segments e :=
  ⟨hperm.mem_iff.mp h.mem, h.method, h.accepts,
    fun e' he' => h.least e' (hperm.mem_iff.mpr he')⟩

theorem conflict_of_clash {a b : PatternRegistration η} (h : Clash a.handler b.handler) :
    Conflict a b := by
  obtain ⟨hm, hpfx, hn⟩ := h
  refine ⟨hm, ?_, hn⟩
  rw [← a.pattern.tokens_pfx, ← b.pattern.tokens_pfx]
  exact congrArg (Fields.tokens '/') hpfx

theorem Plain.open_ {e : PatternRegistration η} (h : e.Plain) : ¬ e.pattern.Closed := by
  intro hclosed
  have := h.noSlash.symm.trans hclosed.1
  cases this

end PatternRegistration

/-! ## Registering patterns without conflicts -/

namespace Router

theorem foldl_tableAdd (es : List (PatternRegistration η)) (table : List (RouteHandler η))
    (hplain : ∀ e ∈ es, e.Plain)
    (hfree : es.Pairwise (fun a b => ¬ PatternRegistration.Conflict a b))
    (htable : ∀ old ∈ table, ∀ e ∈ es, ¬ Clash old e.handler) :
    (es.map PatternRegistration.toRegistration).foldl (fun t e => (tableAdd t e).1) table =
      table ++ es.map PatternRegistration.handler := by
  induction es generalizing table with
  | nil => simp
  | cons e es ih =>
      obtain ⟨hhead, htail⟩ := List.pairwise_cons.mp hfree
      have hn : e.pattern.names.length < 255 :=
        Nat.lt_of_le_of_lt (hplain e (by simp)).few (by decide)
      have hstep : (tableAdd table e.toRegistration).1 = table ++ [e.handler] := by
        rw [tableAdd, e.compile_toRegistration hn]
        simp only
        rw [if_neg]
        rintro ⟨old, hold, hclash⟩
        exact htable old hold e (by simp) hclash
      rw [List.map_cons, List.foldl_cons, hstep, ih _ (fun x hx => hplain x (by simp [hx])) htail]
      · simp
      · intro old hold x hx
        rcases List.mem_append.mp hold with hold | hold
        · exact htable old hold x (by simp [hx])
        · rw [List.mem_singleton.mp hold]
          exact fun hclash => hhead x hx (PatternRegistration.conflict_of_clash hclash)

/-- Without conflicts every registration is accepted. -/
theorem addAll_plain (es : List (PatternRegistration η)) (hplain : ∀ e ∈ es, e.Plain)
    (hfree : es.Pairwise (fun a b => ¬ PatternRegistration.Conflict a b)) :
    ∃ r, new.addAll (es.map PatternRegistration.toRegistration) = some r ∧
      Represents r (es.map PatternRegistration.handler) := by
  obtain ⟨r, hr⟩ := addAll_isSome new (es.map PatternRegistration.toRegistration) (by
    intro x hx
    obtain ⟨e, he, rfl⟩ := List.mem_map.mp hx
    have hfew := (hplain e he).few
    have hlen := e.length_split_text
    change (koreSplitString ':' addSlots e.pattern.text).length < 32
    omega)
  refine ⟨r, hr, ?_⟩
  have h := addAll_refines new_represents _ hr
  rw [foldl_tableAdd es [] hplain hfree (by simp)] at h
  simpa using h

/-! ## Order of prefixes -/

theorem length_closed (lits : List CString) :
    ('/' :: Fields.closed '/' lits).length = (Fields.opened '/' lits).length + 1 := by
  have h := congrArg List.length (Fields.opened_append_sep '/' lits [])
  simpa using h.symm

theorem length_opened_le_pfx (p : Pattern) :
    (Fields.opened '/' p.lead).length ≤ p.pfx.length := by
  unfold Pattern.pfx
  split
  · rw [length_closed]
    exact Nat.le_succ _
  · exact Nat.le_refl _

/-- Among patterns that accept the same segments, more literals give a longer prefix. -/
theorem length_pfx_lt {p q : Pattern} {segments : List CString}
    (hp : p.Accepts segments) (hq : q.Accepts segments)
    (h : p.lead.length < q.lead.length) : p.pfx.length < q.pfx.length := by
  obtain ⟨more, hmore⟩ := List.prefix_of_prefix_length_le hp.1 hq.1 (Nat.le_of_lt h)
  have hnames : p.names ≠ [] := by
    intro hnil
    have h1 := hp.2
    have h2 := hq.2
    simp only [hnil, List.length_nil] at h1
    omega
  have hpfx : p.pfx.length = (Fields.opened '/' p.lead).length + 1 := by
    rw [← length_closed, Pattern.pfx, if_pos (Or.inl hnames)]
  have hlonger : (Fields.opened '/' p.lead).length + 2 ≤
      (Fields.opened '/' q.lead).length := by
    cases more with
    | nil =>
        rw [← hmore] at h
        simp at h
    | cons next others =>
        have hproper := Segment.lead_proper q.segs next
          (by change next ∈ q.lead; simp [← hmore])
        have hpos := List.length_pos_iff.mpr hproper.1
        rw [← hmore, Fields.opened_append, Fields.opened_cons]
        simp only [List.length_append, List.length_cons]
        omega
  have hle := length_opened_le_pfx q
  omega

/-- The prefix depends on the literals and on the number of parameters only. -/
theorem pfx_congr {p q : Pattern} (hp : p.ParamsLast) (hq : q.ParamsLast)
    (hslash : p.slash = q.slash) (hlead : p.lead = q.lead)
    (hnames : p.names.length = q.names.length) : p.pfx = q.pfx := by
  have hp' : p.lead.length + p.names.length = p.segs.length :=
    (Segment.paramsLast_iff p.segs).mp hp
  have hq' : q.lead.length + q.names.length = q.segs.length :=
    (Segment.paramsLast_iff q.segs).mp hq
  have hsegs : p.segs.length = q.segs.length := by rw [← hp', ← hq', hlead, hnames]
  simp only [Pattern.pfx, ne_eq, ← List.length_eq_zero_iff, hnames, hsegs, hslash, hlead]

/-- Among patterns that accept the same segments, the number of literals orders the
prefixes. -/
theorem length_pfx_le {p q : Pattern} {segments : List CString} (hp : p.ParamsLast)
    (hq : q.ParamsLast) (hslash : p.slash = q.slash) (hpa : p.Accepts segments)
    (hqa : q.Accepts segments) (h : p.lead.length ≤ q.lead.length) :
    p.pfx.length ≤ q.pfx.length := by
  rcases Nat.lt_or_eq_of_le h with hless | heq
  · exact Nat.le_of_lt (length_pfx_lt hpa hqa hless)
  · have hlead : p.lead = q.lead :=
      (List.prefix_of_prefix_length_le hpa.1 hqa.1 h).eq_of_length heq
    have hnames : p.names.length = q.names.length := by
      have hpn := hpa.2
      have hqn := hqa.2
      omega
    rw [pfx_congr hp hq hslash hlead hnames]

/-! ## Lookup -/

theorem accepts_of_answers {m : Method} {slash : Bool}
    {segments : List CString} (hproper : ∀ s ∈ segments, Fields.Proper '/' s)
    (hlen : segments.length < HttpRequest.resolveSlots) {s : Stop}
    (hs : s ∈ stops HttpRequest.resolveSlots (requestPath segments slash))
    {e : PatternRegistration η}
    (h : s.Answers (pathTokens HttpRequest.resolveSlots (requestPath segments slash)) m e.handler) :
    e.m = m ∧ e.pattern.Accepts segments ∧
      (segments.drop s.itok).take e.pattern.names.length =
        segments.drop e.pattern.lead.length := by
  obtain ⟨hread, -⟩ := h.reading (by decide) hs
  have hcount := hread.count
  have hlead := hread.lead (requestPath_head segments slash)
  have hrest := hread.rest
  rw [pathTokens_requestPath segments slash hproper hlen] at hcount hrest
  rw [tokens_requestPath segments slash hproper] at hlead
  refine ⟨h.1, ⟨hlead, hcount⟩, ?_⟩
  rw [hrest]
  apply List.take_of_length_le
  rw [List.length_drop]
  omega

section Reference

variable {es : List (PatternRegistration η)} {r : Router η} {segments : List CString}

theorem Represents.exists_answer_plain (hplain : ∀ e ∈ es, e.Plain)
    (hproper : ∀ s ∈ segments, Fields.Proper '/' s)
    (hlen : segments.length < HttpRequest.resolveSlots) {e : PatternRegistration η}
    (he : e ∈ es) (haccepts : e.pattern.Accepts segments) :
    ∃ s ∈ stops HttpRequest.resolveSlots (requestPath segments false),
      s.Answers (pathTokens HttpRequest.resolveSlots (requestPath segments false)) e.m
        e.handler := by
  have h := exists_answer e hproper hlen haccepts (hplain e he).open_
  rwa [(hplain e he).noSlash] at h

/-- Lookup returns the registration that serves the request, with the segments behind its
literals. -/
theorem Represents.find_eq_some_iff_serves
    (hr : Represents r (es.map PatternRegistration.handler)) (hplain : ∀ e ∈ es, e.Plain)
    (m : Method) (hproper : ∀ s ∈ segments, Fields.Proper '/' s)
    (hlen : segments.length < HttpRequest.resolveSlots) (found : Found η) :
    r.find m (requestPath segments false) HttpRequest.resolveSlots = some found ↔
      ∃ e, PatternRegistration.Serves es m segments e ∧
        found = ⟨e.handler, segments.drop e.pattern.lead.length⟩ := by
  have htokens : pathTokens HttpRequest.resolveSlots (requestPath segments false) = segments :=
    pathTokens_requestPath segments false hproper hlen
  rw [hr.find_eq_some_iff (by decide)]
  constructor
  · rintro ⟨s, hs, hmem, hanswers, hparams, hfirst⟩
    obtain ⟨e, he, hhandler⟩ := List.mem_map.mp hmem
    rw [← hhandler] at hanswers hparams
    obtain ⟨hm, haccepts, hdrop⟩ := accepts_of_answers hproper hlen hs hanswers
    refine ⟨e, ⟨he, hm, haccepts, ?_⟩, ?_⟩
    · intro e' he' hm' haccepts'
      by_contra hlt
      obtain ⟨s', hs', hanswers'⟩ :=
        Represents.exists_answer_plain hplain hproper hlen he' haccepts'
      rw [hm'] at hanswers'
      -- fewer literals give an earlier stop, which would have answered first
      have hshorter := length_pfx_lt haccepts' haccepts (Nat.lt_of_not_le hlt)
      have hkey : e.pattern.pfx = '/' :: s.key := hanswers.2.1
      have hkey' : e'.pattern.pfx = '/' :: s'.key := hanswers'.2.1
      rw [hkey, hkey'] at hshorter
      exact hfirst s' hs' (Nat.lt_of_succ_lt_succ hshorter) e'.handler
        (List.mem_map_of_mem he') hanswers'
    · rw [htokens] at hparams
      rw [← hdrop, hhandler]
      exact congrArg (Found.mk found.handler) hparams
  · rintro ⟨e, hserves, rfl⟩
    obtain ⟨s, hs, hanswers⟩ :=
      Represents.exists_answer_plain hplain hproper hlen hserves.mem hserves.accepts
    rw [hserves.method] at hanswers
    refine ⟨s, hs, List.mem_map_of_mem hserves.mem, hanswers, ?_, ?_⟩
    · rw [htokens]
      exact (accepts_of_answers hproper hlen hs hanswers).2.2.symm
    · intro s' hs' hshorter rh hrh hanswers'
      obtain ⟨e', he', rfl⟩ := List.mem_map.mp hrh
      obtain ⟨hm', haccepts', -⟩ := accepts_of_answers hproper hlen hs' hanswers'
      have hle := hserves.least e' he' hm' haccepts'
      have hkey : e.pattern.pfx = '/' :: s.key := hanswers.2.1
      have hkey' : e'.pattern.pfx = '/' :: s'.key := hanswers'.2.1
      have hlt : e'.pattern.pfx.length < e.pattern.pfx.length := by
        rw [hkey, hkey']
        exact Nat.succ_lt_succ hshorter
      have hpe := hplain e hserves.mem
      have hpe' := hplain e' he'
      exact Nat.not_le_of_lt hlt (length_pfx_le hpe.paramsLast hpe'.paramsLast
        (hpe.noSlash.trans hpe'.noSlash.symm) hserves.accepts haccepts' hle)

theorem Represents.find_eq_none_iff_accepts
    (hr : Represents r (es.map PatternRegistration.handler)) (hplain : ∀ e ∈ es, e.Plain)
    (m : Method) (hproper : ∀ s ∈ segments, Fields.Proper '/' s)
    (hlen : segments.length < HttpRequest.resolveSlots) :
    r.find m (requestPath segments false) HttpRequest.resolveSlots = none ↔
      ∀ e ∈ es, e.m = m → ¬ e.pattern.Accepts segments := by
  rw [hr.find_eq_none_iff]
  constructor
  · intro hnone e he hm haccepts
    obtain ⟨s, hs, hanswers⟩ :=
      Represents.exists_answer_plain hplain hproper hlen he haccepts
    rw [hm] at hanswers
    exact hnone s hs e.handler (List.mem_map_of_mem he) hanswers
  · intro hnone s hs rh hrh hanswers
    obtain ⟨e, he, rfl⟩ := List.mem_map.mp hrh
    obtain ⟨hm, haccepts, -⟩ := accepts_of_answers hproper hlen hs hanswers
    exact hnone e he hm haccepts

end Reference

end Router

/-! ## Parameters -/

/-- Whether the segment is the parameter of this name. -/
def Segment.isCalled (name : CString) : Segment → Bool
  | .lit _ => false
  | .param w => w.text == name

theorem Segment.findIdx_isCalled_of_params (name : CString) (segs : List Segment)
    (h : ∀ s ∈ segs, s.isParam = true) :
    segs.findIdx? (isCalled name) = (names segs).findIdx? (· == name) := by
  induction segs with
  | nil => rfl
  | cons s segs ih =>
      cases s with
      | lit w => simpa [isParam] using h (.lit w) (by simp)
      | param w =>
          have hrest := ih (fun s hs => h s (by simp [hs]))
          by_cases hw : w.text = name <;>
            simp [names, List.findIdx?_cons, isCalled, hw, hrest]

/-- The place of a parameter in the pattern and its place among the parameters. -/
theorem Segment.findIdx_isCalled (name : CString) (segs : List Segment)
    (hlast : segs.Pairwise (fun a b => a.isParam = true → b.isParam = true)) :
    segs.findIdx? (isCalled name) =
      ((names segs).findIdx? (· == name)).map (fun i => (lead segs).length + i) := by
  induction segs with
  | nil => rfl
  | cons s segs ih =>
      obtain ⟨hhead, htail⟩ := List.pairwise_cons.mp hlast
      cases s with
      | lit w =>
          simp only [List.findIdx?_cons, isCalled, Bool.false_eq_true, ite_false, ih htail,
            Option.map_map, names, lead, List.length_cons]
          congr 1
          funext i
          simp only [Function.comp_apply]
          omega
      | param w =>
          have hall : ∀ s ∈ Segment.param w :: segs, s.isParam = true := by
            intro s hs
            rcases List.mem_cons.mp hs with rfl | hs
            · rfl
            · exact hhead s hs rfl
          rw [findIdx_isCalled_of_params name _ hall]
          simp [lead]

theorem range_find_eq_findIdx (names : List CString) (name : CString) :
    (List.range names.length).find? (fun i => names[i]? == some name) =
      names.findIdx? (· == name) := by
  apply Option.ext
  intro i
  rw [List.find?_range_eq_some, List.findIdx?_eq_some_iff_getElem]
  constructor
  · rintro ⟨hfound, hmem, hbefore⟩
    have hi : i < names.length := List.mem_range.mp hmem
    refine ⟨hi, by simpa [hi] using hfound, ?_⟩
    intro j hj
    simpa [Nat.lt_trans hj hi] using hbefore j hj
  · rintro ⟨hi, hfound, hbefore⟩
    refine ⟨by simpa [hi] using hfound, List.mem_range.mpr hi, ?_⟩
    intro j hj
    simpa [Nat.lt_trans hj hi] using hbefore j hj

namespace HttpRequest

theorem resolveRoute_new (m : Method) (path : CString) (r : Router η) {found : Router.Found η}
    (h : r.find m path resolveSlots = some found) :
    (new m path : HttpRequest η).resolveRoute r =
      { (new m path : HttpRequest η) with
        tokenized_ := true, hanadler_ := some found.handler, params_ := found.params } := by
  simp [resolveRoute, new, h]

/-- Reading a parameter after routing: the value at the place of the first parameter of
that name. -/
theorem param_resolved (e : PatternRegistration η) (hlast : e.pattern.ParamsLast)
    {segments : List CString} (haccepts : e.pattern.Accepts segments)
    (req : HttpRequest η) (hhandler : req.hanadler_ = some e.handler)
    (hparams : req.params_ = segments.drop e.pattern.lead.length) (name : CString) :
    req.param name = (e.pattern.segs.findIdx? (Segment.isCalled name)).bind
      (fun i => segments[i]?) ∧ (req.param name = none ↔ name ∉ e.pattern.names) := by
  have hidx : req.param name = (e.pattern.names.findIdx? (· == name)).bind
      (fun i => segments[e.pattern.lead.length + i]?) := by
    simp only [param, hhandler, Option.bind_some, hparams, List.getElem?_drop]
    rw [← range_find_eq_findIdx]
    rfl
  refine ⟨?_, ?_⟩
  · rw [hidx, Segment.findIdx_isCalled name e.pattern.segs hlast, Option.bind_map]
    rfl
  · rw [hidx]
    constructor
    · intro hnone hmem
      have hsome : (e.pattern.names.findIdx? (· == name)).isSome = true := by
        rw [List.findIdx?_isSome]
        exact List.any_eq_true.mpr ⟨name, hmem, beq_self_eq_true name⟩
      obtain ⟨i, hi⟩ := Option.isSome_iff_exists.mp hsome
      have hbound := (List.findIdx?_eq_some_iff_getElem.mp hi).1
      have hcount := haccepts.2
      rw [hi, Option.bind_some, List.getElem?_eq_none_iff] at hnone
      omega
    · intro hmem
      have hnone : e.pattern.names.findIdx? (· == name) = none := by
        rw [List.findIdx?_eq_none_iff]
        intro x hx
        simp only [beq_eq_false_iff_ne]
        exact fun h => hmem (h ▸ hx)
      rw [hnone, Option.bind_none]

end HttpRequest

/-! ## Refinement -/

namespace Router

theorem find_refines (es : List (PatternRegistration η)) (hplain : ∀ e ∈ es, e.Plain)
    (hfree : es.Pairwise (fun a b => ¬ PatternRegistration.Conflict a b)) (m : Method)
    (segments : List CString) (hproper : ∀ s ∈ segments, Fields.Proper '/' s)
    (hlen : segments.length ≤ 15) :
    ∃ r, new.addAll (es.map PatternRegistration.toRegistration) = some r ∧
      (∀ found, r.find m (requestPath segments false) HttpRequest.resolveSlots = some found ↔
        ∃ e, PatternRegistration.Serves es m segments e ∧
          found = ⟨e.handler, segments.drop e.pattern.lead.length⟩) ∧
      (r.find m (requestPath segments false) HttpRequest.resolveSlots = none ↔
        ∀ e ∈ es, e.m = m → ¬ e.pattern.Accepts segments) ∧
      (∀ e, PatternRegistration.Serves es m segments e → ∀ name,
        let req := (HttpRequest.new m (requestPath segments false)).resolveRoute r
        req.param name = (e.pattern.segs.findIdx? (Segment.isCalled name)).bind
          (fun i => segments[i]?) ∧
        (req.param name = none ↔ name ∉ e.pattern.names)) ∧
      (∀ (es' : List (PatternRegistration η)) (r' : Router η), es'.Perm es →
        new.addAll (es'.map PatternRegistration.toRegistration) = some r' →
        r'.find m (requestPath segments false) HttpRequest.resolveSlots =
          r.find m (requestPath segments false) HttpRequest.resolveSlots) := by
  have hshort : segments.length < HttpRequest.resolveSlots := Nat.lt_succ_of_le hlen
  obtain ⟨r, hr, hrep⟩ := addAll_plain es hplain hfree
  have hfind := hrep.find_eq_some_iff_serves hplain m hproper hshort
  refine ⟨r, hr, hfind, hrep.find_eq_none_iff_accepts hplain m hproper hshort, ?_, ?_⟩
  · intro e hserves name
    have hfound := (hfind _).mpr ⟨e, hserves, rfl⟩
    have hresolved := HttpRequest.resolveRoute_new m (requestPath segments false) r hfound
    apply HttpRequest.param_resolved e (hplain e hserves.mem).paramsLast hserves.accepts
    · rw [hresolved]
    · rw [hresolved]
  · intro es' r' hperm hr'
    have hplain' : ∀ e ∈ es', e.Plain := fun e he => hplain e (hperm.mem_iff.mp he)
    have hfree' : es'.Pairwise (fun a b => ¬ PatternRegistration.Conflict a b) := by
      apply (hperm.pairwise_iff ?_).mpr hfree
      intro a b hab hba
      exact hab ⟨hba.1.symm, hba.2.1.symm, hba.2.2.symm⟩
    obtain ⟨r₁, hr₁, hrep'⟩ := addAll_plain es' hplain' hfree'
    obtain rfl : r₁ = r' := Option.some.inj (hr₁.symm.trans hr')
    have hsame : ∀ e, PatternRegistration.Serves es' m segments e ↔
        PatternRegistration.Serves es m segments e :=
      fun e => ⟨fun h => h.perm hperm, fun h => h.perm hperm.symm⟩
    apply Option.ext
    intro found
    rw [hrep'.find_eq_some_iff_serves hplain' m hproper hshort, hfind]
    simp only [hsame]

/-- `GET /users/joe`. -/
def getJoe : PatternRegistration Unit :=
  ⟨.GET, ⟨getUser.pattern.segs.take 1 ++ [.lit (.of "joe")], false⟩, (), none⟩

/-- `GET /:kind/:id`. -/
def getAny : PatternRegistration Unit :=
  ⟨.GET, ⟨[.param (.of "kind"), .param (.of "id")], false⟩, (), none⟩

/-- Three prefixes, one within the other, in two orders: all accept the path, and the shortest one
serves it. -/
theorem find_refines_users :
    ∃ r r' : Router Unit,
      new.addAll ([getUser, getJoe, getAny].map PatternRegistration.toRegistration) = some r ∧
      new.addAll ([getAny, getJoe, getUser].map PatternRegistration.toRegistration) = some r' ∧
      r.find .GET "/users/joe".toList HttpRequest.resolveSlots =
        some ⟨getAny.handler, ["users".toList, "joe".toList]⟩ ∧
      r'.find .GET "/users/joe".toList HttpRequest.resolveSlots =
        r.find .GET "/users/joe".toList HttpRequest.resolveSlots ∧
      ((HttpRequest.new .GET "/users/joe".toList).resolveRoute r).param "id".toList =
        some "joe".toList ∧
      ((HttpRequest.new .GET "/users/joe".toList).resolveRoute r).param "name".toList = none := by
  have hplain : ∀ e ∈ [getUser, getJoe, getAny], e.Plain := by
    simp only [List.mem_cons, List.not_mem_nil, or_false, forall_eq_or_imp, forall_eq]
    refine ⟨⟨?_, rfl, by decide⟩, ⟨?_, rfl, by decide⟩, ⟨?_, rfl, by decide⟩⟩ <;>
      exact .cons (by simp [Segment.isParam]) (.cons (by simp) .nil)
  have hfree : [getUser, getJoe, getAny].Pairwise
      (fun a b => ¬ PatternRegistration.Conflict a b) := by
    unfold PatternRegistration.Conflict
    decide
  have hserves : PatternRegistration.Serves [getUser, getJoe, getAny] .GET
      ["users".toList, "joe".toList] getAny :=
    ⟨by simp, rfl, ⟨⟨["users".toList, "joe".toList], rfl⟩, rfl⟩, fun e' _ _ _ => Nat.zero_le _⟩
  obtain ⟨r, hr, hfind, -, hparam, horder⟩ := find_refines [getUser, getJoe, getAny] hplain hfree
    .GET ["users".toList, "joe".toList] (by decide) (by decide)
  have hname := (hparam getAny hserves "name".toList).2
  exact ⟨r, _, hr, rfl, (hfind _).mpr ⟨getAny, hserves, rfl⟩,
    horder [getAny, getJoe, getUser] _ (List.reverse_perm [getUser, getJoe, getAny]) rfl,
    (hparam getAny hserves "id".toList).1, hname.mpr (by decide)⟩

end Router

end Sparc
