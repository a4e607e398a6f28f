import Sparc.Verification.Router.Soundness

/-! # Reachability of registered patterns

For a path that instantiates a pattern the walk stops where the handler is stored, with
one token left for each parameter. The exception are literal patterns with a final slash:
their node is consulted only while there are tokens left.
-/

namespace Sparc

variable {η : Type*}

/-- The path with the given segments, possibly closed by a slash. -/
def requestPath (segments : List CString) (slash : Bool) : CString :=
  if segments = [] then ['/']
  else Fields.opened '/' segments ++ (if slash then ['/'] else [])

/-- The literals equal the first segments and the parameters are as many as are left. -/
def Pattern.Accepts (p : Pattern) (segments : List CString) : Prop :=
  p.lead <+: segments ∧ p.lead.length + p.names.length = segments.length

namespace Router

theorem tokens_requestPath (segments : List CString) (slash : Bool)
    (h : ∀ s ∈ segments, Fields.Proper '/' s) :
    Fields.tokens '/' (requestPath segments slash) = segments := by
  unfold requestPath
  by_cases hnil : segments = []
  · simp [hnil]
  · cases slash with
    | false => simpa [hnil] using Fields.tokens_opened '/' segments h
    | true =>
        simp only [hnil, ite_false, ite_true]
        rw [Fields.opened_append_sep, Fields.tokens_sep_cons, List.append_nil]
        exact Fields.tokens_closed '/' segments h

theorem pathTokens_requestPath {slots : ℕ} (segments : List CString) (slash : Bool)
    (h : ∀ s ∈ segments, Fields.Proper '/' s) (hlen : segments.length < slots) :
    pathTokens slots (requestPath segments slash) = segments := by
  rw [pathTokens_eq, tokens_requestPath segments slash h]
  apply List.take_of_length_le
  omega

theorem requestPath_head (segments : List CString) (slash : Bool) :
    (requestPath segments slash).head? = some '/' := by
  unfold requestPath
  cases segments <;> simp

/-- Behind its first segments the path goes on with a slash. -/
theorem requestPath_append (lits more : List CString) (slash : Bool) (hmore : more ≠ []) :
    ∃ rest, requestPath (lits ++ more) slash = '/' :: (Fields.closed '/' lits ++ rest) := by
  obtain ⟨next, others, rfl⟩ := List.exists_cons_of_ne_nil hmore
  refine ⟨next ++ Fields.opened '/' others ++ (if slash then ['/'] else []), ?_⟩
  rw [requestPath, if_neg (by simp), Fields.opened_append, Fields.opened_cons,
    List.append_assoc, List.append_assoc, List.cons_append, Fields.opened_append_sep,
    List.append_assoc]

section Answer

variable {slots : ℕ} {e : PatternRegistration η} {segments : List CString}

theorem accepts_rest {p : Pattern} (h : p.Accepts segments) :
    ∃ more, p.lead ++ more = segments ∧ more.length = p.names.length := by
  obtain ⟨⟨more, hmore⟩, hcount⟩ := h
  refine ⟨more, hmore, ?_⟩
  rw [← hmore, List.length_append] at hcount
  omega

theorem accepts_literal {p : Pattern} (h : p.Accepts segments) (hnames : p.names = []) :
    segments = p.lead := by
  obtain ⟨more, hmore, hlen⟩ := accepts_rest h
  rw [hnames] at hlen
  rw [← hmore, List.eq_nil_of_length_eq_zero hlen, List.append_nil]

/-- The root pattern is answered for at the root. -/
theorem root_answer (hpfx : e.pattern.pfx = ['/']) (hnames : e.pattern.names = [])
    (slash : Bool) :
    ∃ s ∈ stops slots (requestPath [] slash),
      s.Answers (pathTokens slots (requestPath [] slash)) e.m e.handler := by
  have hpath : requestPath [] slash = ['/'] := rfl
  refine ⟨⟨[], 1⟩, ?_, rfl, hpfx, ?_⟩
  · rw [hpath, stops_slash]
    simp
  · change remaining _ _ = ((e.pattern.names.length : ℕ) : ℤ)
    simp [hpath, pathTokens_eq, remaining, hnames]

/-- A pattern with parameters is answered for behind its last literal. -/
theorem param_answer (hproper : ∀ s ∈ segments, Fields.Proper '/' s)
    (hlen : segments.length < slots) (haccepts : e.pattern.Accepts segments)
    (hnames : e.pattern.names ≠ [])
    (hpfx : e.pattern.pfx = '/' :: Fields.closed '/' e.pattern.lead) (slash : Bool) :
    ∃ s ∈ stops slots (requestPath segments slash),
      s.Answers (pathTokens slots (requestPath segments slash)) e.m e.handler := by
  have htokens := pathTokens_requestPath segments slash hproper hlen
  have hpos := List.length_pos_iff.mpr hnames
  have hcount := haccepts.2
  obtain ⟨more, hmore, hmorelen⟩ := accepts_rest haccepts
  have hne : more ≠ [] := by
    intro h
    rw [h] at hmorelen
    exact hnames (List.eq_nil_of_length_eq_zero hmorelen.symm)
  obtain ⟨rest, hrest⟩ := requestPath_append e.pattern.lead more slash hne
  rw [hmore] at hrest
  refine ⟨⟨Fields.closed '/' e.pattern.lead, e.pattern.lead.length⟩, ?_, rfl, hpfx, ?_⟩
  · rw [hrest]
    apply closed_mem_stops e.pattern.lead rest (Segment.lead_proper _)
    rw [← hrest, htokens]
    omega
  · change remaining _ _ = ((e.pattern.names.length : ℕ) : ℤ)
    rw [htokens, remaining, if_neg (by omega)]
    simp only
    omega

/-- A literal pattern is answered for at the end of its last literal. -/
theorem literal_answer {init : List CString} {last : CString}
    (hproper : ∀ s ∈ init ++ [last], Fields.Proper '/' s) (hlen : init.length + 1 < slots)
    (hnames : e.pattern.names = [])
    (hpfx : e.pattern.pfx = '/' :: (Fields.closed '/' init ++ last)) :
    ∃ s ∈ stops slots (requestPath (init ++ [last]) false),
      s.Answers (pathTokens slots (requestPath (init ++ [last]) false)) e.m e.handler := by
  have htokens := pathTokens_requestPath (init ++ [last]) false hproper (by simpa using hlen)
  have hpath : requestPath (init ++ [last]) false = '/' :: (Fields.closed '/' init ++ last) := by
    rw [requestPath, if_neg (by simp), Fields.opened_concat]
    simp
  refine ⟨⟨Fields.closed '/' init ++ last, init.length + 1⟩, ?_, rfl, hpfx, ?_⟩
  · rw [hpath]
    exact full_mem_stops init last (fun t ht => hproper t (by simp [ht]))
      (hproper last (by simp)) hlen
  · change remaining _ _ = ((e.pattern.names.length : ℕ) : ℤ)
    rw [htokens, remaining, if_neg (by simp), hnames]
    simp

/-- On a path it accepts, a pattern is answered for at some stop. -/
theorem exists_answer (e : PatternRegistration η)
    (hproper : ∀ s ∈ segments, Fields.Proper '/' s) (hlen : segments.length < slots)
    (haccepts : e.pattern.Accepts segments) (hopen : ¬ e.pattern.Closed) :
    ∃ s ∈ stops slots (requestPath segments e.pattern.slash),
      s.Answers (pathTokens slots (requestPath segments e.pattern.slash)) e.m e.handler := by
  rcases e.pattern.pfx_cases with ⟨hcase, hpfx⟩ | ⟨hnames, hslash, init, last, hlead, hpfx⟩
  · by_cases hnames : e.pattern.names = []
    · have hsegs : e.pattern.segs = [] := by
        rcases hcase with h | h | h
        · exact absurd hnames h
        · exact h
        · by_contra hne
          exact hopen ⟨h, hnames, hne⟩
      have hlead : e.pattern.lead = [] := (e.pattern.lead_eq_nil_iff hnames).mpr hsegs
      rw [accepts_literal haccepts hnames, hlead]
      exact root_answer (by rw [hpfx, hlead, Fields.closed_nil]) hnames _
    · exact param_answer hproper hlen haccepts hnames hpfx _
  · have hsegments : segments = init ++ [last] := by rw [accepts_literal haccepts hnames, hlead]
    subst hsegments
    rw [hslash]
    exact literal_answer hproper (by simpa using hlen) hnames hpfx

end Answer

end Router

/-! ## Instances of a pattern -/

namespace Segment

theorem lead_isPrefix {segs : List Segment} {segments : List CString}
    (h : List.Forall₂ Matches segs segments) : lead segs <+: segments := by
  induction h with
  | nil => simp [lead]
  | @cons s t segs segments hst _ ih =>
      cases s with
      | lit w =>
          obtain rfl : t = w.text := hst
          simpa [lead] using ih
      | param w => simp [lead]

theorem forall₂_lead (segs : List Segment) (h : names segs = []) :
    List.Forall₂ Matches segs (lead segs) := by
  induction segs with
  | nil => exact .nil
  | cons s segs ih =>
      cases s with
      | lit w => exact .cons rfl (ih h)
      | param w => simp [names] at h

theorem ne_nil_of_forall₂ {segs : List Segment} {segments : List CString}
    (h : List.Forall₂ Matches segs segments) : ∀ t ∈ segments, t ≠ [] := by
  induction h with
  | nil => simp
  | @cons s t segs segments hst _ ih =>
      intro x hx
      rcases List.mem_cons.mp hx with rfl | hx
      · cases s with
        | lit w =>
            obtain rfl : x = w.text := hst
            exact w.ne_nil
        | param w => exact hst
      · exact ih x hx

end Segment

theorem Pattern.accepts_of_forall₂ (p : Pattern) (hlast : p.ParamsLast)
    {segments : List CString} (h : List.Forall₂ Segment.Matches p.segs segments) :
    p.Accepts segments :=
  ⟨Segment.lead_isPrefix h, ((Segment.paramsLast_iff p.segs).mp hlast).trans h.length_eq⟩

namespace Router

/-- Every path that instantiates the pattern leads to its handler. -/
def Reaches (r : Router η) (e : PatternRegistration η) : Prop :=
  ∀ segments, List.Forall₂ Segment.Matches e.pattern.segs segments →
    (∀ s ∈ segments, '/' ∉ s) →
    (r.find e.m (requestPath segments e.pattern.slash) HttpRequest.resolveSlots).map
      Found.handler = some e.handler

theorem add_new_represents {e : PatternRegistration η} (hn : e.pattern.names.length < 255)
    {r : Router η} {ok : Bool}
    (hadd : new.add e.m e.pattern.text e.h e.contentType = some (r, ok)) :
    Represents r [e.handler] := by
  have h := (add_refines new_represents e.toRegistration hadd).1
  rw [tableAdd, e.compile_toRegistration hn] at h
  simpa using h

/-- A pattern registered alone is reached, unless it is literal and ends in a slash. -/
theorem reaches_iff {e : PatternRegistration η} (hlen : e.pattern.segs.length ≤ 15)
    (hlast : e.pattern.ParamsLast) {r : Router η}
    (hadd : new.add e.m e.pattern.text e.h e.contentType = some (r, true)) :
    r.Reaches e ↔ ¬ e.pattern.Closed := by
  have hslots : 2 ≤ HttpRequest.resolveSlots := by decide
  have hcount := Segment.length_lead_add_names_le e.pattern.segs
  have htable := add_new_represents (e := e) (by rw [Pattern.names]; omega) hadd
  constructor
  · intro h hclosed
    have hlead := Segment.lead_proper e.pattern.segs
    obtain ⟨found, hfound, -⟩ := Option.map_eq_some_iff.mp
      (h e.pattern.lead (Segment.forall₂_lead _ hclosed.2.1) (fun s hs => (hlead s hs).2))
    obtain ⟨s, hs, hmem, hanswers, -⟩ := (htable.find_eq_some_iff hslots _ _ found).mp hfound
    rw [List.mem_singleton.mp hmem] at hanswers
    exact (hanswers.reading hslots hs).2 hclosed
  · intro hopen segments hmatch hslash
    have hproper : ∀ s ∈ segments, Fields.Proper '/' s :=
      fun s hs => ⟨Segment.ne_nil_of_forall₂ hmatch s hs, hslash s hs⟩
    have hshort : segments.length < HttpRequest.resolveSlots := by
      rw [← hmatch.length_eq]
      exact Nat.lt_succ_of_le hlen
    obtain ⟨s, hs, hanswers⟩ := exists_answer e hproper hshort
      (e.pattern.accepts_of_forall₂ hlast hmatch) hopen
    cases hfind : r.find e.m (requestPath segments e.pattern.slash)
        HttpRequest.resolveSlots with
    | none =>
        have hnone := (htable.find_eq_none_iff _ _ _).mp hfind
        exact absurd hanswers (hnone s hs e.handler (by simp))
    | some found =>
        obtain ⟨_, _, hmem, -⟩ := (htable.find_eq_some_iff hslots _ _ found).mp hfind
        simpa using hmem

theorem reaches_getUser :
    ∃ r : Router Unit, new.add .GET getUser.pattern.text () none = some (r, true) ∧
      r.Reaches getUser := by
  refine ⟨_, rfl, (@reaches_iff Unit getUser (by decide) ?_ _ rfl).mpr ?_⟩
  · exact .cons (by simp [Segment.isParam]) (.cons (by simp) .nil)
  · rintro ⟨h, -⟩
    cases h

/-- `GET /user/`. -/
def getUserSlash : PatternRegistration Unit :=
  ⟨.GET, ⟨[.lit (.of "user")], true⟩, (), none⟩

theorem not_reaches_getUserSlash :
    ∃ r : Router Unit, new.add .GET getUserSlash.pattern.text () none = some (r, true) ∧
      r.find .GET "/user/".toList HttpRequest.resolveSlots = none ∧ ¬ r.Reaches getUserSlash := by
  refine ⟨_, rfl, rfl, ?_⟩
  intro h
  have hfind := h ["user".toList] (.cons rfl .nil) (by decide)
  cases hfind

end Router

end Sparc
