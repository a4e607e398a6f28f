import Sparc.Verification.Router.Lookup
import Mathlib.Data.List.Forall2

/-! # Route patterns

A pattern is a list of segments, each a literal or a parameter, written behind slashes
and possibly closed by one more slash. Since `:` marks a parameter, neither a literal nor
a name contains it. `Router::add` keeps the leading literals as the prefix and counts the
parameters; literals behind the first parameter leave no trace.
-/

namespace Sparc

variable {η : Type*}

/-- The text of a literal or the name of a parameter. -/
structure Word where
  text : CString
  ne_nil : text ≠ []
  no_slash : '/' ∉ text
  no_colon : ':' ∉ text

/-- A word given by a string constant. -/
def Word.of (s : String) (h : s.toList ≠ [] ∧ '/' ∉ s.toList ∧ ':' ∉ s.toList := by decide) :
    Word :=
  ⟨s.toList, h.1, h.2.1, h.2.2⟩

inductive Segment where
  | lit (w : Word)
  | param (w : Word)

namespace Segment

def text : Segment → CString
  | .lit w => w.text
  | .param w => ':' :: w.text

def isParam : Segment → Bool
  | .lit _ => false
  | .param _ => true

/-- The literals in front of the first parameter. -/
def lead : List Segment → List CString
  | .lit w :: rest => w.text :: lead rest
  | _ => []

/-- The names of the parameters. -/
def names : List Segment → List CString
  | [] => []
  | .lit _ :: rest => names rest
  | .param w :: rest => w.text :: names rest

/-- A path segment in the place of a pattern segment. -/
def Matches : Segment → CString → Prop
  | .lit w, s => s = w.text
  | .param _, s => s ≠ []

end Segment

/-- A pattern; `slash` tells whether it is written with a final slash. -/
structure Pattern where
  segs : List Segment
  slash : Bool := false

namespace Pattern

def final (p : Pattern) : CString := if p.slash then ['/'] else []

def text (p : Pattern) : CString :=
  if p.segs = [] then ['/'] else Fields.opened '/' (p.segs.map Segment.text) ++ p.final

def lead (p : Pattern) : List CString := Segment.lead p.segs

def names (p : Pattern) : List CString := Segment.names p.segs

/-- No literal stands behind a parameter. -/
def ParamsLast (p : Pattern) : Prop :=
  p.segs.Pairwise (fun a b => a.isParam = true → b.isParam = true)

/-- Literals only, and a final slash behind them. -/
def Closed (p : Pattern) : Prop := p.slash = true ∧ p.names = [] ∧ p.segs ≠ []

/-- The literal prefix the pattern is compiled to. -/
def pfx (p : Pattern) : CString :=
  if p.names ≠ [] ∨ p.segs = [] ∨ p.slash = true then '/' :: Fields.closed '/' p.lead
  else Fields.opened '/' p.lead

/-- The path starts with a slash and its nonempty segments are those of the pattern. -/
def Matches (p : Pattern) (path : CString) : Prop :=
  path.head? = some '/' ∧ List.Forall₂ Segment.Matches p.segs (Fields.tokens '/' path)

end Pattern

/-! ## Segments -/

namespace Segment

theorem lead_proper (segs : List Segment) : ∀ l ∈ lead segs, Fields.Proper '/' l := by
  induction segs with
  | nil => simp [lead]
  | cons s segs ih =>
      cases s with
      | lit w =>
          intro l hl
          rcases List.mem_cons.mp hl with rfl | hl
          · exact ⟨w.ne_nil, w.no_slash⟩
          · exact ih l hl
      | param w => simp [lead]

theorem length_lead_add_names_le (segs : List Segment) :
    (lead segs).length + (names segs).length ≤ segs.length := by
  have hnames : ∀ segs : List Segment, (names segs).length ≤ segs.length := by
    intro segs
    induction segs with
    | nil => simp [names]
    | cons s segs ih =>
        cases s <;> simp only [names, List.length_cons] <;> omega
  induction segs with
  | nil => simp [lead, names]
  | cons s segs ih =>
      cases s with
      | lit w => simp only [lead, names, List.length_cons]; omega
      | param w =>
          have := hnames segs
          simp only [lead, names, List.length_cons, List.length_nil]; omega

/-- All segments are parameters exactly when there are as many names as segments. -/
theorem length_names_eq_iff (segs : List Segment) :
    (names segs).length = segs.length ↔ ∀ s ∈ segs, s.isParam = true := by
  induction segs with
  | nil => simp [names]
  | cons s segs ih =>
      cases s with
      | lit w =>
          have hle := length_lead_add_names_le segs
          simp only [names, List.length_cons, List.mem_cons, forall_eq_or_imp, isParam,
            Bool.false_eq_true, false_and, iff_false]
          omega
      | param w => simpa [names, isParam] using ih

theorem paramsLast_iff (segs : List Segment) :
    segs.Pairwise (fun a b => a.isParam = true → b.isParam = true) ↔
      (lead segs).length + (names segs).length = segs.length := by
  induction segs with
  | nil => simp [lead, names]
  | cons s segs ih =>
      cases s with
      | lit w =>
          rw [List.pairwise_cons, ih]
          simp only [isParam, Bool.false_eq_true, false_implies, implies_true, true_and, lead,
            names, List.length_cons]
          omega
      | param w =>
          rw [List.pairwise_cons]
          have hall := length_names_eq_iff segs
          simp only [isParam, true_implies, lead, names, List.length_cons, List.length_nil]
          constructor
          · rintro ⟨h, -⟩
            have := hall.mpr h
            omega
          · intro h
            have hparams := hall.mp (by omega)
            refine ⟨hparams, ?_⟩
            apply List.pairwise_of_forall_mem_list
            exact fun a _ b hb _ => hparams b hb

/-- Matching against nonempty segments is a condition on the literals only. -/
theorem forall₂_matches_iff (segs : List Segment) (toks : List CString)
    (htoks : ∀ t ∈ toks, t ≠ []) :
    List.Forall₂ Matches segs toks ↔ segs.length = toks.length ∧
      ∀ (i : ℕ) (w : Word), segs[i]? = some (.lit w) → toks[i]? = some w.text := by
  induction segs generalizing toks with
  | nil => cases toks <;> simp
  | cons s segs ih =>
      cases toks with
      | nil => simp
      | cons t toks =>
          have hrest := ih toks (fun t ht => htoks t (by simp [ht]))
          rw [List.forall₂_cons, hrest]
          cases s with
          | lit w =>
              constructor
              · rintro ⟨ht, hlen, hlits⟩
                refine ⟨by simpa using hlen, ?_⟩
                intro i v hv
                cases i with
                | zero =>
                    simp only [List.getElem?_cons_zero, Option.some.injEq, lit.injEq] at hv
                    simpa [← hv, Matches] using ht
                | succ i => exact hlits i v hv
              · rintro ⟨hlen, hlits⟩
                refine ⟨by simpa [Matches] using hlits 0 w rfl, by simpa using hlen, ?_⟩
                exact fun i v hv => hlits (i + 1) v hv
          | param w =>
              constructor
              · rintro ⟨-, hlen, hlits⟩
                refine ⟨by simpa using hlen, ?_⟩
                intro i v hv
                cases i with
                | zero => simp at hv
                | succ i => exact hlits i v hv
              · rintro ⟨hlen, hlits⟩
                refine ⟨htoks t (by simp), by simpa using hlen, ?_⟩
                exact fun i v hv => hlits (i + 1) v hv

theorem lead_getElem (segs : List Segment) {i : ℕ} {w : Word} (hi : i < (lead segs).length)
    (h : segs[i]? = some (.lit w)) : (lead segs)[i]? = some w.text := by
  induction segs generalizing i with
  | nil => simp at h
  | cons s segs ih =>
      cases s with
      | lit v =>
          cases i with
          | zero =>
              simp only [List.getElem?_cons_zero, Option.some.injEq, lit.injEq] at h
              simp [lead, h]
          | succ i => exact ih (by simpa [lead] using hi) h
      | param v => simp [lead] at hi

/-- With all parameters behind them, every literal is a leading one. -/
theorem lit_lt_length_lead (segs : List Segment) {i : ℕ} {w : Word}
    (hlast : segs.Pairwise (fun a b => a.isParam = true → b.isParam = true))
    (h : segs[i]? = some (.lit w)) : i < (lead segs).length := by
  induction segs generalizing i with
  | nil => simp at h
  | cons s segs ih =>
      obtain ⟨hhead, htail⟩ := List.pairwise_cons.mp hlast
      cases i with
      | zero =>
          simp only [List.getElem?_cons_zero, Option.some.injEq] at h
          simp [h, lead]
      | succ i =>
          cases s with
          | lit v => simpa [lead] using ih htail h
          | param v => simpa [isParam] using hhead _ (List.mem_of_getElem? h) rfl

/-! ## What `Router::add` makes of a pattern -/

/-- The literal text in front of the first `:`, behind what was read before. -/
def leadText (segs : List Segment) (final : CString) : CString :=
  if names segs = [] then Fields.opened '/' (lead segs) ++ final
  else '/' :: Fields.closed '/' (lead segs)

theorem takeWhile_leadText (w : Word) (segs : List Segment) (final : CString)
    (hfinal : final = [] ∨ final = ['/']) :
    (w.text ++ leadText segs final).takeWhile (· ≠ '/') = w.text := by
  have hword : ∀ c ∈ w.text, decide (c ≠ '/') = true := by
    intro c hc
    simp only [decide_eq_true_eq]
    exact fun h => w.no_slash (h ▸ hc)
  have htail : (leadText segs final).takeWhile (· ≠ '/') = [] := by
    unfold leadText
    split
    · cases hl : lead segs with
      | nil => rcases hfinal with rfl | rfl <;> simp
      | cons l ls => simp
    · simp
  rw [List.takeWhile_append_of_pos hword, htail, List.append_nil]

/-- Cutting at `:` gives the leading literals and then one token for each parameter,
which starts with the name. -/
theorem tokens_colon (segs : List Segment) (x final : CString) (hx : ':' ∉ x)
    (hfinal : final = [] ∨ final = ['/']) (hne : x ≠ [] ∨ segs ≠ []) :
    ∃ toks, Fields.tokens ':' (x ++ Fields.opened '/' (segs.map text) ++ final) =
        (x ++ leadText segs final) :: toks ∧
      toks.map (fun tok => tok.takeWhile (· ≠ '/')) = names segs := by
  induction segs generalizing x with
  | nil =>
      have hproper : Fields.Proper ':' (x ++ final) := by
        refine ⟨by simpa using fun h => absurd h (by simpa using hne), ?_⟩
        rcases hfinal with rfl | rfl <;> simpa using hx
      refine ⟨[], ?_, rfl⟩
      simpa [leadText, names, lead] using Fields.tokens_proper ':' _ hproper
  | cons s segs ih =>
      cases s with
      | lit w =>
          have hx' : ':' ∉ x ++ '/' :: w.text := by simp [hx, w.no_colon]
          obtain ⟨toks, htoks, hnames⟩ := ih (x ++ '/' :: w.text) hx' (by simp)
          refine ⟨toks, ?_, hnames⟩
          have hlead : '/' :: w.text ++ leadText segs final =
              leadText (.lit w :: segs) final := by
            by_cases hn : names segs = [] <;> simp [leadText, names, lead, hn]
          simpa [text, ← hlead] using htoks
      | param w =>
          have hx' : Fields.Proper ':' (x ++ ['/']) := ⟨by simp, by simp [hx]⟩
          obtain ⟨toks, htoks, hnames⟩ := ih w.text w.no_colon (Or.inl w.ne_nil)
          refine ⟨(w.text ++ leadText segs final) :: toks, ?_, ?_⟩
          · have hcut := Fields.tokens_proper_append ':' (x ++ ['/'])
              (w.text ++ Fields.opened '/' (segs.map text) ++ final) hx'
            rw [htoks] at hcut
            simpa [text, leadText, names, lead] using hcut
          · rw [List.map_cons, takeWhile_leadText w segs final hfinal, hnames]
            rfl

theorem length_lead_of_names_nil (segs : List Segment) (h : names segs = []) :
    (lead segs).length = segs.length := by
  induction segs with
  | nil => rfl
  | cons s segs ih =>
      cases s with
      | lit w => simpa [lead] using ih (by simpa [names] using h)
      | param w => simp [names] at h

end Segment

namespace Pattern

theorem lead_eq_nil_iff (p : Pattern) (h : p.names = []) : p.lead = [] ↔ p.segs = [] := by
  have hlen := Segment.length_lead_of_names_nil p.segs h
  rw [← List.length_eq_zero_iff, ← List.length_eq_zero_iff, lead, hlen]

/-- The two shapes of a compiled prefix. -/
theorem pfx_cases (p : Pattern) :
    ((p.names ≠ [] ∨ p.segs = [] ∨ p.slash = true) ∧ p.pfx = '/' :: Fields.closed '/' p.lead) ∨
    (p.names = [] ∧ p.slash = false ∧ ∃ init last, p.lead = init ++ [last] ∧
      p.pfx = '/' :: (Fields.closed '/' init ++ last)) := by
  unfold pfx
  split
  · exact Or.inl ⟨by assumption, rfl⟩
  · rename_i h
    simp only [not_or, ne_eq, not_not, Bool.not_eq_true] at h
    obtain ⟨hnames, hsegs, hslash⟩ := h
    refine Or.inr ⟨hnames, hslash, ?_⟩
    rcases List.eq_nil_or_concat' p.lead with hnil | ⟨init, last, hlead⟩
    · exact absurd ((p.lead_eq_nil_iff hnames).mp hnil) hsegs
    · exact ⟨init, last, hlead, by rw [hlead, Fields.opened_concat]⟩

theorem tokens_text (p : Pattern) :
    ∃ toks, Fields.tokens ':' p.text = p.pfx :: toks ∧
      toks.map (fun tok => tok.takeWhile (· ≠ '/')) = p.names := by
  by_cases hsegs : p.segs = []
  · refine ⟨[], ?_, by simp [names, hsegs, Segment.names]⟩
    have h := Fields.tokens_proper ':' ['/'] (by decide)
    simpa [text, pfx, lead, hsegs, Segment.lead] using h
  · have hfinal : p.final = [] ∨ p.final = ['/'] := by
      unfold final
      split <;> simp
    obtain ⟨toks, htoks, hnames⟩ :=
      Segment.tokens_colon p.segs [] p.final (by simp) hfinal (Or.inr hsegs)
    refine ⟨toks, ?_, hnames⟩
    have hpfx : Segment.leadText p.segs p.final = p.pfx := by
      unfold Segment.leadText pfx final
      by_cases hn : Segment.names p.segs = []
      · by_cases hs : p.slash = true
        · simp [hn, hs, names, lead, Fields.opened_append_sep]
        · simp [hn, hs, names, lead, hsegs]
      · simp [hn, names, lead]
    simpa [text, hsegs, hpfx] using htoks

/-- The literal prefix holds the leading literals and nothing else. -/
theorem tokens_pfx (p : Pattern) : Fields.tokens '/' p.pfx = p.lead := by
  have hproper := Segment.lead_proper p.segs
  unfold pfx
  split
  · rw [Fields.tokens_sep_cons]
    exact Fields.tokens_closed '/' p.lead hproper
  · exact Fields.tokens_opened '/' p.lead hproper

end Pattern

/-- A registration of a pattern. -/
structure PatternRegistration (η : Type*) where
  m : Method
  pattern : Pattern
  h : η
  contentType : Option CString := none

namespace PatternRegistration

def toRegistration (e : PatternRegistration η) : Registration η :=
  ⟨e.m, e.pattern.text, e.h, e.contentType⟩

/-- The handler object of the registration. -/
def handler (e : PatternRegistration η) : RouteHandler η where
  route := e.pattern.text.takeWhile (· ≠ ':')
  contentType := e.contentType
  h := e.h
  m := e.m
  params := e.pattern.names
  prefix_ := e.pattern.pfx
  nparams := e.pattern.names.length

theorem length_split_text (e : PatternRegistration η) :
    (koreSplitString ':' Router.addSlots e.pattern.text).length =
      min 255 (e.pattern.names.length + 1) := by
  obtain ⟨toks, htoks, hnames⟩ := e.pattern.tokens_text
  rw [koreSplitString_eq, htoks, List.length_take, List.length_cons, ← hnames, List.length_map]
  rfl

theorem split_text (e : PatternRegistration η) (hn : e.pattern.names.length < 255) :
    ∃ toks, koreSplitString ':' Router.addSlots e.pattern.text = e.pattern.pfx :: toks ∧
      toks.map (fun tok => tok.takeWhile (· ≠ '/')) = e.pattern.names := by
  obtain ⟨toks, htoks, hnames⟩ := e.pattern.tokens_text
  have hlen : toks.length = e.pattern.names.length := by
    rw [← hnames, List.length_map]
  refine ⟨toks, ?_, hnames⟩
  rw [koreSplitString_eq, htoks, Router.addSlots]
  apply List.take_of_length_le
  simp only [List.length_cons]
  omega

theorem compile_toRegistration (e : PatternRegistration η)
    (hn : e.pattern.names.length < 255) : e.toRegistration.compile = some e.handler := by
  obtain ⟨toks, htoks, hnames⟩ := e.split_text hn
  have hhead : e.pattern.pfx.head? = some '/' := by
    rcases e.pattern.pfx_cases with ⟨-, h⟩ | ⟨-, -, init, last, -, h⟩ <;> simp [h]
  have hlen : toks.length = e.pattern.names.length := by
    rw [← hnames, List.length_map]
  simp only [Registration.compile, toRegistration, htoks, hhead, ite_true,
    Registration.handler, handler, hnames, hlen]

end PatternRegistration

end Sparc
