import Mathlib.Data.List.Basic
import Mathlib.Data.List.Induction

/-! # Machines that read inputs, give outputs and can get stuck -/

namespace Machine

variable {σ τ ι ο : Type*}

/-- Feed the inputs to the machine one after the other. A machine that is stuck at one
of them has no result. -/
def exec (step : σ → ι → Option (σ × ο)) : σ → List ι → Option (σ × List ο)
  | s, [] => some (s, [])
  | s, i :: inputs =>
      (step s i).bind (fun r =>
        (exec step r.1 inputs).map (fun q => (q.1, r.2 :: q.2)))

/-- Every step that the machine takes on the inputs meets the condition. -/
def Always (step : σ → ι → Option (σ × ο)) (P : σ → ι → Prop) : σ → List ι → Prop
  | _, [] => True
  | s, i :: inputs => P s i ∧ ∀ r, step s i = some r → Always step P r.1 inputs

instance decidableAlways {step : σ → ι → Option (σ × ο)} {P : σ → ι → Prop}
    [∀ s i, Decidable (P s i)] : ∀ s inputs, Decidable (Always step P s inputs)
  | _, [] => .isTrue trivial
  | s, i :: inputs =>
      have : DecidablePred (fun r : σ × ο => Always step P r.1 inputs) :=
        fun r => decidableAlways r.1 inputs
      inferInstanceAs (Decidable (P s i ∧ ∀ r ∈ step s i, Always step P r.1 inputs))

variable {step : σ → ι → Option (σ × ο)} {s s' : σ} {i : ι} {inputs : List ι}
  {outputs : List ο}

theorem always_of_forall {P : σ → ι → Prop} (h : ∀ s i, P s i) (s : σ) (inputs : List ι) :
    Always step P s inputs := by
  induction inputs generalizing s with
  | nil => exact trivial
  | cons i inputs ih => exact ⟨h s i, fun r _ => ih r.1⟩

theorem exec_cons_eq_some :
    exec step s (i :: inputs) = some (s', outputs) ↔
      ∃ s₁ o rest, step s i = some (s₁, o) ∧ exec step s₁ inputs = some (s', rest) ∧
        outputs = o :: rest := by
  simp only [exec, Option.bind_eq_some_iff, Option.map_eq_some_iff, Prod.exists, Prod.mk.injEq]
  constructor
  · rintro ⟨s₁, o, hstep, s₂, rest, hexec, rfl, rfl⟩
    exact ⟨s₁, o, rest, hstep, hexec, rfl⟩
  · rintro ⟨s₁, o, rest, hstep, hexec, rfl⟩
    exact ⟨s₁, o, hstep, s', rest, hexec, rfl, rfl⟩

/-- What every step under the condition preserves holds where the run gets to. -/
theorem exec_invariant {I : σ → Prop} {P : σ → ι → Prop}
    (hstep : ∀ s i s' o, I s → P s i → step s i = some (s', o) → I s') (hs : I s)
    (halways : Always step P s inputs) (hexec : exec step s inputs = some (s', outputs)) :
    I s' := by
  induction inputs generalizing s outputs with
  | nil =>
      simp only [exec, Option.some.injEq, Prod.mk.injEq] at hexec
      exact hexec.1 ▸ hs
  | cons i inputs ih =>
      obtain ⟨s₁, o, rest, hone, hrest, rfl⟩ := exec_cons_eq_some.mp hexec
      exact ih (hstep s i s₁ o hs halways.1 hone) (halways.2 _ hone) hrest

/-- What every step preserves holds where the run gets to, and what every step answers holds of
all outputs. -/
theorem exec_outputs {I : σ → Prop} {Q : ο → Prop}
    (hstep : ∀ s i s' o, I s → step s i = some (s', o) → I s' ∧ Q o) (hs : I s)
    (hexec : exec step s inputs = some (s', outputs)) : I s' ∧ ∀ o ∈ outputs, Q o := by
  induction inputs generalizing s outputs with
  | nil =>
      simp only [exec, Option.some.injEq, Prod.mk.injEq] at hexec
      obtain ⟨rfl, rfl⟩ := hexec
      exact ⟨hs, fun o ho => absurd ho List.not_mem_nil⟩
  | cons i inputs ih =>
      obtain ⟨s₁, o, rest, hone, hrest, rfl⟩ := exec_cons_eq_some.mp hexec
      obtain ⟨hs₁, ho⟩ := hstep s i s₁ o hs hone
      obtain ⟨hs', hall⟩ := ih hs₁ hrest
      exact ⟨hs', List.forall_mem_cons.mpr ⟨ho, hall⟩⟩

/-- A machine that can take every step under the condition does not get stuck, and what the
steps preserve, of the state and the outputs so far, holds where it gets to. -/
theorem exec_progress {I : List ο → σ → Prop} {P : σ → ι → Prop}
    (hstep : ∀ before s i, I before s → P s i →
      ∃ s' o, step s i = some (s', o) ∧ I (before ++ [o]) s')
    {before : List ο} (hs : I before s) (halways : Always step P s inputs) :
    ∃ s' outputs, exec step s inputs = some (s', outputs) ∧ I (before ++ outputs) s' := by
  induction inputs generalizing s before with
  | nil => exact ⟨s, [], rfl, (List.append_nil before).symm ▸ hs⟩
  | cons i inputs ih =>
      obtain ⟨s₁, o, hone, hs₁⟩ := hstep before s i hs halways.1
      obtain ⟨s', rest, hrest, hs'⟩ := ih hs₁ (halways.2 _ hone)
      refine ⟨s', o :: rest, exec_cons_eq_some.mpr ⟨s₁, o, rest, hone, hrest, rfl⟩, ?_⟩
      rwa [List.append_assoc, List.singleton_append] at hs'

/-- Two machines that answer every input alike, as long as the relation holds, have the
same outputs. The relation can speak of the inputs still to come. -/
theorem exec_simulates {step' : τ → ι → Option (τ × ο)} {R : σ → τ → List ι → Prop}
    (hstep : ∀ s t i inputs s' o, R s t (i :: inputs) → step s i = some (s', o) →
      ∃ t', step' t i = some (t', o) ∧ R s' t' inputs)
    {t : τ} (hR : R s t inputs) (hexec : exec step s inputs = some (s', outputs)) :
    ∃ t', exec step' t inputs = some (t', outputs) ∧ R s' t' [] := by
  induction inputs generalizing s t outputs with
  | nil =>
      simp only [exec, Option.some.injEq, Prod.mk.injEq] at hexec
      obtain ⟨rfl, rfl⟩ := hexec
      exact ⟨t, rfl, hR⟩
  | cons i inputs ih =>
      obtain ⟨s₁, o, rest, hone, hrest, rfl⟩ := exec_cons_eq_some.mp hexec
      obtain ⟨t₁, hone', hR₁⟩ := hstep s t i inputs s₁ o hR hone
      obtain ⟨t', hrest', hR'⟩ := ih hR₁ hrest
      exact ⟨t', exec_cons_eq_some.mpr ⟨t₁, o, rest, hone', hrest', rfl⟩, hR'⟩

theorem exec_append_eq_some {more : List ι} :
    exec step s (inputs ++ more) = some (s', outputs) ↔
      ∃ s₁ before after, exec step s inputs = some (s₁, before) ∧
        exec step s₁ more = some (s', after) ∧ outputs = before ++ after := by
  induction inputs generalizing s outputs with
  | nil =>
      simp only [List.nil_append, exec, Option.some.injEq, Prod.mk.injEq]
      constructor
      · intro h
        exact ⟨s, [], outputs, ⟨rfl, rfl⟩, h, rfl⟩
      · rintro ⟨s₁, before, after, ⟨rfl, rfl⟩, h, rfl⟩
        exact h
  | cons i inputs ih =>
      simp only [List.cons_append, exec_cons_eq_some, ih]
      constructor
      · rintro ⟨s₁, o, rest, hstep, ⟨s₂, before, after, hexec, hmore, rfl⟩, rfl⟩
        exact ⟨s₂, o :: before, after, ⟨s₁, o, before, hstep, hexec, rfl⟩, hmore, rfl⟩
      · rintro ⟨s₂, before, after, ⟨s₁, o, rest, hstep, hexec, rfl⟩, hmore, rfl⟩
        exact ⟨s₁, o, rest ++ after, hstep, ⟨s₂, rest, after, hexec, hmore, rfl⟩, rfl⟩

/-! ## Refinement -/

/-- A run of a machine that is given by what each step can be. -/
inductive Runs (next : τ → ι → ο → τ → Prop) : τ → List ι → List ο → τ → Prop where
  | nil (t : τ) : Runs next t [] [] t
  | cons {t t₁ t' : τ} {i : ι} {o : ο} {inputs : List ι} {outputs : List ο} :
      next t i o t₁ → Runs next t₁ inputs outputs t' → Runs next t (i :: inputs) (o :: outputs) t'

/-- A machine of which every step is one of the other machine runs as that does. -/
theorem exec_refines {next : τ → ι → ο → τ → Prop} {I : σ → Prop} {P : ι → Prop} {f : σ → τ}
    (hstep : ∀ s i s' o, I s → P i → step s i = some (s', o) → I s' ∧ next (f s) i o (f s'))
    (hs : I s) (hP : ∀ i ∈ inputs, P i) (hexec : exec step s inputs = some (s', outputs)) :
    I s' ∧ Runs next (f s) inputs outputs (f s') := by
  induction inputs generalizing s outputs with
  | nil =>
      simp only [exec, Option.some.injEq, Prod.mk.injEq] at hexec
      obtain ⟨rfl, rfl⟩ := hexec
      exact ⟨hs, .nil (f s)⟩
  | cons i inputs ih =>
      obtain ⟨s₁, o, rest, hone, hrest, rfl⟩ := exec_cons_eq_some.mp hexec
      obtain ⟨hs₁, hnext⟩ := hstep s i s₁ o hs (hP i List.mem_cons_self) hone
      obtain ⟨hs', hruns⟩ := ih hs₁ (fun j hj => hP j (List.mem_cons_of_mem i hj)) hrest
      exact ⟨hs', .cons hnext hruns⟩

/-! ## Histories -/

theorem exec_concat_eq_some :
    exec step s (inputs ++ [i]) = some (s', outputs) ↔
      ∃ s₁ before o, exec step s inputs = some (s₁, before) ∧ step s₁ i = some (s', o) ∧
        outputs = before ++ [o] := by
  induction inputs generalizing s outputs with
  | nil =>
      rw [List.nil_append, exec_cons_eq_some]
      simp only [exec, Option.some.injEq, Prod.mk.injEq]
      constructor
      · rintro ⟨s₁, o, rest, hstep, ⟨rfl, rfl⟩, rfl⟩
        exact ⟨s, [], o, ⟨rfl, rfl⟩, hstep, rfl⟩
      · rintro ⟨s₁, before, o, ⟨rfl, rfl⟩, hstep, rfl⟩
        exact ⟨s', o, [], hstep, ⟨rfl, rfl⟩, rfl⟩
  | cons j inputs ih =>
      simp only [List.cons_append, exec_cons_eq_some, ih]
      constructor
      · rintro ⟨s₁, o, rest, hstep, ⟨s₂, before, o', hexec, hlast, rfl⟩, rfl⟩
        exact ⟨s₂, o :: before, o', ⟨s₁, o, before, hstep, hexec, rfl⟩, hlast, rfl⟩
      · rintro ⟨s₂, before, o', ⟨s₁, o, rest, hstep, hexec, rfl⟩, hlast, rfl⟩
        exact ⟨s₁, o, rest ++ [o'], hstep, ⟨s₂, rest, o', hexec, hlast, rfl⟩, rfl⟩

/-- What holds at the start and is kept by every next step of a run holds after the run,
where it can speak of the inputs so far. -/
theorem exec_history {P : List ι → σ → Prop} (hstart : P [] s)
    (hstep : ∀ before s₁ outs i s₂ o, exec step s before = some (s₁, outs) → P before s₁ →
      step s₁ i = some (s₂, o) → P (before ++ [i]) s₂)
    (hexec : exec step s inputs = some (s', outputs)) : P inputs s' := by
  induction inputs using List.reverseRecOn generalizing s' outputs with
  | nil =>
      simp only [exec, Option.some.injEq, Prod.mk.injEq] at hexec
      exact hexec.1 ▸ hstart
  | append_singleton inputs i ih =>
      obtain ⟨s₁, before, o, hbefore, hlast, rfl⟩ := exec_concat_eq_some.mp hexec
      exact hstep inputs s₁ before i s' o hbefore (ih hbefore) hlast

/-! ## States on the way -/

/-- The machine reads all of the inputs, and what is asked of the states holds in each that it
gets to. -/
def Throughout (step : σ → ι → Option (σ × ο)) (O : σ → Prop) (s : σ) (inputs : List ι) : Prop :=
  ∀ front, front <+: inputs → ∃ s' outputs, exec step s front = some (s', outputs) ∧ O s'

theorem Throughout.start {O : σ → Prop} (h : Throughout step O s inputs) : O s := by
  obtain ⟨s', outputs, hexec, hs'⟩ := h [] List.nil_prefix
  rw [exec, Option.some.injEq, Prod.mk.injEq] at hexec
  exact hexec.1 ▸ hs'

theorem throughout_nil {O : σ → Prop} (hs : O s) : Throughout step O s [] := by
  intro front hfront
  rw [List.prefix_nil.mp hfront]
  exact ⟨s, [], rfl, hs⟩

theorem throughout_cons {O : σ → Prop} :
    Throughout step O s (i :: inputs) ↔
      O s ∧ ∃ s' o, step s i = some (s', o) ∧ Throughout step O s' inputs := by
  constructor
  · intro h
    obtain ⟨s₁, outputs₁, hone, -⟩ := h [i] ((List.prefix_cons_inj i).mpr List.nil_prefix)
    obtain ⟨s', o, rest, hstep, -⟩ := exec_cons_eq_some.mp hone
    refine ⟨h.start, s', o, hstep, ?_⟩
    intro front hfront
    obtain ⟨s₂, outputs, hexec, hs₂⟩ := h (i :: front) ((List.prefix_cons_inj i).mpr hfront)
    obtain ⟨s₃, o₃, rest, hstep₃, hrest, -⟩ := exec_cons_eq_some.mp hexec
    obtain ⟨rfl, rfl⟩ := Prod.mk.inj (Option.some.inj (hstep.symm.trans hstep₃))
    exact ⟨s₂, rest, hrest, hs₂⟩
  · rintro ⟨hs, s', o, hstep, h⟩ front hfront
    cases front with
    | nil => exact ⟨s, [], rfl, hs⟩
    | cons j front =>
        obtain ⟨rfl, hrest⟩ := List.cons_prefix_cons.mp hfront
        obtain ⟨s₂, outputs, hexec, hs₂⟩ := h front hrest
        exact ⟨s₂, o :: outputs, exec_cons_eq_some.mpr ⟨s', o, outputs, hstep, hexec, rfl⟩, hs₂⟩

/-- Where a step leads to a good state exactly if it meets the condition, a run stays in good
states exactly if all of its steps do. -/
theorem throughout_iff_always {I : List ο → σ → Prop} {C P : σ → ι → Prop} {O : σ → Prop}
    (hprogress : ∀ before s i, I before s → C s i →
      ∃ s' o, step s i = some (s', o) ∧ I (before ++ [o]) s')
    (hstep : ∀ before s i s' o, I before s → O s → C s i → step s i = some (s', o) →
      (O s' ↔ P s i))
    {before : List ο} (hI : I before s) (hO : O s) (halways : Always step C s inputs) :
    Throughout step O s inputs ↔ Always step P s inputs := by
  induction inputs generalizing s before with
  | nil => exact iff_of_true (throughout_nil hO) trivial
  | cons i inputs ih =>
      obtain ⟨s', o, hone, hI'⟩ := hprogress before s i hI halways.1
      have hlast := hstep before s i s' o hI hO halways.1 hone
      rw [throughout_cons, Always]
      constructor
      · rintro ⟨-, s₁, o₁, hone₁, hrest⟩
        obtain ⟨rfl, rfl⟩ := Prod.mk.inj (Option.some.inj (hone.symm.trans hone₁))
        have hO' : O s' := hrest.start
        refine ⟨hlast.mp hO', ?_⟩
        intro r hr
        obtain rfl := Option.some.inj (hone.symm.trans hr)
        exact (ih hI' hO' (halways.2 _ hone)).mp hrest
      · rintro ⟨hP, hrest⟩
        have hO' : O s' := hlast.mpr hP
        exact ⟨hO, s', o, hone, (ih hI' hO' (halways.2 _ hone)).mpr (hrest _ hone)⟩

/-- Where a step goes through to a good state exactly if it meets the condition, a run stays in
good states exactly if all of its steps do. The invariant can speak of the inputs still to come. -/
theorem throughout_iff_always_of_rest {P : σ → ι → Prop} {I : σ → List ι → Prop} {O : σ → Prop}
    (hstep : ∀ s i rest, I s (i :: rest) → O s → (P s i ↔ ∃ s' o, step s i = some (s', o) ∧ O s'))
    (hkeep : ∀ s i rest s' o, I s (i :: rest) → P s i → step s i = some (s', o) → I s' rest)
    (hI : I s inputs) (hO : O s) : Throughout step O s inputs ↔ Always step P s inputs := by
  induction inputs generalizing s with
  | nil => exact iff_of_true (throughout_nil hO) trivial
  | cons i inputs ih =>
      rw [throughout_cons, Always]
      constructor
      · rintro ⟨-, s', o, hone, hrest⟩
        have hP := (hstep s i inputs hI hO).mpr ⟨s', o, hone, hrest.start⟩
        refine ⟨hP, ?_⟩
        intro r hr
        obtain rfl := Option.some.inj (hone.symm.trans hr)
        exact (ih (hkeep s i inputs s' o hI hP hone) hrest.start).mp hrest
      · rintro ⟨hP, hrest⟩
        obtain ⟨s', o, hone, hO'⟩ := (hstep s i inputs hI hO).mp hP
        exact ⟨hO, s', o, hone, (ih (hkeep s i inputs s' o hI hP hone) hO').mpr (hrest _ hone)⟩

/-- The same for an invariant of the states alone. -/
theorem throughout_iff_always_of_step {P : σ → ι → Prop} {I O : σ → Prop}
    (hstep : ∀ s i, I s → O s → (P s i ↔ ∃ s' o, step s i = some (s', o) ∧ O s'))
    (hkeep : ∀ s i s' o, I s → P s i → step s i = some (s', o) → I s') (hI : I s) (hO : O s) :
    Throughout step O s inputs ↔ Always step P s inputs :=
  throughout_iff_always_of_rest (I := fun s _ => I s) (fun s i _ => hstep s i)
    (fun s i _ => hkeep s i) hI hO

/-- What is asked of the states holds in each that the machine gets to, stuck or not. -/
def Wherever (step : σ → ι → Option (σ × ο)) (O : σ → Prop) (s : σ) (inputs : List ι) : Prop :=
  ∀ front, front <+: inputs → ∀ s' outputs, exec step s front = some (s', outputs) → O s'

theorem Wherever.start {O : σ → Prop} (h : Wherever step O s inputs) : O s :=
  h [] List.nil_prefix s [] rfl

theorem wherever_nil_iff {O : σ → Prop} : Wherever step O s [] ↔ O s := by
  constructor
  · exact Wherever.start
  · intro hs front hfront s' outputs hexec
    rw [List.prefix_nil.mp hfront, exec, Option.some.injEq, Prod.mk.injEq] at hexec
    exact hexec.1 ▸ hs

theorem wherever_cons_iff {O : σ → Prop} :
    Wherever step O s (i :: inputs) ↔
      O s ∧ ∀ r, step s i = some r → Wherever step O r.1 inputs := by
  constructor
  · intro h
    refine ⟨h.start, ?_⟩
    intro r hr front hfront s' outputs hexec
    exact h (i :: front) ((List.prefix_cons_inj i).mpr hfront) s' (r.2 :: outputs)
      (exec_cons_eq_some.mpr ⟨r.1, r.2, outputs, hr, hexec, rfl⟩)
  · rintro ⟨hs, h⟩ front hfront s' outputs hexec
    cases front with
    | nil =>
        rw [exec, Option.some.injEq, Prod.mk.injEq] at hexec
        exact hexec.1 ▸ hs
    | cons j front =>
        obtain ⟨rfl, hrest⟩ := List.cons_prefix_cons.mp hfront
        obtain ⟨s₁, o, rest, hone, hexec, -⟩ := exec_cons_eq_some.mp hexec
        exact h (s₁, o) hone front hrest s' rest hexec

/-- Where a step leads to good states exactly if it meets the condition, all states of a run
are good exactly if the first is and all of its steps do. -/
theorem wherever_iff_always {P : σ → ι → Prop} {O : σ → Prop}
    (hstep : ∀ s i, O s → (P s i ↔ ∀ r, step s i = some r → O r.1)) :
    Wherever step O s inputs ↔ O s ∧ Always step P s inputs := by
  induction inputs generalizing s with
  | nil => rw [wherever_nil_iff, Always, and_true]
  | cons i inputs ih =>
      rw [wherever_cons_iff, Always]
      constructor
      · rintro ⟨hs, h⟩
        refine ⟨hs, (hstep s i hs).mpr (fun r hr => (h r hr).start), ?_⟩
        exact fun r hr => (ih.mp (h r hr)).2
      · rintro ⟨hs, hP, h⟩
        refine ⟨hs, fun r hr => ih.mpr ⟨(hstep s i hs).mp hP r hr, h r hr⟩⟩

end Machine
