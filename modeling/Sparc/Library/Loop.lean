import Mathlib.Data.List.Basic

/-! # Loops over a list that can be left early -/

namespace Loop

variable {σ α ρ : Type*}

/-- What one iteration decides. -/
inductive Control (σ ρ : Type*) where
  | next (s : σ)
  | stop (r : ρ)

/-- Iterate over the list until an iteration stops; `finish` gives the result of a loop
that runs to its end. -/
def run (step : σ → α → Control σ ρ) (finish : σ → ρ) : σ → List α → ρ
  | s, [] => finish s
  | s, a :: l =>
      match step s a with
      | .next s' => run step finish s' l
      | .stop r => r

/-- The loop goes through the whole list without stopping. -/
inductive Passes (step : σ → α → Control σ ρ) : σ → List α → σ → Prop where
  | nil (s : σ) : Passes step s [] s
  | cons {s s' s'' : σ} {a : α} {l : List α} (h : step s a = .next s')
      (hrest : Passes step s' l s'') : Passes step s (a :: l) s''

variable {step : σ → α → Control σ ρ} {finish : σ → ρ}

theorem run_append {s s' : σ} {pre : List α} (h : Passes step s pre s') (post : List α) :
    run step finish s (pre ++ post) = run step finish s' post := by
  induction h with
  | nil s => rfl
  | cons hstep _ ih => simpa [run, hstep] using ih

theorem run_of_passes {s s' : σ} {l : List α} (h : Passes step s l s') :
    run step finish s l = finish s' := by
  simpa [run] using run_append h []

theorem run_of_stop {s s' : σ} {pre : List α} {a : α} {r : ρ} (h : Passes step s pre s')
    (hstop : step s' a = .stop r) (post : List α) :
    run step finish s (pre ++ a :: post) = r := by
  rw [run_append h]
  simp [run, hstop]

/-- A loop runs to its end or is stopped by one element. -/
theorem passes_or_stops (step : σ → α → Control σ ρ) (s : σ) (l : List α) :
    (∃ s', Passes step s l s') ∨
    ∃ pre a post s' r, l = pre ++ a :: post ∧ Passes step s pre s' ∧ step s' a = .stop r := by
  induction l generalizing s with
  | nil => exact Or.inl ⟨s, .nil s⟩
  | cons a l ih =>
      cases hstep : step s a with
      | stop r => exact Or.inr ⟨[], a, l, s, r, rfl, .nil s, hstep⟩
      | next s' =>
          rcases ih s' with ⟨s'', h⟩ | ⟨pre, b, post, s'', r, rfl, h, hstop⟩
          · exact Or.inl ⟨s'', .cons hstep h⟩
          · exact Or.inr ⟨a :: pre, b, post, s'', r, rfl, .cons hstep h, hstop⟩

theorem Passes.unique {s s₁ s₂ : σ} {l : List α} (h₁ : Passes step s l s₁)
    (h₂ : Passes step s l s₂) : s₁ = s₂ := by
  induction h₁ with
  | nil s =>
      cases h₂
      rfl
  | cons hstep _ ih =>
      cases h₂ with
      | cons hstep' hrest' =>
          obtain rfl := Control.next.inj (hstep.symm.trans hstep')
          exact ih hrest'

theorem passes_append_iff {s s'' : σ} {pre post : List α} :
    Passes step s (pre ++ post) s'' ↔ ∃ s', Passes step s pre s' ∧ Passes step s' post s'' := by
  induction pre generalizing s with
  | nil =>
      constructor
      · exact fun h => ⟨s, .nil s, h⟩
      · rintro ⟨s', hpre, hpost⟩
        cases hpre
        exact hpost
  | cons a pre ih =>
      constructor
      · intro h
        cases h with
        | cons hstep hrest =>
            obtain ⟨s', hpre, hpost⟩ := ih.mp hrest
            exact ⟨s', .cons hstep hpre, hpost⟩
      · rintro ⟨s', hpre, hpost⟩
        cases hpre with
        | cons hstep hrest => exact .cons hstep (ih.mpr ⟨s', hrest, hpost⟩)

/-- Where a loop gets to a later element, it has passed every earlier one. -/
theorem Passes.at_earlier {s s₁ s₂ : σ} {pre pre₂ post post₂ : List α} {a b : α}
    (h₁ : Passes step s pre s₁) (h₂ : Passes step s pre₂ s₂)
    (hl : pre ++ a :: post = pre₂ ++ b :: post₂) (hlt : pre.length < pre₂.length) :
    ∃ mid s₁', pre₂ = pre ++ a :: mid ∧ post = mid ++ b :: post₂ ∧ step s₁ a = .next s₁' ∧
      Passes step s₁' mid s₂ := by
  obtain ⟨mid, rfl⟩ := List.prefix_of_prefix_length_le ⟨a :: post, rfl⟩ ⟨b :: post₂, hl.symm⟩
    (Nat.le_of_lt hlt)
  cases mid with
  | nil => simp at hlt
  | cons c mid =>
      simp only [List.append_assoc, List.append_cancel_left_eq, List.cons_append,
        List.cons.injEq] at hl
      obtain ⟨rfl, rfl⟩ := hl
      obtain ⟨s', hpre, hpost⟩ := passes_append_iff.mp h₂
      obtain rfl := h₁.unique hpre
      cases hpost with
      | cons hstep hrest => exact ⟨mid, _, rfl, rfl, hstep, hrest⟩

/-- What every iteration preserves holds wherever the loop passes. -/
theorem Passes.invariant {P : σ → Prop} (hnext : ∀ s a s', P s → step s a = .next s' → P s')
    {s s' : σ} {l : List α} (h : Passes step s l s') (hs : P s) : P s' := by
  induction h with
  | nil s => exact hs
  | cons hstep _ ih => exact ih (hnext _ _ _ hs hstep)

/-- The rule for a loop: an invariant, and what follows from it at either exit. -/
theorem run_invariant {P : σ → Prop} {Q : ρ → Prop}
    (hnext : ∀ s a s', P s → step s a = .next s' → P s')
    (hstop : ∀ s a r, P s → step s a = .stop r → Q r)
    (hfinish : ∀ s, P s → Q (finish s)) {s : σ} (l : List α) (hs : P s) :
    Q (run step finish s l) := by
  rcases passes_or_stops step s l with ⟨s', h⟩ | ⟨pre, a, post, s', r, rfl, h, hr⟩
  · rw [run_of_passes h]
    exact hfinish s' (h.invariant hnext hs)
  · rw [run_of_stop h hr]
    exact hstop s' a r (h.invariant hnext hs) hr

end Loop
