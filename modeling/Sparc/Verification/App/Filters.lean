import Sparc.Verification.App.Trace

/-! # The filter loop

`Visit` says that the loop of `App::callFidecs` arrives at a filter that covers the route.
The filters recorded in the trace are the visited ones, and what the loop does after a
visit depends on the outcome of the filter only.
-/

namespace Sparc.App

variable {σ : Type*} {stage : Stage} {pfx : CString}

/-- The exchange after the filter has run. -/
def visited (stage : Stage) (s : FidecState σ) (fc : Fidec σ) : Exchange σ :=
  s.x.invoke fc.h (.fidec stage s.index (s.x.reaction fc.h).outcome)

/-! ## One iteration -/

theorem fidecStep_skip (s : FidecState σ) {fc : Fidec σ} (h : fc.covers pfx = false) :
    fidecStep stage pfx s fc = .next ⟨s.index + 1, s.status, s.x⟩ := by
  simp [fidecStep, h]

theorem fidecStep_ret (s : FidecState σ) {fc : Fidec σ} (h : fc.covers pfx = true) {status : ℤ}
    (ho : (s.x.reaction fc.h).outcome = .ret status) :
    fidecStep stage pfx s fc =
      if status = Ret.abort ∨ s.x.resp.ended_ = true then .stop (some status, visited stage s fc)
      else .next ⟨s.index + 1, status, visited stage s fc⟩ := by
  simp only [fidecStep, h, ite_true, ho, Exchange.invoke_ended, visited]

theorem fidecStep_halt (s : FidecState σ) {fc : Fidec σ} (h : fc.covers pfx = true) {status : ℤ}
    {what : Option CString} (ho : (s.x.reaction fc.h).outcome = .halt status what) :
    fidecStep stage pfx s fc =
      .next ⟨s.index + 1, Ret.abort, (visited stage s fc).end_ (haltStatus status) what⟩ := by
  simp only [fidecStep, h, ite_true, ho, visited]

theorem fidecStep_exception (s : FidecState σ) {fc : Fidec σ} (h : fc.covers pfx = true)
    (ho : (s.x.reaction fc.h).outcome = .exception) :
    fidecStep stage pfx s fc = .stop (some Status.internalError, visited stage s fc) := by
  simp only [fidecStep, h, ite_true, ho, visited]

theorem fidecStep_foreign (s : FidecState σ) {fc : Fidec σ} (h : fc.covers pfx = true)
    (ho : (s.x.reaction fc.h).outcome = .foreign) :
    fidecStep stage pfx s fc = .stop (none, visited stage s fc) := by
  simp only [fidecStep, h, ite_true, ho, visited]

/-- How an iteration goes on: past a filter that does not cover the route, behind one that
returned, or with the response ended by a halt. -/
inductive FidecNext (stage : Stage) (pfx : CString) (s : FidecState σ) (fc : Fidec σ) :
    FidecState σ → Prop where
  | skip (h : fc.covers pfx = false) : FidecNext stage pfx s fc ⟨s.index + 1, s.status, s.x⟩
  | ret (h : fc.covers pfx = true) {status : ℤ}
      (ho : (s.x.reaction fc.h).outcome = .ret status) (hne : status ≠ Ret.abort)
      (hopen : s.x.resp.ended_ = false) :
      FidecNext stage pfx s fc ⟨s.index + 1, status, visited stage s fc⟩
  | halt (h : fc.covers pfx = true) {status : ℤ} {what : Option CString}
      (ho : (s.x.reaction fc.h).outcome = .halt status what) :
      FidecNext stage pfx s fc
        ⟨s.index + 1, Ret.abort, (visited stage s fc).end_ (haltStatus status) what⟩

theorem fidecStep_next {s s' : FidecState σ} {fc : Fidec σ}
    (h : fidecStep stage pfx s fc = .next s') : FidecNext stage pfx s fc s' := by
  cases hc : fc.covers pfx with
  | false =>
      rw [fidecStep_skip s hc] at h
      obtain rfl := Loop.Control.next.inj h
      exact .skip hc
  | true =>
      cases ho : (s.x.reaction fc.h).outcome with
      | ret status =>
          rw [fidecStep_ret s hc ho] at h
          split at h
          · cases h
          · next hgo =>
            obtain rfl := Loop.Control.next.inj h
            simp only [not_or, Bool.not_eq_true] at hgo
            exact .ret hc ho hgo.1 hgo.2
      | halt status what =>
          rw [fidecStep_halt s hc ho] at h
          obtain rfl := Loop.Control.next.inj h
          exact .halt hc ho
      | exception =>
          rw [fidecStep_exception s hc ho] at h
          cases h
      | foreign =>
          rw [fidecStep_foreign s hc ho] at h
          cases h

theorem FidecNext.index {s s' : FidecState σ} {fc : Fidec σ} (h : FidecNext stage pfx s fc s') :
    s'.index = s.index + 1 := by
  cases h <;> rfl

/-- How an iteration leaves the loop, which only a visit does. -/
inductive FidecStop (stage : Stage) (pfx : CString) (s : FidecState σ) (fc : Fidec σ) :
    Option ℤ × Exchange σ → Prop where
  | ret (h : fc.covers pfx = true) {status : ℤ}
      (ho : (s.x.reaction fc.h).outcome = .ret status)
      (hstop : status = Ret.abort ∨ s.x.resp.ended_ = true) :
      FidecStop stage pfx s fc (some status, visited stage s fc)
  | exception (h : fc.covers pfx = true) (ho : (s.x.reaction fc.h).outcome = .exception) :
      FidecStop stage pfx s fc (some Status.internalError, visited stage s fc)
  | foreign (h : fc.covers pfx = true) (ho : (s.x.reaction fc.h).outcome = .foreign) :
      FidecStop stage pfx s fc (none, visited stage s fc)

theorem fidecStep_stop {s : FidecState σ} {fc : Fidec σ} {r : Option ℤ × Exchange σ}
    (h : fidecStep stage pfx s fc = .stop r) : FidecStop stage pfx s fc r := by
  cases hc : fc.covers pfx with
  | false =>
      rw [fidecStep_skip s hc] at h
      cases h
  | true =>
      cases ho : (s.x.reaction fc.h).outcome with
      | ret status =>
          rw [fidecStep_ret s hc ho] at h
          split at h
          · next hstop =>
            obtain rfl := Loop.Control.stop.inj h
            exact .ret hc ho hstop
          · cases h
      | halt status what =>
          rw [fidecStep_halt s hc ho] at h
          cases h
      | exception =>
          rw [fidecStep_exception s hc ho] at h
          obtain rfl := Loop.Control.stop.inj h
          exact .exception hc ho
      | foreign =>
          rw [fidecStep_foreign s hc ho] at h
          obtain rfl := Loop.Control.stop.inj h
          exact .foreign hc ho

theorem FidecStop.covers {s : FidecState σ} {fc : Fidec σ} {r : Option ℤ × Exchange σ}
    (h : FidecStop stage pfx s fc r) : fc.covers pfx = true := by
  cases h <;> assumption

theorem FidecStop.exchange {s : FidecState σ} {fc : Fidec σ} {r : Option ℤ × Exchange σ}
    (h : FidecStop stage pfx s fc r) : r.2 = visited stage s fc := by
  cases h <;> rfl

theorem grows_visited (s : FidecState σ) (fc : Fidec σ) :
    Exchange.Grows (Event.ofFidec stage) s.x (visited stage s fc) := by
  apply Exchange.grows_invoke
  · simp [Event.ofFidec]
  · intro e he
    cases e <;> simp_all [Event.isDirect, Event.ofFidec]

theorem grows_halted (x : Exchange σ) (status : ℤ) (what : Option CString) :
    Exchange.Grows (Event.ofFidec stage) x (x.end_ status what) := by
  apply (Exchange.grows_end x status what).mono
  intro e he
  cases e <;> simp_all [Event.isResponse, Event.ofFidec]

theorem fidecStep_next_grows {s s' : FidecState σ} {fc : Fidec σ}
    (h : fidecStep stage pfx s fc = .next s') :
    Exchange.Grows (Event.ofFidec stage) s.x s'.x := by
  cases fidecStep_next h with
  | skip hc => exact .of_trace_eq rfl
  | ret hc ho hne hopen => exact grows_visited s fc
  | halt hc ho => exact (grows_visited s fc).trans (grows_halted _ _ _)

/-! ## The loop -/

/-- The loop of `App::callFidecs` from a given state on. -/
def fidecsFrom (stage : Stage) (pfx : CString) (s : FidecState σ) (fidecs : List (Fidec σ)) :
    Option ℤ × Exchange σ :=
  Loop.run (fidecStep stage pfx) (fun s => (some s.status, s.x)) s fidecs

/-- The state in which the loop begins. -/
def fidecStart (x : Exchange σ) : FidecState σ := ⟨0, Ret.continue_, x⟩

theorem passes_index {s s' : FidecState σ} {l : List (Fidec σ)}
    (h : Loop.Passes (fidecStep stage pfx) s l s') : s'.index = s.index + l.length := by
  induction h with
  | nil s => simp
  | cons hstep _ ih =>
      rw [ih, (fidecStep_next hstep).index, List.length_cons]
      omega

theorem grows_fidecsFrom (s : FidecState σ) (fidecs : List (Fidec σ)) :
    Exchange.Grows (Event.ofFidec stage) s.x (fidecsFrom stage pfx s fidecs).2 := by
  apply Loop.run_invariant (P := fun s' => Exchange.Grows (Event.ofFidec stage) s.x s'.x)
    (Q := fun r : Option ℤ × Exchange σ => Exchange.Grows (Event.ofFidec stage) s.x r.2)
  · exact fun s a s' h hstep => h.trans (fidecStep_next_grows hstep)
  · intro s a r h hstep
    rw [(fidecStep_stop hstep).exchange]
    exact h.trans (grows_visited s a)
  · exact fun s h => h
  · exact .of_trace_eq rfl

theorem callFidecs_fst (fidecs : List (Fidec σ)) (x : Exchange σ) :
    (callFidecs stage fidecs pfx x).1 = (fidecsFrom stage pfx (fidecStart x) fidecs).1 := rfl

theorem grows_callFidecs (fidecs : List (Fidec σ)) (x : Exchange σ) :
    Exchange.Grows (Event.ofFidecs stage) x (callFidecs stage fidecs pfx x).2 := by
  have hloop : Exchange.Grows (Event.ofFidecs stage) x
      (fidecsFrom stage pfx (fidecStart x) fidecs).2 := by
    apply (grows_fidecsFrom (fidecStart x) fidecs).mono
    intro e he
    cases e <;> simp_all [Event.ofFidec, Event.ofFidecs]
  apply hloop.trans
  change Exchange.Grows _ (fidecsFrom stage pfx (fidecStart x) fidecs).2
    ((fidecsFrom stage pfx (fidecStart x) fidecs).1.elim _ _)
  cases (fidecsFrom stage pfx (fidecStart x) fidecs).1 with
  | none => exact .of_trace_eq rfl
  | some ret => exact Exchange.grows_log _ (by simp [Event.ofFidecs])

/-- The invocations recorded by `App::callFidecs` are those of its loop. -/
theorem mem_callFidecs_iff (fidecs : List (Fidec σ)) (x : Exchange σ) (i : ℕ) (o : Outcome) :
    .fidec stage i o ∈ (callFidecs stage fidecs pfx x).2.trace ↔
      .fidec stage i o ∈ (fidecsFrom stage pfx (fidecStart x) fidecs).2.trace := by
  change _ ∈ ((fidecsFrom stage pfx (fidecStart x) fidecs).1.elim _ _ : Exchange σ).trace ↔ _
  cases (fidecsFrom stage pfx (fidecStart x) fidecs).1 with
  | none => rfl
  | some ret => simp [Exchange.log, fidecsFrom, fidecStart]

/-! ## Visits -/

/-- The loop arrives in the state `s` at the filter `fc`, which covers the route, with the
filters `post` behind it. -/
structure Visit (stage : Stage) (pfx : CString) (x : Exchange σ) (fidecs : List (Fidec σ))
    (s : FidecState σ) (fc : Fidec σ) (post : List (Fidec σ)) : Prop where
  arrives : ∃ pre, fidecs = pre ++ fc :: post ∧
    Loop.Passes (fidecStep stage pfx) (fidecStart x) pre s
  covers : fc.covers pfx = true

section Visits

variable {x : Exchange σ} {fidecs post : List (Fidec σ)} {s s' : FidecState σ} {fc : Fidec σ}

theorem Visit.run_next (h : Visit stage pfx x fidecs s fc post)
    (hstep : fidecStep stage pfx s fc = .next s') :
    fidecsFrom stage pfx (fidecStart x) fidecs = fidecsFrom stage pfx s' post := by
  obtain ⟨pre, rfl, hpasses⟩ := h.arrives
  rw [fidecsFrom, Loop.run_append hpasses, Loop.run, hstep]
  rfl

theorem Visit.run_stop (h : Visit stage pfx x fidecs s fc post) {r : Option ℤ × Exchange σ}
    (hstep : fidecStep stage pfx s fc = .stop r) :
    fidecsFrom stage pfx (fidecStart x) fidecs = r := by
  obtain ⟨pre, rfl, hpasses⟩ := h.arrives
  exact Loop.run_of_stop hpasses hstep post

/-- A visited filter is recorded with its outcome. -/
theorem Visit.mem_trace (h : Visit stage pfx x fidecs s fc post) :
    .fidec stage s.index (s.x.reaction fc.h).outcome ∈
      (fidecsFrom stage pfx (fidecStart x) fidecs).2.trace := by
  have hmem := Exchange.mem_invoke s.x fc.h (.fidec stage s.index (s.x.reaction fc.h).outcome)
  cases hstep : fidecStep stage pfx s fc with
  | stop r =>
      rw [h.run_stop hstep, (fidecStep_stop hstep).exchange]
      exact hmem
  | next s' =>
      rw [h.run_next hstep]
      apply (grows_fidecsFrom s' post).mem
      cases fidecStep_next hstep with
      | skip hc =>
          rw [h.covers] at hc
          cases hc
      | ret hc ho hne hopen => exact hmem
      | halt hc ho => exact (Exchange.grows_end _ _ _).mem hmem

/-- Every recorded filter was visited. -/
theorem mem_fidecsFrom {s₀ : FidecState σ} {i : ℕ} {o : Outcome}
    (h : .fidec stage i o ∈ (fidecsFrom stage pfx s₀ fidecs).2.trace) :
    .fidec stage i o ∈ s₀.x.trace ∨
    ∃ pre fc post s, fidecs = pre ++ fc :: post ∧
      Loop.Passes (fidecStep stage pfx) s₀ pre s ∧ fc.covers pfx = true ∧ s.index = i ∧
      (s.x.reaction fc.h).outcome = o := by
  induction fidecs generalizing s₀ with
  | nil => exact Or.inl h
  | cons fc rest ih =>
      have hvisit : .fidec stage i o ∈ (visited stage s₀ fc).trace → fc.covers pfx = true →
          .fidec stage i o ∈ s₀.x.trace ∨ ∃ pre fc' post s, fc :: rest = pre ++ fc' :: post ∧
            Loop.Passes (fidecStep stage pfx) s₀ pre s ∧ fc'.covers pfx = true ∧
            s.index = i ∧ (s.x.reaction fc'.h).outcome = o := by
        intro hmem hc
        rcases Exchange.of_mem_invoke hmem rfl with hmem | heq
        · exact Or.inl hmem
        · simp only [Event.fidec.injEq, true_and] at heq
          exact Or.inr ⟨[], fc, rest, s₀, rfl, .nil s₀, hc, heq.1.symm, heq.2.symm⟩
      cases hstep : fidecStep stage pfx s₀ fc with
      | stop r =>
          simp only [fidecsFrom, Loop.run, hstep] at h
          have hstop := fidecStep_stop hstep
          rw [hstop.exchange] at h
          exact hvisit h hstop.covers
      | next s' =>
          simp only [fidecsFrom, Loop.run, hstep] at h
          rcases ih h with hmem | ⟨pre, fc', post, s, rfl, hpasses, hrest⟩
          · cases fidecStep_next hstep with
            | skip hc => exact Or.inl hmem
            | ret hc ho hne hopen => exact hvisit hmem hc
            | halt hc ho => exact hvisit ((Exchange.grows_end _ _ _).mem_of_not hmem rfl) hc
          · exact Or.inr ⟨fc :: pre, fc', post, s, rfl, .cons hstep hpasses, hrest⟩

/-- The recorded filters of a loop that starts with an empty trace are the visits. -/
theorem visit_of_mem {i : ℕ} {o : Outcome} (hx : x.trace = [])
    (h : .fidec stage i o ∈ (fidecsFrom stage pfx (fidecStart x) fidecs).2.trace) :
    ∃ s fc post, Visit stage pfx x fidecs s fc post ∧ s.index = i ∧
      (s.x.reaction fc.h).outcome = o := by
  rcases mem_fidecsFrom h with hmem | ⟨pre, fc, post, s, hl, hpasses, hc, hi, ho⟩
  · simp [fidecStart, hx] at hmem
  · exact ⟨s, fc, post, ⟨⟨pre, hl, hpasses⟩, hc⟩, hi, ho⟩

/-- Filters that do not cover the route are passed over. -/
theorem passes_skip (s : FidecState σ) {l : List (Fidec σ)}
    (h : ∀ fc ∈ l, fc.covers pfx = false) :
    Loop.Passes (fidecStep stage pfx) s l ⟨s.index + l.length, s.status, s.x⟩ := by
  induction l generalizing s with
  | nil => exact .nil s
  | cons fc l ih =>
      have hrest := ih ⟨s.index + 1, s.status, s.x⟩ (fun fc hfc => h fc (by simp [hfc]))
      refine .cons (fidecStep_skip s (h fc (by simp))) ?_
      simpa [Nat.add_assoc, Nat.add_comm 1] using hrest

theorem fidecsFrom_skip (s : FidecState σ) {l : List (Fidec σ)}
    (h : ∀ fc ∈ l, fc.covers pfx = false) :
    fidecsFrom stage pfx s l = (some s.status, s.x) := by
  rw [fidecsFrom, Loop.run_of_passes (passes_skip s h)]

/-- If the loop goes on and another filter covers the route, that one is visited. -/
theorem Visit.exists_later (h : Visit stage pfx x fidecs s fc post)
    (hstep : fidecStep stage pfx s fc = .next s') (hpost : ∃ fc' ∈ post, fc'.covers pfx = true) :
    ∃ s₂ fc₂ post₂, Visit stage pfx x fidecs s₂ fc₂ post₂ ∧ s.index < s₂.index := by
  obtain ⟨pre, rfl, hpasses⟩ := h.arrives
  obtain ⟨skip, fc₂, post₂, rfl, hskip, hc⟩ : ∃ skip fc₂ post₂, post = skip ++ fc₂ :: post₂ ∧
      (∀ fc ∈ skip, fc.covers pfx = false) ∧ fc₂.covers pfx = true := by
    clear h hpasses
    induction post with
    | nil => simp at hpost
    | cons a post ih =>
        cases ha : a.covers pfx with
        | true => exact ⟨[], a, post, rfl, by simp, ha⟩
        | false =>
            obtain ⟨fc', hfc', hc'⟩ := hpost
            rcases List.mem_cons.mp hfc' with rfl | hfc'
            · rw [ha] at hc'
              cases hc'
            · obtain ⟨skip, fc₂, post₂, rfl, hskip, hc⟩ := ih ⟨fc', hfc', hc'⟩
              exact ⟨a :: skip, fc₂, post₂, rfl, by simpa [ha] using hskip, hc⟩
  have hpasses₂ : Loop.Passes (fidecStep stage pfx) (fidecStart x) (pre ++ fc :: skip)
      ⟨s'.index + skip.length, s'.status, s'.x⟩ :=
    Loop.passes_append_iff.mpr ⟨s, hpasses, .cons hstep (passes_skip s' hskip)⟩
  refine ⟨_, fc₂, post₂, ⟨⟨pre ++ fc :: skip, by simp, hpasses₂⟩, hc⟩, ?_⟩
  have hindex := (fidecStep_next hstep).index
  simp only
  omega

/-- A visit behind another one: the loop went on there, to a filter behind. -/
theorem Visit.of_later {s₂ : FidecState σ} {fc₂ : Fidec σ} {post₂ : List (Fidec σ)}
    (h : Visit stage pfx x fidecs s fc post) (h₂ : Visit stage pfx x fidecs s₂ fc₂ post₂)
    (hlt : s.index < s₂.index) :
    (∃ s', fidecStep stage pfx s fc = .next s') ∧ fc₂ ∈ post := by
  obtain ⟨pre, hl, hpasses⟩ := h.arrives
  obtain ⟨pre₂, hl₂, hpasses₂⟩ := h₂.arrives
  have hindex := passes_index hpasses
  have hindex₂ := passes_index hpasses₂
  obtain ⟨mid, s', -, hpost, hstep, -⟩ :=
    hpasses.at_earlier hpasses₂ (hl.symm.trans hl₂) (by omega)
  exact ⟨⟨s', hstep⟩, by simp [hpost]⟩

end Visits

end Sparc.App
