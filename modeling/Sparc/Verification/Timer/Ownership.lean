import Sparc.Verification.Timer.Safety

/-! # Who owns a `background_timer`

A `background_timer` is deleted by `handle_timeout`, which finds it through the argument of its
`kore_timer`. A `cancel` takes that argument away, so the timer must be one whose handler is being
run: then `handle_timeout` has it in hand.
-/

namespace Sparc.Timers

variable {η : Type*} {m m' m₁ : Timers η} {notes : List Note} {id : ℕ} {t : KoreTimer}

/-- Every `background_timer` that has not been deleted is being fired, or exactly one `kore_timer`
refers to it. -/
def Owned (m : Timers η) : Prop :=
  ∀ bgtimer, (m.bgtimers bgtimer).isSome →
    (∃ now timer, m.loop = .handler now timer bgtimer) ∨
      ∃! timer, ∃ t, m.timers timer = some t ∧ t.arg = some bgtimer

/-- A timer is canceled by its own handler only. -/
def CancelsOwn (m : Timers η) : Call η → Prop
  | .cancel timer => m.loop.running = some timer
  | .schedule _ _ _ _ _ => True
  | .flush _ => True
  | .run _ => True
  | .next => True
  | .leave => True

instance decidableCancelsOwn (m : Timers η) : ∀ c, Decidable (m.CancelsOwn c)
  | .cancel timer => inferInstanceAs (Decidable (m.loop.running = some timer))
  | .schedule _ _ _ _ _ => .isTrue trivial
  | .flush _ => .isTrue trivial
  | .run _ => .isTrue trivial
  | .next => .isTrue trivial
  | .leave => .isTrue trivial

/-! ## The steps -/

/-- What a call that can be made does, by the part of the code that it runs. -/
inductive Taken (m : Timers η) : Call η → Timers η → Prop where
  | schedule {hh : Option η} {tout created clock : ℕ} {flags : BitVec 32}
      {r : Timers η × Option ℕ} (h : m.schedule hh tout flags created clock = some r) :
      Taken m (.schedule hh tout flags created clock) r.1
  | flush {clock : ℕ → ℕ} {m' : Timers η} (h : m.flush clock = some m') :
      Taken m (.flush clock) m'
  | run {now : ℕ} (hloop : m.loop = .idle) : Taken m (.run now) { m with loop := .head now }
  | next {now : ℕ} {m' : Timers η} {n : Note} (hloop : m.loop = .head now)
      (h : m.koreTimerRunNext now = some (m', n)) : Taken m .next m'
  | cancel {timer : ℕ} {m' : Timers η} (h : m.cancel timer = some m') :
      Taken m (.cancel timer) m'
  | leave {now timer bgtimer : ℕ} {m' : Timers η} (hloop : m.loop = .handler now timer bgtimer)
      (h : (m.handleTimeoutRest bgtimer).bind (·.koreTimerRunRest now timer) = some m') :
      Taken m .leave m'

theorem Callable.taken {c : Call η} {n : Note} (hcall : m.Callable c)
    (hstep : m.step c = some (m', n)) : Taken m c m' := by
  cases c with
  | schedule hh tout flags created clock =>
      obtain ⟨r, hschedule, heq⟩ := Option.map_eq_some_iff.mp hstep
      obtain ⟨rfl, -⟩ := Prod.mk.inj heq
      exact .schedule hschedule
  | flush clock =>
      obtain ⟨m₁, hflush, heq⟩ := Option.map_eq_some_iff.mp hstep
      obtain ⟨rfl, -⟩ := Prod.mk.inj heq
      exact .flush hflush
  | run now =>
      obtain ⟨rfl, -⟩ := Prod.mk.inj (Option.some.inj hstep)
      exact .run hcall
  | next =>
      obtain ⟨now, hloop⟩ := TimerLoop.atHead_iff.mp hcall
      rw [Timers.step, hloop] at hstep
      exact .next hloop hstep
  | cancel timer =>
      obtain ⟨m₁, hcancel, heq⟩ := Option.map_eq_some_iff.mp hstep
      obtain ⟨rfl, -⟩ := Prod.mk.inj heq
      exact .cancel hcancel
  | leave =>
      obtain ⟨now, timer, bgtimer, hloop⟩ := TimerLoop.isSome_running_iff.mp hcall
      rw [Timers.step, hloop] at hstep
      obtain ⟨m₁, hleave, heq⟩ := Option.map_eq_some_iff.mp hstep
      obtain ⟨rfl, -⟩ := Prod.mk.inj heq
      exact .leave hloop hleave

/-! ## Canceled timers -/

/-- A `background_timer` that is canceled is being fired. -/
def Attended (m : Timers η) : Prop :=
  ∀ bgtimer b, m.bgtimers bgtimer = some b → b.canceled = true → m.loop.running = some bgtimer

namespace Sound

theorem running_iff (h : Sound notes m) :
    m.loop.running = some id ↔ ∃ now timer, m.loop = .handler now timer id := by
  constructor
  · intro hrunning
    cases hloop : m.loop with
    | idle => simp [hloop] at hrunning
    | head now => simp [hloop] at hrunning
    | handler now timer bgtimer =>
        obtain rfl := h.same now timer bgtimer hloop
        obtain rfl : bgtimer = id := by simpa [hloop] using hrunning
        exact ⟨now, bgtimer, rfl⟩
  · rintro ⟨now, timer, hloop⟩
    obtain rfl := h.same now timer id hloop
    rw [hloop, TimerLoop.running_handler]

/-- Only the `kore_timer` made with it refers to a `background_timer`. -/
theorem eq_of_arg (h : Sound notes m) {timer bgtimer : ℕ} (ht : m.timers timer = some t)
    (harg : t.arg = some bgtimer) : timer = bgtimer := by
  have hmade : timer < m.made := by
    by_contra hge
    have hnone : m.timers timer = none := (h.fresh timer (not_lt.mp hge)).timer
    exact Option.some_ne_none t (ht.symm.trans hnone)
  cases h.phase timer hmade with
  | live hlive =>
      obtain rfl := Option.some.inj (ht.symm.trans hlive.timer)
      exact Option.some.inj (hlive.arg.symm.trans harg)
  | dead hdead =>
      exact absurd (harg.symm.trans (hdead.expiring t ht).1) (Option.some_ne_none bgtimer)

theorem owned_iff (h : Sound notes m) : m.Owned ↔ m.Attended := by
  constructor
  · intro howned bgtimer b hb hcanceled
    rcases howned bgtimer (Option.isSome_of_mem hb) with hfired | ⟨timer, ⟨t, ht, harg⟩, -⟩
    · exact h.running_iff.mpr hfired
    · obtain rfl := h.eq_of_arg ht harg
      cases h.phase timer (h.lt_made_of_bgtimer (Option.isSome_of_mem hb)) with
      | live hlive =>
          obtain rfl := Option.some.inj (hb.symm.trans hlive.bgtimer)
          exact absurd (hcanceled.symm.trans hlive.uncanceled) Bool.false_ne_true.symm
      | dead hdead =>
          exact absurd (harg.symm.trans (hdead.expiring t ht).1) (Option.some_ne_none timer)
  · intro hattended bgtimer hsome
    cases h.phase bgtimer (h.lt_made_of_bgtimer hsome) with
    | @live t b hlive =>
        refine Or.inr ⟨bgtimer, ⟨t, hlive.timer, hlive.arg⟩, ?_⟩
        rintro timer ⟨t', ht', harg⟩
        exact h.eq_of_arg ht' harg
    | dead hdead =>
        obtain ⟨b, hb⟩ := Option.isSome_iff_exists.mp hsome
        exact Or.inl (h.running_iff.mp (hattended bgtimer b hb (hdead.canceled b hb)))

end Sound

/-! ## What the calls do to the `background_timer` objects -/

/-- The `background_timer` objects and the loop are left alone, and no timer is made. -/
structure Aside (m m' : Timers η) : Prop where
  bgtimers : m'.bgtimers = m.bgtimers
  loop : m'.loop = m.loop
  made : m'.made = m.made

theorem Aside.trans (h : Aside m m₁) (h' : Aside m₁ m') : Aside m m' :=
  ⟨h'.bgtimers.trans h.bgtimers, h'.loop.trans h.loop, h'.made.trans h.made⟩

theorem enlist_aside (h : m.enlist id t = some m') : Aside m m' := by
  obtain ⟨koreTimers, -, rfl⟩ := Option.map_eq_some_iff.mp h
  exact ⟨rfl, rfl, rfl⟩

theorem koreTimerSet_aside {clock : ℕ} (h : m.koreTimerSet clock id = some m') : Aside m m' := by
  obtain ⟨t, -, h⟩ := Option.bind_eq_some_iff.mp h
  split at h
  · obtain rfl := Option.some.inj h
    exact ⟨rfl, rfl, rfl⟩
  · exact enlist_aside h

theorem transfer_aside {clock : ℕ → ℕ} {waiting : List ℕ}
    (h : transfer clock waiting m = some m') : Aside m m' := by
  induction waiting generalizing m with
  | nil =>
      obtain rfl := Option.some.inj h
      exact ⟨rfl, rfl, rfl⟩
  | cons id waiting ih =>
      obtain ⟨waitlist_, -, h⟩ := Option.bind_eq_some_iff.mp h
      obtain ⟨m₁, hset, hrest⟩ := Option.bind_eq_some_iff.mp h
      have hset := koreTimerSet_aside hset
      exact Aside.trans ⟨hset.bgtimers, hset.loop, hset.made⟩ (ih hrest)

theorem cancelTimer_aside (h : m.cancelTimer id = some m') : Aside m m' := by
  obtain ⟨t, -, h⟩ := Option.bind_eq_some_iff.mp h
  split at h
  · obtain ⟨t', -, h⟩ := Option.bind_eq_some_iff.mp h
    obtain ⟨koreTimers, -, rfl⟩ := Option.map_eq_some_iff.mp h
    exact ⟨rfl, rfl, rfl⟩
  · obtain rfl := Option.some.inj h
    exact ⟨rfl, rfl, rfl⟩

/-- A `cancel` leaves a canceled `background_timer`, and the others alone. -/
theorem cancel_bgtimers (h : m.cancel id = some m') :
    (∃ b, m'.bgtimers id = some b ∧ b.canceled = true) ∧
      (∀ x, x ≠ id → m'.bgtimers x = m.bgtimers x) ∧ m'.loop = m.loop := by
  obtain ⟨b, hb, h⟩ := Option.bind_eq_some_iff.mp h
  split at h
  case isTrue hcanceled =>
    obtain rfl := Option.some.inj h
    exact ⟨⟨b, hb, hcanceled⟩, fun _ _ => rfl, rfl⟩
  case isFalse hcanceled =>
    obtain ⟨m₁, hcancel, rfl⟩ := Option.map_eq_some_iff.mp h
    obtain ⟨timer, -, hcancel⟩ := Option.bind_eq_some_iff.mp hcancel
    have haside := cancelTimer_aside hcancel
    refine ⟨⟨_, Function.update_self .., rfl⟩, ?_, haside.loop⟩
    intro x hx
    exact (Function.update_of_ne hx ..).trans (congrFun haside.bgtimers x)

/-- No `background_timer` comes to be canceled. -/
def Calm (m m' : Timers η) : Prop :=
  ∀ bgtimer b, m'.bgtimers bgtimer = some b → b.canceled = true → m.bgtimers bgtimer = some b

theorem Aside.calm (h : Aside m m') : Calm m m' := fun _ _ hb _ => h.bgtimers ▸ hb

theorem Calm.trans (h : Calm m m₁) (h' : Calm m₁ m') : Calm m m' :=
  fun bgtimer b hb hcanceled => h bgtimer b (h' bgtimer b hb hcanceled) hcanceled

theorem delete_bgtimers (h : m.delete id = some m') : m'.bgtimers id = none ∧ Calm m m' := by
  obtain ⟨m₁, hcancel, rfl⟩ := Option.map_eq_some_iff.mp h
  obtain ⟨-, hothers, -⟩ := cancel_bgtimers hcancel
  refine ⟨Function.update_self .., ?_⟩
  intro x b hb _
  by_cases hx : x = id
  · simp [hx, freeBg] at hb
  · simpa [freeBg, hx, hothers x hx] using hb

/-- Behind `handle_timeout` the `background_timer` is not a canceled one. -/
theorem handleTimeoutRest_bgtimers (h : m.handleTimeoutRest id = some m') :
    (∀ b, m'.bgtimers id = some b → b.canceled = false) ∧ Calm m m' := by
  obtain ⟨b, hb, h⟩ := Option.bind_eq_some_iff.mp h
  have hdelete : m.delete id = some m' →
      (∀ b, m'.bgtimers id = some b → b.canceled = false) ∧ Calm m m' := by
    intro h
    obtain ⟨hnone, hcalm⟩ := delete_bgtimers h
    exact ⟨fun b hb => absurd (hb.symm.trans hnone) (Option.some_ne_none b), hcalm⟩
  split at h
  · exact hdelete h
  · obtain ⟨t, -, h⟩ := Option.bind_eq_some_iff.mp h
    split at h
    case isTrue => exact hdelete h
    case isFalse hflags =>
      obtain rfl := Option.some.inj h
      refine ⟨?_, fun _ _ hb _ => hb⟩
      intro b' hb'
      obtain rfl := Option.some.inj (hb.symm.trans hb')
      simp only [Bool.or_eq_true, not_or, Bool.not_eq_true] at hflags
      exact hflags.2

theorem koreTimerRunRest_bgtimers {now : ℕ} (h : m.koreTimerRunRest now id = some m') :
    m'.bgtimers = m.bgtimers := by
  obtain ⟨t, -, h⟩ := Option.bind_eq_some_iff.mp h
  split at h
  · obtain rfl := Option.some.inj h
    rfl
  · obtain ⟨m₁, henlist, rfl⟩ := Option.map_eq_some_iff.mp h
    exact (enlist_aside henlist).bgtimers

theorem koreTimerRunNext_calm {now : ℕ} {n : Note} (h : m.koreTimerRunNext now = some (m', n)) :
    Calm m m' := by
  rw [koreTimerRunNext] at h
  split at h
  case h_1 =>
    obtain ⟨rfl, -⟩ := Prod.mk.inj (Option.some.inj h)
    exact fun _ _ hb _ => hb
  case h_2 timer koreTimers hlist =>
    obtain ⟨t, -, h⟩ := Option.bind_eq_some_iff.mp h
    split at h
    · obtain ⟨rfl, -⟩ := Prod.mk.inj (Option.some.inj h)
      exact fun _ _ hb _ => hb
    · simp only at h
      split at h
      · obtain ⟨m₁, hrest, heq⟩ := Option.map_eq_some_iff.mp h
        obtain ⟨rfl, -⟩ := Prod.mk.inj heq
        exact fun _ _ hb _ => koreTimerRunRest_bgtimers hrest ▸ hb
      · obtain ⟨b, -, h⟩ := Option.bind_eq_some_iff.mp h
        split at h
        · obtain ⟨rfl, -⟩ := Prod.mk.inj (Option.some.inj h)
          exact fun _ _ hb _ => hb
        · obtain ⟨m₂, hrest, heq⟩ := Option.map_eq_some_iff.mp h
          obtain ⟨rfl, -⟩ := Prod.mk.inj heq
          obtain ⟨m₁, htimeout, hrest⟩ := Option.bind_eq_some_iff.mp hrest
          intro x b hb hcanceled
          rw [koreTimerRunRest_bgtimers hrest] at hb
          exact (handleTimeoutRest_bgtimers htimeout).2 x b hb hcanceled

/-- What `schedule` can do: it makes a timer that waits or that is handed over at once, or it
makes none. -/
theorem schedule_cases {hh : Option η} {tout created clock : ℕ} {flags : BitVec 32}
    {r : Timers η × Option ℕ} (h : m.schedule hh tout flags created clock = some r) :
    (∃ handler, hh = some handler ∧ 10 < tout ∧
      (m.cache_ = true ∧ r.1 = { m.make handler tout flags created with
          waitlist_ := m.waitlist_ ++ [m.made] } ∨
        m.cache_ = false ∧
          (m.make handler tout flags created).koreTimerSet clock m.made = some r.1)) ∨
    ¬ (hh.isSome ∧ 10 < tout) ∧ r.1 = m := by
  cases hh with
  | none =>
      obtain rfl := Option.some.inj h
      exact Or.inr ⟨fun hboth => Bool.false_ne_true hboth.1, rfl⟩
  | some handler =>
      rw [schedule] at h
      split at h
      case isTrue htout =>
        refine Or.inl ⟨handler, rfl, htout, ?_⟩
        cases hcache : m.cache_ with
        | true =>
            obtain rfl : _ = r := Option.some.inj ((if_pos hcache).symm.trans h)
            exact Or.inl ⟨rfl, rfl⟩
        | false =>
            have hcached : ¬ (m.make handler tout flags created).cache_ = true :=
              fun htrue => Bool.false_ne_true (hcache.symm.trans htrue)
            obtain ⟨m', hset, rfl⟩ :=
              Option.map_eq_some_iff.mp ((if_neg hcached).symm.trans h)
            exact Or.inr ⟨rfl, hset⟩
      case isFalse htout =>
        obtain rfl := Option.some.inj h
        exact Or.inr ⟨fun hboth => htout hboth.2, rfl⟩

theorem make_calm (hh : η) (tout : ℕ) (flags : BitVec 32) (created : ℕ) :
    Calm m (m.make hh tout flags created) := by
  intro x b hb hcanceled
  by_cases hx : x = m.made
  · obtain rfl : (⟨some m.made, some hh, false⟩ : BackgroundTimer η) = b := by
      simpa [hx, make, write, writeBg] using hb
    exact absurd hcanceled Bool.false_ne_true
  · simpa [make, write, writeBg, hx] using hb

theorem schedule_calm {hh : Option η} {tout created clock : ℕ} {flags : BitVec 32}
    {r : Timers η × Option ℕ} (h : m.schedule hh tout flags created clock = some r) :
    Calm m r.1 ∧ r.1.loop = m.loop := by
  rcases schedule_cases h with ⟨handler, -, -, ⟨-, hr⟩ | ⟨-, hset⟩⟩ | ⟨-, hr⟩
  · rw [hr]
    exact ⟨make_calm handler tout flags created, rfl⟩
  · have haside := koreTimerSet_aside hset
    exact ⟨(make_calm handler tout flags created).trans haside.calm, haside.loop⟩
  · rw [hr]
    exact ⟨fun _ _ hb _ => hb, rfl⟩

/-! ## The runs -/

theorem Attended.calm (h : m.Attended) (hcalm : Calm m m') (hloop : m'.loop = m.loop) :
    m'.Attended := by
  intro bgtimer b hb hcanceled
  rw [hloop]
  exact h bgtimer b (hcalm bgtimer b hb hcanceled) hcanceled

/-- Where no handler is being run, no `background_timer` is canceled. -/
theorem Attended.quiet (h : m.Attended) (hcalm : Calm m m') (hnone : m.loop.running = none) :
    m'.Attended := by
  intro bgtimer b hb hcanceled
  have hrunning := h bgtimer b (hcalm bgtimer b hb hcanceled) hcanceled
  exact absurd (hrunning.symm.trans hnone) (Option.some_ne_none bgtimer)

theorem Attended.leave {now : ℕ} (h : m.Attended) (hloop : m.loop = .handler now id id)
    (hleave : (m.handleTimeoutRest id).bind (·.koreTimerRunRest now id) = some m') :
    m'.Attended := by
  obtain ⟨m₁, htimeout, hrest⟩ := Option.bind_eq_some_iff.mp hleave
  obtain ⟨huncanceled, hcalm⟩ := handleTimeoutRest_bgtimers htimeout
  intro x b hb hcanceled
  rw [koreTimerRunRest_bgtimers hrest] at hb
  obtain rfl : id = x := by
    simpa [hloop] using h x b (hcalm x b hb hcanceled) hcanceled
  exact absurd (hcanceled.symm.trans (huncanceled b hb)) Bool.false_ne_true.symm

theorem Attended.cancel_iff (h : m.Attended) (hcancel : m.cancel id = some m') :
    m'.Attended ↔ m.loop.running = some id := by
  obtain ⟨⟨b, hb, hcanceled⟩, hothers, hloop⟩ := cancel_bgtimers hcancel
  constructor
  · intro h'
    rw [← hloop]
    exact h' id b hb hcanceled
  · intro hrunning x b' hb' hcanceled'
    by_cases hx : x = id
    · rw [hx, hloop, hrunning]
    · rw [hothers x hx] at hb'
      rw [hloop]
      exact h x b' hb' hcanceled'

/-- A call from an attended state leads to another exactly if it cancels no timer but its own. -/
theorem Sound.attended_step_iff {c : Call η} (h : Sound notes m) (hattended : m.Attended)
    (htaken : Taken m c m') : m'.Attended ↔ m.CancelsOwn c := by
  cases htaken with
  | schedule hschedule =>
      obtain ⟨hcalm, hloop⟩ := schedule_calm hschedule
      exact iff_of_true (hattended.calm hcalm hloop) trivial
  | flush hflush =>
      have haside := transfer_aside hflush
      exact iff_of_true (hattended.calm haside.calm haside.loop) trivial
  | run hloop =>
      exact iff_of_true (hattended.quiet (fun _ _ hb _ => hb) (by simp [hloop])) trivial
  | next hloop hnext =>
      have hcalm := koreTimerRunNext_calm hnext
      exact iff_of_true (hattended.quiet hcalm (by simp [hloop])) trivial
  | cancel hcancel => exact hattended.cancel_iff hcancel
  | @leave now timer bgtimer m' hloop hleave =>
      obtain rfl := h.same now timer bgtimer hloop
      exact iff_of_true (hattended.leave hloop hleave) trivial

/-- In a run of calls that can be made every `background_timer` stays owned exactly if no timer
is canceled outside of its own handler. -/
theorem run_owned_iff {calls : List (Call η)} (hcalls : Machine.Always step Callable new calls) :
    Machine.Throughout step Owned new calls ↔ Machine.Always step CancelsOwn new calls := by
  have hstart : Invariant [] (new : Timers η) := ⟨sound_new, fun _ => rfl⟩
  have howned : (new : Timers η).Owned := fun _ hsome => absurd hsome Bool.false_ne_true
  refine Machine.throughout_iff_always (I := Invariant) (C := Callable)
    (fun before m c h hcall => h.step hcall) ?_ hstart howned hcalls
  intro before m c m' n hinv howned hcall hstep
  obtain ⟨m₁, n₁, hstep₁, hinv'⟩ := hinv.step hcall
  obtain ⟨rfl, rfl⟩ := Prod.mk.inj (Option.some.inj (hstep.symm.trans hstep₁))
  rw [hinv'.sound.owned_iff]
  exact hinv.sound.attended_step_iff (hinv.sound.owned_iff.mp howned) (hcall.taken hstep)

/-- The handler of a repeating timer cancels it when it runs for the second time. -/
def ownCancelRun : List (Call Unit) :=
  [.schedule (some ()) 100 0 0 0, .flush (fun _ => 0), .run 100, .next, .leave, .next,
    .run 200, .next, .cancel 0, .leave, .next]

theorem run_owned_iff_own :
    Machine.Always step Callable new ownCancelRun ∧
      Machine.Throughout step Owned new ownCancelRun :=
  ⟨by decide, (run_owned_iff (by decide)).mpr (by decide)⟩

/-- The handler of a repeating timer hands out its id, and the application cancels the timer
between two runs. -/
def lateCancelRun : List (Call Unit) :=
  [.schedule (some ()) 100 0 0 0, .flush (fun _ => 0), .run 100, .next, .leave, .next, .cancel 0]

/-- Nothing refers to the `background_timer` from then on. -/
theorem late_cancel_orphans :
    Machine.Always step Callable new lateCancelRun ∧
      ∃ m notes, Machine.exec step new lateCancelRun = some (m, notes) ∧
        Note.invoked 0 ∈ notes ∧ Note.returned 0 ∈ notes ∧ ¬ m.Owned := by
  refine ⟨by decide, _, _, rfl, by decide, by decide, ?_⟩
  intro howned
  rcases howned 0 rfl with ⟨now, timer, hloop⟩ | ⟨timer, ⟨t, ht, harg⟩, -⟩
  · exact TimerLoop.noConfusion hloop
  · cases timer with
    | zero =>
        obtain rfl := Option.some.inj ht
        exact absurd harg.symm (Option.some_ne_none 0)
    | succ timer => exact absurd ht.symm (Option.some_ne_none t)

end Sparc.Timers
