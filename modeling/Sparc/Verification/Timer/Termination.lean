import Sparc.Verification.Timer.Deadlines

/-! # `kore_timer_run` ends

The timers that are due are counted. An iteration takes one of them out of the list, and no call
puts one back that is due, as long as the sums do not overflow.
-/

namespace Sparc.Timers

variable {η : Type*} {m m' m₁ : Timers η} {notes : List Note} {id : ℕ} {t : KoreTimer}

/-! ## The loop ends -/

/-- The timer is due. -/
def dueAt (m : Timers η) (now id : ℕ) : Bool := (m.nextrun id).any (· ≤ now)

/-- The timers in the list that are due. -/
def due (m : Timers η) (now : ℕ) : ℕ := m.koreTimers.countP (m.dueAt now)

/-- How many iterations the loop has still to make at most. -/
def remaining (m : Timers η) : ℕ := m.loop.now.elim 0 (fun now => m.due now + 1)

theorem Tame.dueAt (h : Tame m m') {now : ℕ} (hdue : m'.dueAt now id = true) :
    m.dueAt now id = true := by
  rw [Timers.dueAt, nextrun, Option.any_map, Option.any_eq_true] at hdue ⊢
  obtain ⟨t', ht', hle⟩ := hdue
  obtain ⟨t, ht, -, hnextrun, -⟩ := h.timers id t' ht'
  exact ⟨t, ht, by simpa [hnextrun] using hle⟩

theorem Tame.due_le (h : Tame m m') (now : ℕ) : m'.due now ≤ m.due now :=
  calc m'.koreTimers.countP (m'.dueAt now)
    _ ≤ m'.koreTimers.countP (m.dueAt now) :=
        List.countP_mono_left (fun _ _ hdue => h.dueAt hdue)
    _ ≤ m.koreTimers.countP (m.dueAt now) := h.koreTimers.countP_le

/-- A timer that is not due comes to the list. -/
theorem enlist_due {now : ℕ} (hid : id ∉ m.koreTimers) (hlater : now < t.nextrun)
    (h : m.enlist id t = some m') : m'.due now = m.due now := by
  obtain ⟨koreTimers, hinsert, rfl⟩ := Option.map_eq_some_iff.mp h
  have hperm := Agenda.insert_perm hinsert
  have hself : (m.write id t).dueAt now id = false := by
    simpa [dueAt, nextrun, write] using hlater
  have hothers : ∀ x ∈ m.koreTimers,
      ((m.write id t).dueAt now x = true ↔ m.dueAt now x = true) := by
    intro x hx
    have hne : x ≠ id := fun heq => hid (heq ▸ hx)
    rw [dueAt, dueAt, nextrun_write_of_ne hne]
  calc koreTimers.countP ((m.write id t).dueAt now)
    _ = (id :: m.koreTimers).countP ((m.write id t).dueAt now) := hperm.countP_eq _
    _ = m.koreTimers.countP ((m.write id t).dueAt now) := List.countP_cons_of_neg (by simp [hself])
    _ = m.koreTimers.countP (m.dueAt now) := List.countP_congr hothers

theorem koreTimerSet_due {now clock : ℕ} (hid : id ∉ m.koreTimers)
    (hlater : ∀ t, m.timers id = some t → now < nextrunAt clock t.interval)
    (h : m.koreTimerSet clock id = some m') :
    m'.due now = m.due now ∧ ∀ x ∈ m'.koreTimers, x = id ∨ x ∈ m.koreTimers := by
  obtain ⟨t, ht, h⟩ := Option.bind_eq_some_iff.mp h
  split at h
  · obtain rfl := Option.some.inj h
    refine ⟨List.countP_congr ?_, fun x hx => Or.inr hx⟩
    intro x hx
    have hne : x ≠ id := fun heq => hid (heq ▸ hx)
    rw [dueAt, dueAt, nextrun_write_of_ne hne]
  · refine ⟨enlist_due hid (hlater t ht) h, ?_⟩
    obtain ⟨koreTimers, hinsert, rfl⟩ := Option.map_eq_some_iff.mp h
    intro x hx
    exact List.mem_cons.mp ((Agenda.insert_perm hinsert).mem_iff.mp hx)

theorem transfer_due {now : ℕ} {clock : ℕ → ℕ} {waiting : List ℕ} (hnodup : waiting.Nodup)
    (hapart : ∀ x ∈ waiting, x ∉ m.koreTimers)
    (hlater : ∀ x ∈ waiting, ∀ t, m.timers x = some t → now < nextrunAt (clock x) t.interval)
    (h : transfer clock waiting m = some m') : m'.due now = m.due now := by
  induction waiting generalizing m with
  | nil =>
      obtain rfl := Option.some.inj h
      rfl
  | cons id waiting ih =>
      obtain ⟨waitlist_, -, h⟩ := Option.bind_eq_some_iff.mp h
      obtain ⟨m₁, hset, hrest⟩ := Option.bind_eq_some_iff.mp h
      obtain ⟨hid, hnodup⟩ := List.nodup_cons.mp hnodup
      obtain ⟨hdue, hmem⟩ := koreTimerSet_due (m := { m with waitlist_ })
        (hapart id List.mem_cons_self) (hlater id List.mem_cons_self) hset
      obtain ⟨-, hothers, -⟩ := koreTimerSet_timers hset
      refine (ih hnodup ?_ ?_ hrest).trans hdue
      · intro x hx hqueued
        rcases hmem x hqueued with rfl | hqueued
        · exact hid hx
        · exact hapart x (List.mem_cons_of_mem id hx) hqueued
      · intro x hx t ht
        rw [hothers x (fun heq => hid (heq ▸ hx))] at ht
        exact hlater x (List.mem_cons_of_mem id hx) t ht

/-- The call is an iteration of `kore_timer_run`. -/
def Call.isNext : Call η → Bool
  | .schedule _ _ _ _ _ => false
  | .flush _ => false
  | .run _ => false
  | .next => true
  | .cancel _ => false
  | .leave => false

/-- The call starts `kore_timer_run`. -/
def Call.isRun : Call η → Bool
  | .schedule _ _ _ _ _ => false
  | .flush _ => false
  | .run _ => true
  | .next => false
  | .cancel _ => false
  | .leave => false

theorem remaining_le (hloop : m'.loop.now = m.loop.now)
    (hdue : ∀ now, m.loop.now = some now → m'.due now ≤ m.due now) :
    m'.remaining ≤ m.remaining := by
  rw [remaining, remaining, hloop]
  cases hnow : m.loop.now with
  | none => exact le_rfl
  | some now => exact Nat.succ_le_succ (hdue now hnow)

theorem remaining_of_now {now : ℕ} (h : m.loop.now = some now) : m.remaining = m.due now + 1 := by
  rw [remaining, h, Option.elim_some]

namespace Sound

theorem remaining_schedule {hh : Option η} {tout created clock : ℕ} {flags : BitVec 32}
    {r : Timers η × Option ℕ} (h : Sound notes m)
    (hfits : ∀ e ∈ m.events (.schedule hh tout flags created clock), e.Fits m.loop)
    (hschedule : m.schedule hh tout flags created clock = some r) :
    r.1.remaining ≤ m.remaining := by
  refine remaining_le (by rw [(schedule_calm hschedule).2]) ?_
  intro now hnow
  have hid : m.made ∉ m.koreTimers :=
    fun hin => (h.lt_made (mem_slots.mpr (Or.inr (Or.inl hin)))).false
  have hmake : ∀ handler, (m.make handler tout flags created).due now = m.due now := by
    intro handler
    refine List.countP_congr ?_
    intro x hx
    have hne : x ≠ m.made := fun heq => hid (heq ▸ hx)
    rw [dueAt, dueAt, nextrun, nextrun, timers_make_of_ne hne]
  rcases schedule_cases hschedule with
    ⟨handler, rfl, hlong, ⟨-, hr⟩ | ⟨hcache, hset⟩⟩ | ⟨-, hr⟩
  · rw [hr]
    exact (hmake handler).le
  · have hfit := hfits (.handed m.made clock tout) (by simp [events, hlong, hcache])
    refine (koreTimerSet_due (m := m.make handler tout flags created) hid ?_ hset).1.le.trans
      (hmake handler).le
    intro t ht
    obtain rfl : koreTimerNew created tout (some m.made) (.ofInt flags) = t := by
      simpa [make, write] using ht
    exact (nextrunAt_of_fits hfit).symm ▸ hfit.2 now hnow
  · rw [hr]

theorem remaining_flush {clock : ℕ → ℕ} (h : Sound notes m)
    (hfits : ∀ e ∈ m.events (.flush clock), e.Fits m.loop)
    (hflush : m.flush clock = some m') : m'.remaining ≤ m.remaining := by
  refine remaining_le (by rw [(transfer_aside hflush).loop]) ?_
  intro now hnow
  refine (transfer_due (List.nodup_append'.mp h.slots).1 ?_ ?_ hflush).le
  · exact fun x hx => (h.waiting_only hx).1
  · intro x hx t ht
    have hmem : .handed x (clock x) t.interval ∈ m.events (.flush clock) := by
      simpa [events] using ⟨hx, t, ht, rfl⟩
    have hfit := hfits _ hmem
    exact (nextrunAt_of_fits hfit).symm ▸ hfit.2 now hnow

theorem remaining_leave {now bgtimer : ℕ} (h : Sound notes m)
    (hloop : m.loop = .handler now id bgtimer) (hfits : ∀ e ∈ m.events .leave, e.Fits m.loop)
    (hleave : (m.handleTimeoutRest bgtimer).bind (·.koreTimerRunRest now id) = some m') :
    m'.remaining ≤ m.remaining := by
  obtain ⟨m₁, htimeout, hrest⟩ := Option.bind_eq_some_iff.mp hleave
  obtain ⟨t₁, ht₁, hrest⟩ := Option.bind_eq_some_iff.mp hrest
  have htame := handleTimeoutRest_tame htimeout
  obtain ⟨t, ht, hinterval, -, hshot⟩ := htame.timers id t₁ ht₁
  rw [remaining_of_now (show m.loop.now = some now by rw [hloop]; rfl)]
  split at hrest
  case isTrue =>
    obtain rfl := Option.some.inj hrest
    exact Nat.succ_le_succ ((htame.trans (tame_free m₁ id)).due_le now)
  case isFalse hone =>
    obtain ⟨m₂, henlist, rfl⟩ := Option.map_eq_some_iff.mp hrest
    have hqueued : id ∉ m₁.koreTimers :=
      fun hin => (h.running_only (running_eq hloop)).2 (htame.koreTimers.subset hin)
    have hrepeating : t.flags.oneshot = false := by
      rw [← Bool.not_eq_true]
      exact fun htrue => hone (hshot htrue)
    have hfit := hfits (.handed id now t.interval)
      (by simp [events, hloop, ht, hrepeating, Option.filter])
    have hlater : now < nextrunAt now t₁.interval := by
      rw [hinterval, nextrunAt_of_fits hfit]
      exact hfit.2 now (by rw [hloop]; rfl)
    have hdue : m₂.due now = m₁.due now := enlist_due hqueued hlater henlist
    exact Nat.succ_le_succ (hdue.le.trans (htame.due_le now))

/-- An iteration ends the loop or takes a timer that is due out of the list. -/
theorem remaining_next {now : ℕ} {n : Note} (h : Sound notes m) (hloop : m.loop = .head now)
    (hnext : m.koreTimerRunNext now = some (m', n)) : m'.remaining + 1 ≤ m.remaining := by
  rw [remaining_of_now (show m.loop.now = some now by rw [hloop]; rfl)]
  have hfewer : ∀ {id koreTimers t} {m₁ : Timers η}, m.koreTimers = id :: koreTimers →
      m.timers id = some t → t.nextrun ≤ now → m₁.koreTimers = koreTimers →
      (∀ x, x ≠ id → m₁.timers x = m.timers x) → m₁.due now + 1 = m.due now := by
    intro id koreTimers t m₁ hlist ht hdue hrest hothers
    have hself : m.dueAt now id = true := by simpa [dueAt, nextrun, ht] using hdue
    rw [due, due, hlist, hrest, List.countP_cons_of_pos hself]
    refine congrArg (· + 1) (List.countP_congr ?_)
    intro x hx
    have hne : x ≠ id := fun heq => h.notMem_rest hlist (heq ▸ hx)
    rw [dueAt, dueAt, nextrun, nextrun, hothers x hne]
  rcases h.next_cases hnext with ⟨rfl, -⟩ | ⟨id, koreTimers, t, hlist, ht, hdue, rfl | rfl⟩
  · exact Nat.succ_le_succ (Nat.zero_le _)
  · exact Nat.succ_le_succ
      (hfewer hlist ht hdue rfl (fun x hx => by simp [write, hx])).le
  · exact Nat.succ_le_succ
      (hfewer hlist ht hdue rfl (fun x hx => by simp [free, hx])).le

theorem remaining_step {c : Call η} (h : Sound notes m)
    (hfits : ∀ e ∈ m.events c, e.Fits m.loop) (htaken : Taken m c m') (hrun : c.isRun = false) :
    m'.remaining + (if c.isNext then 1 else 0) ≤ m.remaining := by
  cases htaken with
  | schedule hschedule => exact h.remaining_schedule hfits hschedule
  | flush hflush => exact h.remaining_flush hfits hflush
  | run hloop => exact absurd hrun Bool.false_ne_true.symm
  | next hloop hnext => exact h.remaining_next hloop hnext
  | cancel hcancel =>
      refine remaining_le (by rw [(cancel_bgtimers hcancel).2.2]) ?_
      exact fun now _ => (cancel_tame hcancel).due_le now
  | leave hloop hleave => exact h.remaining_leave hloop hfits hleave

end Sound

/-! ## The runs -/

theorem timedStep_eq_some {c : Call η} {o : Note × List TimerEvent} :
    m.timedStep c = some (m', o) ↔ m.step c = some (m', o.1) ∧ o.2 = m.events c := by
  rw [timedStep, Option.map_eq_some_iff]
  constructor
  · rintro ⟨⟨m₁, n⟩, hstep, heq⟩
    cases heq
    exact ⟨hstep, rfl⟩
  · rintro ⟨hstep, hevents⟩
    exact ⟨(m', o.1), hstep, by rw [← hevents]⟩

theorem Invariant.timedStep {c : Call η} (h : Invariant notes m) (hcall : m.Callable c) :
    ∃ m' o, m.timedStep c = some (m', o) ∧ o.2 = m.events c ∧ Taken m c m' ∧
      Invariant (notes ++ [o.1]) m' := by
  obtain ⟨m', n, hstep, hinv⟩ := h.step hcall
  exact ⟨m', (n, m.events c), timedStep_eq_some.mpr ⟨hstep, rfl⟩, rfl, hcall.taken hstep, hinv⟩

/-- A run of `kore_timer_run` makes no more iterations than remain. -/
theorem Invariant.iterations_le {more : List (Call η)} (h : Invariant notes m)
    (hmore : Machine.Always Timers.timedStep Timely m more)
    (hrun : ∀ c ∈ more, c.isRun = false) : more.countP Call.isNext ≤ m.remaining := by
  induction more generalizing m notes with
  | nil => exact Nat.zero_le _
  | cons c more ih =>
      obtain ⟨⟨hcall, hfits⟩, hrest⟩ := hmore
      obtain ⟨m', o, hstep, -, htaken, hinv⟩ := h.timedStep hcall
      have hone := h.sound.remaining_step hfits htaken (hrun c List.mem_cons_self)
      have hothers := ih hinv (hrest _ hstep) (fun c' hc' => hrun c' (List.mem_cons_of_mem c hc'))
      rw [List.countP_cons]
      omega

theorem remaining_le_length : m.remaining ≤ m.koreTimers.length + 1 := by
  rw [remaining]
  cases m.loop.now with
  | none => exact Nat.zero_le _
  | some now => exact Nat.succ_le_succ List.countP_le_length

/-- What holds behind the calls so far. -/
structure Prompt (before : List (Note × List TimerEvent)) (m : Timers η) : Prop where
  inv : Invariant (before.map Prod.fst) m
  timed : Timed (before.flatMap Prod.snd) m
  onTime : OnTime (before.flatMap Prod.snd)

theorem prompt_new : Prompt [] (new : Timers η) where
  inv := ⟨sound_new, fun _ => rfl⟩
  timed :=
    { known := fun _ he => absurd he List.not_mem_nil
      punctual := fun _ t ht => absurd ht.symm (Option.some_ne_none t)
      waiting := fun _ hid => absurd hid List.not_mem_nil
      running := fun _ _ _ hhandler => TimerLoop.noConfusion hhandler }
  onTime := by
    intro before after timer tout clock interval now hsplit
    simp at hsplit

theorem Prompt.step {before : List (Note × List TimerEvent)} {c : Call η} (h : Prompt before m)
    (hcall : m.Timely c) : ∃ m' o, m.timedStep c = some (m', o) ∧ Prompt (before ++ [o]) m' := by
  obtain ⟨m', o, hstep, hevents, htaken, hinv⟩ := h.inv.timedStep hcall.1
  have hmap : (before ++ [o]).map Prod.fst = before.map Prod.fst ++ [o.1] := by simp
  have hflat : (before ++ [o]).flatMap Prod.snd = before.flatMap Prod.snd ++ m.events c := by
    simp [hevents]
  refine ⟨m', o, hstep, hmap ▸ hinv, hflat ▸ ?_, hflat ▸ ?_⟩
  · exact h.timed.step h.inv.sound hcall.2 htaken
  · exact h.timed.onTime_step h.onTime htaken

/-- In a run whose calls hand over timers for times that fit, no timer is fired early, and
`kore_timer_run` makes no more iterations than there are timers in its list and one. -/
theorem run_timely {calls : List (Call η)} (h : Machine.Always timedStep Timely new calls) :
    ∃ m outputs, Machine.exec timedStep new calls = some (m, outputs) ∧
      OnTime (outputs.flatMap Prod.snd) ∧
      ∀ more, Machine.Always timedStep Timely m more → (∀ c ∈ more, c.isRun = false) →
        more.countP Call.isNext ≤ m.koreTimers.length + 1 := by
  obtain ⟨m, outputs, hexec, hprompt⟩ :=
    Machine.exec_progress (fun _ _ _ h hcall => h.step hcall) prompt_new h
  refine ⟨m, outputs, hexec, hprompt.onTime, ?_⟩
  intro more hmore hrun
  exact (hprompt.inv.iterations_le hmore hrun).trans remaining_le_length

/-- A repeating timer and one for one shot that its handler schedules. -/
def timelyRun : List (Call Unit) :=
  [.schedule (some ()) 100 0 0 0, .flush (fun _ => 10), .run 60, .next, .run 110, .next,
    .schedule (some ()) 50 timerOneshot 115 115, .leave, .next, .run 400, .next, .leave, .next]

theorem run_timely_repeating :
    Machine.Always timedStep Timely new timelyRun ∧
      ∃ m outputs, Machine.exec timedStep new timelyRun = some (m, outputs) ∧
        OnTime (outputs.flatMap Prod.snd) ∧
        ∀ more, Machine.Always timedStep Timely m more → (∀ c ∈ more, c.isRun = false) →
          more.countP Call.isNext ≤ m.koreTimers.length + 1 :=
  ⟨by decide, run_timely (by decide)⟩

/-! ## Where the sum overflows -/

/-- A repeating timer for the longest interval is handed over at the time 1000, and
`kore_timer_run` is called then. -/
def wrappedRun : List (Call Unit) :=
  [.schedule (some ()) (2 ^ 64 - 1) 0 1000 1000, .flush (fun _ => 1000), .run 1000]

/-- Iterations that run the handler of a timer. -/
def spin (n : ℕ) : List (Call Unit) := (List.replicate n [.next, .leave]).flatten

/-- The one timer is due at once whenever it goes back to the list. -/
structure Spinning (m : Timers Unit) : Prop where
  loop : m.loop = .head 1000
  koreTimers : m.koreTimers = [0]
  timer : ∃ inplace, m.timers 0 = some ⟨some 0, ⟨false, inplace⟩, 2 ^ 64 - 1, 999⟩
  bgtimer : m.bgtimers 0 = some ⟨some 0, some (), false⟩

theorem Spinning.step {m : Timers Unit} (h : Spinning m) :
    ∃ m₁ o₁ m₂ o₂, m.timedStep .next = some (m₁, o₁) ∧ m₁.timedStep .leave = some (m₂, o₂) ∧
      m.Callable .next ∧ m₁.Callable .leave ∧ Spinning m₂ := by
  obtain ⟨hloop, hlist, ⟨inplace, ht⟩, hb⟩ := h
  set t : KoreTimer := ⟨some 0, ⟨false, false⟩, 2 ^ 64 - 1, 999⟩ with htdef
  set m₁ : Timers Unit := { m.write 0 t with koreTimers := [], loop := .handler 1000 0 0 } with hm₁
  set m₂ : Timers Unit := { m₁.write 0 t with koreTimers := [0], loop := .head 1000 } with hm₂
  have hnext : m.step .next = some (m₁, .invoked 0) := by
    simp [Timers.step, hloop, koreTimerRunNext, hlist, ht, write, hb, hm₁, htdef]
  have hnextrun : nextrunAt 1000 18446744073709551615 = 999 := by decide
  have hleave : m₁.step .leave = some (m₂, .returned 0) := by
    simp [Timers.step, handleTimeoutRest, koreTimerRunRest, enlist, Agenda.insert, write, hb, hm₁,
      hm₂, hnextrun, t]
  refine ⟨m₁, (.invoked 0, m.events .next), m₂, (.returned 0, m₁.events .leave),
    timedStep_eq_some.mpr ⟨hnext, rfl⟩, timedStep_eq_some.mpr ⟨hleave, rfl⟩, ?_, rfl, rfl, rfl,
    ⟨false, by simp [hm₂, write, htdef]⟩, hb⟩
  rw [Callable, hloop]
  rfl

theorem Spinning.spin {m : Timers Unit} (h : Spinning m) (n : ℕ) :
    Machine.Always timedStep Callable m (spin n) ∧
      ∃ m' outputs, Machine.exec timedStep m (spin n) = some (m', outputs) ∧
        m'.loop = .head 1000 := by
  induction n generalizing m with
  | zero => exact ⟨trivial, m, [], rfl, h.loop⟩
  | succ n ih =>
      obtain ⟨m₁, o₁, m₂, o₂, hnext, hleave, hcall₁, hcall₂, h₂⟩ := h.step
      obtain ⟨halways, m', outputs, hexec, hloop⟩ := ih h₂
      refine ⟨⟨hcall₁, ?_⟩, m', o₁ :: o₂ :: outputs, ?_, hloop⟩
      · intro r hr
        obtain rfl := Option.some.inj (hnext.symm.trans hr)
        refine ⟨hcall₂, ?_⟩
        intro r' hr'
        obtain rfl := Option.some.inj (hleave.symm.trans hr')
        exact halways
      · exact Machine.exec_cons_eq_some.mpr ⟨m₁, o₁, _, hnext,
          Machine.exec_cons_eq_some.mpr ⟨m₂, o₂, _, hleave, hexec, rfl⟩, rfl⟩

/-- The timer fires at once, 2 ^ 64 - 1 milliseconds early, and the loop has no last iteration. -/
theorem wrapped_run_early_endless :
    Machine.Always timedStep Callable new wrappedRun ∧
      ∃ m outputs, Machine.exec timedStep new wrappedRun = some (m, outputs) ∧
        (∃ m' o, m.timedStep .next = some (m', o) ∧
          ¬ OnTime ((outputs ++ [o]).flatMap Prod.snd)) ∧
        ∀ n, Machine.Always timedStep Callable m (spin n) ∧
          ∃ m' outputs, Machine.exec timedStep m (spin n) = some (m', outputs) ∧
            m'.loop = .head 1000 := by
  refine ⟨by decide, _, _, rfl, ⟨_, _, rfl, ?_⟩, Spinning.spin ⟨rfl, rfl, ⟨true, rfl⟩, rfl⟩⟩
  intro hontime
  have hearly := hontime [.made 0 (2 ^ 64 - 1), .handed 0 1000 (2 ^ 64 - 1)] [] 0 (2 ^ 64 - 1) 1000
    (2 ^ 64 - 1) 1000 rfl (by simp) (by simp)
  exact absurd hearly.2 (by decide)

end Sparc.Timers
