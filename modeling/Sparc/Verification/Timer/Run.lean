import Sparc.Verification.Timer.Steps

/-! # What `kore_timer_run` keeps

An iteration is taken apart at the call of a handler: the calls that the handler makes come in
between, and they can cancel the timer whose handler it is.
-/

namespace Sparc.Timers

variable {η : Type*} {m : Timers η} {notes : List Note} {id : ℕ} {t : KoreTimer}

theorem handleTimeoutRest_eq {b : BackgroundTimer η} (hb : m.bgtimers id = some b)
    (hback : b.timer = some id) (ht : m.timers id = some t) :
    m.handleTimeoutRest id =
      if t.flags.oneshot || b.canceled then m.delete id else some m := by
  rw [handleTimeoutRest, hb, Option.bind_some, hback]
  simp only
  rw [ht, Option.bind_some]

/-- The state when the iteration for a timer is over and both of its objects are gone. -/
def reaped (m : Timers η) (now id : ℕ) : Timers η :=
  { (m.free id).freeBg id with loop := .head now }

theorem same_head {now : ℕ} : ∀ now' timer bgtimer,
    TimerLoop.head now = .handler now' timer bgtimer → bgtimer = timer :=
  fun _ _ _ heq => TimerLoop.noConfusion heq

theorem returned_ne_invoked : Note.returned id ≠ .invoked id := fun heq => Note.noConfusion heq

theorem returned_ne_accepted : ∀ oneshot, Note.returned id ≠ .accepted id oneshot :=
  fun _ heq => Note.noConfusion heq

namespace Sound

theorem running_eq {now bgtimer : ℕ} (hloop : m.loop = .handler now id bgtimer) :
    m.loop.running = some id := by rw [hloop, TimerLoop.running_handler]

theorem reap {now bgtimer : ℕ} (h : Sound notes m) (hloop : m.loop = .handler now id bgtimer)
    (hdead : ∀ v : View η, v.timer = none → v.bgtimer = none → ¬ v.placed →
      Dead (notes ++ [.returned id]) id v) :
    Sound (notes ++ [.returned id]) (m.reaped now id) := by
  have hrunning := running_eq hloop
  have hslot : id ∈ m.slots := mem_slots.mpr (Or.inr (Or.inr hrunning))
  obtain ⟨hwaiting, hqueued⟩ := h.running_only hrunning
  refine h.change (h.lt_made hslot) rfl ?_ (unrelated_singleton rfl) (.dead (hdead _ ?_ ?_ ?_)) ?_
    ?_ same_head
  · intro x hx
    simp [view, reaped, free, freeBg, hx, hrunning, hx.symm]
  · simp [view, reaped, free, freeBg]
  · simp [view, reaped, freeBg]
  · rintro (hin | hin | hin)
    · exact hwaiting hin
    · exact hqueued hin
    · exact (Option.some_ne_none id hin.symm).elim
  · have hsub : (m.reaped now id).slots.Sublist m.slots :=
      ((List.nil_sublist _).append_left m.koreTimers).append_left m.waitlist_
    exact h.slots.sublist hsub
  · refine h.sorted.congr ?_
    intro x hx
    have hxid : x ≠ id := fun heq => hqueued (heq ▸ hx)
    simp [nextrun, reaped, free, freeBg, hxid]

/-- The handler of a timer returns that was canceled meanwhile. -/
theorem leave_dead {now bgtimer : ℕ} (h : Sound notes m)
    (hloop : m.loop = .handler now id bgtimer) (hdead : Dead notes id (m.view id)) :
    (m.handleTimeoutRest id).bind (·.koreTimerRunRest now id) = some (m.reaped now id) ∧
      Sound (notes ++ [.returned id]) (m.reaped now id) := by
  have hrunning := running_eq hloop
  obtain ⟨t, ht⟩ := Option.isSome_iff_exists.mp
    (h.allocated (mem_slots.mpr (Or.inr (Or.inr hrunning))))
  obtain ⟨b, hb, hback⟩ := hdead.held hrunning
  replace hb : m.bgtimers id = some b := hb
  have hshot : t.flags.oneshot = true := (hdead.expiring t ht).2.1
  constructor
  · rw [handleTimeoutRest_eq hb hback ht, if_pos (by simp [hshot]), delete,
      cancel_of_canceled hb (hdead.canceled b hb), Option.map_some, Option.bind_some,
      koreTimerRunRest]
    simp [freeBg, ht, hshot, reaped, free]
  · refine h.reap hloop ?_
    intro v htimer hbgtimer hplaced
    refine (hdead.move ?_ ?_ (fun hin => absurd hin hplaced) ?_).note returned_ne_invoked
      returned_ne_accepted
    · simp [hbgtimer]
    · simp [htimer]
    · exact fun hin => hplaced (Or.inr (Or.inr hin))

/-- The handler of a timer for one shot returns. -/
theorem leave_oneshot {now bgtimer : ℕ} {b : BackgroundTimer η} (h : Sound notes m)
    (hloop : m.loop = .handler now id bgtimer) (hlive : Live notes id (m.view id) t b)
    (hshot : t.flags.oneshot = true) :
    (m.handleTimeoutRest id).bind (·.koreTimerRunRest now id) = some (m.reaped now id) ∧
      Sound (notes ++ [.returned id]) (m.reaped now id) := by
  have ht : m.timers id = some t := hlive.timer
  have hb : m.bgtimers id = some b := hlive.bgtimer
  have hinplace : t.flags.inplace = false :=
    (Phase.live hlive).inplace ht (h.running_only (running_eq hloop)).2
  constructor
  · rw [handleTimeoutRest_eq hb hlive.back ht, if_pos (by simp [hshot]), delete,
      hlive.cancel_apart hinplace, Option.map_some, Option.bind_some, koreTimerRunRest]
    simp [write, writeBg, freeBg, free, reaped]
  · exact h.reap hloop (fun v htimer hbgtimer hplaced =>
      hlive.complete hshot htimer hbgtimer hplaced)

/-- The handler of a repeating timer returns, and the timer goes back to the list. -/
theorem leave_repeating {now bgtimer : ℕ} {b : BackgroundTimer η} (h : Sound notes m)
    (hloop : m.loop = .handler now id bgtimer) (hlive : Live notes id (m.view id) t b)
    (hshot : t.flags.oneshot = false) :
    ∃ m', (m.handleTimeoutRest id).bind (·.koreTimerRunRest now id) = some m' ∧
      Sound (notes ++ [.returned id]) m' ∧ m'.cache_ = m.cache_ ∧
      m'.waitlist_ = m.waitlist_ := by
  have ht : m.timers id = some t := hlive.timer
  have hb : m.bgtimers id = some b := hlive.bgtimer
  have hrunning := running_eq hloop
  have hslot : id ∈ m.slots := mem_slots.mpr hlive.placed
  obtain ⟨hwaiting, hqueued⟩ := h.running_only hrunning
  set t' : KoreTimer := { t with nextrun := nextrunAt now t.interval } with ht'
  obtain ⟨koreTimers, henlist, hperm, hsorted⟩ :=
    enlist_eq (t := t') h.allocated_queued h.sorted hqueued
  have hin : id ∈ koreTimers := hperm.mem_iff.mpr List.mem_cons_self
  refine ⟨{ m.write id t' with koreTimers, loop := .head now }, ?_, ?_, rfl, rfl⟩
  · rw [handleTimeoutRest_eq hb hlive.back ht, if_neg (by simp [hshot, hlive.uncanceled]),
      Option.bind_some, koreTimerRunRest, ht, Option.bind_some, if_neg (by simp [hshot]), henlist,
      Option.map_some]
  · refine h.change (h.lt_made hslot) rfl ?_ (unrelated_singleton rfl) (.live (t := t')
      (hlive.requeue hshot ?_ rfl rfl rfl hin)) ?_ hsorted same_head
    · intro x hx
      simp [view, write, hx, hx.symm, hperm.mem_iff, hrunning]
    · simp [view, write]
    · have hslots : (m.waitlist_ ++ (koreTimers ++ [])).Perm m.slots := by
        rw [Timers.slots, hrunning, List.append_nil]
        exact (hperm.trans (List.perm_append_singleton id m.koreTimers).symm).append_left _
      exact hslots.nodup_iff.mpr h.slots

theorem leave {now bgtimer : ℕ} (h : Sound notes m) (hloop : m.loop = .handler now id bgtimer) :
    ∃ m', (m.handleTimeoutRest id).bind (·.koreTimerRunRest now id) = some m' ∧
      Sound (notes ++ [.returned id]) m' ∧ m'.cache_ = m.cache_ ∧
      m'.waitlist_ = m.waitlist_ := by
  have hslot : id ∈ m.slots := mem_slots.mpr (Or.inr (Or.inr (running_eq hloop)))
  cases h.phase id (h.lt_made hslot) with
  | @live t b hlive =>
      cases hshot : t.flags.oneshot with
      | true =>
          obtain ⟨hleave, hsound⟩ := h.leave_oneshot hloop hlive hshot
          exact ⟨_, hleave, hsound, rfl, rfl⟩
      | false => exact h.leave_repeating hloop hlive hshot
  | dead hdead =>
      obtain ⟨hleave, hsound⟩ := h.leave_dead hloop hdead
      exact ⟨_, hleave, hsound, rfl, rfl⟩

/-- The loop of `kore_timer_run` starts or ends. -/
theorem loop_idle {loop : TimerLoop} {n : Note} (h : Sound notes m) (hn : n.timer = none)
    (hbefore : m.loop.running = none) (hafter : loop.running = none) :
    Sound (notes ++ [n]) { m with loop } := by
  refine h.keep rfl ?_ (unrelated_of_none hn) ?_ h.sorted ?_
  · intro x
    simp [view, hbefore, hafter]
  · simp only [Timers.slots, hbefore, hafter]
  · rintro now timer bgtimer rfl
    exact absurd hafter (Option.some_ne_none timer)

end Sound

section Next

variable {now : ℕ} {koreTimers : List ℕ}

theorem Live.koreTimerRunNext_eq {b : BackgroundTimer η} (h : Live notes id (m.view id) t b)
    (hlist : m.koreTimers = id :: koreTimers) (hdue : ¬ now < t.nextrun) :
    m.koreTimerRunNext now = some
      ({ m.write id { t with flags := { t.flags with inplace := false } } with
        koreTimers, loop := .handler now id id }, .invoked id) := by
  have ht : m.timers id = some t := h.timer
  have hb : m.bgtimers id = some b := h.bgtimer
  rw [koreTimerRunNext, hlist]
  simp only
  rw [ht, Option.bind_some, if_neg hdue]
  simp [h.arg, write, hb, h.uncanceled, h.handler]

theorem Dead.koreTimerRunNext_eq (h : Dead notes id (m.view id))
    (hlist : m.koreTimers = id :: koreTimers) (ht : m.timers id = some t)
    (hdue : ¬ now < t.nextrun) :
    m.koreTimerRunNext now = some
      ({ m.free id with koreTimers, loop := .head now }, .passed) := by
  obtain ⟨harg, hshot, -⟩ := h.expiring t ht
  rw [koreTimerRunNext, hlist]
  simp only
  rw [ht, Option.bind_some, if_neg hdue]
  simp [harg, koreTimerRunRest, write, free, hshot]

end Next

namespace Sound

/-- A timer that is due leaves the list, and its handler is called. -/
theorem next_live {now : ℕ} {koreTimers : List ℕ} {b : BackgroundTimer η} (h : Sound notes m)
    (hloop : m.loop = .head now) (hlist : m.koreTimers = id :: koreTimers)
    (hlive : Live notes id (m.view id) t b) (hdue : ¬ now < t.nextrun) :
    ∃ m', m.koreTimerRunNext now = some (m', .invoked id) ∧ Sound (notes ++ [.invoked id]) m' ∧
      m'.cache_ = m.cache_ ∧ m'.waitlist_ = m.waitlist_ := by
  have hnone : m.loop.running = none := by rw [hloop, TimerLoop.running_head]
  have hqueued : id ∈ m.koreTimers := hlist ▸ List.mem_cons_self
  obtain ⟨-, hrunning⟩ := h.queued_only hqueued
  set t' : KoreTimer := { t with flags := { t.flags with inplace := false } } with ht'
  set m' : Timers η := { m.write id t' with koreTimers, loop := .handler now id id } with hm'
  have hslots : m'.slots.Perm m.slots := by
    simp only [Timers.slots, m', hnone, hlist]
    exact ((List.perm_append_singleton id koreTimers).trans (by simp)).append_left _
  have hleft : id ∉ koreTimers := h.notMem_rest hlist
  refine ⟨m', hlive.koreTimerRunNext_eq hlist hdue, ?_, rfl, rfl⟩
  refine h.change (h.lt_made (mem_slots.mpr hlive.placed)) rfl ?_ (unrelated_singleton rfl)
    (.live (t := t') (hlive.invoke ?_ rfl rfl rfl rfl hrunning rfl))
    (hslots.nodup_iff.mpr h.slots) ?_ ?_
  · intro x hx
    simp [view, m', write, hx, hx.symm, hlist, hnone]
  · simp [view, m', write]
  · have hsub : koreTimers.Sublist m.koreTimers := hlist ▸ List.sublist_cons_self id koreTimers
    refine (h.sorted.sublist hsub).congr ?_
    intro x hx
    exact nextrun_write_of_ne (fun heq => hleft (heq ▸ hx))
  · intro now' timer bgtimer hsame
    cases hsame
    rfl

/-- A timer behind its end that is due leaves the list and is freed. -/
theorem next_dead {now : ℕ} {koreTimers : List ℕ} (h : Sound notes m)
    (hloop : m.loop = .head now) (hlist : m.koreTimers = id :: koreTimers)
    (ht : m.timers id = some t) (hdead : Dead notes id (m.view id)) (hdue : ¬ now < t.nextrun) :
    ∃ m', m.koreTimerRunNext now = some (m', .passed) ∧ Sound (notes ++ [.passed]) m' ∧
      m'.cache_ = m.cache_ ∧ m'.waitlist_ = m.waitlist_ := by
  have hqueued : id ∈ m.koreTimers := hlist ▸ List.mem_cons_self
  obtain ⟨hwaiting, hrunning⟩ := h.queued_only hqueued
  have hleft : id ∉ koreTimers := h.notMem_rest hlist
  have hsub : koreTimers.Sublist m.koreTimers := hlist ▸ List.sublist_cons_self id koreTimers
  set m' : Timers η := { m.free id with koreTimers, loop := .head now } with hm'
  have hmoved : Dead notes id (m'.view id) := by
    refine hdead.move (fun b hb => hb) ?_ ?_ ?_
    · simp [view, m', free]
    · rintro (hin | hin | hin)
      · exact absurd hin hwaiting
      · exact absurd hin hleft
      · exact absurd hin.symm (Option.some_ne_none id)
    · exact fun hin => Option.some_ne_none id hin.symm
  have hnote : ∀ x, Unrelated x [.passed] := unrelated_of_none rfl
  refine ⟨m', hdead.koreTimerRunNext_eq hlist ht hdue, ?_, rfl, rfl⟩
  refine h.change (h.lt_made (mem_slots.mpr (Or.inr (Or.inl hqueued)))) rfl ?_
    (fun x _ => hnote x) (.dead (hmoved.append (hnote id))) ?_ ?_ same_head
  · intro x hx
    simp [view, m', free, hx, hlist, hloop]
  · have hslots : (m.waitlist_ ++ (koreTimers ++ [])).Sublist m.slots :=
      (hsub.append (List.nil_sublist _)).append_left _
    exact h.slots.sublist hslots
  · refine (h.sorted.sublist hsub).congr ?_
    intro x hx
    have hxid : x ≠ id := fun heq => hleft (heq ▸ hx)
    simp [nextrun, m', free, hxid]

theorem next {now : ℕ} (h : Sound notes m) (hloop : m.loop = .head now) :
    ∃ m' n, m.koreTimerRunNext now = some (m', n) ∧ Sound (notes ++ [n]) m' ∧
      m'.cache_ = m.cache_ ∧ m'.waitlist_ = m.waitlist_ := by
  have hnone : m.loop.running = none := by rw [hloop, TimerLoop.running_head]
  cases hlist : m.koreTimers with
  | nil =>
      refine ⟨{ m with loop := .idle }, .slept (netwait 100), by rw [koreTimerRunNext, hlist], ?_,
        rfl, rfl⟩
      exact h.loop_idle rfl hnone rfl
  | cons id koreTimers =>
      have hqueued : id ∈ m.koreTimers := hlist ▸ List.mem_cons_self
      obtain ⟨t, ht⟩ := Option.isSome_iff_exists.mp (h.allocated_queued id hqueued)
      by_cases hdue : now < t.nextrun
      · refine ⟨{ m with loop := .idle }, .slept (netwait (t.nextrun - now)), ?_,
          h.loop_idle rfl hnone rfl, rfl, rfl⟩
        rw [koreTimerRunNext, hlist]
        simp only
        rw [ht, Option.bind_some, if_pos hdue]
      · cases h.phase id (h.lt_made (mem_slots.mpr (Or.inr (Or.inl hqueued)))) with
        | live hlive =>
            obtain rfl := Option.some.inj (ht.symm.trans hlive.timer)
            obtain ⟨m', hnext, hrest⟩ := h.next_live hloop hlist hlive hdue
            exact ⟨m', _, hnext, hrest⟩
        | dead hdead =>
            obtain ⟨m', hnext, hrest⟩ := h.next_dead hloop hlist ht hdead hdue
            exact ⟨m', _, hnext, hrest⟩

end Sound

end Sparc.Timers
