import Sparc.Verification.Timer.Ownership

/-! # Timers fire in time

`nextrun` is a sum in 64 bits. Where it does not overflow, a timer is not fired before it is due.
-/

namespace Sparc

/-- What a call does with the times of a timer: it is made for an interval, handed to
`kore/timer.c` at a time, or fired. -/
inductive TimerEvent where
  | made (timer tout : ℕ)
  | handed (timer clock interval : ℕ)
  | fired (timer now : ℕ)
  deriving DecidableEq

def TimerEvent.timer : TimerEvent → ℕ
  | .made timer _ => timer
  | .handed timer _ _ => timer
  | .fired timer _ => timer

/-- The time that `kore_timer_run` was called with. -/
def TimerLoop.now : TimerLoop → Option ℕ
  | .idle => none
  | .head now => some now
  | .handler now _ _ => some now

/-- The time a timer is handed over for is a `u_int64_t`, and `kore_timer_run`, if it is running,
was called before it. -/
def TimerEvent.Fits (loop : TimerLoop) : TimerEvent → Prop
  | .made _ _ => True
  | .handed _ clock interval =>
      clock + interval < 2 ^ 64 ∧ ∀ now ∈ loop.now, now < clock + interval
  | .fired _ _ => True

instance decidableFits (loop : TimerLoop) : ∀ e : TimerEvent, Decidable (e.Fits loop)
  | .made _ _ => .isTrue trivial
  | .handed _ clock interval =>
      inferInstanceAs (Decidable (clock + interval < 2 ^ 64 ∧
        ∀ now ∈ loop.now, now < clock + interval))
  | .fired _ _ => .isTrue trivial

namespace Timers

variable {η : Type*}

/-- The events of a call. `flush` and the handlers hand over the timers that exist. -/
def events (m : Timers η) : Call η → List TimerEvent
  | .schedule hh tout _ _ clock =>
      if hh.isSome ∧ 10 < tout then
        .made m.made tout :: if m.cache_ then [] else [.handed m.made clock tout]
      else []
  | .flush clock =>
      m.waitlist_.flatMap (fun timer =>
        (m.timers timer).toList.map (fun t => .handed timer (clock timer) t.interval))
  | .run _ => []
  | .next =>
      match m.loop, m.koreTimers with
      | .head now, timer :: _ =>
          ((m.timers timer).filter (·.nextrun ≤ now)).toList.map (fun _ => .fired timer now)
      | _, _ => []
  | .cancel _ => []
  | .leave =>
      match m.loop with
      | .handler now timer _ =>
          ((m.timers timer).filter (!·.flags.oneshot)).toList.map
            (fun t => .handed timer now t.interval)
      | _ => []

/-- The calls, with their events. -/
def timedStep (m : Timers η) (c : Call η) : Option (Timers η × Note × List TimerEvent) :=
  (m.step c).map (fun r => (r.1, r.2, m.events c))

/-- A call that can be made, and that hands over timers for times that fit. -/
def Timely (m : Timers η) (c : Call η) : Prop :=
  m.Callable c ∧ ∀ e ∈ m.events c, e.Fits m.loop

instance decidableTimely (m : Timers η) (c : Call η) : Decidable (m.Timely c) :=
  inferInstanceAs (Decidable (m.Callable c ∧ ∀ e ∈ m.events c, e.Fits m.loop))

/-- A timer made for an interval and handed over at a time is not fired before the sum. -/
def OnTime (log : List TimerEvent) : Prop :=
  ∀ before after timer tout clock interval now,
    log = before ++ .fired timer now :: after → .made timer tout ∈ before →
    .handed timer clock interval ∈ before → interval = tout ∧ clock + tout ≤ now

variable {m m' m₁ : Timers η} {notes : List Note} {log more : List TimerEvent} {id : ℕ}
  {t t' : KoreTimer}

/-! ## What the calls do to the times -/

/-- The times of the timers stay as they are, a timer for one shot stays one, and none comes to
a list. -/
structure Tame (m m' : Timers η) : Prop where
  timers : ∀ id t', m'.timers id = some t' → ∃ t, m.timers id = some t ∧
    t'.interval = t.interval ∧ t'.nextrun = t.nextrun ∧
      (t.flags.oneshot = true → t'.flags.oneshot = true)
  koreTimers : m'.koreTimers.Sublist m.koreTimers
  waitlist : m'.waitlist_ = m.waitlist_
  made : m'.made = m.made

theorem Tame.refl (m : Timers η) : Tame m m :=
  ⟨fun _ t' ht' => ⟨t', ht', rfl, rfl, fun h => h⟩, List.Sublist.refl _, rfl, rfl⟩

theorem Tame.trans (h : Tame m m₁) (h' : Tame m₁ m') : Tame m m' := by
  refine ⟨?_, h'.koreTimers.trans h.koreTimers, h'.waitlist.trans h.waitlist,
    h'.made.trans h.made⟩
  intro id t' ht'
  obtain ⟨t₁, ht₁, hinterval₁, hnextrun₁, hshot₁⟩ := h'.timers id t' ht'
  obtain ⟨t, ht, hinterval, hnextrun, hshot⟩ := h.timers id t₁ ht₁
  exact ⟨t, ht, hinterval₁.trans hinterval, hnextrun₁.trans hnextrun,
    fun hone => hshot₁ (hshot hone)⟩

theorem tame_write (ht : m.timers id = some t) (hinterval : t'.interval = t.interval)
    (hnextrun : t'.nextrun = t.nextrun)
    (hshot : t.flags.oneshot = true → t'.flags.oneshot = true) : Tame m (m.write id t') := by
  refine ⟨?_, List.Sublist.refl _, rfl, rfl⟩
  intro x t₁ ht₁
  by_cases hx : x = id
  · subst hx
    obtain rfl : t' = t₁ := by simpa [write] using ht₁
    exact ⟨t, ht, hinterval, hnextrun, hshot⟩
  · exact ⟨t₁, by simpa [write, hx] using ht₁, rfl, rfl, fun h => h⟩

theorem tame_free (m : Timers η) (id : ℕ) : Tame m (m.free id) := by
  refine ⟨?_, List.Sublist.refl _, rfl, rfl⟩
  intro x t' ht'
  by_cases hx : x = id
  · simp [free, hx] at ht'
  · exact ⟨t', by simpa [free, hx] using ht', rfl, rfl, fun h => h⟩

theorem cancelTimer_tame (h : m.cancelTimer id = some m') : Tame m m' := by
  obtain ⟨t, ht, h⟩ := Option.bind_eq_some_iff.mp h
  split at h
  · obtain ⟨t', -, h⟩ := Option.bind_eq_some_iff.mp h
    obtain ⟨koreTimers, hunlink, rfl⟩ := Option.map_eq_some_iff.mp h
    have hsub : koreTimers.Sublist m.koreTimers := by
      rw [Agenda.unlink, Option.ite_none_right_eq_some] at hunlink
      exact Option.some.inj hunlink.2 ▸ List.erase_sublist
    have hwrite : Tame m (m.write id { t with arg := none }) := tame_write ht rfl rfl (fun h => h)
    exact ⟨(hwrite.trans (tame_free _ id)).timers, hsub, rfl, rfl⟩
  · obtain rfl := Option.some.inj h
    exact tame_write ht rfl rfl (fun _ => rfl)

theorem cancel_tame (h : m.cancel id = some m') : Tame m m' := by
  obtain ⟨b, -, h⟩ := Option.bind_eq_some_iff.mp h
  split at h
  · obtain rfl := Option.some.inj h
    exact Tame.refl m
  · obtain ⟨m₁, hcancel, rfl⟩ := Option.map_eq_some_iff.mp h
    obtain ⟨timer, -, hcancel⟩ := Option.bind_eq_some_iff.mp hcancel
    have htame := cancelTimer_tame hcancel
    exact ⟨htame.timers, htame.koreTimers, htame.waitlist, htame.made⟩

theorem delete_tame (h : m.delete id = some m') : Tame m m' := by
  obtain ⟨m₁, hcancel, rfl⟩ := Option.map_eq_some_iff.mp h
  have htame := cancel_tame hcancel
  exact ⟨htame.timers, htame.koreTimers, htame.waitlist, htame.made⟩

theorem handleTimeoutRest_tame (h : m.handleTimeoutRest id = some m') : Tame m m' := by
  obtain ⟨b, -, h⟩ := Option.bind_eq_some_iff.mp h
  split at h
  · exact delete_tame h
  · obtain ⟨t, -, h⟩ := Option.bind_eq_some_iff.mp h
    split at h
    · exact delete_tame h
    · obtain rfl := Option.some.inj h
      exact Tame.refl m

/-- `kore_timer_set` gives one timer a new `nextrun`. -/
theorem koreTimerSet_timers {clock : ℕ} (h : m.koreTimerSet clock id = some m') :
    m'.waitlist_ = m.waitlist_ ∧ (∀ x, x ≠ id → m'.timers x = m.timers x) ∧
      ∃ t t', m.timers id = some t ∧ m'.timers id = some t' ∧ t'.interval = t.interval ∧
        t'.nextrun = nextrunAt clock t.interval := by
  obtain ⟨t, ht, h⟩ := Option.bind_eq_some_iff.mp h
  split at h
  · obtain rfl := Option.some.inj h
    exact ⟨rfl, fun x hx => by simp [write, hx], t, _, ht, Function.update_self .., rfl, rfl⟩
  · obtain ⟨koreTimers, -, rfl⟩ := Option.map_eq_some_iff.mp h
    exact ⟨rfl, fun x hx => by simp [write, hx], t, _, ht, Function.update_self .., rfl, rfl⟩

/-- The loop of `flush` gives each timer that it goes through a new `nextrun`. -/
theorem transfer_timers {clock : ℕ → ℕ} {waiting : List ℕ}
    (h : transfer clock waiting m = some m') :
    (∀ x, x ∉ waiting → m'.timers x = m.timers x) ∧
      ∀ x ∈ waiting, ∀ t', m'.timers x = some t' →
        ∃ t, m.timers x = some t ∧ t'.interval = t.interval ∧
          t'.nextrun = nextrunAt (clock x) t.interval := by
  induction waiting generalizing m with
  | nil =>
      obtain rfl := Option.some.inj h
      exact ⟨fun _ _ => rfl, fun x hx => absurd hx List.not_mem_nil⟩
  | cons id waiting ih =>
      obtain ⟨waitlist_, -, h⟩ := Option.bind_eq_some_iff.mp h
      obtain ⟨m₁, hset, hrest⟩ := Option.bind_eq_some_iff.mp h
      obtain ⟨-, hothers, t, t₁, ht, ht₁, hinterval, hnextrun⟩ := koreTimerSet_timers hset
      obtain ⟨hkept, hmoved⟩ := ih hrest
      constructor
      · intro x hx
        rw [List.mem_cons, not_or] at hx
        rw [hkept x hx.2, hothers x hx.1]
      · intro x hx t' ht'
        by_cases hxw : x ∈ waiting
        · -- the timer is set again when the loop gets to it
          obtain ⟨t₂, ht₂, hinterval₂, hnextrun₂⟩ := hmoved x hxw t' ht'
          by_cases hxid : x = id
          · subst hxid
            obtain rfl := Option.some.inj (ht₁.symm.trans ht₂)
            exact ⟨t, ht, hinterval₂.trans hinterval, hinterval ▸ hnextrun₂⟩
          · exact ⟨t₂, (hothers x hxid).symm.trans ht₂, hinterval₂, hnextrun₂⟩
        · obtain rfl : x = id := (List.mem_cons.mp hx).resolve_right hxw
          obtain rfl := Option.some.inj (ht₁.symm.trans ((hkept x hxw).symm.trans ht'))
          exact ⟨t, ht, hinterval, hnextrun⟩

/-- What an iteration of `kore_timer_run` can do: it ends the loop, or the timer that is due leaves
the list, for its handler to be run or because it has none any more. -/
theorem Sound.next_cases {now : ℕ} {n : Note} (h : Sound notes m)
    (hnext : m.koreTimerRunNext now = some (m', n)) :
    (m' = { m with loop := .idle } ∧
      ∀ id ∈ m.koreTimers.head?, ∀ t, m.timers id = some t → now < t.nextrun) ∨
    ∃ id koreTimers t, m.koreTimers = id :: koreTimers ∧ m.timers id = some t ∧
      t.nextrun ≤ now ∧
      (m' = { m.write id { t with flags := { t.flags with inplace := false } } with
          koreTimers, loop := .handler now id id } ∨
        m' = { m.free id with koreTimers, loop := .head now }) := by
  cases hlist : m.koreTimers with
  | nil =>
      rw [koreTimerRunNext, hlist] at hnext
      obtain ⟨rfl, -⟩ := Prod.mk.inj (Option.some.inj hnext)
      exact Or.inl ⟨rfl, by simp⟩
  | cons id koreTimers =>
      have hqueued : id ∈ m.koreTimers := hlist ▸ List.mem_cons_self
      obtain ⟨t, ht⟩ := Option.isSome_iff_exists.mp (h.allocated_queued id hqueued)
      by_cases hdue : now < t.nextrun
      · rw [koreTimerRunNext, hlist] at hnext
        simp only [ht, Option.bind_some, if_pos hdue] at hnext
        obtain ⟨rfl, -⟩ := Prod.mk.inj (Option.some.inj hnext)
        refine Or.inl ⟨rfl, ?_⟩
        intro x hx t' ht'
        obtain rfl : id = x := by simpa using hx
        exact Option.some.inj (ht.symm.trans ht') ▸ hdue
      · refine Or.inr ⟨id, koreTimers, t, rfl, ht, not_lt.mp hdue, ?_⟩
        cases h.phase id (h.lt_made (mem_slots.mpr (Or.inr (Or.inl hqueued)))) with
        | live hlive =>
            obtain rfl := Option.some.inj (ht.symm.trans hlive.timer)
            rw [hlive.koreTimerRunNext_eq hlist hdue] at hnext
            obtain ⟨rfl, -⟩ := Prod.mk.inj (Option.some.inj hnext)
            exact Or.inl rfl
        | dead hdead =>
            rw [hdead.koreTimerRunNext_eq hlist ht hdue] at hnext
            obtain ⟨rfl, -⟩ := Prod.mk.inj (Option.some.inj hnext)
            exact Or.inr rfl

/-- The event of an iteration: the first timer of the list is fired if it is due. -/
theorem fired_next {now : ℕ} (hloop : m.loop = .head now) {e : TimerEvent}
    (he : e ∈ m.events .next) :
    ∃ id t, m.timers id = some t ∧ t.nextrun ≤ now ∧ id ∈ m.koreTimers ∧ e = .fired id now ∧
      m.events .next = [e] := by
  cases hlist : m.koreTimers with
  | nil => simp [events, hloop, hlist] at he
  | cons id koreTimers =>
      have hevents : m.events .next =
          ((m.timers id).filter (·.nextrun ≤ now)).toList.map (fun _ => .fired id now) := by
        simp only [events, hloop, hlist]
      rw [hevents] at he ⊢
      obtain ⟨t, ht, rfl⟩ := List.mem_map.mp he
      rw [Option.mem_toList] at ht
      obtain ⟨htimer, hdue⟩ := Option.filter_eq_some_iff.mp ht
      exact ⟨id, t, htimer, of_decide_eq_true hdue, List.mem_cons_self, rfl, by rw [ht]; rfl⟩

/-! ## Timers are on time -/

/-- A timer with the interval it was made for is not due before any time it was handed over
for. -/
structure Punctual (log : List TimerEvent) (id : ℕ) (t : KoreTimer) : Prop where
  long : 10 < t.interval
  made : ∀ tout, .made id tout ∈ log → t.interval = tout
  handed : ∀ clock interval, .handed id clock interval ∈ log →
    interval = t.interval ∧ clock + interval ≤ t.nextrun

structure Timed (log : List TimerEvent) (m : Timers η) : Prop where
  known : ∀ e ∈ log, e.timer < m.made
  punctual : ∀ id t, m.timers id = some t → Punctual log id t
  waiting : ∀ id ∈ m.waitlist_, ∀ clock interval, .handed id clock interval ∉ log
  running : ∀ now id bgtimer, m.loop = .handler now id bgtimer →
    ∀ t, m.timers id = some t → t.nextrun ≤ now

/-- The events do not change the interval of a timer or hand it over. -/
def Untimed (id : ℕ) (more : List TimerEvent) : Prop :=
  ∀ e ∈ more, e.timer = id → ∃ now, e = .fired id now

theorem untimed_nil : Untimed id [] := fun _ he => absurd he List.not_mem_nil

theorem untimed_of_ne (h : ∀ e ∈ more, e.timer ≠ id) : Untimed id more :=
  fun e he heq => absurd heq (h e he)

theorem Punctual.append (h : Punctual log id t) (hinterval : t'.interval = t.interval)
    (hnextrun : t'.nextrun = t.nextrun) (hmore : Untimed id more) :
    Punctual (log ++ more) id t' where
  long := hinterval ▸ h.long
  made := fun tout hmem => by
    rcases List.mem_append.mp hmem with hmem | hmem
    · exact hinterval.trans (h.made tout hmem)
    · obtain ⟨now, heq⟩ := hmore _ hmem rfl
      exact TimerEvent.noConfusion heq
  handed := fun clock interval hmem => by
    rcases List.mem_append.mp hmem with hmem | hmem
    · rw [hinterval, hnextrun]
      exact h.handed clock interval hmem
    · obtain ⟨now, heq⟩ := hmore _ hmem rfl
      exact TimerEvent.noConfusion heq

/-- A timer is handed over for a time that is not before those so far. -/
theorem Punctual.hand {clock : ℕ} (h : Punctual log id t) (hinterval : t'.interval = t.interval)
    (hnextrun : t'.nextrun = clock + t.interval)
    (hlater : ∀ clock' interval, .handed id clock' interval ∈ log →
      clock' + interval ≤ clock + t.interval)
    (hmore : ∀ e ∈ more, e.timer = id → e = .handed id clock t.interval) :
    Punctual (log ++ more) id t' where
  long := hinterval ▸ h.long
  made := fun tout hmem => by
    rcases List.mem_append.mp hmem with hmem | hmem
    · exact hinterval.trans (h.made tout hmem)
    · exact TimerEvent.noConfusion (hmore _ hmem rfl)
  handed := fun clock' interval hmem => by
    rw [hinterval, hnextrun]
    rcases List.mem_append.mp hmem with hmem | hmem
    · exact ⟨(h.handed clock' interval hmem).1, hlater clock' interval hmem⟩
    · cases hmore _ hmem rfl
      exact ⟨rfl, le_rfl⟩

theorem nextrunAt_of_fits {loop : TimerLoop} {clock interval : ℕ}
    (h : (TimerEvent.handed id clock interval).Fits loop) :
    nextrunAt clock interval = clock + interval :=
  Nat.mod_eq_of_lt h.1

namespace Timed

theorem known_append (h : Timed log m) (hmade : m.made ≤ m'.made)
    (hmore : ∀ e ∈ more, e.timer < m'.made) : ∀ e ∈ log ++ more, e.timer < m'.made := by
  intro e he
  rcases List.mem_append.mp he with he | he
  · exact (h.known e he).trans_le hmade
  · exact hmore e he

/-- A timer that does not exist yet has no events. -/
theorem not_made (h : Timed log m) {e : TimerEvent} (he : e.timer = m.made) : e ∉ log :=
  fun hmem => (h.known e hmem).ne he

/-- No timer is handed over. -/
theorem keep (h : Timed log m) (htame : Tame m m') (hmore : ∀ id, Untimed id more)
    (hknown : ∀ e ∈ more, e.timer < m.made)
    (hrunning : ∀ now id bgtimer, m'.loop = .handler now id bgtimer →
      ∀ t, m'.timers id = some t → t.nextrun ≤ now) : Timed (log ++ more) m' where
  known := h.known_append htame.made.ge (htame.made ▸ hknown)
  punctual := fun id t' ht' => by
    obtain ⟨t, ht, hinterval, hnextrun, -⟩ := htame.timers id t' ht'
    exact (h.punctual id t ht).append hinterval hnextrun (hmore id)
  waiting := fun id hid clock interval hmem => by
    rcases List.mem_append.mp hmem with hmem | hmem
    · exact h.waiting id (htame.waitlist ▸ hid) clock interval hmem
    · obtain ⟨now, heq⟩ := hmore id _ hmem rfl
      exact TimerEvent.noConfusion heq
  running := hrunning

theorem running_tame (h : Timed log m) (htame : Tame m m') (hloop : m'.loop = m.loop) :
    ∀ now id bgtimer, m'.loop = .handler now id bgtimer →
      ∀ t, m'.timers id = some t → t.nextrun ≤ now := by
  intro now id bgtimer hhandler t' ht'
  obtain ⟨t, ht, -, hnextrun, -⟩ := htame.timers id t' ht'
  exact hnextrun ▸ h.running now id bgtimer (hloop ▸ hhandler) t ht

/-! ## The calls -/

/-- A timer is made. -/
theorem accept {tout : ℕ} (hsound : Sound notes m) (h : Timed log m) (hlong : 10 < tout)
    (hmade : m'.made = m.made + 1) (hloop : m'.loop = m.loop)
    (hothers : ∀ x, x ≠ m.made → m'.timers x = m.timers x)
    (htimer : m'.timers m.made = some t) (hinterval : t.interval = tout)
    (hmore : ∀ e ∈ more, e = .made m.made tout ∨
      ∃ clock, e = .handed m.made clock tout ∧ clock + tout ≤ t.nextrun)
    (hwaiting : ∀ x ∈ m'.waitlist_, x ∈ m.waitlist_ ∨ x = m.made ∧
      ∀ clock interval, .handed x clock interval ∉ more) :
    Timed (log ++ more) m' := by
  have habout : ∀ e ∈ more, e.timer = m.made := by
    intro e he
    rcases hmore e he with rfl | ⟨clock, rfl, -⟩
    · rfl
    · rfl
  refine ⟨?_, ?_, ?_, ?_⟩
  · refine h.known_append (by omega) ?_
    intro e he
    rw [habout e he, hmade]
    exact Nat.lt_succ_self m.made
  · intro x t' ht'
    by_cases hx : x = m.made
    · subst hx
      obtain rfl := Option.some.inj (htimer.symm.trans ht')
      refine ⟨hinterval ▸ hlong, ?_, ?_⟩
      · intro tout' hmem
        rcases hmore _ ((List.mem_append.mp hmem).resolve_left (h.not_made rfl)) with heq | heq
        · cases heq
          exact hinterval
        · obtain ⟨clock, heq, -⟩ := heq
          exact TimerEvent.noConfusion heq
      · intro clock' interval hmem
        rcases hmore _ ((List.mem_append.mp hmem).resolve_left (h.not_made rfl)) with heq | heq
        · exact TimerEvent.noConfusion heq
        · obtain ⟨clock, heq, hle⟩ := heq
          cases heq
          exact ⟨hinterval.symm, hle⟩
    · refine (h.punctual x t' (hothers x hx ▸ ht')).append rfl rfl (untimed_of_ne ?_)
      exact fun e he => habout e he ▸ Ne.symm hx
  · intro x hx clock interval hmem
    rcases hwaiting x hx with hold | ⟨rfl, hnew⟩
    · rcases List.mem_append.mp hmem with hmem | hmem
      · exact h.waiting x hold clock interval hmem
      · exact (hsound.lt_made (List.mem_append_left _ hold)).ne (habout _ hmem)
    · exact hnew clock interval ((List.mem_append.mp hmem).resolve_left (h.not_made rfl))
  · intro now x bgtimer hhandler t' ht'
    have hrunning : m.loop.running = some x := by
      rw [← hloop, hhandler, TimerLoop.running_handler]
    have hx : x ≠ m.made := (hsound.lt_made (mem_slots.mpr (Or.inr (Or.inr hrunning)))).ne
    exact h.running now x bgtimer (hloop ▸ hhandler) t' (hothers x hx ▸ ht')

theorem schedule {hh : Option η} {tout created clock : ℕ} {flags : BitVec 32}
    {r : Timers η × Option ℕ} (hsound : Sound notes m) (h : Timed log m)
    (hfits : ∀ e ∈ m.events (.schedule hh tout flags created clock), e.Fits m.loop)
    (hschedule : m.schedule hh tout flags created clock = some r) :
    Timed (log ++ m.events (.schedule hh tout flags created clock)) r.1 := by
  rcases schedule_cases hschedule with
    ⟨handler, rfl, hlong, ⟨hcache, hr⟩ | ⟨hcache, hset⟩⟩ | ⟨hrejected, hr⟩
  · rw [events, if_pos ⟨rfl, hlong⟩, hcache, if_pos rfl, hr]
    refine h.accept hsound hlong rfl rfl (fun x hx => timers_make_of_ne hx)
      (Function.update_self ..) rfl ?_ ?_
    · exact fun e he => Or.inl (List.mem_singleton.mp he)
    · intro x hx
      rcases List.mem_append.mp hx with hx | hx
      · exact Or.inl hx
      · exact Or.inr ⟨List.mem_singleton.mp hx, by simp⟩
  · have hevents : m.events (.schedule (some handler) tout flags created clock) =
        [.made m.made tout, .handed m.made clock tout] := by
      rw [events, if_pos ⟨rfl, hlong⟩, hcache, if_neg Bool.false_ne_true]
    have hfit := hfits (.handed m.made clock tout) (by simp [hevents])
    obtain ⟨hwaiting, hothers, t, t', ht, ht', hinterval, hnextrun⟩ := koreTimerSet_timers hset
    have haside := koreTimerSet_aside hset
    have htout : t.interval = tout := by
      obtain rfl : koreTimerNew created tout (some m.made) (.ofInt flags) = t := by
        simpa [make, write] using ht
      rfl
    rw [hevents]
    refine h.accept hsound hlong haside.made haside.loop ?_ ht' (hinterval.trans htout) ?_ ?_
    · exact fun x hx => (hothers x hx).trans (timers_make_of_ne hx)
    · intro e he
      rcases List.mem_pair.mp he with rfl | rfl
      · exact Or.inl rfl
      · refine Or.inr ⟨clock, rfl, ?_⟩
        rw [hnextrun, htout, nextrunAt_of_fits hfit]
    · rw [hwaiting]
      exact fun x hx => Or.inl hx
  · rw [events, if_neg hrejected, List.append_nil, hr]
    exact h

theorem flush {clock : ℕ → ℕ} (hsound : Sound notes m) (h : Timed log m)
    (hfits : ∀ e ∈ m.events (.flush clock), e.Fits m.loop)
    (hflush : m.flush clock = some m') : Timed (log ++ m.events (.flush clock)) m' := by
  obtain ⟨hkept, hmoved⟩ := transfer_timers hflush
  have haside := transfer_aside hflush
  have hmem : ∀ e, e ∈ m.events (.flush clock) ↔ ∃ x ∈ m.waitlist_, ∃ t, m.timers x = some t ∧
      .handed x (clock x) t.interval = e := by
    intro e
    simp [events]
  have hempty : m'.waitlist_ = [] := by
    obtain ⟨m₁, hflush₁, -, hempty, -⟩ := hsound.flush clock
    rwa [Option.some.inj (hflush.symm.trans hflush₁)]
  refine ⟨?_, ?_, ?_, ?_⟩
  · refine h.known_append haside.made.ge ?_
    intro e he
    obtain ⟨x, hx, t, -, rfl⟩ := (hmem e).mp he
    rw [haside.made]
    exact hsound.lt_made (List.mem_append_left _ hx)
  · intro x t' ht'
    by_cases hx : x ∈ m.waitlist_
    · obtain ⟨t, ht, hinterval, hnextrun⟩ := hmoved x hx t' ht'
      have hfit := hfits _ ((hmem _).mpr ⟨x, hx, t, ht, rfl⟩)
      refine (h.punctual x t ht).hand hinterval (hnextrun.trans (nextrunAt_of_fits hfit)) ?_ ?_
      · exact fun clock' interval hlog => absurd hlog (h.waiting x hx clock' interval)
      · intro e he hex
        obtain ⟨y, -, t₁, ht₁, rfl⟩ := (hmem e).mp he
        obtain rfl : y = x := hex
        rw [Option.some.inj (ht.symm.trans ht₁)]
    · refine (h.punctual x t' (hkept x hx ▸ ht')).append rfl rfl (untimed_of_ne ?_)
      intro e he hex
      obtain ⟨y, hy, t₁, -, rfl⟩ := (hmem e).mp he
      exact hx (hex ▸ hy)
  · rw [hempty]
    exact fun id hid => absurd hid List.not_mem_nil
  · intro now id bgtimer hloop t ht
    have hrunning : m.loop.running = some id := by
      rw [← haside.loop, hloop, TimerLoop.running_handler]
    rw [hkept id (hsound.running_only hrunning).1] at ht
    exact h.running now id bgtimer (haside.loop ▸ hloop) t ht

theorem cancel (h : Timed log m) (hcancel : m.cancel id = some m') :
    Timed (log ++ m.events (.cancel id)) m' := by
  have htame := cancel_tame hcancel
  exact h.keep htame (fun _ => untimed_nil) (fun _ he => absurd he List.not_mem_nil)
    (h.running_tame htame (cancel_bgtimers hcancel).2.2)

/-- The handler of a timer returns: the timer goes back to the list or is freed. -/
theorem settle {now : ℕ} (h : Timed log m) (htame : Tame m m₁) (hid : id < m.made)
    (hwaiting : id ∉ m.waitlist_) (habout : ∀ e ∈ more, e.timer = id)
    (hmade : m'.made = m₁.made) (hwaitlist : m'.waitlist_ = m₁.waitlist_)
    (hothers : ∀ x, x ≠ id → m'.timers x = m₁.timers x)
    (hself : ∀ t', m'.timers id = some t' → Punctual (log ++ more) id t')
    (hloop : m'.loop = .head now) : Timed (log ++ more) m' := by
  refine ⟨?_, ?_, ?_, ?_⟩
  · have hsame : m'.made = m.made := hmade.trans htame.made
    refine h.known_append hsame.ge ?_
    intro e he
    rw [habout e he, hsame]
    exact hid
  · intro x t' ht'
    by_cases hx : x = id
    · subst hx
      exact hself t' ht'
    · rw [hothers x hx] at ht'
      obtain ⟨t, ht, hinterval, hnextrun, -⟩ := htame.timers x t' ht'
      refine (h.punctual x t ht).append hinterval hnextrun (untimed_of_ne ?_)
      exact fun e he => habout e he ▸ Ne.symm hx
  · rw [hwaitlist, htame.waitlist]
    intro x hx clock interval hmem
    rcases List.mem_append.mp hmem with hmem | hmem
    · exact h.waiting x hx clock interval hmem
    · exact hwaiting ((habout _ hmem : x = id) ▸ hx)
  · intro now' x bgtimer hhandler
    exact TimerLoop.noConfusion (hloop.symm.trans hhandler)

theorem leave {now bgtimer : ℕ} (hsound : Sound notes m) (h : Timed log m)
    (hloop : m.loop = .handler now id bgtimer) (hfits : ∀ e ∈ m.events .leave, e.Fits m.loop)
    (hleave : (m.handleTimeoutRest bgtimer).bind (·.koreTimerRunRest now id) = some m') :
    Timed (log ++ m.events .leave) m' := by
  obtain ⟨m₁, htimeout, hrest⟩ := Option.bind_eq_some_iff.mp hleave
  obtain ⟨t₁, ht₁, hrest⟩ := Option.bind_eq_some_iff.mp hrest
  have htame := handleTimeoutRest_tame htimeout
  obtain ⟨t, ht, hinterval, hnextrun, hshot⟩ := htame.timers id t₁ ht₁
  have hmem : ∀ e, e ∈ m.events .leave ↔
      t.flags.oneshot = false ∧ e = .handed id now t.interval := by
    intro e
    cases hone : t.flags.oneshot with
    | true => simp [events, hloop, ht, hone, Option.filter]
    | false => simp [events, hloop, ht, hone, Option.filter]
  have habout : ∀ e ∈ m.events .leave, e.timer = id := by
    intro e he
    rw [((hmem e).mp he).2]
    rfl
  have hrunning : m.loop.running = some id := Sound.running_eq hloop
  have hid : id < m.made := hsound.lt_made (mem_slots.mpr (Or.inr (Or.inr hrunning)))
  have hwaiting := (hsound.running_only hrunning).1
  split at hrest
  case isTrue =>
    obtain rfl := Option.some.inj hrest
    refine h.settle htame hid hwaiting habout rfl rfl (fun x hx => by simp [free, hx]) ?_ rfl
    exact fun t' ht' => by simp [free] at ht'
  case isFalse hone =>
    obtain ⟨m₂, henlist, rfl⟩ := Option.map_eq_some_iff.mp hrest
    obtain ⟨koreTimers, -, rfl⟩ := Option.map_eq_some_iff.mp henlist
    have hrepeating : t.flags.oneshot = false := by
      rw [← Bool.not_eq_true]
      exact fun htrue => hone (hshot htrue)
    have hfit := hfits _ ((hmem _).mpr ⟨hrepeating, rfl⟩)
    refine h.settle htame hid hwaiting habout rfl rfl (fun x hx => by simp [write, hx]) ?_ rfl
    intro t' ht'
    obtain rfl : { t₁ with nextrun := nextrunAt now t₁.interval } = t' := by
      simpa [write] using ht'
    have hthen : nextrunAt now t₁.interval = now + t.interval :=
      (congrArg (nextrunAt now) hinterval).trans (nextrunAt_of_fits hfit)
    refine (h.punctual id t ht).hand hinterval hthen ?_ ?_
    · intro clock interval hlog
      have hbefore := ((h.punctual id t ht).handed clock interval hlog).2
      have hdue := h.running now id bgtimer hloop t ht
      omega
    · exact fun e he _ => ((hmem e).mp he).2

theorem next {now : ℕ} {n : Note} (hsound : Sound notes m) (h : Timed log m)
    (hloop : m.loop = .head now) (hnext : m.koreTimerRunNext now = some (m', n)) :
    Timed (log ++ m.events .next) m' := by
  have huntimed : ∀ x, Untimed x (m.events .next) := by
    intro x e he hex
    obtain ⟨id, t, -, -, -, rfl, -⟩ := fired_next hloop he
    obtain rfl : id = x := hex
    exact ⟨now, rfl⟩
  have hknown : ∀ e ∈ m.events .next, e.timer < m.made := by
    intro e he
    obtain ⟨id, t, -, -, hid, rfl, -⟩ := fired_next hloop he
    exact hsound.lt_made (mem_slots.mpr (Or.inr (Or.inl hid)))
  rcases hsound.next_cases hnext with ⟨rfl, -⟩ | ⟨id, koreTimers, t, hlist, ht, hdue, rfl | rfl⟩
  · have hsame := Tame.refl m
    refine h.keep ⟨hsame.timers, hsame.koreTimers, rfl, rfl⟩ huntimed hknown ?_
    exact fun _ _ _ hhandler => TimerLoop.noConfusion hhandler
  · have hsub : koreTimers.Sublist m.koreTimers := hlist ▸ List.sublist_cons_self id koreTimers
    have htame : Tame m (m.write id { t with flags := { t.flags with inplace := false } }) :=
      tame_write ht rfl rfl (fun hone => hone)
    refine h.keep ⟨htame.timers, hsub, rfl, rfl⟩ huntimed hknown ?_
    intro now' x bgtimer hhandler t' ht'
    cases hhandler
    obtain rfl : { t with flags := { t.flags with inplace := false } } = t' := by
      simpa [write] using ht'
    exact hdue
  · have hsub : koreTimers.Sublist m.koreTimers := hlist ▸ List.sublist_cons_self id koreTimers
    refine h.keep ⟨(tame_free m id).timers, hsub, rfl, rfl⟩ huntimed hknown ?_
    exact fun _ _ _ hhandler => TimerLoop.noConfusion hhandler

theorem step {c : Call η} (hsound : Sound notes m) (h : Timed log m)
    (hfits : ∀ e ∈ m.events c, e.Fits m.loop) (htaken : Taken m c m') :
    Timed (log ++ m.events c) m' := by
  cases htaken with
  | schedule hschedule => exact h.schedule hsound hfits hschedule
  | flush hflush => exact h.flush hsound hfits hflush
  | run hloop =>
      have hsame := Tame.refl m
      refine h.keep ⟨hsame.timers, hsame.koreTimers, rfl, rfl⟩ (fun _ => untimed_nil)
        (fun _ he => absurd he List.not_mem_nil) ?_
      exact fun _ _ _ hhandler => TimerLoop.noConfusion hhandler
  | next hloop hnext => exact h.next hsound hloop hnext
  | cancel hcancel => exact h.cancel hcancel
  | leave hloop hleave => exact h.leave hsound hloop hfits hleave

end Timed

theorem OnTime.append (h : OnTime log)
    (hmore : ∀ timer now, .fired timer now ∈ more → more = [.fired timer now] ∧
      ∀ tout clock interval, .made timer tout ∈ log → .handed timer clock interval ∈ log →
        interval = tout ∧ clock + tout ≤ now) : OnTime (log ++ more) := by
  intro before after timer tout clock interval now hsplit hmade hhanded
  have hlast : ∀ rest, before = log ++ rest → more = rest ++ .fired timer now :: after →
      interval = tout ∧ clock + tout ≤ now := by
    intro rest hbefore hrest
    obtain ⟨hone, hdue⟩ := hmore timer now (by simp [hrest])
    obtain rfl : rest = [] := by
      have hlength := congrArg List.length (hrest.symm.trans hone)
      rw [List.length_append, List.length_cons, List.length_singleton] at hlength
      exact List.length_eq_zero_iff.mp (by omega)
    rw [List.append_nil] at hbefore
    exact hdue tout clock interval (hbefore ▸ hmade) (hbefore ▸ hhanded)
  rcases List.append_eq_append_iff.mp hsplit with ⟨rest, hbefore, hrest⟩ | ⟨rest, hlog, hrest⟩
  · exact hlast rest hbefore hrest
  · cases rest with
    | nil => exact hlast [] (by simpa using hlog.symm) hrest.symm
    | cons e rest =>
        rw [List.cons_append, List.cons.injEq] at hrest
        exact h before rest timer tout clock interval now (hrest.1 ▸ hlog) hmade hhanded

/-- Only an iteration of `kore_timer_run` fires a timer. -/
theorem Timed.onTime_step {c : Call η} (hontime : OnTime log) (h : Timed log m)
    (htaken : Taken m c m') : OnTime (log ++ m.events c) := by
  refine hontime.append ?_
  intro timer now hfired
  cases htaken with
  | schedule hschedule =>
      rw [events] at hfired
      split at hfired
      · split at hfired
        · simp at hfired
        · simp at hfired
      · exact absurd hfired List.not_mem_nil
  | flush hflush => simp [events] at hfired
  | run hloop => exact absurd hfired List.not_mem_nil
  | next hloop hnext =>
      obtain ⟨id, t, ht, hdue, -, heq, hone⟩ := fired_next hloop hfired
      cases heq
      refine ⟨hone, ?_⟩
      intro tout clock interval hmade hhanded
      have hpunctual := h.punctual timer t ht
      obtain ⟨hinterval, hahead⟩ := hpunctual.handed clock interval hhanded
      have htout := hpunctual.made tout hmade
      omega
  | cancel hcancel => exact absurd hfired List.not_mem_nil
  | leave hloop hleave => simp [events, hloop] at hfired

end Timers

end Sparc
