import Sparc.Model.Timer

/-! # The phases of a timer

A call touches one timer, or one after the other. So what is known of the timers is told for each
of them from what concerns it: its two objects, the lists it is in, and the notes about it.
-/

namespace Sparc

@[simp] theorem TimerLoop.running_idle : idle.running = none := rfl

@[simp] theorem TimerLoop.running_head (now : ℕ) : (head now).running = none := rfl

@[simp] theorem TimerLoop.running_handler (now timer bgtimer : ℕ) :
    (handler now timer bgtimer).running = some timer := rfl

theorem TimerLoop.atHead_iff {loop : TimerLoop} :
    loop.atHead = true ↔ ∃ now, loop = .head now := by
  cases loop with
  | idle => simp [atHead]
  | head now => simp [atHead]
  | handler now timer bgtimer => simp [atHead]

theorem TimerLoop.isSome_running_iff {loop : TimerLoop} :
    loop.running.isSome = true ↔ ∃ now timer bgtimer, loop = .handler now timer bgtimer := by
  cases loop with
  | idle => simp
  | head now => simp
  | handler now timer bgtimer => simp

namespace Timers

variable {η : Type*}

/-! ## The notes about a timer -/

/-- The timer a note is about. -/
def Note.timer : Note → Option ℕ
  | .accepted timer _ => some timer
  | .rejected => none
  | .flushed => none
  | .started => none
  | .invoked timer => some timer
  | .passed => none
  | .slept _ => none
  | .canceled timer => some timer
  | .returned timer => some timer

/-- The notes are not about the timer. -/
def Unrelated (id : ℕ) (notes : List Note) : Prop := ∀ n ∈ notes, n.timer ≠ some id

/-- The handler is not invoked behind a `cancel`. -/
def Quiet (id : ℕ) (notes : List Note) : Prop :=
  ∀ before after, notes = before ++ .canceled id :: after → .invoked id ∉ after

variable {id : ℕ} {notes more : List Note}

theorem Unrelated.notMem (h : Unrelated id notes) {n : Note} (hn : n.timer = some id) :
    n ∉ notes :=
  fun hmem => h n hmem hn

theorem Unrelated.mem_append (h : Unrelated id more) {n : Note} (hn : n.timer = some id) :
    n ∈ notes ++ more ↔ n ∈ notes := by
  rw [List.mem_append, or_iff_left (h.notMem hn)]

theorem Unrelated.count_append (h : Unrelated id more) {n : Note} (hn : n.timer = some id) :
    (notes ++ more).count n = notes.count n := by
  rw [List.count_append, List.count_eq_zero_of_not_mem (h.notMem hn), Nat.add_zero]

theorem quiet_of_notMem (h : .canceled id ∉ notes) : Quiet id notes := by
  intro before after hsplit
  exact absurd (hsplit ▸ List.mem_append_right before List.mem_cons_self) h

theorem Quiet.append (h : Quiet id notes) (hmore : .invoked id ∉ more) :
    Quiet id (notes ++ more) := by
  intro before after hsplit
  rcases List.append_eq_append_iff.mp hsplit with ⟨rest, -, hrest⟩ | ⟨rest, hnotes, hrest⟩
  · have hmem : .invoked id ∉ rest ++ .canceled id :: after := hrest ▸ hmore
    exact fun hafter => hmem (List.mem_append_right rest (List.mem_cons_of_mem _ hafter))
  · cases rest with
    | nil =>
        have hmem : .invoked id ∉ .canceled id :: after := by rwa [hrest]
        exact fun hafter => hmem (List.mem_cons_of_mem _ hafter)
    | cons n rest =>
        rw [List.cons_append, List.cons.injEq] at hrest
        obtain ⟨rfl, rfl⟩ := hrest
        rw [List.mem_append]
        exact not_or.mpr ⟨h before rest hnotes, hmore⟩

/-! ## What concerns a timer -/

/-- The objects of a timer, and whether it is in `waitlist_`, in the list of `kore/timer.c`, or
its handler is being run. -/
structure View (η : Type*) where
  timer : Option KoreTimer
  bgtimer : Option (BackgroundTimer η)
  waiting : Prop
  queued : Prop
  running : Prop

def view (m : Timers η) (id : ℕ) : View η :=
  ⟨m.timers id, m.bgtimers id, id ∈ m.waitlist_, id ∈ m.koreTimers, m.loop.running = some id⟩

/-- The timer is in one of its places. -/
def View.placed (v : View η) : Prop := v.waiting ∨ v.queued ∨ v.running

/-- A timer that has not been made. -/
structure Fresh (notes : List Note) (id : ℕ) (v : View η) : Prop where
  timer : v.timer = none
  bgtimer : v.bgtimer = none
  unplaced : ¬ v.placed
  unrelated : Unrelated id notes

/-- A timer that can still invoke its handler. Where it is for one shot, the handler has not been
invoked, or it is being run. -/
structure Live (notes : List Note) (id : ℕ) (v : View η) (t : KoreTimer)
    (b : BackgroundTimer η) : Prop where
  timer : v.timer = some t
  bgtimer : v.bgtimer = some b
  arg : t.arg = some id
  back : b.timer = some id
  uncanceled : b.canceled = false
  handler : b.handler.isSome
  placed : v.placed
  inplace : t.flags.inplace = true → v.queued
  accepted : ∀ oneshot, .accepted id oneshot ∈ notes → oneshot = t.flags.oneshot
  unheard : .canceled id ∉ notes
  idle : t.flags.oneshot = true → ¬ v.running → .invoked id ∉ notes
  first : t.flags.oneshot = true → notes.count (.invoked id) ≤ 1
  unreturned : t.flags.oneshot = true → .returned id ∉ notes

/-- A timer that is canceled or has had its shot. It can be in a list until it is next due; its
`background_timer`, if it is there, does nothing any more. -/
structure Dead (notes : List Note) (id : ℕ) (v : View η) : Prop where
  canceled : ∀ b ∈ v.bgtimer, b.canceled = true
  expiring : ∀ t ∈ v.timer,
    t.arg = none ∧ t.flags.oneshot = true ∧ (t.flags.inplace = true → v.queued)
  allocated : v.placed → v.timer.isSome
  held : v.running → ∃ b, v.bgtimer = some b ∧ b.timer = some id
  ended : .canceled id ∈ notes ∨
    .returned id ∈ notes ∧ ∀ oneshot, .accepted id oneshot ∈ notes → oneshot = true
  quiet : Quiet id notes
  once : .accepted id true ∈ notes → notes.count (.invoked id) ≤ 1

/-- The phase of a timer that has been made. -/
inductive Phase (notes : List Note) (id : ℕ) (v : View η) : Prop where
  | live {t : KoreTimer} {b : BackgroundTimer η} (h : Live notes id v t b)
  | dead (h : Dead notes id v)

variable {v v' : View η} {t t' : KoreTimer} {b : BackgroundTimer η}

/-! ## Notes about others -/

theorem Fresh.append (h : Fresh notes id v) (hmore : Unrelated id more) :
    Fresh (notes ++ more) id v := by
  refine ⟨h.timer, h.bgtimer, h.unplaced, ?_⟩
  intro n hn
  rcases List.mem_append.mp hn with hn | hn
  · exact h.unrelated n hn
  · exact hmore n hn

theorem Live.append (h : Live notes id v t b) (hmore : Unrelated id more) :
    Live (notes ++ more) id v t b where
  timer := h.timer
  bgtimer := h.bgtimer
  arg := h.arg
  back := h.back
  uncanceled := h.uncanceled
  handler := h.handler
  placed := h.placed
  inplace := h.inplace
  accepted := fun oneshot hmem => h.accepted oneshot ((hmore.mem_append rfl).mp hmem)
  unheard := fun hmem => h.unheard ((hmore.mem_append rfl).mp hmem)
  idle := fun hshot hrun hmem => h.idle hshot hrun ((hmore.mem_append rfl).mp hmem)
  first := fun hshot => (hmore.count_append rfl).trans_le (h.first hshot)
  unreturned := fun hshot hmem => h.unreturned hshot ((hmore.mem_append rfl).mp hmem)

theorem Dead.append (h : Dead notes id v) (hmore : Unrelated id more) :
    Dead (notes ++ more) id v where
  canceled := h.canceled
  expiring := h.expiring
  allocated := h.allocated
  held := h.held
  ended := by
    refine h.ended.imp (List.mem_append_left more) (And.imp (List.mem_append_left more) ?_)
    exact fun hall oneshot hmem => hall oneshot ((hmore.mem_append rfl).mp hmem)
  quiet := h.quiet.append (hmore.notMem rfl)
  once := fun hmem => (hmore.count_append rfl).trans_le (h.once ((hmore.mem_append rfl).mp hmem))

theorem Phase.append (h : Phase notes id v) (hmore : Unrelated id more) :
    Phase (notes ++ more) id v := by
  cases h with
  | live h => exact .live (h.append hmore)
  | dead h => exact .dead (h.append hmore)

/-! ## The life of a timer -/

theorem Fresh.accept (h : Fresh notes id v) (htimer : v'.timer = some t)
    (hbgtimer : v'.bgtimer = some b) (harg : t.arg = some id) (hback : b.timer = some id)
    (huncanceled : b.canceled = false) (hhandler : b.handler.isSome) (hplaced : v'.placed)
    (hinplace : t.flags.inplace = true → v'.queued) :
    Live (notes ++ [.accepted id t.flags.oneshot]) id v' t b where
  timer := htimer
  bgtimer := hbgtimer
  arg := harg
  back := hback
  uncanceled := huncanceled
  handler := hhandler
  placed := hplaced
  inplace := hinplace
  accepted := fun oneshot hmem => by
    simpa [h.unrelated.notMem (n := .accepted id oneshot) rfl] using hmem
  unheard := by simp [h.unrelated.notMem (n := .canceled id) rfl]
  idle := fun _ _ => by simp [h.unrelated.notMem (n := .invoked id) rfl]
  first := fun _ => by
    have hnone := h.unrelated.notMem (n := .invoked id) rfl
    simp [List.count_append, List.count_eq_zero_of_not_mem hnone]
  unreturned := fun _ => by simp [h.unrelated.notMem (n := .returned id) rfl]

/-- A move between the lists. -/
theorem Live.move (h : Live notes id v t b) (htimer : v'.timer = some t')
    (hbgtimer : v'.bgtimer = v.bgtimer) (harg : t'.arg = t.arg)
    (hshot : t'.flags.oneshot = t.flags.oneshot) (hplaced : v'.placed)
    (hinplace : t'.flags.inplace = true → v'.queued) (hrunning : ¬ v.running) :
    Live notes id v' t' b where
  timer := htimer
  bgtimer := hbgtimer.trans h.bgtimer
  arg := harg.trans h.arg
  back := h.back
  uncanceled := h.uncanceled
  handler := h.handler
  placed := hplaced
  inplace := hinplace
  accepted := fun oneshot hmem => (h.accepted oneshot hmem).trans hshot.symm
  unheard := h.unheard
  idle := fun hone _ => h.idle (hshot.symm.trans hone) hrunning
  first := fun hone => h.first (hshot.symm.trans hone)
  unreturned := fun hone => h.unreturned (hshot.symm.trans hone)

/-- Its handler is called. -/
theorem Live.invoke (h : Live notes id v t b) (htimer : v'.timer = some t')
    (hbgtimer : v'.bgtimer = v.bgtimer) (harg : t'.arg = t.arg)
    (hshot : t'.flags.oneshot = t.flags.oneshot) (hinplace : t'.flags.inplace = false)
    (hrunning : ¬ v.running) (hrunning' : v'.running) :
    Live (notes ++ [.invoked id]) id v' t' b where
  timer := htimer
  bgtimer := hbgtimer.trans h.bgtimer
  arg := harg.trans h.arg
  back := h.back
  uncanceled := h.uncanceled
  handler := h.handler
  placed := Or.inr (Or.inr hrunning')
  inplace := fun hin => absurd (hinplace.symm.trans hin) Bool.false_ne_true
  accepted := fun oneshot hmem => (h.accepted oneshot (by simpa using hmem)).trans hshot.symm
  unheard := by simpa using h.unheard
  idle := fun _ hnot => absurd hrunning' hnot
  first := fun hone => by
    have hnone := h.idle (hshot.symm.trans hone) hrunning
    simp [List.count_append, List.count_eq_zero_of_not_mem hnone]
  unreturned := fun hone => by simpa using h.unreturned (hshot.symm.trans hone)

/-- The handler of a repeating timer returns. -/
theorem Live.requeue (h : Live notes id v t b) (hshot : t.flags.oneshot = false)
    (htimer : v'.timer = some t') (hbgtimer : v'.bgtimer = v.bgtimer) (harg : t'.arg = t.arg)
    (hflags : t'.flags = t.flags) (hqueued : v'.queued) :
    Live (notes ++ [.returned id]) id v' t' b where
  timer := htimer
  bgtimer := hbgtimer.trans h.bgtimer
  arg := harg.trans h.arg
  back := h.back
  uncanceled := h.uncanceled
  handler := h.handler
  placed := Or.inr (Or.inl hqueued)
  inplace := fun _ => hqueued
  accepted := fun oneshot hmem => by
    rw [hflags]
    exact h.accepted oneshot (by simpa using hmem)
  unheard := by simpa using h.unheard
  idle := fun hone => by simp [hflags, hshot] at hone
  first := fun hone => by simp [hflags, hshot] at hone
  unreturned := fun hone => by simp [hflags, hshot] at hone

/-- The handler of a timer for one shot returns. -/
theorem Live.complete (h : Live notes id v t b) (hshot : t.flags.oneshot = true)
    (htimer : v'.timer = none) (hbgtimer : v'.bgtimer = none) (hplaced : ¬ v'.placed) :
    Dead (notes ++ [.returned id]) id v' where
  canceled := by simp [hbgtimer]
  expiring := by simp [htimer]
  allocated := fun hin => absurd hin hplaced
  held := fun hrunning => absurd (Or.inr (Or.inr hrunning)) hplaced
  ended := by
    refine Or.inr ⟨by simp, ?_⟩
    intro oneshot hmem
    exact (h.accepted oneshot (by simpa using hmem)).trans hshot
  quiet := (quiet_of_notMem h.unheard).append (by simp)
  once := fun _ => by simpa [List.count_append] using h.first hshot

/-- It is canceled. -/
theorem Live.cancel (h : Live notes id v t b)
    (hcanceled : ∀ b ∈ v'.bgtimer, b.canceled = true)
    (hexpiring : ∀ t ∈ v'.timer,
      t.arg = none ∧ t.flags.oneshot = true ∧ (t.flags.inplace = true → v'.queued))
    (hallocated : v'.placed → v'.timer.isSome)
    (hheld : v'.running → ∃ b, v'.bgtimer = some b ∧ b.timer = some id) :
    Dead (notes ++ [.canceled id]) id v' where
  canceled := hcanceled
  expiring := hexpiring
  allocated := hallocated
  held := hheld
  ended := Or.inl (by simp)
  quiet := (quiet_of_notMem h.unheard).append (by simp)
  once := fun hmem => by
    have hshot : t.flags.oneshot = true := (h.accepted true (by simpa using hmem)).symm
    simpa [List.count_append] using h.first hshot

/-- What is noted of a timer behind its end: it is canceled again, or the handler returns in
which it was canceled. -/
theorem Dead.note (h : Dead notes id v) {n : Note} (hinvoked : n ≠ .invoked id)
    (haccepted : ∀ oneshot, n ≠ .accepted id oneshot) : Dead (notes ++ [n]) id v where
  canceled := h.canceled
  expiring := h.expiring
  allocated := h.allocated
  held := h.held
  ended := by
    refine h.ended.imp (List.mem_append_left _) (And.imp (List.mem_append_left _) ?_)
    intro hall oneshot hmem
    exact hall oneshot (by simpa [(haccepted oneshot).symm] using hmem)
  quiet := h.quiet.append (by simpa using hinvoked.symm)
  once := fun hmem => by
    have hbefore := h.once (by simpa [(haccepted true).symm] using hmem)
    simpa [List.count_append, hinvoked] using hbefore

/-- A timer behind its end moves between the lists, or it is freed. -/
theorem Dead.move (h : Dead notes id v) (hcanceled : ∀ b ∈ v'.bgtimer, b ∈ v.bgtimer)
    (hexpiring : ∀ t' ∈ v'.timer, (t'.flags.inplace = true → v'.queued) ∧
      ∃ t ∈ v.timer, t'.arg = t.arg ∧ t'.flags.oneshot = t.flags.oneshot)
    (hallocated : v'.placed → v'.timer.isSome) (hrunning : ¬ v'.running) : Dead notes id v' where
  canceled := fun b hb => h.canceled b (hcanceled b hb)
  expiring := fun t' ht' => by
    obtain ⟨hqueued, t, ht, harg, hshot⟩ := hexpiring t' ht'
    exact ⟨harg.trans (h.expiring t ht).1, hshot.trans (h.expiring t ht).2.1, hqueued⟩
  allocated := hallocated
  held := fun hrun => absurd hrun hrunning
  ended := h.ended
  quiet := h.quiet
  once := h.once

end Timers

end Sparc
