import Sparc.Library.Machine
import Sparc.Verification.Timer.Run

/-! # Timers are safe in every run -/

namespace Sparc.Timers

variable {η : Type*} {m : Timers η} {notes : List Note} {id : ℕ}

/-- The invariant, with what `flush` leaves of `waitlist_`. -/
structure Invariant (notes : List Note) (m : Timers η) : Prop where
  sound : Sound notes m
  flushed : m.cache_ = false → m.waitlist_ = []

theorem Sound.schedule (h : Sound notes m) (hflushed : m.cache_ = false → m.waitlist_ = [])
    (hh : Option η) (tout : ℕ) {flags : BitVec 32} (hflags : flags = 0 ∨ flags = timerOneshot)
    (created clock : ℕ) :
    ∃ m' n, m.step (.schedule hh tout flags created clock) = some (m', n) ∧
      Invariant (notes ++ [n]) m' := by
  have hrejected : Invariant (notes ++ [.rejected]) m :=
    ⟨h.keep rfl (fun _ => rfl) (unrelated_of_none rfl) rfl h.sorted h.same, hflushed⟩
  cases hh with
  | none => exact ⟨m, .rejected, rfl, hrejected⟩
  | some hh =>
      by_cases htout : 10 < tout
      · cases hcache : m.cache_ with
        | true =>
            obtain ⟨m', hmade, hsound, hcache'⟩ :=
              h.schedule_cached hcache htout hflags hh created clock
            refine ⟨m', _, by rw [step, hmade, Option.map_some, Option.elim_some], hsound, ?_⟩
            exact fun hfalse => absurd (hcache'.symm.trans hfalse) Bool.false_ne_true.symm
        | false =>
            obtain ⟨m', hmade, hsound, hwaiting⟩ :=
              h.schedule_uncached hcache htout hflags hh created clock
            refine ⟨m', _, by rw [step, hmade, Option.map_some, Option.elim_some], hsound, ?_⟩
            exact fun _ => hwaiting.trans (hflushed hcache)
      · refine ⟨m, .rejected, ?_, hrejected⟩
        rw [step, Timers.schedule, if_neg htout, Option.map_some, Option.elim_none]

/-- A call that can be made has a result. -/
theorem Invariant.step (h : Invariant notes m) {c : Call η} (hcall : m.Callable c) :
    ∃ m' n, m.step c = some (m', n) ∧ Invariant (notes ++ [n]) m' := by
  obtain ⟨h, hflushed⟩ := h
  cases c with
  | schedule hh tout flags created clock =>
      exact h.schedule hflushed hh tout hcall.2 created clock
  | flush clock =>
      obtain ⟨m', hflush, hsound, hempty, -, -⟩ := h.flush clock
      refine ⟨m', .flushed, by rw [Timers.step, hflush, Option.map_some], ?_, fun _ => hempty⟩
      exact hsound.keep rfl (fun _ => rfl) (unrelated_of_none rfl) rfl hsound.sorted hsound.same
  | run now =>
      have hidle : m.loop.running = none := by rw [show m.loop = .idle from hcall]; rfl
      exact ⟨_, .started, rfl, h.loop_idle rfl hidle rfl, hflushed⟩
  | next =>
      obtain ⟨now, hloop⟩ := TimerLoop.atHead_iff.mp hcall
      obtain ⟨m', n, hnext, hsound, hcache, hwaiting⟩ := h.next hloop
      refine ⟨m', n, by rw [Timers.step, hloop]; exact hnext, hsound, ?_⟩
      rw [hcache, hwaiting]
      exact hflushed
  | cancel timer =>
      obtain ⟨m', hcancel, hsound, hcache, hwaiting⟩ := h.cancel hcall.2
      refine ⟨m', .canceled timer, by rw [Timers.step, hcancel, Option.map_some], hsound, ?_⟩
      rw [hcache, hwaiting]
      exact hflushed
  | leave =>
      obtain ⟨now, timer, bgtimer, hloop⟩ := TimerLoop.isSome_running_iff.mp hcall
      obtain rfl := h.same now timer bgtimer hloop
      obtain ⟨m', hleave, hsound, hcache, hwaiting⟩ := h.leave hloop
      refine ⟨m', .returned bgtimer, ?_, hsound, ?_⟩
      · rw [Timers.step, hloop]
        simp only
        rw [hleave, Option.map_some]
      · rw [hcache, hwaiting]
        exact hflushed

/-! ## What is known of a run -/

/-- A timer was accepted, and neither was it canceled nor did it complete the run of one shot. -/
def Pending (notes : List Note) (id : ℕ) : Prop :=
  ∃ oneshot, .accepted id oneshot ∈ notes ∧ .canceled id ∉ notes ∧
    ¬ (oneshot = true ∧ .returned id ∈ notes)

/-- What holds in every state of a run: the list of `kore/timer.c` is sorted by `nextrun`, and
the timers in the two lists have not been freed; a pending timer is once in one list, or its
handler is being run; no handler is invoked behind its `cancel`, and one for one shot at most
once; a `flush` moves the timers that wait, each of them once, and none waits behind it. A timer
that is pending, or whose handler is being run, can be canceled. -/
structure Safe (notes : List Note) (m : Timers η) : Prop where
  sorted : Agenda.Sorted m.nextrun m.koreTimers
  allocated : ∀ id ∈ m.waitlist_ ++ m.koreTimers, (m.timers id).isSome
  placed : ∀ id, Pending notes id →
    m.waitlist_.count id + (m.koreTimers.count id + m.loop.running.toList.count id) = 1
  quiet : ∀ id before after, notes = before ++ .canceled id :: after → .invoked id ∉ after
  once : ∀ id, .accepted id true ∈ notes → notes.count (.invoked id) ≤ 1
  moved : ∀ clock, ∃ m', m.flush clock = some m' ∧ m'.waitlist_ = [] ∧
    m'.koreTimers.Perm (m.koreTimers ++ m.waitlist_) ∧ m'.koreTimers.Nodup
  flushed : m.cache_ = false → m.waitlist_ = []
  cancelable : ∀ id, Pending notes id ∨ m.loop.running = some id → (m.bgtimers id).isSome

theorem Sound.live_of_pending (h : Sound notes m) (hid : Pending notes id) :
    ∃ t b, Live notes id (m.view id) t b := by
  obtain ⟨oneshot, haccepted, hcanceled, hreturned⟩ := hid
  have hmade : id < m.made := by
    by_contra hge
    exact (h.fresh id (not_lt.mp hge)).unrelated.notMem rfl haccepted
  cases h.phase id hmade with
  | live hlive => exact ⟨_, _, hlive⟩
  | dead hdead =>
      rcases hdead.ended with hended | ⟨hended, hshot⟩
      · exact absurd hended hcanceled
      · exact absurd ⟨hshot oneshot haccepted, hended⟩ hreturned

theorem Sound.quiet (h : Sound notes m) (id : ℕ) : Quiet id notes := by
  by_cases hmade : id < m.made
  · cases h.phase id hmade with
    | live hlive => exact quiet_of_notMem hlive.unheard
    | dead hdead => exact hdead.quiet
  · exact quiet_of_notMem ((h.fresh id (not_lt.mp hmade)).unrelated.notMem rfl)

theorem Sound.once (h : Sound notes m) (hid : .accepted id true ∈ notes) :
    notes.count (.invoked id) ≤ 1 := by
  by_cases hmade : id < m.made
  · cases h.phase id hmade with
    | live hlive => exact hlive.first (hlive.accepted true hid).symm
    | dead hdead => exact hdead.once hid
  · exact absurd hid ((h.fresh id (not_lt.mp hmade)).unrelated.notMem rfl)

theorem Invariant.safe (h : Invariant notes m) : Safe notes m where
  sorted := h.sound.sorted
  allocated := fun id hid => by
    refine h.sound.allocated ?_
    rw [slots, ← List.append_assoc]
    exact List.mem_append_left _ hid
  placed := fun id hid => by
    obtain ⟨t, b, hlive⟩ := h.sound.live_of_pending hid
    have hcount := List.count_eq_one_of_mem h.sound.slots (mem_slots.mpr hlive.placed)
    rwa [slots, List.count_append, List.count_append] at hcount
  quiet := h.sound.quiet
  once := fun id hid => h.sound.once hid
  moved := fun clock => by
    obtain ⟨m', hflush, hsound, hempty, hperm, -⟩ := h.sound.flush clock
    exact ⟨m', hflush, hempty, hperm, hsound.nodup_queued⟩
  flushed := h.flushed
  cancelable := fun id hid => by
    rcases hid with hid | hid
    · obtain ⟨t, b, hlive⟩ := h.sound.live_of_pending hid
      exact Option.isSome_of_mem hlive.bgtimer
    · have hslot : id ∈ m.slots := mem_slots.mpr (Or.inr (Or.inr hid))
      cases h.sound.phase id (h.sound.lt_made hslot) with
      | live hlive => exact Option.isSome_of_mem hlive.bgtimer
      | dead hdead =>
          obtain ⟨b, hb, -⟩ := hdead.held hid
          exact Option.isSome_of_mem hb

/-- A run of calls that can be made goes through, and it is safe. -/
theorem run_safe {calls : List (Call η)} (hcalls : Machine.Always step Callable new calls) :
    ∃ m notes, Machine.exec step new calls = some (m, notes) ∧ Safe notes m := by
  have hstart : Invariant [] (new : Timers η) := ⟨sound_new, fun _ => rfl⟩
  obtain ⟨m, notes, hexec, hinv⟩ :=
    Machine.exec_progress (fun before m c h hcall => h.step hcall) hstart hcalls
  exact ⟨m, notes, hexec, hinv.safe⟩

/-- A repeating timer and one for one shot wait until the lists are flushed. The repeating one
is canceled from the handler of a third, when it is back in the list. -/
def canceledRun : List (Call Unit) :=
  [.schedule (some ()) 100 0 0 0, .schedule (some ()) 50 timerOneshot 0 0, .flush (fun _ => 10),
    .run 60, .next, .leave, .next,
    .run 120, .next, .schedule (some ()) 90 timerOneshot 120 120, .leave, .next,
    .run 500, .next, .cancel 0, .leave, .next, .next]

theorem run_safe_canceled :
    Machine.Always step Callable new canceledRun ∧
      ∃ m notes, Machine.exec step new canceledRun = some (m, notes) ∧ Safe notes m :=
  ⟨by decide, run_safe (by decide)⟩

end Sparc.Timers
