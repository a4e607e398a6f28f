import Mathlib.Data.Fintype.EquivFin
import Sparc.Verification.Worker.Exclusion

/-! # When the accept lock is lost -/

namespace Sparc

namespace AcceptLock

variable {n : ℕ} {s s' : AcceptLock n} {id : Fin n} {logged : Bool}

/-- A worker that has the lock and is there, or that the parent finds by its number. -/
def Holds (s : AcceptLock n) (i : Fin n) : Prop :=
  (s.workers i).life = .running ∧ (s.workers i).Owns ∨
    (s.workers i).life = .crashed ∧ (s.workers i).Marked

/-- The parent is about to release the lock. -/
def Releasing (s : AcceptLock n) : Prop :=
  match s.parent with
  | .check id => (s.workers id).pid = s.current
  | .clearing _ => True
  | .releasing _ => True
  | _ => False

/-- The lock is free, or somebody is going to release it. -/
def Recoverable (s : AcceptLock n) : Prop := s.lock = 0 ∨ (∃ i, s.Holds i) ∨ s.Releasing

/-- The lock is not lost with this step: a worker does not crash while it has the lock and its
number is not there, and it does not quit with the lock. -/
def Careful (s : AcceptLock n) : LockStep n → Prop
  | .crash id => (s.workers id).Owns → (s.workers id).Marked
  | .turn id quit => quit = true → (s.workers id).hasLock = false
  | _ => True

/-- The number of a worker that is in the lock is not given to another one. -/
def Fresh (s : AcceptLock n) : LockStep n → Prop
  | .spawn pid => pid ≠ s.current
  | _ => True

/-- The number in the lock is that of the worker that has it, or of one that is gone. -/
def Named (s : AcceptLock n) : Prop :=
  ∀ i, (s.workers i).life ≠ .reaped → (s.workers i).pid = s.current → (s.workers i).Marked

instance (s : AcceptLock n) : DecidablePred s.Fresh
  | .spawn pid => inferInstanceAs (Decidable (pid ≠ s.current))
  | .obtain _ _ _ => isTrue trivial
  | .mark _ => isTrue trivial
  | .prepare _ => isTrue trivial
  | .events _ _ => isTrue trivial
  | .clear _ => isTrue trivial
  | .release _ => isTrue trivial
  | .turn _ _ => isTrue trivial
  | .crash _ => isTrue trivial
  | .wait _ => isTrue trivial
  | .parentCheck => isTrue trivial
  | .parentClear => isTrue trivial
  | .parentRelease => isTrue trivial

/-! ## One step -/

theorem recoverable_of_running (hlife : (s.workers id).life = .running)
    (howns : (s.workers id).Owns) : s.Recoverable := .inr (.inl ⟨id, .inl ⟨hlife, howns⟩⟩)

theorem recoverable_of_update {w : KoreWorker} {lock current : ℕ} {parent : ParentPc n}
    (hlife : w.life = .running) (howns : w.Owns) :
    Recoverable ⟨lock, current, Function.update s.workers id w, parent⟩ := by
  refine .inr (.inl ⟨id, .inl ?_⟩)
  simp only [Function.update_self]
  exact ⟨hlife, howns⟩

theorem recoverable_congr (s s' : AcceptLock n) (hlock : s'.lock = s.lock)
    (hcurrent : s'.current = s.current) (hparent : s'.parent = s.parent)
    (hpid : ∀ i, (s'.workers i).pid = (s.workers i).pid)
    (hholds : ∀ i, s'.Holds i ↔ s.Holds i) : s'.Recoverable ↔ s.Recoverable := by
  have hreleasing : s'.Releasing ↔ s.Releasing := by
    rw [Releasing, Releasing, hparent]
    cases s.parent with
    | check slot => simp only [hpid, hcurrent]
    | _ => rfl
  rw [Recoverable, Recoverable, hlock, hreleasing]
  simp only [hholds]

/-- A step of a worker that has nothing to do with the lock. -/
theorem recoverable_quiet {w : KoreWorker} (hquiet : (s.workers id).Quiet w)
    (hholds : (s.set id w).Holds id ↔ s.Holds id) :
    (s.set id w).Recoverable ↔ s.Recoverable := by
  apply recoverable_congr s (s.set id w) rfl rfl rfl
  · intro i
    by_cases heq : i = id
    · rw [heq, set_workers_self, hquiet.pid]
    · rw [set_workers_of_ne s w heq]
  · intro i
    by_cases heq : i = id
    · rw [heq]
      exact hholds
    · rw [Holds, Holds, set_workers_of_ne s w heq]

theorem recoverable_quiet_running {w : KoreWorker} (hold : (s.workers id).life = .running)
    (hquiet : (s.workers id).Quiet w) (hlife : w.life = .running) :
    (s.set id w).Recoverable ↔ s.Recoverable := by
  apply recoverable_quiet hquiet
  rw [Holds, Holds, set_workers_self, hlife, hold, hquiet.owns]
  simp

/-- A worker that has the lock is gone without its number there. -/
theorem Inv.lost {w : KoreWorker} (h : s.Inv) (hold : (s.workers id).life = .running)
    (howns : (s.workers id).Owns) (hholds : ¬ (s.set id w).Holds id) :
    ¬ (s.set id w).Recoverable := by
  obtain ⟨hapart, hothers⟩ := h.alone (not_reaped hold) howns
  have hfits := h.fits id (not_reaped hold)
  rintro (hzero | ⟨i, hi⟩ | hreleasing)
  · exact absurd (hzero.symm.trans (hfits.lock howns)) (by decide)
  · by_cases heq : i = id
    · exact hholds (heq ▸ hi)
    · rw [Holds, set_workers_of_ne s w heq] at hi
      rcases hi with ⟨hlife, howns'⟩ | ⟨hlife, hmarked⟩
      · exact hothers i heq (not_reaped hlife) howns'
      · exact hothers i heq (by rw [hlife]; decide) hmarked.owns
  · have hcheck := h.parent
    have hparent : (s.set id w).parent = s.parent := rfl
    rw [Releasing, hparent] at hreleasing
    rw [ParentOk] at hcheck
    split at hreleasing
    · rename_i slot heq
      rw [heq] at hcheck
      obtain ⟨hreaped, hdiffer⟩ := hcheck
      have hne : slot ≠ id := by
        intro hslot
        rw [hslot, hold] at hreaped
        exact absurd hreaped (by decide)
      rw [set_workers_of_ne s w hne] at hreleasing
      by_cases hmarked : (s.workers id).Marked
      · exact hdiffer id (not_reaped hold) ((hfits.marked hmarked).symm.trans hreleasing.symm)
      · exact h.pid slot (hreleasing.trans (hfits.unmarked howns hmarked))
    · rename_i slot heq
      exact (hapart slot).1 heq
    · rename_i slot heq
      exact (hapart slot).2 heq
    · exact hreleasing

theorem Inv.recoverable_turn (h : s.Inv) (hlife : (s.workers id).life = .running)
    (hpc : (s.workers id).pc = .tail) (quit : Bool) :
    (s.set id { s.workers id with
        pc := .loop
        life := if quit then .exited else .running }).Recoverable ↔
      s.Recoverable ∧ s.Careful (.turn id quit) := by
  have hquiet := h.quiet_turn hpc quit
  cases quit with
  | false =>
      rw [recoverable_quiet_running hlife hquiet rfl]
      simp [Careful]
  | true =>
      by_cases hlock : (s.workers id).hasLock = true
      · apply iff_of_false
        · apply h.lost hlife (.inr hlock)
          rw [Holds, set_workers_self]
          simp
        · rintro ⟨-, hcareful⟩
          exact absurd (hlock.symm.trans (hcareful rfl)) (by decide)
      · have hnot : ¬ (s.workers id).Owns := by
          rw [KoreWorker.Owns, hpc]
          simpa using hlock
        rw [recoverable_quiet hquiet]
        · simp [Careful, hlock]
        · rw [Holds, Holds, set_workers_self, hlife]
          simp [hnot]

theorem Inv.recoverable_crash (h : s.Inv) (hlife : (s.workers id).life = .running) :
    (s.set id { s.workers id with life := .crashed }).Recoverable ↔
      s.Recoverable ∧ s.Careful (.crash id) := by
  have hquiet : (s.workers id).Quiet { s.workers id with life := .crashed } :=
    ⟨h.ok id, rfl, by simp, Iff.rfl, Iff.rfl⟩
  have hcrashed : (s.set id { s.workers id with life := .crashed }).Holds id ↔
      (s.workers id).Marked := by
    rw [Holds, set_workers_self]
    simp [KoreWorker.Marked]
  have hrunning : s.Holds id ↔ (s.workers id).Owns := by
    rw [Holds, hlife]
    simp
  by_cases howns : (s.workers id).Owns
  · by_cases hmarked : (s.workers id).Marked
    · rw [recoverable_quiet hquiet (hcrashed.trans (iff_of_true hmarked (hrunning.mpr howns)))]
      simp [Careful, hmarked]
    · apply iff_of_false (h.lost hlife howns (hcrashed.not.mpr hmarked))
      rintro ⟨-, hcareful⟩
      exact hmarked (hcareful howns)
  · have hnot : ¬ (s.workers id).Marked := fun hmarked => howns hmarked.owns
    rw [recoverable_quiet hquiet (hcrashed.trans (iff_of_false hnot (hrunning.not.mpr howns)))]
    simp [Careful, howns]

/-! ## The parent -/

theorem holds_set_reaped (s : AcceptLock n) (id i : Fin n) :
    (s.set id { s.workers id with life := .reaped }).Holds i ↔ i ≠ id ∧ s.Holds i := by
  by_cases heq : i = id
  · rw [heq, Holds, set_workers_self]
    simp
  · rw [Holds, Holds, set_workers_of_ne s _ heq]
    simp [heq]

theorem set_reaped_pid (s : AcceptLock n) (id i : Fin n) :
    ((s.set id { s.workers id with life := .reaped }).workers i).pid = (s.workers i).pid := by
  by_cases heq : i = id
  · rw [heq, set_workers_self]
  · rw [set_workers_of_ne s _ heq]

theorem Inv.recoverable_wait (h : s.Inv) (hnamed : s.Named) (hidle : s.parent = .idle)
    (hwait : s.wait id = some s') : s'.Recoverable ↔ s.Recoverable := by
  rw [AcceptLock.wait] at hwait
  split at hwait
  · rename_i hcrashed
    obtain ⟨slot, hslot, rfl⟩ := Option.map_eq_some_iff.mp hwait
    have hpid : (s.workers slot).pid = (s.workers id).pid := by
      have hfound := List.find?_some hslot
      simpa using hfound
    have hold : (s.workers id).life ≠ .reaped := by
      rw [hcrashed]
      decide
    have hholds : (∃ i, (s.set id { s.workers id with life := .reaped }).Holds i) ↔
        ∃ i, i ≠ id ∧ s.Holds i := exists_congr (holds_set_reaped s id)
    have hself : s.Holds id ↔ (s.workers id).Marked := by
      rw [Holds, hcrashed]
      simp
    have hreleasing : ((s.set id { s.workers id with life := .reaped }).workers slot).pid =
        s.current ↔ s.Holds id := by
      rw [set_reaped_pid, hpid, hself]
      exact ⟨hnamed id hold, fun hmarked => ((h.fits id hold).marked hmarked).symm⟩
    constructor
    · rintro (hzero | hi | hnow)
      · exact .inl hzero
      · obtain ⟨i, -, hi⟩ := hholds.mp hi
        exact .inr (.inl ⟨i, hi⟩)
      · exact .inr (.inl ⟨id, hreleasing.mp hnow⟩)
    · rintro (hzero | ⟨i, hi⟩ | hnow)
      · exact .inl hzero
      · by_cases heq : i = id
        · exact .inr (.inr (hreleasing.mpr (heq ▸ hi)))
        · exact .inr (.inl (hholds.mpr ⟨i, heq, hi⟩))
      · rw [Releasing, hidle] at hnow
        exact absurd hnow (fun hfalse => hfalse)
  · rename_i hexited
    rw [Option.some.injEq] at hwait
    subst hwait
    have hnot : ¬ s.Holds id := by
      rw [Holds, hexited]
      simp
    have hholds : ∀ i, (s.set id { s.workers id with life := .reaped }).Holds i ↔ s.Holds i := by
      intro i
      rw [holds_set_reaped]
      exact ⟨And.right, fun hi => ⟨fun heq => hnot (heq ▸ hi), hi⟩⟩
    exact recoverable_congr s (s.set id { s.workers id with life := .reaped }) rfl rfl rfl
      (set_reaped_pid s id) hholds
  · exact absurd hwait (by simp)

theorem recoverable_parentCheck (hparent : s.parent = .check id) :
    Recoverable { s with
        parent := if (s.workers id).pid = s.current then .clearing id else .restart id } ↔
      s.Recoverable := by
  have hreleasing : Releasing { s with
      parent := if (s.workers id).pid = s.current then .clearing id else .restart id } ↔
      s.Releasing := by
    rw [Releasing, Releasing, hparent]
    split_ifs with hcurrent
    · exact iff_of_true trivial hcurrent
    · exact iff_of_false (fun hfalse => hfalse) hcurrent
  exact or_congr_right (or_congr_right hreleasing)

theorem recoverable_parentClear (hparent : s.parent = .clearing id) :
    Recoverable { s with current := 0, parent := .releasing id } ↔ s.Recoverable := by
  apply iff_of_true
  · exact .inr (.inr trivial)
  · right
    right
    rw [Releasing, hparent]
    trivial

theorem Inv.recoverable_parentRelease (h : s.Inv) (hparent : s.parent = .releasing id) :
    Recoverable { (s.compareAndSwap 1 0).1 with parent := .restart id } ↔ s.Recoverable := by
  have hreleasing := h.parent
  rw [ParentOk, hparent] at hreleasing
  apply iff_of_true
  · rw [compareAndSwap, if_pos hreleasing.2.1]
    exact .inl rfl
  · right
    right
    rw [Releasing, hparent]
    trivial

theorem Inv.recoverable_spawn {pid : ℕ} (h : s.Inv) (hparent : s.parent = .restart id) :
    Recoverable { s.set id (.koreWorkerSpawn pid) with parent := .idle } ↔ s.Recoverable := by
  have hreaped := h.parent
  rw [ParentOk, hparent] at hreaped
  have hholds : ∀ i, Holds { s.set id (.koreWorkerSpawn pid) with parent := .idle } i ↔
      s.Holds i := by
    intro i
    by_cases heq : i = id
    · apply iff_of_false
      · rw [heq, Holds, set_workers_self]
        simp [KoreWorker.koreWorkerSpawn, KoreWorker.Owns]
      · rw [heq, Holds, hreaped]
        simp
    · rw [Holds, Holds, set_workers_of_ne s _ heq]
  have hreleasing : Releasing { s.set id (.koreWorkerSpawn pid) with parent := .idle } ↔
      s.Releasing := by
    rw [Releasing, Releasing, hparent]
  exact or_congr_right (or_congr (exists_congr hholds) hreleasing)

/-! ## Every step -/

theorem Named.set {w : KoreWorker} {lock current : ℕ} {parent : ParentPc n} (h : s.Named)
    (hw : w.life ≠ .reaped → w.pid = current → w.Marked)
    (hcurrent : current = s.current ∨
      ∀ i, i ≠ id → (s.workers i).life ≠ .reaped → (s.workers i).pid ≠ current) :
    Named ⟨lock, current, Function.update s.workers id w, parent⟩ := by
  have hself : Function.update s.workers id w id = w := Function.update_self id w s.workers
  have hrest : ∀ i, i ≠ id → Function.update s.workers id w i = s.workers i :=
    fun i hi => Function.update_of_ne hi w s.workers
  generalize Function.update s.workers id w = ws at hself hrest ⊢
  intro i hi hpid
  simp only at hi hpid
  by_cases heq : i = id
  · simp only [heq, hself]
    rw [heq, hself] at hi hpid
    exact hw hi hpid
  · simp only [hrest i heq]
    rw [hrest i heq] at hi hpid
    rcases hcurrent with rfl | hcurrent
    · exact h i hi hpid
    · exact absurd hpid (hcurrent i heq hi)

theorem Named.quiet {w : KoreWorker} (h : s.Named) (hold : (s.workers id).life ≠ .reaped)
    (hquiet : (s.workers id).Quiet w) : (s.set id w).Named :=
  h.set (fun _ hpid => hquiet.marked.mpr (h id hold (hquiet.pid.symm.trans hpid))) (.inl rfl)

theorem Named.wait (h : s.Named) (hwait : s.wait id = some s') : s'.Named := by
  rw [AcceptLock.wait] at hwait
  split at hwait
  · obtain ⟨slot, -, rfl⟩ := Option.map_eq_some_iff.mp hwait
    exact h.set (fun hne => absurd rfl hne) (.inl rfl)
  · rw [Option.some.injEq] at hwait
    subst hwait
    exact h.set (fun hne => absurd rfl hne) (.inl rfl)
  · exact absurd hwait (by simp)

/-- The number in the lock is still that of its worker after the step, and the lock is not lost
exactly if it has not been lost before and the step is careful. -/
def Traced (s : AcceptLock n) (e : LockStep n) (s' : AcceptLock n) : Prop :=
  s'.Named ∧ (s'.Recoverable ↔ s.Recoverable ∧ s.Careful e)

/-- A step of a worker that has nothing to do with the lock and does not end it. -/
theorem traced_quiet {w : KoreWorker} {e : LockStep n} (hnamed : s.Named)
    (hlife : (s.workers id).life = .running) (hquiet : (s.workers id).Quiet w)
    (hrunning : w.life = .running) (hcareful : s.Careful e) : s.Traced e (s.set id w) :=
  ⟨hnamed.quiet (not_reaped hlife) hquiet,
    (recoverable_quiet_running hlife hquiet hrunning).trans (and_iff_left hcareful).symm⟩

theorem Inv.traced_obtain (h : s.Inv) (hn : n ≠ 1) (hnamed : s.Named) (late full : Bool)
    (hlife : (s.workers id).life = .running) (hpc : (s.workers id).pc = .loop) :
    s.Traced (.obtain id late full) (s.obtain id late full) := by
  rcases h.obtain_cases hn hlife hpc late full with
    ⟨w, heq, hquiet, hrunning⟩ | ⟨hzero, hlock, heq⟩
  · rw [heq]
    exact traced_quiet hnamed hlife hquiet hrunning trivial
  · have hnot : ¬ (s.workers id).Marked := by
      rw [KoreWorker.Marked, hlock]
      simp
    rw [heq]
    exact ⟨hnamed.set (fun _ hpid => absurd (hnamed id (not_reaped hlife) hpid) hnot) (.inl rfl),
      iff_of_true (recoverable_of_update hlife (.inl rfl)) ⟨.inl hzero, trivial⟩⟩

theorem Inv.traced_mark (h : s.Inv) (hnamed : s.Named) (hlife : (s.workers id).life = .running)
    (hpc : (s.workers id).pc = .grabbed) : s.Traced (.mark id) (s.mark id) := by
  have hothers : ∀ i, i ≠ id → (s.workers i).life ≠ .reaped →
      (s.workers i).pid ≠ (s.workers id).pid :=
    fun i hi hold heq => hi (h.distinct i id hold (not_reaped hlife) heq)
  have hmarked : KoreWorker.Marked { s.workers id with hasLock := true, pc := .ready true } :=
    ⟨rfl, by simp⟩
  exact ⟨hnamed.set (fun _ _ => hmarked) (.inr hothers),
    iff_of_true (recoverable_of_update hlife hmarked.owns)
      ⟨recoverable_of_running hlife (.inl hpc), trivial⟩⟩

theorem Inv.traced_prepare {obtained : Bool} (h : s.Inv) (hnamed : s.Named)
    (hlife : (s.workers id).life = .running) (hpc : (s.workers id).pc = .ready obtained) :
    s.Traced (.prepare id) (s.set id { (s.workers id).prepare obtained with pc := .waiting }) := by
  have hrunning : ((s.workers id).prepare obtained).life = .running :=
    ((s.workers id).prepare_same obtained).2.1.trans hlife
  exact traced_quiet hnamed hlife (h.quiet_prepare hlife hpc) hrunning trivial

theorem Inv.traced_events (h : s.Inv) (hn : n ≠ 1) (hnamed : s.Named) (any : Bool)
    (hlife : (s.workers id).life = .running) (hpc : (s.workers id).pc = .waiting) :
    s.Traced (.events id any) (s.events id any) := by
  obtain ⟨w, heq, hquiet, hrunning⟩ := h.events_eq hn hlife hpc any
  rw [heq]
  exact traced_quiet hnamed hlife hquiet hrunning trivial

theorem Inv.traced_clear (h : s.Inv) (hnamed : s.Named) (hlife : (s.workers id).life = .running)
    (hpc : (s.workers id).pc = .clearing) :
    s.Traced (.clear id) { s.set id { s.workers id with pc := .releasing } with current := 0 } := by
  have hok := h.ok id
  rw [KoreWorker.Ok, hpc] at hok
  exact ⟨hnamed.set (fun _ hpid => absurd hpid (h.pid id)) (.inr (fun i _ _ => h.pid i)),
    iff_of_true (recoverable_of_update hlife (.inr hok.2))
      ⟨recoverable_of_running hlife (.inr hok.2), trivial⟩⟩

theorem Inv.traced_release (h : s.Inv) (hnamed : s.Named) (hlife : (s.workers id).life = .running)
    (hpc : (s.workers id).pc = .releasing) : s.Traced (.release id) (s.release id).1 := by
  have hok := h.ok id
  rw [KoreWorker.Ok, hpc] at hok
  have hfits := h.fits id (not_reaped hlife)
  have howns : (s.workers id).Owns := .inr hok.2
  have hzero := hfits.unmarked howns (fun hmarked => hmarked.2 hpc)
  rw [AcceptLock.release, compareAndSwap, if_pos (hfits.lock howns)]
  exact ⟨hnamed.set (fun _ hpid => absurd (hpid.trans hzero) (h.pid id)) (.inl rfl),
    iff_of_true (.inl rfl) ⟨recoverable_of_running hlife howns, trivial⟩⟩

theorem Inv.traced_crash (h : s.Inv) (hnamed : s.Named)
    (hlife : (s.workers id).life = .running) :
    s.Traced (.crash id) (s.set id { s.workers id with life := .crashed }) :=
  ⟨hnamed.quiet (not_reaped hlife) ⟨h.ok id, rfl, by simp, Iff.rfl, Iff.rfl⟩,
    h.recoverable_crash hlife⟩

theorem Inv.traced_parentRelease (h : s.Inv) (hnamed : s.Named)
    (hparent : s.parent = .releasing id) :
    s.Traced .parentRelease { (s.compareAndSwap 1 0).1 with parent := .restart id } := by
  refine ⟨?_, (h.recoverable_parentRelease hparent).trans (and_iff_left trivial).symm⟩
  have hreleasing := h.parent
  rw [ParentOk, hparent] at hreleasing
  rw [compareAndSwap, if_pos hreleasing.2.1]
  exact hnamed

theorem Inv.traced_step (h : s.Inv) (hn : n ≠ 1) (hnamed : s.Named) {e : LockStep n}
    (hfresh : s.Fresh e) (hstep : s.step e = some (s', logged)) : s.Traced e s' := by
  cases step_moves hstep with
  | obtain late full hlife hpc => exact h.traced_obtain hn hnamed late full hlife hpc
  | mark hlife hpc => exact h.traced_mark hnamed hlife hpc
  | prepare hlife hpc => exact h.traced_prepare hnamed hlife hpc
  | events any hlife hpc => exact h.traced_events hn hnamed any hlife hpc
  | clear hlife hpc => exact h.traced_clear hnamed hlife hpc
  | release hlife hpc => exact h.traced_release hnamed hlife hpc
  | turn quit hlife hpc =>
      exact ⟨hnamed.quiet (not_reaped hlife) (h.quiet_turn hpc quit),
        h.recoverable_turn hlife hpc quit⟩
  | crash hlife => exact h.traced_crash hnamed hlife
  | wait hidle hwait =>
      exact ⟨hnamed.wait hwait,
        (h.recoverable_wait hnamed hidle hwait).trans (and_iff_left trivial).symm⟩
  | parentCheck hparent =>
      exact ⟨hnamed, (recoverable_parentCheck hparent).trans (and_iff_left trivial).symm⟩
  | parentClear hparent =>
      exact ⟨fun i _ hpid => absurd hpid (h.pid i),
        (recoverable_parentClear hparent).trans (and_iff_left trivial).symm⟩
  | parentRelease hparent => exact h.traced_parentRelease hnamed hparent
  | spawn hparent _ _ =>
      exact ⟨hnamed.set (fun _ hpid => absurd hpid hfresh) (.inl rfl),
        (h.recoverable_spawn hparent).trans (and_iff_left trivial).symm⟩

theorem recoverable_exec (hn : n ≠ 1) {steps : List (LockStep n)} {outputs : List Bool}
    (h : s.Inv) (hnamed : s.Named) (hfresh : Machine.Always step Fresh s steps)
    (hrun : Machine.exec step s steps = some (s', outputs)) :
    s'.Inv ∧ s'.Named ∧
      (s'.Recoverable ↔ s.Recoverable ∧ Machine.Always step Careful s steps) := by
  induction steps generalizing s outputs with
  | nil =>
      simp only [Machine.exec, Option.some.injEq, Prod.mk.injEq] at hrun
      obtain ⟨rfl, rfl⟩ := hrun
      exact ⟨h, hnamed, (and_iff_left trivial).symm⟩
  | cons e steps ih =>
      obtain ⟨s₁, o, rest, hone, hrest, rfl⟩ := Machine.exec_cons_eq_some.mp hrun
      obtain ⟨hnamed₁, hrec⟩ := h.traced_step hn hnamed hfresh.1 hone
      obtain ⟨hinv, hnamed', hlast⟩ := ih (h.step hn hone).1 hnamed₁ (hfresh.2 _ hone) hrest
      refine ⟨hinv, hnamed', ?_⟩
      rw [hlast, hrec, Machine.Always, and_assoc]
      have hnext : (∀ r, s.step e = some r → Machine.Always step Careful r.1 steps) ↔
          Machine.Always step Careful s₁ steps := by
        constructor
        · exact fun hall => hall _ hone
        · intro hall r hr
          obtain rfl := Option.some.inj (hone.symm.trans hr)
          exact hall
      rw [hnext]

/-! ## The way back -/

/-- There is a way to a state where the lock is free. -/
def CanFree (s : AcceptLock n) : Prop :=
  ∃ more s' outputs, Machine.Always step Fresh s more ∧
    Machine.exec step s more = some (s', outputs) ∧ s'.lock = 0

theorem canFree_of_free (h : s.lock = 0) : s.CanFree := ⟨[], s, [], trivial, rfl, h⟩

theorem CanFree.cons {e : LockStep n} (h : s'.CanFree) (hfresh : s.Fresh e)
    (hstep : s.step e = some (s', logged)) : s.CanFree := by
  obtain ⟨more, s₂, outputs, hall, hrun, hfree⟩ := h
  refine ⟨e :: more, s₂, logged :: outputs, ⟨hfresh, ?_⟩, ?_, hfree⟩
  · intro r hr
    obtain rfl := Option.some.inj (hstep.symm.trans hr)
    exact hall
  · exact Machine.exec_cons_eq_some.mpr ⟨s', logged, outputs, hstep, hrun, rfl⟩

theorem worker_of_running {pc : WorkerPc} (hlife : (s.workers id).life = .running)
    (hpc : (s.workers id).pc = pc) (next : AcceptLock n × Bool) :
    s.worker id pc next = some next := by
  rw [worker, if_pos ⟨hlife, hpc⟩]

theorem Inv.canFree_releasing (h : s.Inv) (id : Fin n)
    (hlife : (s.workers id).life = .running)
    (hpc : (s.workers id).pc = .releasing) : s.CanFree := by
  have hok := h.ok id
  rw [KoreWorker.Ok, hpc] at hok
  have hlock := (h.fits id (not_reaped hlife)).lock (.inr hok.2)
  have hstep : s.step (.release id) = some (s.release id) := worker_of_running hlife hpc _
  have hfree : (s.release id).1.lock = 0 := by
    rw [AcceptLock.release, compareAndSwap, if_pos hlock]
    rfl
  exact (canFree_of_free hfree).cons (e := .release id) trivial hstep

theorem Inv.canFree_clearing (h : s.Inv) (id : Fin n)
    (hlife : (s.workers id).life = .running) (hpc : (s.workers id).pc = .clearing) : s.CanFree := by
  have hstep : s.step (.clear id) =
      some ({ s.set id { s.workers id with pc := .releasing } with current := 0 }, false) :=
    worker_of_running hlife hpc _
  have hnext := (h.clear hlife hpc).canFree_releasing id
    (by simp only [set_workers_self, hlife]) (by simp only [set_workers_self])
  exact hnext.cons (e := .clear id) trivial hstep

theorem Inv.canFree_waiting (h : s.Inv) (hn : n ≠ 1) (id : Fin n)
    (hlife : (s.workers id).life = .running) (hpc : (s.workers id).pc = .waiting)
    (hlock : (s.workers id).hasLock = true) : s.CanFree := by
  have hstep : s.step (.events id true) = some (s.events id true, false) :=
    worker_of_running hlife hpc _
  have hinv := (h.step hn hstep).1
  have hevents : s.events id true = s.set id { s.workers id with pc := .clearing } := by
    have hboth : ((s.workers id).hasLock && true) = true := by rw [hlock, Bool.and_self]
    rw [AcceptLock.events, if_pos hboth, if_neg hn]
  rw [hevents] at hstep hinv
  have hnext := hinv.canFree_clearing id
    (by simp only [set_workers_self, hlife]) (by simp only [set_workers_self])
  exact hnext.cons (e := .events id true) trivial hstep

theorem Inv.canFree_ready (h : s.Inv) (hn : n ≠ 1) (id : Fin n) (obtained : Bool)
    (hlife : (s.workers id).life = .running) (hpc : (s.workers id).pc = .ready obtained)
    (hlock : (s.workers id).hasLock = true) : s.CanFree := by
  obtain ⟨-, hsame, hkept⟩ := (s.workers id).prepare_same obtained
  have hstep : s.step (.prepare id) =
      some (s.set id { (s.workers id).prepare obtained with pc := .waiting }, false) := by
    rw [AcceptLock.step, hpc]
    exact worker_of_running hlife hpc _
  have hnext := (h.step hn hstep).1.canFree_waiting hn id
    (by simp only [set_workers_self, hsame, hlife]) (by simp only [set_workers_self])
    (by simp only [set_workers_self, hkept, hlock])
  exact hnext.cons (e := .prepare id) trivial hstep

theorem Inv.canFree_grabbed (h : s.Inv) (hn : n ≠ 1) (id : Fin n)
    (hlife : (s.workers id).life = .running) (hpc : (s.workers id).pc = .grabbed) : s.CanFree := by
  have hstep : s.step (.mark id) = some (s.mark id, false) := worker_of_running hlife hpc _
  have hnext := (h.step hn hstep).1.canFree_ready hn id true
    (by simp only [AcceptLock.mark, set_workers_self, hlife])
    (by simp only [AcceptLock.mark, set_workers_self])
    (by simp only [AcceptLock.mark, set_workers_self])
  exact hnext.cons (e := .mark id) trivial hstep

theorem Inv.canFree_loop (h : s.Inv) (hn : n ≠ 1) (id : Fin n)
    (hlife : (s.workers id).life = .running) (hpc : (s.workers id).pc = .loop)
    (hlock : (s.workers id).hasLock = true) : s.CanFree := by
  have hstep : s.step (.obtain id true false) = some (s.obtain id true false, false) :=
    worker_of_running hlife hpc _
  have hinv := (h.step hn hstep).1
  have hobtain : s.obtain id true false = s.set id { s.workers id with pc := .ready true } := by
    rw [AcceptLock.obtain, if_neg (by decide), if_pos hlock]
  rw [hobtain] at hstep hinv
  have hnext := hinv.canFree_ready hn id true
    (by simp only [set_workers_self, hlife]) (by simp only [set_workers_self])
    (by simp only [set_workers_self, hlock])
  exact hnext.cons (e := .obtain id true false) trivial hstep

theorem Inv.canFree_tail (h : s.Inv) (hn : n ≠ 1) (id : Fin n)
    (hlife : (s.workers id).life = .running) (hpc : (s.workers id).pc = .tail)
    (hlock : (s.workers id).hasLock = true) : s.CanFree := by
  have hstep : s.step (.turn id false) =
      some (s.set id { s.workers id with pc := .loop, life := .running }, false) :=
    worker_of_running hlife hpc _
  have hnext := (h.step hn hstep).1.canFree_loop hn id
    (by simp only [set_workers_self]) (by simp only [set_workers_self])
    (by simp only [set_workers_self, hlock])
  exact hnext.cons (e := .turn id false) trivial hstep

/-- A worker that is there and has the lock can release it. -/
theorem Inv.canFree_running (h : s.Inv) (hn : n ≠ 1) (id : Fin n)
    (hlife : (s.workers id).life = .running) (howns : (s.workers id).Owns) : s.CanFree := by
  rcases howns with hgrabbed | hlock
  · exact h.canFree_grabbed hn id hlife hgrabbed
  · have hok := h.ok id
    rw [KoreWorker.Ok] at hok
    cases hpc : (s.workers id).pc with
    | loop => exact h.canFree_loop hn id hlife hpc hlock
    | grabbed => exact h.canFree_grabbed hn id hlife hpc
    | ready obtained => exact h.canFree_ready hn id obtained hlife hpc hlock
    | waiting => exact h.canFree_waiting hn id hlife hpc hlock
    | clearing => exact h.canFree_clearing id hlife hpc
    | releasing => exact h.canFree_releasing id hlife hpc
    | tail => exact h.canFree_tail hn id hlife hpc hlock

/-! ## The parent releases it -/

theorem Inv.canFree_parentRelease (h : s.Inv) (slot : Fin n)
    (hparent : s.parent = .releasing slot) : s.CanFree := by
  have hlock := h.parent
  rw [ParentOk, hparent] at hlock
  have hstep : s.step .parentRelease = some (⟨0, s.current, s.workers, .restart slot⟩, false) := by
    rw [AcceptLock.step, hparent]
    simp only [compareAndSwap, if_pos hlock.2.1]
    rfl
  exact (canFree_of_free rfl).cons (e := .parentRelease) trivial hstep

theorem Inv.canFree_parentClear (h : s.Inv) (slot : Fin n) (hparent : s.parent = .clearing slot) :
    s.CanFree := by
  have hstep : s.step .parentClear =
      some (⟨s.lock, 0, s.workers, .releasing slot⟩, false) := by
    rw [AcceptLock.step, hparent]
  exact ((h.parentClear hparent).canFree_parentRelease slot rfl).cons (e := .parentClear) trivial
    hstep

theorem Inv.canFree_parentCheck (h : s.Inv) (slot : Fin n) (hparent : s.parent = .check slot)
    (hcurrent : (s.workers slot).pid = s.current) : s.CanFree := by
  have hstep : s.step .parentCheck =
      some (⟨s.lock, s.current, s.workers, .clearing slot⟩, false) := by
    rw [AcceptLock.step, hparent]
    exact if_pos hcurrent
  have hinv := h.parentCheck hparent
  rw [if_pos hcurrent] at hinv
  exact (hinv.canFree_parentClear slot rfl).cons (e := .parentCheck) trivial hstep

/-- The parent, which has time, waits for a worker that has crashed with the lock. -/
theorem Inv.canFree_idle (h : s.Inv) (hn : n ≠ 1) (id : Fin n) (hidle : s.parent = .idle)
    (hlife : (s.workers id).life = .crashed) (hmarked : (s.workers id).Marked) : s.CanFree := by
  have hold : (s.workers id).life ≠ .reaped := by
    rw [hlife]
    decide
  have hsome : (s.slotOf (s.workers id).pid).isSome = true := by
    rw [slotOf, List.find?_isSome]
    exact ⟨id, List.mem_finRange id, beq_self_eq_true _⟩
  obtain ⟨slot, hslot⟩ := Option.isSome_iff_exists.mp hsome
  have hpid : (s.workers slot).pid = (s.workers id).pid := by
    have hfound := List.find?_some hslot
    simpa using hfound
  have hstep : s.step (.wait id) =
      some ({ s.set id { s.workers id with life := .reaped } with parent := .check slot },
        false) := by
    rw [AcceptLock.step, if_pos hidle, AcceptLock.wait, hlife]
    simp only [hslot, Option.map_some]
  have hcurrent : ((s.set id { s.workers id with life := .reaped }).workers slot).pid =
      s.current := by
    rw [set_reaped_pid, hpid, (h.fits id hold).marked hmarked]
  exact ((h.step hn hstep).1.canFree_parentCheck slot rfl hcurrent).cons (e := .wait id) trivial
    hstep

theorem exists_fresh (s : AcceptLock n) : ∃ pid, pid ≠ 0 ∧ pid ≠ s.current ∧ ¬ s.Used pid := by
  obtain ⟨pid, hpid⟩ := Infinite.exists_notMem_finset
    (insert 0 (insert s.current (Finset.univ.image (fun i => (s.workers i).pid))))
  simp only [Finset.mem_insert, Finset.mem_image, Finset.mem_univ, true_and, not_or,
    not_exists] at hpid
  refine ⟨pid, hpid.1, hpid.2.1, ?_⟩
  intro hused
  obtain ⟨i, -, heq⟩ := hused
  exact hpid.2.2 i heq

theorem Inv.canFree_restart (h : s.Inv) (hn : n ≠ 1) (id slot : Fin n)
    (hparent : s.parent = .restart slot) (hlife : (s.workers id).life = .crashed)
    (hmarked : (s.workers id).Marked) : s.CanFree := by
  have hreaped : (s.workers slot).life = .reaped := by
    have hrestart := h.parent
    rwa [ParentOk, hparent] at hrestart
  have hne : id ≠ slot := by
    intro heq
    rw [← heq, hlife] at hreaped
    exact absurd hreaped (by decide)
  obtain ⟨pid, hzero, hcurrent, hunused⟩ := s.exists_fresh
  have hstep : s.step (.spawn pid) =
      some ({ s.set slot (.koreWorkerSpawn pid) with parent := .idle }, false) := by
    rw [AcceptLock.step, hparent]
    exact if_pos ⟨hzero, hunused⟩
  have hsame : (s.set slot (.koreWorkerSpawn pid)).workers id = s.workers id :=
    set_workers_of_ne s _ hne
  have hnext := (h.step hn hstep).1.canFree_idle hn id rfl (by simp only [hsame, hlife])
    (by simpa only [hsame] using hmarked)
  exact hnext.cons (e := .spawn pid) hcurrent hstep

/-- The parent can release the lock of a worker that has crashed. -/
theorem Inv.canFree_crashed (h : s.Inv) (hn : n ≠ 1) (id : Fin n)
    (hlife : (s.workers id).life = .crashed) (hmarked : (s.workers id).Marked) : s.CanFree := by
  cases hparent : s.parent with
  | idle => exact h.canFree_idle hn id hparent hlife hmarked
  | check slot =>
      by_cases hcurrent : (s.workers slot).pid = s.current
      · exact h.canFree_parentCheck slot hparent hcurrent
      · have hstep : s.step .parentCheck =
            some (⟨s.lock, s.current, s.workers, .restart slot⟩, false) := by
          rw [AcceptLock.step, hparent]
          exact if_neg hcurrent
        exact ((h.step hn hstep).1.canFree_restart hn id slot rfl hlife hmarked).cons
          (e := .parentCheck) trivial hstep
  | clearing slot => exact h.canFree_parentClear slot hparent
  | releasing slot => exact h.canFree_parentRelease slot hparent
  | restart slot => exact h.canFree_restart hn id slot hparent hlife hmarked

theorem Inv.canFree (h : s.Inv) (hn : n ≠ 1) (hrec : s.Recoverable) : s.CanFree := by
  rcases hrec with hfree | ⟨i, ⟨hlife, howns⟩ | ⟨hlife, hmarked⟩⟩ | hreleasing
  · exact canFree_of_free hfree
  · exact h.canFree_running hn i hlife howns
  · exact h.canFree_crashed hn i hlife hmarked
  · rw [Releasing] at hreleasing
    split at hreleasing
    · rename_i slot hparent
      exact h.canFree_parentCheck slot hparent hreleasing
    · rename_i slot hparent
      exact h.canFree_parentClear slot hparent
    · rename_i slot hparent
      exact h.canFree_parentRelease slot hparent
    · exact absurd hreleasing (fun hfalse => hfalse)

end AcceptLock

/-- The accept lock can be free again exactly as long as no worker has crashed between taking the
lock and storing its number, or between removing that and releasing the lock, and none has quit
with the lock. -/
theorem accept_lock_lost_iff {n : ℕ} (hn : n ≠ 1) {pids : Fin n → ℕ}
    (hpids : Function.Injective pids) (hzero : ∀ i, pids i ≠ 0) {steps : List (LockStep n)}
    {s : AcceptLock n} {logged : List Bool}
    (hfresh :
      Machine.Always AcceptLock.step AcceptLock.Fresh (AcceptLock.koreWorkerInit pids) steps)
    (hrun : Machine.exec AcceptLock.step (AcceptLock.koreWorkerInit pids) steps =
      some (s, logged)) :
    s.CanFree ↔
      Machine.Always AcceptLock.step AcceptLock.Careful (AcceptLock.koreWorkerInit pids) steps := by
  have hinit := AcceptLock.inv_init hpids hzero
  have hnamed : (AcceptLock.koreWorkerInit pids).Named := fun i _ hpid => absurd hpid (hzero i)
  obtain ⟨h, hnamed', hrec⟩ := AcceptLock.recoverable_exec hn hinit hnamed hfresh hrun
  rw [and_iff_right (.inl rfl)] at hrec
  rw [← hrec]
  constructor
  · rintro ⟨more, s', outputs, hmore, hexec, hfree⟩
    exact ((AcceptLock.recoverable_exec hn h hnamed' hmore hexec).2.2.mp (.inl hfree)).1
  · exact h.canFree hn

theorem accept_lock_lost_iff_crashing :
    ∃ s, Machine.exec AcceptLock.step (AcceptLock.koreWorkerInit (fun i : Fin 2 => i.val + 1))
        crashing = some (s, List.replicate 16 false) ∧
      (s.CanFree ↔ Machine.Always AcceptLock.step AcceptLock.Careful
        (AcceptLock.koreWorkerInit (fun i : Fin 2 => i.val + 1)) crashing) := by
  have hall : (Machine.exec AcceptLock.step
      (AcceptLock.koreWorkerInit (fun i : Fin 2 => i.val + 1)) crashing).map Prod.snd =
      some (List.replicate 16 false) := by decide
  obtain ⟨⟨s, logged⟩, hrun, rfl⟩ := Option.map_eq_some_iff.mp hall
  exact ⟨s, hrun, accept_lock_lost_iff (by decide) (fun i j h => by simpa [Fin.ext_iff] using h)
    (by simp) (by decide) hrun⟩

end Sparc
