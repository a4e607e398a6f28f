import Sparc.Library.Machine
import Sparc.Model.AcceptLock

/-! # At most one worker accepts -/

namespace Sparc

namespace KoreWorker

variable {w w' : KoreWorker} {lock current : ℕ}

/-- The worker has taken the lock and not released it. -/
def Owns (w : KoreWorker) : Prop := w.pc = .grabbed ∨ w.hasLock = true

instance (w : KoreWorker) : Decidable w.Owns :=
  inferInstanceAs (Decidable (w.pc = .grabbed ∨ w.hasLock = true))

/-- Its number is in the lock. -/
def Marked (w : KoreWorker) : Prop := w.hasLock = true ∧ w.pc ≠ .releasing

instance (w : KoreWorker) : Decidable w.Marked :=
  inferInstanceAs (Decidable (w.hasLock = true ∧ w.pc ≠ .releasing))

theorem Marked.owns (h : w.Marked) : w.Owns := .inr h.1

/-- What a worker knows by itself: it accepts in `kore_platform_event_wait` where it has the
lock. -/
def Ok (w : KoreWorker) : Prop :=
  w.hadLock = w.accepting ∧
    match w.pc with
    | .grabbed => w.hasLock = false
    | .ready obtained =>
        (obtained = true → w.hasLock = true) ∧
          (w.hasLock = true → obtained = true ∨ w.hadLock = true)
    | .waiting => w.accepting = w.hasLock
    | .clearing => w.hasLock = true
    | .releasing => w.hasLock = true
    | .loop => w.hasLock = true → w.hadLock = true
    | .tail => w.hasLock = true → w.hadLock = true

theorem ok_spawn (pid : ℕ) : (koreWorkerSpawn pid).Ok := by
  simp [Ok, koreWorkerSpawn]

/-- Accept is enabled for a worker that has the lock, and for no other. -/
theorem Ok.prepare {obtained : Bool} (h : w.Ok) (hpc : w.pc = .ready obtained) :
    KoreWorker.Ok { w.prepare obtained with pc := .waiting } := by
  obtain ⟨pid, hasLock, hadLock, accepting, pc, life⟩ := w
  obtain rfl : pc = .ready obtained := hpc
  obtain ⟨hhad, hobtained, hlock⟩ := h
  simp only at hhad hobtained hlock
  subst hhad
  cases obtained <;> cases hasLock <;> cases hadLock <;> simp_all [KoreWorker.prepare, Ok]

theorem prepare_same (w : KoreWorker) (obtained : Bool) :
    (w.prepare obtained).pid = w.pid ∧ (w.prepare obtained).life = w.life ∧
      (w.prepare obtained).hasLock = w.hasLock := by
  rw [KoreWorker.prepare]
  split <;> split <;> exact ⟨rfl, rfl, rfl⟩

/-- What the lock says of a worker that has it. -/
structure Fits (lock current : ℕ) (w : KoreWorker) : Prop where
  lock : w.Owns → lock = 1
  marked : w.Marked → current = w.pid
  unmarked : w.Owns → ¬ w.Marked → current = 0

theorem fits_of_not_owns (h : ¬ w.Owns) : w.Fits lock current :=
  ⟨fun howns => absurd howns h, fun hmarked => absurd hmarked.owns h,
    fun howns => absurd howns h⟩

/-- A step that has nothing to do with the lock. -/
structure Quiet (w w' : KoreWorker) : Prop where
  ok : w'.Ok
  pid : w'.pid = w.pid
  life : w'.life ≠ .reaped
  owns : w'.Owns ↔ w.Owns
  marked : w'.Marked ↔ w.Marked

theorem quiet_of_hasLock (hok : w'.Ok) (hpid : w'.pid = w.pid) (hlife : w'.life ≠ .reaped)
    (hlock : w'.hasLock = w.hasLock) (hold : w.pc ≠ .grabbed ∧ w.pc ≠ .releasing)
    (hnew : w'.pc ≠ .grabbed ∧ w'.pc ≠ .releasing) : w.Quiet w' := by
  refine ⟨hok, hpid, hlife, ?_, ?_⟩
  · rw [Owns, Owns, hlock]
    exact or_congr_left (iff_of_false hnew.1 hold.1)
  · rw [Marked, Marked, hlock]
    exact and_congr_right (fun _ => iff_of_true hnew.2 hold.2)

theorem Quiet.fits (h : w.Quiet w') (hfits : w.Fits lock current) : w'.Fits lock current := by
  refine ⟨fun howns => hfits.lock (h.owns.mp howns), ?_, ?_⟩
  · intro hmarked
    rw [h.pid]
    exact hfits.marked (h.marked.mp hmarked)
  · intro howns hnot
    exact hfits.unmarked (h.owns.mp howns) (fun hmarked => hnot (h.marked.mpr hmarked))

end KoreWorker

namespace AcceptLock

variable {n : ℕ} {s s' : AcceptLock n} {id : Fin n} {logged : Bool}

@[simp] theorem set_workers_self (s : AcceptLock n) (id : Fin n) (w : KoreWorker) :
    (s.set id w).workers id = w := by
  simp only [set, Function.update_self]

theorem set_workers_of_ne (s : AcceptLock n) (w : KoreWorker) {i : Fin n} (h : i ≠ id) :
    (s.set id w).workers i = s.workers i := by
  simp only [set, Function.update_of_ne h]

/-- What holds while the parent deals with a worker that is gone: it is about to release the lock
only where no worker has it. -/
def ParentOk (s : AcceptLock n) : Prop :=
  match s.parent with
  | .idle => True
  | .check id => (s.workers id).life = .reaped ∧
      ∀ i, (s.workers i).life ≠ .reaped → (s.workers i).pid ≠ (s.workers id).pid
  | .clearing id => (s.workers id).life = .reaped ∧ s.lock = 1 ∧
      ∀ i, (s.workers i).life ≠ .reaped → ¬ (s.workers i).Owns
  | .releasing id => (s.workers id).life = .reaped ∧ s.lock = 1 ∧ s.current = 0 ∧
      ∀ i, (s.workers i).life ≠ .reaped → ¬ (s.workers i).Owns
  | .restart id => (s.workers id).life = .reaped

/-- What holds between the steps. -/
structure Inv (s : AcceptLock n) : Prop where
  bit : s.lock = 0 ∨ s.lock = 1
  free : s.lock = 0 → s.current = 0
  ok : ∀ i, (s.workers i).Ok
  pid : ∀ i, (s.workers i).pid ≠ 0
  distinct : ∀ i j, (s.workers i).life ≠ .reaped → (s.workers j).life ≠ .reaped →
    (s.workers i).pid = (s.workers j).pid → i = j
  fits : ∀ i, (s.workers i).life ≠ .reaped → (s.workers i).Fits s.lock s.current
  one : ∀ i j, (s.workers i).life ≠ .reaped → (s.workers j).life ≠ .reaped →
    (s.workers i).Owns → (s.workers j).Owns → i = j
  parent : s.ParentOk

/-- The parent is not about to release the lock. -/
def Apart (s : AcceptLock n) : Prop := ∀ id, s.parent ≠ .clearing id ∧ s.parent ≠ .releasing id

theorem ParentOk.same (h : s.ParentOk) (hparent : s'.parent = s.parent)
    (hlife : ∀ i, (s'.workers i).life = .reaped ↔ (s.workers i).life = .reaped)
    (hpid : ∀ i, (s'.workers i).pid = (s.workers i).pid)
    (hlock : s.Apart ∨ s'.lock = s.lock ∧ s'.current = s.current ∧
      ∀ i, (s'.workers i).Owns ↔ (s.workers i).Owns) : s'.ParentOk := by
  have hnot : ∀ i, (s'.workers i).life ≠ .reaped → (s.workers i).life ≠ .reaped :=
    fun i hi hreaped => hi ((hlife i).mpr hreaped)
  rw [ParentOk] at h ⊢
  rw [hparent]
  cases hp : s.parent with
  | idle => trivial
  | check id =>
      rw [hp] at h
      refine ⟨(hlife id).mpr h.1, ?_⟩
      intro i hi
      rw [hpid, hpid]
      exact h.2 i (hnot i hi)
  | clearing id =>
      rw [hp] at h
      rcases hlock with hlock | ⟨hlock, -, howns⟩
      · exact absurd hp (hlock id).1
      · refine ⟨(hlife id).mpr h.1, hlock ▸ h.2.1, ?_⟩
        intro i hi
        rw [howns]
        exact h.2.2 i (hnot i hi)
  | releasing id =>
      rw [hp] at h
      rcases hlock with hlock | ⟨hlock, hcurrent, howns⟩
      · exact absurd hp (hlock id).2
      · refine ⟨(hlife id).mpr h.1, hlock ▸ h.2.1, hcurrent ▸ h.2.2.1, ?_⟩
        intro i hi
        rw [howns]
        exact h.2.2.2 i (hnot i hi)
  | restart id =>
      rw [hp] at h
      exact (hlife id).mpr h

/-- A worker that is there takes a step. -/
theorem Inv.step_worker {w : KoreWorker} {lock current : ℕ} (h : s.Inv)
    (hold : (s.workers id).life ≠ .reaped) (hok : w.Ok) (hpid : w.pid = (s.workers id).pid)
    (hlife : w.life ≠ .reaped) (hbit : lock = 0 ∨ lock = 1) (hfree : lock = 0 → current = 0)
    (hfits : w.Fits lock current)
    (hothers : lock = s.lock ∧ current = s.current ∧ (w.Owns ↔ (s.workers id).Owns) ∨
      s.Apart ∧ ∀ i, i ≠ id → (s.workers i).life ≠ .reaped → ¬ (s.workers i).Owns) :
    Inv ⟨lock, current, Function.update s.workers id w, s.parent⟩ := by
  have hself : Function.update s.workers id w id = w := Function.update_self id w s.workers
  have hrest : ∀ i, i ≠ id → Function.update s.workers id w i = s.workers i :=
    fun i hi => Function.update_of_ne hi w s.workers
  generalize Function.update s.workers id w = ws at hself hrest ⊢
  have hlives : ∀ i, (ws i).life = .reaped ↔ (s.workers i).life = .reaped := by
    intro i
    by_cases heq : i = id
    · rw [heq, hself]
      exact iff_of_false hlife hold
    · rw [hrest i heq]
  have hpids : ∀ i, (ws i).pid = (s.workers i).pid := by
    intro i
    by_cases heq : i = id
    · rw [heq, hself, hpid]
    · rw [hrest i heq]
  have hnot : ∀ i, (ws i).life ≠ .reaped → (s.workers i).life ≠ .reaped :=
    fun i hi hreaped => hi ((hlives i).mpr hreaped)
  have howner : (w.Owns ↔ (s.workers id).Owns) → ∀ i, (ws i).Owns ↔ (s.workers i).Owns := by
    intro hsame i
    by_cases heq : i = id
    · rwa [heq, hself]
    · rw [hrest i heq]
  refine ⟨hbit, hfree, ?_, ?_, ?_, ?_, ?_, ?_⟩
  · intro i
    by_cases heq : i = id
    · simp only [heq, hself]
      exact hok
    · simp only [hrest i heq]
      exact h.ok i
  · intro i
    simp only [hpids]
    exact h.pid i
  · intro i j hi hj heq
    simp only [hpids] at heq
    exact h.distinct i j (hnot i hi) (hnot j hj) heq
  · intro i hi
    by_cases heq : i = id
    · simp only [heq, hself]
      exact hfits
    · simp only [hrest i heq]
      rcases hothers with ⟨rfl, rfl, -⟩ | ⟨-, hothers⟩
      · exact h.fits i (hnot i hi)
      · exact KoreWorker.fits_of_not_owns (hothers i heq (hnot i hi))
  · intro i j hi hj howns howns'
    rcases hothers with ⟨-, -, hsame⟩ | ⟨-, hothers⟩
    · exact h.one i j (hnot i hi) (hnot j hj) ((howner hsame i).mp howns)
        ((howner hsame j).mp howns')
    · have honly : ∀ i, (ws i).life ≠ .reaped → (ws i).Owns → i = id := by
        intro i hi howns
        by_contra hne
        rw [hrest i hne] at howns
        exact hothers i hne (hnot i hi) howns
      exact (honly i hi howns).trans (honly j hj howns').symm
  · have hparent : (⟨lock, current, ws, s.parent⟩ : AcceptLock n).parent = s.parent := rfl
    apply h.parent.same hparent hlives hpids
    rcases hothers with ⟨hlock, hcurrent, hsame⟩ | ⟨hapart, -⟩
    · exact .inr ⟨hlock, hcurrent, howner hsame⟩
    · exact .inl hapart

theorem Inv.quiet {w : KoreWorker} (h : s.Inv) (hold : (s.workers id).life ≠ .reaped)
    (hquiet : (s.workers id).Quiet w) : (s.set id w).Inv :=
  h.step_worker hold hquiet.ok hquiet.pid hquiet.life h.bit h.free (hquiet.fits (h.fits id hold))
    (.inl ⟨rfl, rfl, hquiet.owns⟩)

/-- Where a worker has the lock, no other one has it, and the parent leaves it alone. -/
theorem Inv.alone (h : s.Inv) (hold : (s.workers id).life ≠ .reaped)
    (howns : (s.workers id).Owns) :
    s.Apart ∧ ∀ i, i ≠ id → (s.workers i).life ≠ .reaped → ¬ (s.workers i).Owns := by
  constructor
  · intro slot
    have hparent := h.parent
    constructor
    · intro heq
      rw [ParentOk, heq] at hparent
      exact hparent.2.2 id hold howns
    · intro heq
      rw [ParentOk, heq] at hparent
      exact hparent.2.2.2 id hold howns
  · intro i hne hi howns'
    exact hne (h.one i id hi hold howns' howns)

/-- Where nobody has the lock, that is so for each of them. -/
theorem Inv.nobody (h : s.Inv) (hlock : s.lock = 0) :
    s.Apart ∧ ∀ i, (s.workers i).life ≠ .reaped → ¬ (s.workers i).Owns := by
  constructor
  · intro slot
    have hparent := h.parent
    constructor
    · intro heq
      rw [ParentOk, heq] at hparent
      exact absurd (hlock.symm.trans hparent.2.1) (by decide)
    · intro heq
      rw [ParentOk, heq] at hparent
      exact absurd (hlock.symm.trans hparent.2.1) (by decide)
  · intro i hi howns
    exact absurd (hlock.symm.trans ((h.fits i hi).lock howns)) (by decide)

/-! ## The steps of a worker -/

theorem not_reaped {w : KoreWorker} (h : w.life = .running) : w.life ≠ .reaped := by
  rw [h]
  decide

theorem worker_eq_some {pc : WorkerPc} {next : AcceptLock n × Bool}
    (h : s.worker id pc next = some (s', logged)) :
    (s.workers id).life = .running ∧ (s.workers id).pc = pc ∧ s' = next.1 ∧ logged = next.2 := by
  rw [worker] at h
  split at h
  · rename_i hthere
    obtain rfl := Option.some.inj h
    exact ⟨hthere.1, hthere.2, rfl, rfl⟩
  · exact absurd h (by simp)

/-- `kore_worker_acceptlock_obtain` takes the lock where it is free, or does not touch it. -/
theorem Inv.obtain_cases (h : s.Inv) (hn : n ≠ 1) (hlife : (s.workers id).life = .running)
    (hpc : (s.workers id).pc = .loop) (late full : Bool) :
    (∃ w, s.obtain id late full = s.set id w ∧ (s.workers id).Quiet w ∧ w.life = .running) ∨
      s.lock = 0 ∧ (s.workers id).hasLock = false ∧
        s.obtain id late full =
          { s.set id { s.workers id with pc := .grabbed } with lock := 1 } := by
  have hok := h.ok id
  rw [KoreWorker.Ok, hpc] at hok
  have hquiet : ∀ obtained, (obtained = true → (s.workers id).hasLock = true) →
      (s.workers id).Quiet { s.workers id with pc := .ready obtained } := by
    intro obtained hobtained
    have hready : KoreWorker.Ok { s.workers id with pc := .ready obtained } :=
      ⟨hok.1, hobtained, fun hlock => .inr (hok.2 hlock)⟩
    have hloop : (s.workers id).pc ≠ .grabbed ∧ (s.workers id).pc ≠ .releasing := by
      rw [hpc]
      decide
    exact KoreWorker.quiet_of_hasLock hready rfl (not_reaped hlife) rfl hloop
      ⟨by simp, by simp⟩
  rw [AcceptLock.obtain]
  split
  · exact .inl ⟨_, rfl, hquiet false (by simp), hlife⟩
  · split
    · rename_i hlock
      exact .inl ⟨_, rfl, hquiet true (fun _ => hlock), hlife⟩
    · rename_i hlock
      split
      · exact .inl ⟨_, rfl, hquiet false (by simp), hlife⟩
      · rw [compareAndSwap]
        by_cases hzero : s.lock = 0
        · rw [if_pos hzero]
          exact .inr ⟨hzero, by simpa using hlock, rfl⟩
        · rw [if_neg hzero]
          exact .inl ⟨_, rfl, hquiet false (by simp), hlife⟩

theorem Inv.obtain (h : s.Inv) (hn : n ≠ 1) (hlife : (s.workers id).life = .running)
    (hpc : (s.workers id).pc = .loop) (late full : Bool) : (s.obtain id late full).Inv := by
  have hold := not_reaped hlife
  rcases h.obtain_cases hn hlife hpc late full with ⟨w, heq, hquiet, -⟩ | ⟨hzero, hlock, heq⟩
  · rw [heq]
    exact h.quiet hold hquiet
  · obtain ⟨hapart, hothers⟩ := h.nobody hzero
    have hgrabbed : KoreWorker.Ok { s.workers id with pc := .grabbed } := ⟨(h.ok id).1, hlock⟩
    have hfits : KoreWorker.Fits 1 s.current { s.workers id with pc := .grabbed } :=
      ⟨fun _ => rfl, fun hmarked => absurd (hlock.symm.trans hmarked.1) (by decide),
        fun _ _ => h.free hzero⟩
    rw [heq]
    exact h.step_worker hold hgrabbed rfl hold (.inr rfl) (by simp) hfits
      (.inr ⟨hapart, fun i _ => hothers i⟩)

theorem Inv.mark (h : s.Inv) (hlife : (s.workers id).life = .running)
    (hpc : (s.workers id).pc = .grabbed) : (s.mark id).Inv := by
  have hold := not_reaped hlife
  have howns : (s.workers id).Owns := .inl hpc
  have hlock := (h.fits id hold).lock howns
  have hready : KoreWorker.Ok { s.workers id with hasLock := true, pc := .ready true } :=
    ⟨(h.ok id).1, fun _ => rfl, fun _ => .inl rfl⟩
  have hfits : KoreWorker.Fits s.lock (s.workers id).pid
      { s.workers id with hasLock := true, pc := .ready true } :=
    ⟨fun _ => hlock, fun _ => rfl, fun _ hnot => absurd ⟨rfl, by simp⟩ hnot⟩
  exact h.step_worker hold hready rfl hold h.bit
    (fun hzero => absurd (hzero.symm.trans hlock) (by decide)) hfits (.inr (h.alone hold howns))

theorem Inv.quiet_prepare {obtained : Bool} (h : s.Inv) (hlife : (s.workers id).life = .running)
    (hpc : (s.workers id).pc = .ready obtained) :
    (s.workers id).Quiet { (s.workers id).prepare obtained with pc := .waiting } := by
  obtain ⟨hpid, hsame, hlock⟩ := (s.workers id).prepare_same obtained
  have hready : (s.workers id).pc ≠ .grabbed ∧ (s.workers id).pc ≠ .releasing := by
    rw [hpc]
    exact ⟨by simp, by simp⟩
  exact KoreWorker.quiet_of_hasLock ((h.ok id).prepare hpc) hpid
    (hsame.symm ▸ not_reaped hlife) hlock hready ⟨by simp, by simp⟩

/-- What is done with the events does not touch the lock before `worker_unlock`. -/
theorem Inv.events_eq (h : s.Inv) (hn : n ≠ 1) (hlife : (s.workers id).life = .running)
    (hpc : (s.workers id).pc = .waiting) (any : Bool) :
    ∃ w, s.events id any = s.set id w ∧ (s.workers id).Quiet w ∧ w.life = .running := by
  have hok := h.ok id
  rw [KoreWorker.Ok, hpc] at hok
  have hwaiting : (s.workers id).pc ≠ .grabbed ∧ (s.workers id).pc ≠ .releasing := by
    rw [hpc]
    decide
  rw [AcceptLock.events]
  by_cases hany : ((s.workers id).hasLock && any) = true
  · rw [if_pos hany, if_neg hn]
    have hclearing : KoreWorker.Ok { s.workers id with pc := .clearing } :=
      ⟨hok.1, (Bool.and_eq_true_iff.mp hany).1⟩
    exact ⟨_, rfl, KoreWorker.quiet_of_hasLock hclearing rfl (not_reaped hlife) rfl hwaiting
      ⟨by simp, by simp⟩, hlife⟩
  · rw [if_neg hany]
    have htail : KoreWorker.Ok { s.workers id with pc := .tail } :=
      ⟨hok.1, fun hlock => hok.1.trans (hok.2.trans hlock)⟩
    exact ⟨_, rfl, KoreWorker.quiet_of_hasLock htail rfl (not_reaped hlife) rfl hwaiting
      ⟨by simp, by simp⟩, hlife⟩

theorem Inv.clear (h : s.Inv) (hlife : (s.workers id).life = .running)
    (hpc : (s.workers id).pc = .clearing) :
    Inv { s.set id { s.workers id with pc := .releasing } with current := 0 } := by
  have hold := not_reaped hlife
  have hlock : (s.workers id).hasLock = true := by
    have hmatch := (h.ok id).2
    rwa [hpc] at hmatch
  have howns : (s.workers id).Owns := .inr hlock
  have hone := (h.fits id hold).lock howns
  have hreleasing : KoreWorker.Ok { s.workers id with pc := .releasing } := ⟨(h.ok id).1, hlock⟩
  have hfits : KoreWorker.Fits s.lock 0 { s.workers id with pc := .releasing } :=
    ⟨fun _ => hone, fun hmarked => absurd rfl hmarked.2, fun _ _ => rfl⟩
  exact h.step_worker hold hreleasing rfl hold h.bit (fun _ => rfl) hfits
    (.inr (h.alone hold howns))

theorem Inv.release (h : s.Inv) (hlife : (s.workers id).life = .running)
    (hpc : (s.workers id).pc = .releasing) : (s.release id).1.Inv ∧ (s.release id).2 = false := by
  have hold := not_reaped hlife
  have hlock : (s.workers id).hasLock = true := by
    have hmatch := (h.ok id).2
    rwa [hpc] at hmatch
  have howns : (s.workers id).Owns := .inr hlock
  have hone := (h.fits id hold).lock howns
  have hzero : s.current = 0 :=
    (h.fits id hold).unmarked howns (fun hmarked => hmarked.2 hpc)
  have htail : KoreWorker.Ok { s.workers id with hasLock := false, pc := .tail } :=
    ⟨(h.ok id).1, by simp⟩
  have hnot : ¬ KoreWorker.Owns { s.workers id with hasLock := false, pc := .tail } := by
    simp [KoreWorker.Owns]
  rw [AcceptLock.release, compareAndSwap, if_pos hone]
  refine ⟨?_, rfl⟩
  exact h.step_worker hold htail rfl hold (.inl rfl) (fun _ => hzero)
    (KoreWorker.fits_of_not_owns hnot) (.inr (h.alone hold howns))

theorem Inv.quiet_turn (h : s.Inv) (hpc : (s.workers id).pc = .tail) (quit : Bool) :
    (s.workers id).Quiet { s.workers id with
      pc := .loop
      life := if quit then .exited else .running } := by
  have hok := h.ok id
  rw [KoreWorker.Ok, hpc] at hok
  have htail : (s.workers id).pc ≠ .grabbed ∧ (s.workers id).pc ≠ .releasing := by
    rw [hpc]
    decide
  have hloop : KoreWorker.Ok { s.workers id with
      pc := .loop
      life := if quit then .exited else .running } := hok
  have hnew : (if quit then Life.exited else Life.running) ≠ .reaped := by
    split <;> decide
  exact KoreWorker.quiet_of_hasLock hloop rfl hnew rfl htail ⟨by simp, by simp⟩

theorem Inv.crash (h : s.Inv) (hlife : (s.workers id).life = .running) :
    (s.set id { s.workers id with life := .crashed }).Inv := by
  have hold := not_reaped hlife
  exact h.quiet hold ⟨h.ok id, rfl, by simp, Iff.rfl, Iff.rfl⟩

/-! ## The steps of the parent -/

/-- The slot of a worker by another process, or none. -/
theorem Inv.replace {w : KoreWorker} {parent : ParentPc n} (h : s.Inv) (hok : w.Ok)
    (hpid : w.pid ≠ 0) (hnew : w.life ≠ .reaped → ¬ w.Owns ∧ ¬ s.Used w.pid)
    (hparent : ParentOk ⟨s.lock, s.current, Function.update s.workers id w, parent⟩) :
    Inv ⟨s.lock, s.current, Function.update s.workers id w, parent⟩ := by
  have hself : Function.update s.workers id w id = w := Function.update_self id w s.workers
  have hrest : ∀ i, i ≠ id → Function.update s.workers id w i = s.workers i :=
    fun i hi => Function.update_of_ne hi w s.workers
  generalize Function.update s.workers id w = ws at hself hrest hparent ⊢
  refine ⟨h.bit, h.free, ?_, ?_, ?_, ?_, ?_, hparent⟩
  · intro i
    by_cases heq : i = id
    · simp only [heq, hself]
      exact hok
    · simp only [hrest i heq]
      exact h.ok i
  · intro i
    by_cases heq : i = id
    · simp only [heq, hself]
      exact hpid
    · simp only [hrest i heq]
      exact h.pid i
  · intro i j hi hj heq
    simp only at hi hj heq
    by_cases hid : i = id
    · by_cases hjd : j = id
      · rw [hid, hjd]
      · rw [hid, hself] at hi heq
        rw [hrest j hjd] at hj heq
        exact absurd ⟨j, hj, heq.symm⟩ (hnew hi).2
    · by_cases hjd : j = id
      · rw [hjd, hself] at hj heq
        rw [hrest i hid] at hi heq
        exact absurd ⟨i, hi, heq⟩ (hnew hj).2
      · rw [hrest i hid] at hi heq
        rw [hrest j hjd] at hj heq
        exact h.distinct i j hi hj heq
  · intro i hi
    simp only at hi
    by_cases heq : i = id
    · simp only [heq, hself]
      rw [heq, hself] at hi
      exact KoreWorker.fits_of_not_owns (hnew hi).1
    · simp only [hrest i heq]
      rw [hrest i heq] at hi
      exact h.fits i hi
  · intro i j hi hj howns howns'
    simp only at hi hj howns howns'
    have hother : ∀ i, (ws i).life ≠ .reaped → (ws i).Owns → i ≠ id := by
      intro i hi howns heq
      rw [heq, hself] at hi howns
      exact (hnew hi).1 howns
    have hid := hother i hi howns
    have hjd := hother j hj howns'
    rw [hrest i hid] at hi howns
    rw [hrest j hjd] at hj howns'
    exact h.one i j hi hj howns howns'

theorem Inv.wait (h : s.Inv) (hidle : s.parent = .idle) (hwait : s.wait id = some s') : s'.Inv := by
  have hok : KoreWorker.Ok { s.workers id with life := .reaped } := h.ok id
  have hnew : (Life.reaped ≠ .reaped →
      ¬ KoreWorker.Owns { s.workers id with life := .reaped } ∧ ¬ s.Used (s.workers id).pid) :=
    fun hne => absurd rfl hne
  rw [AcceptLock.wait] at hwait
  split at hwait
  · rename_i hcrashed
    obtain ⟨slot, hslot, rfl⟩ := Option.map_eq_some_iff.mp hwait
    have hpid : (s.workers slot).pid = (s.workers id).pid := by
      have hfound := List.find?_some hslot
      simpa using hfound
    have hold : (s.workers id).life ≠ .reaped := by
      rw [hcrashed]
      decide
    apply h.replace hok (h.pid id) hnew
    have hself := Function.update_self id
      { s.workers id with life := .reaped } s.workers
    have hrest : ∀ i, i ≠ id → Function.update s.workers id
        { s.workers id with life := .reaped } i = s.workers i :=
      fun i hi => Function.update_of_ne hi _ s.workers
    generalize Function.update s.workers id { s.workers id with life := .reaped } = ws
      at hself hrest ⊢
    have hthere : (ws slot).life = .reaped ∧ (ws slot).pid = (s.workers id).pid := by
      by_cases heq : slot = id
      · rw [heq, hself]
        exact ⟨rfl, rfl⟩
      · rw [hrest slot heq]
        refine ⟨?_, hpid⟩
        by_contra hne
        exact heq (h.distinct slot id hne hold hpid)
    refine ⟨hthere.1, ?_⟩
    intro i hi heq
    simp only at hi heq
    rw [hthere.2] at heq
    by_cases hid : i = id
    · rw [hid, hself] at hi
      exact hi rfl
    · rw [hrest i hid] at hi heq
      exact hid (h.distinct i id hi hold heq)
  · rw [Option.some.injEq] at hwait
    subst hwait
    have hparent : ParentOk ⟨s.lock, s.current,
        Function.update s.workers id { s.workers id with life := .reaped }, s.parent⟩ := by
      rw [ParentOk, hidle]
      trivial
    exact h.replace hok (h.pid id) hnew hparent
  · exact absurd hwait (by simp)

theorem Inv.parentCheck (h : s.Inv) (hparent : s.parent = .check id) :
    Inv { s with
      parent := if (s.workers id).pid = s.current then .clearing id else .restart id } := by
  have hcheck := h.parent
  rw [ParentOk, hparent] at hcheck
  obtain ⟨hreaped, hdiffer⟩ := hcheck
  refine ⟨h.bit, h.free, h.ok, h.pid, h.distinct, h.fits, h.one, ?_⟩
  rw [ParentOk]
  split_ifs with hcurrent
  · have hne : s.current ≠ 0 := hcurrent ▸ h.pid id
    have hlock : s.lock = 1 := h.bit.resolve_left (fun hzero => hne (h.free hzero))
    refine ⟨hreaped, hlock, ?_⟩
    intro i hi howns
    -- a worker with the lock has either its own number in it or none
    by_cases hmarked : (s.workers i).Marked
    · exact hdiffer i hi (hcurrent.trans ((h.fits i hi).marked hmarked)).symm
    · exact hne ((h.fits i hi).unmarked howns hmarked)
  · exact hreaped

theorem Inv.parentClear (h : s.Inv) (hparent : s.parent = .clearing id) :
    Inv { s with current := 0, parent := .releasing id } := by
  have hclearing := h.parent
  rw [ParentOk, hparent] at hclearing
  obtain ⟨hreaped, hlock, hnobody⟩ := hclearing
  exact ⟨h.bit, fun _ => rfl, h.ok, h.pid, h.distinct,
    fun i hi => KoreWorker.fits_of_not_owns (hnobody i hi), h.one,
    ⟨hreaped, hlock, rfl, hnobody⟩⟩

theorem Inv.parentRelease (h : s.Inv) (hparent : s.parent = .releasing id) :
    (s.compareAndSwap 1 0).2 = true ∧
      Inv { (s.compareAndSwap 1 0).1 with parent := .restart id } := by
  have hreleasing := h.parent
  rw [ParentOk, hparent] at hreleasing
  obtain ⟨hreaped, hlock, hcurrent, hnobody⟩ := hreleasing
  rw [compareAndSwap, if_pos hlock]
  exact ⟨rfl, .inl rfl, fun _ => hcurrent, h.ok, h.pid, h.distinct,
    fun i hi => KoreWorker.fits_of_not_owns (hnobody i hi), h.one, hreaped⟩

theorem Inv.spawn {pid : ℕ} (h : s.Inv) (hpid : pid ≠ 0) (hfresh : ¬ s.Used pid) :
    Inv { s.set id (.koreWorkerSpawn pid) with parent := .idle } :=
  h.replace (KoreWorker.ok_spawn pid) hpid
    (fun _ => ⟨by simp [KoreWorker.Owns, KoreWorker.koreWorkerSpawn], hfresh⟩) trivial

/-! ## Every step -/

/-- What a step does, and where the worker or the parent is in front of it. -/
inductive Moves (s : AcceptLock n) : LockStep n → AcceptLock n → Bool → Prop where
  | obtain {id : Fin n} (late full : Bool) (hlife : (s.workers id).life = .running)
      (hpc : (s.workers id).pc = .loop) :
      Moves s (.obtain id late full) (s.obtain id late full) false
  | mark {id : Fin n} (hlife : (s.workers id).life = .running)
      (hpc : (s.workers id).pc = .grabbed) : Moves s (.mark id) (s.mark id) false
  | prepare {id : Fin n} {obtained : Bool} (hlife : (s.workers id).life = .running)
      (hpc : (s.workers id).pc = .ready obtained) :
      Moves s (.prepare id)
        (s.set id { (s.workers id).prepare obtained with pc := .waiting }) false
  | events {id : Fin n} (any : Bool) (hlife : (s.workers id).life = .running)
      (hpc : (s.workers id).pc = .waiting) : Moves s (.events id any) (s.events id any) false
  | clear {id : Fin n} (hlife : (s.workers id).life = .running)
      (hpc : (s.workers id).pc = .clearing) :
      Moves s (.clear id)
        { s.set id { s.workers id with pc := .releasing } with current := 0 } false
  | release {id : Fin n} (hlife : (s.workers id).life = .running)
      (hpc : (s.workers id).pc = .releasing) :
      Moves s (.release id) (s.release id).1 (s.release id).2
  | turn {id : Fin n} (quit : Bool) (hlife : (s.workers id).life = .running)
      (hpc : (s.workers id).pc = .tail) :
      Moves s (.turn id quit)
        (s.set id { s.workers id with
          pc := .loop
          life := if quit then .exited else .running }) false
  | crash {id : Fin n} (hlife : (s.workers id).life = .running) :
      Moves s (.crash id) (s.set id { s.workers id with life := .crashed }) false
  | wait {id : Fin n} {s' : AcceptLock n} (hidle : s.parent = .idle)
      (hwait : s.wait id = some s') : Moves s (.wait id) s' false
  | parentCheck {id : Fin n} (hparent : s.parent = .check id) :
      Moves s .parentCheck
        { s with
          parent := if (s.workers id).pid = s.current then .clearing id else .restart id } false
  | parentClear {id : Fin n} (hparent : s.parent = .clearing id) :
      Moves s .parentClear { s with current := 0, parent := .releasing id } false
  | parentRelease {id : Fin n} (hparent : s.parent = .releasing id) :
      Moves s .parentRelease { (s.compareAndSwap 1 0).1 with parent := .restart id }
        (!(s.compareAndSwap 1 0).2)
  | spawn {id : Fin n} {pid : ℕ} (hparent : s.parent = .restart id) (hpid : pid ≠ 0)
      (hfresh : ¬ s.Used pid) :
      Moves s (.spawn pid) { s.set id (.koreWorkerSpawn pid) with parent := .idle } false

theorem step_moves {e : LockStep n} (hstep : s.step e = some (s', logged)) :
    s.Moves e s' logged := by
  cases e with
  | obtain id late full =>
      obtain ⟨hlife, hpc, rfl, rfl⟩ := worker_eq_some hstep
      exact .obtain late full hlife hpc
  | mark id =>
      obtain ⟨hlife, hpc, rfl, rfl⟩ := worker_eq_some hstep
      exact .mark hlife hpc
  | prepare id =>
      rw [AcceptLock.step] at hstep
      split at hstep
      · obtain ⟨hlife, hpc, rfl, rfl⟩ := worker_eq_some hstep
        exact .prepare hlife hpc
      · exact absurd hstep (by simp)
  | events id any =>
      obtain ⟨hlife, hpc, rfl, rfl⟩ := worker_eq_some hstep
      exact .events any hlife hpc
  | clear id =>
      obtain ⟨hlife, hpc, rfl, rfl⟩ := worker_eq_some hstep
      exact .clear hlife hpc
  | release id =>
      obtain ⟨hlife, hpc, rfl, rfl⟩ := worker_eq_some hstep
      exact .release hlife hpc
  | turn id quit =>
      obtain ⟨hlife, hpc, rfl, rfl⟩ := worker_eq_some hstep
      exact .turn quit hlife hpc
  | crash id =>
      obtain ⟨hlife, -, rfl, rfl⟩ := worker_eq_some hstep
      exact .crash hlife
  | wait id =>
      rw [AcceptLock.step] at hstep
      split at hstep
      · rename_i hidle
        obtain ⟨s₁, hwait, hnext⟩ := Option.map_eq_some_iff.mp hstep
        obtain ⟨rfl, rfl⟩ := Prod.mk.inj hnext
        exact .wait hidle hwait
      · exact absurd hstep (by simp)
  | parentCheck =>
      rw [AcceptLock.step] at hstep
      split at hstep
      · rename_i id hparent
        have hmoves := Moves.parentCheck hparent
        split at hstep
        · rename_i hcurrent
          obtain ⟨rfl, rfl⟩ := Prod.mk.inj (Option.some.inj hstep)
          rwa [if_pos hcurrent] at hmoves
        · rename_i hcurrent
          obtain ⟨rfl, rfl⟩ := Prod.mk.inj (Option.some.inj hstep)
          rwa [if_neg hcurrent] at hmoves
      · exact absurd hstep (by simp)
  | parentClear =>
      rw [AcceptLock.step] at hstep
      split at hstep
      · rename_i id hparent
        obtain ⟨rfl, rfl⟩ := Prod.mk.inj (Option.some.inj hstep)
        exact .parentClear hparent
      · exact absurd hstep (by simp)
  | parentRelease =>
      rw [AcceptLock.step] at hstep
      split at hstep
      · rename_i id hparent
        obtain ⟨rfl, rfl⟩ := Prod.mk.inj (Option.some.inj hstep)
        exact .parentRelease hparent
      · exact absurd hstep (by simp)
  | spawn pid =>
      rw [AcceptLock.step] at hstep
      split at hstep
      · rename_i id hparent
        split at hstep
        · rename_i hfresh
          obtain ⟨rfl, rfl⟩ := Prod.mk.inj (Option.some.inj hstep)
          exact .spawn hparent hfresh.1 hfresh.2
        · exact absurd hstep (by simp)
      · exact absurd hstep (by simp)

theorem Inv.step (h : s.Inv) (hn : n ≠ 1) {e : LockStep n} (hstep : s.step e = some (s', logged)) :
    s'.Inv ∧ logged = false := by
  cases step_moves hstep with
  | obtain late full hlife hpc => exact ⟨h.obtain hn hlife hpc late full, rfl⟩
  | mark hlife hpc => exact ⟨h.mark hlife hpc, rfl⟩
  | prepare hlife hpc => exact ⟨h.quiet (not_reaped hlife) (h.quiet_prepare hlife hpc), rfl⟩
  | events any hlife hpc =>
      obtain ⟨w, heq, hquiet, -⟩ := h.events_eq hn hlife hpc any
      exact ⟨heq ▸ h.quiet (not_reaped hlife) hquiet, rfl⟩
  | clear hlife hpc => exact ⟨h.clear hlife hpc, rfl⟩
  | release hlife hpc => exact h.release hlife hpc
  | turn quit hlife hpc => exact ⟨h.quiet (not_reaped hlife) (h.quiet_turn hpc quit), rfl⟩
  | crash hlife => exact ⟨h.crash hlife, rfl⟩
  | wait hidle hwait => exact ⟨h.wait hidle hwait, rfl⟩
  | parentCheck hparent => exact ⟨h.parentCheck hparent, rfl⟩
  | parentClear hparent => exact ⟨h.parentClear hparent, rfl⟩
  | parentRelease hparent =>
      obtain ⟨hswapped, hinv⟩ := h.parentRelease hparent
      exact ⟨hinv, by rw [hswapped, Bool.not_true]⟩
  | spawn hparent hpid hfresh => exact ⟨h.spawn hpid hfresh, rfl⟩

theorem inv_init {pids : Fin n → ℕ} (hpids : Function.Injective pids) (hzero : ∀ i, pids i ≠ 0) :
    (koreWorkerInit pids).Inv := by
  have howns : ∀ i, ¬ ((koreWorkerInit pids).workers i).Owns := by
    intro i
    simp [koreWorkerInit, KoreWorker.koreWorkerSpawn, KoreWorker.Owns]
  exact ⟨.inl rfl, fun _ => rfl, fun i => KoreWorker.ok_spawn (pids i), hzero,
    fun i j _ _ heq => hpids heq, fun i _ => KoreWorker.fits_of_not_owns (howns i),
    fun i j _ _ hi _ => absurd hi (howns i), trivial⟩

end AcceptLock

/-- However the steps of the workers and of the parent interleave, and wherever workers end, at
most one worker that is there has the lock, only that one accepts in `kore_platform_event_wait`,
and nobody releases a lock that is not taken. -/
theorem one_worker_accepts {n : ℕ} (hn : n ≠ 1) {pids : Fin n → ℕ}
    (hpids : Function.Injective pids) (hzero : ∀ i, pids i ≠ 0) {steps : List (LockStep n)}
    {s : AcceptLock n} {logged : List Bool}
    (hrun : Machine.exec AcceptLock.step (AcceptLock.koreWorkerInit pids) steps =
      some (s, logged)) :
    (∀ i, (s.workers i).life = .running → (s.workers i).pc = .waiting →
        (s.workers i).accepting = (s.workers i).hasLock) ∧
      (∀ i j, (s.workers i).life = .running → (s.workers j).life = .running →
        (s.workers i).hasLock = true → (s.workers j).hasLock = true → i = j) ∧
      true ∉ logged := by
  have hstep : ∀ (s : AcceptLock n) (e : LockStep n) (s' : AcceptLock n) (logged : Bool), s.Inv →
      s.step e = some (s', logged) → s'.Inv ∧ logged = false := fun s e s' logged h => h.step hn
  obtain ⟨h, hlogged⟩ := Machine.exec_outputs hstep (AcceptLock.inv_init hpids hzero) hrun
  refine ⟨?_, ?_, ?_⟩
  · intro i _ hpc
    have hmatch := (h.ok i).2
    rwa [hpc] at hmatch
  · intro i j hi hj hlock hlock'
    exact h.one i j (AcceptLock.not_reaped hi) (AcceptLock.not_reaped hj) (.inr hlock)
      (.inr hlock')
  · intro htrue
    exact absurd (hlogged true htrue) (by decide)

/-- The first of two workers crashes with the lock, and the other one gets it. -/
def crashing : List (LockStep 2) :=
  [.obtain 0 true false, .mark 0, .prepare 0, .obtain 1 true false, .prepare 1, .crash 0, .wait 0,
    .parentCheck, .parentClear, .parentRelease, .spawn 3, .events 1 true, .turn 1 false,
    .obtain 1 true false, .mark 1, .prepare 1]

theorem one_worker_accepts_crashing :
    ∃ s, Machine.exec AcceptLock.step (AcceptLock.koreWorkerInit (fun i : Fin 2 => i.val + 1))
        crashing = some (s, List.replicate 16 false) ∧
      (∀ i, (s.workers i).life = .running → (s.workers i).pc = .waiting →
        (s.workers i).accepting = (s.workers i).hasLock) ∧
      (∀ i j, (s.workers i).life = .running → (s.workers j).life = .running →
        (s.workers i).hasLock = true → (s.workers j).hasLock = true → i = j) ∧
      true ∉ List.replicate 16 false := by
  have hall : (Machine.exec AcceptLock.step
      (AcceptLock.koreWorkerInit (fun i : Fin 2 => i.val + 1)) crashing).map Prod.snd =
      some (List.replicate 16 false) := by decide
  obtain ⟨⟨s, logged⟩, hrun, rfl⟩ := Option.map_eq_some_iff.mp hall
  exact ⟨s, hrun, one_worker_accepts (by decide) (fun i j h => by simpa [Fin.ext_iff] using h)
    (by simp) hrun⟩

end Sparc
