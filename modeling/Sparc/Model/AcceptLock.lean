import Mathlib.Data.List.FinRange
import Mathlib.Data.Nat.Notation
import Mathlib.Logic.Function.Basic

/-! # The accept lock of `kore/worker.c`

The workers and their parent share `accept_lock` and the table of the workers. A step is the code of
one process up to its next access to `accept_lock`, and a worker can end in front of each.
-/

namespace Sparc

/-- Where a worker is in `kore_worker_entry`. -/
inductive WorkerPc where
  /-- At the beginning of the loop. -/
  | loop
  /-- In `worker_trylock`, which has the lock and has not stored `current`. -/
  | grabbed
  /-- Behind `kore_worker_acceptlock_obtain`, with what that has returned. -/
  | ready (obtained : Bool)
  /-- In `kore_platform_event_wait`. -/
  | waiting
  /-- In `worker_unlock`. -/
  | clearing
  /-- In `worker_unlock`, behind the store of `current`. -/
  | releasing
  /-- Behind the lock. -/
  | tail
  deriving DecidableEq, Repr

/-- What has become of the process of a worker. -/
inductive Life where
  | running
  | crashed
  | exited
  /-- The parent has waited for it. -/
  | reaped
  deriving DecidableEq, Repr

/-- `struct kore_worker`, and the process: `had_lock`, and whether accept is enabled. -/
structure KoreWorker where
  pid : ℕ
  hasLock : Bool
  hadLock : Bool
  accepting : Bool
  pc : WorkerPc
  life : Life
  deriving DecidableEq, Repr

/-- Where the parent is in `kore_worker_wait`. -/
inductive ParentPc (n : ℕ) where
  | idle
  /-- In front of the comparison with `accept_lock->current`. -/
  | check (id : Fin n)
  | clearing (id : Fin n)
  | releasing (id : Fin n)
  | restart (id : Fin n)
  deriving DecidableEq, Repr

/-- `struct wlock`, the table `kore_workers` and the parent. -/
structure AcceptLock (n : ℕ) where
  lock : ℕ
  current : ℕ
  workers : Fin n → KoreWorker
  parent : ParentPc n

/-- A step of one of the processes. The time, the signals, the events and the end of a process
are not up to it. -/
inductive LockStep (n : ℕ) where
  | obtain (id : Fin n) (late full : Bool)
  | mark (id : Fin n)
  | prepare (id : Fin n)
  | events (id : Fin n) (any : Bool)
  | clear (id : Fin n)
  | release (id : Fin n)
  | turn (id : Fin n) (quit : Bool)
  | crash (id : Fin n)
  | wait (id : Fin n)
  | parentCheck
  | parentClear
  | parentRelease
  | spawn (pid : ℕ)
  deriving DecidableEq, Repr

namespace KoreWorker

/-- `kore_worker_spawn`, as far as the lock goes. -/
def koreWorkerSpawn (pid : ℕ) : KoreWorker := ⟨pid, false, false, false, .loop, .running⟩

/-- Enable and disable accept, behind `kore_worker_acceptlock_obtain`. -/
def prepare (w : KoreWorker) (obtained : Bool) : KoreWorker :=
  let w := if obtained && !w.hadLock then { w with accepting := true, hadLock := true } else w
  if !w.hasLock && w.hadLock then { w with accepting := false, hadLock := false } else w

end KoreWorker

namespace AcceptLock

variable {n : ℕ}

/-- Another state of a worker. -/
def set (s : AcceptLock n) (id : Fin n) (w : KoreWorker) : AcceptLock n :=
  { s with workers := Function.update s.workers id w }

/-- `__sync_bool_compare_and_swap` on `accept_lock->lock`. -/
def compareAndSwap (s : AcceptLock n) (old new : ℕ) : AcceptLock n × Bool :=
  if s.lock = old then ({ s with lock := new }, true) else (s, false)

/-- `kore_worker_acceptlock_obtain`, up to the store of `accept_lock->current`. It is not called
where it is too early for it. -/
def obtain (s : AcceptLock n) (id : Fin n) (late full : Bool) : AcceptLock n :=
  let w := s.workers id
  if late = false then s.set id { w with pc := .ready false }
  else if w.hasLock then s.set id { w with pc := .ready true }
  else if n = 1 then s.set id { w with hasLock := true, pc := .ready true }
  else if full then s.set id { w with pc := .ready false }
  else
    let (s, swapped) := s.compareAndSwap 0 1
    if swapped then s.set id { w with pc := .grabbed } else s.set id { w with pc := .ready false }

/-- The end of `worker_trylock` and of `kore_worker_acceptlock_obtain`. -/
def mark (s : AcceptLock n) (id : Fin n) : AcceptLock n :=
  let w := s.workers id
  { s.set id { w with hasLock := true, pc := .ready true } with current := w.pid }

/-- Behind `kore_platform_event_wait`, up to the store of `accept_lock->current`. -/
def events (s : AcceptLock n) (id : Fin n) (any : Bool) : AcceptLock n :=
  let w := s.workers id
  if w.hasLock && any then
    if n = 1 then s.set id { w with pc := .tail } else s.set id { w with pc := .clearing }
  else s.set id { w with pc := .tail }

/-- The end of `worker_unlock` and of `kore_worker_acceptlock_release`. The other result is
whether it logs that there was no lock. -/
def release (s : AcceptLock n) (id : Fin n) : AcceptLock n × Bool :=
  let w := s.workers id
  let (s, swapped) := s.compareAndSwap 1 0
  (s.set id { w with hasLock := false, pc := .tail }, !swapped)

/-- The slot that the loop of `kore_worker_wait` finds for a process. -/
def slotOf (s : AcceptLock n) (pid : ℕ) : Option (Fin n) :=
  (List.finRange n).find? (fun id => (s.workers id).pid == pid)

/-- The beginning of `kore_worker_wait`, where `waitpid` returns the process of the worker. -/
def wait (s : AcceptLock n) (id : Fin n) : Option (AcceptLock n) :=
  let w := s.workers id
  let s' := s.set id { w with life := .reaped }
  match w.life with
  | .crashed => (s.slotOf w.pid).map (fun slot => { s' with parent := .check slot })
  | .exited => some s'
  | _ => none

/-- A process has this number until the parent has waited for it. -/
def Used (s : AcceptLock n) (pid : ℕ) : Prop :=
  ∃ id, (s.workers id).life ≠ .reaped ∧ (s.workers id).pid = pid

instance (s : AcceptLock n) (pid : ℕ) : Decidable (s.Used pid) :=
  inferInstanceAs (Decidable (∃ id, (s.workers id).life ≠ .reaped ∧ (s.workers id).pid = pid))

/-- A step of a worker that is there. -/
def worker (s : AcceptLock n) (id : Fin n) (pc : WorkerPc) (next : AcceptLock n × Bool) :
    Option (AcceptLock n × Bool) :=
  if (s.workers id).life = .running ∧ (s.workers id).pc = pc then some next else none

/-- One step, with whether it logs that there was no lock. There is no result where it cannot be
the next one. -/
def step (s : AcceptLock n) : LockStep n → Option (AcceptLock n × Bool)
  | .obtain id late full => s.worker id .loop (s.obtain id late full, false)
  | .mark id => s.worker id .grabbed (s.mark id, false)
  | .prepare id =>
      match (s.workers id).pc with
      | .ready obtained =>
          s.worker id (.ready obtained)
            (s.set id { (s.workers id).prepare obtained with pc := .waiting }, false)
      | _ => none
  | .events id any => s.worker id .waiting (s.events id any, false)
  | .clear id =>
      s.worker id .clearing
        ({ s.set id { s.workers id with pc := .releasing } with current := 0 }, false)
  | .release id => s.worker id .releasing (s.release id)
  | .turn id quit =>
      s.worker id .tail
        (s.set id { s.workers id with
          pc := .loop
          life := if quit then .exited else .running }, false)
  | .crash id =>
      s.worker id (s.workers id).pc (s.set id { s.workers id with life := .crashed }, false)
  | .wait id => if s.parent = .idle then (s.wait id).map (fun s => (s, false)) else none
  | .parentCheck =>
      match s.parent with
      | .check id =>
          if (s.workers id).pid = s.current then some ({ s with parent := .clearing id }, false)
          else some ({ s with parent := .restart id }, false)
      | _ => none
  | .parentClear =>
      match s.parent with
      | .clearing id => some ({ s with current := 0, parent := .releasing id }, false)
      | _ => none
  | .parentRelease =>
      match s.parent with
      | .releasing id =>
          let (s, swapped) := s.compareAndSwap 1 0
          some ({ s with parent := .restart id }, !swapped)
      | _ => none
  | .spawn pid =>
      match s.parent with
      | .restart id =>
          if pid ≠ 0 ∧ ¬ s.Used pid then
            some ({ s.set id (.koreWorkerSpawn pid) with parent := .idle }, false)
          else none
      | _ => none

/-- `kore_worker_init`, with the numbers of the processes. -/
def koreWorkerInit (pids : Fin n → ℕ) : AcceptLock n :=
  ⟨0, 0, fun id => .koreWorkerSpawn (pids id), .idle⟩

end AcceptLock

end Sparc
