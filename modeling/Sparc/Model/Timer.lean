import Mathlib.Logic.Function.Basic
import Mathlib.Data.BitVec
import Sparc.Library.Agenda

/-! # Background timers

`BgTimerManager` with the `background_timer` objects it makes and the timers of `kore/timer.c`
under them. The objects are in tables by address; an address is never used again, and a function
that reads or writes an object behind `kore_free` or `delete`, or that takes a timer out of a list
it is not in, has no result. `schedule` makes a `background_timer` and a `kore_timer` at a time,
and both get the same number.
-/

namespace Sparc

/-- The bits of `flags` that are read: `KORE_TIMER_ONESHOT` and `KORE_TIMER_INPLACE`. -/
structure TimerFlags where
  oneshot : Bool
  inplace : Bool
  deriving DecidableEq

/-- The flags in an `int`. -/
def TimerFlags.ofInt (flags : BitVec 32) : TimerFlags := ⟨flags.getLsbD 0, flags.getLsbD 1⟩

/-- `TIMER_ONESHOT`. -/
def timerOneshot : BitVec 32 := 0x01#32

/-- `struct kore_timer`. Its callback is `handle_timeout` and its argument a `background_timer`. -/
structure KoreTimer where
  arg : Option ℕ
  flags : TimerFlags
  interval : ℕ
  nextrun : ℕ
  deriving DecidableEq

/-- `background_timer`. -/
structure BackgroundTimer (η : Type*) where
  timer : Option ℕ
  handler : Option η
  canceled : Bool

/-- Where `kore_timer_run` is: it is not running, at the head of its loop, or in the handler of
a timer, which it has called through `handle_timeout`. -/
inductive TimerLoop where
  | idle
  | head (now : ℕ)
  | handler (now timer bgtimer : ℕ)
  deriving DecidableEq

/-- Only the code of `kore_timer_run` runs at the head of its loop. -/
def TimerLoop.atHead : TimerLoop → Bool
  | .idle => false
  | .head _ => true
  | .handler _ _ _ => false

/-- The timer whose handler is being run. -/
def TimerLoop.running : TimerLoop → Option ℕ
  | .idle => none
  | .head _ => none
  | .handler _ timer _ => some timer

/-- `BgTimerManager`, the list of `kore/timer.c` and the timers, with the number of them made. -/
structure Timers (η : Type*) where
  cache_ : Bool
  waitlist_ : List ℕ
  koreTimers : List ℕ
  timers : ℕ → Option KoreTimer
  bgtimers : ℕ → Option (BackgroundTimer η)
  made : ℕ
  loop : TimerLoop

/-- A sum of type `u_int64_t`. -/
def nextrunAt (now interval : ℕ) : ℕ := (now + interval) % 2 ^ 64

/-- `kore_timer_new`, without the callback. -/
def koreTimerNew (clock interval : ℕ) (arg : Option ℕ) (flags : TimerFlags) : KoreTimer :=
  ⟨arg, flags, interval, nextrunAt clock interval⟩

namespace Timers

variable {η : Type*}

/-- `BgTimerManager::BgTimerManager` and `kore_timer_init`. -/
def new : Timers η := ⟨true, [], [], fun _ => none, fun _ => none, 0, .idle⟩

/-- Write to a `kore_timer`. -/
def write (m : Timers η) (timer : ℕ) (t : KoreTimer) : Timers η :=
  { m with timers := Function.update m.timers timer (some t) }

/-- `kore_free` of a `kore_timer`. -/
def free (m : Timers η) (timer : ℕ) : Timers η :=
  { m with timers := Function.update m.timers timer none }

/-- Write to a `background_timer`. -/
def writeBg (m : Timers η) (bgtimer : ℕ) (b : BackgroundTimer η) : Timers η :=
  { m with bgtimers := Function.update m.bgtimers bgtimer (some b) }

/-- The end of `delete`: the memory of a `background_timer` is freed. -/
def freeBg (m : Timers η) (bgtimer : ℕ) : Timers η :=
  { m with bgtimers := Function.update m.bgtimers bgtimer none }

/-- The `nextrun` of a timer. -/
def nextrun (m : Timers η) (timer : ℕ) : Option ℕ := (m.timers timer).map KoreTimer.nextrun

/-- The loop that puts a timer into the list of `kore/timer.c`, as its `nextrun` demands. -/
def enlist (m : Timers η) (timer : ℕ) (t : KoreTimer) : Option (Timers η) :=
  (Agenda.insert (m.write timer t).nextrun t.nextrun timer m.koreTimers).map
    (fun koreTimers => { m.write timer t with koreTimers })

/-- `kore_timer_set`. -/
def koreTimerSet (m : Timers η) (clock timer : ℕ) : Option (Timers η) :=
  (m.timers timer).bind (fun t =>
    if t.flags.inplace then
      some (m.write timer { t with nextrun := nextrunAt clock t.interval })
    else
      m.enlist timer { t with
        nextrun := nextrunAt clock t.interval
        flags := { t.flags with inplace := true } })

/-- `kore_timer_remove`. -/
def koreTimerRemove (m : Timers η) (timer : ℕ) : Option (Timers η) :=
  (m.timers timer).bind (fun _ =>
    (Agenda.unlink m.koreTimers timer).map (fun koreTimers =>
      { m.free timer with koreTimers }))

/-- The part of `background_timer::cancel` for the `kore_timer`. -/
def cancelTimer (m : Timers η) (timer : ℕ) : Option (Timers η) :=
  (m.timers timer).bind (fun t =>
    if t.flags.inplace then (m.write timer { t with arg := none }).koreTimerRemove timer
    else
      some (m.write timer { t with arg := none, flags := { t.flags with oneshot := true } }))

/-- `background_timer::cancel`. -/
def cancel (m : Timers η) (bgtimer : ℕ) : Option (Timers η) :=
  (m.bgtimers bgtimer).bind (fun b =>
    if b.canceled then some m
    else
      (b.timer.bind m.cancelTimer).map
        (·.writeBg bgtimer { b with canceled := true, handler := none }))

/-- `delete` of a `background_timer`, whose destructor cancels it. -/
def delete (m : Timers η) (bgtimer : ℕ) : Option (Timers η) :=
  (m.cancel bgtimer).map (·.freeBg bgtimer)

/-- The objects that `BgTimerManager::schedule` makes. -/
def make (m : Timers η) (hh : η) (tout : ℕ) (flags : BitVec 32) (created : ℕ) : Timers η :=
  ({ m with made := m.made + 1 }.writeBg m.made ⟨some m.made, some hh, false⟩).write m.made
    (koreTimerNew created tout (some m.made) (.ofInt flags))

/-- `BgTimerManager::schedule`, with the times that `kore_timer_new` and `kore_timer_set` read.
The handler can be an empty function; the second result is the timer made. -/
def schedule (m : Timers η) (hh : Option η) (tout : ℕ) (flags : BitVec 32)
    (created clock : ℕ) : Option (Timers η × Option ℕ) :=
  match hh with
  | some hh =>
      if 10 < tout then
        let timer := m.made
        let m := m.make hh tout flags created
        if m.cache_ then some ({ m with waitlist_ := m.waitlist_ ++ [timer] }, some timer)
        else (m.koreTimerSet clock timer).map (fun m => (m, some timer))
      else some (m, none)
  | none => some (m, none)

/-- The loop of `BgTimerManager::flush`. It has read the link to the next timer before it takes
one out of the list. -/
def transfer (clock : ℕ → ℕ) : List ℕ → Timers η → Option (Timers η)
  | [], m => some m
  | timer :: waiting, m =>
      (Agenda.unlink m.waitlist_ timer).bind (fun waitlist_ =>
        (koreTimerSet { m with waitlist_ } (clock timer) timer).bind (transfer clock waiting))

/-- `BgTimerManager::flush`, with the time that `kore_timer_set` reads for each timer. -/
def flush (m : Timers η) (clock : ℕ → ℕ) : Option (Timers η) :=
  transfer clock m.waitlist_ { m with cache_ := false }

/-- `handle_timeout` behind `background_timer::fire`. -/
def handleTimeoutRest (m : Timers η) (bgtimer : ℕ) : Option (Timers η) :=
  (m.bgtimers bgtimer).bind (fun b =>
    match b.timer with
    | none => m.delete bgtimer
    | some timer =>
        (m.timers timer).bind (fun t =>
          if t.flags.oneshot || b.canceled then m.delete bgtimer else some m))

/-- The iteration of `kore_timer_run` behind the callback. -/
def koreTimerRunRest (m : Timers η) (now timer : ℕ) : Option (Timers η) :=
  (m.timers timer).bind (fun t =>
    if t.flags.oneshot then some { m.free timer with loop := .head now }
    else
      (m.enlist timer { t with nextrun := nextrunAt now t.interval }).map
        (fun m => { m with loop := .head now }))

/-- The value `kore_timer_run` returns. -/
def netwait (nextTimer : ℕ) : ℕ := if 1 < nextTimer then nextTimer - 1 else nextTimer

/-- What can be seen of a call. -/
inductive Note where
  | accepted (timer : ℕ) (oneshot : Bool)
  | rejected
  | flushed
  | started
  | invoked (timer : ℕ)
  | passed
  | slept (netwait : ℕ)
  | canceled (timer : ℕ)
  | returned (timer : ℕ)
  deriving DecidableEq

/-- An iteration of `kore_timer_run` up to the call of a handler. Where there is none to call,
`handle_timeout` and the iteration run to their ends. -/
def koreTimerRunNext (m : Timers η) (now : ℕ) : Option (Timers η × Note) :=
  match m.koreTimers with
  | [] => some ({ m with loop := .idle }, .slept (netwait 100))
  | timer :: koreTimers =>
      (m.timers timer).bind (fun t =>
        if now < t.nextrun then
          some ({ m with loop := .idle }, .slept (netwait (t.nextrun - now)))
        else
          let m := { m.write timer { t with flags := { t.flags with inplace := false } } with
            koreTimers }
          match t.arg with
          | none => (m.koreTimerRunRest now timer).map (·, .passed)
          | some bgtimer =>
              (m.bgtimers bgtimer).bind (fun b =>
                if !b.canceled && b.handler.isSome then
                  some ({ m with loop := .handler now timer bgtimer }, .invoked bgtimer)
                else
                  ((m.handleTimeoutRest bgtimer).bind (·.koreTimerRunRest now timer)).map
                    (·, .passed)))

/-- The calls. A handler is any code: it makes calls to `schedule`, `flush` and `cancel` until
it leaves. -/
inductive Call (η : Type*) where
  | schedule (hh : Option η) (tout : ℕ) (flags : BitVec 32) (created clock : ℕ)
  | flush (clock : ℕ → ℕ)
  | run (now : ℕ)
  | next
  | cancel (timer : ℕ)
  | leave

/-- One call, or one stretch of `kore_timer_run` between the calls of handlers. -/
def step (m : Timers η) : Call η → Option (Timers η × Note)
  | .schedule hh tout flags created clock =>
      (m.schedule hh tout flags created clock).map (fun r =>
        (r.1, r.2.elim .rejected (.accepted · (TimerFlags.ofInt flags).oneshot)))
  | .flush clock => (m.flush clock).map (·, .flushed)
  | .run now => some ({ m with loop := .head now }, .started)
  | .next =>
      match m.loop with
      | .head now => m.koreTimerRunNext now
      | _ => none
  | .cancel timer => (m.cancel timer).map (·, .canceled timer)
  | .leave =>
      match m.loop with
      | .handler now timer bgtimer =>
          ((m.handleTimeoutRest bgtimer).bind (·.koreTimerRunRest now timer)).map
            (·, .returned bgtimer)
      | _ => none

/-- When a call can be made: `schedule`, `flush` and `cancel` by the code of the application,
which also runs in the handlers; the others by the worker, one after the other. The flags are 0
or `TIMER_ONESHOT`, and the `background_timer` to cancel has not been deleted. -/
def Callable (m : Timers η) : Call η → Prop
  | .schedule _ _ flags _ _ => m.loop.atHead = false ∧ (flags = 0 ∨ flags = timerOneshot)
  | .flush _ => m.loop.atHead = false
  | .cancel timer => m.loop.atHead = false ∧ (m.bgtimers timer).isSome
  | .run _ => m.loop = .idle
  | .next => m.loop.atHead = true
  | .leave => m.loop.running.isSome

instance decidableCallable (m : Timers η) : ∀ c, Decidable (m.Callable c)
  | .schedule _ _ flags _ _ =>
      inferInstanceAs (Decidable (m.loop.atHead = false ∧ (flags = 0 ∨ flags = timerOneshot)))
  | .flush _ => inferInstanceAs (Decidable (m.loop.atHead = false))
  | .cancel timer =>
      inferInstanceAs (Decidable (m.loop.atHead = false ∧ (m.bgtimers timer).isSome))
  | .run _ => inferInstanceAs (Decidable (m.loop = .idle))
  | .next => inferInstanceAs (Decidable (m.loop.atHead = true))
  | .leave => inferInstanceAs (Decidable (m.loop.running.isSome = true))

end Timers

end Sparc
