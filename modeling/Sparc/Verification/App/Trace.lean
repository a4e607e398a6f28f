import Sparc.Model.Setup

/-! # What is recorded of a request

Every operation extends the trace of an exchange by events of certain kinds. The `ended_`
latch and the recorded responses agree: at most one `http_response` is made for a request
through the response object, and it has been made exactly when the latch is set.
-/

namespace Sparc

variable {σ : Type*}

/-! ## Kinds of events -/

namespace Event

def isResponse : Event → Bool
  | .response _ => true
  | _ => false

def isHandler : Event → Bool
  | .handler _ _ _ => true
  | _ => false

def isDirect : Event → Bool
  | .httpResponse _ => true
  | _ => false

/-- The events of the loop of `App::callFidecs`. -/
def ofFidec (stage : Stage) : Event → Bool
  | .fidec s _ _ => s == stage
  | .response _ => true
  | .httpResponse _ => true
  | _ => false

/-- The events of `App::callFidecs`. -/
def ofFidecs (stage : Stage) : Event → Bool
  | .fidec s _ _ => s == stage
  | .fidecs s _ => s == stage
  | .response _ => true
  | .httpResponse _ => true
  | _ => false

/-- The events of `App::callRequestHandler`. -/
def ofHandler : Event → Bool
  | .handler _ _ _ => true
  | .response _ => true
  | .httpResponse _ => true
  | _ => false

/-- The events behind the before filters. -/
def ofRoute : Event → Bool
  | .fidec s _ _ => s == .after
  | .fidecs s _ => s == .after
  | _ => true

/-- The events of `App::completeRequest`. -/
def ofCompletion (e : Event) : Bool := e.ofRoute && !e.isHandler

end Event

namespace Exchange

/-- The trace of `y` is that of `x` with events of the kind `K` behind it. -/
def Grows (K : Event → Bool) (x y : Exchange σ) : Prop :=
  ∃ es, y.trace = x.trace ++ es ∧ ∀ e ∈ es, K e = true

theorem Grows.of_trace_eq {K : Event → Bool} {x y : Exchange σ} (h : y.trace = x.trace) :
    Grows K x y :=
  ⟨[], by simp [h], by simp⟩

theorem Grows.trans {K : Event → Bool} {x y z : Exchange σ} (hxy : Grows K x y)
    (hyz : Grows K y z) : Grows K x z := by
  obtain ⟨es, hes, hK⟩ := hxy
  obtain ⟨fs, hfs, hL⟩ := hyz
  refine ⟨es ++ fs, by simp [hfs, hes], ?_⟩
  intro e he
  rcases List.mem_append.mp he with he | he
  · exact hK e he
  · exact hL e he

theorem Grows.mono {K L : Event → Bool} {x y : Exchange σ} (h : Grows K x y)
    (hKL : ∀ e, K e = true → L e = true) : Grows L x y := by
  obtain ⟨es, hes, hK⟩ := h
  exact ⟨es, hes, fun e he => hKL e (hK e he)⟩

/-- Recorded events stay recorded. -/
theorem Grows.mem {K : Event → Bool} {x y : Exchange σ} (h : Grows K x y) {e : Event}
    (he : e ∈ x.trace) : e ∈ y.trace := by
  obtain ⟨es, hes, -⟩ := h
  simp [hes, he]

/-- An event of another kind was there before. -/
theorem Grows.mem_of_not {K : Event → Bool} {x y : Exchange σ} (h : Grows K x y) {e : Event}
    (he : e ∈ y.trace) (hK : K e = false) : e ∈ x.trace := by
  obtain ⟨es, hes, hall⟩ := h
  rw [hes] at he
  rcases List.mem_append.mp he with he | he
  · exact he
  · rw [hall e he] at hK
    cases hK

theorem grows_log {K : Event → Bool} (x : Exchange σ) {e : Event} (h : K e = true) :
    Grows K x (x.log e) :=
  ⟨[e], rfl, by simpa using h⟩

theorem grows_perform (x : Exchange σ) (c : Call) : Grows Event.isDirect x (x.perform c) := by
  cases c with
  | httpResponse status => exact grows_log x rfl
  | _ => exact .of_trace_eq rfl

theorem grows_performAll (x : Exchange σ) (calls : List Call) :
    Grows Event.isDirect x (x.performAll calls) := by
  induction calls generalizing x with
  | nil => exact .of_trace_eq rfl
  | cons c calls ih => exact (grows_perform x c).trans (ih (x.perform c))

theorem grows_end (x : Exchange σ) (status : ℤ) (data : Option CString) :
    Grows Event.isResponse x (x.end_ status data) := by
  cases h : x.resp.ended_ with
  | true => exact .of_trace_eq (by simp [end_, HttpResponse.end_, h])
  | false =>
      simp only [end_, HttpResponse.end_, h, Bool.false_eq_true, ite_false]
      exact ⟨_, rfl, by simp [Event.isResponse]⟩

theorem grows_invoke {K : Event → Bool} (x : Exchange σ) (h : Handler σ) {e : Event}
    (he : K e = true) (hdirect : ∀ e, e.isDirect = true → K e = true) :
    Grows K x (x.invoke h e) := by
  have hlog : Grows K x (({ x with world := (h x.view x.resp x.world).2 }).log e) :=
    ⟨[e], rfl, by simpa using he⟩
  exact hlog.trans ((grows_performAll _ _).mono hdirect)

theorem mem_invoke (x : Exchange σ) (h : Handler σ) (e : Event) : e ∈ (x.invoke h e).trace := by
  apply (grows_performAll _ _).mem
  simp [log]

/-- Besides its own event an invocation records direct responses only. -/
theorem of_mem_invoke {x : Exchange σ} {h : Handler σ} {e e' : Event}
    (he : e' ∈ (x.invoke h e).trace) (hdirect : e'.isDirect = false) :
    e' ∈ x.trace ∨ e' = e := by
  have hmem := (grows_performAll _ _).mem_of_not he hdirect
  simpa [log] using hmem

/-! ## The latch -/

/-- The number of responses sent through the response object. -/
def sentCount (x : Exchange σ) : ℕ := x.trace.countP Event.isResponse

/-- The latch tells whether the response has been sent, once. -/
def Latched (x : Exchange σ) : Prop := x.sentCount = if x.resp.ended_ then 1 else 0

theorem Grows.sentCount_eq {K : Event → Bool} {x y : Exchange σ} (h : Grows K x y)
    (hK : ∀ e, K e = true → e.isResponse = false) : y.sentCount = x.sentCount := by
  obtain ⟨es, hes, hall⟩ := h
  have hnone : es.countP Event.isResponse = 0 := by
    apply List.countP_eq_zero.mpr
    intro e he
    simp [hK e (hall e he)]
  simp [sentCount, hes, List.countP_append, hnone]

theorem Grows.sentCount_le {K : Event → Bool} {x y : Exchange σ} (h : Grows K x y) :
    x.sentCount ≤ y.sentCount := by
  obtain ⟨es, hes, -⟩ := h
  simp [sentCount, hes, List.countP_append]

@[simp] theorem perform_ended (x : Exchange σ) (c : Call) :
    (x.perform c).resp.ended_ = x.resp.ended_ := by
  cases c with
  | type t =>
      simp only [perform, HttpResponse.type]
      split <;> rfl
  | cookie name value path domain expire secure =>
      simp only [perform, HttpResponse.cookie]
      split <;> rfl
  | status s =>
      simp only [perform, HttpResponse.status]
      split <;> rfl
  | _ => rfl

@[simp] theorem performAll_ended (x : Exchange σ) (calls : List Call) :
    (x.performAll calls).resp.ended_ = x.resp.ended_ := by
  induction calls generalizing x with
  | nil => rfl
  | cons c calls ih => exact (ih (x.perform c)).trans (perform_ended x c)

@[simp] theorem status_ended (r : HttpResponse) (s : ℤ) : (r.status s).ended_ = r.ended_ := by
  unfold HttpResponse.status
  split <;> rfl

@[simp] theorem end_ended (x : Exchange σ) (status : ℤ) (data : Option CString) :
    (x.end_ status data).resp.ended_ = true := by
  cases h : x.resp.ended_ with
  | true => simp [end_, HttpResponse.end_, h]
  | false => simp [end_, HttpResponse.end_, h, log]

@[simp] theorem flush_ended (x : Exchange σ) : x.flush.resp.ended_ = true := end_ended x _ _

@[simp] theorem invoke_ended (x : Exchange σ) (h : Handler σ) (e : Event) :
    (x.invoke h e).resp.ended_ = x.resp.ended_ := by
  simp [invoke, log]

theorem end_of_ended {x : Exchange σ} (h : x.resp.ended_ = true) (status : ℤ)
    (data : Option CString) : x.end_ status data = x := by
  simp [end_, HttpResponse.end_, h]

theorem Latched.of_eq {x y : Exchange σ} (h : Latched x) (htrace : y.sentCount = x.sentCount)
    (hended : y.resp.ended_ = x.resp.ended_) : Latched y := by
  unfold Latched
  rw [htrace, hended]
  exact h

theorem Latched.sentCount_le_one {x : Exchange σ} (h : Latched x) : x.sentCount ≤ 1 := by
  have hcount : x.sentCount = if x.resp.ended_ then 1 else 0 := h
  rw [hcount]
  split <;> decide

theorem Latched.performAll {x : Exchange σ} (h : Latched x) (calls : List Call) :
    Latched (x.performAll calls) := by
  refine h.of_eq ((grows_performAll x calls).sentCount_eq ?_) (performAll_ended x calls)
  intro e he
  cases e <;> simp_all [Event.isDirect, Event.isResponse]

theorem Latched.log {x : Exchange σ} (h : Latched x) {e : Event} (he : e.isResponse = false) :
    Latched (x.log e) := by
  refine h.of_eq ?_ rfl
  simp [sentCount, Exchange.log, List.countP_append, he]

theorem Latched.end_ {x : Exchange σ} (h : Latched x) (status : ℤ) (data : Option CString) :
    Latched (x.end_ status data) := by
  cases hended : x.resp.ended_ with
  | true => rwa [end_of_ended hended]
  | false =>
      have hzero : x.sentCount = 0 := by simpa [Latched, hended] using h
      unfold Latched
      rw [end_ended]
      simp only [Exchange.end_, HttpResponse.end_, hended, Bool.false_eq_true, ite_false]
      simpa [sentCount, Exchange.log, List.countP_append, Event.isResponse] using hzero

theorem Latched.flush {x : Exchange σ} (h : Latched x) : Latched x.flush := h.end_ _ _

theorem Latched.invoke {x : Exchange σ} (h : Latched x) (hd : Handler σ) {e : Event}
    (he : e.isResponse = false) : Latched (x.invoke hd e) := by
  have hworld : Latched { x with world := (hd x.view x.resp x.world).2 } := h
  exact (hworld.log he).performAll _

end Exchange

end Sparc
