import Sparc.Verification.App.Completion
import Sparc.Verification.App.Dispatch

/-! # The status of the response

Which status is sent is decided by the calls of the application on its response, by the
halts, and by what the after filters return. `answer` follows these; an exception of the
route handler does not occur in it.
-/

namespace Sparc

variable {σ : Type*}

/-! ## What the application's code sets -/

/-- The status a call sets. `Response::status` ignores codes up to `OK`. -/
def Call.sets : Call → Option ℤ
  | .status s => if Status.ok < s then some s else none
  | .redirect _ s => some s
  | _ => none

/-- The status behind the calls: the last one they set. -/
def lastSet (status : ℤ) (calls : List Call) : ℤ := (calls.filterMap Call.sets).getLast?.getD status

theorem lastSet_cons (status : ℤ) (c : Call) (calls : List Call) :
    lastSet status (c :: calls) = lastSet (c.sets.getD status) calls := by
  unfold lastSet
  cases h : c.sets with
  | none => rw [List.filterMap_cons_none h, Option.getD_none]
  | some s =>
      rw [List.filterMap_cons_some h, List.getLast?_cons, Option.getD_some, Option.getD_some]

theorem lastSet_append (status : ℤ) (calls calls' : List Call) :
    lastSet status (calls ++ calls') = lastSet (lastSet status calls) calls' := by
  induction calls generalizing status with
  | nil => rfl
  | cons c calls ih => rw [List.cons_append, lastSet_cons, lastSet_cons, ih]

def Event.sentStatus : Event → Option ℤ
  | .response sent => some sent.status
  | _ => none

theorem Event.not_response_of_direct (e : Event) (h : e.isDirect = true) :
    (!e.isResponse) = true := by
  cases e <;> simp_all [isDirect, isResponse]

namespace Exchange

theorem perform_status (x : Exchange σ) (c : Call) :
    (x.perform c).resp.status_ = c.sets.getD x.resp.status_ := by
  cases c with
  | status s =>
      by_cases hs : Status.ok < s
      · have hne : s ≠ 0 := by
          rintro rfl
          exact absurd hs (by decide)
        simp [perform, HttpResponse.status, Call.sets, hs, hne]
      · simp [perform, HttpResponse.status, Call.sets, hs]
  | type t =>
      simp only [perform, HttpResponse.type]
      split <;> rfl
  | cookie name value path domain expire secure =>
      simp only [perform, HttpResponse.cookie]
      split <;> rfl
  | _ => rfl

theorem performAll_status (x : Exchange σ) (calls : List Call) :
    (x.performAll calls).resp.status_ = lastSet x.resp.status_ calls := by
  induction calls generalizing x with
  | nil => rfl
  | cons c calls ih =>
      rw [lastSet_cons, ← perform_status]
      exact ih (x.perform c)

theorem invoke_status (x : Exchange σ) (h : Handler σ) (e : Event) :
    (x.invoke h e).resp.status_ = lastSet x.resp.status_ (x.reaction h).calls :=
  performAll_status _ _

/-! ## What has been sent -/

/-- The status of the responses sent so far. -/
def sentStatuses (x : Exchange σ) : List ℤ := x.trace.filterMap Event.sentStatus

theorem length_sentStatuses (x : Exchange σ) : x.sentStatuses.length = x.sentCount := by
  rw [sentStatuses, List.length_filterMap_eq_countP]
  refine List.countP_congr (fun e _ => ?_)
  cases e <;> simp [Event.sentStatus, Event.isResponse]

theorem sentStatuses_of_open {x : Exchange σ} (h : x.Latched) (hopen : x.resp.ended_ = false) :
    x.sentStatuses = [] := by
  apply List.eq_nil_of_length_eq_zero
  rw [length_sentStatuses, show x.sentCount = _ from h, hopen]
  rfl

/-- Behind the one response of an exchange nothing is sent. -/
theorem sentStatuses_of_ended {K : Event → Bool} {x y : Exchange σ} (h : Grows K x y)
    (hx : x.Latched) (hended : x.resp.ended_ = true) (hy : y.Latched) :
    y.sentStatuses = x.sentStatuses := by
  obtain ⟨es, hes, -⟩ := h
  have hsplit : y.sentStatuses = x.sentStatuses ++ es.filterMap Event.sentStatus := by
    rw [sentStatuses, hes, List.filterMap_append]
    rfl
  have hone : x.sentStatuses.length = 1 := by
    rw [length_sentStatuses, show x.sentCount = _ from hx, hended]
    rfl
  have hle : y.sentStatuses.length ≤ 1 := by
    rw [length_sentStatuses]
    exact hy.sentCount_le_one
  rw [hsplit, List.length_append, hone] at hle
  have hnone : es.filterMap Event.sentStatus = [] := List.eq_nil_of_length_eq_zero (by omega)
  rw [hsplit, hnone, List.append_nil]

theorem Grows.sentStatuses_eq {x y : Exchange σ} (h : Grows (fun e => !e.isResponse) x y) :
    y.sentStatuses = x.sentStatuses := by
  obtain ⟨es, hes, hall⟩ := h
  have hnone : es.filterMap Event.sentStatus = [] := by
    apply List.filterMap_eq_nil_iff.2
    intro e he
    have hkind := hall e he
    cases e <;> simp_all [Event.isResponse, Event.sentStatus]
  rw [sentStatuses, hes, List.filterMap_append, hnone, List.append_nil]
  rfl

theorem sentStatuses_end {x : Exchange σ} (h : x.Latched) (hopen : x.resp.ended_ = false)
    (status : ℤ) (data : Option CString) : (x.end_ status data).sentStatuses = [status] := by
  have hnone := sentStatuses_of_open h hopen
  unfold sentStatuses at hnone ⊢
  simp only [end_, HttpResponse.end_, hopen, Bool.false_eq_true, ite_false, log,
    List.filterMap_append, hnone]
  rfl

end Exchange

namespace App

/-! ## The after filters -/

/-- The reactions of the filters that the loop calls. -/
def reactions (stage : Stage) (pfx : CString) : FidecState σ → List (Fidec σ) → List Reaction
  | _, [] => []
  | s, fc :: fidecs =>
      (if fc.covers pfx then [s.x.reaction fc.h] else []) ++
      match fidecStep stage pfx s fc with
      | .next s' => reactions stage pfx s' fidecs
      | .stop _ => []

/-- The status that is sent when the after filters have returned `ret` last. -/
def closingStatus (status ret : ℤ) : ℤ :=
  if Status.ok < ret then ret
  else if ret = Status.ok ∨ ret = Ret.continue_ then status
  else Status.internalError

/-- The status `App::completeRequest` sends, by the reactions of its filters. -/
def answer : ℤ → ℤ → List Reaction → Option ℤ
  | status, ret, [] => if ret = Ret.skipFlush then none else some (closingStatus status ret)
  | status, _, r :: rs =>
      match r.outcome with
      | .ret ret =>
          if ret = Ret.abort then some Status.internalError
          else answer (lastSet status r.calls) ret rs
      | .halt code _ => some (haltStatus code)
      | .exception => some Status.internalError
      | .foreign => none

/-- What `App::completeRequest` does with the result of the after filters. -/
def conclude (r : Option ℤ × Exchange σ) : Exchange σ :=
  match r.1 with
  | none => r.2
  | some ret =>
      let x := { r.2.log (.fidecs .after ret) with resp := afterStatus ret r.2.resp }
      if ret ≠ Ret.skipFlush then x.flush else x

theorem closing_exchange (app : App σ) (z : Exchange σ) (rh : RouteHandler (Target σ)) :
    (app.closing z rh).exchange =
      conclude (fidecsFrom .after rh.prefix_ (fidecStart z) app.after_) := by
  have hcall : callFidecs .after app.after_ rh.prefix_ z =
      ((fidecsFrom .after rh.prefix_ (fidecStart z) app.after_).1,
        (fidecsFrom .after rh.prefix_ (fidecStart z) app.after_).1.elim
          (fidecsFrom .after rh.prefix_ (fidecStart z) app.after_).2
          (fun ret => (fidecsFrom .after rh.prefix_ (fidecStart z) app.after_).2.log
            (.fidecs .after ret))) := rfl
  rw [closing, hcall]
  rcases fidecsFrom .after rh.prefix_ (fidecStart z) app.after_ with ⟨_ | ret, w⟩ <;> rfl

theorem afterStatus_status {ret : ℤ} (h : ret ≠ Ret.skipFlush) (resp : HttpResponse) :
    (afterStatus ret resp).status_ = closingStatus resp.status_ ret := by
  unfold afterStatus closingStatus HttpResponse.status
  by_cases hok : Status.ok < ret
  · have hne : ret ≠ 0 := by
      rintro rfl
      exact absurd hok (by decide)
    rw [if_pos (Int.le_of_lt hok), if_pos ⟨hne, hok⟩, if_pos hok]
  · by_cases hret : ret = Status.ok
    · simp [hret]
    · have hlt : ¬ Status.ok ≤ ret := by omega
      rw [if_neg hlt, if_neg hok]
      by_cases hcont : ret = Ret.continue_
      · simp [hcont]
      · have herr : Status.internalError ≠ 0 ∧ Status.ok < Status.internalError := by decide
        simp [h, hret, hcont, herr]

theorem latched_conclude {r : Option ℤ × Exchange σ} (h : r.2.Latched) :
    (conclude r).Latched := by
  unfold conclude
  cases r.1 with
  | none => exact h
  | some ret =>
      have hset : Exchange.Latched
          { r.2.log (.fidecs .after ret) with resp := afterStatus ret r.2.resp } := by
        exact Exchange.Latched.of_eq (h.log (e := .fidecs .after ret) rfl) rfl
          (afterStatus_ended ret r.2.resp)
      simp only
      split
      · exact hset.flush
      · exact hset

theorem grows_conclude (r : Option ℤ × Exchange σ) :
    Exchange.Grows (fun _ => true) r.2 (conclude r) := by
  unfold conclude
  cases r.1 with
  | none => exact .of_trace_eq rfl
  | some ret =>
      have hset : Exchange.Grows (fun _ => true) r.2
          { r.2.log (.fidecs .after ret) with resp := afterStatus ret r.2.resp } :=
        ⟨[.fidecs .after ret], rfl, fun _ _ => rfl⟩
      simp only
      split
      · exact hset.trans ((Exchange.grows_end _ _ _).mono (fun _ _ => rfl))
      · exact hset

/-- An exchange whose response is out is concluded without another one. -/
theorem sentStatuses_conclude_ended {pfx : CString} {s : FidecState σ} (h : s.x.Latched)
    (hended : s.x.resp.ended_ = true) (fidecs : List (Fidec σ)) :
    (conclude (fidecsFrom .after pfx s fidecs)).sentStatuses = s.x.sentStatuses := by
  have hgrows : Exchange.Grows (fun _ => true) s.x (conclude (fidecsFrom .after pfx s fidecs)) :=
    ((grows_fidecsFrom s fidecs).mono (fun _ _ => rfl)).trans (grows_conclude _)
  exact Exchange.sentStatuses_of_ended hgrows h hended
    (latched_conclude (latched_fidecsFrom h fidecs))

/-- An open exchange is concluded with one response, unless the filters keep it back. -/
theorem sentStatuses_conclude_open {x : Exchange σ} (h : x.Latched)
    (hopen : x.resp.ended_ = false) (ret : ℤ) :
    (conclude (some ret, x)).sentStatuses =
      (if ret = Ret.skipFlush then none else some (closingStatus x.resp.status_ ret)).toList := by
  have hended : (afterStatus ret x.resp).ended_ = false :=
    (afterStatus_ended ret x.resp).trans hopen
  set y : Exchange σ := { x.log (.fidecs .after ret) with resp := afterStatus ret x.resp } with hy
  have hlatched : y.Latched :=
    Exchange.Latched.of_eq (h.log (e := .fidecs .after ret) rfl) rfl (hended.trans hopen.symm)
  by_cases hskip : ret = Ret.skipFlush
  · have hconclude : conclude (some ret, x) = y := by simp [conclude, hskip, hy]
    rw [hconclude, if_pos hskip, Exchange.sentStatuses_of_open hlatched hended]
    rfl
  · have hconclude : conclude (some ret, x) = y.flush := by simp [conclude, hskip, hy]
    rw [hconclude, if_neg hskip, Exchange.flush, Exchange.sentStatuses_end hlatched hended,
      ← afterStatus_status hskip]
    rfl

section Loop

variable {pfx : CString} {s s' : FidecState σ} {fc : Fidec σ}

theorem fidecsFrom_of_next (h : fidecStep .after pfx s fc = .next s') (fidecs : List (Fidec σ)) :
    fidecsFrom .after pfx s (fc :: fidecs) = fidecsFrom .after pfx s' fidecs := by
  simp only [fidecsFrom, Loop.run, h]

theorem fidecsFrom_of_stop {r : Option ℤ × Exchange σ} (h : fidecStep .after pfx s fc = .stop r)
    (fidecs : List (Fidec σ)) : fidecsFrom .after pfx s (fc :: fidecs) = r := by
  simp only [fidecsFrom, Loop.run, h]

theorem reactions_of_next (hc : fc.covers pfx = true) (h : fidecStep .after pfx s fc = .next s')
    (fidecs : List (Fidec σ)) :
    reactions .after pfx s (fc :: fidecs) =
      s.x.reaction fc.h :: reactions .after pfx s' fidecs := by
  simp only [reactions, h, hc, if_true, List.singleton_append]

theorem reactions_of_stop (hc : fc.covers pfx = true) {r : Option ℤ × Exchange σ}
    (h : fidecStep .after pfx s fc = .stop r) (fidecs : List (Fidec σ)) :
    reactions .after pfx s (fc :: fidecs) = [s.x.reaction fc.h] := by
  simp only [reactions, h, hc, if_true, List.append_nil]

end Loop

/-- The response of an open exchange is the answer to the reactions of the filters. -/
theorem sentStatuses_fidecsFrom {pfx : CString} {s : FidecState σ} (h : s.x.Latched)
    (hopen : s.x.resp.ended_ = false) (fidecs : List (Fidec σ)) :
    (conclude (fidecsFrom .after pfx s fidecs)).sentStatuses =
      (answer s.x.resp.status_ s.status (reactions .after pfx s fidecs)).toList := by
  induction fidecs generalizing s with
  | nil => exact sentStatuses_conclude_open h hopen s.status
  | cons fc fidecs ih =>
      have hvisited : (visited .after s fc).Latched := h.invoke fc.h rfl
      have hvopen : (visited .after s fc).resp.ended_ = false :=
        (Exchange.invoke_ended s.x fc.h _).trans hopen
      have hvstatus : (visited .after s fc).resp.status_ =
          lastSet s.x.resp.status_ (s.x.reaction fc.h).calls := Exchange.invoke_status _ _ _
      cases hc : fc.covers pfx with
      | false =>
          have hstep : fidecStep .after pfx s fc = .next ⟨s.index + 1, s.status, s.x⟩ :=
            fidecStep_skip s hc
          simp only [fidecsFrom_of_next hstep, reactions, hstep, hc, Bool.false_eq_true, if_false,
            List.nil_append]
          exact ih (s := ⟨s.index + 1, s.status, s.x⟩) h hopen
      | true =>
          cases ho : (s.x.reaction fc.h).outcome with
          | ret ret =>
              have hstep : fidecStep .after pfx s fc = _ := fidecStep_ret s hc ho
              by_cases habort : ret = Ret.abort
              · rw [if_pos (Or.inl habort)] at hstep
                rw [fidecsFrom_of_stop hstep, reactions_of_stop hc hstep,
                  sentStatuses_conclude_open hvisited hvopen, habort]
                simp only [answer, ho, habort, if_true]
                rfl
              · have hgo : ¬ (ret = Ret.abort ∨ s.x.resp.ended_ = true) := by simp [habort, hopen]
                rw [if_neg hgo] at hstep
                rw [fidecsFrom_of_next hstep, reactions_of_next hc hstep,
                  ih (s := ⟨s.index + 1, ret, visited .after s fc⟩) hvisited hvopen, hvstatus]
                simp only [answer, ho, habort, if_false]
          | halt code what =>
              have hstep : fidecStep .after pfx s fc = _ := fidecStep_halt s hc ho
              rw [fidecsFrom_of_next hstep, reactions_of_next hc hstep,
                sentStatuses_conclude_ended (hvisited.end_ _ _) (Exchange.end_ended _ _ _),
                Exchange.sentStatuses_end hvisited hvopen]
              simp only [answer, ho, Option.toList_some]
          | exception =>
              have hstep : fidecStep .after pfx s fc = _ := fidecStep_exception s hc ho
              rw [fidecsFrom_of_stop hstep, reactions_of_stop hc hstep,
                sentStatuses_conclude_open hvisited hvopen]
              simp only [answer, ho]
              rfl
          | foreign =>
              have hstep : fidecStep .after pfx s fc = _ := fidecStep_foreign s hc ho
              rw [fidecsFrom_of_stop hstep, reactions_of_stop hc hstep]
              simp only [answer, ho, Option.toList_none]
              exact Exchange.sentStatuses_of_open hvisited hvopen

/-- What has been sent when a request is closed. -/
theorem sentStatuses_closing (app : App σ) {z : Exchange σ} (h : z.Pending)
    (rh : RouteHandler (Target σ)) :
    (app.closing z rh).exchange.sentStatuses =
      if z.resp.ended_ then z.sentStatuses
      else (answer z.resp.status_ Ret.continue_
        (reactions .after rh.prefix_ (fidecStart z) app.after_)).toList := by
  rw [closing_exchange]
  cases hended : z.resp.ended_ with
  | true => exact sentStatuses_conclude_ended (s := fidecStart z) h.latched hended app.after_
  | false => exact sentStatuses_fidecsFrom (s := fidecStart z) h.latched hended app.after_

/-! ## A failure that looks like a success -/

def IsSuccess (code : ℤ) : Prop := Status.ok ≤ code ∧ code < 300

instance (code : ℤ) : Decidable (IsSuccess code) := inferInstanceAs (Decidable (_ ∧ _))

/-- The filter lets the loop go on. -/
def Passing (r : Reaction) : Prop := ∃ ret, r.outcome = .ret ret ∧ ret ≠ Ret.abort

def returned (r : Reaction) : Option ℤ :=
  match r.outcome with
  | .ret ret => some ret
  | _ => none

/-- The code returned last. -/
def lastRet (ret : ℤ) (rs : List Reaction) : ℤ := (rs.filterMap returned).getLast?.getD ret

/-- A filter halts with a success, the last filter returns one, or the filters are content and
the status that was set last is one. -/
inductive Hides (status ret : ℤ) (rs : List Reaction) : Prop where
  | halted {pre post : List Reaction} {r : Reaction} {code : ℤ} {what : Option CString}
      (hrs : rs = pre ++ r :: post) (hpre : ∀ q ∈ pre, Passing q)
      (ho : r.outcome = .halt code what) (hcode : IsSuccess code)
  | replaced (hpass : ∀ r ∈ rs, Passing r) (hret : Status.ok < lastRet ret rs)
      (hcode : IsSuccess (lastRet ret rs))
  | kept (hpass : ∀ r ∈ rs, Passing r)
      (hret : lastRet ret rs = Status.ok ∨ lastRet ret rs = Ret.continue_)
      (hcode : IsSuccess (lastSet status (rs.flatMap Reaction.calls)))

theorem lastRet_cons {r : Reaction} {k : ℤ} (ho : r.outcome = .ret k) (ret : ℤ)
    (rs : List Reaction) : lastRet ret (r :: rs) = lastRet k rs := by
  have hr : returned r = some k := by rw [returned, ho]
  rw [lastRet, List.filterMap_cons_some hr, List.getLast?_cons, Option.getD_some]
  rfl

theorem hides_cons_of_ret {r : Reaction} {k : ℤ} (ho : r.outcome = .ret k) (hk : k ≠ Ret.abort)
    (status ret : ℤ) (rs : List Reaction) :
    Hides status ret (r :: rs) ↔ Hides (lastSet status r.calls) k rs := by
  have hpassing : Passing r := ⟨k, ho, hk⟩
  have hset : lastSet status ((r :: rs).flatMap Reaction.calls) =
      lastSet (lastSet status r.calls) (rs.flatMap Reaction.calls) := by
    rw [List.flatMap_cons, lastSet_append]
  constructor
  · intro h
    cases h with
    | @halted pre post q code what hrs hpre hq hcode =>
        cases pre with
        | nil =>
            obtain ⟨rfl, -⟩ := List.cons.inj hrs
            cases ho.symm.trans hq
        | cons p pre =>
            obtain ⟨-, hrest⟩ := List.cons.inj hrs
            exact .halted hrest (fun q hq => hpre q (List.mem_cons_of_mem p hq)) hq hcode
    | replaced hpass hret hcode =>
        rw [lastRet_cons ho] at hret hcode
        exact .replaced (List.forall_mem_cons.1 hpass).2 hret hcode
    | kept hpass hret hcode =>
        rw [lastRet_cons ho] at hret
        rw [hset] at hcode
        exact .kept (List.forall_mem_cons.1 hpass).2 hret hcode
  · intro h
    cases h with
    | @halted pre post q code what hrs hpre hq hcode =>
        have hrs' : r :: rs = (r :: pre) ++ q :: post := congrArg (List.cons r) hrs
        exact .halted hrs' (List.forall_mem_cons.2 ⟨hpassing, hpre⟩) hq hcode
    | replaced hpass hret hcode =>
        rw [← lastRet_cons ho ret] at hret hcode
        exact .replaced (List.forall_mem_cons.2 ⟨hpassing, hpass⟩) hret hcode
    | kept hpass hret hcode =>
        rw [← lastRet_cons ho ret] at hret
        rw [← hset] at hcode
        exact .kept (List.forall_mem_cons.2 ⟨hpassing, hpass⟩) hret hcode

theorem hides_cons_of_not_passing {r : Reaction} (h : ¬ Passing r) (status ret : ℤ)
    (rs : List Reaction) :
    Hides status ret (r :: rs) ↔ ∃ code what, r.outcome = .halt code what ∧ IsSuccess code := by
  constructor
  · intro hides
    cases hides with
    | @halted pre post q code what hrs hpre hq hcode =>
        cases pre with
        | nil =>
            obtain ⟨rfl, -⟩ := List.cons.inj hrs
            exact ⟨code, what, hq, hcode⟩
        | cons p pre =>
            obtain ⟨rfl, -⟩ := List.cons.inj hrs
            exact absurd (hpre r List.mem_cons_self) h
    | replaced hpass hret hcode => exact absurd (hpass r List.mem_cons_self) h
    | kept hpass hret hcode => exact absurd (hpass r List.mem_cons_self) h
  · rintro ⟨code, what, ho, hcode⟩
    have hrs : r :: rs = [] ++ r :: rs := rfl
    exact .halted hrs (fun q hq => absurd hq List.not_mem_nil) ho hcode

theorem isSuccess_haltStatus (code : ℤ) : IsSuccess (haltStatus code) ↔ IsSuccess code := by
  unfold haltStatus
  split
  · rename_i hlt
    exact iff_of_false (by decide) (fun h => absurd h.1 (Int.not_le.2 hlt))
  · rfl

theorem closingStatus_success_iff (status ret : ℤ) :
    (ret ≠ Ret.skipFlush ∧ IsSuccess (closingStatus status ret)) ↔
      (Status.ok < ret ∧ IsSuccess ret) ∨
      ((ret = Status.ok ∨ ret = Ret.continue_) ∧ IsSuccess status) := by
  have hok : (Status.ok : ℤ) = 200 := rfl
  have hcont : Ret.continue_ = 1 := rfl
  have hskip : Ret.skipFlush = 2 := rfl
  unfold closingStatus
  by_cases hlt : Status.ok < ret
  · rw [if_pos hlt]
    constructor
    · exact fun h => Or.inl ⟨hlt, h.2⟩
    · rintro (h | h)
      · exact ⟨by omega, h.2⟩
      · omega
  · rw [if_neg hlt]
    by_cases hcontent : ret = Status.ok ∨ ret = Ret.continue_
    · rw [if_pos hcontent]
      constructor
      · exact fun h => Or.inr ⟨hcontent, h.2⟩
      · rintro (h | h)
        · exact absurd h.1 hlt
        · exact ⟨by omega, h.2⟩
    · rw [if_neg hcontent]
      constructor
      · exact fun h => absurd h.2 (by decide)
      · rintro (h | h)
        · exact absurd h.1 hlt
        · exact absurd h.1 hcontent

theorem hides_nil_iff (status ret : ℤ) :
    Hides status ret [] ↔
      (Status.ok < ret ∧ IsSuccess ret) ∨
      ((ret = Status.ok ∨ ret = Ret.continue_) ∧ IsSuccess status) := by
  have hnone : ∀ r ∈ ([] : List Reaction), Passing r := fun r hr => absurd hr List.not_mem_nil
  constructor
  · intro h
    cases h with
    | halted hrs hpre ho hcode => exact absurd hrs.symm (List.append_ne_nil_of_right_ne_nil _
        (List.cons_ne_nil _ _))
    | replaced hpass hret hcode => exact Or.inl ⟨hret, hcode⟩
    | kept hpass hret hcode => exact Or.inr ⟨hret, hcode⟩
  · rintro (h | h)
    · exact .replaced hnone h.1 h.2
    · exact .kept hnone h.1 h.2

/-- The answer is a success exactly when the filters hide the failure. -/
theorem answer_success_iff (status ret : ℤ) (rs : List Reaction) :
    (∃ code ∈ answer status ret rs, IsSuccess code) ↔ Hides status ret rs := by
  induction rs generalizing status ret with
  | nil =>
      rw [hides_nil_iff, ← closingStatus_success_iff, answer]
      split
      · rename_i hskip
        simp [hskip]
      · rename_i hskip
        simp [hskip]
  | cons r rs ih =>
      by_cases hpass : Passing r
      · obtain ⟨k, ho, hk⟩ := hpass
        rw [hides_cons_of_ret ho hk, ← ih]
        simp only [answer, ho, hk, if_false]
      · rw [hides_cons_of_not_passing hpass]
        have herror : ¬ IsSuccess Status.internalError := by decide
        cases ho : r.outcome with
        | ret k =>
            have hk : k = Ret.abort := by
              by_contra hne
              exact hpass ⟨k, ho, hne⟩
            simp [answer, ho, hk, herror]
        | halt code what => simp [answer, ho, isSuccess_haltStatus]
        | exception => simp [answer, ho, herror]
        | foreign => simp [answer, ho]

section Responses

variable {app : App σ} {method : Method} {path : CString} {headers : List Header} {world : σ}
  {x y : Exchange σ} {rh : RouteHandler (Target σ)}

theorem prepared_status (y : Exchange σ) (rh : RouteHandler (Target σ)) {status : ℤ}
    (h : status ≤ Status.ok) : (prepared y rh status).resp.status_ = y.resp.status_ := by
  have hnot : ¬ (status ≠ 0 ∧ Status.ok < status) := fun hs => absurd hs.2 (Int.not_lt.2 h)
  cases hct : rh.contentType <;>
    simp only [prepared, hct, HttpResponse.status, if_neg hnot, HttpResponse.header]

theorem prepared_ended (y : Exchange σ) (rh : RouteHandler (Target σ)) (status : ℤ) :
    (prepared y rh status).resp.ended_ = y.resp.ended_ := by
  cases hct : rh.contentType <;> simp [prepared, hct, HttpResponse.header]

theorem callRequestHandler_exception {hd : Handler σ} (hh : rh.h.h = some hd)
    (ho : (x.reaction hd).outcome = .exception) :
    callRequestHandler rh x = (some Ret.abort, handled rh hd x) := by
  simp only [callRequestHandler, hh, ho, handled]

theorem sentStatuses_invoke (x : Exchange σ) (h : Handler σ) {e : Event}
    (he : e.isResponse = false) : (x.invoke h e).sentStatuses = x.sentStatuses := by
  apply Exchange.Grows.sentStatuses_eq
  exact Exchange.grows_invoke x h (by simp [he]) Event.not_response_of_direct

/-- A request whose handler throws is reported as a success exactly when a success was sent
before, or the after filters hide the failure. -/
theorem exception_not_success_iff (h : Entered app method path headers world x rh)
    {hd : Handler σ} (hh : rh.h.h = some hd) (ht : rh.h.transformer = none)
    (ho : (x.reaction hd).outcome = .exception) (resume : Resumption σ) :
    (∀ code ∈ (app.serve method path headers world resume).exchange.sentStatuses,
      ¬ IsSuccess code) ↔
    (∀ code ∈ x.sentStatuses, ¬ IsSuccess code) ∧
    (x.resp.ended_ = false →
      ¬ Hides (lastSet x.resp.status_ (x.reaction hd).calls) Ret.continue_
        (reactions .after rh.prefix_ (fidecStart (prepared (handled rh hd x) rh Ret.abort))
          app.after_)) := by
  have hcloses : Closes app method path headers world resume
      (prepared (handled rh hd x) rh Ret.abort) rh :=
    .plain (.returned h (callRequestHandler_exception hh ho) (by decide)) ht
  have hended : (prepared (handled rh hd x) rh Ret.abort).resp.ended_ = x.resp.ended_ :=
    (prepared_ended _ rh _).trans (Exchange.invoke_ended x hd _)
  have hstatus : (prepared (handled rh hd x) rh Ret.abort).resp.status_ =
      lastSet x.resp.status_ (x.reaction hd).calls :=
    (prepared_status _ rh (by decide)).trans (Exchange.invoke_status x hd _)
  have hsent : (prepared (handled rh hd x) rh Ret.abort).sentStatuses = x.sentStatuses :=
    sentStatuses_invoke x hd rfl
  rw [hcloses.serve_eq, sentStatuses_closing app hcloses.pending, hended, hstatus, hsent,
    ← answer_success_iff]
  cases hopen : x.resp.ended_ with
  | true => simp
  | false =>
      rw [Exchange.sentStatuses_of_open h.pending.latched hopen]
      simp

/-- Filters that return `$CONTINUE` or `OK` leave the status as it is set. -/
theorem answer_of_content {rs : List Reaction}
    (h : ∀ r ∈ rs, r.outcome = .ret Ret.continue_ ∨ r.outcome = .ret Status.ok) (status : ℤ)
    {ret : ℤ} (hret : ret = Ret.continue_ ∨ ret = Status.ok) :
    answer status ret rs = some (lastSet status (rs.flatMap Reaction.calls)) := by
  induction rs generalizing status ret with
  | nil => rcases hret with rfl | rfl <;> rfl
  | cons r rs ih =>
      obtain ⟨hr, hrs⟩ := List.forall_mem_cons.1 h
      rw [List.flatMap_cons, lastSet_append]
      rcases hr with hr | hr
      · simp only [answer, hr]
        exact ih hrs _ (Or.inl rfl)
      · simp only [answer, hr]
        exact ih hrs _ (Or.inr rfl)

/-- The exchange in which the after filters of a transformed response are called. -/
def retouched (y : Exchange σ) (rh : RouteHandler (Target σ)) (rt : ResponseTransformer σ)
    (code : ℤ) : Exchange σ :=
  prepared { transformed rt y with
    resp := (transformed rt y).resp.swapBody (rt y.resp y.world).1.buffer } rh code

/-- Behind a transformer that succeeds, the status of the handler is sent exactly when it is
the one that was set in the response. -/
theorem transformer_keeps_status_iff {resume : Resumption σ} {s : ℤ}
    (h : Completes app method path headers world resume y rh s) {rt : ResponseTransformer σ}
    (ht : rh.h.transformer = some rt) (hok : (rt y.resp y.world).1.status = some Status.ok)
    (hafter : ∀ r ∈ reactions .after rh.prefix_ (fidecStart (retouched y rh rt Status.ok))
      app.after_, r.outcome = .ret Ret.continue_ ∨ r.outcome = .ret Status.ok) :
    (app.serve method path headers world resume).exchange.sentStatuses = [s] ↔
      if y.resp.ended_ then y.sentStatuses = [s]
      else lastSet y.resp.status_ ((rt y.resp y.world).1.calls ++
        (reactions .after rh.prefix_ (fidecStart (retouched y rh rt Status.ok))
          app.after_).flatMap Reaction.calls) = s := by
  have hcloses : Closes app method path headers world resume (retouched y rh rt Status.ok) rh :=
    .transform h ht hok (by decide)
  have hended : (retouched y rh rt Status.ok).resp.ended_ = y.resp.ended_ := by
    rw [retouched, prepared_ended]
    exact Exchange.performAll_ended _ _
  have hstatus : (retouched y rh rt Status.ok).resp.status_ =
      lastSet y.resp.status_ (rt y.resp y.world).1.calls := by
    rw [retouched, prepared_status _ rh (by decide)]
    exact Exchange.performAll_status _ _
  have hsent : (retouched y rh rt Status.ok).sentStatuses = y.sentStatuses := by
    have hlog : Exchange.Grows (fun e => !e.isResponse) y
        (({ y with world := (rt y.resp y.world).2 }).log .transform) :=
      ⟨[.transform], rfl, by simp [Event.isResponse]⟩
    have hcalls : Exchange.Grows (fun e => !e.isResponse) y (transformed rt y) :=
      hlog.trans ((Exchange.grows_performAll _ _).mono Event.not_response_of_direct)
    exact hcalls.sentStatuses_eq
  rw [hcloses.serve_eq, sentStatuses_closing app hcloses.pending, hended, hstatus, hsent,
    answer_of_content hafter _ (Or.inl rfl), lastSet_append]
  cases y.resp.ended_ <;> simp

end Responses

/-! ## Requests -/

/-- `GET /boom`, with a handler that makes the calls and throws. -/
def boomRoute (calls : List Call) : Registration (Target Unit) :=
  ⟨.GET, "/boom".toList, ⟨some (fun _ _ world => (⟨calls, .exception⟩, world)), none⟩, none⟩

theorem exception_not_success_set :
    ((single (boomRoute [.status 503]) []).serve .GET "/boom".toList [] ()
      (fun _ => ([], Status.ok, ()))).exchange.sentStatuses = [503] ∧
    ∀ code ∈ ((single (boomRoute [.status 503]) []).serve .GET "/boom".toList [] ()
      (fun _ => ([], Status.ok, ()))).exchange.sentStatuses, ¬ IsSuccess code := by
  refine ⟨by decide, ?_⟩
  have hentered : Entered (single (boomRoute [.status 503]) []) .GET "/boom".toList [] () _
      ⟨"/boom".toList, none, (boomRoute [.status 503]).h, .GET, [], "/boom".toList, 0⟩ :=
    ⟨_, Ret.continue_, ⟨by decide, rfl, rfl⟩, rfl, by decide⟩
  refine (exception_not_success_iff hentered rfl rfl rfl _).2 ⟨?_, fun _ => ?_⟩
  · decide
  · have hnone : ¬ Hides 503 Ret.continue_ [] := by
      rw [hides_nil_iff]
      decide
    exact hnone

/-- A handler that only throws is answered with `200`. -/
theorem exception_reported_ok :
    Configured (single (boomRoute []) []) ∧
    ((single (boomRoute []) []).serve .GET "/boom".toList [] ()
      (fun _ => ([], Status.ok, ()))).exchange.sentStatuses = [200] ∧ IsSuccess 200 := by
  have hroute : (App.new noFiles []).route .GET (some "/boom".toList) none
      (some (fun _ _ world => (⟨[], .exception⟩, world))) none =
      some (single (boomRoute []) [], true) := rfl
  exact ⟨.route (.new noFiles []) hroute, by decide, by decide⟩

/-- `GET /page`, with a handler that makes the calls and returns `404`, and a transformer that
succeeds. -/
def pageRoute (calls : List Call) : Registration (Target Unit) :=
  ⟨.GET, "/page".toList, ⟨some (fun _ _ world => (⟨calls, .ret 404⟩, world)),
    some (fun resp world => (⟨[], resp.body_, some Status.ok⟩, world))⟩, none⟩

theorem transformer_keeps_status_set :
    ((single (pageRoute [.status 404]) []).serve .GET "/page".toList [] ()
      (fun _ => ([], Status.ok, ()))).exchange.sentStatuses = [404] := by
  have hentered : Entered (single (pageRoute [.status 404]) []) .GET "/page".toList [] () _
      ⟨"/page".toList, none, (pageRoute [.status 404]).h, .GET, [], "/page".toList, 0⟩ :=
    ⟨_, Ret.continue_, ⟨by decide, rfl, rfl⟩, rfl, by decide⟩
  have hcompletes := @Completes.returned _ _ _ _ _ _ (fun _ => ([], Status.ok, ())) _ _ _ _ hentered
    (callRequestHandler_ret rfl rfl) (by decide)
  refine (transformer_keeps_status_iff hcompletes rfl rfl ?_).2 (by decide)
  exact fun r hr => absurd hr List.not_mem_nil

/-- Without a call of `Response::status` the `404` of the handler is sent as `200`. -/
theorem transformer_hides_status :
    Configured (single (pageRoute []) []) ∧
    ((single (pageRoute []) []).serve .GET "/page".toList [] ()
      (fun _ => ([], Status.ok, ()))).exchange.sentStatuses = [200] := by
  have hroute : (App.new noFiles []).route .GET (some "/page".toList) none
      (some (fun _ _ world => (⟨[], .ret 404⟩, world)))
      (some (fun resp world => (⟨[], resp.body_, some Status.ok⟩, world))) =
      some (single (pageRoute []) [], true) := rfl
  exact ⟨.route (.new noFiles []) hroute, by decide⟩

end App

end Sparc
