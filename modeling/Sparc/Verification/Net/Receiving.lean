import Sparc.Model.Net

/-! # What is received does not depend on how it comes in -/

namespace Sparc

variable {σ μ : Type*} {R : Intake σ Unit UInt8 μ} {s : σ}

/-- The reader always waits for something. -/
def KeepsWaiting (R : Intake σ Unit UInt8 μ) (s : σ) : Prop :=
  ∀ l s' out, R.feed s l = .ok (s', out) → 0 < R.missing s'

theorem KeepsWaiting.pos (h : KeepsWaiting R s) : 0 < R.missing s := h [] s [] rfl

theorem KeepsWaiting.feed (h : KeepsWaiting R s) {l : List UInt8} {s' : σ} {out : List μ}
    (hfeed : R.feed s l = .ok (s', out)) : KeepsWaiting R s' := by
  intro m s₂ out₂ hm
  exact h (l ++ m) s₂ (out ++ out₂)
    (Intake.feed_append_eq_ok.mpr ⟨s', out, out₂, hfeed, hm, rfl⟩)

/-- A call of `net_recv_flush` has the effect of the bytes that it gets, if no `read` fails. -/
theorem netRecvFlush_eq_feed {results : List RecvResult} {r : Except Unit (σ × List μ)}
    (hwait : KeepsWaiting R s) (hread : .error ∉ results)
    (h : netRecvFlush R s results = some r) :
    R.feed s (results.flatMap RecvResult.data) = r := by
  induction results generalizing s r with
  | nil => cases h
  | cons result results ih =>
      have hrest : .error ∉ results := fun hmem => hread (List.mem_cons_of_mem result hmem)
      cases result with
      | eagain =>
          rw [netRecvFlush] at h
          split at h
          · rename_i hempty
            subst hempty
            exact Option.some.inj h
          · cases h
      | error => exact absurd List.mem_cons_self hread
      | bytes l =>
          rw [netRecvFlush] at h
          split at h
          · rename_i hfit
            have hpiece := Intake.read_eq_feed hwait.pos hfit
            rw [List.flatMap_cons, RecvResult.data, Intake.feed_append, ← hpiece]
            cases hone : R.read s l with
            | error e =>
                rw [hone] at h
                simp only at h
                split at h
                · exact Option.some.inj h
                · cases h
            | ok q =>
                rw [hone] at h
                obtain ⟨rest, hflush, rfl⟩ := Option.map_eq_some_iff.mp h
                have hnext := ih (hwait.feed (hpiece.symm.trans hone)) hrest hflush
                simp only [Except.bind, hnext]
          · cases h

/-- So have the calls that the event loop makes. -/
theorem receive_eq_feed {calls : List (List RecvResult)} {r : Except Unit (σ × List μ)}
    (hwait : KeepsWaiting R s) (hread : ∀ results ∈ calls, .error ∉ results)
    (h : receive R s calls = some r) :
    R.feed s (calls.flatMap (fun results => results.flatMap RecvResult.data)) = r := by
  induction calls generalizing s r with
  | nil => exact Option.some.inj h
  | cons results calls ih =>
      obtain ⟨first, hfirst, hnext⟩ := Option.bind_eq_some_iff.mp h
      have hone := netRecvFlush_eq_feed hwait (hread results List.mem_cons_self) hfirst
      rw [List.flatMap_cons, Intake.feed_append, hone]
      cases first with
      | error e =>
          simp only at hnext
          split at hnext
          · exact Option.some.inj hnext
          · cases hnext
      | ok q =>
          obtain ⟨rest, hrest, rfl⟩ := Option.map_eq_some_iff.mp hnext
          have hall := ih (hwait.feed hone)
            (fun results' hmem => hread results' (List.mem_cons_of_mem results hmem)) hrest
          simp only [Except.bind, hall]

end Sparc
