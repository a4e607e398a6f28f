import Sparc.Model.Memory

/-! # The string settings

A setting that is made for the first time frees what its slot held at the start. That is a
string literal in two of the slots, and memory that has not been initialized in three.
-/

namespace Sparc

namespace ConfigCall

/-- The slot that a call is for. -/
def slot : ConfigCall → Setting
  | .ip _ => .bindIp
  | .port _ => .bindPort
  | .user _ => .runasUser
  | .pidFile _ => .korePidfile
  | .accessLog _ => .accessLog
  | .httpBodyDiskPath _ => .httpBodyDiskPath
  | .chroot _ => .chrootPath

def argument : ConfigCall → Option CString
  | .ip v => v
  | .port v => v
  | .user v => v
  | .pidFile v => v
  | .accessLog v => v
  | .httpBodyDiskPath v => v
  | .chroot v => v

/-- The call sets a value. -/
def Sets (c : ConfigCall) (s : Setting) : Prop := c.slot = s ∧ c.argument ≠ none

theorem step_eq (m : Settings) (c : ConfigCall) :
    c.step m = Config.configString c.slot c.argument m := by
  cases c <;> rfl

/-- The settings as a map of texts, behind a call. -/
def assign (t : Setting → Option CString) (c : ConfigCall) : Setting → Option CString :=
  match c.argument with
  | some v => Function.update t c.slot (some v)
  | none => t

end ConfigCall

namespace Settings

def texts (m : Settings) (s : Setting) : Option CString := (m s).map StrPtr.text

/-- What calls return that read back the last value set. -/
def readBack (t : Setting → Option CString) : List ConfigCall → List (Option CString)
  | [] => []
  | c :: calls => c.assign t c.slot :: readBack (c.assign t) calls

/-- Every call comes back, with the last value set for its slot or the initial one. -/
def Consistent (heap : Settings) (calls : List ConfigCall) : Prop :=
  ∃ m, heap.run calls = some (m, readBack heap.allocated.texts (initConfig ++ calls))

/-- NULL, or memory of `kore_malloc`. -/
def Releasable (ptr : Option StrPtr) : Prop := ∀ p ∈ ptr, p.origin = .koreMalloc

/-- No call frees anything else. -/
structure Releases (heap : Settings) (calls : List ConfigCall) : Prop where
  bindIp : Releasable (heap .bindIp)
  bindPort : Releasable (heap .bindPort)
  accessLog : ∀ c ∈ calls, c.Sets .accessLog → Releasable (heap .accessLog)
  korePidfile : ∀ c ∈ calls, ¬ c.Sets .korePidfile
  httpBodyDiskPath : ∀ c ∈ calls, ¬ c.Sets .httpBodyDiskPath

/-! ## One call -/

theorem koreFree_eq (ptr : Option StrPtr) : koreFree ptr = some () ↔ Releasable ptr := by
  cases ptr with
  | none => simp [koreFree, Releasable]
  | some p => simp [koreFree, Releasable]

theorem step_read {c : ConfigCall} (h : c.argument = none) (m : Settings) :
    c.step m = some (m, m.texts c.slot) := by
  rw [c.step_eq, h]
  rfl

theorem step_set_iff {c : ConfigCall} {v : CString} (h : c.argument = some v) {m m' : Settings}
    {o : Option CString} :
    c.step m = some (m', o) ↔
      Releasable (m c.slot) ∧ m' = Function.update m c.slot (some (koreStrdup v)) ∧
        o = some v := by
  rw [c.step_eq, h, ← koreFree_eq]
  simp only [Config.configString, Option.map_eq_some_iff, Prod.mk.injEq]
  constructor
  · rintro ⟨u, hfree, rfl, rfl⟩
    exact ⟨hfree, rfl, rfl⟩
  · rintro ⟨hfree, rfl, rfl⟩
    exact ⟨(), hfree, rfl, rfl⟩

theorem texts_update (m : Settings) (s : Setting) (v : CString) :
    texts (Function.update m s (some (koreStrdup v))) = Function.update m.texts s (some v) := by
  funext s'
  by_cases hs : s' = s
  · subst hs
    simp [texts, koreStrdup]
  · simp [texts, hs]

theorem releasable_update {m : Settings} {s : Setting} (h : Releasable (m s)) (v : CString)
    (s' : Setting) :
    Releasable (Function.update m s (some (koreStrdup v)) s') ↔ Releasable (m s') := by
  by_cases hs : s' = s
  · subst hs
    rw [Function.update_self]
    exact iff_of_true (fun p hp => by cases hp; rfl) h
  · rw [Function.update_of_ne hs]

/-! ## A run -/

/-- The calls come back exactly if what the setting ones find in their slots at the start can
be freed. -/
theorem exec_eq_readBack_iff (m : Settings) (calls : List ConfigCall) :
    (∃ m', Machine.exec ConfigCall.step m calls = some (m', readBack m.texts calls)) ↔
      ∀ c ∈ calls, c.argument ≠ none → Releasable (m c.slot) := by
  induction calls generalizing m with
  | nil => exact iff_of_true ⟨m, rfl⟩ (fun c hc => absurd hc List.not_mem_nil)
  | cons c calls ih =>
      rw [List.forall_mem_cons, readBack]
      cases harg : c.argument with
      | none =>
          have hassign : c.assign m.texts = m.texts := by rw [ConfigCall.assign, harg]
          rw [hassign, ← ih m]
          constructor
          · rintro ⟨m', hexec⟩
            obtain ⟨m₁, o, rest, hstep, hrest, heq⟩ := Machine.exec_cons_eq_some.1 hexec
            rw [step_read harg, Option.some.injEq, Prod.mk.injEq] at hstep
            obtain ⟨rfl, rfl⟩ := hstep
            rw [← (List.cons.inj heq).2] at hrest
            exact ⟨fun hne => absurd rfl hne, m', hrest⟩
          · rintro ⟨-, m', hrest⟩
            exact ⟨m', Machine.exec_cons_eq_some.2 ⟨m, _, _, step_read harg m, hrest, rfl⟩⟩
      | some v =>
          have hassign : c.assign m.texts = Function.update m.texts c.slot (some v) := by
            rw [ConfigCall.assign, harg]
          rw [hassign, ← texts_update]
          constructor
          · rintro ⟨m', hexec⟩
            obtain ⟨m₁, o, rest, hstep, hrest, heq⟩ := Machine.exec_cons_eq_some.1 hexec
            obtain ⟨hfree, rfl, rfl⟩ := (step_set_iff harg).1 hstep
            rw [← (List.cons.inj heq).2] at hrest
            refine ⟨fun _ => hfree, fun d hd hset => ?_⟩
            exact (releasable_update hfree v d.slot).1 ((ih _).1 ⟨m', hrest⟩ d hd hset)
          · rintro ⟨hfirst, hcalls⟩
            have hfree := hfirst (Option.some_ne_none v)
            obtain ⟨m', hrest⟩ := (ih (Function.update m c.slot (some (koreStrdup v)))).2
              (fun d hd hset => (releasable_update hfree v d.slot).2 (hcalls d hd hset))
            refine ⟨m', Machine.exec_cons_eq_some.2
              ⟨_, _, _, (step_set_iff harg).2 ⟨hfree, rfl, rfl⟩, hrest, ?_⟩⟩
            rw [texts_update, Function.update_self]

theorem not_releasable_literal (text : CString) :
    ¬ Releasable (some ⟨text, .literal⟩) :=
  fun h => Origin.noConfusion (h _ rfl)

/-- The string settings read back what was set exactly if the three strings of the
application hold nothing that cannot be freed when they are set, and the two settings with a
default are not made. -/
theorem consistent_iff (heap : Settings) (calls : List ConfigCall) :
    heap.Consistent calls ↔ heap.Releases calls := by
  have hinit : ∀ c ∈ initConfig, c.argument ≠ none := by decide
  rw [Consistent, run, exec_eq_readBack_iff]
  constructor
  · intro h
    have hset : ∀ s, ∀ c ∈ calls, c.Sets s → Releasable (heap.allocated s) := by
      rintro s c hc ⟨rfl, hset⟩
      exact h c (List.mem_append_right _ hc) hset
    have hstart : ∀ c ∈ initConfig, Releasable (heap.allocated c.slot) :=
      fun c hc => h c (List.mem_append_left _ hc) (hinit c hc)
    exact
      { bindIp := hstart (.ip _) (List.mem_cons_self)
        bindPort := hstart (.port _) (List.mem_cons_of_mem _ List.mem_cons_self)
        accessLog := hset .accessLog
        korePidfile := fun c hc hs => not_releasable_literal _ (hset .korePidfile c hc hs)
        httpBodyDiskPath := fun c hc hs =>
          not_releasable_literal _ (hset .httpBodyDiskPath c hc hs) }
  · intro h c hc hset
    have hnull : Releasable none := fun p hp => absurd hp (Option.not_mem_none p)
    rcases List.mem_append.1 hc with hstart | hcall
    · rcases List.mem_cons.1 hstart with rfl | hstart
      · exact h.bindIp
      · rw [List.mem_singleton.1 hstart]
        exact h.bindPort
    · cases hs : c.slot with
      | bindIp => exact h.bindIp
      | bindPort => exact h.bindPort
      | runasUser => exact hnull
      | korePidfile => exact absurd ⟨hs, hset⟩ (h.korePidfile c hcall)
      | accessLog => exact h.accessLog c hcall ⟨hs, hset⟩
      | httpBodyDiskPath => exact absurd ⟨hs, hset⟩ (h.httpBodyDiskPath c hcall)
      | chrootPath => exact hnull

/-- Also where the memory of the application was zero, setting the name of the pid file frees
a literal. -/
theorem consistent_pidFile :
    Settings.run (fun _ => none) [.pidFile (some "sparc.pid".toList)] = none ∧
    ¬ Settings.Consistent (fun _ => none) [.pidFile (some "sparc.pid".toList)] := by
  have hrun : Settings.run (fun _ => none) [.pidFile (some "sparc.pid".toList)] = none := rfl
  refine ⟨hrun, ?_⟩
  rintro ⟨m, hsome⟩
  rw [hrun] at hsome
  cases hsome

end Settings

end Sparc
