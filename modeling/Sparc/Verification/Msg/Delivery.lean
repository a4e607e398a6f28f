import Sparc.Verification.Msg.Bus

/-! # Every message is delivered -/

namespace Sparc

namespace MsgBus

variable {n : ℕ} {parentTypes : List UInt8} {workerTypes : Fin n → List UInt8} {bus bus' : MsgBus n}
  {steps : List (MsgStep n)}

/-! ## Steps that only move bytes -/

/-- A step in which nothing is sent that is new. -/
def Flows : MsgStep n → Prop
  | .send .. => False
  | _ => True

theorem Flows.fine {s : MsgStep n} (h : Flows s) : Fine parentTypes s := by
  cases s with
  | send => exact h.elim
  | workerWrite => trivial
  | parentWrite => trivial
  | parentRead => trivial
  | workerRead => trivial

theorem Flows.sentBy {s : MsgStep n} (h : Flows s) (u : Fin n) : sentBy u [s] = [] := by
  cases s with
  | send => exact h.elim
  | workerWrite => rfl
  | parentWrite => rfl
  | parentRead => rfl
  | workerRead => rfl

theorem sentBy_append_of_flows {more : List (MsgStep n)} (h : ∀ s ∈ more, Flows s) (u : Fin n) :
    sentBy u (steps ++ more) = sentBy u steps := by
  induction more using List.reverseRecOn with
  | nil => rw [List.append_nil]
  | append_singleton more s ih =>
      rw [← List.append_assoc, sentBy_append, (h s (by simp)).sentBy, List.append_nil]
      exact ih (fun s' hs' => h s' (List.mem_append_left _ hs'))

/-- A loop that keeps something keeps it to its end. -/
theorem foldlM_keeps {σ β γ : Type*} {f : σ → β → Option σ} {g : σ → γ}
    (hf : ∀ s b s', f s b = some s' → g s' = g s) {l : List β} {s s' : σ}
    (h : l.foldlM f s = some s') : g s' = g s := by
  induction l generalizing s with
  | nil =>
      rw [List.foldlM_nil] at h
      rw [Option.some.inj h]
  | cons b l ih =>
      rw [List.foldlM_cons] at h
      obtain ⟨s₁, hone, hrest⟩ := Option.bind_eq_some_iff.mp h
      exact (ih hrest).trans (hf s b s₁ hone)

theorem parentRecvData_up {w : Fin n} {buf : List UInt8}
    (h : parentRecvData w bus buf = some bus') : bus'.up = bus.up := by
  simp only [parentRecvData] at h
  split at h
  · split at h
    · cases h
    · rw [← Option.some.inj h]
  · rw [← Option.some.inj h]

theorem workerRecvData_conns {w : Fin n} {buf : List UInt8}
    (h : workerRecvData w bus buf = some bus') : (bus'.up, bus'.down) = (bus.up, bus.down) := by
  simp only [workerRecvData] at h
  split at h
  · split at h
    · cases h
    · rw [← Option.some.inj h]
  · rw [← Option.some.inj h]

/-- What a run of such steps does to the other directions is up to the caller. -/
def Reaches (parentTypes : List UInt8) (workerTypes : Fin n → List UInt8)
    (steps : List (MsgStep n)) (bus : MsgBus n) (goal : MsgBus n → Prop) : Prop :=
  ∃ more bus' answers, (∀ s ∈ more, Flows s) ∧ Machine.exec step bus more = some (bus', answers) ∧
    Inv parentTypes workerTypes (steps ++ more) bus' ∧ goal bus'

theorem Reaches.here {goal : MsgBus n → Prop} (h : Inv parentTypes workerTypes steps bus)
    (hgoal : goal bus) : Reaches parentTypes workerTypes steps bus goal :=
  ⟨[], bus, [], by simp, rfl, by rwa [List.append_nil], hgoal⟩

/-- One such step first. -/
theorem Reaches.step {goal : MsgBus n → Prop} {s : MsgStep n} (hs : Flows s)
    (hstep : MsgBus.step bus s = some (bus', ()))
    (h : Reaches parentTypes workerTypes (steps ++ [s]) bus' goal) :
    Reaches parentTypes workerTypes steps bus goal := by
  obtain ⟨more, bus₂, answers, hmore, hexec, hinv, hgoal⟩ := h
  refine ⟨s :: more, bus₂, () :: answers, ?_,
    Machine.exec_cons_eq_some.mpr ⟨bus', (), answers, hstep, hexec, rfl⟩, ?_, hgoal⟩
  · intro s' hs'
    rcases List.mem_cons.mp hs' with rfl | hs'
    · exact hs
    · exact hmore s' hs'
  · rwa [List.append_assoc, List.singleton_append] at hinv

/-- One run after the other. -/
theorem Reaches.trans {first second : MsgBus n → Prop}
    (h : Reaches parentTypes workerTypes steps bus first)
    (hnext : ∀ more bus', (∀ s ∈ more, Flows s) → Inv parentTypes workerTypes (steps ++ more) bus' →
      first bus' → Reaches parentTypes workerTypes (steps ++ more) bus' second) :
    Reaches parentTypes workerTypes steps bus second := by
  obtain ⟨more, bus₁, answers, hmore, hexec, hinv, hfirst⟩ := h
  obtain ⟨more', bus₂, answers', hmore', hexec', hinv', hsecond⟩ :=
    hnext more bus₁ hmore hinv hfirst
  refine ⟨more ++ more', bus₂, answers ++ answers', ?_, ?_, ?_, hsecond⟩
  · intro s hs
    exact (List.mem_append.mp hs).elim (hmore s) (hmore' s)
  · exact Machine.exec_append_eq_some.mpr ⟨bus₁, answers, answers', hexec, hexec', rfl⟩
  · rwa [← List.append_assoc]

/-! ## Emptying one direction -/

theorem Inv.up_holds (h : Inv parentTypes workerTypes steps bus) (u : Fin n) :
    ∃ msgs, (bus.up u).Holds msgs := by
  obtain ⟨handled, -, hups⟩ := h
  obtain ⟨inUp, -, hholds⟩ := hups u
  exact ⟨_, hholds⟩

theorem Inv.down_holds (h : Inv parentTypes workerTypes steps bus) (v : Fin n) :
    ∃ msgs, (bus.down v).Holds msgs := by
  obtain ⟨handled, hdowns, -⟩ := h
  obtain ⟨inDown, hholds, -⟩ := hdowns.down v
  exact ⟨_, hholds⟩

/-- A step that only moves bytes can be taken. -/
theorem flow_step (hn : n ≤ 255) (hfine : ∀ s ∈ steps, Fine parentTypes s)
    (h : Inv parentTypes workerTypes steps bus) {s : MsgStep n} (hs : Flows s) :
    ∃ bus', step bus s = some (bus', ()) ∧ Inv parentTypes workerTypes (steps ++ [s]) bus' := by
  apply step_inv hn ?_ h
  intro s' hs'
  rcases List.mem_append.mp hs' with hs' | hs'
  · exact hfine s' hs'
  · rw [List.mem_singleton.mp hs']
    exact hs.fine

theorem fine_concat (hfine : ∀ s ∈ steps, Fine parentTypes s) {more : List (MsgStep n)}
    (hmore : ∀ s ∈ more, Flows s) : ∀ s ∈ steps ++ more, Fine parentTypes s := by
  intro s hs
  exact (List.mem_append.mp hs).elim (hfine s) (fun hs => (hmore s hs).fine)

/-- The parent can get all that a worker has sent. -/
theorem drain_up (hn : n ≤ 255) (hfine : ∀ s ∈ steps, Fine parentTypes s)
    (h : Inv parentTypes workerTypes steps bus) (u : Fin n) :
    Reaches parentTypes workerTypes steps bus
      (fun bus' => (bus'.up u).remaining = [] ∧ ∀ u', u' ≠ u → bus'.up u' = bus.up u') := by
  induction hwork : (bus.up u).work using Nat.strongRecOn generalizing steps bus with
  | ind k ih =>
      obtain ⟨msgs, hholds⟩ := h.up_holds u
      -- a step of the direction, and then the others by induction
      have hgo : ∀ (s : MsgStep n) (c : MsgConn) (bus' : MsgBus n), Flows s →
          step bus s = some (bus', ()) → Inv parentTypes workerTypes (steps ++ [s]) bus' →
          bus'.up = Function.update bus.up u c → c.work < (bus.up u).work →
          Reaches parentTypes workerTypes steps bus
            (fun bus' => (bus'.up u).remaining = [] ∧ ∀ u', u' ≠ u → bus'.up u' = bus.up u') := by
        intro s c bus₁ hs hstep hinv hup hless
        have hfine₁ : ∀ t ∈ steps ++ [s], Fine parentTypes t :=
          fine_concat hfine (by simpa using hs)
        have hless₁ : (bus₁.up u).work < k := by
          rw [hup, Function.update_self, ← hwork]
          exact hless
        obtain ⟨more, bus₂, answers, hmore, hexec, hinv₂, hempty, hothers⟩ :=
          ih _ hless₁ hfine₁ hinv rfl
        refine Reaches.step hs hstep ⟨more, bus₂, answers, hmore, hexec, hinv₂, hempty, ?_⟩
        intro u' hu'
        rw [hothers u' hu', hup, Function.update_of_ne hu']
      by_cases hqueue : (bus.up u).sender.sendQueue = []
      · by_cases hpipe : (bus.up u).pipe = []
        · exact Reaches.here h ⟨MsgConn.remaining_eq_nil hholds hqueue hpipe, fun _ _ => rfl⟩
        · obtain ⟨bus₁, hstep, hinv⟩ := flow_step hn hfine h (s := .parentRead u 1) trivial
          refine hgo (.parentRead u 1) _ bus₁ trivial hstep hinv ?_ (MsgConn.work_read hholds hpipe)
          obtain ⟨bus₂, hrun, hbus₂⟩ := Option.map_eq_some_iff.mp hstep
          rw [← (Prod.mk.inj hbus₂).1]
          exact foldlM_keeps (g := MsgBus.up) (fun _ _ _ => parentRecvData_up) hrun
      · obtain ⟨bus₁, hstep, hinv⟩ := flow_step hn hfine h (s := .workerWrite u (.room 1)) trivial
        refine hgo (.workerWrite u (.room 1)) _ bus₁ trivial hstep hinv ?_
          (MsgConn.work_write hholds hqueue)
        rw [← (Prod.mk.inj (Option.some.inj hstep)).1]

/-- A worker can get all that the parent has handed on to it. -/
theorem drain_down (hn : n ≤ 255) (hfine : ∀ s ∈ steps, Fine parentTypes s)
    (h : Inv parentTypes workerTypes steps bus) (v : Fin n) :
    Reaches parentTypes workerTypes steps bus
      (fun bus' => (bus'.down v).remaining = [] ∧ bus'.up = bus.up ∧
        ∀ v', v' ≠ v → bus'.down v' = bus.down v') := by
  induction hwork : (bus.down v).work using Nat.strongRecOn generalizing steps bus with
  | ind k ih =>
      obtain ⟨msgs, hholds⟩ := h.down_holds v
      have hgo : ∀ (s : MsgStep n) (c : MsgConn) (bus' : MsgBus n), Flows s →
          step bus s = some (bus', ()) → Inv parentTypes workerTypes (steps ++ [s]) bus' →
          bus'.up = bus.up → bus'.down = Function.update bus.down v c →
          c.work < (bus.down v).work →
          Reaches parentTypes workerTypes steps bus
            (fun bus' => (bus'.down v).remaining = [] ∧ bus'.up = bus.up ∧
              ∀ v', v' ≠ v → bus'.down v' = bus.down v') := by
        intro s c bus₁ hs hstep hinv hup hdown hless
        have hfine₁ : ∀ t ∈ steps ++ [s], Fine parentTypes t :=
          fine_concat hfine (by simpa using hs)
        have hless₁ : (bus₁.down v).work < k := by
          rw [hdown, Function.update_self, ← hwork]
          exact hless
        obtain ⟨more, bus₂, answers, hmore, hexec, hinv₂, hempty, hup₂, hothers⟩ :=
          ih _ hless₁ hfine₁ hinv rfl
        refine Reaches.step hs hstep
          ⟨more, bus₂, answers, hmore, hexec, hinv₂, hempty, hup₂.trans hup, ?_⟩
        intro v' hv'
        rw [hothers v' hv', hdown, Function.update_of_ne hv']
      by_cases hqueue : (bus.down v).sender.sendQueue = []
      · by_cases hpipe : (bus.down v).pipe = []
        · exact Reaches.here h
            ⟨MsgConn.remaining_eq_nil hholds hqueue hpipe, rfl, fun _ _ => rfl⟩
        · obtain ⟨bus₁, hstep, hinv⟩ := flow_step hn hfine h (s := .workerRead v 1) trivial
          obtain ⟨bus₂, hrun, hbus₂⟩ := Option.map_eq_some_iff.mp hstep
          have hconns := foldlM_keeps (g := fun b : MsgBus n => (b.up, b.down))
            (fun _ _ _ => workerRecvData_conns) hrun
          rw [(Prod.mk.inj hbus₂).1] at hconns
          exact hgo (.workerRead v 1) _ bus₁ trivial hstep hinv (Prod.mk.inj hconns).1
            (Prod.mk.inj hconns).2 (MsgConn.work_read hholds hpipe)
      · obtain ⟨bus₁, hstep, hinv⟩ := flow_step hn hfine h (s := .parentWrite v (.room 1)) trivial
        have hbus₁ := (Prod.mk.inj (Option.some.inj hstep)).1
        exact hgo (.parentWrite v (.room 1)) _ bus₁ trivial hstep hinv (by rw [← hbus₁])
          (by rw [← hbus₁]) (MsgConn.work_write hholds hqueue)

/-! ## Emptying all of them -/

theorem drain_ups (hn : n ≤ 255) (us : List (Fin n)) (hfine : ∀ s ∈ steps, Fine parentTypes s)
    (h : Inv parentTypes workerTypes steps bus) :
    Reaches parentTypes workerTypes steps bus
      (fun bus' => ∀ u ∈ us, (bus'.up u).remaining = []) := by
  induction us with
  | nil => exact Reaches.here h (by simp)
  | cons u us ih =>
      refine ih.trans ?_
      intro more bus₁ hmore hinv hempty
      obtain ⟨more', bus₂, answers, hmore', hexec, hinv', hone, hothers⟩ :=
        drain_up hn (fine_concat hfine hmore) hinv u
      refine ⟨more', bus₂, answers, hmore', hexec, hinv', ?_⟩
      intro u' hu'
      by_cases heq : u' = u
      · rw [heq]
        exact hone
      · rw [hothers u' heq]
        exact hempty u' ((List.mem_cons.mp hu').resolve_left heq)

theorem drain_downs (hn : n ≤ 255) (vs : List (Fin n)) (hfine : ∀ s ∈ steps, Fine parentTypes s)
    (h : Inv parentTypes workerTypes steps bus) :
    Reaches parentTypes workerTypes steps bus
      (fun bus' => bus'.up = bus.up ∧ ∀ v ∈ vs, (bus'.down v).remaining = []) := by
  induction vs with
  | nil => exact Reaches.here h ⟨rfl, by simp⟩
  | cons v vs ih =>
      refine ih.trans ?_
      rintro more bus₁ hmore hinv ⟨hup, hempty⟩
      obtain ⟨more', bus₂, answers, hmore', hexec, hinv', hone, hup', hothers⟩ :=
        drain_down hn (fine_concat hfine hmore) hinv v
      refine ⟨more', bus₂, answers, hmore', hexec, hinv', hup'.trans hup, ?_⟩
      intro v' hv'
      by_cases heq : v' = v
      · rw [heq]
        exact hone
      · rw [hothers v' heq]
        exact hempty v' ((List.mem_cons.mp hv').resolve_left heq)

/-! ## Results -/

/-- Nothing is left to write or to read. -/
def Quiet (bus : MsgBus n) : Prop :=
  ∀ u, (bus.up u).remaining = [] ∧ (bus.down u).remaining = []

/-- What an invariant says of what has been received. -/
theorem Inv.received (h : Inv parentTypes workerTypes steps bus) :
    (∀ u v, (bus.received v).filter (isFrom u) <+: relayed parentTypes u v (sentBy u steps)) ∧
      (∀ v, ∀ buf ∈ bus.received v, ∃ u, buf ∈ relayed parentTypes u v (sentBy u steps)) ∧
      (∀ v, bus.workerCalls v = (bus.received v).filter
        (fun buf => decide ((KoreMsg.ofBytes buf).id ∈ workerTypes v))) ∧
      (∀ u, bus.parentCalls.filter (isFrom u) <+: forParent parentTypes (sentBy u steps)) ∧
      ∀ buf ∈ bus.parentCalls, ∃ u, buf ∈ forParent parentTypes (sentBy u steps) := by
  obtain ⟨handled, hdowns, hups⟩ := h
  have hsplit : ∀ u, ∃ inUp, sentBy u steps = handled u ++ inUp := by
    intro u
    obtain ⟨inUp, hsent, -⟩ := hups u
    exact ⟨inUp, hsent⟩
  refine ⟨?_, ?_, hdowns.workerCalls, ?_, ?_⟩
  · intro u v
    obtain ⟨inUp, hsent⟩ := hsplit u
    obtain ⟨inDown, -, hfrom, -⟩ := hdowns.down v
    rw [hsent, relayed_append, ← hfrom u, List.filter_append, List.append_assoc]
    exact List.prefix_append _ _
  · intro v buf hbuf
    obtain ⟨inDown, -, -, hall⟩ := hdowns.down v
    obtain ⟨u, hu⟩ := hall buf (List.mem_append_left _ hbuf)
    obtain ⟨inUp, hsent⟩ := hsplit u
    exact ⟨u, by rw [hsent, relayed_append]; exact List.mem_append_left _ hu⟩
  · intro u
    obtain ⟨inUp, hsent⟩ := hsplit u
    rw [hsent, forParent_append, hdowns.parentCalls u]
    exact List.prefix_append _ _
  · intro buf hbuf
    obtain ⟨u, hu⟩ := hdowns.parentOnly buf hbuf
    obtain ⟨inUp, hsent⟩ := hsplit u
    exact ⟨u, by rw [hsent, forParent_append]; exact List.mem_append_left _ hu⟩

theorem Inv.received_of_quiet (h : Inv parentTypes workerTypes steps bus) (hquiet : Quiet bus) :
    (∀ u v, (bus.received v).filter (isFrom u) = relayed parentTypes u v (sentBy u steps)) ∧
      ∀ u, bus.parentCalls.filter (isFrom u) = forParent parentTypes (sentBy u steps) := by
  obtain ⟨handled, hdowns, hups⟩ := h
  have hsent : ∀ u, sentBy u steps = handled u := by
    intro u
    obtain ⟨inUp, hsent, hholds⟩ := hups u
    have hnone := List.map_eq_nil_iff.mp (hholds.eq_nil (hquiet u).1)
    rw [hnone, List.append_nil] at hsent
    exact hsent
  constructor
  · intro u v
    obtain ⟨inDown, hholds, hfrom, -⟩ := hdowns.down v
    rw [hsent, ← hfrom u, hholds.eq_nil (hquiet v).2, List.append_nil]
  · intro u
    rw [hsent, hdowns.parentCalls u]

/-- However the sends, writes and reads of the workers and the parent are interleaved, no side ends
with a fatal error; a worker gets of each other one the messages that are for it, once, in order and
with nothing left out between them, and nothing else; the callbacks are called with those of the
registered types; and the parent gets its own in the same way. -/
theorem delivers_in_order (parentTypes : List UInt8) (workerTypes : Fin n → List UInt8)
    (hn : n ≤ 255) (hfine : ∀ s ∈ steps, Fine parentTypes s) :
    ∃ bus answers, Machine.exec step (new parentTypes workerTypes) steps = some (bus, answers) ∧
      (∀ u v, (bus.received v).filter (isFrom u) <+: relayed parentTypes u v (sentBy u steps)) ∧
      (∀ v, ∀ buf ∈ bus.received v, ∃ u, buf ∈ relayed parentTypes u v (sentBy u steps)) ∧
      (∀ v, bus.workerCalls v = (bus.received v).filter
        (fun buf => decide ((KoreMsg.ofBytes buf).id ∈ workerTypes v))) ∧
      (∀ u, bus.parentCalls.filter (isFrom u) <+: forParent parentTypes (sentBy u steps)) ∧
      ∀ buf ∈ bus.parentCalls, ∃ u, buf ∈ forParent parentTypes (sentBy u steps) := by
  obtain ⟨bus, answers, hexec, hinv⟩ := exec_inv parentTypes workerTypes hn hfine
  exact ⟨bus, answers, hexec, hinv.received⟩

theorem delivers_in_order_two :
    ∃ (bus : MsgBus 2) (answers : List Unit),
      Machine.exec step (new [koreMsgAccesslog] (fun _ => [koreMsgWebsocket]))
        [.send 0 koreMsgWorkerAll koreMsgWebsocket [130, 0] 0 0, .workerWrite 0 (.room 13),
          .parentRead 0 12, .workerWrite 0 (.room 1), .parentRead 0 9] = some (bus, answers) ∧
        ∀ v, ∀ buf ∈ bus.received v, ∃ u, buf ∈ relayed [koreMsgAccesslog] u v
          (sentBy u [.send 0 koreMsgWorkerAll koreMsgWebsocket [130, 0] 0 0,
            .workerWrite 0 (.room 13), .parentRead 0 12, .workerWrite 0 (.room 1),
            .parentRead 0 9]) := by
  have hfine : ∀ s ∈ ([.send 0 koreMsgWorkerAll koreMsgWebsocket [130, 0] 0 0,
      .workerWrite 0 (.room 13), .parentRead 0 12, .workerWrite 0 (.room 1),
      .parentRead 0 9] : List (MsgStep 2)), Fine [koreMsgAccesslog] s := by
    simp [Fine, KoreMsg.size, koreMsgAccesslog, koreMsgWebsocket]
  obtain ⟨bus, answers, hexec, -, hall, -⟩ :=
    delivers_in_order [koreMsgAccesslog] (fun _ : Fin 2 => [koreMsgWebsocket]) (by decide) hfine
  exact ⟨bus, answers, hexec, hall⟩

/-- Whatever state the workers and the parent have come to, all that has been sent can still be
delivered by writing and reading alone; and where nothing is left to write or to read, every worker
has got all messages that are for it, and the parent its own. -/
theorem delivers_all (parentTypes : List UInt8) (workerTypes : Fin n → List UInt8)
    (hn : n ≤ 255) (hfine : ∀ s ∈ steps, Fine parentTypes s) :
    ∃ more, (∀ s ∈ more, Flows s) ∧
      ∃ bus answers,
        Machine.exec step (new parentTypes workerTypes) (steps ++ more) = some (bus, answers) ∧
        Quiet bus ∧
        (∀ u v, (bus.received v).filter (isFrom u) = relayed parentTypes u v (sentBy u steps)) ∧
        ∀ u, bus.parentCalls.filter (isFrom u) = forParent parentTypes (sentBy u steps) := by
  obtain ⟨bus, answers, hexec, hinv⟩ := exec_inv parentTypes workerTypes hn hfine
  have hdrained : Reaches parentTypes workerTypes steps bus Quiet := by
    refine (drain_ups hn (List.finRange n) hfine hinv).trans ?_
    intro more bus₁ hmore hinv₁ hempty
    obtain ⟨more', bus₂, answers', hmore', hexec', hinv₂, hup, hdown⟩ :=
      drain_downs hn (List.finRange n) (fine_concat hfine hmore) hinv₁
    refine ⟨more', bus₂, answers', hmore', hexec', hinv₂, ?_⟩
    intro u
    exact ⟨hup ▸ hempty u (List.mem_finRange u), hdown u (List.mem_finRange u)⟩
  obtain ⟨more, bus', answers', hmore, hexec', hinv', hquiet⟩ := hdrained
  have hreceived := hinv'.received_of_quiet hquiet
  simp only [sentBy_append_of_flows hmore] at hreceived
  exact ⟨more, hmore, bus', answers ++ answers',
    Machine.exec_append_eq_some.mpr ⟨bus, answers, answers', hexec, hexec', rfl⟩, hquiet, hreceived⟩

theorem delivers_all_two :
    ∃ more : List (MsgStep 2), (∀ s ∈ more, Flows s) ∧
      ∃ (bus : MsgBus 2) (answers : List Unit),
        Machine.exec step (new [koreMsgAccesslog] (fun _ => [koreMsgWebsocket]))
          ([.send 0 koreMsgWorkerAll koreMsgWebsocket [130, 0] 0 0] ++ more) =
            some (bus, answers) ∧
        (bus.received 1).filter (isFrom (0 : Fin 2)) =
          [[2, 0, 0, 0, 1, 0, 0, 0, 2, 0, 0, 0, 130, 0]] := by
  have hfine : ∀ s ∈ ([.send 0 koreMsgWorkerAll koreMsgWebsocket [130, 0] 0 0] :
      List (MsgStep 2)), Fine [koreMsgAccesslog] s := by
    simp [Fine, KoreMsg.size, koreMsgAccesslog, koreMsgWebsocket]
  obtain ⟨more, hmore, bus, answers, hexec, -, hall, -⟩ :=
    delivers_all [koreMsgAccesslog] (fun _ : Fin 2 => [koreMsgWebsocket]) (by decide) hfine
  exact ⟨more, hmore, bus, answers, hexec, (hall 0 1).trans (by decide)⟩

end MsgBus

end Sparc
