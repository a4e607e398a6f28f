import Sparc.Model.WebSocket
import Mathlib.Data.List.TakeWhile

/-! # Sending leaves the connection open

`globalBroadcast` of raw bytes disconnects the connection it is called on; `close` does not.
-/

namespace Sparc

namespace WsCall

/-- The call of the other overload with the same bytes. A text has no zero byte. -/
def twin? : WsCall → Option WsCall
  | .send str op => some (.sendData (strBytes str) op)
  | .sendData data op => if 0 ∈ data then none else some (.send data op)
  | .broadcast str op => some (.broadcastData (strBytes str) op)
  | .broadcastData data op => if 0 ∈ data then none else some (.broadcast data op)
  | .globalBroadcast str op => some (.globalBroadcastData (strBytes str) op)
  | .globalBroadcastData data op => if 0 ∈ data then none else some (.globalBroadcast data op)
  | .close => none

/-- The two overloads of `globalBroadcast`. -/
def isGlobal : WsCall → Bool
  | .globalBroadcast _ _ | .globalBroadcastData _ _ => true
  | .send _ _ | .sendData _ _ | .broadcast _ _ | .broadcastData _ _ | .close => false

end WsCall

namespace WsWorld

/-- The object of an open connection. -/
structure Live (w : WsWorld) : Prop where
  ws : w.ws.isSome
  open_ : w.connection.state ≠ .disconnecting

/-- The object has its connection: it has not been closed. -/
def connected (w : WsWorld) : Bool := w.ws.any WebSocketImpl.conn

/-- The call goes through, and disconnects the connection if it is `close` and leaves its state
alone if it is not. The other overload does the same with the same bytes. -/
structure Calm (w : WsWorld) (c : WsCall) : Prop where
  state : ∃ w', step w c = some (w', ()) ∧
    (w'.connection.state = .disconnecting ↔ c = .close) ∧
    (c ≠ .close → w'.connection.state = w.connection.state)
  twin : ∀ t ∈ c.twin?, step w t = step w c

/-- The call is no `close`, and no `globalBroadcast` of an object that has its connection. -/
def Quiet (w : WsWorld) (c : WsCall) : Prop :=
  c ≠ .close ∧ (w.connected = true → c.isGlobal = false)

instance (w : WsWorld) (c : WsCall) : Decidable (w.Quiet c) := inferInstanceAs (Decidable (_ ∧ _))

/-! ## What a call does -/

theorem strBytes_of_notMem {data : List UInt8} (h : 0 ∉ data) : strBytes data = data := by
  rw [strBytes, List.takeWhile_eq_self_iff]
  intro b hb
  simpa using ne_of_mem_of_not_mem hb h

section Calls

variable {w w' : WsWorld} {c : WsCall}

/-- Without a disconnect the state of the connection stays as it is, and the object is there. -/
theorem call_some_state (h : call some w c = some w') :
    w'.connection.state = w.connection.state := by
  obtain ⟨ws, hws, hcall⟩ := Option.bind_eq_some_iff.mp h
  cases c with
  | globalBroadcastData data op =>
      dsimp only at hcall
      split at hcall
      · cases hcall
        rfl
      · cases hcall
        rfl
  | _ =>
      cases hcall
      split <;> rfl

theorem foldlM_call_state {calls : List WsCall} (h : calls.foldlM (call some) w = some w') :
    w'.connection.state = w.connection.state := by
  induction calls generalizing w with
  | nil =>
      cases h
      rfl
  | cons c calls ih =>
      rw [List.foldlM_cons] at h
      obtain ⟨w₁, hcall, hrest⟩ := Option.bind_eq_some_iff.mp h
      exact (ih hrest).trans (call_some_state hcall)

theorem onWebsocketDisconnect_state (h : onWebsocketDisconnect w = some w') :
    w'.connection.state = w.connection.state := by
  unfold onWebsocketDisconnect at h
  split at h
  · obtain ⟨ws, -, hdelete⟩ := Option.bind_eq_some_iff.mp h
    obtain ⟨w₁, hcallback, rfl⟩ := Option.map_eq_some_iff.mp hdelete
    change w₁.connection.state = w.connection.state
    split at hcallback
    · exact foldlM_call_state hcallback
    · cases hcallback
      rfl
  · cases h

/-- A disconnect that comes back has done its work. -/
theorem disconnect_state (h : disconnect w = some w') :
    w'.connection.state = .disconnecting := by
  unfold disconnect at h
  split at h
  · next hstate =>
      cases h
      exact hstate
  · exact onWebsocketDisconnect_state h

/-- A quiet call queues its frame and leaves connection and object alone. -/
theorem Live.step_quiet (h : w.Live) (hquiet : w.Quiet c) :
    ∃ w', step w c = some (w', ()) ∧ w'.connection.state = w.connection.state ∧
      w'.ws = w.ws := by
  obtain ⟨ws, hws⟩ := Option.isSome_iff_exists.mp h.ws
  have hconn : w.connected = ws.conn := by rw [connected, hws]; rfl
  rw [step, call, hws, Option.bind_some]
  cases c with
  | close => exact absurd rfl hquiet.1
  | globalBroadcastData data op =>
      have hclosed : ws.conn = false := by
        cases hc : ws.conn with
        | false => rfl
        | true => cases hquiet.2 (hconn.trans hc)
      exact ⟨w, by simp only [hclosed, Bool.false_eq_true, if_false, Option.map_some], rfl, hws⟩
  | _ =>
      refine ⟨_, rfl, ?_, ?_⟩
      · split <;> rfl
      · split
        · exact hws
        · exact hws

theorem Live.of_same (h : w.Live) (hstate : w'.connection.state = w.connection.state)
    (hws : w'.ws = w.ws) : w'.Live :=
  ⟨hws ▸ h.ws, hstate ▸ h.open_⟩

theorem Quiet.of_same (h : w.Quiet c) (hws : w'.ws = w.ws) : w'.Quiet c := by
  rw [Quiet, connected, hws]
  exact h

/-- A global broadcast of bytes disconnects, or the process is lost in what it takes for the
object. -/
theorem globalBroadcastData_state (hconn : w.connected = true) {data : List UInt8} {op : UInt8}
    {u : Unit} (h : step w (.globalBroadcastData data op) = some (w', u)) :
    w'.connection.state = .disconnecting := by
  obtain ⟨w₁, hcall, heq⟩ := Option.map_eq_some_iff.mp h
  cases heq
  obtain ⟨ws, hws, hdisc⟩ := Option.bind_eq_some_iff.mp hcall
  have htrue : ws.conn = true := by
    rw [connected, hws] at hconn
    exact hconn
  simp only [htrue, if_true] at hdisc
  exact disconnect_state hdisc

/-- Of the other calls the two overloads are one. -/
theorem step_twin {t : WsCall} (hglobal : w.connected = true → c.isGlobal = false)
    (ht : t ∈ c.twin?) : step w t = step w c := by
  have hclosed : ∀ ws, w.ws = some ws → c.isGlobal = true → ws.conn = false := by
    intro ws hws hc
    cases hconn : ws.conn with
    | false => rfl
    | true =>
        have hconnected : w.connected = true := by rw [connected, hws]; exact hconn
        rw [hglobal hconnected] at hc
        cases hc
  cases hws : w.ws with
  | none => rw [step, step, call, call, hws]; rfl
  | some ws =>
      cases c with
      | close => cases ht
      | globalBroadcast str op =>
          cases ht
          rw [step, step, call, call, hws]
          simp only [Option.bind_some, hclosed ws hws rfl, Bool.false_eq_true, if_false]
      | globalBroadcastData data op =>
          simp only [WsCall.twin?] at ht
          split at ht
          · cases ht
          · cases ht
            rw [step, step, call, call, hws]
            simp only [Option.bind_some, hclosed ws hws rfl, Bool.false_eq_true, if_false]
      | send str op =>
          cases ht
          rw [step, step, call, call, hws]
      | broadcast str op =>
          cases ht
          rw [step, step, call, call, hws]
      | sendData data op =>
          simp only [WsCall.twin?] at ht
          split at ht
          · cases ht
          · next hzero =>
              cases ht
              rw [step, step, call, call, hws]
              simp only [Option.bind_some, strBytes_of_notMem hzero]
      | broadcastData data op =>
          simp only [WsCall.twin?] at ht
          split at ht
          · cases ht
          · next hzero =>
              cases ht
              rw [step, step, call, call, hws]
              simp only [Option.bind_some, strBytes_of_notMem hzero]

/-- The object of an open connection is calm exactly in its quiet calls. -/
theorem Live.calm_iff (h : w.Live) : w.Calm c ↔ w.Quiet c := by
  constructor
  · intro hcalm
    obtain ⟨w', hstep, hdisc, hsame⟩ := hcalm.state
    have hclose : c ≠ .close := by
      rintro rfl
      obtain ⟨ws, hws⟩ := Option.isSome_iff_exists.mp h.ws
      have hopen : w'.connection.state = w.connection.state := by
        rw [step, call, hws] at hstep
        cases hstep
        split <;> rfl
      exact h.open_ (hopen.symm.trans (hdisc.mpr rfl))
    have hopen : w'.connection.state ≠ .disconnecting := hsame hclose ▸ h.open_
    refine ⟨hclose, ?_⟩
    intro hconn
    cases c with
    | globalBroadcast str op =>
        have htwin := hcalm.twin _ rfl
        rw [hstep] at htwin
        exact absurd (globalBroadcastData_state hconn htwin) hopen
    | globalBroadcastData data op => exact absurd (globalBroadcastData_state hconn hstep) hopen
    | _ => rfl
  · intro hquiet
    obtain ⟨w', hstep, hstate, -⟩ := h.step_quiet hquiet
    refine ⟨⟨w', hstep, ?_, fun _ => hstate⟩, fun t ht => step_twin hquiet.2 ht⟩
    exact iff_of_false (hstate ▸ h.open_) hquiet.1

end Calls

/-! ## Sequences of calls -/

/-- A sequence of calls on the object of an open connection is calm exactly if none is a `close`,
nor a `globalBroadcast` of an object that has its connection. -/
theorem always_calm_iff {w : WsWorld} (h : w.Live) (calls : List WsCall) :
    Machine.Always step Calm w calls ↔ ∀ c ∈ calls, w.Quiet c := by
  induction calls generalizing w with
  | nil => simp [Machine.Always]
  | cons c calls ih =>
      rw [Machine.Always, h.calm_iff, List.forall_mem_cons]
      apply and_congr_right
      intro hquiet
      obtain ⟨w', hstep, hstate, hws⟩ := h.step_quiet hquiet
      have hrest := ih (h.of_same hstate hws)
      have hsame : (∀ d ∈ calls, w'.Quiet d) ↔ ∀ d ∈ calls, w.Quiet d :=
        forall₂_congr (fun d _ => ⟨fun hd => hd.of_same hws.symm, fun hd => hd.of_same hws⟩)
      rw [hstep, ← hsame, ← hrest]
      constructor
      · intro hall
        exact hall (w', ()) rfl
      · intro hall r hr
        cases hr
        exact hall

theorem Live.exec_quiet {w w' : WsWorld} (h : w.Live) {calls : List WsCall}
    (hquiet : ∀ c ∈ calls, c ≠ .close ∧ c.isGlobal = false) {outputs : List Unit}
    (hexec : Machine.exec step w calls = some (w', outputs)) : w'.Live := by
  induction calls generalizing w outputs with
  | nil =>
      cases hexec
      exact h
  | cons c calls ih =>
      obtain ⟨w₁, o, rest, hstep, hrest, -⟩ := Machine.exec_cons_eq_some.mp hexec
      obtain ⟨hc, hcalls⟩ := List.forall_mem_cons.mp hquiet
      obtain ⟨w₂, hstep', hstate, hws⟩ := h.step_quiet ⟨hc.1, fun _ => hc.2⟩
      rw [hstep'] at hstep
      cases hstep
      exact ih (h.of_same hstate hws) hcalls hrest

/-- The object is live behind an `onConnect` that makes quiet calls. -/
theorem live_of_connect {connection : Connection} {onConnect onDisconnect : Option (List WsCall)}
    {others : List Connection} {messages : List (List UInt8)} {w : WsWorld}
    (hopen : connection.state ≠ .disconnecting)
    (hquiet : ∀ c ∈ onConnect.getD [], c ≠ .close ∧ c.isGlobal = false)
    (h : onWebsocketConnect connection onConnect onDisconnect others messages = some w) :
    w.Live ∧ w.attached = true := by
  obtain ⟨⟨w₁, outputs⟩, hexec, rfl⟩ := Option.map_eq_some_iff.mp h
  have hstart :
      Live ⟨connection, some ⟨true, true, false⟩, false, onDisconnect, others, messages⟩ :=
    ⟨rfl, hopen⟩
  have hlive := hstart.exec_quiet hquiet hexec
  exact ⟨⟨hlive.ws, hlive.open_⟩, rfl⟩

/-! ## An object with a callback -/

/-- An open connection next to another one. -/
def pair : WsWorld where
  connection := ⟨.established, true, []⟩
  ws := some ⟨true, true, false⟩
  attached := true
  onDisconnect := some []
  others := [⟨.established, true, []⟩]
  messages := []

theorem always_calm_pair :
    Machine.Always step Calm pair [.send [104, 105] 1, .broadcastData [0, 1] 2, .broadcast [] 1] :=
  (always_calm_iff ⟨rfl, by decide⟩ _).mpr (by decide)

/-- Two global broadcasts of bytes: the first disconnects, and the second is on an object that has
been deleted. -/
theorem globalBroadcast_disconnects :
    ¬ (∀ (w : WsWorld) (calls : List WsCall), w.Live →
      WsCall.close ∉ calls → Machine.Always step Calm w calls) ∧
    Machine.exec step pair [.globalBroadcastData [1] 2, .globalBroadcastData [1] 2] = none := by
  refine ⟨?_, by decide⟩
  intro h
  obtain ⟨hcalm, -⟩ := h pair [.globalBroadcastData [1] 2] ⟨rfl, by decide⟩ (by decide)
  obtain ⟨w', hstep, hdisc, -⟩ := hcalm.state
  exact WsCall.noConfusion (hdisc.mp (globalBroadcastData_state rfl hstep))

end WsWorld

end Sparc
