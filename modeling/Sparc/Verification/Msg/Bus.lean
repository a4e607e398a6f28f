import Sparc.Library.Machine
import Sparc.Verification.Msg.Channel

/-! # Messages get to the workers once and in order -/

namespace Sparc

namespace MsgBus

variable {n : ℕ} {parentTypes : List UInt8} {workerTypes : Fin n → List UInt8}

/-! ## What is to be delivered -/

/-- A message as it is sent: the structure and the data. -/
abbrev Packet := KoreMsg × List UInt8

/-- The bytes of a message. -/
def wire (p : Packet) : List UInt8 := p.1.bytes ++ p.2

/-- The message that a worker sends. -/
def packet (worker : Fin n) (dst : UInt16) (id : UInt8) (data : List UInt8) (pad₁ : UInt8)
    (pad₂ : UInt16) : Packet :=
  (⟨id, pad₁, workerId worker, dst, pad₂, UInt32.ofNat data.length⟩, data)

/-- The messages that a worker sends in the steps. -/
def sentBy (u : Fin n) : List (MsgStep n) → List Packet
  | [] => []
  | .send worker dst id data pad₁ pad₂ :: steps =>
      if worker = u then packet worker dst id data pad₁ pad₂ :: sentBy u steps else sentBy u steps
  | _ :: steps => sentBy u steps

/-- Whether the parent hands a message on to the worker. -/
def addressed (parentTypes : List UInt8) (v : Fin n) (p : Packet) : Bool :=
  p.1.id ∉ parentTypes ∧ (p.1.dst = koreMsgWorkerAll ∨ workerId v = p.1.dst)

/-- The message as the worker gets it, which finds itself as the destination. -/
def readdress (v : Fin n) (p : Packet) : List UInt8 := wire ({ p.1 with dst := workerId v }, p.2)

/-- What a worker has to get of the messages of another one. -/
def relayed (parentTypes : List UInt8) (u v : Fin n) (ps : List Packet) : List (List UInt8) :=
  if u = v then [] else (ps.filter (addressed parentTypes v)).map (readdress v)

/-- The messages for the parent itself. -/
def forParent (parentTypes : List UInt8) (ps : List Packet) : List (List UInt8) :=
  (ps.filter (fun p => decide (p.1.id ∈ parentTypes))).map wire

/-- Whether a message is from the worker. -/
def isFrom (u : Fin n) (buf : List UInt8) : Bool := (KoreMsg.ofBytes buf).src = workerId u

/-- What is asked of a worker that sends: there is data, of a length that fits in with the
structure, and a message of a type that the parent has registered is for the parent. -/
def Fine (parentTypes : List UInt8) : MsgStep n → Prop
  | .send _ dst id data _ _ =>
      data ≠ [] ∧ KoreMsg.size + data.length < 4294967296 ∧ (id ∈ parentTypes → dst = koreMsgParent)
  | _ => True

/-- A message that has been sent so. -/
structure Proper (parentTypes : List UInt8) (u : Fin n) (p : Packet) : Prop where
  form : MsgForm (wire p)
  short : (wire p).length < 4294967296
  src : p.1.src = workerId u
  dst : p.1.id ∈ parentTypes → p.1.dst = koreMsgParent

theorem workerId_inj {u v : Fin n} (hn : n ≤ 255) : workerId u = workerId v ↔ u = v := by
  constructor
  · intro h
    have hu := u.isLt
    have hv := v.isLt
    have hnat := congrArg UInt16.toNat h
    rw [workerId, workerId, UInt16.toNat_ofNat', UInt16.toNat_ofNat', Nat.mod_eq_of_lt (by omega),
      Nat.mod_eq_of_lt (by omega)] at hnat
    exact Fin.ext hnat
  · rintro rfl
    rfl

theorem ofBytes_wire (p : Packet) : KoreMsg.ofBytes (wire p) = p.1 :=
  KoreMsg.ofBytes_bytes p.1 p.2

theorem ofBytes_readdress (v : Fin n) (p : Packet) :
    KoreMsg.ofBytes (readdress v p) = { p.1 with dst := workerId v } :=
  KoreMsg.ofBytes_bytes _ p.2

theorem Proper.form_readdress {u v : Fin n} {p : Packet} (h : Proper parentTypes u p) :
    MsgForm (readdress v p) := by
  obtain ⟨m, data, hwire, hlength, hdata⟩ := h.form
  have hm : p.1 = m := by
    rw [← ofBytes_wire, hwire, KoreMsg.ofBytes_bytes]
  have hp : p.2 = data := by
    rw [wire, hm] at hwire
    exact List.append_cancel_left hwire
  exact ⟨_, data, by rw [readdress, wire, hp], by rw [← hlength, ← hm], hdata⟩

theorem isFrom_wire {u u' : Fin n} {p : Packet} (hn : n ≤ 255) (h : Proper parentTypes u p) :
    isFrom u' (wire p) = decide (u = u') := by
  rw [isFrom, ofBytes_wire, h.src, decide_eq_decide]
  exact workerId_inj hn

theorem sentBy_append (u : Fin n) (steps steps' : List (MsgStep n)) :
    sentBy u (steps ++ steps') = sentBy u steps ++ sentBy u steps' := by
  induction steps with
  | nil => rfl
  | cons s steps ih =>
      cases s with
      | send worker dst id data pad₁ pad₂ =>
          simp only [List.cons_append, sentBy]
          split
          · rw [ih, List.cons_append]
          · exact ih
      | workerWrite => exact ih
      | parentWrite => exact ih
      | parentRead => exact ih
      | workerRead => exact ih

theorem relayed_append (u v : Fin n) (ps qs : List Packet) :
    relayed parentTypes u v (ps ++ qs) =
      relayed parentTypes u v ps ++ relayed parentTypes u v qs := by
  rw [relayed, relayed, relayed]
  split
  · rfl
  · rw [List.filter_append, List.map_append]

theorem forParent_append (ps qs : List Packet) :
    forParent parentTypes (ps ++ qs) = forParent parentTypes ps ++ forParent parentTypes qs := by
  rw [forParent, forParent, forParent, List.filter_append, List.map_append]

/-! ## What has been handled -/

/-- One more message of a worker has been handled. -/
def handle (handled : Fin n → List Packet) (w : Fin n) (p : Packet) : Fin n → List Packet :=
  Function.update handled w (handled w ++ [p])

theorem relayed_handle (handled : Fin n → List Packet) (u v w : Fin n) (p : Packet) :
    relayed parentTypes u v (handle handled w p u) =
      relayed parentTypes u v (handled u) ++
        if u = w ∧ w ≠ v ∧ addressed parentTypes v p = true then [readdress v p] else [] := by
  by_cases huw : u = w
  · subst huw
    rw [handle, Function.update_self, relayed_append]
    congr 1
    by_cases huv : u = v
    · simp [relayed, huv]
    · by_cases hp : addressed parentTypes v p = true
      · simp [relayed, huv, hp]
      · simp [relayed, huv, hp]
  · simp [handle, huw]

theorem forParent_handle (handled : Fin n → List Packet) (u w : Fin n) (p : Packet) :
    forParent parentTypes (handle handled w p u) =
      forParent parentTypes (handled u) ++
        if u = w ∧ p.1.id ∈ parentTypes then [wire p] else [] := by
  by_cases huw : u = w
  · subst huw
    rw [handle, Function.update_self, forParent_append]
    congr 1
    by_cases hp : p.1.id ∈ parentTypes
    · simp [forParent, hp]
    · simp [forParent, hp]
  · simp [handle, huw]

/-- Behind the parent: the messages that it has handled are with the workers or on the way to them,
those of one worker in order, and the calls of the callbacks are what has been received of the
registered types. -/
structure Downs (parentTypes : List UInt8) (workerTypes : Fin n → List UInt8)
    (handled : Fin n → List Packet) (bus : MsgBus n) : Prop where
  parent : bus.parentTypes = parentTypes
  workers : bus.workerTypes = workerTypes
  down : ∀ v, ∃ inDown, (bus.down v).Holds inDown ∧
    (∀ u, (bus.received v ++ inDown).filter (isFrom u) = relayed parentTypes u v (handled u)) ∧
    ∀ buf ∈ bus.received v ++ inDown, ∃ u, buf ∈ relayed parentTypes u v (handled u)
  parentCalls : ∀ u, bus.parentCalls.filter (isFrom u) = forParent parentTypes (handled u)
  parentOnly : ∀ buf ∈ bus.parentCalls, ∃ u, buf ∈ forParent parentTypes (handled u)
  workerCalls : ∀ v, bus.workerCalls v =
    (bus.received v).filter (fun buf => decide ((KoreMsg.ofBytes buf).id ∈ workerTypes v))

variable {bus : MsgBus n} {handled : Fin n → List Packet} {w : Fin n} {p : Packet}

/-- Where nothing is added to what is on the way to a worker. -/
theorem down_kept {v : Fin n} (h : Downs parentTypes workerTypes handled bus)
    (hnot : ¬ (w ≠ v ∧ addressed parentTypes v p = true)) :
    ∃ inDown, (bus.down v).Holds inDown ∧
      (∀ u, (bus.received v ++ inDown).filter (isFrom u) =
        relayed parentTypes u v (handle handled w p u)) ∧
      ∀ buf ∈ bus.received v ++ inDown, ∃ u,
        buf ∈ relayed parentTypes u v (handle handled w p u) := by
  obtain ⟨inDown, hholds, hfrom, hall⟩ := h.down v
  have hsame : ∀ u, relayed parentTypes u v (handle handled w p u) =
      relayed parentTypes u v (handled u) := by
    intro u
    rw [relayed_handle, if_neg (fun hu => hnot hu.2), List.append_nil]
  refine ⟨inDown, hholds, fun u => (hfrom u).trans (hsame u).symm, ?_⟩
  intro buf hbuf
  obtain ⟨u, hu⟩ := hall buf hbuf
  exact ⟨u, by rwa [hsame u]⟩

/-- Where the message is added to what is on the way to a worker. -/
theorem down_queued (hn : n ≤ 255) {v : Fin n} (h : Downs parentTypes workerTypes handled bus)
    (hp : Proper parentTypes w p) (hto : w ≠ v ∧ addressed parentTypes v p = true) :
    ∃ inDown, ((bus.down v).queue (readdress v p)).Holds inDown ∧
      (∀ u, (bus.received v ++ inDown).filter (isFrom u) =
        relayed parentTypes u v (handle handled w p u)) ∧
      ∀ buf ∈ bus.received v ++ inDown, ∃ u,
        buf ∈ relayed parentTypes u v (handle handled w p u) := by
  obtain ⟨inDown, hholds, hfrom, hall⟩ := h.down v
  refine ⟨inDown ++ [readdress v p],
    hholds.queue hp.short (fun nb hnb => awaits_message hp.form_readdress hnb), ?_, ?_⟩
  · intro u
    have hsrc : isFrom u (readdress v p) = decide (w = u) := by
      rw [isFrom, ofBytes_readdress, hp.src, decide_eq_decide]
      exact workerId_inj hn
    rw [← List.append_assoc, List.filter_append, hfrom u, relayed_handle]
    congr 1
    by_cases huw : u = w
    · subst huw
      simp [hsrc, hto]
    · simp [hsrc, huw, Ne.symm huw]
  · intro buf hbuf
    rw [← List.append_assoc, List.mem_append, List.mem_singleton] at hbuf
    rcases hbuf with hbuf | rfl
    · obtain ⟨u, hu⟩ := hall buf hbuf
      exact ⟨u, by rw [relayed_handle]; exact List.mem_append_left _ hu⟩
    · exact ⟨w, by rw [relayed_handle, if_pos ⟨rfl, hto⟩]; simp⟩

/-- The loop over the workers gives the message to those it is addressed to. -/
theorem relay_eq (hregistered : p.1.id ∉ parentTypes) (v : Fin n) :
    (if v = w then bus.down v
      else if p.1.dst ≠ koreMsgWorkerAll ∧ workerId v ≠ p.1.dst then bus.down v
      else (bus.down v).queue (KoreMsg.setDst (wire p) (workerId v))) =
    if w ≠ v ∧ addressed parentTypes v p = true then (bus.down v).queue (readdress v p)
    else bus.down v := by
  have haddressed : addressed parentTypes v p = true ↔
      ¬ (p.1.dst ≠ koreMsgWorkerAll ∧ workerId v ≠ p.1.dst) := by
    simp only [addressed, hregistered, not_false_eq_true, true_and, decide_eq_true_eq]
    tauto
  have hwritten : KoreMsg.setDst (wire p) (workerId v) = readdress v p := by
    rw [wire, KoreMsg.setDst_bytes]
    rfl
  rw [hwritten]
  by_cases hvw : v = w
  · rw [if_pos hvw, if_neg (fun hto => hto.1 hvw.symm)]
  · rw [if_neg hvw]
    by_cases hto : addressed parentTypes v p = true
    · rw [if_neg (haddressed.mp hto), if_pos ⟨Ne.symm hvw, hto⟩]
    · rw [if_pos (by_contra (fun hnot => hto (haddressed.mpr hnot))), if_neg (fun h => hto h.2)]

/-- The parent handles a message of a type that it has registered. -/
theorem parentRecvData_registered (hn : n ≤ 255) (h : Downs parentTypes workerTypes handled bus)
    (hp : Proper parentTypes w p) (hregistered : p.1.id ∈ parentTypes) :
    ∃ bus', parentRecvData w bus (wire p) = some bus' ∧ bus'.up = bus.up ∧
      Downs parentTypes workerTypes (handle handled w p) bus' := by
  have hnot : ∀ v : Fin n, ¬ (w ≠ v ∧ addressed parentTypes v p = true) := by
    intro v hv
    simp [addressed, hregistered] at hv
  have hdown := fun v => down_kept h (hnot v)
  refine ⟨{ bus with parentCalls := bus.parentCalls ++ [wire p] }, ?_, rfl, h.parent, h.workers,
    hdown, ?_, ?_, h.workerCalls⟩
  · simp [parentRecvData, ofBytes_wire, h.parent, hregistered, hp.dst hregistered]
  · intro u
    rw [List.filter_append, h.parentCalls, forParent_handle]
    congr 1
    by_cases huw : u = w
    · simp [isFrom_wire hn hp, huw, hregistered]
    · simp [isFrom_wire hn hp, huw, Ne.symm huw]
  · intro buf hbuf
    rcases List.mem_append.mp hbuf with hbuf | hbuf
    · obtain ⟨u, hu⟩ := h.parentOnly buf hbuf
      exact ⟨u, by rw [forParent_handle]; exact List.mem_append_left _ hu⟩
    · obtain rfl := List.mem_singleton.mp hbuf
      exact ⟨w, by rw [forParent_handle, if_pos ⟨rfl, hregistered⟩]; simp⟩

/-- The parent handles a message for the workers. -/
theorem parentRecvData_relayed (hn : n ≤ 255) (h : Downs parentTypes workerTypes handled bus)
    (hp : Proper parentTypes w p) (hregistered : p.1.id ∉ parentTypes) :
    ∃ bus', parentRecvData w bus (wire p) = some bus' ∧ bus'.up = bus.up ∧
      Downs parentTypes workerTypes (handle handled w p) bus' := by
  have hkept : ∀ u, forParent parentTypes (handle handled w p u) =
      forParent parentTypes (handled u) := by
    intro u
    rw [forParent_handle, if_neg (fun hu => hregistered hu.2), List.append_nil]
  refine ⟨{ bus with
      down := fun v =>
        if w ≠ v ∧ addressed parentTypes v p = true then (bus.down v).queue (readdress v p)
        else bus.down v }, ?_, rfl, h.parent, h.workers, ?_, ?_, ?_, h.workerCalls⟩
  · simp only [parentRecvData, ofBytes_wire, h.parent, hregistered, if_false, relay_eq hregistered]
  · intro v
    by_cases hto : w ≠ v ∧ addressed parentTypes v p = true
    · simp only [if_pos hto]
      exact down_queued hn h hp hto
    · simp only [if_neg hto]
      exact down_kept h hto
  · exact fun u => (h.parentCalls u).trans (hkept u).symm
  · intro buf hbuf
    obtain ⟨u, hu⟩ := h.parentOnly buf hbuf
    exact ⟨u, by rwa [hkept u]⟩

/-- The parent handles a message. -/
theorem parentRecvData_spec (hn : n ≤ 255) (h : Downs parentTypes workerTypes handled bus)
    (hp : Proper parentTypes w p) :
    ∃ bus', parentRecvData w bus (wire p) = some bus' ∧ bus'.up = bus.up ∧
      Downs parentTypes workerTypes (handle handled w p) bus' := by
  by_cases hregistered : p.1.id ∈ parentTypes
  · exact parentRecvData_registered hn h hp hregistered
  · exact parentRecvData_relayed hn h hp hregistered

/-- What the parent receives in one go. -/
theorem foldlM_parentRecvData (hn : n ≤ 255) {ps : List Packet}
    (h : Downs parentTypes workerTypes handled bus) (hps : ∀ p ∈ ps, Proper parentTypes w p) :
    ∃ bus', (ps.map wire).foldlM (parentRecvData w) bus = some bus' ∧ bus'.up = bus.up ∧
      Downs parentTypes workerTypes (Function.update handled w (handled w ++ ps)) bus' := by
  induction ps generalizing handled bus with
  | nil =>
      refine ⟨bus, rfl, rfl, ?_⟩
      rwa [List.append_nil, Function.update_eq_self]
  | cons p ps ih =>
      obtain ⟨bus₁, hone, hup, h₁⟩ := parentRecvData_spec hn h (hps p List.mem_cons_self)
      obtain ⟨bus', hrest, hup', h'⟩ :=
        ih h₁ (fun q hq => hps q (List.mem_cons_of_mem p hq))
      refine ⟨bus', ?_, hup'.trans hup, ?_⟩
      · rw [List.map_cons, List.foldlM_cons, hone]
        exact hrest
      · rw [handle, Function.update_self, Function.update_idem, List.append_assoc] at h'
        exact h'

/-- What a worker receives in one go, if it is the destination of all of it. -/
theorem foldlM_workerRecvData (bus : MsgBus n) {bufs : List (List UInt8)}
    (hdst : ∀ buf ∈ bufs, (KoreMsg.ofBytes buf).dst = workerId w) :
    bufs.foldlM (workerRecvData w) bus =
      some { bus with
        received := Function.update bus.received w (bus.received w ++ bufs)
        workerCalls := Function.update bus.workerCalls w (bus.workerCalls w ++
          bufs.filter (fun buf => decide ((KoreMsg.ofBytes buf).id ∈ bus.workerTypes w))) } := by
  induction bufs generalizing bus with
  | nil => simp
  | cons buf bufs ih =>
      have hone : (KoreMsg.ofBytes buf).dst = workerId w := hdst buf List.mem_cons_self
      have hrest := fun b hb => hdst b (List.mem_cons_of_mem buf hb)
      rw [List.foldlM_cons]
      by_cases hregistered : (KoreMsg.ofBytes buf).id ∈ bus.workerTypes w
      · simp [workerRecvData, hregistered, hone, ih _ hrest]
      · simp [workerRecvData, hregistered, ih _ hrest]

/-! ## The whole system -/

/-- The messages of a worker have been handled by the parent or are on the way to it. -/
def Ups (sent handled : Fin n → List Packet) (up : Fin n → MsgConn) : Prop :=
  ∀ u, ∃ inUp, sent u = handled u ++ inUp ∧ (up u).Holds (inUp.map wire)

/-- What holds after the steps. -/
def Inv (parentTypes : List UInt8) (workerTypes : Fin n → List UInt8) (steps : List (MsgStep n))
    (bus : MsgBus n) : Prop :=
  ∃ handled, Downs parentTypes workerTypes handled bus ∧
    Ups (fun u => sentBy u steps) handled bus.up

theorem Downs.with_up (h : Downs parentTypes workerTypes handled bus) (up : Fin n → MsgConn) :
    Downs parentTypes workerTypes handled { bus with up := up } :=
  ⟨h.parent, h.workers, h.down, h.parentCalls, h.parentOnly, h.workerCalls⟩

theorem proper_packet {dst : UInt16} {id : UInt8} {data : List UInt8} {pad₁ : UInt8}
    {pad₂ : UInt16} (h : Fine parentTypes (.send w dst id data pad₁ pad₂)) :
    Proper parentTypes w (packet w dst id data pad₁ pad₂) where
  form := by
    refine ⟨_, data, rfl, ?_, h.1⟩
    change (UInt32.ofNat data.length).toNat = data.length
    rw [UInt32.toNat_ofNat', Nat.mod_eq_of_lt (Nat.lt_of_le_of_lt (Nat.le_add_left _ _) h.2.1)]
  short := by
    rw [wire, List.length_append]
    exact h.2.1
  src := rfl
  dst := h.2.2

theorem proper_of_mem_sentBy {steps : List (MsgStep n)}
    (hfine : ∀ s ∈ steps, Fine parentTypes s) {u : Fin n} (hp : p ∈ sentBy u steps) :
    Proper parentTypes u p := by
  induction steps with
  | nil => cases hp
  | cons s steps ih =>
      have hrest := fun s' hs' => hfine s' (List.mem_cons_of_mem s hs')
      cases s with
      | send worker dst id data pad₁ pad₂ =>
          rw [sentBy] at hp
          split at hp
          · rename_i hworker
            subst hworker
            rcases List.mem_cons.mp hp with rfl | hp
            · exact proper_packet (hfine _ List.mem_cons_self)
            · exact ih hrest hp
          · exact ih hrest hp
      | workerWrite => exact ih hrest hp
      | parentWrite => exact ih hrest hp
      | parentRead => exact ih hrest hp
      | workerRead => exact ih hrest hp

/-- A step in which no worker sends. -/
theorem sentBy_concat_of_quiet {u : Fin n} {steps : List (MsgStep n)} {s : MsgStep n}
    (hs : sentBy u [s] = []) : sentBy u (steps ++ [s]) = sentBy u steps := by
  rw [sentBy_append, hs, List.append_nil]

/-- A change of one direction to the parent. -/
theorem Ups.update {sent sent' handled handled' : Fin n → List Packet} {up : Fin n → MsgConn}
    (h : Ups sent handled up) {c : MsgConn}
    (hw : ∃ inUp, sent' w = handled' w ++ inUp ∧ c.Holds (inUp.map wire))
    (hsent : ∀ u, u ≠ w → sent' u = sent u) (hhandled : ∀ u, u ≠ w → handled' u = handled u) :
    Ups sent' handled' (Function.update up w c) := by
  intro u
  by_cases huw : u = w
  · subst huw
    rwa [Function.update_self]
  · rw [Function.update_of_ne huw, hsent u huw, hhandled u huw]
    exact h u

/-- The step is not fatal, and the invariant holds behind it. -/
def Kept (parentTypes : List UInt8) (workerTypes : Fin n → List UInt8) (steps : List (MsgStep n))
    (bus : MsgBus n) (s : MsgStep n) : Prop :=
  ∃ bus', step bus s = some (bus', ()) ∧ Inv parentTypes workerTypes (steps ++ [s]) bus'

variable {steps : List (MsgStep n)}

theorem send_inv {dst : UInt16} {id : UInt8} {data : List UInt8} {pad₁ : UInt8} {pad₂ : UInt16}
    (h : Inv parentTypes workerTypes steps bus)
    (hfine : Fine parentTypes (.send w dst id data pad₁ pad₂)) :
    Kept parentTypes workerTypes steps bus (.send w dst id data pad₁ pad₂) := by
  obtain ⟨handled, hdowns, hups⟩ := h
  refine ⟨_, rfl, handled, hdowns.with_up _, hups.update ?_ ?_ (fun _ _ => rfl)⟩
  · obtain ⟨inUp, hsent, hholds⟩ := hups w
    have hproper : Proper parentTypes w (packet w dst id data pad₁ pad₂) := proper_packet hfine
    refine ⟨inUp ++ [packet w dst id data pad₁ pad₂], ?_, ?_⟩
    · simp only [sentBy_append, hsent, List.append_assoc]
      simp [sentBy]
    · rw [List.map_append]
      exact hholds.queue_message hproper.short hproper.form
  · intro u hu
    exact sentBy_concat_of_quiet (by simp [sentBy, Ne.symm hu])

theorem workerWrite_inv (r : WriteResult) (h : Inv parentTypes workerTypes steps bus) :
    Kept parentTypes workerTypes steps bus (.workerWrite w r) := by
  obtain ⟨handled, hdowns, hups⟩ := h
  obtain ⟨inUp, (hsent : sentBy w steps = _), hholds⟩ := hups w
  have hquiet : ∀ u, sentBy u (steps ++ [.workerWrite w r]) = sentBy u steps :=
    fun u => sentBy_concat_of_quiet rfl
  exact ⟨_, rfl, handled, hdowns.with_up _, hups.update
    ⟨inUp, (hquiet w).trans hsent, hholds.write r⟩ (fun u _ => hquiet u) (fun _ _ => rfl)⟩

theorem parentWrite_inv (r : WriteResult) (h : Inv parentTypes workerTypes steps bus) :
    Kept parentTypes workerTypes steps bus (.parentWrite w r) := by
  obtain ⟨handled, hdowns, hups⟩ := h
  have hquiet : ∀ u, sentBy u (steps ++ [.parentWrite w r]) = sentBy u steps :=
    fun u => sentBy_concat_of_quiet rfl
  refine ⟨_, rfl, handled, ⟨hdowns.parent, hdowns.workers, ?_, hdowns.parentCalls,
    hdowns.parentOnly, hdowns.workerCalls⟩, by simpa only [hquiet] using hups⟩
  intro v
  obtain ⟨inDown, hholds, hrest⟩ := hdowns.down v
  refine ⟨inDown, ?_, hrest⟩
  by_cases hv : v = w
  · subst hv
    simp only [Function.update_self]
    exact hholds.write r
  · simp only [Function.update_of_ne hv]
    exact hholds

theorem parentRead_inv (hn : n ≤ 255) (size : ℕ) (hfine : ∀ s ∈ steps, Fine parentTypes s)
    (h : Inv parentTypes workerTypes steps bus) :
    Kept parentTypes workerTypes steps bus (.parentRead w size) := by
  obtain ⟨handled, hdowns, hups⟩ := h
  have hquiet : ∀ u, sentBy u (steps ++ [.parentRead w size]) = sentBy u steps :=
    fun u => sentBy_concat_of_quiet rfl
  obtain ⟨inUp, (hsent : sentBy w steps = _), hholds⟩ := hups w
  obtain ⟨rest, hsplit, hholds'⟩ := hholds.read size
  obtain ⟨ps, qs, rfl, hps, rfl⟩ := List.map_eq_append_iff.mp hsplit
  have hproper : ∀ p ∈ ps, Proper parentTypes w p := by
    intro p hp
    have hmem : p ∈ sentBy w steps := by
      rw [hsent]
      simp [hp]
    exact proper_of_mem_sentBy hfine hmem
  obtain ⟨bus', hrun, hup, hdowns'⟩ := foldlM_parentRecvData hn
    (hdowns.with_up (Function.update bus.up w ((bus.up w).read size).1)) hproper
  refine ⟨bus', ?_, _, hdowns', ?_⟩
  · rw [step, ← hps]
    simp only [hrun, Option.map_some]
  · rw [hup]
    refine hups.update ⟨qs, ?_, hholds'⟩ (fun u _ => hquiet u) ?_
    · rw [hquiet, hsent, Function.update_self, List.append_assoc]
    · intro u hu
      rw [Function.update_of_ne hu]

theorem workerRead_inv (size : ℕ) (h : Inv parentTypes workerTypes steps bus) :
    Kept parentTypes workerTypes steps bus (.workerRead w size) := by
  obtain ⟨handled, hdowns, hups⟩ := h
  have hquiet : ∀ u, sentBy u (steps ++ [.workerRead w size]) = sentBy u steps :=
    fun u => sentBy_concat_of_quiet rfl
  obtain ⟨inDown, hholds, hfrom, hall⟩ := hdowns.down w
  obtain ⟨rest, rfl, hholds'⟩ := hholds.read size
  have hdst : ∀ buf ∈ ((bus.down w).read size).2, (KoreMsg.ofBytes buf).dst = workerId w := by
    intro buf hbuf
    obtain ⟨u, hu⟩ := hall buf (by simp [hbuf])
    rw [relayed] at hu
    split at hu
    · cases hu
    · obtain ⟨p, -, rfl⟩ := List.mem_map.mp hu
      rw [ofBytes_readdress]
  have hrun := foldlM_workerRecvData
    { bus with down := Function.update bus.down w ((bus.down w).read size).1 } hdst
  have hstep := congrArg (Option.map (fun bus => (bus, ()))) hrun
  rw [Option.map_some] at hstep
  refine ⟨_, hstep, handled, ⟨hdowns.parent, hdowns.workers, ?_,
    hdowns.parentCalls, hdowns.parentOnly, ?_⟩, by simpa only [hquiet] using hups⟩
  · intro v
    by_cases hv : v = w
    · subst hv
      simp only [Function.update_self]
      refine ⟨rest, hholds', ?_, ?_⟩
      · intro u
        rw [List.append_assoc]
        exact hfrom u
      · intro buf hbuf
        rw [List.append_assoc] at hbuf
        exact hall buf hbuf
    · simp only [Function.update_of_ne hv]
      exact hdowns.down v
  · intro v
    by_cases hv : v = w
    · subst hv
      simp only [Function.update_self]
      rw [List.filter_append, ← hdowns.workerCalls v, hdowns.workers]
    · simp only [Function.update_of_ne hv]
      exact hdowns.workerCalls v

theorem step_inv (hn : n ≤ 255) {s : MsgStep n} (hfine : ∀ s' ∈ steps ++ [s], Fine parentTypes s')
    (h : Inv parentTypes workerTypes steps bus) : Kept parentTypes workerTypes steps bus s := by
  cases s with
  | send worker dst id data pad₁ pad₂ => exact send_inv h (hfine _ (by simp))
  | workerWrite worker r => exact workerWrite_inv r h
  | parentWrite worker r => exact parentWrite_inv r h
  | parentRead worker size =>
      exact parentRead_inv hn size (fun s hs => hfine s (List.mem_append_left _ hs)) h
  | workerRead worker size => exact workerRead_inv size h

theorem inv_new : Inv parentTypes workerTypes [] (new parentTypes workerTypes : MsgBus n) := by
  refine ⟨fun _ => [], ⟨rfl, rfl, ?_, fun _ => rfl, fun _ hbuf => absurd hbuf List.not_mem_nil,
    fun _ => rfl⟩, ?_⟩
  · intro v
    refine ⟨[], MsgConn.holds_new, ?_, ?_⟩
    · intro u
      by_cases huv : u = v
      · simp [new, relayed, huv]
      · simp [new, relayed, huv]
    · intro buf hbuf
      cases hbuf
  · intro u
    exact ⟨[], rfl, MsgConn.holds_new⟩

/-- No run ends with a fatal error. -/
theorem exec_inv (parentTypes : List UInt8) (workerTypes : Fin n → List UInt8) (hn : n ≤ 255)
    {steps : List (MsgStep n)}
    (hfine : ∀ s ∈ steps, Fine parentTypes s) :
    ∃ bus answers, Machine.exec step (new parentTypes workerTypes) steps = some (bus, answers) ∧
      Inv parentTypes workerTypes steps bus := by
  induction steps using List.reverseRecOn with
  | nil => exact ⟨_, [], rfl, inv_new⟩
  | append_singleton steps s ih =>
      obtain ⟨bus, answers, hexec, hinv⟩ := ih (fun s' hs' => hfine s' (List.mem_append_left _ hs'))
      obtain ⟨bus', hstep, hinv'⟩ := step_inv hn hfine hinv
      exact ⟨bus', answers ++ [()],
        Machine.exec_concat_eq_some.mpr ⟨bus, answers, (), hexec, hstep, rfl⟩, hinv'⟩

end MsgBus

end Sparc
