import Sparc.Model.Msg
import Sparc.Verification.Net.Sending

/-! # One direction between a worker and the parent -/

namespace Sparc

/-! ## The structure in memory -/

namespace KoreMsg

theorem length_bytes (m : KoreMsg) : m.bytes.length = size := rfl

/-- A structure that has been written is read. -/
theorem ofBytes_bytes (m : KoreMsg) (data : List UInt8) : ofBytes (m.bytes ++ data) = m := by
  have hsrc : UInt16.ofNat (Octets.value (Octets.little 2 m.src.toNat)) = m.src := by
    rw [Octets.value_little_of_lt m.src.toNat_lt, UInt16.ofNat_toNat]
  have hdst : UInt16.ofNat (Octets.value (Octets.little 2 m.dst.toNat)) = m.dst := by
    rw [Octets.value_little_of_lt m.dst.toNat_lt, UInt16.ofNat_toNat]
  have hpad : UInt16.ofNat (Octets.value (Octets.little 2 m.pad₂.toNat)) = m.pad₂ := by
    rw [Octets.value_little_of_lt m.pad₂.toNat_lt, UInt16.ofNat_toNat]
  have hlength : UInt32.ofNat (Octets.value (Octets.little 4 m.length.toNat)) = m.length := by
    rw [Octets.value_little_of_lt m.length.toNat_lt, UInt32.ofNat_toNat]
  rw [ofBytes]
  congr 1

/-- An assignment to the destination changes nothing else. -/
theorem setDst_bytes (m : KoreMsg) (data : List UInt8) (dst : UInt16) :
    setDst (m.bytes ++ data) dst = { m with dst := dst }.bytes ++ data := rfl

end KoreMsg

/-- The memory of a message: the structure, and as many bytes as it says, at least one. -/
def MsgForm (buf : List UInt8) : Prop :=
  ∃ (m : KoreMsg) (data : List UInt8),
    buf = m.bytes ++ data ∧ m.length.toNat = data.length ∧ data ≠ []

/-- Nothing of the next message has been received. -/
structure MsgStart (nb : RecvBuf MsgCb) : Prop where
  buf : nb.buf = []
  bLen : nb.bLen = KoreMsg.size
  cb : nb.cb = .packet

/-- A message that is sent is the one that is received. -/
theorem awaits_message {buf : List UInt8} (hform : MsgForm buf) {nb : RecvBuf MsgCb}
    (hnb : MsgStart nb) : msgIntake.Awaits MsgStart nb buf [buf] := by
  obtain ⟨m, data, rfl, hlength, hdata⟩ := hform
  obtain ⟨hbuf, hbLen, hcb⟩ := hnb
  have hpos : 0 < data.length := List.length_pos_iff.mpr hdata
  have hheader : KoreMsg.ofBytes m.bytes = m := by
    have h := KoreMsg.ofBytes_bytes m []
    rwa [List.append_nil] at h
  -- the structure, then what it says that follows
  have hfirst : msgIntake.Awaits
      (fun nb => nb.buf = m.bytes ∧ nb.bLen = KoreMsg.size + data.length ∧ nb.cb = .data)
      nb m.bytes [] := by
    apply Intake.awaits_fire
      (({ nb with buf := m.bytes } : RecvBuf MsgCb).netRecvExpand data.length .data)
    · simp [msgIntake, RecvBuf.intake, hbuf, hbLen, KoreMsg.size]
    · simp [msgIntake, RecvBuf.intake, hbuf, hbLen, KoreMsg.length_bytes]
    · simp [msgIntake, RecvBuf.intake, hbuf, hcb, hheader, hlength, RecvBuf.netRecvExpand]
    · simp [RecvBuf.netRecvExpand, hbLen]
    · simp only [msgIntake, RecvBuf.intake, RecvBuf.netRecvExpand, hbLen, KoreMsg.length_bytes]
      omega
  have hsecond : ∀ nb : RecvBuf MsgCb,
      (nb.buf = m.bytes ∧ nb.bLen = KoreMsg.size + data.length ∧ nb.cb = .data) →
        msgIntake.Awaits MsgStart nb data [m.bytes ++ data] := by
    rintro nb ⟨hbuf, hbLen, hcb⟩
    apply Intake.awaits_fire
      (({ nb with buf := m.bytes ++ data } : RecvBuf MsgCb).netRecvReset KoreMsg.size .packet)
    · simp only [msgIntake, RecvBuf.intake, hbuf, hbLen, KoreMsg.length_bytes]
      omega
    · simp only [msgIntake, RecvBuf.intake, hbuf, hbLen, KoreMsg.length_bytes]
      omega
    · simp [msgIntake, RecvBuf.intake, hbuf, hcb]
    · exact ⟨rfl, rfl, rfl⟩
    · simp [msgIntake, RecvBuf.intake, RecvBuf.netRecvReset, KoreMsg.size]
  have hboth := hfirst.append hsecond
  rwa [List.nil_append] at hboth

/-! ## What is on the way -/

namespace MsgConn

/-- The bytes that the receiver has not got yet. -/
def remaining (c : MsgConn) : List UInt8 :=
  ((c.sender.sent ++ c.sender.left).drop c.taken).map NetSent.toByte

/-- The messages are on the way, and the next of them may have been received in part. -/
structure Holds (c : MsgConn) (msgs : List (List UInt8)) : Prop where
  waiting : c.sender.Waiting
  bounded : ∀ nb ∈ c.sender.sendQueue, nb.mLen < 4294967296
  taken : c.taken ≤ c.sender.sent.length
  awaits : msgIntake.Awaits MsgStart c.rnb c.remaining msgs

variable {c : MsgConn} {msgs : List (List UInt8)}

theorem holds_new : Holds new [] where
  waiting := by simp [new, Sender.Waiting, Sender.new]
  bounded := by simp [new, Sender.new]
  taken := Nat.zero_le _
  awaits := Intake.awaits_nil ⟨rfl, rfl, rfl⟩
    (by simp [msgIntake, RecvBuf.intake, new, RecvBuf.netRecvQueue, KoreMsg.size])

theorem map_toByte (data : List UInt8) : (data.map NetSent.byte).map NetSent.toByte = data := by
  rw [List.map_map]
  exact List.map_id data

theorem remaining_eq_pipe_append (htaken : c.taken ≤ c.sender.sent.length) :
    c.remaining = c.pipe ++ c.sender.left.map NetSent.toByte := by
  rw [remaining, pipe, List.drop_append_of_le_length htaken, List.map_append]

/-- Messages that are queued are on the way behind the others. -/
theorem Holds.queue {data : List UInt8} {out : List (List UInt8)} (h : c.Holds msgs)
    (hlength : data.length < 4294967296)
    (hdata : ∀ nb, MsgStart nb → msgIntake.Awaits MsgStart nb data out) :
    (c.queue data).Holds (msgs ++ out) where
  waiting := SendBuf.waiting_enqueue h.waiting data
  bounded := SendBuf.mLen_enqueue h.bounded hlength (by decide)
  taken := h.taken
  awaits := by
    have hleft : (c.sender.netSendQueue data).left = c.sender.left ++ data.map .byte :=
      SendBuf.left_enqueue h.waiting data
    have hremaining : (c.queue data).remaining = c.remaining ++ data := by
      rw [remaining_eq_pipe_append h.taken, remaining_eq_pipe_append (c := c.queue data) h.taken,
        List.append_assoc, MsgConn.queue, hleft, List.map_append, map_toByte]
      rfl
    rw [hremaining]
    exact h.awaits.append hdata

/-- Queued in two parts. -/
theorem queue_queue_remaining (h : c.Holds msgs) (first second : List UInt8) :
    ((c.queue first).queue second).remaining = (c.queue (first ++ second)).remaining := by
  have hfirst : (c.sender.netSendQueue first).left = c.sender.left ++ first.map .byte :=
    SendBuf.left_enqueue h.waiting first
  have hsecond : ((c.sender.netSendQueue first).netSendQueue second).left =
      (c.sender.netSendQueue first).left ++ second.map .byte :=
    SendBuf.left_enqueue (SendBuf.waiting_enqueue h.waiting first) second
  have hboth : (c.sender.netSendQueue (first ++ second)).left =
      c.sender.left ++ (first ++ second).map .byte :=
    SendBuf.left_enqueue h.waiting (first ++ second)
  simp only [remaining, MsgConn.queue]
  rw [hsecond, hfirst, hboth, List.map_append, List.append_assoc]
  rfl

theorem Holds.queue_message {m : KoreMsg} {data : List UInt8} (h : c.Holds msgs)
    (hlength : (m.bytes ++ data).length < 4294967296) (hform : MsgForm (m.bytes ++ data)) :
    ((c.queue m.bytes).queue data).Holds (msgs ++ [m.bytes ++ data]) where
  waiting := SendBuf.waiting_enqueue (SendBuf.waiting_enqueue h.waiting m.bytes) data
  bounded := by
    rw [List.length_append] at hlength
    exact SendBuf.mLen_enqueue
      (SendBuf.mLen_enqueue h.bounded (Nat.lt_of_le_of_lt (Nat.le_add_right _ _) hlength)
        (by decide))
      (Nat.lt_of_le_of_lt (Nat.le_add_left _ _) hlength) (by decide)
  taken := h.taken
  awaits := by
    rw [queue_queue_remaining h]
    exact (h.queue hlength (fun _ hnb => awaits_message hform hnb)).awaits

/-- Writing changes nothing in what is on the way. -/
theorem Holds.write (h : c.Holds msgs) (r : WriteResult) : (c.write r).Holds msgs := by
  rw [MsgConn.write]
  split
  · exact h
  · rename_i nb rest hqueue
    cases hsend : c.sender.netSend nb rest [r] with
    | none => exact h
    | some p =>
        obtain ⟨ok, s, results⟩ := p
        have hcontinues := (Sender.netSend_continues hqueue h.waiting hsend).1
        have hlonger := (Sender.netSend_sent hsend).length_le
        refine ⟨hcontinues.waiting, ?_, Nat.le_trans h.taken hlonger, ?_⟩
        · obtain ⟨nb', hsize, hs⟩ := Sender.netSend_queue hqueue hsend
          have hbounded := h.bounded
          rw [hqueue, List.forall_mem_cons] at hbounded
          rcases hs with hs | hs
          · rw [hs]
            exact hbounded.2
          · rw [hs, List.forall_mem_cons, hsize]
            exact hbounded
        · simp only [remaining, hcontinues.total]
          exact h.awaits

/-- What is received is what comes first. -/
theorem Holds.read (h : c.Holds msgs) (n : ℕ) :
    ∃ rest, msgs = (c.read n).2 ++ rest ∧ (c.read n).1.Holds rest := by
  have hsplit := remaining_eq_pipe_append h.taken
  rw [← List.take_append_drop (min n (msgIntake.missing c.rnb)) c.pipe, List.append_assoc] at hsplit
  have hfit : (c.pipe.take (min n (msgIntake.missing c.rnb))).length ≤ msgIntake.missing c.rnb :=
    Nat.le_trans (List.length_take_le _ _) (Nat.min_le_right _ _)
  obtain ⟨nb, done, rest, hone, hawaits, rfl⟩ := (hsplit ▸ h.awaits).read hfit
  rw [MsgConn.read, hone]
  refine ⟨rest, rfl, h.waiting, h.bounded, ?_, ?_⟩
  · have hpipe : c.pipe.length = c.sender.sent.length - c.taken := by
      rw [pipe, List.length_map, List.length_drop]
    have htaken := h.taken
    simp only [List.length_take]
    omega
  · have hdrop : remaining { c with
        taken := c.taken + (c.pipe.take (min n (msgIntake.missing c.rnb))).length, rnb := nb } =
          c.remaining.drop (c.pipe.take (min n (msgIntake.missing c.rnb))).length := by
      rw [remaining, remaining, ← List.map_drop, List.drop_drop]
    rw [hdrop, hsplit, List.drop_left]
    exact hawaits

/-- Where nothing is left of the bytes, no message is on the way. -/
theorem Holds.eq_nil (h : c.Holds msgs) (hempty : c.remaining = []) : msgs = [] :=
  (hempty ▸ h.awaits).eq_nil.1

/-! ## Getting on -/

/-- What is left to do until all has been received, where a byte is written and then read. -/
def work (c : MsgConn) : ℕ := 2 * c.sender.left.length + c.sender.sendQueue.length + c.pipe.length

theorem remaining_eq_nil (h : c.Holds msgs) (hqueue : c.sender.sendQueue = [])
    (hpipe : c.pipe = []) : c.remaining = [] := by
  rw [remaining_eq_pipe_append h.taken, hpipe, Sender.left, hqueue]
  rfl

/-- When there is room, a write gets on. -/
theorem work_write (h : c.Holds msgs) (hqueue : c.sender.sendQueue ≠ []) :
    (c.write (.room 1)).work < c.work := by
  obtain ⟨nb, rest, hcons⟩ := List.exists_cons_of_ne_nil hqueue
  have hsmall : c.sender.Small := by
    intro b hb
    have hfits := (h.waiting b hb).fits
    have hbound := h.bounded b hb
    omega
  by_cases hempty : nb.buf = []
  · have hsend := Sender.netSend_empty hcons h.waiting hempty [.room 1]
    have hcallback : nb.callback = [] := by
      rw [SendBuf.callback]
      split
      · cases nb.cb with
        | none => rfl
        | some cb => exact cb.elim
      · rfl
    have hcontinues := (Sender.netSend_continues hcons h.waiting hsend).1
    have htotal := congrArg List.length hcontinues.total
    simp only [hcallback, List.append_nil, List.length_append] at htotal
    rw [MsgConn.write, hcons]
    simp only [hsend, work, pipe, hcallback, List.append_nil, hcons, List.length_cons]
    omega
  · obtain ⟨s₁, hsend, hsent, hshort, -, -⟩ :=
      Sender.netSend_room hcons h.waiting hsmall hempty Nat.one_pos
    have hcontinues := (Sender.netSend_continues hcons h.waiting (hsend [])).1
    have htotal := congrArg List.length hcontinues.total
    rw [List.length_append, List.length_append] at htotal
    have htaken := h.taken
    rw [MsgConn.write, hcons]
    simp only [hsend, work, pipe, List.length_map, List.length_drop]
    omega

/-- When there is something to read, a read gets on. -/
theorem work_read (h : c.Holds msgs) (hpipe : c.pipe ≠ []) : (c.read 1).1.work < c.work := by
  obtain ⟨b, pipe, hcons⟩ := List.exists_cons_of_ne_nil hpipe
  have hpos := h.awaits.missing_pos
  have hone : min 1 (msgIntake.missing c.rnb) = 1 := by omega
  have hread : (c.read 1).1.sender = c.sender ∧ (c.read 1).1.taken = c.taken + 1 := by
    rw [MsgConn.read, hone, hcons]
    cases msgIntake.read c.rnb ((b :: pipe).take 1) with
    | ok r => exact ⟨rfl, rfl⟩
    | error e => exact e.elim
  have hlength := congrArg List.length hcons
  rw [MsgConn.pipe, List.length_map, List.length_drop, List.length_cons] at hlength
  simp only [work, MsgConn.pipe, hread.1, hread.2, List.length_map, List.length_drop]
  omega

end MsgConn

end Sparc
