import Sparc.Library.Intake
import Mathlib.Data.Nat.Notation

/-! # Buffers of a connection: `kore/net.c`

What a connection receives and what it sends are taken apart. The data that a netbuf points to is
in the netbuf. What `read` and `write` return is given, and the flags that say whether a connection
can be read or written are set again by the event loop.
-/

namespace Sparc

/-- `NETBUF_SEND_PAYLOAD_MAX`. -/
def netbufSendPayloadMax : ℕ := 8192

/-! ## Receiving -/

/-- The netbuf `rnb`: the first `s_off` bytes of its buffer, how many it asks for, the size of the
buffer and the callback. -/
structure RecvBuf (κ : Type*) where
  buf : List UInt8
  bLen : ℕ
  mLen : ℕ
  cb : κ
  deriving DecidableEq, Repr

namespace RecvBuf

variable {κ : Type*}

/-- `net_recv_queue`, without `NETBUF_CALL_CB_ALWAYS`. -/
def netRecvQueue (len : ℕ) (cb : κ) : RecvBuf κ := ⟨[], len, len, cb⟩

/-- `net_recv_reset`: a small buffer that is large enough is kept. -/
def netRecvReset (nb : RecvBuf κ) (len : ℕ) (cb : κ) : RecvBuf κ where
  buf := []
  bLen := len
  mLen := if len ≤ nb.mLen ∧ nb.mLen < netbufSendPayloadMax / 2 then nb.mLen else len
  cb := cb

/-- `net_recv_expand`. -/
def netRecvExpand (nb : RecvBuf κ) (len : ℕ) (cb : κ) : RecvBuf κ :=
  { nb with bLen := nb.bLen + len, mLen := nb.bLen + len, cb := cb }

/-- A netbuf with what its callbacks do. -/
def intake {ε μ : Type*} (fire : RecvBuf κ → Except ε (RecvBuf κ × List μ)) :
    Intake (RecvBuf κ) ε UInt8 μ where
  missing nb := nb.bLen - nb.buf.length
  push nb l := { nb with buf := nb.buf ++ l }
  fire := fire
  push_nil nb := by rw [List.append_nil]
  push_append nb l m := by rw [← List.append_assoc]
  missing_push nb l := by rw [List.length_append, Nat.sub_add_eq]

end RecvBuf

/-- What a call of `read` has got. An interrupted call has got no bytes. When the peer has closed
the connection `errno` is read where `read` has not set it, so that each of these can follow. -/
inductive RecvResult where
  | bytes (l : List UInt8)
  | eagain
  | error
  deriving DecidableEq, Repr

/-- The bytes that a call has got. -/
def RecvResult.data : RecvResult → List UInt8
  | .bytes l => l
  | .eagain => []
  | .error => []

variable {σ μ : Type*}

/-- The loop of `net_recv_flush` on what the calls of `read` return. It ends when the connection
cannot be read any more, or with an error; `read` never gets more than it is asked for. -/
def netRecvFlush (R : Intake σ Unit UInt8 μ) (s : σ) :
    List RecvResult → Option (Except Unit (σ × List μ))
  | [] => none
  | .eagain :: results => if results = [] then some (.ok (s, [])) else none
  | .error :: results => if results = [] then some (.error ()) else none
  | .bytes l :: results =>
      if l.length ≤ R.missing s then
        match R.read s l with
        | .error e => if results = [] then some (.error e) else none
        | .ok r =>
            (netRecvFlush R r.1 results).map (fun rest => rest.map (fun q => (q.1, r.2 ++ q.2)))
      else none

/-- The calls of `net_recv_flush` that the event loop makes, up to the first that fails. -/
def receive (R : Intake σ Unit UInt8 μ) (s : σ) :
    List (List RecvResult) → Option (Except Unit (σ × List μ))
  | [] => some (.ok (s, []))
  | results :: calls =>
      (netRecvFlush R s results).bind (fun first =>
        match first with
        | .error e => if calls = [] then some (.error e) else none
        | .ok r => (receive R r.1 calls).map (fun rest => rest.map (fun q => (q.1, r.2 ++ q.2))))

/-! ## Sending -/

/-- A netbuf in a send queue. A stream is called back when the connection has done with it. -/
structure SendBuf (τ : Type*) where
  buf : List UInt8
  sOff : ℕ
  mLen : ℕ
  isStream : Bool
  cb : Option τ
  mustResend : Bool
  forceRemove : Bool
  deriving DecidableEq, Repr

/-- What comes out of a send queue: a byte is written, or a stream is called back. -/
inductive NetSent (τ : Type*) where
  | byte (b : UInt8)
  | done (cb : τ)
  deriving DecidableEq, Repr

/-- The members of `struct connection` for sending, with what has come out of the queue so far.
`ssl` is whether `write` is `net_write_ssl`. -/
structure Sender (τ : Type*) where
  sendQueue : List (SendBuf τ)
  writePossible : Bool
  closeEmpty : Bool
  ssl : Bool
  disconnected : Bool
  sent : List (NetSent τ)
  deriving DecidableEq, Repr

/-- What a call of `write` finds: room for a number of bytes, none before the socket is ready again,
or an error. An interrupted call finds room for no byte. -/
inductive WriteResult where
  | room (n : ℕ)
  | again
  | error
  deriving DecidableEq, Repr

variable {τ : Type*}

namespace SendBuf

/-- A netbuf with a copy of the data. -/
def copy (data : List UInt8) : SendBuf τ where
  buf := data
  sOff := 0
  mLen := if data.length < netbufSendPayloadMax then netbufSendPayloadMax else data.length
  isStream := false
  cb := none
  mustResend := false
  forceRemove := false

/-- The call that a stream is due when it is removed. -/
def callback (nb : SendBuf τ) : List (NetSent τ) :=
  if nb.isStream then nb.cb.toList.map .done else []

/-- `net_send_queue`: the last netbuf is filled up before there is a new one. -/
def enqueue (queue : List (SendBuf τ)) (data : List UInt8) : List (SendBuf τ) :=
  match queue.getLast? with
  | none => [copy data]
  | some nb =>
      if nb.isStream = false ∧ nb.buf.length < nb.mLen then
        let avail := nb.mLen - nb.buf.length
        let filled := queue.dropLast ++ [{ nb with buf := nb.buf ++ data.take avail }]
        if data.length ≤ avail then filled else filled ++ [copy (data.drop avail)]
      else queue ++ [copy data]

end SendBuf

namespace Sender

/-- A connection that has just been accepted. -/
def new (ssl : Bool) : Sender τ := ⟨[], false, false, ssl, false, []⟩

/-- `net_send_queue`. -/
def netSendQueue (s : Sender τ) (data : List UInt8) : Sender τ :=
  { s with sendQueue := SendBuf.enqueue s.sendQueue data }

/-- `net_send_stream`. -/
def netSendStream (s : Sender τ) (data : List UInt8) (cb : Option τ) : Sender τ :=
  { s with sendQueue := s.sendQueue ++ [⟨data, 0, data.length, true, cb, false, false⟩] }

/-- `net_remove_netbuf` for the first netbuf. -/
def netRemoveNetbuf (s : Sender τ) (nb : SendBuf τ) (rest : List (SendBuf τ)) : Sender τ :=
  if nb.mustResend then { s with sendQueue := { nb with forceRemove := true } :: rest }
  else
    { s with sendQueue := rest, sent := s.sent ++ nb.callback }

/-- The end of `net_send`. -/
def netSendDone (s : Sender τ) (nb : SendBuf τ) (rest : List (SendBuf τ)) : Sender τ :=
  if nb.sOff = nb.buf.length ∨ nb.forceRemove = true then s.netRemoveNetbuf nb rest
  else { s with sendQueue := nb :: rest }

/-- `net_send` for the first netbuf, with the results of `write` that are left. What is left to
write is computed in 32 bits. -/
def netSend (s : Sender τ) (nb : SendBuf τ) (rest : List (SendBuf τ))
    (results : List WriteResult) : Option (Bool × Sender τ × List WriteResult) :=
  if nb.buf.length ≠ 0 then
    match results with
    | [] => none
    | .error :: results => some (false, s, results)
    | .again :: results =>
        some (true,
          { s with
            writePossible := false
            sendQueue := { nb with mustResend := nb.mustResend || s.ssl } :: rest }, results)
    | .room n :: results =>
        let smin := (nb.buf.length - nb.sOff) % 4294967296
        let written := min n (min netbufSendPayloadMax smin)
        let bytes := ((nb.buf.drop nb.sOff).take written).map .byte
        some (true,
          netSendDone { s with sent := s.sent ++ bytes }
            { nb with sOff := nb.sOff + written, mustResend := false } rest, results)
  else some (true, s.netSendDone nb rest, results)

/-- The end of `net_send_flush`: the connection may be one to be closed when its queue is empty. -/
def flushed (s : Sender τ) : Sender τ :=
  { s with disconnected := s.disconnected || (s.closeEmpty && s.sendQueue.isEmpty) }

/-- `net_send_flush` on what the calls of `write` find, which are all of the calls that it makes.
A round that neither writes nor removes a netbuf would be the same for ever. -/
def netSendFlush (s : Sender τ) (results : List WriteResult) : Option (Bool × Sender τ) :=
  match s.sendQueue, s.writePossible with
  | nb :: rest, true =>
      match s.netSend nb rest results with
      | none => none
      | some (false, s', results') => if results' = [] then some (false, s') else none
      | some (true, s', results') =>
          if results'.length + s'.sendQueue.length < results.length + s.sendQueue.length then
            netSendFlush s' results'
          else none
  | _, _ => if results = [] then some (true, s.flushed) else none
  termination_by results.length + s.sendQueue.length

/-- `kore_connection_remove`, where it empties the send queue. -/
def remove (s : Sender τ) : Sender τ :=
  { s with sendQueue := [], sent := s.sent ++ s.sendQueue.flatMap SendBuf.callback }

end Sender

/-- What happens to the sending side of a connection: data is queued, the event loop finds that it
can be written, the connection is to be closed when its queue is empty, or the queue is flushed. -/
inductive SendCall (τ : Type*) where
  | queue (data : List UInt8)
  | stream (data : List UInt8) (cb : Option τ)
  | ready
  | closeEmpty
  | flush (results : List WriteResult)
  deriving DecidableEq, Repr

/-- One of these calls; the answer is what `net_send_flush` returns. -/
def Sender.step (s : Sender τ) : SendCall τ → Option (Sender τ × Bool)
  | .queue data => some (s.netSendQueue data, true)
  | .stream data cb => some (s.netSendStream data cb, true)
  | .ready => some ({ s with writePossible := true }, true)
  | .closeEmpty => some ({ s with closeEmpty := true }, true)
  | .flush results => (s.netSendFlush results).map (fun r => (r.2, r.1))

end Sparc
