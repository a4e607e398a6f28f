import Sparc.Library.Octets
import Sparc.Model.Net
import Mathlib.Logic.Function.Basic

/-! # Messages between the workers: `kore/msg.c`

The workers have a pair of sockets each to the parent, which hands on what is not for itself. A
direction of such a pair is what one side sends and what the other side receives. Sending, writing
and reading are steps of their own, in any order, so that a flush can end at any of its writes. The
connections stay open, and the callbacks are the calls that they get.
-/

namespace Sparc

/-- `KORE_MSG_ACCESSLOG`. -/
def koreMsgAccesslog : UInt8 := 1

/-- `KORE_MSG_WEBSOCKET`. -/
def koreMsgWebsocket : UInt8 := 2

/-- `KORE_MSG_PARENT`. -/
def koreMsgParent : UInt16 := 1000

/-- `KORE_MSG_WORKER_ALL`. -/
def koreMsgWorkerAll : UInt16 := 1001

/-- `struct kore_msg`, with the bytes between its members. -/
structure KoreMsg where
  id : UInt8
  pad₁ : UInt8
  src : UInt16
  dst : UInt16
  pad₂ : UInt16
  length : UInt32
  deriving DecidableEq, Repr

namespace KoreMsg

/-- `sizeof(struct kore_msg)`. -/
def size : ℕ := 12

/-- The memory of the structure. -/
def bytes (m : KoreMsg) : List UInt8 :=
  [m.id, m.pad₁] ++ Octets.little 2 m.src.toNat ++ Octets.little 2 m.dst.toNat ++
    Octets.little 2 m.pad₂.toNat ++ Octets.little 4 m.length.toNat

/-- A pointer to the structure, read. -/
def ofBytes (l : List UInt8) : KoreMsg where
  id := l.getD 0 0
  pad₁ := l.getD 1 0
  src := UInt16.ofNat (Octets.value ((l.drop 2).take 2))
  dst := UInt16.ofNat (Octets.value ((l.drop 4).take 2))
  pad₂ := UInt16.ofNat (Octets.value ((l.drop 6).take 2))
  length := UInt32.ofNat (Octets.value ((l.drop 8).take 4))

/-- An assignment to `msg->dst` in the buffer. -/
def setDst (l : List UInt8) (dst : UInt16) : List UInt8 :=
  l.take 4 ++ Octets.little 2 dst.toNat ++ l.drop 6

end KoreMsg

/-! ## One direction -/

/-- The callbacks of `rnb`: `msg_recv_packet` and `msg_recv_data`. -/
inductive MsgCb where
  | packet
  | data
  deriving DecidableEq, Repr

/-- How a message is received. `msg_recv_data` gets the buffer, and what it does with it does not
concern `rnb` but for the reset. -/
def msgIntake : Intake (RecvBuf MsgCb) Empty UInt8 (List UInt8) :=
  RecvBuf.intake (fun nb =>
    match nb.cb with
    | .packet => .ok (nb.netRecvExpand (KoreMsg.ofBytes nb.buf).length.toNat .data, [])
    | .data => .ok (nb.netRecvReset KoreMsg.size .packet, [nb.buf]))

/-- A byte that has been written. -/
def NetSent.toByte : NetSent Empty → UInt8
  | .byte b => b

/-- One direction of a pair of sockets: what is sent, of which a part has been read, and the netbuf
of the receiver. -/
structure MsgConn where
  sender : Sender Empty
  taken : ℕ
  rnb : RecvBuf MsgCb
  deriving DecidableEq, Repr

namespace MsgConn

/-- A new pair of sockets. -/
def new : MsgConn := ⟨.new false, 0, .netRecvQueue KoreMsg.size .packet⟩

/-- `net_send_queue`. -/
def queue (c : MsgConn) (data : List UInt8) : MsgConn :=
  { c with sender := c.sender.netSendQueue data }

/-- A round of `net_send_flush`, if there is something to send. -/
def write (c : MsgConn) (r : WriteResult) : MsgConn :=
  match c.sender.sendQueue with
  | [] => c
  | nb :: rest =>
      match c.sender.netSend nb rest [r] with
      | none => c
      | some (_, s, _) => { c with sender := s }

/-- The bytes that are written and not read. -/
def pipe (c : MsgConn) : List UInt8 := (c.sender.sent.drop c.taken).map NetSent.toByte

/-- A round of `net_recv_flush`, where `read` gets no more than a number of bytes, and what has
been received then. -/
def read (c : MsgConn) (n : ℕ) : MsgConn × List (List UInt8) :=
  let l := c.pipe.take (min n (msgIntake.missing c.rnb))
  match msgIntake.read c.rnb l with
  | .ok (rnb, received) => ({ c with taken := c.taken + l.length, rnb := rnb }, received)

end MsgConn

/-! ## The parent and its workers -/

/-- The parent and `n` workers. `parentTypes` and `workerTypes` are the types that are registered;
what the callbacks of these get is in `parentCalls` and `workerCalls`, and what a worker gets at all
in `received`. -/
structure MsgBus (n : ℕ) where
  up : Fin n → MsgConn
  down : Fin n → MsgConn
  parentTypes : List UInt8
  workerTypes : Fin n → List UInt8
  parentCalls : List (List UInt8)
  workerCalls : Fin n → List (List UInt8)
  received : Fin n → List (List UInt8)

/-- The steps: a worker sends, a side writes or a side reads. -/
inductive MsgStep (n : ℕ) where
  | send (worker : Fin n) (dst : UInt16) (id : UInt8) (data : List UInt8) (pad₁ : UInt8)
      (pad₂ : UInt16)
  | workerWrite (worker : Fin n) (r : WriteResult)
  | parentWrite (worker : Fin n) (r : WriteResult)
  | parentRead (worker : Fin n) (size : ℕ)
  | workerRead (worker : Fin n) (size : ℕ)
  deriving DecidableEq, Repr

namespace MsgBus

variable {n : ℕ}

/-- The parent and its workers when all of them have been started. -/
def new (parentTypes : List UInt8) (workerTypes : Fin n → List UInt8) : MsgBus n :=
  ⟨fun _ => .new, fun _ => .new, parentTypes, workerTypes, [], fun _ => [], fun _ => []⟩

/-- `worker->id`. -/
def workerId (v : Fin n) : UInt16 := UInt16.ofNat v.val

/-- `msg_recv_data` in the parent, for what comes from a worker. A registered message for someone
else is fatal. -/
def parentRecvData (from_ : Fin n) (bus : MsgBus n) (buf : List UInt8) : Option (MsgBus n) :=
  let msg := KoreMsg.ofBytes buf
  if msg.id ∈ bus.parentTypes then
    if msg.dst ≠ koreMsgParent then none
    else some { bus with parentCalls := bus.parentCalls ++ [buf] }
  else
    some { bus with
      down := fun v =>
        if v = from_ then bus.down v
        else if msg.dst ≠ koreMsgWorkerAll ∧ workerId v ≠ msg.dst then bus.down v
        else (bus.down v).queue (KoreMsg.setDst buf (workerId v)) }

/-- `msg_recv_data` in a worker. A registered message for someone else is fatal. -/
def workerRecvData (worker : Fin n) (bus : MsgBus n) (buf : List UInt8) : Option (MsgBus n) :=
  let msg := KoreMsg.ofBytes buf
  let bus := { bus with
    received := Function.update bus.received worker (bus.received worker ++ [buf]) }
  if msg.id ∈ bus.workerTypes worker then
    if msg.dst ≠ workerId worker then none
    else some { bus with
      workerCalls := Function.update bus.workerCalls worker (bus.workerCalls worker ++ [buf]) }
  else some bus

/-- `kore_msg_send`; the length is one of 32 bits. -/
def koreMsgSend (bus : MsgBus n) (worker : Fin n) (dst : UInt16) (id : UInt8)
    (data : List UInt8) (pad₁ : UInt8) (pad₂ : UInt16) : MsgBus n :=
  let m : KoreMsg := ⟨id, pad₁, workerId worker, dst, pad₂, UInt32.ofNat data.length⟩
  { bus with
    up := Function.update bus.up worker (((bus.up worker).queue m.bytes).queue data) }

/-- One step. There is no next state where a side ends with a fatal error. -/
def step (bus : MsgBus n) : MsgStep n → Option (MsgBus n × Unit)
  | .send worker dst id data pad₁ pad₂ =>
      some (bus.koreMsgSend worker dst id data pad₁ pad₂, ())
  | .workerWrite worker r =>
      some ({ bus with up := Function.update bus.up worker ((bus.up worker).write r) }, ())
  | .parentWrite worker r =>
      some ({ bus with down := Function.update bus.down worker ((bus.down worker).write r) }, ())
  | .parentRead worker size =>
      let r := (bus.up worker).read size
      (r.2.foldlM (parentRecvData worker) { bus with up := Function.update bus.up worker r.1 }).map
        (fun bus => (bus, ()))
  | .workerRead worker size =>
      let r := (bus.down worker).read size
      (r.2.foldlM (workerRecvData worker)
        { bus with down := Function.update bus.down worker r.1 }).map (fun bus => (bus, ()))

end MsgBus

end Sparc
