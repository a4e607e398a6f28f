import Sparc.Library.Octets
import Sparc.Model.Net
import Sparc.Model.WebSocket

/-! # Frames that a client sends: `kore/websocket.c`

The two callbacks of the netbuf of a WebSocket, `websocket_recv_opcode` and `websocket_recv_frame`,
with what they do to the connection as events. The callbacks of the application are set.
-/

namespace Sparc

/-- The opcodes `WEBSOCKET_OP_*`. -/
def websocketOpCont : UInt8 := 0x00
def websocketOpText : UInt8 := 0x01
def websocketOpBinary : UInt8 := 0x02
def websocketOpClose : UInt8 := 0x08
def websocketOpPing : UInt8 := 0x09
def websocketOpPong : UInt8 := 0x10

/-- `WEBSOCKET_FRAME_HDR`. -/
def websocketFrameHdr : ℕ := 2

/-- `WEBSOCKET_MASK_LEN`. -/
def websocketMaskLen : ℕ := 4

/-- The callbacks of `rnb`. -/
inductive WsCb where
  | opcode
  | frame
  deriving DecidableEq, Repr

/-- What a frame leads to: the callback `message` of the application, a frame that is sent back, or
`kore_connection_disconnect`. -/
inductive WsEvent where
  | message (op : UInt8) (data : List UInt8)
  | send (op : UInt8) (data : List UInt8)
  | disconnect
  deriving DecidableEq, Repr

/-- `net_read16` and `net_read64`: the first byte is the highest. -/
def netRead (bytes : ℕ) (b : List UInt8) : ℕ := Octets.value (b.take bytes).reverse

/-- The loop that removes the mask. -/
def websocketUnmask (mask data : List UInt8) : List UInt8 :=
  data.mapIdx (fun i b => b ^^^ mask.getD (i % 4) 0)

/-- The switch on the length in `websocket_recv_frame`: the bytes that it takes, and the length. -/
def websocketLength (buf : List UInt8) : ℕ × ℕ :=
  let len := (buf.getD 1 0 &&& 0x7f).toNat
  if len = 126 then (2, netRead 2 (buf.drop 2))
  else if len = 127 then (8, netRead 8 (buf.drop 2))
  else (0, len)

namespace RecvBuf

/-- `websocket_recv_opcode`. The second of the three bits that have to be zero is tested twice, and
the third is not. -/
def websocketRecvOpcode (nb : RecvBuf WsCb) : Except Unit (RecvBuf WsCb × List WsEvent) :=
  let b₀ := nb.buf.getD 0 0
  let b₁ := nb.buf.getD 1 0
  let len := (b₁ &&& 0x7f).toNat
  let op := b₀ &&& 0x0f
  if b₁ &&& 0x80 = 0 then .error ()
  else if b₀ &&& 0x40 ≠ 0 ∨ b₀ &&& 0x20 ≠ 0 ∨ b₀ &&& 0x20 ≠ 0 then .error ()
  else if op = websocketOpCont ∨ op = websocketOpText ∨ op = websocketOpBinary ∨
      ((op = websocketOpClose ∨ op = websocketOpPing ∨ op = websocketOpPong) ∧
        ¬ (payloadSingle < len ∨ b₀ &&& 0x80 = 0)) then
    let len := if len = 126 then len + 2 else if len = 127 then len + 8 else len
    .ok (nb.netRecvExpand (len + websocketMaskLen) .frame, [])
  else .error ()

/-- `websocket_recv_frame`. The number of bytes is one of 64 bits. -/
def websocketRecvFrame (maxframe : ℕ) (nb : RecvBuf WsCb) :
    Except Unit (RecvBuf WsCb × List WsEvent) :=
  let op := nb.buf.getD 0 0 &&& 0x0f
  let (extra, len) := websocketLength nb.buf
  let moff := websocketFrameHdr + extra
  if maxframe < len then .error ()
  else
    let total := (len + (extra + websocketFrameHdr) + websocketMaskLen) % 18446744073709551616
    if nb.bLen < total then .ok (nb.netRecvExpand (total - nb.bLen) .frame, [])
    else if total ≠ nb.bLen then .error ()
    else
      let data := websocketUnmask ((nb.buf.drop moff).take 4) ((nb.buf.drop (moff + 4)).take len)
      let reset := nb.netRecvReset websocketFrameHdr .opcode
      if op = websocketOpCont ∨ op = websocketOpPong then .error ()
      else if op = websocketOpText ∨ op = websocketOpBinary then .ok (reset, [.message op data])
      else if op = websocketOpClose then .ok (reset, [.disconnect])
      else if op = websocketOpPing then .ok (reset, [.send websocketOpPong data])
      else .error ()

end RecvBuf

/-- The netbuf of a WebSocket. -/
def websocketIntake (maxframe : ℕ) : Intake (RecvBuf WsCb) Unit UInt8 WsEvent :=
  RecvBuf.intake (fun nb =>
    match nb.cb with
    | .opcode => nb.websocketRecvOpcode
    | .frame => nb.websocketRecvFrame maxframe)

end Sparc
