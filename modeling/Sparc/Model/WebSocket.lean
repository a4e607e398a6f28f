import Sparc.Library.Machine
import Mathlib.Data.Nat.Notation

/-! # WebSockets: `sparc/detail/websocket.cpp` on `kore/websocket.c`

A connection is its state, its protocol and the bytes in its send queue. The queues are not
flushed here. What the callbacks of the application do is given as the calls they make on the
object. A call on an object that has been deleted, or a callback that takes something else for
one, has no result.
-/

namespace Sparc

/-- `CONN_STATE_UNKNOWN` to `CONN_STATE_DISCONNECTING`. -/
inductive ConnState where
  | unknown | sslShake | established | disconnecting
  deriving DecidableEq, Repr

/-- The members of `struct connection` that are used. -/
structure Connection where
  state : ConnState
  websocket : Bool
  sendQueue : List UInt8
  deriving DecidableEq, Repr

/-! ## Frames -/

/-- `net_write16` and `net_write64`: the low bytes of a number, the highest first. -/
def netWrite : ℕ → ℕ → List UInt8
  | 0, _ => []
  | bytes + 1, n => UInt8.ofNat (n / 256 ^ bytes) :: netWrite bytes n

/-- `WEBSOCKET_PAYLOAD_SINGLE`. -/
def payloadSingle : ℕ := 125

/-- `websocket_frame_build`. -/
def websocketFrame (op : UInt8) (data : List UInt8) : List UInt8 :=
  let len := data.length
  let len1 : ℕ := if payloadSingle < len then if len < 65535 then 126 else 127 else len
  (op ||| 0x80) :: UInt8.ofNat len1 ::
    ((if len1 = 126 then netWrite 2 len else if len1 = 127 then netWrite 8 len else []) ++ data)

/-! ## Objects -/

/-- The calls on a `WebSocket`. The overloads for strings are given the bytes that the pointer leads
to. -/
inductive WsCall where
  | send (str : List UInt8) (op : UInt8)
  | sendData (data : List UInt8) (op : UInt8)
  | broadcast (str : List UInt8) (op : UInt8)
  | broadcastData (data : List UInt8) (op : UInt8)
  | globalBroadcast (str : List UInt8) (op : UInt8)
  | globalBroadcastData (data : List UInt8) (op : UInt8)
  | close
  deriving DecidableEq, Repr

/-- The members of a `WebSocketImpl`; of the two pointers it matters whether they are NULL. -/
structure WebSocketImpl where
  conn : Bool
  handler : Bool
  markClose : Bool
  deriving DecidableEq, Repr

/-- A connection with its object, which can be deleted, the other connections, and the messages for
the other workers. `attached` says whether `data[0]` of the connection is the object and no longer
its handler. `onDisconnect` is the callback of the handler. -/
structure WsWorld where
  connection : Connection
  ws : Option WebSocketImpl
  attached : Bool
  onDisconnect : Option (List WsCall)
  others : List Connection
  messages : List (List UInt8)
  deriving DecidableEq, Repr

/-- The bytes in front of the terminator, as many as `strlen` counts. -/
def strBytes (str : List UInt8) : List UInt8 := str.takeWhile (· ≠ 0)

namespace WsWorld

/-- `kore_websocket_send`. -/
def websocketSend (w : WsWorld) (op : UInt8) (data : List UInt8) : WsWorld :=
  { w with connection :=
      { w.connection with sendQueue := w.connection.sendQueue ++ websocketFrame op data } }

/-- `kore_websocket_broadcast`; `global` is the scope `WEBSOCKET_BROADCAST_GLOBAL`. -/
def websocketBroadcast (w : WsWorld) (op : UInt8) (data : List UInt8) (global : Bool) : WsWorld :=
  { w with
    others := w.others.map (fun c =>
      if c.websocket then { c with sendQueue := c.sendQueue ++ websocketFrame op data } else c)
    messages := if global then w.messages ++ [websocketFrame op data] else w.messages }

/-- The methods of `WebSocketImpl`, with what `kore_connection_disconnect` does. -/
def call (disconnect : WsWorld → Option WsWorld) (w : WsWorld) (c : WsCall) : Option WsWorld :=
  w.ws.bind (fun ws =>
    match c with
    | .send str op => some (if ws.conn then w.websocketSend op (strBytes str) else w)
    | .sendData data op => some (if ws.conn then w.websocketSend op data else w)
    | .broadcast str op =>
        some (if ws.conn then w.websocketBroadcast op (strBytes str) false else w)
    | .broadcastData data op => some (if ws.conn then w.websocketBroadcast op data false else w)
    | .globalBroadcast str op =>
        some (if ws.conn then w.websocketBroadcast op (strBytes str) true else w)
    | .globalBroadcastData data op =>
        if ws.conn then disconnect (w.websocketBroadcast op data true) else some w
    | .close => some (if ws.markClose then w else { w with ws := some ⟨false, false, true⟩ }))

/-- `on_websocket_disconnect`. A connection that is being disconnected is not disconnected again,
so the callback does not get here a second time. -/
def onWebsocketDisconnect (w : WsWorld) : Option WsWorld :=
  if w.attached then
    w.ws.bind (fun ws =>
      (if ws.markClose = false ∧ ws.handler = true then
        (w.onDisconnect.getD []).foldlM (call some) w
      else some w).map (fun w => { w with ws := none }))
  else none

/-- `kore_connection_disconnect`. -/
def disconnect (w : WsWorld) : Option WsWorld :=
  if w.connection.state = .disconnecting then some w
  else onWebsocketDisconnect
    { w with connection := { w.connection with state := .disconnecting } }

/-- A call on the object. -/
def step (w : WsWorld) (c : WsCall) : Option (WsWorld × Unit) :=
  (call disconnect w c).map (fun w => (w, ()))

/-- `on_websocket_connect` for a connection with a handler: the object is in `data[0]` only when
`onConnect` has returned. -/
def onWebsocketConnect (connection : Connection) (onConnect onDisconnect : Option (List WsCall))
    (others : List Connection) (messages : List (List UInt8)) : Option WsWorld :=
  (Machine.exec step ⟨connection, some ⟨true, true, false⟩, false, onDisconnect, others, messages⟩
    (onConnect.getD [])).map (fun r => { r.1 with attached := true })

end WsWorld

end Sparc
