import Tob.Library.Outcome
import Tob.Live.Orders
import Tob.Snapshot.Json
import Tob.Wire.Frame
import Tob.Wire.Head

/-!
# DiffLogic

The WebSocket client: `on_read` with the upgrade response, the frames and the diffs in them.  A
read puts its bytes behind `m_offset`; block copies have the meaning of `memmove`.
-/

namespace Tob

inductive DiffState where
  | handshake
  | handshakeResponse
  | inWork
  deriving DecidableEq, Repr

structure OutputFrame where
  frame : List UInt8
  size : Nat
  offset : Nat
  deriving DecidableEq, Repr

/-- `address` is where `m_buffer` starts. -/
structure DiffLogic (n : Nat) where
  address : Nat
  mOffset : Nat
  mBuffer : List UInt8
  mState : DiffState
  mOutputQueue : List OutputFrame
  mOrders : Orders n

def BUFFER_SIZE : Nat := 50000

/-- `STORE_ORDER` for every level of a list, up to the first one that throws. -/
def storeLevels {n : Nat} (conv : Conversions) (type timestamp : UInt64) :
    List Json → Orders n → Outcome (Orders n)
  | [], orders => .returned orders
  | level :: levels, orders =>
      match conv.level level with
      | .error what => .threw what orders
      | .ok (price, amount) =>
          match orders.addOrder ⟨type, timestamp, price, amount⟩ with
          | .error what => .threw what orders
          | .ok orders => storeLevels conv type timestamp levels orders

/-- The orders of a message with a timestamp; other messages have none. -/
def storeData {n : Nat} (conv : Conversions) (data : Json) (orders : Orders n) :
    Outcome (Orders n) :=
  match data.member "timestamp" with
  | .error what => .threw what orders
  | .ok jsonTimestamp =>
      if jsonTimestamp.isNull then .returned orders
      else
        match jsonTimestamp.asString.bind conv.stoll with
        | .error what => .threw what orders
        | .ok timestamp =>
            match data.member "bids" with
            | .error what => .threw what orders
            | .ok bids =>
                (storeLevels conv Order.BUY timestamp bids.values orders).andThen fun orders ↦
                  match data.member "asks" with
                  | .error what => .threw what orders
                  | .ok asks => storeLevels conv Order.SELL timestamp asks.values orders

/-- A message is an object whose `data` is a JSON text in a string; the assertions abort. -/
def storeMessage {n : Nat} (conv : Conversions) (root : Json) (orders : Orders n) :
    Outcome (Orders n) :=
  match root.member "data" with
  | .error what => .threw what orders
  | .ok jsonData =>
      if jsonData.isNull then .aborted orders
      else
        match jsonData.asString.bind fun text ↦ conv.parse text.toUTF8.toList with
        | .error what => .threw what orders
        | .ok none => .aborted orders
        | .ok (some data) => storeData conv data orders

namespace DiffLogic

variable {n : Nat}

/-- `m_buffer[0..m_offset)`. -/
def pending (d : DiffLogic n) : List UInt8 := d.mBuffer.take d.mOffset

def generateFrame (d : DiffLogic n) (type : UInt64) (message : List UInt8) (maskKey : UInt32) :
    Option (DiffLogic n) :=
  let frame : Frame :=
    { Frame.new with fin := 1, type := type.toUInt8, maskKey, masked := maskKey.toUInt8 }
  (Frame.serialize frame message).map fun (_, bytes) ↦
    { d with mOutputQueue := d.mOutputQueue ++ [⟨bytes, bytes.length, 0⟩] }

/-! ## on_read -/

/-- `socket->read` puts a chunk behind `m_offset`; a longer one than there is room for would leave
the buffer. -/
def receive (d : DiffLogic n) (chunk : List UInt8) : Option (DiffLogic n) :=
  (writeAt d.mBuffer d.mOffset chunk).map fun mBuffer ↦
    { d with mBuffer, mOffset := d.mOffset + chunk.length }

def subscription : String :=
  "\x7b\"event\":\"pusher:subscribe\",\"data\":\x7b\"channel\":\"diff_order_book\"\x7d\x7d"

/-- The part for `HANDSHAKE_RESPONSE`; the flag is false where it ends with `continue`.  `m_offset`
is first lowered to the number of bytes behind the delimiter, and then set to zero. -/
def handshakeResponse (d : DiffLogic n) : Option (DiffLogic n × Bool) :=
  match strstr HTTP_DELIMITER d.mBuffer with
  | .overrun => none
  | .ended => some (d, false)
  | .found delim =>
      -- the start of the delimiter is compared, not its end
      if d.mOffset < delim then some (d, false)
      else
        let left := Frame.diff d.mOffset (delim + 4)
        (readAt d.mBuffer (delim + 4) left).bind fun bytes ↦
        (writeAt d.mBuffer 0 bytes).bind fun mBuffer ↦
        (generateFrame { d with mBuffer, mState := .inWork, mOffset := 0 } Frame.TEXT.toUInt64
          (ascii subscription) 0).map fun d ↦ (d, true)

/-- `memmove(m_buffer, end, m_offset - (end - m_buffer)); m_offset -= end - m_buffer;` -/
def takeFrame (d : DiffLogic n) (stop : Nat) : Option (DiffLogic n) :=
  let taken := Frame.diff stop d.address
  let left := Frame.diff d.mOffset taken
  (readAt d.mBuffer taken left).bind fun bytes ↦
  (writeAt d.mBuffer 0 bytes).map fun mBuffer ↦ { d with mBuffer, mOffset := left }

/-- A ping is answered at once. -/
def answerPing (d : DiffLogic n) (frame : Frame) : Option (DiffLogic n) :=
  if frame.type = Frame.PING then d.generateFrame Frame.PONG.toUInt64 [] 0 else some d

/-- What `parse` has made of a payload: its orders are stored and the frame is removed, as it is
when the payload is no JSON. -/
def onParsed (conv : Conversions) (d : DiffLogic n) (parsed : Except String (Option Json))
    (stop : Nat) : Outcome (DiffLogic n) :=
  match parsed with
  | .error what => .threw what d
  | .ok none => .attempt (d.takeFrame stop) .returned
  | .ok (some root) =>
      match storeMessage conv root d.mOrders with
      -- the frame is taken off the buffer only when nothing has been thrown
      | .returned mOrders => .attempt (takeFrame { d with mOrders } stop) .returned
      | .threw what mOrders => .threw what { d with mOrders }
      | .aborted mOrders => .aborted { d with mOrders }
      | .undefined => .undefined

/-- The payload of a frame. -/
def onPayload (conv : Conversions) (d : DiffLogic n) (payload : List UInt8) (stop : Nat) :
    Outcome (DiffLogic n) := d.onParsed conv (conv.parse payload) stop

/-- A complete frame, from `payload` to `end`. -/
def onFrame (conv : Conversions) (d : DiffLogic n) (frame : Frame) (stop : Nat) :
    Outcome (DiffLogic n) :=
  .attempt (d.answerPing frame) fun d ↦
  .attempt (readAt d.mBuffer (Frame.diff frame.payload d.address)
    (Frame.diff stop frame.payload)) fun payload ↦
  d.onPayload conv payload stop

/-- The part for frames: at most one is taken off the buffer. -/
def frameStep (conv : Conversions) (d : DiffLogic n) : Outcome (DiffLogic n) :=
  .attempt (Frame.deserialize .new d.address d.mBuffer d.mOffset) fun decoded ↦
  if decoded.stop = d.address then .returned { d with mBuffer := decoded.mem }
  else onFrame conv { d with mBuffer := decoded.mem } decoded.frame decoded.stop

/-- The loop body after a read of `chunk`. -/
def readStep (conv : Conversions) (d : DiffLogic n) (chunk : List UInt8) : Outcome (DiffLogic n) :=
  .attempt (d.receive chunk) fun d ↦
  if d.mState = .handshakeResponse then
    .attempt d.handshakeResponse fun (d, upgraded) ↦
    if upgraded then d.frameStep conv else .returned d
  else d.frameStep conv

/-- `on_read` with the results of its reads; the one behind the last is zero. -/
def onRead (conv : Conversions) (d : DiffLogic n) : List (List UInt8) → Outcome (DiffLogic n)
  | [] => .returned d
  | chunk :: chunks =>
      if chunk = [] then .returned d
      else (d.readStep conv chunk).andThen fun d ↦ d.onRead conv chunks

theorem onRead_nil (conv : Conversions) (d : DiffLogic n) : d.onRead conv [] = .returned d := rfl

theorem onRead_cons (conv : Conversions) (d : DiffLogic n) {chunk : List UInt8}
    (hchunk : chunk ≠ []) (chunks : List (List UInt8)) :
    d.onRead conv (chunk :: chunks) =
      (d.readStep conv chunk).andThen fun d ↦ d.onRead conv chunks := by
  rw [onRead, if_neg hchunk]

/-! ## on_read with the byte behind a payload

`parse` also gets the byte that it finds behind the payload. -/

/-- The byte of `m_buffer` at `stop`; behind `m_buffer` lies `m_state`, which is no bracket. -/
def behind (d : DiffLogic n) (stop : Nat) : UInt8 := d.mBuffer.getD (Frame.diff stop d.address) 0

section Step

variable (parse : UInt8 → List UInt8 → Except String (Option Json)) (conv : Conversions)

/-- `onFrame` with the byte behind the payload. -/
def onFrameBehind (d : DiffLogic n) (frame : Frame) (stop : Nat) : Outcome (DiffLogic n) :=
  .attempt (d.answerPing frame) fun d ↦
  .attempt (readAt d.mBuffer (Frame.diff frame.payload d.address)
    (Frame.diff stop frame.payload)) fun payload ↦
  d.onParsed conv (parse (d.behind stop) payload) stop

def frameStepBehind (d : DiffLogic n) : Outcome (DiffLogic n) :=
  .attempt (Frame.deserialize .new d.address d.mBuffer d.mOffset) fun decoded ↦
  if decoded.stop = d.address then .returned { d with mBuffer := decoded.mem }
  else onFrameBehind parse conv { d with mBuffer := decoded.mem } decoded.frame decoded.stop

def readStepBehind (d : DiffLogic n) (chunk : List UInt8) : Outcome (DiffLogic n) :=
  .attempt (d.receive chunk) fun d ↦
  if d.mState = .handshakeResponse then
    .attempt d.handshakeResponse fun (d, upgraded) ↦
    if upgraded then d.frameStepBehind parse conv else .returned d
  else d.frameStepBehind parse conv

def onReadBehind (d : DiffLogic n) : List (List UInt8) → Outcome (DiffLogic n)
  | [] => .returned d
  | chunk :: chunks =>
      if chunk = [] then .returned d
      else (d.readStepBehind parse conv chunk).andThen fun d ↦ d.onReadBehind chunks

end Step

/-- The payload that a frame step parses, and the byte behind it. -/
def lookahead (d : DiffLogic n) : Option (List UInt8 × UInt8) :=
  (Frame.deserialize .new d.address d.mBuffer d.mOffset).bind fun decoded ↦
  if decoded.stop = d.address then none
  else
    (readAt decoded.mem (Frame.diff decoded.frame.payload d.address)
      (Frame.diff decoded.stop decoded.frame.payload)).map fun payload ↦
    (payload, behind { d with mBuffer := decoded.mem } decoded.stop)

end DiffLogic

end Tob
