import Tob.Library.Bytes
import Tob.Library.Outcome
import Tob.Wire.Frame
import Tob.Wire.Head

/-!
# ReceiveOrderBookLogic

The HTTP client for the snapshot: `on_read` with the header and the body.  The search for the end of
the header is a parameter; in the program it is `strstr`.
-/

namespace Tob

/-! ## get_body_size -/

def toLower (b : UInt8) : UInt8 := if 65 ≤ b ∧ b ≤ 90 then b + 32 else b

def isSpace (b : UInt8) : Bool := b = 32 ∨ 9 ≤ b ∧ b ≤ 13

def isDigit (b : UInt8) : Bool := 48 ≤ b ∧ b ≤ 57

/-- The text from the first match on, letters of either case. -/
def strcasestr (pattern : List UInt8) : List UInt8 → Option (List UInt8)
  | [] => if pattern = [] then some [] else none
  | b :: rest =>
      if pattern.map toLower <+: (b :: rest).map toLower then some (b :: rest)
      else strcasestr pattern rest

/-- A sign, if there is one, and what is behind it. -/
def splitSign : List UInt8 → Bool × List UInt8
  | [] => (false, [])
  | b :: rest =>
      if b = 45 then (true, rest) else if b = 43 then (false, rest) else (false, b :: rest)

def digitsValue (digits : List UInt8) : Nat :=
  digits.foldl (fun value d ↦ 10 * value + (d.toNat - 48)) 0

/-- `std::stoi`. -/
def stoi (text : List UInt8) : Except String Int :=
  let (negative, rest) := splitSign (text.dropWhile isSpace)
  let digits := rest.takeWhile isDigit
  let value : Int := if negative then -digitsValue digits else digitsValue digits
  if digits = [] then .error "stoi"
  else if value < -2 ^ 31 ∨ 2 ^ 31 ≤ value then .error "stoi"
  else .ok value

def CONTENT_LENGTH : List UInt8 := ascii "content-length: "

/-- `get_body_size`; the `int` becomes a `uint64_t`. -/
def getBodySize (header : List UInt8) : Except String Nat :=
  match strcasestr CONTENT_LENGTH header with
  | none => .error "no content-length"
  | some text => (stoi (text.drop CONTENT_LENGTH.length)).map fun value ↦ (value % 2 ^ 64).toNat

/-! ## The receiver -/

def JSON_BUF_INIT_VALUE : Nat := 5000

structure Receiver where
  mBuffer : List UInt8
  mReadOffset : Nat
  mJsonFullSize : Nat
  mReadyToReceiveJson : Bool
  mWaitForRead : Bool
  mSslConnected : Bool

/-- How `SSL_connect` ends: with a value other than `-1`, or with one of the errors. -/
inductive SslConnect where
  | done
  | wantRead
  | wantWrite
  | failed
  deriving DecidableEq, Repr

/-- A C string in a buffer. -/
def cString (buffer : List UInt8) : List UInt8 := buffer.takeWhile (· ≠ 0)

namespace Receiver

def new : Receiver := ⟨List.replicate JSON_BUF_INIT_VALUE 0, 0, 0, false, false, false⟩

/-- The state in which the request has been sent. -/
def requested : Receiver := { new with mWaitForRead := true, mSslConnected := true }

/-- `ssl_connect`; the assertion in its `default` aborts. -/
def sslConnect (r : Receiver) : SslConnect → Outcome (Receiver × Bool)
  | .done => .returned ({ r with mSslConnected := true, mWaitForRead := false }, true)
  | .wantRead => .returned ({ r with mWaitForRead := true }, false)
  | .wantWrite => .returned ({ r with mWaitForRead := false }, false)
  | .failed => .aborted (r, false)

/-- `memcpy(&target[0], &m_buffer[from], m_read_offset)`. -/
def copyTo (r : Receiver) (source : Nat) (target : List UInt8) : Option (List UInt8) :=
  (readAt r.mBuffer source r.mReadOffset).bind fun bytes ↦ writeAt target 0 bytes

/-- `process_header`.  `resize` throws where the size is none a vector can have. -/
def processHeader (search : List UInt8 → Search) (r : Receiver) : Outcome (Receiver × Bool) :=
  match search r.mBuffer with
  | .overrun => .undefined
  | .ended =>
      -- a full buffer without a header gets twice the size
      if r.mReadOffset = r.mBuffer.length then
        if 2 ^ 63 ≤ 2 * r.mBuffer.length then .threw "vector::_M_default_append" (r, false)
        else
          .attempt (r.copyTo 0 (List.replicate (2 * r.mBuffer.length) 0)) fun mBuffer ↦
          .returned ({ r with mBuffer }, false)
      else .returned (r, false)
  | .found delim =>
      -- the header becomes a C string
      let r := { r with mBuffer := r.mBuffer.set delim 0 }
      match getBodySize (cString r.mBuffer) with
      | .error what => .threw what (r, false)
      | .ok bodySize =>
          if bodySize = 0 then .threw "invalid content_length value" (r, false)
          else
            -- what is behind the header moves to the front of the buffer
            let r := { r with
              mJsonFullSize := bodySize, mReadOffset := Frame.diff r.mReadOffset (delim + 4) }
            if r.mBuffer.length < bodySize then
              if 2 ^ 63 ≤ bodySize then .threw "vector::_M_default_append" (r, false)
              else
                .attempt (r.copyTo (delim + 4) (List.replicate bodySize 0)) fun mBuffer ↦
                .returned ({ r with mBuffer, mReadyToReceiveJson := true }, true)
            else
              .attempt (r.copyTo (delim + 4) r.mBuffer) fun mBuffer ↦
              .returned ({ r with mBuffer, mReadyToReceiveJson := true }, true)

/-! ## on_read -/

/-- `SSL_read` into `room` bytes when it has no more than `limit` of the bytes that come in; nothing
read ends the loop. -/
def sslRead (limit room : Nat) (incoming : List UInt8) : List UInt8 :=
  incoming.take (min limit room)

/-- The room offered, from the size the buffer had before the loop. -/
def room (r : Receiver) (bufferSize : Nat) : Nat := Frame.diff bufferSize r.mReadOffset

/-- What a read puts into the buffer. -/
def store (r : Receiver) (chunk : List UInt8) : Option Receiver :=
  (writeAt r.mBuffer r.mReadOffset chunk).map fun mBuffer ↦
    { r with mBuffer, mReadOffset := r.mReadOffset + chunk.length }

/-- The body of the read loop behind a read; the flag is true where it breaks. -/
def advance (search : List UInt8 → Search) (r : Receiver) : Outcome (Receiver × Bool) :=
  if r.mReadyToReceiveJson then .returned (r, r.mReadOffset = r.mJsonFullSize)
  else
    match r.processHeader search with
    | .returned (r, complete) => .returned (r, complete && r.mReadOffset = r.mJsonFullSize)
    | .threw what s => .threw what s
    | .aborted s => .aborted s
    | .undefined => .undefined

/-- What an `on_read` call leaves: the receiver, the bytes not read yet, and the bytes it has handed
to `process_json`, after which the socket is closed. -/
structure Progress where
  receiver : Receiver
  incoming : List UInt8
  body : Option (List UInt8)

/-- Leave the loop, or go on with it. -/
def proceed (loop : Receiver → Outcome Progress) (rest : List UInt8) :
    Outcome (Receiver × Bool) → Outcome Progress
  | .returned (r, false) => loop r
  | .returned (r, true) => .returned ⟨r, rest, none⟩
  | .threw what (r, _) => .threw what ⟨r, rest, none⟩
  | .aborted (r, _) => .aborted ⟨r, rest, none⟩
  | .undefined => .undefined

/-- The read loop, one limit for every `SSL_read`; behind the last one nothing is available. -/
def readLoop (search : List UInt8 → Search) (bufferSize : Nat) :
    List Nat → Receiver → List UInt8 → Outcome Progress
  | [], r, incoming => .returned ⟨r, incoming, none⟩
  | limit :: limits, r, incoming =>
      let chunk := sslRead limit (r.room bufferSize) incoming
      let rest := incoming.drop chunk.length
      if chunk = [] then .returned ⟨r, incoming, none⟩
      else
        .attempt (r.store chunk) fun r ↦
        proceed (fun r ↦ readLoop search bufferSize limits r rest) rest (r.advance search)

/-- The test behind the read loop. -/
def finish (p : Progress) : Outcome Progress :=
  if p.receiver.mReadOffset = p.receiver.mBuffer.length then
    .attempt (readAt p.receiver.mBuffer 0 p.receiver.mJsonFullSize) fun body ↦
    .returned { p with body := some body }
  else .returned p

/-- `on_read`. -/
def onRead (search : List UInt8 → Search) (connect : SslConnect) (limits : List Nat) (r : Receiver)
    (incoming : List UInt8) : Outcome Progress :=
  if !r.mWaitForRead then .returned ⟨r, incoming, none⟩
  else if !r.mSslConnected then
    (r.sslConnect connect).map fun (r, _) ↦ ⟨r, incoming, none⟩
  else (readLoop search r.mBuffer.length limits r incoming).andThen finish

/-- `on_read` calls, one list of limits for each, until the socket is closed. -/
def run (search : List UInt8 → Search) :
    List (List Nat) → Receiver → List UInt8 → Outcome Progress
  | [], r, incoming => .returned ⟨r, incoming, none⟩
  | limits :: calls, r, incoming =>
      (r.onRead search .done limits incoming).andThen fun p ↦
        if p.body.isSome then .returned p else run search calls p.receiver p.incoming

-- The test behind the read loop leaves the receiver alone.
theorem finish_keeps {p p' : Progress} (h : (finish p).state? = some p') :
    p'.receiver = p.receiver ∧ p'.incoming = p.incoming := by
  unfold finish at h
  split at h
  · rcases Outcome.attempt_state?.mp h with ⟨body, -, hp⟩
    cases hp
    exact ⟨rfl, rfl⟩
  · cases h
    exact ⟨rfl, rfl⟩

end Receiver

end Tob
