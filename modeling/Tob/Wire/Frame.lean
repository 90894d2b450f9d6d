import Tob.Wire.Masking

/-!
# Frame

`Frame::serialize` and `Frame::deserialize`.  Pointers are addresses modulo `2 ^ 64`, the host is
little-endian, and `none` stands for an access outside of the buffer.
-/

namespace Tob

structure Frame where
  payload : Nat
  payloadLength : Nat
  maskKey : UInt32
  type : UInt8
  fin : UInt8
  masked : UInt8
  deriving DecidableEq, Repr

namespace Frame

def CONTINUATION : UInt8 := 0
def TEXT : UInt8 := 1
def BINARY : UInt8 := 2
def CONNECTION_CLOSE : UInt8 := 8
def PING : UInt8 := 9
def PONG : UInt8 := 10

def new : Frame := ⟨0, 0, 0, CONTINUATION, 0, 0⟩

/-- An address or a length in a 64-bit register. -/
def wrap (a : Nat) : Nat := a % 2 ^ 64

/-- The difference of two addresses, or of two lengths. -/
@[irreducible] def diff (a b : Nat) : Nat := wrap (a + 2 ^ 64 - b)

theorem diff_eq {a b : Nat} (hle : b ≤ a) (h : a - b < 2 ^ 64) : diff a b = a - b := by
  unfold diff wrap
  omega

/-! ## serialize -/

/-- `length` and `length_ext`. -/
def lengthField (size : Nat) : UInt8 × Nat :=
  if size ≤ 0x7D then (UInt8.ofNat size, 0)
  else if 0xFFFF < size then (0x7E, 2)
  else (0x7F, 8)

def maskSize (frame : Frame) : Nat := if frame.masked ≠ 0 then 4 else 0

/-- The first two bytes. -/
def startBytes (frame : Frame) (length : UInt8) : List UInt8 :=
  [(if frame.fin ≠ 0 then 0x80 else 0) ||| (frame.type &&& 0x0f),
    (if frame.masked ≠ 0 then 0x80 else 0) ||| length]

/-- The frame and its bytes; the size argument comes back as the number of bytes. -/
def serialize (frame : Frame) (payload : List UInt8) : Option (Frame × List UInt8) :=
  let size := payload.length
  let (length, lengthExt) := lengthField size
  let fullSize := wrap (size + 2 + frame.maskSize + lengthExt)
  (writeAt (List.replicate fullSize 0) 0 (frame.startBytes length)).bind fun data ↦
  (if lengthExt = 0 then some data
    -- `htons` keeps the low 16 bits; they are stored as a 32-bit word
    else if lengthExt = 2 then writeAt data 2 (beBytes 2 size ++ [0, 0])
    else writeAt data 2 (beBytes 8 size)).bind fun data ↦
  (if frame.masked ≠ 0 then writeAt data (2 + lengthExt) (beBytes 4 frame.maskKey.toNat)
    else some data).bind fun data ↦
  let offset := 2 + lengthExt + frame.maskSize
  (writeAt data offset payload).bind fun data ↦
  (if frame.masked ≠ 0 then
    (readAt data offset size).bind fun bytes ↦ writeAt data offset (maskPayload frame.maskKey bytes)
    else some data).bind fun data ↦
  some ({ frame with payloadLength := size }, data)

/-! ## deserialize -/

/-- What `deserialize` leaves: the frame, the pointer it returns and the memory behind `data`. -/
structure Decoded where
  frame : Frame
  stop : Nat
  mem : List UInt8
  deriving DecidableEq, Repr

/-- `deserialize` from the payload's bounds check on, with `current` at `data + offset`. -/
def deserializePayload (frame : Frame) (data : Nat) (mem : List UInt8) (END offset : Nat) :
    Option Decoded :=
  if END < wrap (data + offset + frame.payloadLength + frame.maskSize) then
    some ⟨frame, data, mem⟩
  else if frame.masked ≠ 0 then
    (readAt mem offset 4).bind fun key ↦
    let maskKey := UInt32.ofNat (beNat key)
    (readAt mem (offset + 4) frame.payloadLength).bind fun bytes ↦
    (writeAt mem (offset + 4) (maskPayload maskKey bytes)).bind fun mem ↦
    some ⟨{ frame with maskKey, payload := wrap (data + offset + 4) },
      wrap (data + offset + 4 + frame.payloadLength), mem⟩
  else
    some ⟨{ frame with maskKey := 0, payload := wrap (data + offset) },
      wrap (data + offset + frame.payloadLength), mem⟩

/-- A length in `bytes` more bytes; they must not be the last ones of the buffer. -/
def deserializeLength (frame : Frame) (data : Nat) (mem : List UInt8) (END bytes : Nat) :
    Option Decoded :=
  if END ≤ wrap (data + 2 + bytes) then some ⟨frame, data, mem⟩
  else
    (readAt mem 2 bytes).bind fun length ↦
    deserializePayload { frame with payloadLength := beNat length } data mem END (2 + bytes)

/-- `deserialize` on the memory that starts at the address `data`, of which `size` bytes have been
received; it returns `data` when the frame is not complete. -/
def deserialize (frame : Frame) (data : Nat) (mem : List UInt8) (size : Nat) : Option Decoded :=
  if size < 2 then some ⟨frame, data, mem⟩
  else
    let END := wrap (data + size)
    mem[0]?.bind fun first ↦
    mem[1]?.bind fun second ↦
    let frame := { frame with
      fin := first &&& 0x80, type := first &&& 0x0f, masked := second &&& 0x80,
      payloadLength := (second &&& 0x7f).toNat }
    if END ≤ wrap (data + 2) then some ⟨frame, data, mem⟩
    else if frame.payloadLength = 0x7E then deserializeLength frame data mem END 2
    else if frame.payloadLength = 0x7F then deserializeLength frame data mem END 8
    else deserializePayload frame data mem END 2

end Frame

end Tob
