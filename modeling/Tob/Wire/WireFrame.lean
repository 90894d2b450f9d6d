import Tob.Wire.Frame

/-!
# Frames on the wire

The format of a frame, and what `deserialize` does with a buffer that starts with one or with a part
of one.
-/

namespace Tob

/-- The three forms of the length field. -/
inductive LengthForm where
  | short
  | word
  | long
  deriving DecidableEq, Repr

namespace LengthForm

-- Bytes behind the first two.
def size : LengthForm → Nat
  | short => 0
  | word => 2
  | long => 8

/-- The lengths a form can express; the 64-bit one stops short of the sign bit. -/
def bound : LengthForm → Nat
  | short => 0x7E
  | word => 2 ^ 16
  | long => 2 ^ 63

def code (form : LengthForm) (length : Nat) : Nat :=
  match form with
  | short => length
  | word => 0x7E
  | long => 0x7F

theorem code_short (length : Nat) : short.code length = length := rfl

theorem code_word (length : Nat) : word.code length = 0x7E := rfl

theorem code_long (length : Nat) : long.code length = 0x7F := rfl

theorem code_lt {form : LengthForm} {length : Nat} (h : length < form.bound) :
    form.code length < 128 := by
  cases form with
  | short => exact lt_trans h (by decide)
  | word => show (0x7E : Nat) < 128; omega
  | long => show (0x7F : Nat) < 128; omega

theorem size_le (form : LengthForm) : form.size ≤ 8 := by cases form <;> decide

end LengthForm

/-- A well-formed frame: the first byte, the form of the length, the masking key if there is one and
the payload as it is transmitted. -/
structure WireFrame where
  first : UInt8
  form : LengthForm
  mask : Option UInt32
  payload : List UInt8
  fits : payload.length < form.bound

namespace WireFrame

variable (w : WireFrame)

def second : UInt8 :=
  (if w.mask.isSome then 0x80 else 0) ||| UInt8.ofNat (w.form.code w.payload.length)

def maskBytes : List UInt8 :=
  match w.mask with
  | none => []
  | some maskKey => beBytes 4 maskKey.toNat

/-- The first two bytes and the length behind them. -/
def start : List UInt8 := [w.first, w.second] ++ beBytes w.form.size w.payload.length

def bytes : List UInt8 := w.start ++ w.maskBytes ++ w.payload

/-- The payload without its mask. -/
def plain : List UInt8 :=
  match w.mask with
  | none => w.payload
  | some maskKey => maskPayload maskKey w.payload

/-- An empty frame without a mask has nothing behind its length. -/
def Bare : Prop := w.mask = none ∧ w.payload = []

instance : Decidable w.Bare := inferInstanceAs (Decidable (_ ∧ _))

@[simp] theorem length_start : w.start.length = 2 + w.form.size := by
  rw [start, List.length_append, length_beBytes]
  rfl

@[simp] theorem length_maskBytes : w.maskBytes.length = if w.mask.isSome then 4 else 0 := by
  unfold maskBytes
  cases w.mask with
  | none => rfl
  | some maskKey => exact length_beBytes 4 _

@[simp] theorem length_plain : w.plain.length = w.payload.length := by
  unfold plain
  cases w.mask with
  | none => rfl
  | some maskKey => exact length_maskPayload maskKey _

@[simp] theorem length_bytes :
    w.bytes.length = 2 + w.form.size + (if w.mask.isSome then 4 else 0) + w.payload.length := by
  rw [bytes, List.length_append, List.length_append, length_start, length_maskBytes]

theorem payload_lt : w.payload.length < 2 ^ 63 := by
  have hfits := w.fits
  have hbound : w.form.bound ≤ 2 ^ 63 := by cases w.form <;> decide
  omega

/-! ## Streams of frames -/

/-- The bytes of a list of frames. -/
def stream : List WireFrame → List UInt8
  | [] => []
  | w :: ws => w.bytes ++ stream ws

/-- The first of `len` bytes are this frame, and it is not a bare one at their end. -/
def Recognised (len : Nat) : Prop :=
  w.bytes.length ≤ len ∧ ¬ (w.Bare ∧ w.bytes.length = len)

instance (len : Nat) : Decidable (w.Recognised len) := inferInstanceAs (Decidable (_ ∧ _))

theorem length_bytes_pos : 0 < w.bytes.length := by
  rw [w.length_bytes]
  omega

theorem stream_append (ws ws' : List WireFrame) : stream (ws ++ ws') = stream ws ++ stream ws' := by
  induction ws with
  | nil => rfl
  | cons w ws ih => rw [List.cons_append, stream, stream, ih, List.append_assoc]

/-! ## The fields of the second byte -/

/-- The high bit of the second byte is the mask flag. -/
theorem field_masked {field : Nat} (h : field < 128) :
    (0x80 ||| UInt8.ofNat field) &&& 0x80 ≠ 0 ∧
      ((0 : UInt8) ||| UInt8.ofNat field) &&& 0x80 = 0 := by
  revert field
  decide +kernel

theorem second_masked : w.second &&& 0x80 ≠ 0 ↔ w.mask.isSome = true := by
  have hcode := field_masked (LengthForm.code_lt w.fits)
  unfold second
  cases w.mask with
  | none => exact iff_of_false (not_not.mpr hcode.2) Bool.false_ne_true
  | some maskKey => exact iff_of_true hcode.1 rfl

/-- The low seven bits of the second byte are its field, with the mask flag and without it. -/
theorem field_second {field : Nat} (h : field < 128) :
    ((0x80 ||| UInt8.ofNat field) &&& (0x7f : UInt8)).toNat = field ∧
      (((0 : UInt8) ||| UInt8.ofNat field) &&& (0x7f : UInt8)).toNat = field := by
  revert field
  decide +kernel

theorem second_length : (w.second &&& 0x7f).toNat = w.form.code w.payload.length := by
  have hcode := field_second (LengthForm.code_lt w.fits)
  unfold second
  cases w.mask with
  | none => exact hcode.2
  | some maskKey => exact hcode.1

/-! ## deserialize -/

/-- The frame as `deserialize` reads it from the address `data`. -/
def decoded (data : Nat) : Frame where
  payload := data + 2 + w.form.size + w.maskBytes.length
  payloadLength := w.payload.length
  maskKey := w.mask.getD 0
  type := w.first &&& 0x0f
  fin := w.first &&& 0x80
  masked := w.second &&& 0x80

end WireFrame

/-- The fields that the first two bytes and the length determine. -/
structure Frame.StartOf (frame : Frame) (w : WireFrame) : Prop where
  payloadLength : frame.payloadLength = w.payload.length
  type : frame.type = w.first &&& 0x0f
  fin : frame.fin = w.first &&& 0x80
  masked : frame.masked = w.second &&& 0x80

theorem Frame.StartOf.maskSize {frame : Frame} {w : WireFrame} (h : frame.StartOf w) :
    frame.maskSize = w.maskBytes.length := by
  rw [Frame.maskSize, h.masked, w.length_maskBytes]
  by_cases hm : w.mask.isSome = true
  · rw [if_pos (w.second_masked.mpr hm), if_pos hm]
  · rw [if_neg (fun h ↦ hm (w.second_masked.mp h)), if_neg hm]

namespace Frame

theorem wrap_eq {a : Nat} (h : a < 2 ^ 64) : wrap a = a := Nat.mod_eq_of_lt h

variable {w : WireFrame} {data : Nat}

-- More than the start of a frame has been received: the length is known.
theorem deserialize_start (frame : Frame) {got beyond : List UInt8} (hstart : w.start <+: got)
    (hmore : w.start.length < got.length) (hspace : data + got.length < 2 ^ 64) :
    ∃ frame' : Frame, frame'.StartOf w ∧
      deserialize frame data (got ++ beyond) got.length =
        deserializePayload frame' data (got ++ beyond) (data + got.length) (2 + w.form.size) := by
  rcases hstart with ⟨rest, rfl⟩
  rw [w.length_start] at hmore
  have hsize : (w.start ++ rest).length = 2 + w.form.size + rest.length := by
    rw [List.length_append, w.length_start]
  have hfits := w.fits
  unfold deserialize
  rw [if_neg (by omega), wrap_eq hspace]
  -- the first two bytes
  rw [show (w.start ++ rest ++ beyond)[0]? = some w.first from rfl,
    show (w.start ++ rest ++ beyond)[1]? = some w.second from rfl, Option.bind_some,
    Option.bind_some]
  simp only [w.second_length]
  rw [if_neg (by rw [wrap_eq (by omega)]; omega)]
  have hlength (bytes : Nat) (hform : w.form.size = bytes) (hlen : w.payload.length < 256 ^ bytes)
      (f : Frame) : deserializeLength f data (w.start ++ rest ++ beyond)
        (data + (w.start ++ rest).length) bytes =
        deserializePayload { f with payloadLength := w.payload.length } data
          (w.start ++ rest ++ beyond) (data + (w.start ++ rest).length) (2 + bytes) := by
    have hread : readAt (w.start ++ rest ++ beyond) 2 bytes =
        some (beBytes bytes w.payload.length) := by
      rw [WireFrame.start, hform, List.append_assoc]
      have h := readAt_append [w.first, w.second] (beBytes bytes w.payload.length) (rest ++ beyond)
      rw [length_beBytes] at h
      exact h
    rw [deserializeLength, if_neg (by rw [wrap_eq (by omega)]; omega), hread, Option.bind_some,
      beNat_beBytes hlen]
  cases hform : w.form with
  | short =>
      rw [hform] at hfits
      have hlt : w.payload.length < 0x7E := hfits
      rw [LengthForm.code_short, if_neg (by omega), if_neg (by omega)]
      exact ⟨_, ⟨rfl, rfl, rfl, rfl⟩, rfl⟩
  | word =>
      rw [hform] at hfits
      rw [LengthForm.code_word, if_pos rfl, hlength 2 (by rw [hform]; rfl) hfits]
      exact ⟨_, ⟨rfl, rfl, rfl, rfl⟩, rfl⟩
  | long =>
      have hlt := w.payload_lt
      rw [LengthForm.code_long, if_neg (by decide), if_pos rfl,
        hlength 8 (by rw [hform]; rfl) (lt_trans hlt (by decide))]
      exact ⟨_, ⟨rfl, rfl, rfl, rfl⟩, rfl⟩

-- No more than the start of a frame has been received.
theorem deserialize_short (frame : Frame) {got beyond : List UInt8} (hgot : got <+: w.bytes)
    (hless : got.length ≤ w.start.length) (hspace : data + w.bytes.length < 2 ^ 64) :
    ∃ frame', deserialize frame data (got ++ beyond) got.length =
      some ⟨frame', data, got ++ beyond⟩ := by
  have hle := hgot.length_le
  rw [w.length_start] at hless
  unfold deserialize
  by_cases htwo : got.length < 2
  · rw [if_pos htwo]
    exact ⟨_, rfl⟩
  · rw [if_neg htwo, wrap_eq (by omega)]
    have hsecond : [w.first, w.second] <+: got := by
      apply List.prefix_of_prefix_length_le _ hgot (by show 2 ≤ got.length; omega)
      exact ⟨beBytes w.form.size w.payload.length ++ w.maskBytes ++ w.payload, by
        rw [WireFrame.bytes, WireFrame.start, List.append_assoc, List.append_assoc,
          List.append_assoc]⟩
    rcases hsecond with ⟨rest, rfl⟩
    rw [show ([w.first, w.second] ++ rest ++ beyond)[0]? = some w.first from rfl,
      show ([w.first, w.second] ++ rest ++ beyond)[1]? = some w.second from rfl, Option.bind_some,
      Option.bind_some]
    simp only [w.second_length]
    have hspace' : data + 2 < 2 ^ 64 := by omega
    by_cases hend : data + ([w.first, w.second] ++ rest).length ≤ wrap (data + 2)
    · rw [if_pos hend]
      exact ⟨_, rfl⟩
    · rw [if_neg hend]
      rw [wrap_eq hspace'] at hend
      have hlength (bytes : Nat) (hform : w.form.size = bytes) (f : Frame) :
          deserializeLength f data ([w.first, w.second] ++ rest ++ beyond)
            (data + ([w.first, w.second] ++ rest).length) bytes =
            some ⟨f, data, [w.first, w.second] ++ rest ++ beyond⟩ := by
        have hw := w.length_bytes
        rw [deserializeLength, if_pos]
        rw [wrap_eq (by omega)]
        omega
      cases hform : w.form with
      | short =>
          rw [hform] at hless
          exact absurd (show _ ≤ 2 + 0 from hless) (by omega)
      | word =>
          rw [LengthForm.code_word, if_pos rfl, hlength 2 (by rw [hform]; rfl)]
          exact ⟨_, rfl⟩
      | long =>
          rw [LengthForm.code_long, if_neg (by decide), if_pos rfl, hlength 8 (by rw [hform]; rfl)]
          exact ⟨_, rfl⟩

-- The rest of `deserialize` when a part of the frame is missing, and when it is there.
theorem deserializePayload_part {frame : Frame} (hframe : frame.StartOf w) {mem : List UInt8}
    {END : Nat} (hend : END < data + w.bytes.length) (hspace : data + w.bytes.length < 2 ^ 64) :
    deserializePayload frame data mem END (2 + w.form.size) = some ⟨frame, data, mem⟩ := by
  have hlength := w.length_bytes
  rw [deserializePayload, if_pos]
  rw [hframe.payloadLength, hframe.maskSize, w.length_maskBytes, wrap_eq (by omega)]
  omega

-- Behind a key the payload is unmasked where it is.
theorem deserializePayload_key {frame : Frame} {data END : Nat} (maskKey : UInt32)
    (start after : List UInt8) {payload : List UInt8} (hmasked : frame.masked ≠ 0)
    (hlength : frame.payloadLength = payload.length)
    (hend : wrap (data + start.length + payload.length + 4) ≤ END) :
    let header := start ++ beBytes 4 maskKey.toNat
    deserializePayload frame data (header ++ payload ++ after) END start.length =
      some ⟨{ frame with maskKey, payload := wrap (data + start.length + 4) },
        wrap (data + start.length + 4 + payload.length),
        header ++ maskPayload maskKey payload ++ after⟩ := by
  intro header
  have hheader : header.length = start.length + 4 := by rw [List.length_append, length_beBytes]
  have hkey := readAt_append start (beBytes 4 maskKey.toNat) (payload ++ after)
  rw [length_beBytes, ← List.append_assoc] at hkey
  have hpayload := readAt_append header payload after
  have hwrite := writeAt_append header after (length_maskPayload maskKey payload)
  rw [hheader] at hpayload hwrite
  rw [deserializePayload, maskSize, if_pos hmasked, hlength, if_neg (Nat.not_lt.mpr hend),
    if_pos hmasked, hkey, Option.bind_some, ofNat_beNat_beBytes, hpayload, Option.bind_some,
    hwrite, Option.bind_some]

theorem deserializePayload_complete {frame : Frame} (hframe : frame.StartOf w)
    {rest : List UInt8} {END : Nat} (hend : data + w.bytes.length ≤ END) (hspace : END < 2 ^ 64) :
    deserializePayload frame data (w.bytes ++ rest) END (2 + w.form.size) =
      some ⟨w.decoded data, data + w.bytes.length, w.start ++ w.maskBytes ++ w.plain ++ rest⟩ := by
  have hlength := w.length_bytes
  have hsize := w.length_start
  have hmasked := w.second_masked
  rw [← hframe.masked] at hmasked
  cases hm : w.mask with
  | none =>
      rw [hm] at hmasked
      have hnone : w.maskBytes = [] := by rw [WireFrame.maskBytes, hm]
      have hbytes : w.bytes = w.start ++ w.payload := by
        rw [WireFrame.bytes, hnone, List.append_nil]
      rw [hbytes, List.length_append, hsize] at hend
      rw [deserializePayload, hframe.payloadLength, hframe.maskSize, hnone, List.length_nil,
        if_neg (by rw [wrap_eq (by omega)]; omega),
        if_neg (fun h ↦ Bool.false_ne_true (hmasked.mp h)), wrap_eq (by omega),
        wrap_eq (by omega), hframe.masked, hframe.type, hframe.fin, WireFrame.decoded,
        WireFrame.plain, hm, hnone, hbytes, List.length_append, hsize, List.append_nil,
        List.length_nil, Nat.add_assoc data, Nat.add_assoc data]
      rfl
  | some maskKey =>
      rw [hm] at hmasked
      have hkey : w.maskBytes = beBytes 4 maskKey.toNat := by rw [WireFrame.maskBytes, hm]
      have hbytes : w.bytes.length = 2 + w.form.size + 4 + w.payload.length := by
        rw [WireFrame.bytes, List.length_append, List.length_append, hsize, hkey, length_beBytes]
      rw [hbytes] at hend
      have hdecode := deserializePayload_key maskKey w.start rest (hmasked.mpr rfl)
        hframe.payloadLength (show wrap (data + w.start.length + w.payload.length + 4) ≤ END by
          rw [wrap_eq (by omega)]; omega)
      rw [← hkey, hsize] at hdecode
      have hplain : w.plain = maskPayload maskKey w.payload := by rw [WireFrame.plain, hm]
      have hfour : w.maskBytes.length = 4 := by rw [hkey, length_beBytes]
      rw [hplain, WireFrame.decoded, hm, hfour, hbytes, WireFrame.bytes, hdecode,
        wrap_eq (by omega), wrap_eq (by omega), hframe.masked, hframe.type, hframe.fin,
        hframe.payloadLength]
      simp only [Nat.add_assoc, Option.getD_some]

/-- A buffer with a part of a frame: nothing is read yet and nothing is touched. -/
theorem deserialize_part (frame : Frame) {got : List UInt8} (beyond : List UInt8)
    (hgot : got <+: w.bytes) (hne : got.length < w.bytes.length)
    (hspace : data + w.bytes.length < 2 ^ 64) :
    ∃ frame', deserialize frame data (got ++ beyond) got.length =
      some ⟨frame', data, got ++ beyond⟩ := by
  by_cases hmore : w.start.length < got.length
  · have hstart : w.start <+: got := by
      apply List.prefix_of_prefix_length_le _ hgot (le_of_lt hmore)
      rw [WireFrame.bytes, List.append_assoc]
      exact List.prefix_append _ _
    have hspace' : data + got.length < 2 ^ 64 := by omega
    rcases deserialize_start frame hstart hmore hspace' with ⟨frame', hframe, he⟩
    rw [he, deserializePayload_part hframe (by omega) hspace]
    exact ⟨frame', rfl⟩
  · exact deserialize_short frame hgot (by omega) hspace

/-- A buffer that starts with a frame: the frame is read and unmasked in place.  A bare frame
must not be the last one. -/
theorem deserialize_complete (frame : Frame) {rest : List UInt8} (beyond : List UInt8)
    (hlast : ¬ (w.Bare ∧ rest = [])) (hspace : data + (w.bytes ++ rest).length < 2 ^ 64) :
    deserialize frame data (w.bytes ++ rest ++ beyond) (w.bytes ++ rest).length =
      some ⟨w.decoded data, data + w.bytes.length,
        w.start ++ w.maskBytes ++ w.plain ++ rest ++ beyond⟩ := by
  have hstart : w.start <+: w.bytes ++ rest := by
    rw [WireFrame.bytes, List.append_assoc, List.append_assoc]
    exact List.prefix_append _ _
  have happend : (w.bytes ++ rest).length = w.bytes.length + rest.length := List.length_append
  have hmore : w.start.length < (w.bytes ++ rest).length := by
    by_contra hle
    have hbytes : w.bytes.length = w.start.length + w.maskBytes.length + w.payload.length := by
      rw [WireFrame.bytes, List.length_append, List.length_append]
    have hmask := w.length_maskBytes
    apply hlast
    refine ⟨⟨?_, List.length_eq_zero_iff.mp (by omega)⟩, List.length_eq_zero_iff.mp (by omega)⟩
    cases hm : w.mask with
    | none => rfl
    | some maskKey =>
        rw [hm] at hmask
        simp only [Option.isSome_some, if_true] at hmask
        omega
  rcases deserialize_start frame hstart hmore hspace with ⟨frame', hframe, he⟩
  rw [he, List.append_assoc, deserializePayload_complete hframe (by omega) hspace]
  simp only [List.append_assoc]

/-- The payload of a frame that has been read, without its mask. -/
theorem readAt_decoded (w : WireFrame) (data : Nat) (rest : List UInt8) :
    readAt (w.start ++ w.maskBytes ++ w.plain ++ rest) ((w.decoded data).payload - data)
      (w.decoded data).payloadLength = some w.plain := by
  have hoffset : (w.decoded data).payload - data = (w.start ++ w.maskBytes).length := by
    show data + 2 + w.form.size + w.maskBytes.length - data = _
    rw [List.length_append, w.length_start]
    omega
  rw [hoffset, show (w.decoded data).payloadLength = w.plain.length from w.length_plain.symm]
  exact readAt_append _ _ _

/-- The two differences of pointers by which the payload is read. -/
theorem diff_decoded (w : WireFrame) {data : Nat} (hspace : data + w.bytes.length < 2 ^ 64) :
    diff (w.decoded data).payload data = (w.decoded data).payload - data ∧
      diff (data + w.bytes.length) (w.decoded data).payload = (w.decoded data).payloadLength := by
  have hlength := w.length_bytes
  rw [← w.length_maskBytes] at hlength
  have hpayload : (w.decoded data).payload = data + 2 + w.form.size + w.maskBytes.length := rfl
  have hdeclared : (w.decoded data).payloadLength = w.payload.length := rfl
  constructor
  · exact diff_eq (by omega) (by omega)
  · rw [diff_eq (by omega) (by omega)]
    omega

/-- The empty frame without a mask at the end of the buffer is taken for a part of one. -/
theorem deserialize_bare (frame : Frame) (beyond : List UInt8) (hbare : w.Bare)
    (hspace : data + w.bytes.length < 2 ^ 64) :
    ∃ frame', deserialize frame data (w.bytes ++ beyond) w.bytes.length =
      some ⟨frame', data, w.bytes ++ beyond⟩ := by
  apply deserialize_short frame (List.prefix_refl _) _ hspace
  rw [WireFrame.bytes, WireFrame.maskBytes, hbare.1, hbare.2, List.append_nil, List.append_nil]

end Frame

end Tob
