import Tob.Wire.WireFrame

/-!
# What serialize writes

The start, the length, the masking key and the payload, one behind the other.
-/

namespace Tob

namespace Frame

def lengthBytes (size : Nat) : List UInt8 :=
  if size ≤ 0x7D then [] else if 0xFFFF < size then beBytes 2 size else beBytes 8 size

def keyBytes (frame : Frame) : List UInt8 :=
  if frame.masked ≠ 0 then beBytes 4 frame.maskKey.toNat else []

def body (frame : Frame) (payload : List UInt8) : List UInt8 :=
  if frame.masked ≠ 0 then maskPayload frame.maskKey payload else payload

@[simp] theorem length_keyBytes (frame : Frame) : frame.keyBytes.length = frame.maskSize := by
  unfold keyBytes maskSize
  split
  · exact length_beBytes 4 _
  · rfl

@[simp] theorem length_body (frame : Frame) (payload : List UInt8) :
    (frame.body payload).length = payload.length := by
  unfold body
  split
  · exact length_maskPayload _ _
  · rfl

theorem lengthField_snd (size : Nat) : (lengthField size).2 = (lengthBytes size).length := by
  unfold lengthField lengthBytes
  split
  · rfl
  · split
    · rw [length_beBytes]
    · rw [length_beBytes]

theorem length_lengthBytes_le (size : Nat) : (lengthBytes size).length ≤ 8 := by
  unfold lengthBytes
  split
  · exact Nat.zero_le 8
  · split
    · rw [length_beBytes]; omega
    · rw [length_beBytes]

theorem maskSize_le (frame : Frame) : frame.maskSize ≤ 4 := by
  unfold maskSize
  split
  · omega
  · omega

-- The length goes behind the first two bytes; a word is stored where it has 16 bits.
theorem serialize_length {start : List UInt8} (hstart : start.length = 2) {size room : Nat}
    (hroom : (lengthBytes size).length + size ≤ room) :
    (if (lengthField size).2 = 0 then some (start ++ List.replicate room 0)
      else if (lengthField size).2 = 2 then
        writeAt (start ++ List.replicate room 0) 2 (beBytes 2 size ++ [0, 0])
      else writeAt (start ++ List.replicate room 0) 2 (beBytes 8 size)) =
      some (start ++ lengthBytes size ++
        List.replicate (room - (lengthBytes size).length) 0) := by
  unfold lengthBytes at hroom ⊢
  unfold lengthField
  by_cases hshort : size ≤ 0x7D
  · rw [if_pos hshort, if_pos hshort, if_pos rfl, List.append_nil]
    rfl
  · rw [if_neg hshort] at hroom
    rw [if_neg hshort, if_neg hshort]
    by_cases hlong : 0xFFFF < size
    · rw [if_pos hlong, length_beBytes] at hroom
      have hword : (beBytes 2 size ++ [0, 0]).length = 4 := by
        rw [List.length_append, length_beBytes]; rfl
      have hzeros : List.replicate (room - 2) (0 : UInt8) =
          [0, 0] ++ List.replicate (room - 4) 0 := by
        rw [show room - 2 = 2 + (room - 4) by omega, List.replicate_add]; rfl
      rw [if_pos hlong, if_pos hlong, if_neg (by decide), if_pos rfl,
        writeAt_zeros hstart (by omega), hword, length_beBytes, hzeros]
      simp only [List.append_assoc]
    · rw [if_neg hlong, length_beBytes] at hroom
      have hlong' : (beBytes 8 size).length ≤ room := by rw [length_beBytes]; omega
      rw [if_neg hlong, if_neg hlong, if_neg (by decide), if_neg (by decide),
        writeAt_zeros hstart hlong']

theorem serialize_key (frame : Frame) {head : List UInt8} {offset room : Nat}
    (hoffset : head.length = offset) :
    (if frame.masked ≠ 0 then
        writeAt (head ++ List.replicate (frame.maskSize + room) 0) offset
          (beBytes 4 frame.maskKey.toNat)
      else some (head ++ List.replicate (frame.maskSize + room) 0)) =
      some (head ++ frame.keyBytes ++ List.replicate room 0) := by
  unfold keyBytes maskSize
  by_cases hm : frame.masked ≠ 0
  · rw [if_pos hm, if_pos hm, if_pos hm,
      writeAt_zeros hoffset (by rw [length_beBytes]; omega), length_beBytes,
      Nat.add_sub_cancel_left]
  · rw [if_neg hm, if_neg hm, if_neg hm, List.append_nil, Nat.zero_add]

theorem serialize_body (frame : Frame) {head payload : List UInt8} {offset : Nat}
    (hoffset : head.length = offset) :
    (if frame.masked ≠ 0 then
        (readAt (head ++ payload) offset payload.length).bind fun bytes ↦
          writeAt (head ++ payload) offset (maskPayload frame.maskKey bytes)
      else some (head ++ payload)) = some (head ++ frame.body payload) := by
  unfold body
  by_cases hm : frame.masked ≠ 0
  · have hread := readAt_append head payload []
    have hwrite := writeAt_append head [] (length_maskPayload frame.maskKey payload)
    rw [List.append_nil, hoffset] at hread hwrite
    rw [if_pos hm, if_pos hm, hread, Option.bind_some, hwrite, List.append_nil]
  · rw [if_neg hm, if_neg hm]

theorem serialize_eq (frame : Frame) {payload : List UInt8} (hsize : payload.length + 14 < 2 ^ 64) :
    serialize frame payload = some ({ frame with payloadLength := payload.length },
      frame.startBytes (lengthField payload.length).1 ++ lengthBytes payload.length ++
        frame.keyBytes ++ frame.body payload) := by
  have hext := length_lengthBytes_le payload.length
  have hmask := frame.maskSize_le
  have hfield := lengthField_snd payload.length
  -- how much is left after the start, the length, the key and the payload
  have hroom : payload.length + 2 + frame.maskSize + (lengthField payload.length).2 =
      2 + ((lengthBytes payload.length).length + (frame.maskSize + payload.length)) := by omega
  have hstart : (frame.startBytes (lengthField payload.length).1).length = 2 := rfl
  have hfirst (zeros : List UInt8) : writeAt (List.replicate 2 0 ++ zeros) 0
      (frame.startBytes (lengthField payload.length).1) =
      some (frame.startBytes (lengthField payload.length).1 ++ zeros) :=
    writeAt_append [] zeros rfl
  have hhead : (frame.startBytes (lengthField payload.length).1 ++
      lengthBytes payload.length).length = 2 + (lengthField payload.length).2 := by
    rw [List.length_append, hstart, hfield]
  have hoffset : (frame.startBytes (lengthField payload.length).1 ++ lengthBytes payload.length ++
      frame.keyBytes).length = 2 + (lengthField payload.length).2 + frame.maskSize := by
    rw [List.length_append, hhead, length_keyBytes]
  unfold serialize
  simp only
  rw [wrap_eq (by omega), hroom, List.replicate_add, hfirst, Option.bind_some,
    serialize_length hstart (by omega), Option.bind_some, Nat.add_sub_cancel_left,
    serialize_key frame hhead, Option.bind_some, writeAt_zeros hoffset (le_refl _),
    Option.bind_some, Nat.sub_self, List.replicate_zero, List.append_nil,
    serialize_body frame hoffset, Option.bind_some]

/-- Whatever is written has the first two bytes. -/
theorem two_le_length_serialize {frame frame' : Frame} {payload bytes : List UInt8}
    (h : serialize frame payload = some (frame', bytes)) :
    2 ≤ bytes.length ∧ bytes.length < 2 ^ 64 := by
  unfold serialize at h
  simp only [Option.bind_eq_some_iff, Option.some_inj, Prod.mk.injEq] at h
  obtain ⟨data₁, hstart, data₂, hext, data₃, hkey, data₄, hpayload, data₅, hmask, -, rfl⟩ := h
  -- every step writes into the same number of bytes
  have h₁ := length_writeAt hstart
  have h₂ : data₂.length = data₁.length := by
    split at hext
    · cases hext
      rfl
    · split at hext
      · exact length_writeAt hext
      · exact length_writeAt hext
  have h₃ : data₃.length = data₂.length := by
    split at hkey
    · exact length_writeAt hkey
    · cases hkey
      rfl
  have h₄ := length_writeAt hpayload
  have h₅ : data₅.length = data₄.length := by
    split at hmask
    · obtain ⟨bytes, -, hwrite⟩ := Option.bind_eq_some_iff.mp hmask
      exact length_writeAt hwrite
    · cases hmask
      rfl
  rw [List.length_replicate] at h₁
  have hlt := Nat.mod_lt (payload.length + 2 + frame.maskSize + (lengthField payload.length).2)
    (show 0 < 2 ^ 64 by decide)
  have htwo : 2 ≤ data₁.length := by
    rw [writeAt] at hstart
    by_cases hroom : 0 + (frame.startBytes (lengthField payload.length).1).length ≤
        (List.replicate (wrap (payload.length + 2 + frame.maskSize +
          (lengthField payload.length).2)) (0 : UInt8)).length
    · rw [List.length_replicate] at hroom
      rw [h₁]
      exact hroom
    · rw [if_neg hroom] at hstart
      cases hstart
  rw [h₅, h₄, h₃, h₂]
  exact ⟨htwo, h₁ ▸ hlt⟩

end Frame

end Tob
