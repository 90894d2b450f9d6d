import Tob.Wire.Serialize

/-!
# The wire format

What the protocol asks of the length and of the masking, beside what `serialize` writes and what
`deserialize` makes of it.
-/

namespace Tob

/-! ## The length -/

/-- The form the protocol has for a length. -/
def LengthForm.canonical (length : Nat) : LengthForm :=
  if length ≤ 125 then short else if length ≤ 65535 then word else long

namespace Frame

/-- The length in the bytes of a frame is canonical, and it is the number of payload bytes. -/
structure CanonicalLength (frame : Frame) (length : Nat) (bytes : List UInt8) : Prop where
  field : bytes[1]?.map (fun second ↦ (second &&& 0x7f).toNat) =
    some ((LengthForm.canonical length).code length)
  ext : readAt bytes 2 (LengthForm.canonical length).size =
    some (beBytes (LengthForm.canonical length).size length)
  size : bytes.length = 2 + (LengthForm.canonical length).size + frame.maskSize + length

/-- The field that `serialize` writes: the two forms with more bytes are the wrong way round. -/
def writtenField (length : Nat) : Nat :=
  if length ≤ 125 then length else if 65535 < length then 126 else 127

theorem writtenField_lt (length : Nat) : writtenField length < 128 := by
  unfold writtenField
  split
  · omega
  · split <;> omega

theorem lengthField_fst (length : Nat) :
    (lengthField length).1 = UInt8.ofNat (writtenField length) := by
  unfold lengthField writtenField
  by_cases hshort : length ≤ 125
  · rw [if_pos hshort, if_pos hshort]
  · rw [if_neg hshort, if_neg hshort]
    by_cases hlong : 65535 < length
    · rw [if_pos hlong, if_pos hlong]
      rfl
    · rw [if_neg hlong, if_neg hlong]
      rfl

theorem startBytes_field (frame : Frame) {field : Nat} (h : field < 128) (rest : List UInt8) :
    (frame.startBytes (UInt8.ofNat field) ++ rest)[1]?.map (fun second ↦ (second &&& 0x7f).toNat) =
      some field := by
  have hfield := WireFrame.field_second h
  show some (((if frame.masked ≠ 0 then 0x80 else 0) ||| UInt8.ofNat field) &&& 0x7f).toNat = _
  by_cases hm : frame.masked ≠ 0
  · rw [if_pos hm, hfield.1]
  · rw [if_neg hm, hfield.2]

theorem serialize_field {frame frame' : Frame} {payload bytes : List UInt8}
    (hsize : payload.length + 14 < 2 ^ 64) (h : serialize frame payload = some (frame', bytes)) :
    bytes[1]?.map (fun second ↦ (second &&& 0x7f).toNat) =
      some (writtenField payload.length) := by
  rw [serialize_eq frame hsize, lengthField_fst] at h
  cases h
  rw [List.append_assoc, List.append_assoc]
  exact startBytes_field frame (writtenField_lt _) _

/-- The length is canonical up to 125 bytes, and never above. -/
theorem serialize_canonical_iff (frame : Frame) (payload : List UInt8)
    (hsize : payload.length < 2 ^ 63) :
    (∃ frame' bytes, serialize frame payload = some (frame', bytes) ∧
      CanonicalLength frame payload.length bytes) ↔ payload.length ≤ 125 := by
  apply Iff.intro
  · rintro ⟨frame', bytes, he, h⟩
    have hwritten := h.field
    rw [serialize_field (by omega) he, Option.some_inj, writtenField,
      LengthForm.canonical] at hwritten
    by_contra hmore
    rw [if_neg hmore, if_neg hmore] at hwritten
    by_cases hlong : payload.length ≤ 65535
    · rw [if_neg (by omega), if_pos hlong, LengthForm.code_word] at hwritten
      omega
    · rw [if_pos (by omega), if_neg hlong, LengthForm.code_long] at hwritten
      omega
  · intro hshort
    have hform : LengthForm.canonical payload.length = .short := if_pos hshort
    have hnone : lengthBytes payload.length = [] := if_pos hshort
    have he := serialize_eq frame (show payload.length + 14 < 2 ^ 64 by omega)
    refine ⟨_, _, he, ?_, ?_, ?_⟩
    · rw [serialize_field (by omega) he, hform, LengthForm.code_short]
      exact congrArg some (if_pos hshort)
    · rw [hform]
      exact if_pos (Nat.le_add_left 2 _)
    · rw [hform, hnone, List.append_nil, List.length_append, List.length_append, length_keyBytes,
        length_body]
      rfl

theorem serialize_canonical_iff_example :
    ∃ frame' bytes, serialize .new [0x78] = some (frame', bytes) ∧ CanonicalLength .new 1 bytes :=
  (serialize_canonical_iff .new [0x78] (by decide)).mpr (by decide)

/-- 126 bytes get the field 127, and 65536 bytes get 126. -/
theorem serialize_swaps_forms :
    (¬ ∃ frame' bytes, serialize .new (List.replicate 126 0) = some (frame', bytes) ∧
      CanonicalLength .new 126 bytes) ∧
    ¬ ∃ frame' bytes, serialize .new (List.replicate 65536 0) = some (frame', bytes) ∧
      CanonicalLength .new 65536 bytes := by
  have hlength (count : Nat) : (List.replicate count (0 : UInt8)).length = count :=
    List.length_replicate
  apply And.intro
  · rintro ⟨frame', bytes, he, h⟩
    have hfield := h.field
    rw [serialize_field (by rw [hlength]; omega) he, hlength] at hfield
    exact absurd hfield (by decide)
  · rintro ⟨frame', bytes, he, h⟩
    have hfield := h.field
    rw [serialize_field (by rw [hlength]; omega) he, hlength] at hfield
    exact absurd hfield (by decide)

end Frame

/-! ## The masking -/

/-- Every octet with the octet of the key that its index selects. -/
def xorWith (key : Nat → UInt8) (payload : List UInt8) : List UInt8 :=
  payload.mapIdx fun i b ↦ b ^^^ key i

@[simp] theorem length_xorWith (key : Nat → UInt8) (payload : List UInt8) :
    (xorWith key payload).length = payload.length := List.length_mapIdx

-- The octets of a payload tell the keys apart as far as it reaches.
theorem xorWith_eq_iff (key key' : Nat → UInt8) (payload : List UInt8) :
    xorWith key payload = xorWith key' payload ↔ ∀ i < payload.length, key i = key' i := by
  apply Iff.intro
  · intro h i hi
    have hoctet := congrArg (fun octets ↦ octets[i]?) h
    simp only [xorWith, List.getElem?_mapIdx, List.getElem?_eq_getElem hi, Option.map_some,
      Option.some_inj] at hoctet
    have hcancel := congrArg (payload[i] ^^^ ·) hoctet
    simp only [← UInt8.xor_assoc, UInt8.xor_self, UInt8.zero_xor] at hcancel
    exact hcancel
  · intro h
    apply List.ext_getElem (by rw [length_xorWith, length_xorWith])
    intro i hi _
    rw [length_xorWith] at hi
    simp only [xorWith, List.getElem_mapIdx, h i hi]

theorem maskTail_eq_xorWith (maskKey : UInt32) (i : Nat) (bytes : List UInt8) :
    maskTail maskKey i bytes = xorWith (fun j ↦ leByte maskKey ((i + j) % 4)) bytes := by
  induction bytes generalizing i with
  | nil => rfl
  | cons b rest ih =>
      rw [maskTail, ih, xorWith, xorWith, List.mapIdx_cons]
      simp only [Nat.add_zero, Nat.add_assoc, Nat.add_comm 1]

/-- The two loops use the bytes of the key as the host has them. -/
theorem maskPayload_eq_xorWith (maskKey : UInt32) (payload : List UInt8) :
    maskPayload maskKey payload = xorWith (fun i ↦ leByte maskKey (i % 4)) payload := by
  rw [maskPayload_eq_maskTail, maskTail_eq_xorWith]
  simp only [Nat.zero_add]

/-- The octet of a four-octet key that index `i` selects. -/
def octetOf (key : List UInt8) (i : Nat) : UInt8 := key.getD (i % 4) 0

theorem leByte_eq_ofNat (w : UInt32) (i : Nat) :
    leByte w i = UInt8.ofNat (w.toNat / 256 ^ i) := by
  apply UInt8.toNat_inj.mp
  show (w.toBitVec.extractLsb' (8 * i) 8).toNat = _
  rw [BitVec.extractLsb'_toNat, UInt8.toNat_ofNat', Nat.shiftRight_eq_div_pow, pow_mul]
  rfl

/-- On the wire the bytes of the key come in the other order. -/
theorem octetOf_beBytes (maskKey : UInt32) (i : Nat) :
    octetOf (beBytes 4 maskKey.toNat) i = leByte maskKey (3 - i % 4) := by
  have hbytes : beBytes 4 maskKey.toNat =
      [leByte maskKey 3, leByte maskKey 2, leByte maskKey 1, leByte maskKey 0] := by
    simp only [beBytes, leByte_eq_ofNat]
  have hlt : i % 4 < 4 := Nat.mod_lt _ (by decide)
  rw [octetOf, hbytes]
  interval_cases i % 4 <;> rfl

/-- The two orders agree as far as the payload reaches. -/
theorem octets_agree_iff (maskKey : UInt32) (length : Nat) :
    (∀ i < length, leByte maskKey (i % 4) = octetOf (beBytes 4 maskKey.toNat) i) ↔
      length = 0 ∨ leByte maskKey 0 = leByte maskKey 3 ∧
        (length = 1 ∨ leByte maskKey 1 = leByte maskKey 2) := by
  simp only [octetOf_beBytes]
  apply Iff.intro
  · intro h
    by_cases hzero : length = 0
    · exact .inl hzero
    · right
      refine ⟨h 0 (by omega), ?_⟩
      by_cases hone : length = 1
      · exact .inl hone
      · exact .inr (h 1 (by omega))
  · intro h i hi
    have hlt : i % 4 < 4 := Nat.mod_lt _ (by decide)
    rcases h with h | ⟨houter, h⟩
    · omega
    · rcases h with hone | hinner
      · rw [show i % 4 = 0 by omega]
        exact houter
      · interval_cases i % 4
        · exact houter
        · exact hinner
        · exact hinner.symm
        · exact houter.symm

namespace Frame

/-- Octet `i` of the payload is transmitted with octet `i % 4` of the key in front of it: in what
`serialize` writes, and in the frames that `deserialize` is given. -/
structure FollowsMasking (maskKey : UInt32) (payload : List UInt8) : Prop where
  written : ∀ frame : Frame, frame.masked ≠ 0 → frame.maskKey = maskKey →
    ∃ frame' front key, key.length = 4 ∧
      serialize frame payload = some (frame', front ++ key ++ xorWith (octetOf key) payload)
  read : ∀ (frame : Frame) (w : WireFrame) (data : Nat) (rest beyond : List UInt8),
    w.mask = some maskKey → w.payload = xorWith (octetOf w.maskBytes) payload →
    data + (w.bytes ++ rest).length < 2 ^ 64 →
    ∃ d, deserialize frame data (w.bytes ++ rest ++ beyond) (w.bytes ++ rest).length = some d ∧
      readAt d.mem (d.frame.payload - data) d.frame.payloadLength = some payload

/-- The masking follows the format exactly if the payload does not tell the key from the reversed
key. -/
theorem followsMasking_iff (maskKey : UInt32) (payload : List UInt8)
    (hsize : payload.length + 14 < 2 ^ 64) :
    FollowsMasking maskKey payload ↔ payload = [] ∨ leByte maskKey 0 = leByte maskKey 3 ∧
      (payload.length = 1 ∨ leByte maskKey 1 = leByte maskKey 2) := by
  rw [← List.length_eq_zero_iff, ← octets_agree_iff, ← xorWith_eq_iff]
  apply Iff.intro
  · intro h
    obtain ⟨frame, hmasked, hkey⟩ : ∃ frame : Frame, frame.masked ≠ 0 ∧ frame.maskKey = maskKey :=
      ⟨⟨0, 0, maskKey, TEXT, 1, 1⟩, show (1 : UInt8) ≠ 0 by decide, rfl⟩
    obtain ⟨frame', front, key, hfour, he⟩ := h.written frame hmasked hkey
    rw [serialize_eq _ hsize, keyBytes, if_pos hmasked, body, if_pos hmasked, hkey,
      Option.some_inj, Prod.mk.injEq] at he
    -- the octets behind the start are the key and the payload
    have hpayload := List.append_inj' he.2 (by rw [length_maskPayload, length_xorWith])
    have hoctets := List.append_inj' hpayload.1 (by rw [length_beBytes, hfour])
    rw [← maskPayload_eq_xorWith, hpayload.2, hoctets.2]
  · intro h
    rw [← maskPayload_eq_xorWith] at h
    refine ⟨?_, ?_⟩
    · intro frame hmasked hkey
      have he := serialize_eq frame hsize
      rw [keyBytes, if_pos hmasked, body, if_pos hmasked, hkey, h] at he
      exact ⟨_, _, _, length_beBytes 4 _, he⟩
    · intro frame w data rest beyond hmask hpayload hspace
      have hkey : w.maskBytes = beBytes 4 maskKey.toNat := by rw [WireFrame.maskBytes, hmask]
      have hplain : w.plain = payload := by
        rw [WireFrame.plain, hmask]
        show maskPayload maskKey w.payload = payload
        rw [hpayload, hkey, ← h, maskPayload_maskPayload]
      have hlast : ¬ (w.Bare ∧ rest = []) := by
        rintro ⟨hbare, -⟩
        rw [hbare.1] at hmask
        cases hmask
      refine ⟨_, deserialize_complete frame beyond hlast hspace, ?_⟩
      rw [List.append_assoc _ rest, readAt_decoded, hplain]

/-- A key that reads the same from both ends. -/
theorem followsMasking_iff_example : FollowsMasking 0x01020201 [0x61, 0x62, 0x63] :=
  (followsMasking_iff 0x01020201 [0x61, 0x62, 0x63] (by decide)).mpr (by decide)

/-- Any other key does not, here with the payload `a`: it is sent as `61 ^ 04`. -/
theorem masking_uses_reversed_key :
    serialize { Frame.new with masked := 1, maskKey := 0x01020304 } [0x61] =
      some (⟨0, 1, 0x01020304, 0, 0, 1⟩, [0x00, 0x81, 0x01, 0x02, 0x03, 0x04, 0x65]) ∧
    ¬ FollowsMasking 0x01020304 [0x61] := by
  have hwritten : serialize { Frame.new with masked := 1, maskKey := 0x01020304 } [0x61] =
      some (⟨0, 1, 0x01020304, 0, 0, 1⟩, [0x00, 0x81, 0x01, 0x02, 0x03, 0x04, 0x65]) := by decide
  refine ⟨hwritten, fun h ↦ ?_⟩
  obtain ⟨frame', front, key, hfour, he⟩ :=
    h.written { Frame.new with masked := 1, maskKey := 0x01020304 } (by decide) rfl
  rw [hwritten, Option.some_inj, Prod.mk.injEq] at he
  have hbytes : [0x00, 0x81] ++ [0x01, 0x02, 0x03, 0x04] ++ [0x65] =
      front ++ key ++ xorWith (octetOf key) [0x61] := he.2
  have hpayload := List.append_inj' hbytes (by rw [length_xorWith]; rfl)
  have hoctets := List.append_inj' hpayload.1 hfour.symm
  rw [← hoctets.2] at hpayload
  exact absurd hpayload.2 (by decide)

end Frame

end Tob
