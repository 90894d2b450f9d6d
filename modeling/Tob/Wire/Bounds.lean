import Tob.Wire.WireFrame

/-!
# Bounds of deserialize

What `deserialize` does with arbitrary bytes.  The end of a frame is computed modulo `2 ^ 64` before
it is compared with the end of the buffer, so a declared length can carry it past the comparison.
-/

namespace Tob

/-- What the first bytes of a buffer announce: the bytes up to the end of the length, whether a
masking key follows, and the declared length. -/
structure Announced where
  start : Nat
  masked : Bool
  length : Nat
  deriving DecidableEq, Repr

namespace Announced

/-- The bytes of the whole frame. -/
def size (a : Announced) : Nat := a.start + (if a.masked then 4 else 0) + a.length

end Announced

/-- The bytes of the length behind the first two. -/
def lengthExt (second : UInt8) : Nat :=
  if (second &&& 0x7f).toNat = 0x7E then 2 else if (second &&& 0x7f).toNat = 0x7F then 8 else 0

/-- Where the length ends. -/
def startSize : List UInt8 → Nat
  | _ :: second :: _ => 2 + lengthExt second
  | _ => 2

theorem two_le_startSize (bytes : List UInt8) : 2 ≤ startSize bytes := by
  unfold startSize
  split <;> omega

/-- The announcement is read when there is a byte behind it. -/
def announced : List UInt8 → Option Announced
  | _ :: second :: rest =>
      if rest.length ≤ lengthExt second then none
      else some ⟨2 + lengthExt second, second &&& 0x80 ≠ 0,
        if lengthExt second = 0 then (second &&& 0x7f).toNat
        else beNat (rest.take (lengthExt second))⟩
  | _ => none

theorem lengthExt_le (second : UInt8) : lengthExt second ≤ 8 := by
  unfold lengthExt
  split
  · omega
  · split <;> omega

theorem startSize_le (bytes : List UInt8) : startSize bytes ≤ 10 := by
  unfold startSize
  split
  · exact Nat.add_le_add_left (lengthExt_le _) 2
  · omega

theorem beNat_lt (bytes : List UInt8) : beNat bytes < 256 ^ bytes.length := by
  induction bytes with
  | nil => exact Nat.one_pos
  | cons b rest ih =>
      have hb : b.toNat * 256 ^ rest.length ≤ 255 * 256 ^ rest.length :=
        Nat.mul_le_mul_right _ (Nat.le_of_lt_succ b.toNat_lt)
      rw [beNat, List.length_cons, pow_succ]
      omega

theorem announced_cons (first second : UInt8) (rest : List UInt8) :
    announced (first :: second :: rest) =
      if rest.length ≤ lengthExt second then none
      else some ⟨2 + lengthExt second, second &&& 0x80 ≠ 0,
        if lengthExt second = 0 then (second &&& 0x7f).toNat
        else beNat (rest.take (lengthExt second))⟩ := rfl

theorem announced_bounds {bytes : List UInt8} {a : Announced} (h : announced bytes = some a) :
    a.start < bytes.length ∧ a.start ≤ 10 ∧ a.start = startSize bytes ∧ a.length < 2 ^ 64 := by
  match bytes, h with
  | first :: second :: rest, h =>
      have hext := lengthExt_le second
      rw [announced_cons] at h
      by_cases hshort : rest.length ≤ lengthExt second
      · rw [if_pos hshort] at h
        cases h
      · rw [if_neg hshort] at h
        cases h
        refine ⟨?_, by show 2 + _ ≤ 10; omega, rfl, ?_⟩
        · show 2 + lengthExt second < rest.length + 1 + 1
          omega
        · show (if lengthExt second = 0 then _ else _) < _
          split
          · exact lt_trans (UInt8.toNat_lt _) (by decide)
          · have hlt := beNat_lt (rest.take (lengthExt second))
            have hle : 256 ^ (rest.take (lengthExt second)).length ≤ 256 ^ 8 := by
              apply Nat.pow_le_pow_right (by decide)
              rw [List.length_take]
              omega
            exact lt_of_lt_of_le hlt hle

namespace Frame

variable {data : Nat}

/-! ## Up to the length -/

theorem exists_cons_cons_cons {bytes : List UInt8} (h : 3 ≤ bytes.length) :
    ∃ first second third rest, bytes = first :: second :: third :: rest := by
  match bytes, h with
  | first :: second :: third :: rest, _ => exact ⟨first, second, third, rest, rfl⟩

/-- Fewer than three bytes are no frame. -/
theorem deserialize_few (data : Nat) (frame : Frame) {bytes : List UInt8} (beyond : List UInt8)
    (hfew : bytes.length < 3) :
    ∃ frame', deserialize frame data (bytes ++ beyond) bytes.length =
      some ⟨frame', data, bytes ++ beyond⟩ := by
  unfold deserialize
  by_cases htwo : bytes.length < 2
  · rw [if_pos htwo]
    exact ⟨_, rfl⟩
  · obtain ⟨first, second, rfl⟩ := List.length_eq_two.mp (show bytes.length = 2 by omega)
    have hend : wrap (data + 2) ≤ wrap (data + 2) := le_refl _
    rw [show [first, second].length = 2 from rfl, if_neg (by decide)]
    simp only [List.cons_append, List.getElem?_cons_zero, List.getElem?_cons_succ,
      Option.bind_some]
    rw [if_pos hend]
    exact ⟨_, rfl⟩

-- From the third byte on the second one decides where the length is.
theorem deserialize_cons (frame : Frame) (first second third : UInt8) (rest beyond : List UInt8)
    (hspace : data + (first :: second :: third :: rest).length < 2 ^ 64) :
    ∃ frame' : Frame, (frame'.masked ≠ 0 ↔ second &&& 0x80 ≠ 0) ∧
      frame'.payloadLength = (second &&& 0x7f).toNat ∧
      deserialize frame data (first :: second :: third :: rest ++ beyond)
          (first :: second :: third :: rest).length =
        if lengthExt second = 0 then
          deserializePayload frame' data (first :: second :: third :: rest ++ beyond)
            (data + (first :: second :: third :: rest).length) 2
        else
          deserializeLength frame' data (first :: second :: third :: rest ++ beyond)
            (data + (first :: second :: third :: rest).length) (lengthExt second) := by
  have hlength : (first :: second :: third :: rest).length = rest.length + 3 := rfl
  refine ⟨{ frame with
    fin := first &&& 0x80, type := first &&& 0x0f, masked := second &&& 0x80,
    payloadLength := (second &&& 0x7f).toNat }, Iff.rfl, rfl, ?_⟩
  unfold deserialize lengthExt
  rw [hlength] at hspace
  rw [hlength, if_neg (by omega), wrap_eq hspace]
  simp only [List.cons_append, List.getElem?_cons_zero, List.getElem?_cons_succ, Option.bind_some]
  rw [if_neg (by rw [wrap_eq (by omega)]; omega)]
  by_cases hword : (second &&& 0x7f).toNat = 0x7E
  · rw [if_pos hword, if_pos hword, if_neg (by decide)]
  · rw [if_neg hword, if_neg hword]
    by_cases hlong : (second &&& 0x7f).toNat = 0x7F
    · rw [if_pos hlong, if_pos hlong, if_neg (by decide)]
    · rw [if_neg hlong, if_neg hlong, if_pos rfl]

/-- The header is there and its end is an address: the payload follows. -/
theorem deserialize_announced (frame : Frame) {bytes : List UInt8} (beyond : List UInt8)
    (hspace : data + bytes.length < 2 ^ 64) {a : Announced} (ha : announced bytes = some a) :
    ∃ frame' : Frame, (frame'.masked ≠ 0 ↔ a.masked = true) ∧ frame'.payloadLength = a.length ∧
      deserialize frame data (bytes ++ beyond) bytes.length =
        deserializePayload frame' data (bytes ++ beyond) (data + bytes.length) a.start := by
  obtain ⟨hstart, -, hsize, -⟩ := announced_bounds ha
  have htwo := two_le_startSize bytes
  obtain ⟨first, second, third, rest, rfl⟩ :=
    exists_cons_cons_cons (show 3 ≤ bytes.length by omega)
  rw [announced_cons] at ha
  by_cases hshort : (third :: rest).length ≤ lengthExt second
  · rw [if_pos hshort] at ha
    cases ha
  · rw [if_neg hshort] at ha
    obtain ⟨frame', hmasked, hlength, he⟩ :=
      deserialize_cons frame first second third rest beyond hspace
    have hmasked' : frame'.masked ≠ 0 ↔ decide (second &&& 0x80 ≠ 0) = true := by
      rw [hmasked, decide_eq_true_iff]
    cases ha
    -- the length is in the second byte, or in the bytes behind it
    by_cases hext : lengthExt second = 0
    · refine ⟨frame', hmasked', ?_, ?_⟩
      · rw [hlength]
        exact (if_pos hext).symm
      · rw [he, if_pos hext, hext]
    · simp only [List.length_cons] at hshort hspace
      have hread : readAt (first :: second :: third :: rest ++ beyond) 2 (lengthExt second) =
          some ((third :: rest).take (lengthExt second)) := by
        have hle : lengthExt second ≤ (third :: rest).length := by
          rw [List.length_cons]
          omega
        have htake : (third :: rest ++ beyond).take (lengthExt second) =
            (third :: rest).take (lengthExt second) := List.take_append_of_le_length hle
        rw [readAt, if_pos (by simp only [List.length_append, List.length_cons]; omega)]
        exact congrArg some htake
      refine ⟨{ frame' with
        payloadLength := beNat ((third :: rest).take (lengthExt second)) }, hmasked', ?_, ?_⟩
      · show beNat _ = _
        exact (if_neg hext).symm
      · rw [he, if_neg hext, deserializeLength, if_neg, hread, Option.bind_some]
        simp only [List.length_cons]
        rw [wrap_eq (by omega)]
        omega

/-- The end of the length is an address, and the length is not all there. -/
theorem deserialize_unannounced (frame : Frame) {bytes : List UInt8} (beyond : List UInt8)
    (hspace : data + bytes.length < 2 ^ 64) (hstart : data + startSize bytes < 2 ^ 64)
    (ha : announced bytes = none) :
    ∃ frame', deserialize frame data (bytes ++ beyond) bytes.length =
      some ⟨frame', data, bytes ++ beyond⟩ := by
  by_cases hfew : bytes.length < 3
  · exact deserialize_few data frame beyond hfew
  · obtain ⟨first, second, third, rest, rfl⟩ :=
      exists_cons_cons_cons (show 3 ≤ bytes.length by omega)
    rw [announced_cons] at ha
    have hshort : (third :: rest).length ≤ lengthExt second := by
      by_contra hmore
      rw [if_neg hmore] at ha
      cases ha
    obtain ⟨frame', -, -, he⟩ := deserialize_cons frame first second third rest beyond hspace
    have hstart' : data + (2 + lengthExt second) < 2 ^ 64 := hstart
    simp only [List.length_cons] at hshort
    rw [he, if_neg (by omega), deserializeLength, if_pos]
    · exact ⟨_, rfl⟩
    · rw [wrap_eq (by omega)]
      simp only [List.length_cons]
      omega

-- The end of the length is no address: what is read lies behind the last one.
theorem deserialize_start_wraps (frame : Frame) {bytes beyond : List UInt8}
    (hspace : data + (bytes ++ beyond).length < 2 ^ 64) (hthree : 3 ≤ bytes.length)
    (hstart : 2 ^ 64 ≤ data + startSize bytes) :
    deserialize frame data (bytes ++ beyond) bytes.length = none := by
  obtain ⟨first, second, third, rest, rfl⟩ := exists_cons_cons_cons hthree
  have hext := lengthExt_le second
  have hstart' : 2 ^ 64 ≤ data + (2 + lengthExt second) := hstart
  rw [List.length_append] at hspace
  have hbytes : data + (first :: second :: third :: rest).length < 2 ^ 64 := by omega
  obtain ⟨frame', -, -, he⟩ := deserialize_cons frame first second third rest beyond hbytes
  simp only [List.length_cons] at hspace
  have hwrap : wrap (data + 2 + lengthExt second) = data + 2 + lengthExt second - 2 ^ 64 := by
    unfold wrap
    omega
  rw [he, if_neg (by omega), deserializeLength, if_neg, readAt, if_neg]
  · rfl
  · simp only [List.length_append, List.length_cons]
    omega
  · rw [hwrap]
    simp only [List.length_cons]
    omega

/-! ## The end of the frame -/

/-- The pointers a call returns and what it has written: nothing outside of the `size` bytes from
`data` on.  The caller takes `stop - data` bytes off its `size`. -/
structure Inside (data size : Nat) (beyond : List UInt8) (d : Decoded) : Prop where
  stop : d.stop = data ∨ data < d.stop ∧ d.stop ≤ data + size ∧ data + 2 ≤ d.frame.payload ∧
    d.frame.payload ≤ data + size ∧ d.frame.payload + d.frame.payloadLength = d.stop
  length : d.mem.length = size + beyond.length
  beyond : d.mem.drop size = beyond
  left : d.stop - data ≤ size ∧ diff size (diff d.stop data) = size - (d.stop - data)

/-- The end of the announced frame, as it is computed, is behind the buffer or it is the end. -/
def EndFits (data size : Nat) (a : Announced) : Prop :=
  data + a.size < 2 ^ 64 ∨ (a.masked = false ∧ a.size = 2 ^ 64) ∨
    (size + 2 ^ 64 < a.size ∧ data + a.size < 2 ^ 65)

theorem diff_zero {data : Nat} : diff data data = 0 := by
  unfold diff wrap
  omega

-- The pointer comes back as it was.
theorem inside_self (frame : Frame) (bytes beyond : List UInt8)
    (hspace : data + bytes.length < 2 ^ 64) :
    Inside data bytes.length beyond ⟨frame, data, bytes ++ beyond⟩ := by
  refine ⟨.inl rfl, List.length_append, List.drop_left, ?_, ?_⟩
  · show data - data ≤ _
    omega
  · show diff bytes.length (diff data data) = bytes.length - (data - data)
    rw [diff_zero, diff_eq (Nat.zero_le _) (by omega), Nat.sub_self]

-- A frame that ends in the buffer.
theorem inside_of_bounds {size payload : Nat} {beyond : List UInt8} {d : Decoded}
    (hspace : data + size < 2 ^ 64) (hpayload : d.frame.payload = payload)
    (hlow : data + 2 ≤ payload) (hstop : d.stop = payload + d.frame.payloadLength)
    (hhigh : payload + d.frame.payloadLength ≤ data + size)
    (hlength : d.mem.length = size + beyond.length) (hbeyond : d.mem.drop size = beyond) :
    Inside data size beyond d := by
  have htaken : diff d.stop data = d.stop - data := diff_eq (by omega) (by omega)
  refine ⟨.inr ⟨by omega, by omega, by omega, by omega, by omega⟩, hlength, hbeyond, by omega, ?_⟩
  rw [htaken]
  exact diff_eq (by omega) (by omega)

section Payload

variable {frame : Frame} {bytes : List UInt8} {a : Announced}

theorem maskSize_announced (hmasked : frame.masked ≠ 0 ↔ a.masked = true) :
    frame.maskSize = if a.masked then 4 else 0 := by
  unfold maskSize
  by_cases hm : a.masked = true
  · rw [if_pos (hmasked.mpr hm), if_pos hm]
  · rw [if_neg fun h ↦ hm (hmasked.mp h), if_neg hm]

-- The end of the frame as it is computed.
theorem wrap_end (data : Nat) (hmasked : frame.masked ≠ 0 ↔ a.masked = true)
    (hlength : frame.payloadLength = a.length) :
    wrap (data + a.start + frame.payloadLength + frame.maskSize) = wrap (data + a.size) := by
  rw [maskSize_announced hmasked, hlength, Announced.size]
  congr 1
  omega

theorem deserializePayload_unmasked (beyond : List UInt8) (hm : frame.masked = 0)
    (hend : wrap (data + a.size) ≤ data + bytes.length)
    (hwrap : wrap (data + a.start + frame.payloadLength + frame.maskSize) =
      wrap (data + a.size)) :
    deserializePayload frame data (bytes ++ beyond) (data + bytes.length) a.start =
      some ⟨{ frame with maskKey := 0, payload := wrap (data + a.start) },
        wrap (data + a.start + frame.payloadLength), bytes ++ beyond⟩ := by
  rw [deserializePayload, hwrap, if_neg (by omega), if_neg (not_not.mpr hm)]

-- A key and a payload that are there are unmasked where they are.
theorem deserializePayload_masked (beyond : List UInt8) (hm : frame.masked ≠ 0)
    (hend : wrap (data + a.size) ≤ data + bytes.length)
    (hwrap : wrap (data + a.start + frame.payloadLength + frame.maskSize) = wrap (data + a.size))
    (hroom : a.start + 4 + frame.payloadLength ≤ bytes.length) :
    ∃ (maskKey : UInt32) (mem : List UInt8), mem.length = bytes.length + beyond.length ∧
      mem.drop bytes.length = beyond ∧
      deserializePayload frame data (bytes ++ beyond) (data + bytes.length) a.start =
        some ⟨{ frame with maskKey, payload := wrap (data + a.start + 4) },
          wrap (data + a.start + 4 + frame.payloadLength), mem⟩ := by
  have htotal : (bytes ++ beyond).length = bytes.length + beyond.length := List.length_append
  have hkey : readAt (bytes ++ beyond) a.start 4 =
      some (((bytes ++ beyond).drop a.start).take 4) := if_pos (by omega)
  have hpayload : readAt (bytes ++ beyond) (a.start + 4) frame.payloadLength =
      some (((bytes ++ beyond).drop (a.start + 4)).take frame.payloadLength) := if_pos (by omega)
  have hlength : (((bytes ++ beyond).drop (a.start + 4)).take frame.payloadLength).length =
      frame.payloadLength := by
    rw [List.length_take, List.length_drop]
    omega
  generalize ((bytes ++ beyond).drop (a.start + 4)).take frame.payloadLength = payload at *
  have hmask (maskKey : UInt32) : (maskPayload maskKey payload).length = frame.payloadLength := by
    rw [length_maskPayload, hlength]
  generalize hword : UInt32.ofNat (beNat (((bytes ++ beyond).drop a.start).take 4)) = maskKey
  obtain ⟨mem, hwrite⟩ : ∃ mem, writeAt (bytes ++ beyond) (a.start + 4)
      (maskPayload maskKey payload) = some mem := ⟨_, if_pos (by rw [hmask]; omega)⟩
  refine ⟨maskKey, mem, ?_, ?_, ?_⟩
  · rw [length_writeAt hwrite, htotal]
  · rw [drop_writeAt hwrite (by rw [hmask]; exact hroom), List.drop_left]
  · rw [deserializePayload, hwrap, if_neg (by omega), if_pos hm, hkey, Option.bind_some]
    simp only
    rw [hword, hpayload, Option.bind_some, hwrite, Option.bind_some]

-- The unmasking leaves a memory that is too short.
theorem deserializePayload_leaves (beyond : List UInt8) (hm : frame.masked ≠ 0)
    (hend : wrap (data + a.size) ≤ data + bytes.length)
    (hwrap : wrap (data + a.start + frame.payloadLength + frame.maskSize) = wrap (data + a.size))
    (hshort : (bytes ++ beyond).length < a.start + 4 + frame.payloadLength) :
    deserializePayload frame data (bytes ++ beyond) (data + bytes.length) a.start = none := by
  have hpayload : readAt (bytes ++ beyond) (a.start + 4) frame.payloadLength = none :=
    if_neg (by omega)
  rw [deserializePayload, hwrap, if_neg (by omega), if_pos hm]
  simp only
  rw [hpayload]
  cases readAt (bytes ++ beyond) a.start 4 <;> rfl

/-- Behind the length: the end is behind the buffer, it is in the buffer, or it is past the last
address, where a masked frame makes the loops leave the memory. -/
inductive PayloadCases (frame : Frame) (data : Nat) (bytes beyond : List UInt8) (a : Announced) :
    Option Decoded → Prop where
  | behind : data + bytes.length < wrap (data + a.size) →
      PayloadCases frame data bytes beyond a (some ⟨frame, data, bytes ++ beyond⟩)
  | inside {d} : a.size ≤ bytes.length → d.stop = data + a.size →
      d.frame.payload + d.frame.payloadLength = d.stop → data + 2 ≤ d.frame.payload →
      d.mem.length = bytes.length + beyond.length → d.mem.drop bytes.length = beyond →
      PayloadCases frame data bytes beyond a (some d)
  | masked : wrap (data + a.size) ≤ data + bytes.length → 2 ^ 64 ≤ data + a.size →
      a.masked = true → PayloadCases frame data bytes beyond a none
  | unmasked : wrap (data + a.size) ≤ data + bytes.length → 2 ^ 64 ≤ data + a.size →
      a.masked = false → PayloadCases frame data bytes beyond a
        (some ⟨{ frame with maskKey := 0, payload := data + a.start }, wrap (data + a.size),
          bytes ++ beyond⟩)

theorem deserializePayload_cases {beyond : List UInt8}
    (hspace : data + (bytes ++ beyond).length < 2 ^ 64) (hstart : a.start < bytes.length)
    (htwo : 2 ≤ a.start) (hmasked : frame.masked ≠ 0 ↔ a.masked = true)
    (hlength : frame.payloadLength = a.length) :
    PayloadCases frame data bytes beyond a
      (deserializePayload frame data (bytes ++ beyond) (data + bytes.length) a.start) := by
  have hwrap := wrap_end data hmasked hlength
  have hsize : a.size = a.start + (if a.masked = true then 4 else 0) + a.length := rfl
  have htotal : (bytes ++ beyond).length = bytes.length + beyond.length := List.length_append
  -- what the code compares is the end after the wrap
  by_cases hbehind : data + bytes.length < wrap (data + a.size)
  · rw [deserializePayload, hwrap, if_pos hbehind]
    exact .behind hbehind
  · have hend := not_lt.mp hbehind
    by_cases hm : a.masked = true
    · rw [if_pos hm] at hsize
      -- past the last address the loops run out of the memory
      by_cases hfits : data + a.size < 2 ^ 64
      · rw [wrap_eq hfits] at hend
        obtain ⟨maskKey, mem, hmem, hbeyond, he⟩ :=
          deserializePayload_masked beyond (hmasked.mpr hm) (not_lt.mp hbehind) hwrap (by omega)
        have hpayload : wrap (data + a.start + 4) = data + a.start + 4 := wrap_eq (by omega)
        have hstop : wrap (data + a.start + 4 + frame.payloadLength) = data + a.size := by
          rw [wrap_eq (by omega)]
          omega
        rw [he, hpayload, hstop]
        refine .inside (by omega) rfl ?_ ?_ hmem hbeyond
        · show data + a.start + 4 + frame.payloadLength = data + a.size
          omega
        · show data + 2 ≤ data + a.start + 4
          omega
      · rw [deserializePayload_leaves beyond (hmasked.mpr hm) hend hwrap (by omega)]
        exact .masked hend (not_lt.mp hfits) hm
    · rw [if_neg hm, Nat.add_zero] at hsize
      have hplain : frame.masked = 0 := by
        by_contra h
        exact hm (hmasked.mp h)
      have hpayload : wrap (data + a.start) = data + a.start := wrap_eq (by omega)
      have hstop : wrap (data + a.start + frame.payloadLength) = wrap (data + a.size) := by
        rw [hlength, hsize, Nat.add_assoc]
      rw [deserializePayload_unmasked beyond hplain hend hwrap, hstop, hpayload]
      by_cases hfits : data + a.size < 2 ^ 64
      · rw [wrap_eq hfits] at hend ⊢
        refine .inside (by omega) rfl ?_ ?_ htotal List.drop_left
        · show data + a.start + frame.payloadLength = data + a.size
          omega
        · show data + 2 ≤ data + a.start
          omega
      · exact .unmasked hend (not_lt.mp hfits) (Bool.eq_false_iff.mpr hm)

theorem size_unmasked (hm : a.masked = false) : a.size = a.start + a.length := by
  rw [Announced.size, hm]
  rfl

theorem size_lt (hlt : a.length < 2 ^ 64) : a.size < a.start + 4 + 2 ^ 64 := by
  unfold Announced.size
  split <;> omega

/-- What is returned and written stays inside exactly if the end fits. -/
theorem PayloadCases.inside_iff {beyond : List UInt8} {o : Option Decoded}
    (h : PayloadCases frame data bytes beyond a o) (hspace : data + bytes.length < 2 ^ 64)
    (hstart : a.start < bytes.length) (htwo : 2 ≤ a.start) (hlt : a.length < 2 ^ 64)
    (hlength : frame.payloadLength = a.length) :
    (∃ d, o = some d ∧ Inside data bytes.length beyond d) ↔ EndFits data bytes.length a := by
  have hsize := size_lt hlt
  have hmod : wrap (data + a.size) = (data + a.size) % 2 ^ 64 := rfl
  unfold EndFits
  cases h with
  | behind hbehind =>
      have hends : data + a.size < 2 ^ 64 ∨ bytes.length + 2 ^ 64 < a.size ∧
          data + a.size < 2 ^ 65 := by omega
      exact iff_of_true ⟨_, rfl, inside_self frame bytes beyond hspace⟩ (hends.imp_right .inr)
  | @inside d hin hstop hsum hlow hmem hbeyond =>
      have hd : Inside data bytes.length beyond d :=
        inside_of_bounds hspace rfl hlow hsum.symm (by omega) hmem hbeyond
      exact iff_of_true ⟨d, rfl, hd⟩ (.inl (by omega))
  | masked hend hpast hm =>
      refine iff_of_false nofun ?_
      rw [hm]
      rintro (h | h | h)
      · omega
      · exact Bool.noConfusion h.1
      · omega
  | unmasked hend hpast hm =>
      -- past the last address: only the start of the buffer is let through
      by_cases hexact : a.size = 2 ^ 64
      · have hsame : wrap (data + a.size) = data := by omega
        rw [hsame]
        have hin := inside_self { frame with maskKey := 0, payload := data + a.start } bytes beyond
          hspace
        exact iff_of_true ⟨_, rfl, hin⟩ (.inr (.inl ⟨hm, hexact⟩))
      · refine iff_of_false ?_ (by omega)
        rintro ⟨d, hd, hin⟩
        cases hd
        have hplain := size_unmasked hm
        rcases hin.stop with h | ⟨-, -, -, -, h⟩
        · change wrap (data + a.size) = data at h
          omega
        · change data + a.start + frame.payloadLength = wrap (data + a.size) at h
          omega

/-- The frame is not complete: its end is behind the buffer, or it comes back to its start. -/
def NotYet (data size : Nat) (a : Announced) : Prop :=
  (size < a.size ∧ data + a.size < 2 ^ 64) ∨ (a.masked = false ∧ a.size = 2 ^ 64) ∨
    (size + 2 ^ 64 < a.size ∧ data + a.size < 2 ^ 65)

theorem PayloadCases.stays_iff {beyond : List UInt8} {o : Option Decoded}
    (h : PayloadCases frame data bytes beyond a o) (hspace : data + bytes.length < 2 ^ 64)
    (hstart : a.start < bytes.length) (htwo : 2 ≤ a.start) (hlt : a.length < 2 ^ 64) :
    (∃ frame', o = some ⟨frame', data, bytes ++ beyond⟩) ↔ NotYet data bytes.length a := by
  have hsize := size_lt hlt
  have hmod : wrap (data + a.size) = (data + a.size) % 2 ^ 64 := rfl
  unfold NotYet
  cases h with
  | behind hbehind =>
      have hends : (bytes.length < a.size ∧ data + a.size < 2 ^ 64) ∨
          bytes.length + 2 ^ 64 < a.size ∧ data + a.size < 2 ^ 65 := by omega
      exact iff_of_true ⟨_, rfl⟩ (hends.imp_right .inr)
  | @inside d hin hstop =>
      refine iff_of_false ?_ (by omega)
      rintro ⟨frame', hd⟩
      cases hd
      have hpos : a.start ≤ a.size := by
        rw [Announced.size, Nat.add_assoc]
        exact Nat.le_add_right _ _
      change data = data + a.size at hstop
      omega
  | masked hend hpast hm =>
      refine iff_of_false nofun ?_
      rw [hm]
      rintro (h | h | h)
      · omega
      · exact Bool.noConfusion h.1
      · omega
  | unmasked hend hpast hm =>
      by_cases hexact : a.size = 2 ^ 64
      · have hsame : wrap (data + a.size) = data := by omega
        rw [hsame]
        exact iff_of_true ⟨_, rfl⟩ (.inr (.inl ⟨hm, hexact⟩))
      · refine iff_of_false ?_ (by omega)
        rintro ⟨frame', hd⟩
        rw [Option.some_inj, Decoded.mk.injEq] at hd
        have hstop := hd.2.1
        have hplain := size_unmasked hm
        omega

-- A frame that is taken ends behind its start.
theorem PayloadCases.mem_of_stop {beyond : List UInt8} {d : Decoded}
    (h : PayloadCases frame data bytes beyond a (some d)) (htwo : 2 ≤ a.start)
    (hstop : d.stop = data) : d.mem = bytes ++ beyond := by
  cases h with
  | behind hbehind => rfl
  | inside hin hend =>
      have hpos : a.start ≤ a.size := by
        rw [Announced.size, Nat.add_assoc]
        exact Nat.le_add_right _ _
      have hsize : 2 ≤ a.size := le_trans htwo hpos
      omega
  | unmasked hend hpast hm => rfl

end Payload

/-- What `deserialize` can come to once the bytes announce a payload. -/
theorem deserialize_cases (frame : Frame) {bytes beyond : List UInt8}
    (hspace : data + (bytes ++ beyond).length < 2 ^ 64) {a : Announced}
    (ha : announced bytes = some a) :
    a.start < bytes.length ∧ 2 ≤ a.start ∧ a.length < 2 ^ 64 ∧
      ∃ frame' : Frame, frame'.payloadLength = a.length ∧
        PayloadCases frame' data bytes beyond a
          (deserialize frame data (bytes ++ beyond) bytes.length) := by
  have hbytes : data + bytes.length < 2 ^ 64 := by
    rw [List.length_append] at hspace
    omega
  obtain ⟨hin, -, hsize, hlt⟩ := announced_bounds ha
  obtain ⟨frame', hmasked, hlength, he⟩ := deserialize_announced frame beyond hbytes ha
  have htwo : 2 ≤ a.start := by
    rw [hsize]
    exact two_le_startSize bytes
  refine ⟨hin, htwo, hlt, frame', hlength, ?_⟩
  rw [he]
  exact deserializePayload_cases hspace hin htwo hmasked hlength

/-- The end of the length is an address, and so is the end of the frame or it does no harm. -/
def BoundsFit (data : Nat) (bytes : List UInt8) : Prop :=
  bytes.length < 3 ∨ data + startSize bytes < 2 ^ 64 ∧
    ∀ a, announced bytes = some a → EndFits data bytes.length a

/-- `deserialize` stays inside the buffer exactly if the ends it computes do not wrap around. -/
theorem deserialize_inside_iff (frame : Frame) (data : Nat) (bytes beyond : List UInt8)
    (hspace : data + (bytes ++ beyond).length < 2 ^ 64) :
    (∃ d, deserialize frame data (bytes ++ beyond) bytes.length = some d ∧
      Inside data bytes.length beyond d) ↔ BoundsFit data bytes := by
  have hbytes : data + bytes.length < 2 ^ 64 := by
    rw [List.length_append] at hspace
    omega
  unfold BoundsFit
  by_cases hfew : bytes.length < 3
  · obtain ⟨frame', he⟩ := deserialize_few data frame beyond hfew
    rw [he]
    exact iff_of_true ⟨_, rfl, inside_self frame' bytes beyond hbytes⟩ (.inl hfew)
  · by_cases hstart : data + startSize bytes < 2 ^ 64
    · cases ha : announced bytes with
      | none =>
          obtain ⟨frame', he⟩ := deserialize_unannounced frame beyond hbytes hstart ha
          rw [he]
          exact iff_of_true ⟨_, rfl, inside_self frame' bytes beyond hbytes⟩
            (.inr ⟨hstart, nofun⟩)
      | some a =>
          obtain ⟨hin, htwo, hlt, frame', hlength, hcases⟩ := deserialize_cases frame hspace ha
          rw [hcases.inside_iff hbytes hin htwo hlt hlength]
          apply Iff.intro
          · rintro h
            right
            refine ⟨hstart, ?_⟩
            rintro _ ⟨⟩
            exact h
          · rintro (h | h)
            · omega
            · exact h.2 a rfl
    · rw [deserialize_start_wraps frame hspace (by omega) (by omega)]
      refine iff_of_false nofun ?_
      rintro (h | h)
      · omega
      · exact hstart h.1

/-- No complete frame is at the front. -/
def Incomplete (data : Nat) (bytes : List UInt8) : Prop :=
  data + startSize bytes < 2 ^ 64 ∧
    ∀ a, announced bytes = some a → NotYet data bytes.length a

/-- `deserialize` leaves the buffer as it is exactly if there is no complete frame. -/
theorem deserialize_stays_iff (frame : Frame) {bytes beyond : List UInt8}
    (hspace : data + (bytes ++ beyond).length < 2 ^ 64) (hstart : data + startSize bytes < 2 ^ 64) :
    (∃ frame', deserialize frame data (bytes ++ beyond) bytes.length =
      some ⟨frame', data, bytes ++ beyond⟩) ↔ Incomplete data bytes := by
  have hbytes : data + bytes.length < 2 ^ 64 := by
    rw [List.length_append] at hspace
    omega
  unfold Incomplete
  cases ha : announced bytes with
  | none =>
      exact iff_of_true (deserialize_unannounced frame beyond hbytes hstart ha) ⟨hstart, nofun⟩
  | some a =>
      obtain ⟨hin, htwo, hlt, frame', -, hcases⟩ := deserialize_cases frame hspace ha
      rw [hcases.stays_iff hbytes hin htwo hlt]
      apply Iff.intro
      · rintro h
        refine ⟨hstart, ?_⟩
        rintro _ ⟨⟩
        exact h
      · exact fun h ↦ h.2 a rfl

/-- The buffer is not touched when the pointer returned is its start. -/
theorem deserialize_mem_of_stop {frame : Frame} {bytes beyond : List UInt8} {d : Decoded}
    (hspace : data + (bytes ++ beyond).length < 2 ^ 64) (hstart : data + startSize bytes < 2 ^ 64)
    (h : deserialize frame data (bytes ++ beyond) bytes.length = some d) (hstop : d.stop = data) :
    d.mem = bytes ++ beyond := by
  have hbytes : data + bytes.length < 2 ^ 64 := by
    rw [List.length_append] at hspace
    omega
  cases ha : announced bytes with
  | none =>
      obtain ⟨frame', he⟩ := deserialize_unannounced frame beyond hbytes hstart ha
      rw [he] at h
      cases h
      rfl
  | some a =>
      obtain ⟨-, htwo, -, frame', -, hcases⟩ := deserialize_cases frame hspace ha
      rw [h] at hcases
      exact hcases.mem_of_stop htwo hstop

theorem deserialize_inside_iff_example :
    ∃ d, deserialize .new 4096 ([0x81, 0x01, 0x78] ++ [0xff]) 3 = some d ∧
      Inside 4096 3 [0xff] d := by
  have hfits : BoundsFit 4096 [0x81, 0x01, 0x78] := by
    right
    refine ⟨by decide, ?_⟩
    rintro a ha
    cases ha
    left
    decide
  exact (deserialize_inside_iff .new 4096 [0x81, 0x01, 0x78] [0xff] (by decide)).mpr hfits

/-- A length that takes the end back in front of the buffer: the pointer returned is `data - 6`. -/
theorem deserialize_leaves_buffer :
    4096 + 11 < 2 ^ 64 ∧
      ¬ ∃ d, deserialize .new 4096
          ([0x81, 0x7f, 0xff, 0xff, 0xff, 0xff, 0xff, 0xff, 0xff, 0xf0, 0x00] ++ []) 11 = some d ∧
        Inside 4096 11 [] d := by
  refine ⟨by decide, ?_⟩
  rintro ⟨d, hd, hin⟩
  have hstop : (deserialize .new 4096
      ([0x81, 0x7f, 0xff, 0xff, 0xff, 0xff, 0xff, 0xff, 0xff, 0xf0, 0x00] ++ []) 11).map
      Decoded.stop = some 4090 := by decide +kernel
  rw [hd, Option.map_some, Option.some_inj] at hstop
  rcases hin.stop with h | h
  · omega
  · omega

/-! ## Complete frames -/

variable {w : WireFrame}

/-- A call on a frame with `rest` behind it, and a call on every part of the frame. -/
structure Recognises (frame : Frame) (data : Nat) (w : WireFrame) (rest beyond : List UInt8) :
    Prop where
  whole : ∃ d, deserialize frame data (w.bytes ++ rest ++ beyond) (w.bytes ++ rest).length =
      some d ∧ d.stop = data + w.bytes.length ∧ d.frame.payloadLength = w.payload.length ∧
    d.frame.payload = data + (w.start ++ w.maskBytes).length
  part : ∀ got, got <+: w.bytes → got ≠ w.bytes →
    ∃ frame', deserialize frame data (got ++ beyond) got.length =
      some ⟨frame', data, got ++ beyond⟩

/-- `deserialize` recognises exactly the complete frames, but for one that is empty, has no mask and
ends the buffer. -/
theorem deserialize_recognises_iff (frame : Frame) (w : WireFrame) {data : Nat}
    (rest beyond : List UInt8) (hspace : data + (w.bytes ++ rest).length < 2 ^ 64) :
    Recognises frame data w rest beyond ↔ ¬ (w.Bare ∧ rest = []) := by
  have happend : (w.bytes ++ rest).length = w.bytes.length + rest.length := List.length_append
  have hpos := w.length_bytes_pos
  apply Iff.intro
  · rintro h ⟨hbare, hnil⟩
    obtain ⟨d, hd, hstop, -, -⟩ := h.whole
    obtain ⟨frame', he⟩ := deserialize_bare frame beyond hbare
      (show data + w.bytes.length < 2 ^ 64 by omega)
    rw [hnil, List.append_nil, he, Option.some_inj] at hd
    rw [← hd] at hstop
    change data = data + w.bytes.length at hstop
    omega
  · intro hlast
    refine ⟨⟨_, deserialize_complete frame beyond hlast hspace, rfl, rfl, ?_⟩, ?_⟩
    · show data + 2 + w.form.size + w.maskBytes.length = _
      rw [List.length_append, w.length_start]
      omega
    · intro got hgot hne
      have hless : got.length < w.bytes.length := by
        apply lt_of_le_of_ne hgot.length_le
        exact fun h ↦ hne (hgot.eq_of_length h)
      exact deserialize_part frame beyond hgot hless (by omega)

/-- A masked frame without a payload ends the buffer. -/
theorem deserialize_recognises_iff_example :
    let w : WireFrame := ⟨0x89, .short, some 0x01020304, [], by decide⟩
    Recognises .new 4096 w [] [] := by
  intro w
  exact (deserialize_recognises_iff .new w [] [] (by decide)).mpr (by decide)

/-- An empty pong at the end of the buffer is not recognised. -/
theorem deserialize_misses_pong :
    let w : WireFrame := ⟨0x8a, .short, none, [], by decide⟩
    4096 + (w.bytes ++ []).length < 2 ^ 64 ∧ ¬ Recognises .new 4096 w [] [] := by
  intro w
  refine ⟨by decide, fun h ↦ ?_⟩
  obtain ⟨d, hd, hstop, -, -⟩ := h.whole
  have hsame : (deserialize .new 4096 (w.bytes ++ [] ++ []) (w.bytes ++ []).length).map
      Decoded.stop = some 4096 := by decide
  rw [hd, Option.map_some, hstop] at hsame
  exact absurd hsame (by decide)

end Frame

end Tob
