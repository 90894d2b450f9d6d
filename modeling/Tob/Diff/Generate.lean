import Tob.Diff.Output
import Tob.Wire.Format
import Tob.Wire.RoundTrip

/-!
# What generate_frame is asked for

The masking key is also the flag that a frame is masked, and the field for that flag has eight bits.
-/

namespace Tob

/-- The entry for a message: `fin` and the opcode in the first byte, the mask flag in the second
exactly if there is a key, and then the key and the message masked with it behind the length. -/
structure OutputFrame.Asked (f : OutputFrame) (type : UInt64) (message : List UInt8)
    (maskKey : UInt32) : Prop where
  fin : f.frame[0]?.map (fun first ↦ decide (first &&& 0x80 ≠ 0)) = some true
  opcode : f.frame[0]?.map (fun first : UInt8 ↦ (first &&& 0x0f).toUInt64) = some type
  mask : f.frame[1]?.map (fun second ↦ decide (second &&& 0x80 ≠ 0)) = some (decide (maskKey ≠ 0))
  keyed : maskKey ≠ 0 → ∃ start, start.length = 2 ∧
    f.frame = start ++ Frame.lengthBytes message.length ++ beBytes 4 maskKey.toNat ++
      xorWith (fun i ↦ leByte maskKey (i % 4)) message
  size : f.size = f.frame.length

namespace Frame

theorem startBytes_masked (frame : Frame) (size : Nat) (rest : List UInt8) :
    (frame.startBytes (lengthField size).1 ++ rest)[1]?.map
      (fun second ↦ decide (second &&& 0x80 ≠ 0)) = some (decide (frame.masked ≠ 0)) := by
  have hfield := WireFrame.field_masked (writtenField_lt size)
  rw [lengthField_fst]
  show some (decide (((if frame.masked ≠ 0 then 0x80 else 0) ||| UInt8.ofNat (writtenField size))
    &&& 0x80 ≠ 0)) = _
  by_cases hm : frame.masked ≠ 0
  · rw [if_pos hm, decide_eq_true hm, decide_eq_true hfield.1]
  · rw [if_neg hm, decide_eq_false hm, decide_eq_false (not_not.mpr hfield.2)]

end Frame

namespace DiffLogic

variable {n : Nat}

/-- The entry that `generate_frame` queues. -/
def entry (type : UInt64) (message : List UInt8) (maskKey : UInt32) : OutputFrame :=
  let bytes := (generated type maskKey).startBytes (Frame.lengthField message.length).1 ++
    Frame.lengthBytes message.length ++ (generated type maskKey).keyBytes ++
    (generated type maskKey).body message
  ⟨bytes, bytes.length, 0⟩

theorem generateFrame_entry (d : DiffLogic n) (type : UInt64) {message : List UInt8}
    (maskKey : UInt32) (hsize : message.length < 2 ^ 63) :
    d.generateFrame type message maskKey =
      some { d with mOutputQueue := d.mOutputQueue ++ [entry type message maskKey] } := by
  apply generateFrame_eq
  apply Frame.serialize_eq
  omega

theorem entry_masked (type : UInt64) (message : List UInt8) (maskKey : UInt32) :
    (entry type message maskKey).frame[1]?.map (fun second ↦ decide (second &&& 0x80 ≠ 0)) =
      some (decide (maskKey.toUInt8 ≠ 0)) := by
  unfold entry
  rw [List.append_assoc, List.append_assoc]
  exact Frame.startBytes_masked (generated type maskKey) message.length _

/-- The flag tells whether there is a key as long as its low byte does. -/
theorem entry_asked {type : UInt64} (htype : type < 16) (message : List UInt8) {maskKey : UInt32}
    (hkey : maskKey ≠ 0 ↔ maskKey.toUInt8 ≠ 0) :
    (entry type message maskKey).Asked type message maskKey := by
  have hlt := UInt64.lt_iff_toNat_lt.mp htype
  have hsixteen : (16 : UInt64).toNat = 16 := rfl
  have hbyte : type.toUInt8.toNat = type.toNat := by
    rw [UInt64.toNat_toUInt8]
    omega
  have hopcode : type.toUInt8 < 16 := by
    rw [UInt8.lt_iff_toNat_lt, hbyte]
    exact hlt
  -- an opcode survives the cast to a byte
  have hwide : type.toUInt8.toUInt64 = type := by
    apply UInt64.toNat_inj.mp
    rw [UInt8.toNat_toUInt64, hbyte]
  have hfirst := (Outgoing.first_fields hopcode).1
  refine ⟨?_, ?_, ?_, fun hne ↦ ?_, rfl⟩
  · show some (decide ((0x80 ||| (type.toUInt8 &&& 0x0f)) &&& 0x80 ≠ 0)) = _
    rw [decide_eq_true hfirst.2]
  · show some ((0x80 ||| (type.toUInt8 &&& 0x0f)) &&& 0x0f).toUInt64 = _
    rw [hfirst.1, hwide]
  · rw [entry_masked, decide_eq_decide.mpr hkey]
  · have hmasked : (generated type maskKey).masked ≠ 0 := hkey.mp hne
    refine ⟨(generated type maskKey).startBytes (Frame.lengthField message.length).1, rfl, ?_⟩
    rw [← maskPayload_eq_xorWith]
    show _ ++ (generated type maskKey).keyBytes ++ (generated type maskKey).body message = _
    rw [Frame.keyBytes, if_pos hmasked, Frame.body, if_pos hmasked]
    rfl

/-- `generate_frame` masks as it is asked to exactly if the low byte of the key tells that there is
one. -/
theorem generateFrame_asked_iff (d : DiffLogic n) {type : UInt64} (htype : type < 16)
    {message : List UInt8} (hsize : message.length < 2 ^ 63) (maskKey : UInt32) :
    (∃ d' f, d.generateFrame type message maskKey = some d' ∧
      d'.mOutputQueue = d.mOutputQueue ++ [f] ∧ f.Asked type message maskKey) ↔
      maskKey = 0 ∨ maskKey.toUInt8 ≠ 0 := by
  have hgenerate := generateFrame_entry d type maskKey hsize
  apply Iff.intro
  · intro h
    rcases h with ⟨d', f, hd, hqueue, hf⟩
    rw [hgenerate, Option.some_inj] at hd
    rw [← hd, List.append_right_inj, List.singleton_inj] at hqueue
    have hmask := hf.mask
    rw [← hqueue, entry_masked, Option.some_inj, decide_eq_decide] at hmask
    by_cases hzero : maskKey = 0
    · exact .inl hzero
    · exact .inr (hmask.mpr hzero)
  · intro hkey
    have hiff : maskKey ≠ 0 ↔ maskKey.toUInt8 ≠ 0 := by
      rcases hkey with hzero | hlow
      · subst hzero
        decide
      · refine iff_of_true (fun hzero ↦ hlow ?_) hlow
        rw [hzero]
        rfl
    exact ⟨_, _, hgenerate, rfl, entry_asked htype message hiff⟩

theorem generateFrame_asked_iff_example :
    ∃ (d' : DiffLogic 1) (f : OutputFrame),
      quiet.generateFrame Frame.TEXT.toUInt64 [0x61] 0x01020304 = some d' ∧
      d'.mOutputQueue = quiet.mOutputQueue ++ [f] ∧
      f.Asked Frame.TEXT.toUInt64 [0x61] 0x01020304 :=
  (generateFrame_asked_iff quiet (by decide) (by decide) 0x01020304).mpr (by decide)

/-- A key whose low byte is zero is dropped, and the message goes out as it is. -/
theorem generateFrame_drops_key :
    quiet.generateFrame Frame.TEXT.toUInt64 [0x61] 0x100 =
      some { quiet with mOutputQueue := quiet.mOutputQueue ++ [⟨[0x81, 0x01, 0x61], 3, 0⟩] } ∧
    ¬ (⟨[0x81, 0x01, 0x61], 3, 0⟩ : OutputFrame).Asked Frame.TEXT.toUInt64 [0x61] 0x100 := by
  refine ⟨?_, fun h ↦ ?_⟩
  · rw [generateFrame_entry quiet _ _ (by decide)]
    rfl
  · exact absurd h.mask (by decide)

end DiffLogic

end Tob
