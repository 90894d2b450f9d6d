import Tob.Library.Related
import Tob.Wire.Bounds

/-!
# The bytes deserialize depends on

Only the bytes received matter to `deserialize`: behind them the memory may be anything, also where
a declared length carries the end of the frame past the comparison.
-/

namespace Tob

namespace Frame

variable {data size : Nat} {mem mem' : List UInt8}

/-- The same result, but for the memory behind `size`. -/
structure Decoded.Agree (size : Nat) (d d' : Decoded) : Prop where
  frame : d'.frame = d.frame
  stop : d'.stop = d.stop
  mem : AgreeTo size d.mem d'.mem

theorem deserializePayload_agree (frame : Frame) (h : AgreeTo size mem mem')
    (hspace : data + mem.length < 2 ^ 64) {offset : Nat} :
    Option.Rel (Decoded.Agree size) (deserializePayload frame data mem (data + size) offset)
      (deserializePayload frame data mem' (data + size) offset) := by
  unfold deserializePayload
  by_cases hbehind : data + size < wrap (data + offset + frame.payloadLength + frame.maskSize)
  · rw [if_pos hbehind, if_pos hbehind]
    exact .some ⟨rfl, rfl, h⟩
  · rw [if_neg hbehind, if_neg hbehind]
    by_cases hm : frame.masked ≠ 0
    · rw [if_pos hm, if_pos hm]
      have hmask : frame.maskSize = 4 := if_pos hm
      by_cases hfits : offset + 4 + frame.payloadLength ≤ size
      · -- the key and the payload are in the part that agrees
        rw [h.readAt (show offset + 4 ≤ size by omega), h.readAt hfits]
        cases hkey : readAt mem offset 4 with
        | none => exact .none
        | some key =>
            cases hpayload : readAt mem (offset + 4) frame.payloadLength with
            | none => exact .none
            | some payload =>
                have hlength := (readAt_eq_some hpayload).2.1
                simp only [Option.bind_some]
                apply rel_bind (h.writeAt _ (Nat.le_max_left _ _) (by omega))
                intro after after' _ hafter
                exact .some ⟨rfl, rfl, hafter⟩
      · -- past the last address the loops run out of both memories
        have hpast : mem.length < offset + 4 + frame.payloadLength := by
          rw [hmask] at hbehind
          unfold wrap at hbehind
          omega
        have hnone : readAt mem (offset + 4) frame.payloadLength = none := if_neg (by omega)
        have hnone' : readAt mem' (offset + 4) frame.payloadLength = none :=
          if_neg (by rw [h.length]; omega)
        simp only [hnone, hnone']
        cases readAt mem offset 4 <;> cases readAt mem' offset 4 <;> exact .none
    · rw [if_neg hm, if_neg hm]
      exact .some ⟨rfl, rfl, h⟩

theorem deserializeLength_agree (frame : Frame) (h : AgreeTo size mem mem')
    (hspace : data + mem.length < 2 ^ 64) {bytes : Nat}
    (hstart : data + 2 + bytes < 2 ^ 64) :
    Option.Rel (Decoded.Agree size) (deserializeLength frame data mem (data + size) bytes)
      (deserializeLength frame data mem' (data + size) bytes) := by
  unfold deserializeLength
  rw [wrap_eq hstart]
  by_cases hshort : data + size ≤ data + 2 + bytes
  · rw [if_pos hshort, if_pos hshort]
    exact .some ⟨rfl, rfl, h⟩
  · rw [if_neg hshort, if_neg hshort, h.readAt (show 2 + bytes ≤ size by omega)]
    cases readAt mem 2 bytes with
    | none => exact .none
    | some length => exact deserializePayload_agree _ h hspace

/-- `deserialize` on two memories with the same first `size` bytes. -/
theorem deserialize_agree (frame : Frame) (h : AgreeTo size mem mem')
    (hspace : data + mem.length < 2 ^ 64) (hsize : size ≤ mem.length)
    (hstart : data + 10 < 2 ^ 64) :
    Option.Rel (Decoded.Agree size) (deserialize frame data mem size)
      (deserialize frame data mem' size) := by
  unfold deserialize
  by_cases htwo : size < 2
  · rw [if_pos htwo, if_pos htwo]
    exact .some ⟨rfl, rfl, h⟩
  · rw [if_neg htwo, if_neg htwo, h.get 0 (by omega), h.get 1 (by omega),
      wrap_eq (show data + size < 2 ^ 64 by omega)]
    cases mem[0]? with
    | none => exact .none
    | some first =>
        cases mem[1]? with
        | none => exact .none
        | some second =>
            simp only [Option.bind_some]
            split
            · exact .some ⟨rfl, rfl, h⟩
            · split
              · exact deserializeLength_agree _ h hspace (by omega)
              · split
                · exact deserializeLength_agree _ h hspace (by omega)
                · exact deserializePayload_agree _ h hspace

/-- Where the payload of a frame that is taken lies: in the first `size` bytes, or so far behind
them that it cannot be read. -/
def PayloadLies (data size room : Nat) (d : Decoded) : Prop :=
  (diff d.frame.payload data + diff d.stop d.frame.payload ≤ size ∧ diff d.stop data ≤ size ∧
    diff size (diff d.stop data) = size - diff d.stop data) ∨
  room < diff d.frame.payload data + diff d.stop d.frame.payload

/-- What is returned for arbitrary bytes: the memory keeps its size, and unless the pointer is the
start of the buffer there is a payload. -/
theorem deserialize_lies {frame : Frame} {bytes beyond : List UInt8} {d : Decoded}
    (hspace : data + (bytes ++ beyond).length < 2 ^ 64) (hstart : data + startSize bytes < 2 ^ 64)
    (h : deserialize frame data (bytes ++ beyond) bytes.length = some d) :
    d.mem.length = (bytes ++ beyond).length ∧
      (d.stop = data ∨ PayloadLies data bytes.length (bytes ++ beyond).length d) := by
  have htotal : (bytes ++ beyond).length = bytes.length + beyond.length := List.length_append
  have hbytes : data + bytes.length < 2 ^ 64 := by omega
  cases ha : announced bytes with
  | none =>
      obtain ⟨frame', he⟩ := deserialize_unannounced frame beyond hbytes hstart ha
      rw [he] at h
      cases h
      exact ⟨rfl, .inl rfl⟩
  | some a =>
      obtain ⟨hin, htwo, hlt, frame', -, hcases⟩ := deserialize_cases frame hspace ha
      rw [h] at hcases
      generalize ho : some d = o at hcases
      cases hcases with
      | behind hbehind =>
          cases ho
          exact ⟨rfl, .inl rfl⟩
      | inside hfits hend hsum hlow hmem hbeyond =>
          cases ho
          have htaken : diff d.stop data = d.stop - data := diff_eq (by omega) (by omega)
          have hoffset : diff d.frame.payload data = d.frame.payload - data :=
            diff_eq (by omega) (by omega)
          have hcount : diff d.stop d.frame.payload = d.stop - d.frame.payload :=
            diff_eq (by omega) (by omega)
          refine ⟨hmem.trans htotal.symm, .inr (.inl ⟨by omega, by omega, ?_⟩)⟩
          exact diff_eq (by omega) (by omega)
      | masked hend hpast hm => cases ho
      | unmasked hend hpast hm =>
          -- the end has come round, and the length is as large as that takes
          cases ho
          have hplain : a.size = a.start + 0 + a.length := by
            rw [Announced.size, hm]
            rfl
          have hoffset : diff (data + a.start) data = a.start := by
            rw [diff_eq (by omega) (by omega), Nat.add_sub_cancel_left]
          have hcount : diff (wrap (data + a.size)) (data + a.start) = a.length := by
            unfold diff wrap
            omega
          refine ⟨rfl, .inr (.inr ?_)⟩
          show _ < diff (data + a.start) data + diff (wrap (data + a.size)) (data + a.start)
          omega

end Frame

end Tob
