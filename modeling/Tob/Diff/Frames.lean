import Tob.Diff.Messages
import Tob.Wire.Serialize

/-!
# One frame step

What the frame part of `on_read` does with a buffer that starts with a frame or with a part of one.
-/

namespace Tob

namespace DiffLogic

variable {n : Nat} {conv : Conversions}

/-- The buffer is whole, and it is where a user process has its data. -/
structure Valid (d : DiffLogic n) : Prop where
  buffer : d.mBuffer.length = BUFFER_SIZE
  offset : d.mOffset ≤ BUFFER_SIZE
  address : d.address < 2 ^ 56

/-- A step that has left `rest` in the buffer. -/
structure Leaves (d d' : DiffLogic n) (rest : List UInt8) : Prop where
  valid : d'.Valid
  pending : d'.pending = rest
  mState : d'.mState = d.mState
  address : d'.address = d.address

theorem Valid.length_pending {d : DiffLogic n} (h : d.Valid) : d.pending.length = d.mOffset := by
  rw [pending, List.length_take, h.buffer]
  exact Nat.min_eq_left h.offset

theorem Valid.mBuffer_eq {d : DiffLogic n} (_ : d.Valid) :
    d.mBuffer = d.pending ++ d.mBuffer.drop d.mOffset := (List.take_append_drop _ _).symm

/-- A read that fits goes behind what is in the buffer. -/
theorem receive_leaves {d : DiffLogic n} (hv : d.Valid) {chunk : List UInt8}
    (hroom : d.mOffset + chunk.length ≤ BUFFER_SIZE) :
    ∃ d', d.receive chunk = some d' ∧ Leaves d d' (d.pending ++ chunk) ∧
      d'.mOffset = d.mOffset + chunk.length ∧
      d'.mBuffer = d.pending ++ chunk ++ d.mBuffer.drop d'.mOffset := by
  have hbuffer := hv.buffer
  have htake : (d.pending ++ chunk).length = d.mOffset + chunk.length := by
    rw [List.length_append, hv.length_pending]
  refine ⟨{ d with
    mBuffer := d.pending ++ chunk ++ d.mBuffer.drop (d.mOffset + chunk.length)
    mOffset := d.mOffset + chunk.length }, ?_, ⟨⟨?_, hroom, hv.address⟩, ?_, rfl, rfl⟩, rfl, rfl⟩
  · rw [receive, writeAt, if_pos (by omega)]
    rfl
  · show (d.pending ++ chunk ++ d.mBuffer.drop (d.mOffset + chunk.length)).length = BUFFER_SIZE
    rw [List.length_append, htake, List.length_drop]
    omega
  · show List.take (d.mOffset + chunk.length) _ = _
    rw [← htake, List.take_left]

/-- A buffer with `front`, the frame that is taken, and `rest` behind it. -/
structure Holds (d : DiffLogic n) (front rest : List UInt8) : Prop where
  valid : d.Valid
  mBuffer : front ++ rest <+: d.mBuffer
  mOffset : d.mOffset = (front ++ rest).length

-- The bytes behind the frame move to the start of the buffer.
theorem Holds.takeFrame {d : DiffLogic n} {front rest : List UInt8} (h : d.Holds front rest) :
    ∃ d', d.takeFrame (d.address + front.length) = some d' ∧ Leaves d d' rest := by
  have haddress := h.valid.address
  have hle := h.valid.offset
  have hsize : BUFFER_SIZE = 50000 := rfl
  have hoffset := h.mOffset
  rw [List.length_append] at hoffset
  have htaken : Frame.diff (d.address + front.length) d.address = front.length := by
    rw [Frame.diff_eq (by omega) (by omega), Nat.add_sub_cancel_left]
  have hleft : Frame.diff d.mOffset front.length = rest.length := by
    rw [Frame.diff_eq (by omega) (by omega), hoffset, Nat.add_sub_cancel_left]
  have hread : readAt d.mBuffer front.length rest.length = some rest := by
    rcases h.mBuffer with ⟨beyond, hbuffer⟩
    rw [← hbuffer]
    exact readAt_append front rest beyond
  have hwrite : writeAt d.mBuffer 0 rest = some (rest ++ d.mBuffer.drop rest.length) := by
    have hbytes := h.valid.buffer
    rw [writeAt, if_pos (by omega), Nat.zero_add]
    rfl
  refine ⟨{ d with mBuffer := rest ++ d.mBuffer.drop rest.length, mOffset := rest.length }, ?_,
    ⟨⟨?_, ?_, haddress⟩, ?_, rfl, rfl⟩⟩
  · unfold DiffLogic.takeFrame
    rw [htaken]
    simp only
    rw [hleft, hread, Option.bind_some, hwrite, Option.map_some]
  · show (rest ++ d.mBuffer.drop rest.length).length = BUFFER_SIZE
    rw [List.length_append, List.length_drop, h.valid.buffer]
    omega
  · show rest.length ≤ BUFFER_SIZE
    omega
  · show List.take rest.length (rest ++ _) = rest
    exact List.take_left

theorem Holds.attempt_takeFrame {d : DiffLogic n} {front rest : List UInt8}
    (h : d.Holds front rest) :
    ∃ d', Outcome.attempt (d.takeFrame (d.address + front.length)) .returned = .returned d' ∧
      Leaves d d' rest := by
  rcases h.takeFrame with ⟨d', he, hl⟩
  rw [he]
  exact ⟨d', rfl, hl⟩

-- Neither the answer to a ping nor the orders touch the buffer.
theorem generateFrame_queue (d : DiffLogic n) (type : UInt64) {message : List UInt8}
    (maskKey : UInt32) (hsize : message.length + 14 < 2 ^ 64) :
    ∃ mOutputQueue, d.generateFrame type message maskKey = some { d with mOutputQueue } := by
  unfold generateFrame
  simp only
  rw [Frame.serialize_eq _ hsize]
  exact ⟨_, rfl⟩

theorem answerPing_queue (d : DiffLogic n) (frame : Frame) :
    ∃ mOutputQueue, d.answerPing frame = some { d with mOutputQueue } := by
  unfold answerPing
  by_cases hping : frame.type = Frame.PING
  · rw [if_pos hping]
    exact generateFrame_queue d _ 0 (by decide)
  · rw [if_neg hping]
    exact ⟨d.mOutputQueue, rfl⟩

/-- How the payload is dealt with: it throws, it aborts, or the frame is gone. -/
theorem Holds.onParsed {d : DiffLogic n} {front rest : List UInt8} (h : d.Holds front rest)
    (conv : Conversions) (parsed : Except String (Option Json)) :
    (d.onParsed conv parsed (d.address + front.length)).Ensures fun d' ↦ Leaves d d' rest := by
  unfold DiffLogic.onParsed
  cases parsed with
  | error what => exact Outcome.ensures_threw _ _ _
  | ok parsed =>
      cases parsed with
      | none =>
          rcases h.attempt_takeFrame with ⟨d₁, he, hl⟩
          simp only [he]
          exact Outcome.ensures_returned hl
      | some root =>
          have hstore := storeMessage_ne_undefined conv root d.mOrders
          cases hstored : storeMessage conv root d.mOrders with
          | returned mOrders =>
              have h' : Holds { d with mOrders } front rest :=
                ⟨⟨h.valid.buffer, h.valid.offset, h.valid.address⟩, h.mBuffer, h.mOffset⟩
              rcases h'.attempt_takeFrame with ⟨d₁, he, hl⟩
              have hl' : Leaves d d₁ rest := ⟨hl.valid, hl.pending, hl.mState, hl.address⟩
              simp only [hstored, he]
              exact Outcome.ensures_returned hl'
          | threw what mOrders =>
              simp only [hstored]
              exact Outcome.ensures_threw _ _ _
          | aborted mOrders =>
              simp only [hstored]
              exact Outcome.ensures_aborted _ _
          | undefined => exact absurd hstored hstore

theorem wire_space {d : DiffLogic n} (hv : d.Valid) (w : WireFrame) :
    d.address + w.bytes.length < 2 ^ 64 := by
  have haddress := hv.address
  have hpayload := w.payload_lt
  have hform := w.form.size_le
  have hlength := w.length_bytes
  have hmask : (if w.mask.isSome then 4 else 0) ≤ 4 := by
    split
    · omega
    · omega
  omega

/-- `deserialize` comes back with the start of the buffer. -/
def Stays (d : DiffLogic n) : Prop :=
  ∃ frame, Frame.deserialize .new d.address d.mBuffer d.mOffset =
    some ⟨frame, d.address, d.mBuffer⟩

theorem Stays.frameStep {d : DiffLogic n} (h : d.Stays) (conv : Conversions) :
    d.frameStep conv = .returned d := by
  rcases h with ⟨frame, he⟩
  rw [DiffLogic.frameStep, he, Outcome.attempt_some, if_pos rfl]

theorem Stays.lookahead {d : DiffLogic n} (h : d.Stays) : d.lookahead = none := by
  rcases h with ⟨frame, he⟩
  rw [DiffLogic.lookahead, he, Option.bind_some, if_pos rfl]

theorem stays_part {d : DiffLogic n} (hv : d.Valid) {w : WireFrame} (hp : d.pending <+: w.bytes)
    (hlt : d.pending.length < w.bytes.length) : d.Stays := by
  rcases Frame.deserialize_part .new (d.mBuffer.drop d.mOffset) hp hlt (wire_space hv w) with
    ⟨frame, he⟩
  rw [← hv.mBuffer_eq, hv.length_pending] at he
  exact ⟨frame, he⟩

theorem stays_bare {d : DiffLogic n} (hv : d.Valid) {w : WireFrame} (hp : d.pending = w.bytes)
    (hbare : w.Bare) : d.Stays := by
  rcases Frame.deserialize_bare .new (d.mBuffer.drop d.mOffset) hbare (wire_space hv w) with
    ⟨frame, he⟩
  rw [← hp, ← hv.mBuffer_eq, hv.length_pending] at he
  exact ⟨frame, he⟩

/-- A complete frame at the head: a ping is answered, and `parse` gets what was put into the frame
and the byte behind it. -/
theorem frameStepBehind_eq_onParsed {d : DiffLogic n} (hv : d.Valid) {w : WireFrame}
    {rest : List UInt8} (hp : d.pending = w.bytes ++ rest) (hlast : ¬ (w.Bare ∧ rest = [])) :
    ∃ (d₁ : DiffLogic n) (front : List UInt8) (b : UInt8), d₁.Holds front rest ∧
      d₁.mState = d.mState ∧ d₁.address = d.address ∧
      (∃ mBuffer, answerPing { d with mBuffer } (w.decoded d.address) = some d₁) ∧
      d.lookahead = some (w.plain, b) ∧ ∀ parse conv,
        d.frameStepBehind parse conv =
          d₁.onParsed conv (parse b w.plain) (d₁.address + front.length) := by
  have hsize : BUFFER_SIZE = 50000 := rfl
  have haddress := hv.address
  have hoffset := hv.offset
  have hlength := hv.length_pending
  have hpos := w.length_bytes_pos
  have hspace : d.address + (w.bytes ++ rest).length < 2 ^ 64 := by rw [← hp]; omega
  have hsplit : (w.bytes ++ rest).length = w.bytes.length + rest.length := List.length_append
  have he := Frame.deserialize_complete .new (d.mBuffer.drop d.mOffset) hlast hspace
  rw [← hp, ← hv.mBuffer_eq, hlength] at he
  have hfront : (w.start ++ w.maskBytes ++ w.plain).length = w.bytes.length := by
    simp only [WireFrame.bytes, List.length_append, w.length_plain]
  have hmem : (w.start ++ w.maskBytes ++ w.plain ++ rest ++ d.mBuffer.drop d.mOffset).length =
      BUFFER_SIZE := by
    rw [List.length_append, List.length_append, hfront, ← List.length_append, ← hp, hlength,
      List.length_drop, hv.buffer]
    omega
  -- the state behind `deserialize`, and the one behind the answer to a ping
  let d₁ : DiffLogic n :=
    { d with mBuffer := w.start ++ w.maskBytes ++ w.plain ++ rest ++ d.mBuffer.drop d.mOffset }
  rcases answerPing_queue d₁ (w.decoded d.address) with ⟨mOutputQueue, hping⟩
  have hpayload : readAt d₁.mBuffer (Frame.diff (w.decoded d.address).payload d.address)
      (Frame.diff (d.address + w.bytes.length) (w.decoded d.address).payload) = some w.plain := by
    rcases Frame.diff_decoded w (show d.address + w.bytes.length < 2 ^ 64 by omega) with
      ⟨hoffset, hsize⟩
    rw [hoffset, hsize]
    show readAt (w.start ++ w.maskBytes ++ w.plain ++ rest ++ d.mBuffer.drop d.mOffset) _ _ = _
    rw [List.append_assoc _ rest]
    exact Frame.readAt_decoded w d.address _
  have hmoves : d.address + w.bytes.length ≠ d.address := by omega
  refine ⟨{ d₁ with mOutputQueue }, w.start ++ w.maskBytes ++ w.plain,
    d₁.behind (d.address + w.bytes.length), ⟨⟨hmem, hoffset, haddress⟩, ?_, ?_⟩, rfl, rfl,
    ⟨_, hping⟩, ?_, fun parse conv ↦ ?_⟩
  · exact List.prefix_append _ _
  · show d.mOffset = _
    rw [List.length_append, hfront, ← List.length_append, ← hp, hlength]
  · rw [lookahead, he, Option.bind_some, if_neg hmoves]
    show (readAt d₁.mBuffer _ _).map _ = _
    rw [hpayload]
    rfl
  · rw [frameStepBehind, he, Outcome.attempt_some, if_neg hmoves, hfront]
    show onFrameBehind parse conv d₁ (w.decoded d.address) (d.address + w.bytes.length) = _
    rw [onFrameBehind, hping, Outcome.attempt_some]
    show Outcome.attempt (readAt d₁.mBuffer _ _) _ = _
    rw [hpayload, Outcome.attempt_some]
    rfl

/-- Without the byte behind it `parse` gets what was put into the frame. -/
theorem frameStep_eq_onPayload (conv : Conversions) {d : DiffLogic n} (hv : d.Valid)
    {w : WireFrame} {rest : List UInt8} (hp : d.pending = w.bytes ++ rest)
    (hlast : ¬ (w.Bare ∧ rest = [])) :
    ∃ (d₁ : DiffLogic n) (front : List UInt8), d₁.Holds front rest ∧ d₁.mState = d.mState ∧
      d₁.address = d.address ∧
      (∃ mBuffer, answerPing { d with mBuffer } (w.decoded d.address) = some d₁) ∧
      frameStep conv d = d₁.onPayload conv w.plain (d₁.address + front.length) := by
  rcases frameStepBehind_eq_onParsed hv hp hlast with
    ⟨d₁, front, b, hholds, hstate, haddress, hping, -, hstep⟩
  exact ⟨d₁, front, hholds, hstate, haddress, hping, hstep (fun _ ↦ conv.parse) conv⟩

/-- A complete frame at the head is taken off, unless the payload throws or aborts. -/
theorem frameStep_complete (conv : Conversions) {d : DiffLogic n} (hv : d.Valid) {w : WireFrame}
    {rest : List UInt8} (hp : d.pending = w.bytes ++ rest) (hlast : ¬ (w.Bare ∧ rest = [])) :
    (frameStep conv d).Ensures fun d' ↦ Leaves d d' rest := by
  rcases frameStep_eq_onPayload conv hv hp hlast with
    ⟨d₁, front, hholds, hstate, haddress, -, he⟩
  rw [he]
  apply (hholds.onParsed conv (conv.parse w.plain)).imp
  intro d' hl
  exact ⟨hl.valid, hl.pending, hl.mState.trans hstate, hl.address.trans haddress⟩

/-- A payload that is no JSON does not stop the client. -/
theorem frameStep_invalid {d : DiffLogic n} (hv : d.Valid) {w : WireFrame} {rest : List UInt8}
    (hp : d.pending = w.bytes ++ rest) (hlast : ¬ (w.Bare ∧ rest = []))
    (hparse : conv.parse w.plain = .ok none) :
    ∃ d', frameStep conv d = .returned d' ∧ Leaves d d' rest := by
  rcases frameStep_eq_onPayload conv hv hp hlast with ⟨d₁, front, hholds, -, -, -, he⟩
  rcases hholds.attempt_takeFrame with ⟨d', htake, -⟩
  have hreturned : frameStep conv d = .returned d' := by
    rw [he, onPayload, hparse]
    exact htake
  exact ⟨d', hreturned, (frameStep_complete conv hv hp hlast).2 d' hreturned⟩

/-- At the head of the front of a stream there is no frame that is recognised, or the first one. -/
theorem head_cases {d : DiffLogic n} (hv : d.Valid) {ws : List WireFrame}
    (hp : d.pending <+: WireFrame.stream ws) :
    (d.Stays ∧ ∀ w ∈ ws.head?, ¬ w.Recognised d.mOffset) ∨
      ∃ w ws' rest, ws = w :: ws' ∧ w.Recognised d.mOffset ∧ d.pending = w.bytes ++ rest ∧
        ¬ (w.Bare ∧ rest = []) := by
  have hlength := hv.length_pending
  cases ws with
  | nil =>
      left
      have hnil : d.pending = [] := List.prefix_nil.mp hp
      have hzero : d.mOffset = 0 := by rw [← hlength, hnil]; rfl
      have he : Frame.deserialize .new d.address d.mBuffer d.mOffset =
          some ⟨.new, d.address, d.mBuffer⟩ := by
        rw [hzero, Frame.deserialize, if_pos (by decide)]
      exact ⟨⟨_, he⟩, fun w hw ↦ by cases hw⟩
  | cons w ws =>
      have hhead {P : WireFrame → Prop} (hw : P w) : ∀ a ∈ (w :: ws).head?, P a := by
        intro a ha
        cases ha
        exact hw
      by_cases hle : w.bytes.length ≤ d.mOffset
      · have hbytes : w.bytes <+: d.pending := by
          apply List.prefix_of_prefix_length_le (List.prefix_append _ _) hp
          rw [hlength]
          exact hle
        rcases hbytes with ⟨rest, hrest⟩
        have hsum := congrArg List.length hrest
        rw [List.length_append] at hsum
        by_cases hlast : w.Bare ∧ rest = []
        · left
          rw [hlast.2, List.append_nil] at hrest
          refine ⟨stays_bare hv hrest.symm hlast.1, hhead fun hr ↦ ?_⟩
          exact hr.2 ⟨hlast.1, by rw [hrest, hlength]⟩
        · right
          refine ⟨w, ws, rest, rfl, ⟨hle, fun hb ↦ hlast ⟨hb.1, ?_⟩⟩, hrest.symm, hlast⟩
          rw [← List.length_eq_zero_iff]
          omega
      · left
        have hpart : d.pending <+: w.bytes := by
          apply List.prefix_of_prefix_length_le hp (List.prefix_append _ _)
          rw [hlength]
          omega
        exact ⟨stays_part hv hpart (by omega), hhead fun hr ↦ hle hr.1⟩

/-- A frame step on the front of a stream of frames: nothing happens, or the frame at the head is
recognised and taken off. -/
theorem frameStep_spec (conv : Conversions) {d : DiffLogic n} (hv : d.Valid)
    {ws : List WireFrame} (hp : d.pending <+: WireFrame.stream ws) :
    (frameStep conv d = .returned d ∧ ∀ w ∈ ws.head?, ¬ w.Recognised d.mOffset) ∨
      ∃ w ws' rest, ws = w :: ws' ∧ w.Recognised d.mOffset ∧ d.pending = w.bytes ++ rest ∧
        (frameStep conv d).Ensures fun d' ↦ Leaves d d' rest := by
  rcases head_cases hv hp with ⟨hstays, hno⟩ | ⟨w, ws', rest, hws, hr, hrest, hlast⟩
  · exact .inl ⟨hstays.frameStep conv, hno⟩
  · exact .inr ⟨w, ws', rest, hws, hr, hrest, frameStep_complete conv hv hrest hlast⟩

end DiffLogic

end Tob
