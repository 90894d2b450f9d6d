import Tob.Diff.Behind
import Tob.Wire.Prefix

/-!
# Clients alike

Two clients that differ only in what is in the buffer behind the bytes received: what they do with
one more read.
-/

namespace Tob

namespace DiffLogic

variable {n : Nat} {conv : Conversions} {parse : UInt8 → List UInt8 → Except String (Option Json)}

/-- The same client, but for the buffer behind what has been received. -/
structure Alike (d d' : DiffLogic n) : Prop where
  valid : d.Valid
  agree : AgreeTo d.mOffset d.mBuffer d'.mBuffer
  rest : d' = { d with mBuffer := d'.mBuffer }

theorem Alike.exists_eq {d d' : DiffLogic n} (h : Alike d d') :
    ∃ mBuffer, d' = { d with mBuffer } ∧ AgreeTo d.mOffset d.mBuffer mBuffer :=
  ⟨d'.mBuffer, h.rest, h.agree⟩

theorem receive_alike {d d' : DiffLogic n} (h : Alike d d') {chunk : List UInt8}
    (hroom : d.mOffset + chunk.length ≤ BUFFER_SIZE) :
    Option.Rel Alike (d.receive chunk) (d'.receive chunk) := by
  rcases h.exists_eq with ⟨mBuffer, rfl, hagree⟩
  apply rel_map (hagree.writeAt chunk (le_max_right _ _) (le_refl _))
  intro after after' hwrite hafter
  exact ⟨⟨(length_writeAt hwrite).trans h.valid.buffer, hroom, h.valid.address⟩, hafter, rfl⟩

theorem generateFrame_alike {d d' : DiffLogic n} (h : Alike d d') (type : UInt64)
    (message : List UInt8) (maskKey : UInt32) :
    Option.Rel Alike (d.generateFrame type message maskKey)
      (d'.generateFrame type message maskKey) := by
  rcases h.exists_eq with ⟨mBuffer, rfl, hagree⟩
  unfold generateFrame
  simp only
  cases Frame.serialize _ message with
  | none => exact .none
  | some result =>
      exact .some ⟨⟨h.valid.buffer, h.valid.offset, h.valid.address⟩, hagree, rfl⟩

theorem answerPing_alike {d d' : DiffLogic n} (h : Alike d d') (frame : Frame) :
    Option.Rel Alike (d.answerPing frame) (d'.answerPing frame) := by
  unfold answerPing
  by_cases hping : frame.type = Frame.PING
  · rw [if_pos hping, if_pos hping]
    exact generateFrame_alike h _ _ _
  · rw [if_neg hping, if_neg hping]
    exact .some h

theorem takeFrame_alike {d d' : DiffLogic n} (h : Alike d d') {stop : Nat}
    (htaken : Frame.diff stop d.address ≤ d.mOffset)
    (hleft : Frame.diff d.mOffset (Frame.diff stop d.address) =
      d.mOffset - Frame.diff stop d.address) :
    Option.Rel Alike (d.takeFrame stop) (d'.takeFrame stop) := by
  rcases h.exists_eq with ⟨mBuffer, rfl, hagree⟩
  have hoffset := h.valid.offset
  unfold takeFrame
  simp only
  rw [hleft, hagree.readAt (by omega)]
  cases hread : readAt d.mBuffer (Frame.diff stop d.address)
      (d.mOffset - Frame.diff stop d.address) with
  | none => exact .none
  | some bytes =>
      have hcount := (readAt_eq_some hread).2.1
      rw [Option.bind_some, Option.bind_some]
      apply rel_map (hagree.writeAt bytes (le_max_right _ _) (Nat.zero_le _))
      intro after after' hwrite hafter
      rw [Nat.zero_add, hcount] at hafter
      exact ⟨⟨(length_writeAt hwrite).trans h.valid.buffer, by show _ - _ ≤ _; omega,
        h.valid.address⟩, hafter, rfl⟩

theorem onParsed_alike {d d' : DiffLogic n} (h : Alike d d') (parsed : Except String (Option Json))
    {stop : Nat} (htaken : Frame.diff stop d.address ≤ d.mOffset)
    (hleft : Frame.diff d.mOffset (Frame.diff stop d.address) =
      d.mOffset - Frame.diff stop d.address) :
    Outcome.Related Alike (d.onParsed conv parsed stop) (d'.onParsed conv parsed stop) := by
  have htake (mOrders : Orders n) : Outcome.Related Alike
      (.attempt (takeFrame { d with mOrders } stop) .returned)
      (.attempt (takeFrame { d' with mOrders } stop) .returned) := by
    rcases h.exists_eq with ⟨mBuffer, rfl, hagree⟩
    have h' : Alike { d with mOrders } { d with mBuffer, mOrders } :=
      ⟨⟨h.valid.buffer, h.valid.offset, h.valid.address⟩, hagree, rfl⟩
    apply Outcome.Related.attempt (takeFrame_alike h' htaken hleft)
    exact fun a a' _ ha ↦ .returned ha
  rcases h.exists_eq with ⟨mBuffer, rfl, hagree⟩
  cases parsed with
  | error what => exact .threw what h
  | ok parsed =>
      cases parsed with
      | none => exact htake d.mOrders
      | some root =>
          have h' (mOrders : Orders n) : Alike { d with mOrders } { d with mBuffer, mOrders } :=
            ⟨⟨h.valid.buffer, h.valid.offset, h.valid.address⟩, hagree, rfl⟩
          unfold onParsed
          simp only
          cases storeMessage conv root d.mOrders with
          | returned mOrders => exact htake mOrders
          | threw what mOrders => exact .threw what (h' mOrders)
          | aborted mOrders => exact .aborted (h' mOrders)
          | undefined => exact .undefined

/-- What `parse` makes of the payload in both buffers is the same. -/
def ParsesAlike (parse : UInt8 → List UInt8 → Except String (Option Json)) (d d' : DiffLogic n) :
    Prop :=
  ∀ payload b b', d.lookahead = some (payload, b) → d'.lookahead = some (payload, b') →
    parse b payload = parse b' payload

theorem onFrameBehind_alike {d d' : DiffLogic n} (h : Alike d d') {decoded : Frame.Decoded}
    (hlies : Frame.PayloadLies d.address d.mOffset d.mBuffer.length decoded)
    (hparse : ∀ payload,
      readAt d.mBuffer (Frame.diff decoded.frame.payload d.address)
        (Frame.diff decoded.stop decoded.frame.payload) = some payload →
      readAt d'.mBuffer (Frame.diff decoded.frame.payload d.address)
        (Frame.diff decoded.stop decoded.frame.payload) = some payload →
      parse (d.behind decoded.stop) payload = parse (d'.behind decoded.stop) payload) :
    Outcome.Related Alike (d.onFrameBehind parse conv decoded.frame decoded.stop)
      (d'.onFrameBehind parse conv decoded.frame decoded.stop) := by
  have hanswers := answerPing_alike h decoded.frame
  rcases h.exists_eq with ⟨mBuffer, rfl, hagree⟩
  -- the answer to a ping leaves the buffer alone
  rcases answerPing_queue d decoded.frame with ⟨queue, he⟩
  rcases answerPing_queue { d with mBuffer } decoded.frame with ⟨queue', he'⟩
  rw [he, he'] at hanswers
  have h₁ : Alike { d with mOutputQueue := queue }
      { d with mBuffer, mOutputQueue := queue' } := by
    cases hanswers with
    | some h₁ => exact h₁
  unfold onFrameBehind
  rw [he, he', Outcome.attempt_some, Outcome.attempt_some]
  simp only
  rcases hlies with ⟨hinside, htaken, hleft⟩ | hfar
  · have hsame := hagree.readAt hinside
    rw [hsame]
    cases hread : readAt d.mBuffer (Frame.diff decoded.frame.payload d.address)
        (Frame.diff decoded.stop decoded.frame.payload) with
    | none => exact .undefined
    | some payload =>
        have hbehind (d : DiffLogic n) (queue : List OutputFrame) :
            behind { d with mOutputQueue := queue } decoded.stop = d.behind decoded.stop := by
          unfold behind
          simp only
        have hparsed := hparse payload hread (hsame.trans hread)
        rw [Outcome.attempt_some, Outcome.attempt_some, hbehind d queue,
          hbehind { d with mBuffer } queue', hparsed]
        exact onParsed_alike h₁ _ htaken hleft
  · -- a payload that is too long for the one buffer is too long for the other
    have hsame : mBuffer.length = d.mBuffer.length := hagree.length
    rw [readAt, readAt, if_neg (by omega), if_neg (by omega)]
    exact .undefined

/-- A frame step sees the bytes received and what `parse` makes of the payload, and nothing else of
the buffer. -/
theorem frameStepBehind_alike {d d' : DiffLogic n} (h : Alike d d')
    (hparse : ParsesAlike parse d d') :
    Outcome.Related Alike (d.frameStepBehind parse conv) (d'.frameStepBehind parse conv) := by
  have hbuffer := h.valid.buffer
  have hoffset := h.valid.offset
  have haddress := h.valid.address
  have hsize : BUFFER_SIZE = 50000 := rfl
  have hlength := h.valid.length_pending
  have hten := startSize_le d.pending
  have hspace : d.address + d.mBuffer.length < 2 ^ 64 := by omega
  rcases h.exists_eq with ⟨mBuffer, rfl, hagree⟩
  have hsame : Option.Rel (Frame.Decoded.Agree d.mOffset)
      (Frame.deserialize .new d.address d.mBuffer d.mOffset)
      (Frame.deserialize .new d.address mBuffer d.mOffset) :=
    Frame.deserialize_agree .new hagree hspace (by omega) (by omega)
  cases hdecoded : Frame.deserialize .new d.address d.mBuffer d.mOffset with
  | none =>
      rw [hdecoded] at hsame
      cases hdecoded' : Frame.deserialize .new d.address mBuffer d.mOffset with
      | none =>
          rw [frameStepBehind, frameStepBehind, hdecoded, hdecoded']
          exact .undefined
      | some decoded =>
          rw [hdecoded'] at hsame
          cases hsame
  | some decoded =>
      rw [hdecoded] at hsame
      cases hdecoded' : Frame.deserialize .new d.address mBuffer d.mOffset with
      | none =>
          rw [hdecoded'] at hsame
          cases hsame
      | some decoded' =>
          rw [hdecoded'] at hsame
          rcases decoded' with ⟨frame, stop, mem⟩
          obtain ⟨rfl, rfl, hmem⟩ : frame = decoded.frame ∧ stop = decoded.stop ∧
              AgreeTo d.mOffset decoded.mem mem := by
            cases hsame with
            | some hsame => exact ⟨hsame.frame, hsame.stop, hsame.mem⟩
          have hcall : Frame.deserialize .new d.address (d.pending ++ d.mBuffer.drop d.mOffset)
              d.pending.length = some decoded := by
            rw [← h.valid.mBuffer_eq, hlength]
            exact hdecoded
          rw [h.valid.mBuffer_eq] at hspace
          have hlies := Frame.deserialize_lies hspace (by omega) hcall
          rw [← h.valid.mBuffer_eq, hlength] at hlies
          rcases hlies with ⟨hmemLength, hlies⟩
          have h₁ : Alike { d with mBuffer := decoded.mem } { d with mBuffer := mem } :=
            ⟨⟨hmemLength.trans hbuffer, hoffset, haddress⟩, hmem, rfl⟩
          rw [frameStepBehind, frameStepBehind, hdecoded, hdecoded', Outcome.attempt_some,
            Outcome.attempt_some]
          by_cases hstop : decoded.stop = d.address
          · rw [if_pos hstop, if_pos hstop]
            exact .returned h₁
          · rw [if_neg hstop, if_neg hstop]
            rw [← hmemLength] at hlies
            apply onFrameBehind_alike h₁ (hlies.resolve_left hstop)
            intro payload hread hread'
            apply hparse payload
            · rw [lookahead, hdecoded, Option.bind_some, if_neg hstop, hread, Option.map_some]
            · rw [lookahead, hdecoded', Option.bind_some, if_neg hstop, hread', Option.map_some]

theorem handshakeResponse_alike {d d' : DiffLogic n} (h : Alike d d') {delim : Nat}
    (hfound : strstr HTTP_DELIMITER d.mBuffer = .found delim)
    (hfound' : strstr HTTP_DELIMITER d'.mBuffer = .found delim) (hle : delim + 4 ≤ d.mOffset) :
    Option.Rel (fun a a' ↦ a.2 = a'.2 ∧ Alike a.1 a'.1) d.handshakeResponse
      d'.handshakeResponse := by
  have hsize : BUFFER_SIZE = 50000 := rfl
  have hoffset := h.valid.offset
  have hleft : Frame.diff d.mOffset (delim + 4) = d.mOffset - (delim + 4) :=
    Frame.diff_eq hle (by omega)
  rcases h.exists_eq with ⟨mBuffer, rfl, hagree⟩
  unfold handshakeResponse
  rw [hfound, hfound']
  simp only
  rw [if_neg (by omega), if_neg (by omega), hleft, hagree.readAt (by omega)]
  cases readAt d.mBuffer (delim + 4) (d.mOffset - (delim + 4)) with
  | none => exact .none
  | some bytes =>
      rw [Option.bind_some, Option.bind_some]
      apply rel_bind (hagree.writeAt bytes (le_max_right _ _) (Nat.zero_le _))
      intro after after' hwrite hafter
      have h₁ : Alike { d with mBuffer := after, mState := .inWork, mOffset := 0 }
          { d with mBuffer := after', mState := .inWork, mOffset := 0 } :=
        ⟨⟨(length_writeAt hwrite).trans h.valid.buffer, Nat.zero_le _, h.valid.address⟩,
          agreeTo_zero hafter.length, rfl⟩
      apply rel_map (generateFrame_alike h₁ _ _ _)
      exact fun a a' _ ha ↦ ⟨rfl, ha⟩

end DiffLogic

end Tob
