import Tob.Diff.DiffLogic
import Tob.Wire.Serialize

/-!
# The output queue

`on_write` of the WebSocket client: the request first, then the frames in the queue, as much of them
at a time as the socket takes.
-/

namespace Tob

namespace OutputFrame

/-- What the socket has not accepted yet. -/
def rest (f : OutputFrame) : List UInt8 := f.frame.drop f.offset

/-- A frame in the queue has bytes left. -/
structure Queued (f : OutputFrame) : Prop where
  size : f.size = f.frame.length
  offset : f.offset < f.size
  bound : f.size < 2 ^ 64

theorem Queued.length_rest {f : OutputFrame} (h : f.Queued) :
    f.rest.length = f.size - f.offset := by
  rw [rest, List.length_drop, h.size]

end OutputFrame

/-- The bytes in a queue beyond the offsets of its entries. -/
def unsent (queue : List OutputFrame) : List UInt8 := (queue.map OutputFrame.rest).flatten

theorem unsent_cons (f : OutputFrame) (queue : List OutputFrame) :
    unsent (f :: queue) = f.rest ++ unsent queue := rfl

theorem unsent_append (queue queue' : List OutputFrame) :
    unsent (queue ++ queue') = unsent queue ++ unsent queue' := by
  rw [unsent, List.map_append, List.flatten_append]
  rfl

namespace DiffLogic

variable {n : Nat} {url : Url}

/-- The loop of `on_write`: what is left of the queue, and what each call of `socket->write` has
accepted.  A call accepts no more than its limit; behind the last limit nothing is accepted. -/
def writeLoop : List Nat → List OutputFrame → Option (List OutputFrame × List (List UInt8))
  | _, [] => some ([], [])
  | [], firstFrame :: frames => some (firstFrame :: frames, [[]])
  | limit :: limits, firstFrame :: frames =>
      (readAt firstFrame.frame firstFrame.offset
        (min limit (Frame.diff firstFrame.size firstFrame.offset))).bind fun writed ↦
      if writed = [] then some (firstFrame :: frames, [[]])
      else
        let firstFrame := { firstFrame with offset := firstFrame.offset + writed.length }
        (writeLoop limits (if firstFrame.offset = firstFrame.size then frames
          else firstFrame :: frames)).map fun (queue, accepted) ↦ (queue, writed :: accepted)

/-- `write_handshake`: one call, whose result is not looked at. -/
def writeHandshake (url : Url) (limits : List Nat) (d : DiffLogic n) :
    DiffLogic n × List (List UInt8) :=
  ({ d with mState := .handshakeResponse }, [(upgradeRequest url).take (limits.headD 0)])

/-- `on_write`, with what the calls of `socket->write` have accepted. -/
def onWrite (url : Url) (limits : List Nat) (d : DiffLogic n) :
    Option (DiffLogic n × List (List UInt8)) :=
  if d.mState = .handshake then some (d.writeHandshake url limits)
  else (writeLoop limits d.mOutputQueue).map fun (mOutputQueue, accepted) ↦
    ({ d with mOutputQueue }, accepted)

/-! ## One call -/

/-- How the loop ends: with an empty queue, or at the first call that accepts nothing. -/
structure Ends (queue : List OutputFrame) (accepted : List (List UInt8)) : Prop where
  accepts : ∀ writed ∈ accepted.dropLast, writed ≠ []
  last : queue = [] ↔ accepted.getLast? ≠ some []

/-- What the loop has accepted and what it leaves make up what there was. -/
structure Flushes (queue queue' : List OutputFrame) (accepted : List (List UInt8)) : Prop where
  queued : ∀ f ∈ queue', f.Queued
  bytes : accepted.flatten ++ unsent queue' = unsent queue
  ends : Ends queue' accepted
  calls : accepted.length ≤ (unsent queue).length + 1

theorem Ends.cons {queue : List OutputFrame} {accepted : List (List UInt8)}
    (h : Ends queue accepted) {writed : List UInt8} (hne : writed ≠ []) :
    Ends queue (writed :: accepted) := by
  have hlast := h.last
  cases accepted with
  | nil =>
      refine ⟨fun writed hw ↦ absurd hw List.not_mem_nil, ?_⟩
      rw [List.getLast?_nil] at hlast
      rw [List.getLast?_singleton]
      exact iff_of_true (hlast.mpr nofun) (fun he ↦ hne (Option.some.inj he))
  | cons last accepted =>
      rw [← List.getLast?_cons_cons] at hlast
      refine ⟨?_, hlast⟩
      rw [List.dropLast_cons_cons]
      exact List.forall_mem_cons.mpr ⟨hne, h.accepts⟩

-- A call that accepts nothing ends the loop.
theorem flushes_stop {queue : List OutputFrame} (hq : ∀ f ∈ queue, f.Queued) (hne : queue ≠ []) :
    Flushes queue queue [[]] := by
  have hlast : queue = [] ↔ [([] : List UInt8)].getLast? ≠ some [] :=
    iff_of_false hne (fun h ↦ h rfl)
  have hnone : ∀ writed ∈ [([] : List UInt8)].dropLast, writed ≠ [] :=
    fun writed hw ↦ absurd hw List.not_mem_nil
  exact ⟨hq, rfl, ⟨hnone, hlast⟩, Nat.le_add_left 1 _⟩

theorem flushes_nil : Flushes [] [] [] :=
  ⟨nofun, rfl, ⟨nofun, iff_of_true rfl nofun⟩, Nat.zero_le _⟩

-- What is left of the queue after the first frame has lost its first bytes.
theorem advance_queued {firstFrame : OutputFrame} {frames : List OutputFrame} {writed : List UInt8}
    (hq : ∀ f ∈ firstFrame :: frames, f.Queued) (hp : writed <+: firstFrame.rest) :
    let offset := firstFrame.offset + writed.length
    let queue := if offset = firstFrame.size then frames else { firstFrame with offset } :: frames
    (∀ f ∈ queue, f.Queued) ∧ writed ++ unsent queue = unsent (firstFrame :: frames) := by
  intro offset queue
  have hfirst := hq firstFrame List.mem_cons_self
  have hframes : ∀ f ∈ frames, f.Queued := fun f hf ↦ hq f (List.mem_cons_of_mem _ hf)
  have hsize := hfirst.size
  have hbefore := hfirst.offset
  have hlength := hfirst.length_rest
  have hle := hp.length_le
  have hrest : writed ++ firstFrame.frame.drop offset = firstFrame.rest := by
    have hwrited := List.prefix_iff_eq_take.mp hp
    conv_rhs => rw [← List.take_append_drop writed.length firstFrame.rest, ← hwrited]
    rw [OutputFrame.rest, List.drop_drop]
  -- a frame that is sent whole leaves the queue
  by_cases hend : offset = firstFrame.size
  · have hqueue : queue = frames := if_pos hend
    rw [List.drop_eq_nil_of_le (by omega), List.append_nil] at hrest
    rw [hqueue, unsent_cons, hrest]
    exact ⟨hframes, rfl⟩
  · have hqueue : queue = { firstFrame with offset } :: frames := if_neg hend
    have hqueued : ({ firstFrame with offset } : OutputFrame).Queued := by
      refine ⟨hsize, ?_, hfirst.bound⟩
      show firstFrame.offset + writed.length < firstFrame.size
      have hoffset : offset = firstFrame.offset + writed.length := rfl
      omega
    rw [hqueue, unsent_cons, unsent_cons, ← List.append_assoc]
    refine ⟨List.forall_mem_cons.mpr ⟨hqueued, hframes⟩, ?_⟩
    rw [← hrest]
    rfl

/-- Whatever the socket accepts, nothing is lost, repeated or sent out of order. -/
theorem writeLoop_flushes (limits : List Nat) {queue : List OutputFrame}
    (hq : ∀ f ∈ queue, f.Queued) :
    ∃ queue' accepted, writeLoop limits queue = some (queue', accepted) ∧
      Flushes queue queue' accepted := by
  induction limits generalizing queue with
  | nil =>
      cases queue with
      | nil => exact ⟨[], [], rfl, flushes_nil⟩
      | cons firstFrame frames =>
          exact ⟨_, _, rfl, flushes_stop hq (List.cons_ne_nil _ _)⟩
  | cons limit limits ih =>
      cases queue with
      | nil => exact ⟨[], [], rfl, flushes_nil⟩
      | cons firstFrame frames =>
          have hfirst := hq firstFrame List.mem_cons_self
          have hsize := hfirst.size
          have hoffset := hfirst.offset
          have hroom : Frame.diff firstFrame.size firstFrame.offset =
              firstFrame.size - firstFrame.offset :=
            Frame.diff_eq (le_of_lt hoffset) (lt_of_le_of_lt (Nat.sub_le _ _) hfirst.bound)
          have hread : readAt firstFrame.frame firstFrame.offset
              (min limit (firstFrame.size - firstFrame.offset)) =
              some (firstFrame.rest.take (min limit (firstFrame.size - firstFrame.offset))) :=
            if_pos (by omega)
          rw [writeLoop, hroom, hread, Option.bind_some]
          generalize hw : firstFrame.rest.take (min limit (firstFrame.size - firstFrame.offset)) =
            writed
          have hp : writed <+: firstFrame.rest := hw ▸ List.take_prefix _ _
          by_cases hnone : writed = []
          · rw [if_pos hnone]
            exact ⟨_, _, rfl, flushes_stop hq (List.cons_ne_nil _ _)⟩
          · -- the queue that the next call finds, and what it accepts of that
            have hadvance := advance_queued hq hp
            have hrest := ih hadvance.1
            rcases hrest with ⟨queue', accepted, he, h⟩
            have hcalls := h.calls
            have hsum := congrArg List.length hadvance.2
            have hpos := List.length_pos_iff.mpr hnone
            rw [List.length_append] at hsum
            rw [if_neg hnone]
            simp only
            rw [he]
            refine ⟨queue', writed :: accepted, rfl, h.queued, ?_, h.ends.cons hnone, ?_⟩
            · rw [List.flatten_cons, List.append_assoc, h.bytes, hadvance.2]
            · rw [List.length_cons]
              omega

/-! ## Runs -/

/-- The frame of `generate_frame`. -/
def generated (type : UInt64) (maskKey : UInt32) : Frame :=
  { Frame.new with fin := 1, type := type.toUInt8, maskKey, masked := maskKey.toUInt8 }

/-- `generate_frame` and `on_write` in any order, with the frames generated so far and the bytes the
socket has accepted.  Whatever else `on_read` does leaves the queue alone. -/
inductive Sends (url : Url) (d₀ : DiffLogic n) :
    List (List UInt8) → List UInt8 → DiffLogic n → Prop where
  | start : Sends url d₀ [] [] d₀
  | generate {frames accepted d type message maskKey frame bytes d'} :
      Sends url d₀ frames accepted d →
      Frame.serialize (generated type maskKey) message = some (frame, bytes) →
      d.generateFrame type message maskKey = some d' →
      Sends url d₀ (frames ++ [bytes]) accepted d'
  | write {frames accepted d limits d' writed} : Sends url d₀ frames accepted d →
      d.mState ≠ .handshake → d.onWrite url limits = some (d', writed) →
      Sends url d₀ frames (accepted ++ writed.flatten) d'
  | other {frames accepted d d'} : Sends url d₀ frames accepted d →
      d'.mOutputQueue = d.mOutputQueue → Sends url d₀ frames accepted d'

/-- The queue holds what has been generated and not been accepted. -/
structure Pending (frames : List (List UInt8)) (accepted : List UInt8) (d : DiffLogic n) :
    Prop where
  queued : ∀ f ∈ d.mOutputQueue, f.Queued
  bytes : accepted ++ unsent d.mOutputQueue = frames.flatten

theorem generateFrame_eq (d : DiffLogic n) {type : UInt64} {message : List UInt8}
    {maskKey : UInt32} {frame : Frame} {bytes : List UInt8}
    (h : Frame.serialize (generated type maskKey) message = some (frame, bytes)) :
    d.generateFrame type message maskKey =
      some { d with mOutputQueue := d.mOutputQueue ++ [⟨bytes, bytes.length, 0⟩] } := by
  show (Frame.serialize (generated type maskKey) message).map _ = _
  rw [h]
  rfl

theorem Pending.generate {frames : List (List UInt8)} {accepted : List UInt8} {d : DiffLogic n}
    (h : Pending frames accepted d) {type : UInt64} {message : List UInt8} {maskKey : UInt32}
    {frame : Frame} {bytes : List UInt8} {d' : DiffLogic n}
    (hbytes : Frame.serialize (generated type maskKey) message = some (frame, bytes))
    (hd : d.generateFrame type message maskKey = some d') :
    Pending (frames ++ [bytes]) accepted d' := by
  have hlength := Frame.two_le_length_serialize hbytes
  have hqueued : (⟨bytes, bytes.length, 0⟩ : OutputFrame).Queued :=
    ⟨rfl, lt_of_lt_of_le Nat.two_pos hlength.1, hlength.2⟩
  rw [generateFrame_eq d hbytes, Option.some_inj] at hd
  rw [← hd]
  apply Pending.mk
  · intro f hf
    rcases List.mem_append.mp hf with hold | hnew
    · exact h.queued f hold
    · rw [List.mem_singleton.mp hnew]
      exact hqueued
  · show accepted ++ unsent (d.mOutputQueue ++ [⟨bytes, bytes.length, 0⟩]) = _
    rw [unsent_append, ← List.append_assoc, h.bytes, List.flatten_append]
    rfl

theorem Pending.onWrite {frames : List (List UInt8)} {accepted : List UInt8} {d : DiffLogic n}
    (h : Pending frames accepted d) (hstate : d.mState ≠ .handshake) (url : Url)
    (limits : List Nat) :
    ∃ d' writed, d.onWrite url limits = some (d', writed) ∧
      Flushes d.mOutputQueue d'.mOutputQueue writed ∧
      Pending frames (accepted ++ writed.flatten) d' := by
  rcases writeLoop_flushes limits h.queued with ⟨queue, writed, he, hf⟩
  refine ⟨{ d with mOutputQueue := queue }, writed, ?_, hf, hf.queued, ?_⟩
  · rw [DiffLogic.onWrite, if_neg hstate, he]
    rfl
  · rw [List.append_assoc, hf.bytes, h.bytes]

theorem Sends.pending {d₀ d : DiffLogic n} (hempty : d₀.mOutputQueue = [])
    {frames : List (List UInt8)} {accepted : List UInt8} (h : Sends url d₀ frames accepted d) :
    Pending frames accepted d := by
  induction h with
  | start =>
      refine ⟨?_, ?_⟩
      · rw [hempty]
        exact nofun
      · rw [hempty]
        rfl
  | generate _ hbytes hd ih => exact ih.generate hbytes hd
  | @write frames accepted d limits d' writed _ hstate he ih =>
      rcases ih.onWrite hstate url limits with ⟨d₁, writed₁, he₁, -, h₁⟩
      rw [he, Option.some_inj, Prod.mk.injEq] at he₁
      rw [he₁.1, he₁.2]
      exact h₁
  | other _ hsame ih =>
      refine ⟨?_, ?_⟩
      · rw [hsame]
        exact ih.queued
      · rw [hsame]
        exact ih.bytes

/-! ## What a read does to the queue -/

theorem Sends.of_generateFrame {d₀ d d' : DiffLogic n} {frames : List (List UInt8)}
    {accepted : List UInt8} (h : Sends url d₀ frames accepted d) {type : UInt64}
    {message : List UInt8} {maskKey : UInt32}
    (hd : d.generateFrame type message maskKey = some d') :
    ∃ bytes, Sends url d₀ (frames ++ [bytes]) accepted d' := by
  rcases Option.map_eq_some_iff.mp hd with ⟨⟨frame, bytes⟩, hbytes, -⟩
  exact ⟨bytes, h.generate hbytes hd⟩

theorem answerPing_cases {d d' : DiffLogic n} {frame : Frame} (h : d.answerPing frame = some d') :
    d' = d ∨ d.generateFrame Frame.PONG.toUInt64 [] 0 = some d' := by
  unfold answerPing at h
  by_cases hping : frame.type = Frame.PING
  · rw [if_pos hping] at h
    exact .inr h
  · rw [if_neg hping] at h
    exact .inl (Option.some.inj h).symm

-- Only a ping is answered; the payload changes the orders and the buffer.
theorem takeFrame_keeps {d d' : DiffLogic n} {stop : Nat} (h : d.takeFrame stop = some d') :
    d'.mOutputQueue = d.mOutputQueue ∧ d'.mState = d.mState := by
  rcases Option.bind_eq_some_iff.mp h with ⟨bytes, -, hwrite⟩
  rcases Option.map_eq_some_iff.mp hwrite with ⟨mBuffer, -, hd⟩
  rw [← hd]
  exact ⟨rfl, rfl⟩

theorem onParsed_keeps {conv : Conversions} {d d' : DiffLogic n}
    {parsed : Except String (Option Json)} {stop : Nat}
    (h : (d.onParsed conv parsed stop).state? = some d') :
    d'.mOutputQueue = d.mOutputQueue ∧ d'.mState = d.mState := by
  cases parsed with
  | error what =>
      cases h
      exact ⟨rfl, rfl⟩
  | ok parsed =>
      cases parsed with
      | none =>
          rcases Outcome.attempt_state?.mp h with ⟨d₁, htake, hd⟩
          cases hd
          exact takeFrame_keeps htake
      | some root =>
          unfold onParsed at h
          simp only at h
          cases hstore : storeMessage conv root d.mOrders with
          | returned mOrders =>
              rw [hstore] at h
              rcases Outcome.attempt_state?.mp h with ⟨d₁, htake, hd⟩
              cases hd
              have hsame := takeFrame_keeps htake
              exact hsame
          | threw what mOrders => rw [hstore] at h; cases h; exact ⟨rfl, rfl⟩
          | aborted mOrders => rw [hstore] at h; cases h; exact ⟨rfl, rfl⟩
          | undefined => rw [hstore] at h; cases h

theorem onPayload_keeps {conv : Conversions} {d d' : DiffLogic n} {payload : List UInt8}
    {stop : Nat} (h : (d.onPayload conv payload stop).state? = some d') :
    d'.mOutputQueue = d.mOutputQueue ∧ d'.mState = d.mState := onParsed_keeps h

theorem Sends.frameStep {conv : Conversions} {d₀ d d' : DiffLogic n} {frames : List (List UInt8)}
    {accepted : List UInt8} (h : Sends url d₀ frames accepted d)
    (hd : (d.frameStep conv).state? = some d') :
    ∃ more, Sends url d₀ (frames ++ more) accepted d' := by
  rcases Outcome.attempt_state?.mp hd with ⟨decoded, -, hd⟩
  have hdecoded : Sends url d₀ frames accepted { d with mBuffer := decoded.mem } := h.other rfl
  by_cases hstop : decoded.stop = d.address
  · rw [if_pos hstop] at hd
    cases hd
    exact ⟨[], by rw [List.append_nil]; exact hdecoded⟩
  · rw [if_neg hstop] at hd
    rcases Outcome.attempt_state?.mp hd with ⟨d₁, hping, hd⟩
    rcases Outcome.attempt_state?.mp hd with ⟨payload, -, hd⟩
    have hsame := (onPayload_keeps hd).1
    rcases answerPing_cases hping with hno | hpong
    · rw [hno] at hsame
      exact ⟨[], by rw [List.append_nil]; exact hdecoded.other hsame⟩
    · rcases hdecoded.of_generateFrame hpong with ⟨bytes, h₁⟩
      exact ⟨[bytes], h₁.other hsame⟩

-- The request for the subscription comes after the transition.
theorem handshakeResponse_cases {d d' : DiffLogic n} {upgraded : Bool}
    (h : d.handshakeResponse = some (d', upgraded)) :
    (upgraded = false ∧ d' = d) ∨ (upgraded = true ∧ ∃ d₁ : DiffLogic n,
      d₁.mOutputQueue = d.mOutputQueue ∧ d₁.mOrders = d.mOrders ∧ d₁.mState = .inWork ∧
      d₁.generateFrame Frame.TEXT.toUInt64 (ascii subscription) 0 = some d') := by
  unfold handshakeResponse at h
  cases hstr : strstr HTTP_DELIMITER d.mBuffer with
  | overrun => rw [hstr] at h; cases h
  | ended => rw [hstr] at h; cases h; exact .inl ⟨rfl, rfl⟩
  | found delim =>
      rw [hstr] at h
      simp only at h
      by_cases hbehind : d.mOffset < delim
      · rw [if_pos hbehind] at h
        cases h
        exact .inl ⟨rfl, rfl⟩
      · rw [if_neg hbehind] at h
        rcases Option.bind_eq_some_iff.mp h with ⟨bytes, -, h⟩
        rcases Option.bind_eq_some_iff.mp h with ⟨mBuffer, -, h⟩
        rcases Option.map_eq_some_iff.mp h with ⟨d₂, hgenerate, heq⟩
        cases heq
        exact .inr ⟨rfl, { d with mBuffer, mState := .inWork, mOffset := 0 }, rfl, rfl, rfl,
          hgenerate⟩

/-- `on_read` changes the queue by `generate_frame` only. -/
theorem Sends.readStep {conv : Conversions} {d₀ d d' : DiffLogic n} {frames : List (List UInt8)}
    {accepted chunk : List UInt8} (h : Sends url d₀ frames accepted d)
    (hd : (d.readStep conv chunk).state? = some d') :
    ∃ more, Sends url d₀ (frames ++ more) accepted d' := by
  rcases Outcome.attempt_state?.mp hd with ⟨d₁, hreceive, hd⟩
  rcases Option.map_eq_some_iff.mp hreceive with ⟨mBuffer, -, hd₁⟩
  have h₁ : Sends url d₀ frames accepted d₁ := h.other (by rw [← hd₁])
  by_cases hstate : d₁.mState = .handshakeResponse
  · rw [if_pos hstate] at hd
    rcases Outcome.attempt_state?.mp hd with ⟨⟨d₂, upgraded⟩, hresponse, hd⟩
    cases upgraded with
    | false =>
        cases hd
        rcases handshakeResponse_cases hresponse with ⟨-, hsame⟩ | ⟨hno, -⟩
        · exact ⟨[], by rw [hsame, List.append_nil]; exact h₁⟩
        · cases hno
    | true =>
        rcases handshakeResponse_cases hresponse with ⟨hno, -⟩ | ⟨-, d₃, hqueue, -, -, hgenerate⟩
        · cases hno
        · rcases (h₁.other hqueue).of_generateFrame hgenerate with ⟨bytes, h₂⟩
          rcases h₂.frameStep hd with ⟨more, h₃⟩
          exact ⟨[bytes] ++ more, by rw [← List.append_assoc]; exact h₃⟩
  · rw [if_neg hstate] at hd
    exact h₁.frameStep hd

/-- Partial writes lose, repeat and reorder nothing. -/
theorem frames_survive_partial_writes {d₀ d : DiffLogic n} (hempty : d₀.mOutputQueue = [])
    {frames : List (List UInt8)} {accepted : List UInt8} (h : Sends url d₀ frames accepted d) :
    accepted <+: frames.flatten ∧ accepted ++ unsent d.mOutputQueue = frames.flatten ∧
      (∀ f ∈ d.mOutputQueue, f.offset < f.size ∧ f.size = f.frame.length) ∧
      (d.mState ≠ .handshake → ∀ limits, ∃ d' writed,
        d.onWrite url limits = some (d', writed) ∧ Ends d'.mOutputQueue writed ∧
          writed.length ≤ (unsent d.mOutputQueue).length + 1) := by
  have hp := h.pending hempty
  refine ⟨⟨_, hp.bytes⟩, hp.bytes, ?_, ?_⟩
  · exact fun f hf ↦ ⟨(hp.queued f hf).offset, (hp.queued f hf).size⟩
  · intro hstate limits
    rcases hp.onWrite hstate url limits with ⟨d', writed, he, hf, -⟩
    exact ⟨d', writed, he, hf.ends, hf.calls⟩

/-- A client in `IN_WORK` with nothing in its buffers. -/
def quiet : DiffLogic 1 := ⟨0x10000, 0, [], .inWork, [], .empty⟩

/-- A pong of which the socket takes the first byte. -/
theorem frames_survive_partial_writes_example :
    ∃ d : DiffLogic 1, Sends ⟨"/", "host"⟩ quiet [[0x8a, 0x00]] [0x8a] d ∧
      [0x8a] <+: [[(0x8a : UInt8), 0x00]].flatten ∧
      [0x8a] ++ unsent d.mOutputQueue = [[0x8a, 0x00]].flatten := by
  have hpong : Frame.serialize (generated Frame.PONG.toUInt64 0) [] =
      some (generated Frame.PONG.toUInt64 0, [0x8a, 0x00]) := by decide
  have hloop : writeLoop [1] [⟨[0x8a, 0x00], 2, 0⟩] =
      some ([⟨[0x8a, 0x00], 2, 1⟩], [[0x8a], []]) := by decide +kernel
  have hwrite : ({ quiet with mOutputQueue := [⟨[0x8a, 0x00], 2, 0⟩] } : DiffLogic 1).onWrite
      ⟨"/", "host"⟩ [1] =
      some ({ quiet with mOutputQueue := [⟨[0x8a, 0x00], 2, 1⟩] }, [[0x8a], []]) := by
    rw [onWrite, if_neg (by decide), hloop]
    rfl
  have hsends : Sends ⟨"/", "host"⟩ quiet [[0x8a, 0x00]] [0x8a]
      { quiet with mOutputQueue := [⟨[0x8a, 0x00], 2, 1⟩] } :=
    (Sends.start.generate hpong (generateFrame_eq quiet hpong)).write (by decide) hwrite
  have h := frames_survive_partial_writes rfl hsends
  exact ⟨_, hsends, h.1, h.2.1⟩

end DiffLogic

end Tob
