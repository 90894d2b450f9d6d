import Tob.Diff.Frames

/-!
# Frame boundaries

In `IN_WORK` the frames that have left the buffer are the frames of the stream, one after the other,
and what is in the buffer is the rest of what has been received.
-/

namespace Tob

namespace DiffLogic

variable {n : Nat} {conv : Conversions}

/-- What an iteration of the read loop takes off the front: nothing, or one run of bytes. -/
def taken (d : DiffLogic n) (chunk : List UInt8) (d' : DiffLogic n) : List (List UInt8) :=
  if d'.mOffset = d.mOffset + chunk.length then []
  else [(d.pending ++ chunk).take (d.mOffset + chunk.length - d'.mOffset)]

/-- The iterations of the read loop from `d₀` on, over any number of calls: the bytes received, the
byte strings taken off the front, and the state.  A read fits the room it is offered. -/
inductive Reads (conv : Conversions) (d₀ : DiffLogic n) :
    List UInt8 → List (List UInt8) → DiffLogic n → Prop where
  | start : Reads conv d₀ [] [] d₀
  | read {received consumed d chunk d'} : Reads conv d₀ received consumed d →
      chunk ≠ [] → d.mOffset + chunk.length ≤ BUFFER_SIZE →
      d.readStep conv chunk = .returned d' →
      Reads conv d₀ (received ++ chunk) (consumed ++ d.taken chunk d') d'

/-- The state is in `IN_WORK`. -/
structure InWork (d : DiffLogic n) : Prop where
  valid : d.Valid
  mState : d.mState = .inWork

/-- An iteration on the front `got` of a stream of frames: `rest` is left when the frame at the head
has been taken, everything when none is recognised. -/
def Takes (ws : List WireFrame) (got rest : List UInt8) : Prop :=
  (rest = got ∧ ∀ w ∈ ws.head?, ¬ w.Recognised got.length) ∨
    ∃ w ws', ws = w :: ws' ∧ w.Recognised got.length ∧ got = w.bytes ++ rest

/-- A read in `IN_WORK` adds to the buffer and goes on to the frames. -/
theorem receive_inWork {d : DiffLogic n} (h : d.InWork) {chunk : List UInt8}
    (hroom : d.mOffset + chunk.length ≤ BUFFER_SIZE) :
    ∃ d₁ : DiffLogic n, d.receive chunk = some d₁ ∧ d₁.InWork ∧
      d₁.pending = d.pending ++ chunk ∧ d₁.mOffset = d.mOffset + chunk.length ∧
      ∀ parse conv, d.readStepBehind parse conv chunk = d₁.frameStepBehind parse conv := by
  rcases receive_leaves h.valid hroom with ⟨d₁, he, hl, hoffset, -⟩
  have hstate : d₁.mState = .inWork := hl.mState.trans h.mState
  refine ⟨d₁, he, ⟨hl.valid, hstate⟩, hl.pending, hoffset, fun parse conv ↦ ?_⟩
  rw [readStepBehind, he, Outcome.attempt_some, hstate, if_neg (by decide)]

theorem readStep_inWork (conv : Conversions) {d : DiffLogic n} (h : d.InWork) {chunk : List UInt8}
    (hroom : d.mOffset + chunk.length ≤ BUFFER_SIZE) :
    ∃ d₁ : DiffLogic n, d₁.InWork ∧ d₁.pending = d.pending ++ chunk ∧
      d.readStep conv chunk = d₁.frameStep conv := by
  rcases receive_inWork h hroom with ⟨d₁, -, h₁, hpending, -, hstep⟩
  exact ⟨d₁, h₁, hpending, hstep (fun _ ↦ conv.parse) conv⟩

theorem readStep_spec {d : DiffLogic n} (h : d.InWork) {ws : List WireFrame} {chunk : List UInt8}
    (hroom : d.mOffset + chunk.length ≤ BUFFER_SIZE)
    (hp : d.pending ++ chunk <+: WireFrame.stream ws) :
    (d.readStep conv chunk).Ensures fun d' ↦
      d'.InWork ∧ Takes ws (d.pending ++ chunk) d'.pending := by
  rcases readStep_inWork conv h hroom with ⟨d₁, h₁, hpending, he⟩
  have hlength := h₁.valid.length_pending
  have hspec := frameStep_spec conv h₁.valid (hpending ▸ hp)
  rw [he, ← hpending]
  rw [← hlength] at hspec
  rcases hspec with ⟨hf, hno⟩ | ⟨w, ws', rest, hws, hr, hrest, hstep⟩
  · rw [hf]
    exact Outcome.ensures_returned ⟨h₁, .inl ⟨rfl, hno⟩⟩
  · apply hstep.imp
    intro d' hl
    refine ⟨⟨hl.valid, hl.mState.trans h₁.mState⟩, .inr ⟨w, ws', hws, hr, ?_⟩⟩
    rw [hl.pending]
    exact hrest

-- How much shorter the buffer is tells what has been taken.
theorem taken_of_takes {d d' : DiffLogic n} (hv : d.Valid) (hv' : d'.Valid) {ws : List WireFrame}
    {chunk : List UInt8} (h : Takes ws (d.pending ++ chunk) d'.pending) :
    (d.taken chunk d' = [] ∧ d'.pending = d.pending ++ chunk) ∨
      ∃ w ws', ws = w :: ws' ∧ d.taken chunk d' = [w.bytes] ∧
        d.pending ++ chunk = w.bytes ++ d'.pending := by
  have hlength := hv.length_pending
  have hlength' := hv'.length_pending
  rcases h with ⟨hrest, -⟩ | ⟨w, ws', hws, -, hgot⟩
  · left
    have hsame := congrArg List.length hrest
    rw [List.length_append, hlength, hlength'] at hsame
    exact ⟨if_pos hsame, hrest⟩
  · right
    have hsum := congrArg List.length hgot
    rw [List.length_append, List.length_append, hlength, hlength'] at hsum
    have hpos := w.length_bytes_pos
    refine ⟨w, ws', hws, ?_, hgot⟩
    rw [taken, if_neg (by omega), hgot, show d.mOffset + chunk.length - d'.mOffset =
      w.bytes.length by omega, List.take_left]

/-- The buffer is aligned with the stream: `consumed` are its first frames, and the buffer continues
behind them. -/
structure Aligned (ws : List WireFrame) (received : List UInt8) (consumed : List (List UInt8))
    (d : DiffLogic n) : Prop where
  inWork : d.InWork
  frames : consumed = (ws.take consumed.length).map WireFrame.bytes
  bytes : consumed.flatten ++ d.pending = received

theorem stream_eq_flatten (ws : List WireFrame) :
    WireFrame.stream ws = (ws.map WireFrame.bytes).flatten := by
  induction ws with
  | nil => rfl
  | cons w ws ih => rw [WireFrame.stream, ih, List.map_cons, List.flatten_cons]

-- What comes behind the consumed frames belongs to the frames that are left.
theorem Aligned.left {ws : List WireFrame} {received more : List UInt8}
    {consumed : List (List UInt8)} {d : DiffLogic n} (h : Aligned ws received consumed d)
    (hp : received ++ more <+: WireFrame.stream ws) :
    d.pending ++ more <+: WireFrame.stream (ws.drop consumed.length) := by
  have hsplit : WireFrame.stream ws =
      consumed.flatten ++ WireFrame.stream (ws.drop consumed.length) := by
    conv_lhs => rw [← List.take_append_drop consumed.length ws]
    rw [WireFrame.stream_append, stream_eq_flatten (ws.take _), ← h.frames]
  rw [← h.bytes, List.append_assoc, hsplit] at hp
  exact (List.prefix_append_right_inj _).mp hp

theorem Aligned.step {ws : List WireFrame} {received chunk : List UInt8}
    {consumed : List (List UInt8)} {d d' : DiffLogic n} (h : Aligned ws received consumed d)
    (hroom : d.mOffset + chunk.length ≤ BUFFER_SIZE)
    (hp : received ++ chunk <+: WireFrame.stream ws)
    (hstep : d.readStep conv chunk = .returned d') :
    Aligned ws (received ++ chunk) (consumed ++ d.taken chunk d') d' := by
  have hspec := (readStep_spec h.inWork hroom (h.left hp)).2 d' hstep
  refine ⟨hspec.1, ?_, ?_⟩
  · rcases taken_of_takes h.inWork.valid hspec.1.valid hspec.2 with ⟨ht, -⟩ | ⟨w, ws', hws, ht, -⟩
    · rw [ht, List.append_nil]
      exact h.frames
    · -- one more frame of the list
      have hget : ws.take (consumed.length + 1) = ws.take consumed.length ++ [w] := by
        rw [List.take_add, hws]
        rfl
      rw [ht, List.length_append, List.length_singleton, hget, List.map_append, ← h.frames]
      rfl
  · rcases taken_of_takes h.inWork.valid hspec.1.valid hspec.2 with
      ⟨ht, hrest⟩ | ⟨w, -, -, ht, hgot⟩
    · rw [ht, List.append_nil, hrest, ← List.append_assoc, h.bytes]
    · rw [ht, List.flatten_append, List.flatten_singleton, List.append_assoc, ← hgot,
        ← List.append_assoc, h.bytes]

theorem Reads.aligned {d₀ d : DiffLogic n} (hinWork : d₀.InWork) (hzero : d₀.mOffset = 0)
    {ws : List WireFrame} {received : List UInt8} {consumed : List (List UInt8)}
    (h : Reads conv d₀ received consumed d) (hp : received <+: WireFrame.stream ws) :
    Aligned ws received consumed d := by
  induction h with
  | start =>
      refine ⟨hinWork, rfl, ?_⟩
      rw [pending, hzero]
      rfl
  | read hreads _ hroom hstep ih =>
      exact (ih ((List.prefix_append _ _).trans hp)).step hroom hp hstep

/-- Frame boundaries never drift. -/
theorem frames_consumed_in_order {d₀ d : DiffLogic n} (hinWork : d₀.InWork)
    (hzero : d₀.mOffset = 0) {ws : List WireFrame} {received : List UInt8}
    {consumed : List (List UInt8)} (hreads : Reads conv d₀ received consumed d)
    (hp : received <+: WireFrame.stream ws) :
    consumed <+: ws.map WireFrame.bytes ∧ consumed.flatten ++ d.pending = received ∧
      d.pending.length = d.mOffset ∧ d.mOffset ≤ BUFFER_SIZE ∧
      ∀ chunk, d.mOffset + chunk.length ≤ BUFFER_SIZE →
        received ++ chunk <+: WireFrame.stream ws → d.readStep conv chunk ≠ .undefined := by
  have h := hreads.aligned hinWork hzero hp
  refine ⟨?_, h.bytes, h.inWork.valid.length_pending, h.inWork.valid.offset, ?_⟩
  · rw [h.frames]
    exact (List.take_prefix _ _).map _
  · exact fun chunk hroom hmore ↦ (readStep_spec h.inWork hroom (h.left hmore)).1

/-- A payload that is no JSON never stops the loop. -/
theorem readStep_invalid {d : DiffLogic n} (h : d.InWork) {chunk rest : List UInt8}
    (hroom : d.mOffset + chunk.length ≤ BUFFER_SIZE) {w : WireFrame}
    (hgot : d.pending ++ chunk = w.bytes ++ rest) (hlast : ¬ (w.Bare ∧ rest = []))
    (hparse : conv.parse w.plain = .ok none) :
    ∃ d', d.readStep conv chunk = .returned d' ∧ d'.InWork ∧ d'.pending = rest := by
  rcases readStep_inWork conv h hroom with ⟨d₁, h₁, hpending, he⟩
  rcases frameStep_invalid h₁.valid (hpending.trans hgot) hlast hparse with ⟨d', hf, hl⟩
  exact ⟨d', he.trans hf, ⟨hl.valid, hl.mState.trans h₁.mState⟩, hl.pending⟩

/-- A client that has just gone over to frames. -/
def idle : DiffLogic 1 := ⟨0x10000, 0, List.replicate BUFFER_SIZE 0, .inWork, [], .empty⟩

theorem idle_inWork : idle.InWork :=
  ⟨⟨List.length_replicate, Nat.zero_le _, by decide⟩, rfl⟩

theorem idle_pending : idle.pending = [] := rfl

/-- A text frame with the payload `x`. -/
def textFrame : WireFrame := ⟨0x81, .short, none, [0x78], by decide⟩

/-- Conversions for which no payload is JSON. -/
def noJson : Conversions := ⟨fun _ ↦ .ok none, fun _ ↦ .error "stoll", fun _ ↦ .error "stod"⟩

/-- A text frame with the first byte of another one behind it, and the rest of that one. -/
def cutReads : List (List UInt8) := [textFrame.bytes ++ [0x81], [0x01, 0x78]]

theorem cut_reads : ∃ d₁ d₂ : DiffLogic 1,
    idle.readStep noJson (textFrame.bytes ++ [0x81]) = .returned d₁ ∧ d₁.mOffset = 1 ∧
    d₁.pending = [0x81] ∧ d₁.readStep noJson [0x01, 0x78] = .returned d₂ ∧ d₂.mOffset = 0 := by
  have hgot : idle.pending ++ (textFrame.bytes ++ [0x81]) = textFrame.bytes ++ [0x81] := by
    rw [idle_pending, List.nil_append]
  have hparse : noJson.parse textFrame.plain = .ok none := rfl
  rcases readStep_invalid idle_inWork (by decide) hgot (by decide) hparse with
    ⟨d₁, hfirst, hwork₁, hrest₁⟩
  have hone : d₁.mOffset = 1 := by
    rw [← hwork₁.valid.length_pending, hrest₁]
    rfl
  have hgot₁ : d₁.pending ++ [0x01, 0x78] = textFrame.bytes ++ [] := by
    rw [hrest₁]
    rfl
  have hroom : d₁.mOffset + [0x01, 0x78].length ≤ BUFFER_SIZE := by
    rw [hone]
    decide
  rcases readStep_invalid hwork₁ hroom hgot₁ (by decide) hparse with
    ⟨d₂, hsecond, hwork₂, hrest₂⟩
  refine ⟨d₁, d₂, hfirst, hone, hrest₁, hsecond, ?_⟩
  rw [← hwork₂.valid.length_pending, hrest₂]
  rfl

theorem frames_consumed_in_order_example :
    ∃ d, Reads noJson idle cutReads.flatten [textFrame.bytes, textFrame.bytes] d ∧
    [textFrame.bytes, textFrame.bytes] <+: [textFrame, textFrame].map WireFrame.bytes ∧
    [textFrame.bytes, textFrame.bytes].flatten ++ d.pending = cutReads.flatten ∧
    d.pending.length = d.mOffset ∧ d.mOffset ≤ BUFFER_SIZE ∧
    ∀ chunk, d.mOffset + chunk.length ≤ BUFFER_SIZE →
      cutReads.flatten ++ chunk <+: WireFrame.stream [textFrame, textFrame] →
      d.readStep noJson chunk ≠ .undefined := by
  rcases cut_reads with ⟨d₁, d₂, hfirst, hone, hrest, hsecond, hzero⟩
  have htaken₁ : idle.taken (textFrame.bytes ++ [0x81]) d₁ = [textFrame.bytes] := by
    rw [taken, hone, if_neg (by decide), idle_pending]
    rfl
  have htaken₂ : d₁.taken [0x01, 0x78] d₂ = [textFrame.bytes] := by
    rw [taken, hzero, hone, hrest, if_neg (by decide)]
    rfl
  have hroom : d₁.mOffset + [0x01, 0x78].length ≤ BUFFER_SIZE := by
    rw [hone]
    decide
  have hreads := (Reads.start.read (by decide) (by decide) hfirst).read (by decide) hroom hsecond
  rw [htaken₁, htaken₂] at hreads
  exact ⟨d₂, hreads, frames_consumed_in_order idle_inWork rfl hreads (List.prefix_refl _)⟩

end DiffLogic

end Tob
