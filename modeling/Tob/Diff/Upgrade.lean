import Tob.Diff.Boundaries
import Tob.Wire.Head

/-!
# The upgrade response

What `on_read` keeps of the input when it goes from `HANDSHAKE_RESPONSE` to `IN_WORK`.  The buffer
is not initialised: behind the bytes received `strstr` sees whatever was there before.
-/

namespace Tob

namespace DiffLogic

variable {n : Nat} {conv : Conversions}

/-- A read in `HANDSHAKE_RESPONSE` up to the moment before the first frame is looked for. -/
def upgrade (d : DiffLogic n) (chunk : List UInt8) : Option (DiffLogic n × Bool) :=
  (d.receive chunk).bind handshakeResponse

theorem readStep_eq_upgrade {d : DiffLogic n} (hstate : d.mState = .handshakeResponse)
    (chunk : List UInt8) :
    d.readStep conv chunk = .attempt (d.upgrade chunk) fun (d, upgraded) ↦
      if upgraded then d.frameStep conv else .returned d := by
  unfold readStep upgrade
  cases hreceive : d.receive chunk with
  | none => rfl
  | some d₁ =>
      rcases Option.map_eq_some_iff.mp hreceive with ⟨mBuffer, -, hd₁⟩
      have hstate₁ : d₁.mState = .handshakeResponse := by rw [← hd₁]; exact hstate
      rw [Outcome.attempt_some, if_pos hstate₁, Option.bind_some]

/-- The iterations that leave the client in `HANDSHAKE_RESPONSE`, and the bytes received in them. -/
inductive Waiting (conv : Conversions) (d₀ : DiffLogic n) : List UInt8 → DiffLogic n → Prop where
  | start : Waiting conv d₀ [] d₀
  | read {received d chunk d'} : Waiting conv d₀ received d →
      chunk ≠ [] → d.mOffset + chunk.length ≤ BUFFER_SIZE →
      d.readStep conv chunk = .returned d' → d'.mState = .handshakeResponse →
      Waiting conv d₀ (received ++ chunk) d'

/-- The buffer holds `received`, and behind it what was there at first. -/
structure Got (stale received : List UInt8) (d : DiffLogic n) : Prop where
  valid : d.Valid
  mState : d.mState = .handshakeResponse
  mOffset : d.mOffset = received.length
  mBuffer : d.mBuffer = received ++ stale.drop received.length

theorem Got.pending {stale received : List UInt8} {d : DiffLogic n} (h : Got stale received d) :
    d.pending = received := by
  rw [DiffLogic.pending, h.mBuffer, h.mOffset, List.take_left]

theorem Got.receive {stale received chunk : List UInt8} {d : DiffLogic n}
    (h : Got stale received d) (hroom : d.mOffset + chunk.length ≤ BUFFER_SIZE) :
    ∃ d₁, d.receive chunk = some d₁ ∧ Got stale (received ++ chunk) d₁ := by
  rcases receive_leaves h.valid hroom with ⟨d₁, he, hl, hoffset, hbuffer⟩
  have hlength : d₁.mOffset = (received ++ chunk).length := by
    rw [hoffset, h.mOffset, List.length_append]
  refine ⟨d₁, he, ⟨hl.valid, hl.mState.trans h.mState, hlength, ?_⟩⟩
  rw [hbuffer, h.pending, h.mBuffer, hlength, List.length_append, List.drop_append, List.drop_drop,
    List.drop_eq_nil_of_le (Nat.le_add_right _ _), List.nil_append, Nat.add_sub_cancel_left]

/-! ## The part for the response -/

-- The size of the copy is taken modulo `2 ^ 64`.
theorem handshakeResponse_found {d : DiffLogic n} (hv : d.Valid) {delim : Nat}
    (hfound : strstr HTTP_DELIMITER d.mBuffer = .found delim) :
    (d.mOffset < delim → d.handshakeResponse = some (d, false)) ∧
      (delim ≤ d.mOffset → d.mOffset < delim + 4 → d.handshakeResponse = none) ∧
      (delim + 4 ≤ d.mOffset → ∃ d', d.handshakeResponse = some (d', true) ∧ d'.InWork ∧
        d'.mOffset = 0) := by
  have hbuffer := hv.buffer
  have hoffset := hv.offset
  have hsize : BUFFER_SIZE = 50000 := rfl
  unfold handshakeResponse
  rw [hfound]
  refine ⟨fun hbehind ↦ if_pos hbehind, fun hle hlt ↦ ?_, fun hle ↦ ?_⟩
  · have hleft : Frame.diff d.mOffset (delim + 4) = 2 ^ 64 - (delim + 4 - d.mOffset) := by
      unfold Frame.diff Frame.wrap
      omega
    simp only
    rw [if_neg (by omega), hleft, readAt, if_neg (by omega)]
    rfl
  · have hleft : Frame.diff d.mOffset (delim + 4) = d.mOffset - (delim + 4) :=
      Frame.diff_eq hle (by omega)
    simp only
    rw [if_neg (by omega), hleft, readAt, if_pos (by omega), Option.bind_some]
    have hcount : ((d.mBuffer.drop (delim + 4)).take (d.mOffset - (delim + 4))).length ≤
        d.mOffset := by
      rw [List.length_take]
      omega
    rw [writeAt, if_pos (by omega), Option.bind_some]
    have hmessage : (ascii subscription).length + 14 < 2 ^ 64 := by decide
    rcases generateFrame_queue _ Frame.TEXT.toUInt64 0 hmessage with ⟨mOutputQueue, he⟩
    rw [he]
    refine ⟨_, rfl, ⟨⟨?_, Nat.zero_le _, hv.address⟩, rfl⟩, rfl⟩
    show List.length _ = _
    rw [List.length_append, List.length_append, List.length_drop, List.length_take]
    omega

theorem handshakeResponse_ended {d : DiffLogic n}
    (hended : strstr HTTP_DELIMITER d.mBuffer = .ended) :
    d.handshakeResponse = some (d, false) := by
  unfold handshakeResponse
  rw [hended]

theorem handshakeResponse_overrun {d : DiffLogic n}
    (hoverrun : strstr HTTP_DELIMITER d.mBuffer = .overrun) : d.handshakeResponse = none := by
  unfold handshakeResponse
  rw [hoverrun]

-- Either it waits, with nothing touched, or it goes over to frames with an empty buffer.
theorem handshakeResponse_spec {d d' : DiffLogic n} (hv : d.Valid) {upgraded : Bool}
    (h : d.handshakeResponse = some (d', upgraded)) :
    (upgraded = false ∧ d' = d) ∨ (upgraded = true ∧ d'.InWork ∧ d'.mOffset = 0) := by
  cases hstr : strstr HTTP_DELIMITER d.mBuffer with
  | overrun =>
      rw [handshakeResponse_overrun hstr] at h
      cases h
  | ended =>
      rw [handshakeResponse_ended hstr] at h
      cases h
      exact .inl ⟨rfl, rfl⟩
  | found delim =>
      have hfound := handshakeResponse_found hv hstr
      by_cases hbehind : d.mOffset < delim
      · rw [hfound.1 hbehind] at h
        cases h
        exact .inl ⟨rfl, rfl⟩
      · by_cases hinside : d.mOffset < delim + 4
        · rw [hfound.2.1 (by omega) hinside] at h
          cases h
        · rcases hfound.2.2 (by omega) with ⟨d₁, he, hinWork, hzero⟩
          rw [he] at h
          cases h
          exact .inr ⟨rfl, hinWork, hzero⟩

theorem Waiting.got {d₀ d : DiffLogic n} (hv : d₀.Valid) (hstate : d₀.mState = .handshakeResponse)
    (hzero : d₀.mOffset = 0) {received : List UInt8} (h : Waiting conv d₀ received d) :
    Got d₀.mBuffer received d := by
  induction h with
  | start => exact ⟨hv, hstate, hzero, rfl⟩
  | @read received d chunk d' _ _ hroom hstep hwaits ih =>
      rcases ih.receive hroom with ⟨d₁, hreceive, hgot⟩
      rw [readStep_eq_upgrade ih.mState, upgrade, hreceive, Option.bind_some] at hstep
      rcases Outcome.attempt_eq_returned_iff.mp hstep with ⟨⟨d₂, upgraded⟩, he, hreturned⟩
      rcases handshakeResponse_spec hgot.valid he with ⟨hno, hd₂⟩ | ⟨hyes, hinWork, hoffset⟩
      · rw [hno] at hreturned
        change Outcome.returned d₂ = .returned d' at hreturned
        rw [← Outcome.returned.inj hreturned, hd₂]
        exact hgot
      · -- the frame step leaves the empty buffer alone
        have hpending : d₂.pending <+: WireFrame.stream [] := by
          rw [DiffLogic.pending, hoffset, List.take_zero]
          exact List.prefix_refl _
        rw [hyes] at hreturned
        change d₂.frameStep conv = .returned d' at hreturned
        rcases frameStep_spec conv hinWork.valid hpending with ⟨hf, -⟩ | ⟨w, ws', -, hnil, -⟩
        · rw [hf] at hreturned
          rw [← Outcome.returned.inj hreturned, hinWork.mState] at hwaits
          cases hwaits
        · cases hnil

/-! ## What is kept -/

/-- What a read in `HANDSHAKE_RESPONSE` has to leave: all of the input while the client waits, and
what is behind the delimiter right after the transition. -/
inductive KeepsInput (response received : List UInt8) : Option (DiffLogic n × Bool) → Prop where
  | waits {d : DiffLogic n} : d.mState = .handshakeResponse → d.pending = received →
      KeepsInput response received (some (d, false))
  | goesOver {d : DiffLogic n} : d.mState = .inWork →
      received = response ++ HTTP_DELIMITER ++ d.pending →
      KeepsInput response received (some (d, true))

theorem KeepsInput.received_eq {response received : List UInt8} {d : DiffLogic n}
    (h : KeepsInput response received (some (d, true))) :
    received = response ++ HTTP_DELIMITER ++ d.pending := by
  cases h with
  | goesOver _ he => exact he

/-- The search does not stop in the bytes received or right behind them, and not behind the
buffer. -/
def Undisturbed (stale received : List UInt8) : Prop :=
  match strstr HTTP_DELIMITER (received ++ stale.drop received.length) with
  | .found delim => received.length < delim
  | .ended => True
  | .overrun => False

/-- The first delimiter is among the bytes received, and there is no NUL byte in front of it. -/
def Complete (received : List UInt8) : Prop :=
  ∃ delim, strstr HTTP_DELIMITER received = .found delim

theorem Got.self {d : DiffLogic n} (hv : d.Valid) (hstate : d.mState = .handshakeResponse) :
    Got d.mBuffer d.pending d := by
  have hlength : d.pending.length = d.mOffset := hv.length_pending
  refine ⟨hv, hstate, hlength.symm, ?_⟩
  rw [hlength, DiffLogic.pending, List.take_append_drop]

section Search

variable {stale received chunk : List UInt8} {d : DiffLogic n}

theorem upgrade_complete (hgot : Got stale received d)
    (hroom : d.mOffset + chunk.length ≤ BUFFER_SIZE) (hcomplete : Complete (received ++ chunk)) :
    ∃ d', d.upgrade chunk = some (d', true) ∧ d'.InWork ∧ d'.mOffset = 0 := by
  rcases hgot.receive hroom with ⟨d₁, hreceive, hgot₁⟩
  rcases hcomplete with ⟨delim, hfound⟩
  have hend := (occursAt_of_strstr hfound).length_le delimiter_ne_nil
  have hbuffer := strstr_found_append delimiter_ne_nil hfound
    (stale.drop (received ++ chunk).length)
  rw [← hgot₁.mBuffer] at hbuffer
  rw [← hgot₁.mOffset] at hend
  rw [upgrade, hreceive, Option.bind_some]
  exact (handshakeResponse_found hgot₁.valid hbuffer).2.2 hend

theorem upgrade_undisturbed (hgot : Got stale received d)
    (hroom : d.mOffset + chunk.length ≤ BUFFER_SIZE)
    (hundisturbed : Undisturbed stale (received ++ chunk)) :
    ∃ d', d.receive chunk = some d' ∧ d.upgrade chunk = some (d', false) ∧
      Got stale (received ++ chunk) d' := by
  rcases hgot.receive hroom with ⟨d₁, hreceive, hgot₁⟩
  unfold Undisturbed at hundisturbed
  rw [← hgot₁.mBuffer, ← hgot₁.mOffset] at hundisturbed
  refine ⟨d₁, hreceive, ?_, hgot₁⟩
  rw [upgrade, hreceive, Option.bind_some]
  cases hstr : strstr HTTP_DELIMITER d₁.mBuffer with
  | found delim =>
      rw [hstr] at hundisturbed
      exact (handshakeResponse_found hgot₁.valid hstr).1 hundisturbed
  | ended => exact handshakeResponse_ended hstr
  | overrun =>
      rw [hstr] at hundisturbed
      exact hundisturbed.elim

-- Neither complete nor undisturbed: the search or the copy leaves the buffer.
theorem upgrade_disturbed (hgot : Got stale received d)
    (hroom : d.mOffset + chunk.length ≤ BUFFER_SIZE) (hcomplete : ¬ Complete (received ++ chunk))
    (hdisturbed : ¬ Undisturbed stale (received ++ chunk)) : d.upgrade chunk = none := by
  rcases hgot.receive hroom with ⟨d₁, hreceive, hgot₁⟩
  unfold Undisturbed at hdisturbed
  rw [← hgot₁.mBuffer, ← hgot₁.mOffset] at hdisturbed
  rw [upgrade, hreceive, Option.bind_some]
  cases hstr : strstr HTTP_DELIMITER d₁.mBuffer with
  | found delim =>
      rw [hstr] at hdisturbed
      apply (handshakeResponse_found hgot₁.valid hstr).2.1 (not_lt.mp hdisturbed)
      by_contra hinside
      rw [hgot₁.mBuffer] at hstr
      rw [hgot₁.mOffset] at hinside
      exact hcomplete ⟨delim, strstr_found_of_append delimiter_ne_nil hstr (not_lt.mp hinside)⟩
  | ended =>
      rw [hstr] at hdisturbed
      exact absurd trivial hdisturbed
  | overrun => exact handshakeResponse_overrun hstr

end Search

theorem upgrade_delimiter {response rest : List UInt8} (hresponse : Head response)
    {stale received chunk : List UInt8} {d : DiffLogic n} (h : Got stale received d)
    (hroom : d.mOffset + chunk.length ≤ BUFFER_SIZE)
    (hp : received ++ chunk <+: response ++ HTTP_DELIMITER ++ rest)
    (hle : response.length + 4 ≤ (received ++ chunk).length) :
    ∃ d', d.upgrade chunk = some (d', true) ∧ d'.InWork ∧ d'.mOffset = 0 := by
  rcases h.receive hroom with ⟨d₁, hreceive, hgot⟩
  have hfound : strstr HTTP_DELIMITER d₁.mBuffer = .found response.length := by
    rw [hgot.mBuffer]
    exact hresponse.strstr hp hle
  rw [upgrade, hreceive, Option.bind_some]
  apply (handshakeResponse_found hgot.valid hfound).2.2
  rw [hgot.mOffset]
  exact hle

theorem upgrade_before {response rest : List UInt8} (hresponse : Head response)
    {stale received chunk : List UInt8} {d : DiffLogic n} (h : Got stale received d)
    (hroom : d.mOffset + chunk.length ≤ BUFFER_SIZE)
    (hp : received ++ chunk <+: response ++ HTTP_DELIMITER ++ rest)
    (hlt : (received ++ chunk).length < response.length + 4) :
    KeepsInput response (received ++ chunk) (d.upgrade chunk) ↔
      Undisturbed stale (received ++ chunk) := by
  rcases h.receive hroom with ⟨d₁, hreceive, hgot⟩
  have hwaits : KeepsInput response (received ++ chunk) (some (d₁, false)) :=
    .waits hgot.mState hgot.pending
  rw [upgrade, hreceive, Option.bind_some, Undisturbed, ← hgot.mBuffer]
  cases hstr : strstr HTTP_DELIMITER d₁.mBuffer with
  | overrun =>
      rw [handshakeResponse_overrun hstr]
      exact iff_of_false nofun id
  | ended =>
      rw [handshakeResponse_ended hstr]
      exact iff_of_true hwaits trivial
  | found delim =>
      have hfound := handshakeResponse_found hgot.valid hstr
      rw [hgot.mOffset] at hfound
      -- what is found is not in the bytes received
      have hstale : (received ++ chunk).length < delim + 4 := by
        by_contra hin
        have hat := occursAt_of_strstr hstr
        rw [hgot.mBuffer] at hat
        exact hresponse.not_occursAt hp (by omega) (by omega) hat
      by_cases hbehind : (received ++ chunk).length < delim
      · rw [hfound.1 hbehind]
        exact iff_of_true hwaits hbehind
      · rw [hfound.2.1 (by omega) hstale]
        exact iff_of_false nofun hbehind

/-- The input is kept at a read in `HANDSHAKE_RESPONSE` exactly if the delimiter ends it, or is not
there yet and the search is not disturbed by what the buffer held before. -/
theorem upgrade_keepsInput_iff {d₀ d : DiffLogic n} (hv : d₀.Valid)
    (hstate : d₀.mState = .handshakeResponse) (hzero : d₀.mOffset = 0) {response : List UInt8}
    (hresponse : Head response) {ws : List WireFrame} {received chunk : List UInt8}
    (hwaiting : Waiting conv d₀ received d) (hroom : d.mOffset + chunk.length ≤ BUFFER_SIZE)
    (hp : received ++ chunk <+: response ++ HTTP_DELIMITER ++ WireFrame.stream ws) :
    KeepsInput response (received ++ chunk) (d.upgrade chunk) ↔
      (received ++ chunk).length = response.length + 4 ∨
        (received ++ chunk).length < response.length + 4 ∧
          Undisturbed d₀.mBuffer (received ++ chunk) := by
  have hgot := hwaiting.got hv hstate hzero
  by_cases hlt : (received ++ chunk).length < response.length + 4
  · rw [upgrade_before hresponse hgot hroom hp hlt]
    apply Iff.intro
    · exact fun h ↦ .inr ⟨hlt, h⟩
    · rintro (he | h)
      · omega
      · exact h.2
  · rcases upgrade_delimiter hresponse hgot hroom hp (by omega) with ⟨d', he, hinWork, hoffset⟩
    have hpending : d'.pending = [] := by rw [DiffLogic.pending, hoffset, List.take_zero]
    rw [he]
    apply Iff.intro
    · intro h
      left
      rw [h.received_eq, hpending, List.append_nil, List.length_append]
      rfl
    · rintro (hequal | h)
      · apply KeepsInput.goesOver hinWork.mState
        rw [hpending, List.append_nil]
        apply (List.prefix_of_prefix_length_le hp (List.prefix_append _ _) _).eq_of_length
        · rw [hequal, List.length_append]
          rfl
        · rw [hequal, List.length_append]
          rfl
      · omega

/-- A client that waits for the response, over a buffer of zeros. -/
def connecting : DiffLogic 1 := { idle with mState := .handshakeResponse }

def switching : List UInt8 := ascii "HTTP/1.1 101"

theorem switching_head : Head switching := Head.of_strstr (by decide +kernel)

theorem connecting_valid : connecting.Valid :=
  ⟨idle_inWork.valid.buffer, idle_inWork.valid.offset, idle_inWork.valid.address⟩

theorem upgrade_keepsInput_iff_example :
    KeepsInput switching (switching ++ HTTP_DELIMITER)
      (connecting.upgrade (switching ++ HTTP_DELIMITER)) := by
  have hp : [] ++ (switching ++ HTTP_DELIMITER) <+:
      switching ++ HTTP_DELIMITER ++ WireFrame.stream [textFrame] := List.prefix_append _ _
  have hwaiting : Waiting noJson connecting [] connecting := .start
  have hiff := upgrade_keepsInput_iff connecting_valid rfl rfl switching_head hwaiting
    (by decide) hp
  rw [List.nil_append] at hiff
  rw [hiff]
  left
  rw [List.length_append, show HTTP_DELIMITER.length = 4 from rfl]

/-- A frame in the same read as the end of the response is lost. -/
theorem upgrade_loses_frame :
    Head switching ∧ connecting.Valid ∧ connecting.mState = .handshakeResponse ∧
      connecting.mOffset = 0 ∧
      ¬ KeepsInput switching (switching ++ HTTP_DELIMITER ++ textFrame.bytes)
        (connecting.upgrade (switching ++ HTTP_DELIMITER ++ textFrame.bytes)) := by
  have hgot : Got connecting.mBuffer [] connecting :=
    ⟨connecting_valid, rfl, rfl, (List.nil_append _).symm⟩
  have hp : [] ++ (switching ++ HTTP_DELIMITER ++ textFrame.bytes) <+:
      switching ++ HTTP_DELIMITER ++ textFrame.bytes := List.prefix_refl _
  rcases upgrade_delimiter switching_head hgot (by decide) hp (by decide) with
    ⟨d', he, -, hoffset⟩
  refine ⟨switching_head, connecting_valid, rfl, rfl, fun hkeeps ↦ ?_⟩
  rw [he] at hkeeps
  have hlength := congrArg List.length hkeeps.received_eq
  rw [DiffLogic.pending, hoffset, List.take_zero] at hlength
  exact absurd hlength (by decide)

end DiffLogic

end Tob
