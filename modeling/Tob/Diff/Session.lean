import Tob.Diff.Output
import Tob.Diff.Upgrade
import Tob.Wire.Bounds

/-!
# Sessions

Reads and writes in any order, from the start of the client.  `on_read` asks for
`HANDSHAKE_RESPONSE` only: in `HANDSHAKE` it looks for frames as it does in `IN_WORK`.  In
`HANDSHAKE_RESPONSE` it may find a delimiter that has not been received.
-/

namespace Tob

/-- The states on the way to a state. -/
def DiffState.path : DiffState → List DiffState
  | .handshake => [.handshake]
  | .handshakeResponse => [.handshake, .handshakeResponse]
  | .inWork => [.handshake, .handshakeResponse, .inWork]

namespace DiffLogic

variable {n : Nat} {conv : Conversions} {url : Url}

/-- A read up to the call of `deserialize`; the flag is false where there is none. -/
def beforeFrame (d : DiffLogic n) (chunk : List UInt8) : Option (DiffLogic n × Bool) :=
  (d.receive chunk).bind fun d ↦
    if d.mState = .handshakeResponse then d.handshakeResponse else some (d, true)

theorem readStep_eq_beforeFrame (conv : Conversions) (d : DiffLogic n) (chunk : List UInt8) :
    d.readStep conv chunk = .attempt (d.beforeFrame chunk) fun (d, looks) ↦
      if looks then d.frameStep conv else .returned d := by
  unfold readStep beforeFrame
  cases d.receive chunk with
  | none => rfl
  | some d₁ =>
      rw [Outcome.attempt_some, Option.bind_some]
      by_cases hstate : d₁.mState = .handshakeResponse
      · rw [if_pos hstate, if_pos hstate]
      · rw [if_neg hstate, if_neg hstate]
        rfl

/-- `deserialize` does not come back with the start of the buffer. -/
def Decodes (d : DiffLogic n) : Prop :=
  ¬ ∃ decoded, Frame.deserialize .new d.address d.mBuffer d.mOffset = some decoded ∧
    decoded.stop = d.address

/-- The read that takes a client over to `IN_WORK`: the response has ended, and what is put in the
queue is put there in the new state. -/
structure GoesOver (d : DiffLogic n) (chunk : List UInt8) (d' : DiffLogic n) : Prop where
  mState : d.mState = .handshakeResponse ∧ d'.mState = .inWork
  terminated : HTTP_DELIMITER <:+: d.pending ++ chunk
  mOrders : d'.mOrders = d.mOrders
  generates : ∃ d₁ : DiffLogic n, d₁.mState = .inWork ∧ d₁.mOutputQueue = d.mOutputQueue ∧
    d₁.generateFrame Frame.TEXT.toUInt64 (ascii subscription) 0 = some d'

/-- What acts on no frame. -/
structure Idles (d d' : DiffLogic n) : Prop where
  mState : d'.mState = d.mState
  mOrders : d'.mOrders = d.mOrders
  mOutputQueue : d'.mOutputQueue = d.mOutputQueue

/-- A read decodes no frame, stores no order and queues no frame before `IN_WORK`.  One that is
undefined there may do anything. -/
structure Quiet (conv : Conversions) (d : DiffLogic n) (chunk : List UInt8) : Prop where
  decodes : ∀ d₁, d.beforeFrame chunk = some (d₁, true) → d₁.Decodes → d₁.mState = .inWork
  idles : d.mState ≠ .inWork → ∃ d', (d.readStep conv chunk).state? = some d' ∧
    (Idles d d' ∨ GoesOver d chunk d')

/-- In `HANDSHAKE` no complete frame is at the head of the bytes received; in `HANDSHAKE_RESPONSE`
the search ends at a delimiter received, or is not disturbed by what the buffer holds. -/
structure Guarded (d : DiffLogic n) (chunk : List UInt8) : Prop where
  handshake : d.mState = .handshake → Frame.Incomplete d.address (d.pending ++ chunk)
  response : d.mState = .handshakeResponse →
    Complete (d.pending ++ chunk) ∨ Undisturbed d.mBuffer (d.pending ++ chunk)

/-! ## One read -/

theorem eq_handshake {state : DiffState} (hresponse : state ≠ .handshakeResponse)
    (hinWork : state ≠ .inWork) : state = .handshake := by
  cases state with
  | handshake => rfl
  | handshakeResponse => exact absurd rfl hresponse
  | inWork => exact absurd rfl hinWork

theorem receive_idles {d d' : DiffLogic n} {chunk : List UInt8} (h : d.receive chunk = some d') :
    Idles d d' := by
  rcases Option.map_eq_some_iff.mp h with ⟨mBuffer, -, hd⟩
  rw [← hd]
  exact ⟨rfl, rfl, rfl⟩

/-- A read that fits, up to the test of the state. -/
theorem receive_fits {d : DiffLogic n} (hv : d.Valid) {chunk : List UInt8}
    (hroom : d.mOffset + chunk.length ≤ BUFFER_SIZE) :
    ∃ d₁, d.receive chunk = some d₁ ∧ d₁.Valid ∧ Idles d d₁ ∧ d₁.address = d.address ∧
      d₁.mOffset = (d.pending ++ chunk).length ∧ (d.pending ++ chunk) <+: d₁.mBuffer := by
  rcases receive_leaves hv hroom with ⟨d₁, he, hl, hoffset, hbuffer⟩
  refine ⟨d₁, he, hl.valid, receive_idles he, hl.address, ?_, ?_⟩
  · rw [hoffset, List.length_append, hv.length_pending]
  · rw [hbuffer]
    exact List.prefix_append _ _

theorem beforeFrame_of_receive {d d₁ : DiffLogic n} {chunk : List UInt8}
    (h : d.receive chunk = some d₁) :
    d.beforeFrame chunk =
      if d₁.mState = .handshakeResponse then d₁.handshakeResponse else some (d₁, true) := by
  rw [beforeFrame, h, Option.bind_some]

/-- A frame is decoded exactly if a complete one is at the head. -/
theorem decodes_iff {d : DiffLogic n} (hv : d.Valid) {bytes : List UInt8}
    (hoffset : d.mOffset = bytes.length) (hbytes : bytes <+: d.mBuffer) :
    (¬ d.Decodes ↔ Frame.Incomplete d.address bytes) ∧
      (¬ d.Decodes → ∀ conv, d.frameStep conv = .returned d) := by
  rcases hbytes with ⟨beyond, hbuffer⟩
  have haddress := hv.address
  have hlength := hv.buffer
  have hsize : BUFFER_SIZE = 50000 := rfl
  have hspace : d.address + (bytes ++ beyond).length < 2 ^ 64 := by
    rw [hbuffer]
    omega
  have hstart : d.address + startSize bytes < 2 ^ 64 := by
    have hle := startSize_le bytes
    omega
  -- where `stop` is the address, `deserialize` has not touched the buffer
  have hstays : ¬ d.Decodes → ∃ frame, Frame.deserialize .new d.address d.mBuffer d.mOffset =
      some ⟨frame, d.address, d.mBuffer⟩ := by
    intro hnot
    rcases not_not.mp hnot with ⟨decoded, he, hstop⟩
    rw [← hbuffer, hoffset] at he
    have hmem := Frame.deserialize_mem_of_stop hspace hstart he hstop
    refine ⟨decoded.frame, ?_⟩
    rw [← hbuffer, hoffset, he, ← hmem, ← hstop]
  have hiff := Frame.deserialize_stays_iff .new hspace hstart
  rw [hbuffer, ← hoffset] at hiff
  refine ⟨?_, ?_⟩
  · rw [← hiff]
    apply Iff.intro hstays
    rintro ⟨frame, he⟩
    exact not_not.mpr ⟨_, he, rfl⟩
  · intro hnot conv
    rcases hstays hnot with ⟨frame, he⟩
    exact Stays.frameStep ⟨frame, he⟩ conv

theorem generateFrame_keeps {d d' : DiffLogic n} {type : UInt64} {message : List UInt8}
    {maskKey : UInt32} (h : d.generateFrame type message maskKey = some d') :
    d'.mState = d.mState ∧ d'.mOrders = d.mOrders := by
  unfold generateFrame at h
  rcases Option.map_eq_some_iff.mp h with ⟨serialized, -, hd⟩
  rw [← hd]
  exact ⟨rfl, rfl⟩

-- With nothing in the buffer there is no frame.
theorem frameStep_empty {d : DiffLogic n} (hzero : d.mOffset = 0) (conv : Conversions) :
    d.frameStep conv = .returned d := by
  have he : Frame.deserialize .new d.address d.mBuffer d.mOffset =
      some ⟨.new, d.address, d.mBuffer⟩ := by
    rw [hzero, Frame.deserialize, if_pos (by decide)]
  exact Stays.frameStep ⟨_, he⟩ conv

/-- `HANDSHAKE_RESPONSE`: the client waits, or it goes over with an empty buffer. -/
theorem handshakeResponse_goesOver {d d₁ d₂ : DiffLogic n} {chunk : List UInt8}
    (hv : d₁.Valid) (hstate : d.mState = .handshakeResponse) (hidles : Idles d d₁)
    (hoffset : d₁.mOffset = (d.pending ++ chunk).length)
    (hbytes : d.pending ++ chunk <+: d₁.mBuffer)
    {upgraded : Bool} (h : d₁.handshakeResponse = some (d₂, upgraded)) :
    (upgraded = false ∧ d₂ = d₁) ∨
      (upgraded = true ∧ GoesOver d chunk d₂ ∧ d₂.mOffset = 0) := by
  rcases handshakeResponse_spec hv h with hwaits | ⟨hyes, hinWork, hzero⟩
  · exact .inl hwaits
  · -- it goes over: the subscription is the one frame that is queued
    rcases handshakeResponse_cases h with ⟨hno, -⟩ | ⟨-, d₃, hqueue, horders, hstate₃, hgenerate⟩
    · rw [hyes] at hno
      cases hno
    · refine .inr ⟨hyes, ⟨⟨hstate, hinWork.mState⟩, ?_, ?_, d₃, hstate₃, ?_, hgenerate⟩, hzero⟩
      · -- what is found ends in the bytes received
        cases hstr : strstr HTTP_DELIMITER d₁.mBuffer with
        | overrun =>
            rw [handshakeResponse_overrun hstr] at h
            cases h
        | ended =>
            rw [handshakeResponse_ended hstr, hyes] at h
            cases h
        | found delim =>
            have hfound := handshakeResponse_found hv hstr
            by_cases hbehind : d₁.mOffset < delim
            · rw [hfound.1 hbehind, hyes] at h
              cases h
            · by_cases hinside : d₁.mOffset < delim + 4
              · rw [hfound.2.1 (by omega) hinside] at h
                cases h
              · have hat := occursAt_of_strstr hstr
                have hpart : HTTP_DELIMITER <+: (d.pending ++ chunk).drop delim := by
                  rcases hbytes with ⟨beyond, hbuffer⟩
                  rw [OccursAt, ← hbuffer, List.drop_append_of_le_length (by omega)] at hat
                  apply List.prefix_of_prefix_length_le hat (List.prefix_append _ _)
                  rw [List.length_drop, show HTTP_DELIMITER.length = 4 from rfl]
                  omega
                exact hpart.isInfix.trans (List.drop_suffix _ _).isInfix
      · rw [(generateFrame_keeps hgenerate).2, horders, hidles.mOrders]
      · rw [hqueue, hidles.mOutputQueue]

/-- What a read leaves before `IN_WORK`, if it does not decode a frame in `HANDSHAKE`. -/
theorem readStep_early {d : DiffLogic n} (hv : d.Valid) (hstate : d.mState ≠ .inWork)
    {chunk : List UInt8} (hroom : d.mOffset + chunk.length ≤ BUFFER_SIZE)
    (hguarded : Guarded d chunk) {d' : DiffLogic n}
    (h : (d.readStep conv chunk).state? = some d') :
    (d'.Valid ∧ Idles d d') ∨ GoesOver d chunk d' := by
  rcases receive_fits hv hroom with ⟨d₁, he, hv₁, hidles, haddress, hoffset, hbytes⟩
  rw [readStep_eq_beforeFrame, beforeFrame_of_receive he, hidles.mState] at h
  -- only `HANDSHAKE_RESPONSE` keeps the bytes from `deserialize`
  by_cases hresponse : d.mState = .handshakeResponse
  · rw [if_pos hresponse] at h
    rcases Outcome.attempt_state?.mp h with ⟨⟨d₂, upgraded⟩, he₂, hd⟩
    rcases handshakeResponse_goesOver hv₁ hresponse hidles hoffset hbytes he₂ with
      ⟨hno, hsame⟩ | ⟨hyes, hover, hzero⟩
    · rw [hno] at hd
      cases hd
      rw [hsame]
      exact .inl ⟨hv₁, hidles⟩
    · rw [hyes] at hd
      simp only [if_true] at hd
      rw [frameStep_empty hzero] at hd
      cases hd
      exact .inr hover
  · have hhandshake := eq_handshake hresponse hstate
    have hdecodes := decodes_iff hv₁ hoffset hbytes
    have hincomplete : Frame.Incomplete d₁.address (d.pending ++ chunk) := by
      rw [haddress]
      exact hguarded.handshake hhandshake
    rw [if_neg hresponse, Outcome.attempt_some] at h
    simp only [if_true] at h
    rw [hdecodes.2 (hdecodes.1.mpr hincomplete)] at h
    cases h
    exact .inl ⟨hv₁, hidles⟩

/-- A read in `HANDSHAKE_RESPONSE` is defined exactly if the search ends at a delimiter received, or
is not disturbed. -/
theorem readStep_response_iff {d : DiffLogic n} (hv : d.Valid)
    (hstate : d.mState = .handshakeResponse) {chunk : List UInt8}
    (hroom : d.mOffset + chunk.length ≤ BUFFER_SIZE) :
    (∃ d', (d.readStep conv chunk).state? = some d') ↔
      Complete (d.pending ++ chunk) ∨ Undisturbed d.mBuffer (d.pending ++ chunk) := by
  have hgot := Got.self hv hstate
  rw [readStep_eq_upgrade hstate]
  by_cases hcomplete : Complete (d.pending ++ chunk)
  · refine iff_of_true ?_ (.inl hcomplete)
    rcases upgrade_complete hgot hroom hcomplete with ⟨d', hupgrade, -, hzero⟩
    refine ⟨d', ?_⟩
    rw [hupgrade, Outcome.attempt_some]
    simp only [if_true]
    rw [frameStep_empty hzero]
    rfl
  · by_cases hundisturbed : Undisturbed d.mBuffer (d.pending ++ chunk)
    · refine iff_of_true ?_ (.inr hundisturbed)
      rcases upgrade_undisturbed hgot hroom hundisturbed with ⟨d', -, hupgrade, -⟩
      refine ⟨d', ?_⟩
      rw [hupgrade]
      rfl
    · refine iff_of_false ?_ (not_or.mpr ⟨hcomplete, hundisturbed⟩)
      rintro ⟨d', hd⟩
      rw [upgrade_disturbed hgot hroom hcomplete hundisturbed] at hd
      cases hd

/-- A read in `HANDSHAKE` that finds no complete frame is defined. -/
theorem readStep_handshake {d : DiffLogic n} (hv : d.Valid) (hstate : d.mState = .handshake)
    {chunk : List UInt8} (hroom : d.mOffset + chunk.length ≤ BUFFER_SIZE)
    (hincomplete : Frame.Incomplete d.address (d.pending ++ chunk)) :
    ∃ d', (d.readStep conv chunk).state? = some d' := by
  rcases receive_fits hv hroom with ⟨d₁, he, hv₁, hidles, haddress, hoffset, hbytes⟩
  have hdecodes := decodes_iff hv₁ hoffset hbytes
  rw [haddress] at hdecodes
  refine ⟨d₁, ?_⟩
  rw [readStep_eq_beforeFrame, beforeFrame_of_receive he, hidles.mState, hstate,
    if_neg (by decide), Outcome.attempt_some]
  simp only [if_true]
  rw [hdecodes.2 (hdecodes.1.mpr hincomplete)]
  rfl

/-- A read is quiet exactly if it finds no complete frame in `HANDSHAKE`, and no delimiter in
`HANDSHAKE_RESPONSE` that has not been received. -/
theorem quiet_iff {d : DiffLogic n} (hv : d.mState ≠ .inWork → d.Valid) {chunk : List UInt8}
    (hroom : d.mState ≠ .inWork → d.mOffset + chunk.length ≤ BUFFER_SIZE) :
    Quiet conv d chunk ↔ Guarded d chunk := by
  by_cases hinWork : d.mState = .inWork
  · refine iff_of_true ⟨?_, fun hnot ↦ absurd hinWork hnot⟩ ?_
    · intro d₁ h _
      rcases Option.bind_eq_some_iff.mp h with ⟨d₂, hreceive, hbefore⟩
      have hidles := receive_idles hreceive
      rw [hidles.mState, hinWork, if_neg (by decide)] at hbefore
      cases hbefore
      rw [hidles.mState, hinWork]
    · constructor
      · intro hhandshake
        rw [hinWork] at hhandshake
        cases hhandshake
      · intro hresponse
        rw [hinWork] at hresponse
        cases hresponse
  · have hvalid := hv hinWork
    rcases receive_fits hvalid (hroom hinWork) with
      ⟨d₁, he, hv₁, hidles, haddress, hoffset, hbytes⟩
    have hbefore := beforeFrame_of_receive he
    have hdecodes := decodes_iff hv₁ hoffset hbytes
    rw [haddress] at hdecodes
    apply Iff.intro
    · intro hquiet
      constructor
      · -- a frame decoded in `HANDSHAKE` is one before `IN_WORK`
        intro hhandshake
        rw [hidles.mState, hhandshake, if_neg (by decide)] at hbefore
        apply hdecodes.1.mp
        intro hdecode
        have hlate := hquiet.decodes d₁ hbefore hdecode
        rw [hidles.mState, hhandshake] at hlate
        cases hlate
      · intro hresponse
        rcases hquiet.idles hinWork with ⟨d', hd, -⟩
        exact (readStep_response_iff hvalid hresponse (hroom hinWork)).mp ⟨d', hd⟩
    · intro hguarded
      apply Quiet.mk
      · intro d₂ hlooks hdecode
        by_cases hresponse : d.mState = .handshakeResponse
        · rw [hbefore, hidles.mState, if_pos hresponse] at hlooks
          rcases handshakeResponse_goesOver hv₁ hresponse hidles hoffset hbytes hlooks with
            ⟨hno, -⟩ | ⟨-, hover, -⟩
          · cases hno
          · exact hover.mState.2
        · have hhandshake := eq_handshake hresponse hinWork
          rw [hbefore, hidles.mState, if_neg hresponse] at hlooks
          cases hlooks
          exact absurd hdecode (hdecodes.1.mpr (hguarded.handshake hhandshake))
      · intro _
        have hdefined : ∃ d', (d.readStep conv chunk).state? = some d' := by
          by_cases hresponse : d.mState = .handshakeResponse
          · exact (readStep_response_iff hvalid hresponse (hroom hinWork)).mpr
              (hguarded.response hresponse)
          · have hhandshake := eq_handshake hresponse hinWork
            exact readStep_handshake hvalid hhandshake (hroom hinWork)
              (hguarded.handshake hhandshake)
        rcases hdefined with ⟨d', hd⟩
        refine ⟨d', hd, ?_⟩
        rcases readStep_early hvalid hinWork (hroom hinWork) hguarded hd with ⟨-, hidles'⟩ | hover
        · exact .inl hidles'
        · exact .inr hover

/-! ## Runs -/

/-- A client as it is constructed: with an uninitialised buffer and an empty queue. -/
structure Fresh (d : DiffLogic n) : Prop where
  valid : d.Valid
  mState : d.mState = .handshake
  mOutputQueue : d.mOutputQueue = []

/-- The states entered so far. -/
def visit (states : List DiffState) (state : DiffState) : List DiffState :=
  if states.getLast? = some state then states else states ++ [state]

/-- What the poller delivers, with the reads so far and the states entered, and the client unless
the last read was undefined.  A read is bounded by the room the client passes to the socket; the
client goes on after an exception. -/
inductive Session (conv : Conversions) (url : Url) (d₀ : DiffLogic n) :
    List (DiffLogic n × List UInt8) → List DiffState → Option (DiffLogic n) → Prop where
  | start : Session conv url d₀ [] [d₀.mState] (some d₀)
  | read {reads states d chunk d'} : Session conv url d₀ reads states (some d) → chunk ≠ [] →
      chunk.length ≤ Frame.diff BUFFER_SIZE d.mOffset →
      (d.readStep conv chunk).state? = some d' →
      Session conv url d₀ (reads ++ [(d, chunk)]) (visit states d'.mState) (some d')
  | undefinedRead {reads states d chunk} : Session conv url d₀ reads states (some d) →
      chunk ≠ [] → chunk.length ≤ Frame.diff BUFFER_SIZE d.mOffset →
      (d.readStep conv chunk).state? = none →
      Session conv url d₀ (reads ++ [(d, chunk)]) states none
  | write {reads states d limits d' accepted} : Session conv url d₀ reads states (some d) →
      d.onWrite url limits = some (d', accepted) →
      Session conv url d₀ reads (visit states d'.mState) (some d')

/-- The next state on the way. -/
inductive Follows : DiffState → DiffState → Prop where
  | stays {state} : Follows state state
  | written : Follows .handshake .handshakeResponse
  | terminated : Follows .handshakeResponse .inWork

theorem Follows.visit_path {state state' : DiffState} (h : Follows state state') :
    visit state.path state' = state'.path := by
  cases h with
  | stays => cases state <;> rfl
  | written => rfl
  | terminated => rfl

theorem Follows.of_inWork {state : DiffState} (h : Follows .inWork state) : state = .inWork := by
  cases h
  rfl

theorem frameStep_mState {d d' : DiffLogic n} (h : (d.frameStep conv).state? = some d') :
    d'.mState = d.mState := by
  rcases Outcome.attempt_state?.mp h with ⟨decoded, -, hd⟩
  by_cases hstop : decoded.stop = d.address
  · rw [if_pos hstop] at hd
    cases hd
    rfl
  · rw [if_neg hstop] at hd
    rcases Outcome.attempt_state?.mp hd with ⟨d₁, hping, hd⟩
    rcases Outcome.attempt_state?.mp hd with ⟨payload, -, hd⟩
    rw [(onPayload_keeps hd).2]
    rcases answerPing_cases hping with hno | hpong
    · rw [hno]
    · exact (generateFrame_keeps hpong).1

theorem readStep_follows {d d' : DiffLogic n} {chunk : List UInt8}
    (h : (d.readStep conv chunk).state? = some d') : Follows d.mState d'.mState := by
  rw [readStep_eq_beforeFrame] at h
  rcases Outcome.attempt_state?.mp h with ⟨⟨d₂, looks⟩, hbefore, hd⟩
  rcases Option.bind_eq_some_iff.mp hbefore with ⟨d₁, hreceive, hbefore⟩
  have hstate : d'.mState = d₂.mState := by
    cases looks with
    | false => cases hd; rfl
    | true => exact frameStep_mState hd
  have hsame := (receive_idles hreceive).mState
  rw [hstate, ← hsame]
  by_cases hresponse : d₁.mState = .handshakeResponse
  · rw [if_pos hresponse] at hbefore
    rcases handshakeResponse_cases hbefore with ⟨-, hd₂⟩ | ⟨-, d₃, -, -, hinWork, hgenerate⟩
    · rw [hd₂]
      exact .stays
    · rw [hresponse, (generateFrame_keeps hgenerate).1, hinWork]
      exact .terminated
  · rw [if_neg hresponse] at hbefore
    cases hbefore
    exact .stays

theorem onWrite_follows {d d' : DiffLogic n} {limits : List Nat} {accepted : List (List UInt8)}
    (h : d.onWrite url limits = some (d', accepted)) : Follows d.mState d'.mState := by
  unfold onWrite at h
  by_cases hhandshake : d.mState = .handshake
  · rw [if_pos hhandshake] at h
    cases h
    rw [hhandshake]
    exact .written
  · rw [if_neg hhandshake] at h
    rcases Option.map_eq_some_iff.mp h with ⟨⟨queue, writed⟩, -, hd⟩
    cases hd
    exact .stays

/-- The states are entered in their order, each by its own callback. -/
theorem Session.states_eq {d₀ : DiffLogic n} (hfresh : Fresh d₀)
    {reads : List (DiffLogic n × List UInt8)} {states : List DiffState}
    {last : Option (DiffLogic n)} (h : Session conv url d₀ reads states last) :
    ∀ d ∈ last, states = d.mState.path := by
  induction h with
  | start =>
      rintro d ⟨⟩
      rw [hfresh.mState]
      rfl
  | read _ _ _ hd ih =>
      rintro d ⟨⟩
      rw [ih _ rfl]
      exact (readStep_follows hd).visit_path
  | undefinedRead => exact fun d hd ↦ nomatch hd
  | write _ hd ih =>
      rintro d ⟨⟩
      rw [ih _ rfl]
      exact (onWrite_follows hd).visit_path

/-- What holds before `IN_WORK` as long as no frame has been decoded in `HANDSHAKE`. -/
structure Early (d₀ d : DiffLogic n) : Prop where
  valid : d.Valid
  mOrders : d.mOrders = d₀.mOrders
  mOutputQueue : d.mOutputQueue = []

theorem Early.fits {d₀ d : DiffLogic n} (h : Early d₀ d) {chunk : List UInt8}
    (hroom : chunk.length ≤ Frame.diff BUFFER_SIZE d.mOffset) :
    d.mOffset + chunk.length ≤ BUFFER_SIZE := by
  have hle := h.valid.offset
  have hsize : BUFFER_SIZE = 50000 := rfl
  rw [Frame.diff_eq hle (by omega)] at hroom
  omega

theorem Early.read {d₀ d d' : DiffLogic n} {chunk : List UInt8} (h : Early d₀ d)
    (hstate : d.mState ≠ .inWork) (hroom : chunk.length ≤ Frame.diff BUFFER_SIZE d.mOffset)
    (hguarded : Guarded d chunk) (hd : (d.readStep conv chunk).state? = some d')
    (hstate' : d'.mState ≠ .inWork) : Early d₀ d' := by
  rcases readStep_early h.valid hstate (h.fits hroom) hguarded hd with ⟨hv, hidles⟩ | hover
  · exact ⟨hv, hidles.mOrders.trans h.mOrders, hidles.mOutputQueue.trans h.mOutputQueue⟩
  · exact absurd hover.mState.2 hstate'

theorem Early.write {d₀ d d' : DiffLogic n} {limits : List Nat} {accepted : List (List UInt8)}
    (h : Early d₀ d) (hd : d.onWrite url limits = some (d', accepted)) : Early d₀ d' := by
  unfold onWrite at hd
  by_cases hhandshake : d.mState = .handshake
  · rw [if_pos hhandshake] at hd
    cases hd
    exact ⟨⟨h.valid.buffer, h.valid.offset, h.valid.address⟩, h.mOrders, h.mOutputQueue⟩
  · -- there is nothing in the queue to be written
    have hnone : writeLoop limits [] = some ([], []) := by
      cases limits <;> rfl
    rw [if_neg hhandshake, h.mOutputQueue, hnone] at hd
    cases hd
    exact ⟨⟨h.valid.buffer, h.valid.offset, h.valid.address⟩, h.mOrders, rfl⟩

theorem Session.early {d₀ : DiffLogic n} (hfresh : Fresh d₀)
    {reads : List (DiffLogic n × List UInt8)} {states : List DiffState}
    {last : Option (DiffLogic n)} (h : Session conv url d₀ reads states last)
    (hguarded : ∀ r ∈ reads, Guarded r.1 r.2) :
    ∀ d ∈ last, d.mState ≠ .inWork → Early d₀ d := by
  induction h with
  | start =>
      rintro d ⟨⟩ -
      exact ⟨hfresh.valid, rfl, hfresh.mOutputQueue⟩
  | @read reads states d chunk d' _ _ hroom hd ih =>
      rintro d'' ⟨⟩ hstate
      rw [List.forall_mem_append, List.forall_mem_singleton] at hguarded
      have hbefore : d.mState ≠ .inWork := by
        intro hinWork
        have hfollows := readStep_follows hd
        rw [hinWork] at hfollows
        exact hstate hfollows.of_inWork
      exact (ih hguarded.1 d rfl hbefore).read hbefore hroom hguarded.2 hd hstate
  | undefinedRead => exact fun d hd ↦ nomatch hd
  | @write reads states d limits d' accepted _ hd ih =>
      rintro d'' ⟨⟩ hstate
      have hbefore : d.mState ≠ .inWork := by
        intro hinWork
        have hfollows := onWrite_follows hd
        rw [hinWork] at hfollows
        exact hstate hfollows.of_inWork
      exact (ih hguarded d rfl hbefore).write hd

/-- The next read is quiet exactly if it is guarded, where all reads so far have been. -/
theorem Session.quiet_iff {d₀ d : DiffLogic n} (hfresh : Fresh d₀)
    {reads : List (DiffLogic n × List UInt8)} {states : List DiffState}
    (h : Session conv url d₀ reads states (some d)) (hguarded : ∀ r ∈ reads, Guarded r.1 r.2)
    {chunk : List UInt8} (hroom : chunk.length ≤ Frame.diff BUFFER_SIZE d.mOffset) :
    Quiet conv d chunk ↔ Guarded d chunk := by
  have hearly := h.early hfresh hguarded d rfl
  apply DiffLogic.quiet_iff
  · exact fun hstate ↦ (hearly hstate).valid
  · exact fun hstate ↦ (hearly hstate).fits hroom

/-- The client acts on frames after the upgrade only, exactly if no read in `HANDSHAKE` finds a
complete one and no read in `HANDSHAKE_RESPONSE` finds a delimiter that has not been received. -/
theorem acts_after_upgrade_iff {d₀ : DiffLogic n} (hfresh : Fresh d₀)
    {reads : List (DiffLogic n × List UInt8)} {states : List DiffState}
    {last : Option (DiffLogic n)} (h : Session conv url d₀ reads states last) :
    (∀ d ∈ last, states = d.mState.path) ∧
      ((∀ r ∈ reads, Quiet conv r.1 r.2) ↔ ∀ r ∈ reads, Guarded r.1 r.2) ∧
      ((∀ r ∈ reads, Guarded r.1 r.2) → ∀ d ∈ last, d.mState ≠ .inWork →
        d.mOrders = d₀.mOrders ∧ d.mOutputQueue = []) := by
  refine ⟨h.states_eq hfresh, ?_, ?_⟩
  · induction h with
    | start =>
        have hnone {P : DiffLogic n × List UInt8 → Prop} : ∀ r ∈ [], P r :=
          fun r hr ↦ absurd hr List.not_mem_nil
        exact iff_of_true hnone hnone
    | read hbefore _ hroom _ ih =>
        rw [List.forall_mem_append, List.forall_mem_append, List.forall_mem_singleton,
          List.forall_mem_singleton, ih]
        exact and_congr_right fun hguarded ↦ hbefore.quiet_iff hfresh hguarded hroom
    | undefinedRead hbefore _ hroom _ ih =>
        rw [List.forall_mem_append, List.forall_mem_append, List.forall_mem_singleton,
          List.forall_mem_singleton, ih]
        exact and_congr_right fun hguarded ↦ hbefore.quiet_iff hfresh hguarded hroom
    | write _ _ ih => exact ih
  · intro hguarded d hd hstate
    have hearly := h.early hfresh hguarded d hd hstate
    exact ⟨hearly.mOrders, hearly.mOutputQueue⟩

/-- A client at its start, over a buffer of zeros. -/
def starting : DiffLogic 1 := { idle with mState := .handshake }

theorem starting_fresh : Fresh starting :=
  ⟨⟨idle_inWork.valid.buffer, idle_inWork.valid.offset, idle_inWork.valid.address⟩, rfl, rfl⟩

theorem acts_after_upgrade_iff_example :
    ∃ (reads : List (DiffLogic 1 × List UInt8)) (d : DiffLogic 1),
      Session noJson ⟨"/", "host"⟩ starting reads
        [.handshake, .handshakeResponse, .inWork] (some d) ∧
      ∀ r ∈ reads, Quiet noJson r.1 r.2 := by
  have hwrite : starting.onWrite ⟨"/", "host"⟩ [] = some (connecting, [[]]) := rfl
  have hgot : Got connecting.mBuffer [] connecting :=
    ⟨connecting_valid, rfl, rfl, (List.nil_append _).symm⟩
  have hp : [] ++ (switching ++ HTTP_DELIMITER) <+: switching ++ HTTP_DELIMITER ++ [] :=
    List.prefix_append _ _
  rcases upgrade_delimiter switching_head hgot (by decide) hp (by decide) with
    ⟨d, hupgrade, hinWork, hzero⟩
  have hread : connecting.readStep noJson (switching ++ HTTP_DELIMITER) = .returned d := by
    rw [readStep_eq_upgrade rfl, hupgrade, Outcome.attempt_some]
    exact frameStep_empty hzero noJson
  have hsession : Session noJson ⟨"/", "host"⟩ starting
      [(connecting, switching ++ HTTP_DELIMITER)] (visit [.handshake, .handshakeResponse]
        d.mState) (some d) :=
    (Session.start.write hwrite).read (List.append_ne_nil_of_right_ne_nil _ delimiter_ne_nil)
      (by decide +kernel) (by rw [hread]; rfl)
  rw [hinWork.mState] at hsession
  have hguarded : ∀ r ∈ [(connecting, switching ++ HTTP_DELIMITER)], Guarded r.1 r.2 := by
    rw [List.forall_mem_singleton]
    constructor
    · intro hhandshake
      cases hhandshake
    · intro _
      left
      exact ⟨12, by decide +kernel⟩
  exact ⟨_, d, hsession, (acts_after_upgrade_iff starting_fresh hsession).2.1.mpr hguarded⟩

/-- A ping with one byte of payload. -/
def pingFrame : WireFrame := { textFrame with first := 0x89 }

/-- A ping that comes before the request is written is answered at once. -/
theorem ping_answered_in_handshake :
    Fresh starting ∧ ∃ d' : DiffLogic 1,
      Session noJson ⟨"/", "host"⟩ starting [(starting, pingFrame.bytes)] [.handshake] (some d') ∧
      d'.mState = .handshake ∧ d'.mOutputQueue = [⟨[0x8a, 0x00], 2, 0⟩] ∧
      ¬ Quiet noJson starting pingFrame.bytes := by
  have hroom : 0 + pingFrame.bytes.length ≤ BUFFER_SIZE := by decide
  rcases receive_leaves starting_fresh.valid hroom with ⟨d₁, hreceive, hl, -, -⟩
  have hidles := receive_idles hreceive
  have hpending : d₁.pending = pingFrame.bytes ++ [] := by
    rw [hl.pending, List.append_nil]
    rfl
  have hbefore : starting.beforeFrame pingFrame.bytes = some (d₁, true) := by
    rw [beforeFrame_of_receive hreceive, hidles.mState]
    rfl
  rcases frameStep_eq_onPayload noJson hl.valid hpending (by decide) with
    ⟨d₂, front, hholds, hstate, -, ⟨mBuffer, hping⟩, hframe⟩
  rcases hholds.attempt_takeFrame with ⟨d', htake, -⟩
  have hread : starting.readStep noJson pingFrame.bytes = .returned d' := by
    rw [readStep_eq_beforeFrame, hbefore, Outcome.attempt_some]
    exact hframe.trans htake
  have hqueue : d'.mOutputQueue = d₂.mOutputQueue ∧ d'.mState = d₂.mState := by
    rcases Outcome.attempt_eq_returned_iff.mp htake with ⟨d₃, hd₃, hsame⟩
    rw [← Outcome.returned.inj hsame]
    exact takeFrame_keeps hd₃
  have hpong : Frame.serialize (generated Frame.PONG.toUInt64 0) [] =
      some (generated Frame.PONG.toUInt64 0, [0x8a, 0x00]) := by decide
  rw [answerPing, if_pos (by rfl), generateFrame_eq _ hpong, Option.some_inj] at hping
  have hanswered : d'.mOutputQueue = [⟨[0x8a, 0x00], 2, 0⟩] := by
    rw [hqueue.1, ← hping]
    show d₁.mOutputQueue ++ _ = _
    rw [hidles.mOutputQueue]
    rfl
  have hhandshake : d'.mState = .handshake := by
    rw [hqueue.2, hstate, hidles.mState]
    rfl
  have hsession : Session noJson ⟨"/", "host"⟩ starting ([] ++ [(starting, pingFrame.bytes)])
      (visit [.handshake] d'.mState) (some d') :=
    Session.start.read (List.ne_nil_of_length_pos (by decide)) (by decide +kernel)
      (by rw [hread]; rfl)
  rw [hhandshake] at hsession
  refine ⟨starting_fresh, d', hsession, hhandshake, hanswered, ?_⟩
  intro hquiet
  rcases hquiet.idles (by decide) with ⟨d'', hd, hidle | hover⟩
  · rw [hread] at hd
    cases hd
    rw [hidle.mOutputQueue] at hanswered
    cases hanswered
  · cases hover.mState.1

end DiffLogic

end Tob
