import Tob.Diff.Output
import Tob.Diff.Upgrade

/-!
# The byte behind a payload

Where a payload ends with an opening bracket `parse` reads the byte behind it, which belongs to the
next frame or has been in the buffer before.  What this does to a read of `on_read`.
-/

namespace Tob

/-- `Reader::parse` on a document with a byte behind it: a closing bracket there closes a document
that is one opening bracket, and keeps the last of as many as there are levels from throwing. -/
structure Conversions.LooksBehind (conv : Conversions)
    (parse : UInt8 → List UInt8 → Except String (Option Json)) : Prop where
  other : ∀ b doc, b ≠ 93 → parse b doc = conv.parse doc
  closing : ∀ doc, parse 93 doc = conv.parse doc ∨
    (conv.parse doc = .ok none ∧ parse 93 doc = .ok (some (.array []))) ∨
    ((∃ what, conv.parse doc = .error what) ∧ parse 93 doc = .ok none)

variable {n : Nat} {conv : Conversions} {parse : UInt8 → List UInt8 → Except String (Option Json)}

/-- Bytes that are both a closing bracket or both none are the same to `parse`. -/
theorem Conversions.LooksBehind.congr (h : conv.LooksBehind parse) {payload : List UInt8}
    {b b' : UInt8} (hclose : parse 93 payload ≠ parse 0 payload → (b = 93 ↔ b' = 93)) :
    parse b payload = parse b' payload := by
  have hzero : parse 0 payload = conv.parse payload := h.other 0 payload (by decide)
  have hany (hsame : parse 93 payload = parse 0 payload) (c : UInt8) :
      parse c payload = conv.parse payload := by
    by_cases hc : c = 93
    · rw [hc, hsame, hzero]
    · exact h.other c payload hc
  by_cases hsame : parse 93 payload = parse 0 payload
  · rw [hany hsame b, hany hsame b']
  · by_cases hb : b = 93
    · rw [hb, (hclose hsame).mp hb]
    · have hb' : b' ≠ 93 := fun he ↦ hb ((hclose hsame).mpr he)
      rw [h.other b payload hb, h.other b' payload hb']

namespace DiffLogic

/-- Every read brings something and fits the room it is offered. -/
def FitsBehind (parse : UInt8 → List UInt8 → Except String (Option Json)) (conv : Conversions) :
    DiffLogic n → List (List UInt8) → Prop
  | _, [] => True
  | d, chunk :: chunks => chunk ≠ [] ∧ d.mOffset + chunk.length ≤ BUFFER_SIZE ∧
      ∀ d', d.readStepBehind parse conv chunk = .returned d' → FitsBehind parse conv d' chunks

theorem onReadBehind_cons {d : DiffLogic n} {chunk : List UInt8} (hchunk : chunk ≠ [])
    (chunks : List (List UInt8)) :
    d.onReadBehind parse conv (chunk :: chunks) =
      (d.readStepBehind parse conv chunk).andThen fun d ↦ d.onReadBehind parse conv chunks := by
  rw [onReadBehind, if_neg hchunk]

theorem FitsBehind.left {d : DiffLogic n} {chunks more : List (List UInt8)}
    (h : d.FitsBehind parse conv (chunks ++ more)) : d.FitsBehind parse conv chunks := by
  induction chunks generalizing d with
  | nil => trivial
  | cons chunk chunks ih => exact ⟨h.1, h.2.1, fun d' hd ↦ ih (h.2.2 d' hd)⟩

/-- A frame step with a payload to parse: what comes of it is up to `parse`. -/
theorem frameStepBehind_of_lookahead {d : DiffLogic n} {payload : List UInt8} {b : UInt8}
    (h : d.lookahead = some (payload, b)) :
    ∃ (d₁ : DiffLogic n) (stop : Nat), ∀ parse conv,
      d.frameStepBehind parse conv = d₁.onParsed conv (parse b payload) stop := by
  rcases Option.bind_eq_some_iff.mp h with ⟨decoded, hdecoded, hlook⟩
  by_cases hstop : decoded.stop = d.address
  · rw [if_pos hstop] at hlook
    cases hlook
  · rw [if_neg hstop] at hlook
    rcases Option.map_eq_some_iff.mp hlook with ⟨payload', hread, heq⟩
    cases heq
    rcases answerPing_queue { d with mBuffer := decoded.mem } decoded.frame with
      ⟨mOutputQueue, hping⟩
    refine ⟨{ d with mBuffer := decoded.mem, mOutputQueue }, decoded.stop, fun parse conv ↦ ?_⟩
    rw [frameStepBehind, hdecoded, Outcome.attempt_some, if_neg hstop, onFrameBehind, hping,
      Outcome.attempt_some]
    show Outcome.attempt (readAt decoded.mem _ _) _ = _
    rw [hread]
    rfl

theorem onFrameBehind_eq_onFrame {d : DiffLogic n} {frame : Frame} {stop : Nat}
    (h : ∀ payload, readAt d.mBuffer (Frame.diff frame.payload d.address)
      (Frame.diff stop frame.payload) = some payload →
      parse (d.behind stop) payload = conv.parse payload) :
    d.onFrameBehind parse conv frame stop = d.onFrame conv frame stop := by
  unfold onFrameBehind onFrame
  rcases answerPing_queue d frame with ⟨mOutputQueue, hping⟩
  rw [hping, Outcome.attempt_some, Outcome.attempt_some]
  simp only
  cases hread : readAt d.mBuffer (Frame.diff frame.payload d.address)
      (Frame.diff stop frame.payload) with
  | none => rw [Outcome.attempt, Outcome.attempt]
  | some payload =>
      have hbehind : behind { d with mOutputQueue } stop = d.behind stop := by
        unfold behind
        simp only
      rw [Outcome.attempt_some, Outcome.attempt_some, onPayload, hbehind, h payload hread]

/-- Where the byte behind does not matter, the step is the one that does not look at it. -/
theorem frameStepBehind_eq_frameStep {d : DiffLogic n}
    (h : ∀ payload b, d.lookahead = some (payload, b) → parse b payload = conv.parse payload) :
    d.frameStepBehind parse conv = d.frameStep conv := by
  unfold frameStepBehind frameStep
  cases hdecoded : Frame.deserialize .new d.address d.mBuffer d.mOffset with
  | none => rw [Outcome.attempt, Outcome.attempt]
  | some decoded =>
      rw [Outcome.attempt_some, Outcome.attempt_some]
      by_cases hstop : decoded.stop = d.address
      · rw [if_pos hstop, if_pos hstop]
      · rw [if_neg hstop, if_neg hstop]
        apply onFrameBehind_eq_onFrame
        intro payload hread
        apply h
        rw [lookahead, hdecoded, Option.bind_some, if_neg hstop, hread, Option.map_some]

/-- The read with the byte behind is the read without it, unless a closing bracket is behind a
payload that ends with an opening one. -/
theorem readStepBehind_eq_readStep {d : DiffLogic n} (hstate : d.mState ≠ .handshakeResponse)
    {chunk : List UInt8}
    (h : ∀ d₁ payload b, d.receive chunk = some d₁ → d₁.lookahead = some (payload, b) →
      parse b payload = conv.parse payload) :
    d.readStepBehind parse conv chunk = d.readStep conv chunk := by
  unfold readStepBehind readStep
  cases hreceive : d.receive chunk with
  | none => rw [Outcome.attempt, Outcome.attempt]
  | some d₁ =>
      rcases Option.map_eq_some_iff.mp hreceive with ⟨mBuffer, -, hd₁⟩
      have hstate₁ : d₁.mState ≠ .handshakeResponse := by
        rw [← hd₁]
        exact hstate
      rw [Outcome.attempt_some, Outcome.attempt_some, if_neg hstate₁, if_neg hstate₁]
      exact frameStepBehind_eq_frameStep fun payload b hlook ↦ h d₁ payload b hreceive hlook

theorem readStepBehind_eq_upgrade {d : DiffLogic n} (hstate : d.mState = .handshakeResponse)
    (chunk : List UInt8) :
    d.readStepBehind parse conv chunk =
      .attempt ((d.receive chunk).bind handshakeResponse) fun (d, upgraded) ↦
        if upgraded then d.frameStepBehind parse conv else .returned d := by
  unfold readStepBehind
  cases hreceive : d.receive chunk with
  | none => rw [Outcome.attempt, Option.bind_none, Outcome.attempt]
  | some d₁ =>
      rcases Option.map_eq_some_iff.mp hreceive with ⟨mBuffer, -, hd₁⟩
      have hstate₁ : d₁.mState = .handshakeResponse := by
        rw [← hd₁]
        exact hstate
      rw [Outcome.attempt_some, if_pos hstate₁, Option.bind_some]

theorem frameStepBehind_mState {d d' : DiffLogic n}
    (h : (d.frameStepBehind parse conv).state? = some d') : d'.mState = d.mState := by
  rcases Outcome.attempt_state?.mp h with ⟨decoded, -, hd⟩
  by_cases hstop : decoded.stop = d.address
  · rw [if_pos hstop] at hd
    cases hd
    rfl
  · rw [if_neg hstop] at hd
    rcases Outcome.attempt_state?.mp hd with ⟨d₁, hping, hd⟩
    rcases Outcome.attempt_state?.mp hd with ⟨payload, -, hd⟩
    rcases answerPing_queue { d with mBuffer := decoded.mem } decoded.frame with
      ⟨mOutputQueue, hqueue⟩
    rw [(onParsed_keeps hd).2]
    cases hqueue.symm.trans hping
    rfl

/-- An opening bracket is a document where a closing one is behind it. -/
def closedBehind (b : UInt8) (doc : List UInt8) : Except String (Option Json) :=
  .ok (if doc = [91] ∧ b = 93 then some (.array []) else none)

theorem closedBehind_looksBehind : noJson.LooksBehind closedBehind where
  other b doc hb := by
    rw [closedBehind, if_neg fun h ↦ hb h.2]
    rfl
  closing doc := by
    by_cases hdoc : doc = [91]
    · right
      left
      rw [closedBehind, if_pos ⟨hdoc, rfl⟩]
      exact ⟨rfl, rfl⟩
    · left
      rw [closedBehind, if_neg fun h ↦ hdoc h.1]
      rfl

end DiffLogic

end Tob
