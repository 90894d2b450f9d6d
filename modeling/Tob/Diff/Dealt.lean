import Tob.Diff.Behind
import Tob.Diff.Dispatch

/-!
# The frames of a call

A call of `on_read` deals with the frames that its reads complete, each with the byte behind its
payload, up to the first one at which it throws or aborts.
-/

namespace Tob

namespace DiffLogic

open WireFrame

variable {n : Nat} {conv : Conversions} {parse : UInt8 → List UInt8 → Except String (Option Json)}
  {d : DiffLogic n} {chunk : List UInt8}

/-- The byte behind the payload that a read completes. -/
def behindRead (d : DiffLogic n) (chunk : List UInt8) : UInt8 :=
  ((d.receive chunk).bind lookahead).elim 0 Prod.snd

/-- The frames of a stream that reads complete, one with each read at most, where `len` bytes of it
are in the buffer.  Behind an exception no client is left to read on: the frames that would have
followed count as frames with no bracket behind them. -/
def dealtFrom (parse : UInt8 → List UInt8 → Except String (Option Json)) (conv : Conversions) :
    Option (DiffLogic n) → Nat → List WireFrame → List (List UInt8) → List Dealt
  | client, len, w :: ws, chunk :: chunks =>
      let next := client.bind fun d ↦ (d.readStepBehind parse conv chunk).returned?
      if w.Recognised (len + chunk.length) then
        .parsed conv w (parse (client.elim 0 fun d ↦ d.behindRead chunk) w.plain) ::
          dealtFrom parse conv next (len + chunk.length - w.bytes.length) ws chunks
      else dealtFrom parse conv next (len + chunk.length) (w :: ws) chunks
  | _, _, _, _ => []

/-- The frames of a stream that the reads of a call complete. -/
def dealt (parse : UInt8 → List UInt8 → Except String (Option Json)) (conv : Conversions)
    (d : DiffLogic n) (ws : List WireFrame) (chunks : List (List UInt8)) : List Dealt :=
  dealtFrom parse conv (some d) d.mOffset ws chunks

theorem dealtFrom_nil (client : Option (DiffLogic n)) (len : Nat) (ws : List WireFrame) :
    dealtFrom parse conv client len ws [] = [] := by
  cases ws with
  | nil => rfl
  | cons w ws => rfl

theorem dealtFrom_nil_left (client : Option (DiffLogic n)) (len : Nat)
    (chunks : List (List UInt8)) : dealtFrom parse conv client len [] chunks = [] := by
  cases chunks with
  | nil => rfl
  | cons chunk chunks => rfl

theorem dealtFrom_recognised {client : Option (DiffLogic n)} {len : Nat} {w : WireFrame}
    (h : w.Recognised (len + chunk.length)) (ws : List WireFrame) (chunks : List (List UInt8)) :
    dealtFrom parse conv client len (w :: ws) (chunk :: chunks) =
      .parsed conv w (parse (client.elim 0 fun d ↦ d.behindRead chunk) w.plain) ::
        dealtFrom parse conv
          (client.bind fun d ↦ (d.readStepBehind parse conv chunk).returned?)
          (len + chunk.length - w.bytes.length) ws chunks := by
  rw [dealtFrom, if_pos h]

theorem dealtFrom_waiting {client : Option (DiffLogic n)} {len : Nat} {w : WireFrame}
    (h : ¬ w.Recognised (len + chunk.length)) (ws : List WireFrame)
    (chunks : List (List UInt8)) :
    dealtFrom parse conv client len (w :: ws) (chunk :: chunks) =
      dealtFrom parse conv
        (client.bind fun d ↦ (d.readStepBehind parse conv chunk).returned?)
        (len + chunk.length) (w :: ws) chunks := by
  rw [dealtFrom, if_neg h]

/-- The frames completed by some of the reads are the fronts of those completed in the end. -/
theorem prefix_dealtFrom_iff {client : Option (DiffLogic n)} {len : Nat} {ws : List WireFrame}
    {chunks : List (List UInt8)} {before : List Dealt} :
    before <+: dealtFrom parse conv client len ws chunks ↔
      ∃ s ≤ chunks.length, before = dealtFrom parse conv client len ws (chunks.take s) := by
  induction chunks generalizing client len ws before with
  | nil =>
      rw [dealtFrom_nil, List.prefix_nil]
      constructor
      · intro hnil
        exact ⟨0, le_refl 0, by rw [List.take_nil, dealtFrom_nil, hnil]⟩
      · intro h
        obtain ⟨s, -, hbefore⟩ := h
        rw [hbefore, List.take_nil, dealtFrom_nil]
  | cons chunk chunks ih =>
      -- no read at all, or the first one and some of the rest
      have hsplit (frames : List (List UInt8) → List Dealt) (hnone : frames [] = []) :
          (∃ s ≤ (chunk :: chunks).length, before = frames ((chunk :: chunks).take s)) ↔
            before = [] ∨ ∃ s ≤ chunks.length, before = frames (chunk :: chunks.take s) := by
        constructor
        · intro h
          obtain ⟨s, hs, hbefore⟩ := h
          cases s with
          | zero => exact .inl (hbefore.trans hnone)
          | succ s => exact .inr ⟨s, Nat.le_of_succ_le_succ hs, hbefore⟩
        · intro h
          rcases h with hnil | ⟨s, hs, hbefore⟩
          · exact ⟨0, Nat.zero_le _, hnil.trans hnone.symm⟩
          · exact ⟨s + 1, Nat.succ_le_succ hs, hbefore⟩
      rw [hsplit _ (dealtFrom_nil client len ws)]
      cases ws with
      | nil =>
          simp only [dealtFrom_nil_left, List.prefix_nil]
          exact ⟨.inl, fun h ↦ h.elim id fun ⟨_, _, hnil⟩ ↦ hnil⟩
      | cons w ws =>
          by_cases hr : w.Recognised (len + chunk.length)
          · simp only [dealtFrom_recognised hr, List.prefix_cons_iff, ih]
            apply or_congr_right
            constructor
            · intro h
              obtain ⟨t, hbefore, s, hs, ht⟩ := h
              exact ⟨s, hs, by rw [hbefore, ht]⟩
            · intro h
              obtain ⟨s, hs, hbefore⟩ := h
              exact ⟨_, hbefore, s, hs, rfl⟩
          · simp only [dealtFrom_waiting hr, ih]
            refine ⟨.inr, fun h ↦ h.elim (fun hnil ↦ ?_) id⟩
            exact ⟨0, Nat.zero_le _, by rw [List.take_zero, dealtFrom_nil, hnil]⟩

/-! ## One read -/

/-- A read that completes no frame only adds to the buffer. -/
theorem readStepBehind_waits (parse : UInt8 → List UInt8 → Except String (Option Json))
    (conv : Conversions) (h : d.InWork) (hroom : d.mOffset + chunk.length ≤ BUFFER_SIZE)
    {ws : List WireFrame} (hp : d.pending ++ chunk <+: stream ws)
    (hno : ∀ w ∈ ws.head?, ¬ w.Recognised (d.mOffset + chunk.length)) :
    ∃ d', d.readStepBehind parse conv chunk = .returned d' ∧ d'.InWork ∧
      d'.pending = d.pending ++ chunk ∧ d'.mOffset = d.mOffset + chunk.length ∧
      d'.view = d.view := by
  rcases receive_inWork h hroom with ⟨d₁, hreceive, h₁, hpending, hoffset, hstep⟩
  refine ⟨d₁, ?_, h₁, hpending, hoffset, receive_view hreceive⟩
  rw [← hoffset] at hno
  rcases head_cases h₁.valid (hpending ▸ hp) with ⟨hstays, -⟩ | ⟨w, ws', -, hws, hr, -⟩
  · have hnone : ∀ payload b, d₁.lookahead = some (payload, b) →
        parse b payload = conv.parse payload := by
      intro payload b hlook
      rw [hstays.lookahead] at hlook
      cases hlook
    rw [hstep, frameStepBehind_eq_frameStep hnone]
    exact hstays.frameStep conv
  · exact absurd hr (hno w (by rw [hws]; rfl))

/-- A read that completes a frame deals with it. -/
theorem readStepBehind_deals (parse : UInt8 → List UInt8 → Except String (Option Json))
    (conv : Conversions) (h : d.InWork) (hroom : d.mOffset + chunk.length ≤ BUFFER_SIZE)
    {w : WireFrame} {ws : List WireFrame} (hp : d.pending ++ chunk <+: stream (w :: ws))
    (hr : w.Recognised (d.mOffset + chunk.length)) :
    ∃ rest, d.pending ++ chunk = w.bytes ++ rest ∧
      (d.readStepBehind parse conv chunk).map view =
        dispatchFrame (.parsed conv w (parse (d.behindRead chunk) w.plain)) d.view ∧
      (d.readStepBehind parse conv chunk).Ensures fun d' ↦ d'.InWork ∧ d'.pending = rest := by
  rcases receive_inWork h hroom with ⟨d₁, hreceive, h₁, hpending, hoffset, hstep⟩
  rw [← hoffset] at hr
  rcases head_cases h₁.valid (hpending ▸ hp) with ⟨-, hno⟩ | ⟨w', ws', rest, hws, -, hgot, hlast⟩
  · exact absurd hr (hno w rfl)
  · cases hws
    rcases frameStepBehind_dispatch h₁.valid hgot hlast with ⟨b, hlook, hframe⟩
    have hbehind : d.behindRead chunk = b := by
      rw [behindRead, hreceive, Option.bind_some, hlook]
      rfl
    refine ⟨rest, hpending.symm.trans hgot, ?_, ?_⟩
    · rw [hstep, hbehind, ← receive_view hreceive]
      exact (hframe parse conv).1
    · rw [hstep]
      apply (hframe parse conv).2.imp
      intro d' hl
      exact ⟨⟨hl.valid, hl.mState.trans h₁.mState⟩, hl.pending⟩

/-! ## A call -/

/-- A call deals with the frames that its reads complete, one after the other. -/
theorem onReadBehind_dispatch (h : d.InWork) {ws : List WireFrame} {chunks : List (List UInt8)}
    (hfits : d.FitsBehind parse conv chunks) (hp : d.pending ++ chunks.flatten <+: stream ws) :
    (d.onReadBehind parse conv chunks).map view =
      dispatch (d.dealt parse conv ws chunks) d.view := by
  induction chunks generalizing d ws with
  | nil =>
      rw [dealt, dealtFrom_nil]
      rfl
  | cons chunk chunks ih =>
      have hroom := hfits.2.1
      rw [List.flatten_cons, ← List.append_assoc] at hp
      have hfront : d.pending ++ chunk <+: stream ws := (List.prefix_append _ _).trans hp
      rw [onReadBehind_cons hfits.1, dealt]
      cases ws with
      | nil =>
          rw [stream, List.prefix_nil] at hfront
          exact absurd (List.append_eq_nil_iff.mp hfront).2 hfits.1
      | cons w ws =>
          by_cases hr : w.Recognised (d.mOffset + chunk.length)
          · rcases readStepBehind_deals parse conv h hroom hfront hr with
              ⟨rest, hgot, hview, hspec⟩
            rw [dealtFrom_recognised hr, dispatch, Option.bind_some, Option.elim_some, ← hview]
            -- behind a frame that throws or aborts there is nothing more
            cases hstep : d.readStepBehind parse conv chunk with
            | threw what d' => rfl
            | aborted d' => rfl
            | undefined => rfl
            | returned d' =>
                rcases hspec.2 d' hstep with ⟨hwork, hleft⟩
                have hoffset : d.mOffset + chunk.length - w.bytes.length = d'.mOffset := by
                  have hsum := congrArg List.length hgot
                  rw [List.length_append, List.length_append, h.valid.length_pending, ← hleft,
                    hwork.valid.length_pending] at hsum
                  omega
                rw [hgot, stream, List.append_assoc, List.prefix_append_right_inj, ← hleft] at hp
                rw [Outcome.andThen_returned, ih hwork (hfits.2.2 d' hstep) hp, hoffset]
                rfl
          · have hno : ∀ v ∈ (w :: ws).head?, ¬ v.Recognised (d.mOffset + chunk.length) := by
              intro v hv
              cases hv
              exact hr
            rcases readStepBehind_waits parse conv h hroom hfront hno with
              ⟨d', hstep, hwork, hpending, hoffset, hview⟩
            rw [← hpending] at hp
            rw [dealtFrom_waiting hr, Option.bind_some, hstep, Outcome.andThen_returned,
              ih hwork (hfits.2.2 d' hstep) hp, ← hview, ← hoffset]
            rfl

end DiffLogic

end Tob
