import Tob.Diff.Alike
import Tob.Diff.Session

/-!
# Detection of the upgrade response

Two clients that differ in what their buffers held before anything was received: whether they find
the end of the response at the same read and do the same from there on.  Behind the transition they
can differ in the byte behind a payload only.
-/

namespace Tob

namespace DiffLogic

variable {n : Nat} {conv : Conversions} {parse : UInt8 → List UInt8 → Except String (Option Json)}

/-- A read in `HANDSHAKE_RESPONSE` copies nothing from outside of the buffer, and it goes over only
when the four bytes of a delimiter are in `m_buffer[0..m_offset)`. -/
def DetectsAt (d : DiffLogic n) (chunk : List UInt8) : Prop :=
  d.mState = .handshakeResponse → ∃ d' upgraded, d.upgrade chunk = some (d', upgraded) ∧
    (upgraded = true → ∃ i, i + 4 ≤ (d.pending ++ chunk).length ∧
      OccursAt HTTP_DELIMITER (d.pending ++ chunk) i)

/-- Every read does. -/
def Detects (parse : UInt8 → List UInt8 → Except String (Option Json)) (conv : Conversions) :
    DiffLogic n → List (List UInt8) → Prop
  | _, [] => True
  | d, chunk :: chunks => d.DetectsAt chunk ∧
      ∀ d', d.readStepBehind parse conv chunk = .returned d' → Detects parse conv d' chunks

/-- What the buffer held does not disturb the search, up to the read that completes the first
delimiter. -/
def Clean (stale : List UInt8) : List UInt8 → List (List UInt8) → Prop
  | _, [] => True
  | received, chunk :: chunks => Complete (received ++ chunk) ∨
      Undisturbed stale (received ++ chunk) ∧ Clean stale (received ++ chunk) chunks

/-- A read in `IN_WORK` completes no frame whose payload ends with an opening bracket that `parse`
finds closed behind the payload in the one buffer and not in the other. -/
def ClosesAlike (parse : UInt8 → List UInt8 → Except String (Option Json)) (d d' : DiffLogic n)
    (chunk : List UInt8) : Prop :=
  d.mState = .inWork → ∀ payload b b', (d.receive chunk).bind lookahead = some (payload, b) →
    (d'.receive chunk).bind lookahead = some (payload, b') →
    parse 93 payload ≠ parse 0 payload → (b = 93 ↔ b' = 93)

/-- No read does. -/
def SameBehind (parse : UInt8 → List UInt8 → Except String (Option Json)) (conv : Conversions) :
    DiffLogic n → DiffLogic n → List (List UInt8) → Prop
  | _, _, [] => True
  | d, d', chunk :: chunks => ClosesAlike parse d d' chunk ∧
      ∀ d₁ d₁', d.readStepBehind parse conv chunk = .returned d₁ →
        d'.readStepBehind parse conv chunk = .returned d₁' → SameBehind parse conv d₁ d₁' chunks

/-! ## One client -/

variable {stale received chunk : List UInt8} {d : DiffLogic n}

theorem detectsAt_iff (hgot : Got stale received d)
    (hroom : d.mOffset + chunk.length ≤ BUFFER_SIZE) :
    d.DetectsAt chunk ↔ Complete (received ++ chunk) ∨ Undisturbed stale (received ++ chunk) := by
  by_cases hcomplete : Complete (received ++ chunk)
  · refine iff_of_true (fun _ ↦ ?_) (.inl hcomplete)
    rcases upgrade_complete hgot hroom hcomplete with ⟨d', hupgrade, -, -⟩
    rcases hcomplete with ⟨delim, hfound⟩
    have hat := occursAt_of_strstr hfound
    rw [hgot.pending]
    exact ⟨d', true, hupgrade, fun _ ↦ ⟨delim, hat.length_le delimiter_ne_nil, hat⟩⟩
  · by_cases hundisturbed : Undisturbed stale (received ++ chunk)
    · refine iff_of_true (fun _ ↦ ?_) (.inr hundisturbed)
      rcases upgrade_undisturbed hgot hroom hundisturbed with ⟨d', -, hupgrade, -⟩
      exact ⟨d', false, hupgrade, nofun⟩
    · refine iff_of_false (fun h ↦ ?_) (not_or.mpr ⟨hcomplete, hundisturbed⟩)
      rcases h hgot.mState with ⟨d', upgraded, hupgrade, -⟩
      rw [upgrade_disturbed hgot hroom hcomplete hundisturbed] at hupgrade
      cases hupgrade

theorem readStepBehind_upgraded {d' : DiffLogic n} (hstate : d.mState = .handshakeResponse)
    (hupgrade : d.upgrade chunk = some (d', true)) (hzero : d'.mOffset = 0) :
    d.readStepBehind parse conv chunk = .returned d' := by
  have hnone : d'.lookahead = none := by
    rw [lookahead, hzero, Frame.deserialize, if_pos (by decide), Option.bind_some, if_pos rfl]
  rw [readStepBehind_eq_upgrade hstate]
  change Outcome.attempt (d.upgrade chunk) _ = _
  rw [hupgrade, Outcome.attempt_some]
  simp only [if_true]
  rw [frameStepBehind_eq_frameStep fun payload b hlook ↦ by rw [hnone] at hlook; cases hlook]
  exact frameStep_empty hzero conv

theorem readStepBehind_waiting {d' : DiffLogic n} (hstate : d.mState = .handshakeResponse)
    (hupgrade : d.upgrade chunk = some (d', false)) :
    d.readStepBehind parse conv chunk = .returned d' := by
  rw [readStepBehind_eq_upgrade hstate]
  change Outcome.attempt (d.upgrade chunk) _ = _
  rw [hupgrade, Outcome.attempt_some]
  simp only [Bool.false_eq_true, if_false]

-- There is no way back from `IN_WORK`.
theorem readStepBehind_inWork {d' : DiffLogic n} (hstate : d.mState = .inWork)
    (h : d.readStepBehind parse conv chunk = .returned d') : d'.mState = .inWork := by
  rcases Outcome.attempt_eq_returned_iff.mp h with ⟨d₁, hreceive, hstep⟩
  have hstate₁ : d₁.mState = .inWork := (receive_idles hreceive).mState.trans hstate
  rw [hstate₁, if_neg (by decide)] at hstep
  rw [← hstate₁]
  exact frameStepBehind_mState (by rw [hstep]; rfl)

-- In `IN_WORK` nothing is left to be detected.
theorem detects_inWork (hstate : d.mState = .inWork) (chunks : List (List UInt8)) :
    d.Detects parse conv chunks := by
  induction chunks generalizing d with
  | nil => trivial
  | cons chunk chunks ih =>
      apply And.intro
      · intro hresponse
        rw [hstate] at hresponse
        cases hresponse
      · intro d' hstep
        exact ih (readStepBehind_inWork hstate hstep)

/-- One client detects the response exactly if what its buffer held is out of the way. -/
theorem detects_iff (hgot : Got stale received d) {chunks : List (List UInt8)}
    (hfits : d.FitsBehind parse conv chunks) :
    d.Detects parse conv chunks ↔ Clean stale received chunks := by
  induction chunks generalizing d received with
  | nil => exact Iff.rfl
  | cons chunk chunks ih =>
      rw [Detects, Clean, detectsAt_iff hgot hfits.2.1]
      by_cases hcomplete : Complete (received ++ chunk)
      · rcases upgrade_complete hgot hfits.2.1 hcomplete with ⟨d', hupgrade, hinWork, hzero⟩
        have hstep : d.readStepBehind parse conv chunk = .returned d' :=
          readStepBehind_upgraded hgot.mState hupgrade hzero
        refine iff_of_true ⟨.inl hcomplete, ?_⟩ (.inl hcomplete)
        intro d'' hd''
        rw [hstep] at hd''
        cases hd''
        exact detects_inWork hinWork.mState chunks
      · by_cases hundisturbed : Undisturbed stale (received ++ chunk)
        -- the client waits, and the rest of the reads decides
        · rcases upgrade_undisturbed hgot hfits.2.1 hundisturbed with ⟨d', -, hupgrade, hgot'⟩
          have hstep : d.readStepBehind parse conv chunk = .returned d' :=
            readStepBehind_waiting hgot.mState hupgrade
          have hrest := ih hgot' (hfits.2.2 d' hstep)
          apply Iff.intro
          · exact fun h ↦ .inr ⟨hundisturbed, hrest.mp (h.2 d' hstep)⟩
          · rintro (h | h)
            · exact absurd h hcomplete
            · refine ⟨.inr hundisturbed, ?_⟩
              intro d'' hd''
              rw [hstep] at hd''
              cases hd''
              exact hrest.mpr h.2
        · refine iff_of_false ?_ ?_
          · exact fun h ↦ h.1.elim hcomplete hundisturbed
          · exact fun h ↦ h.elim hcomplete fun h ↦ hundisturbed h.1

/-! ## Two clients -/

/-- The state and what is queued. -/
def seen (d : DiffLogic n) : DiffState × List OutputFrame := (d.mState, d.mOutputQueue)

theorem receive_lookahead {d d₁ : DiffLogic n} (hreceive : d.receive chunk = some d₁) :
    (d.receive chunk).bind lookahead = d₁.lookahead := by
  rw [hreceive, Option.bind_some]

theorem readStepBehind_alike (hbehind : conv.LooksBehind parse) {d' : DiffLogic n}
    (h : Alike d d') (hstate : d.mState = .inWork)
    (hroom : d.mOffset + chunk.length ≤ BUFFER_SIZE) (hcloses : ClosesAlike parse d d' chunk) :
    Outcome.Related Alike (d.readStepBehind parse conv chunk)
      (d'.readStepBehind parse conv chunk) := by
  have hreceives := receive_alike h hroom
  unfold readStepBehind
  cases hreceive : d.receive chunk with
  | none =>
      rw [hreceive] at hreceives
      cases hreceive' : d'.receive chunk with
      | none => exact .undefined
      | some d₁' =>
          rw [hreceive'] at hreceives
          cases hreceives
  | some d₁ =>
      rw [hreceive] at hreceives
      cases hreceive' : d'.receive chunk with
      | none =>
          rw [hreceive'] at hreceives
          cases hreceives
      | some d₁' =>
          rw [hreceive'] at hreceives
          have h₁ : Alike d₁ d₁' := by
            cases hreceives with
            | some h₁ => exact h₁
          have hstate₁ : d₁.mState = .inWork := (receive_idles hreceive).mState.trans hstate
          have hstate₁' : d₁'.mState = .inWork := by
            rw [h₁.rest]
            exact hstate₁
          rw [Outcome.attempt_some, Outcome.attempt_some, hstate₁, hstate₁', if_neg (by decide),
            if_neg (by decide)]
          apply frameStepBehind_alike h₁
          intro payload b b' hlook hlook'
          apply hbehind.congr
          apply hcloses hstate
          · rw [receive_lookahead hreceive, hlook]
          · rw [receive_lookahead hreceive', hlook']

-- What `parse` makes of an empty array throws, and what it rejects does not.
theorem onParsed_differs (hbehind : conv.LooksBehind parse) {payload : List UInt8}
    (hdiffers : parse 93 payload ≠ parse 0 payload) (d d' : DiffLogic n) (stop stop' : Nat) :
    (d'.onParsed conv (parse 0 payload) stop').map seen ≠
      (d.onParsed conv (parse 93 payload) stop).map seen := by
  have hzero : parse 0 payload = conv.parse payload := hbehind.other 0 payload (by decide)
  -- removing the frame returns, if it is defined
  have htaken (d : DiffLogic n) (stop : Nat) {what : String} {s : DiffState × List OutputFrame} :
      (d.onParsed conv (.ok none) stop).map seen ≠ .threw what s := by
    show (Outcome.attempt (d.takeFrame stop) .returned).map seen ≠ _
    cases d.takeFrame stop with
    | none =>
        intro he
        cases he
    | some d₁ =>
        intro he
        cases he
  rcases hbehind.closing payload with hsame | ⟨hnone, hempty⟩ | ⟨⟨what, herror⟩, hnone⟩
  · exact absurd (hsame.trans hzero.symm) hdiffers
  · rw [hzero, hnone, hempty]
    exact htaken d' stop'
  · rw [hzero, herror, hnone]
    exact (htaken d stop).symm

/-- In `IN_WORK` a byte behind that closes in one buffer only shows. -/
theorem closesAlike_of_same (hbehind : conv.LooksBehind parse) {d' : DiffLogic n}
    (h : Alike d d')
    (hsame : (d'.readStepBehind parse conv chunk).map seen =
      (d.readStepBehind parse conv chunk).map seen) : ClosesAlike parse d d' chunk := by
  intro hstate payload b b' hlook hlook' hdiffers
  have hstate' : d'.mState = .inWork := by
    rw [h.rest]
    exact hstate
  have hframe {d : DiffLogic n} {b : UInt8} (hstate : d.mState = .inWork)
      (hlook : (d.receive chunk).bind lookahead = some (payload, b)) :
      ∃ (d₂ : DiffLogic n) (stop : Nat), d.readStepBehind parse conv chunk =
        d₂.onParsed conv (parse b payload) stop := by
    rcases Option.bind_eq_some_iff.mp hlook with ⟨d₁, hreceive, hlook⟩
    rcases frameStepBehind_of_lookahead hlook with ⟨d₂, stop, hstep⟩
    have hstate₁ : d₁.mState = .inWork := (receive_idles hreceive).mState.trans hstate
    refine ⟨d₂, stop, ?_⟩
    rw [readStepBehind, hreceive, Outcome.attempt_some, hstate₁, if_neg (by decide), hstep]
  rcases hframe hstate hlook with ⟨d₂, stop, hstep⟩
  rcases hframe hstate' hlook' with ⟨d₂', stop', hstep'⟩
  rw [hstep, hstep'] at hsame
  have hopen {c : UInt8} (hc : c ≠ 93) : parse c payload = parse 0 payload :=
    (hbehind.other c payload hc).trans (hbehind.other 0 payload (by decide)).symm
  by_cases hb : b = 93
  · by_cases hb' : b' = 93
    · exact iff_of_true hb hb'
    · rw [hb, hopen hb'] at hsame
      exact absurd hsame (onParsed_differs hbehind hdiffers d₂ d₂' stop stop')
  · by_cases hb' : b' = 93
    · rw [hb', hopen hb] at hsame
      exact absurd hsame.symm (onParsed_differs hbehind hdiffers d₂' d₂ stop' stop)
    · exact iff_of_false hb hb'

theorem upgrade_alike {d' : DiffLogic n} (h : Alike d d') {stale' : List UInt8}
    (hgot : Got stale received d) (hgot' : Got stale' received d')
    (hroom : d.mOffset + chunk.length ≤ BUFFER_SIZE) (hcomplete : Complete (received ++ chunk)) :
    ∃ d₁ d₁', d.upgrade chunk = some (d₁, true) ∧ d'.upgrade chunk = some (d₁', true) ∧
      Alike d₁ d₁' ∧ d₁.mState = .inWork ∧ d₁.mOffset = 0 := by
  have hroom' : d'.mOffset + chunk.length ≤ BUFFER_SIZE := by
    rw [hgot'.mOffset, ← hgot.mOffset]
    exact hroom
  rcases upgrade_complete hgot hroom hcomplete with ⟨d₂, hupgrade, hinWork, hzero⟩
  rcases upgrade_complete hgot' hroom' hcomplete with ⟨d₂', hupgrade', -, -⟩
  refine ⟨d₂, d₂', hupgrade, hupgrade', ?_, hinWork.mState, hzero⟩
  rcases hgot.receive hroom with ⟨d₁, hreceive, hgot₁⟩
  rcases hgot'.receive hroom' with ⟨d₁', hreceive', hgot₁'⟩
  have h₁ : Alike d₁ d₁' := by
    have hrel := receive_alike h hroom
    rw [hreceive, hreceive'] at hrel
    cases hrel with
    | some h₁ => exact h₁
  rcases hcomplete with ⟨delim, hfound⟩
  have hend := (occursAt_of_strstr hfound).length_le delimiter_ne_nil
  -- both searches end at the delimiter received, whatever is behind it
  have hbuffer := strstr_found_append delimiter_ne_nil hfound
    (stale.drop (received ++ chunk).length)
  have hbuffer' := strstr_found_append delimiter_ne_nil hfound
    (stale'.drop (received ++ chunk).length)
  rw [← hgot₁.mBuffer] at hbuffer
  rw [← hgot₁'.mBuffer] at hbuffer'
  rw [← hgot₁.mOffset] at hend
  rw [upgrade, hreceive, Option.bind_some] at hupgrade
  rw [upgrade, hreceive', Option.bind_some] at hupgrade'
  have hrel := handshakeResponse_alike h₁ hbuffer hbuffer' hend
  rw [hupgrade, hupgrade'] at hrel
  cases hrel with
  | some h₂ => exact h₂.2

/-- One read before the transition: both clients wait, or both go over. -/
theorem readStepBehind_clean {d' : DiffLogic n} (h : Alike d d') {stale' : List UInt8}
    (hgot : Got stale received d) (hgot' : Got stale' received d') {chunks : List (List UInt8)}
    (hroom : d.mOffset + chunk.length ≤ BUFFER_SIZE)
    (hclean : Clean stale received (chunk :: chunks))
    (hclean' : Clean stale' received (chunk :: chunks)) :
    ∃ d₁ d₁', d.readStepBehind parse conv chunk = .returned d₁ ∧
      d'.readStepBehind parse conv chunk = .returned d₁' ∧ Alike d₁ d₁' ∧
      (d₁.mState = .inWork ∨ (Got stale (received ++ chunk) d₁ ∧
        Got stale' (received ++ chunk) d₁') ∧ Clean stale (received ++ chunk) chunks ∧
        Clean stale' (received ++ chunk) chunks) := by
  by_cases hcomplete : Complete (received ++ chunk)
  -- from here on neither client looks behind its offset, but for the byte behind a payload
  · rcases upgrade_alike h hgot hgot' hroom hcomplete with
      ⟨d₁, d₁', hupgrade, hupgrade', h₁, hinWork, hzero⟩
    have hzero' : d₁'.mOffset = 0 := by
      rw [h₁.rest]
      exact hzero
    exact ⟨d₁, d₁', readStepBehind_upgraded hgot.mState hupgrade hzero,
      readStepBehind_upgraded hgot'.mState hupgrade' hzero', h₁, .inl hinWork⟩
  · have hwaits := hclean.resolve_left hcomplete
    have hwaits' := hclean'.resolve_left hcomplete
    have hroom' : d'.mOffset + chunk.length ≤ BUFFER_SIZE := by
      rw [hgot'.mOffset, ← hgot.mOffset]
      exact hroom
    rcases upgrade_undisturbed hgot hroom hwaits.1 with ⟨d₁, hreceive, hupgrade, hgot₁⟩
    rcases upgrade_undisturbed hgot' hroom' hwaits'.1 with ⟨d₁', hreceive', hupgrade', hgot₁'⟩
    have hrel := receive_alike h hroom
    rw [hreceive, hreceive'] at hrel
    have h₁ : Alike d₁ d₁' := by
      cases hrel with
      | some h₁ => exact h₁
    exact ⟨d₁, d₁', readStepBehind_waiting hgot.mState hupgrade,
      readStepBehind_waiting hgot'.mState hupgrade', h₁,
      .inr ⟨⟨hgot₁, hgot₁'⟩, hwaits.2, hwaits'.2⟩⟩

theorem onReadBehind_alike (hbehind : conv.LooksBehind parse) {d' : DiffLogic n}
    (h : Alike d d') (hstate : d.mState = .inWork) {chunks : List (List UInt8)}
    (hfits : d.FitsBehind parse conv chunks) (hsame : SameBehind parse conv d d' chunks) :
    Outcome.Related Alike (d.onReadBehind parse conv chunks)
      (d'.onReadBehind parse conv chunks) := by
  induction chunks generalizing d d' with
  | nil => exact .returned h
  | cons chunk chunks ih =>
      rw [onReadBehind_cons hfits.1, onReadBehind_cons hfits.1]
      have hsteps := readStepBehind_alike hbehind h hstate hfits.2.1 hsame.1
      cases hstep : d.readStepBehind parse conv chunk with
      | returned d₁ =>
          rw [hstep] at hsteps
          cases hstep' : d'.readStepBehind parse conv chunk with
          | returned d₁' =>
              rw [hstep'] at hsteps
              have h₁ : Alike d₁ d₁' := by
                cases hsteps with
                | returned h₁ => exact h₁
              exact ih h₁ (readStepBehind_inWork hstate hstep) (hfits.2.2 d₁ hstep)
                (hsame.2 d₁ d₁' hstep hstep')
          | threw | aborted | undefined => rw [hstep'] at hsteps; cases hsteps
      | threw what d₁ =>
          rw [hstep] at hsteps
          apply Outcome.Related.andThen hsteps
          intro s s' hs
          cases hs
      | aborted d₁ =>
          rw [hstep] at hsteps
          apply Outcome.Related.andThen hsteps
          intro s s' hs
          cases hs
      | undefined =>
          rw [hstep] at hsteps
          apply Outcome.Related.andThen hsteps
          intro s s' hs
          cases hs

/-- As long as nothing disturbs the search in either buffer, both clients do the same. -/
theorem onReadBehind_clean_alike (hbehind : conv.LooksBehind parse) {d' : DiffLogic n}
    (h : Alike d d') {stale' : List UInt8} (hgot : Got stale received d)
    (hgot' : Got stale' received d') {chunks : List (List UInt8)}
    (hfits : d.FitsBehind parse conv chunks) (hclean : Clean stale received chunks)
    (hclean' : Clean stale' received chunks) (hsame : SameBehind parse conv d d' chunks) :
    Outcome.Related Alike (d.onReadBehind parse conv chunks)
      (d'.onReadBehind parse conv chunks) := by
  induction chunks generalizing d d' received with
  | nil => exact .returned h
  | cons chunk chunks ih =>
      rcases readStepBehind_clean h hgot hgot' hfits.2.1 hclean hclean' with
        ⟨d₁, d₁', hstep, hstep', h₁, hnext⟩
      have hrest := hsame.2 d₁ d₁' hstep hstep'
      rw [onReadBehind_cons hfits.1, onReadBehind_cons hfits.1, hstep, hstep']
      rcases hnext with hinWork | ⟨⟨hgot₁, hgot₁'⟩, hc, hc'⟩
      · exact onReadBehind_alike hbehind h₁ hinWork (hfits.2.2 d₁ hstep) hrest
      · exact ih h₁ hgot₁ hgot₁' (hfits.2.2 d₁ hstep) hc hc' hrest

/-- What is seen of two clients is the same after any number of reads. -/
def SeenAlike (parse : UInt8 → List UInt8 → Except String (Option Json)) (conv : Conversions)
    (d d' : DiffLogic n) (chunks : List (List UInt8)) : Prop :=
  ∀ sofar, sofar <+: chunks →
    (d'.onReadBehind parse conv sofar).map seen = (d.onReadBehind parse conv sofar).map seen

theorem SeenAlike.first {d d' : DiffLogic n} {chunks : List (List UInt8)} (hne : chunk ≠ [])
    (h : SeenAlike parse conv d d' (chunk :: chunks)) :
    (d'.readStepBehind parse conv chunk).map seen =
      (d.readStepBehind parse conv chunk).map seen := by
  have hone := h [chunk] (by simp)
  rw [onReadBehind_cons hne, onReadBehind_cons hne] at hone
  simp only [onReadBehind, Outcome.andThen_returned_right] at hone
  exact hone

theorem SeenAlike.rest {d d' d₁ d₁' : DiffLogic n} {chunks : List (List UInt8)}
    (hne : chunk ≠ []) (h : SeenAlike parse conv d d' (chunk :: chunks))
    (hstep : d.readStepBehind parse conv chunk = .returned d₁)
    (hstep' : d'.readStepBehind parse conv chunk = .returned d₁') :
    SeenAlike parse conv d₁ d₁' chunks := by
  intro sofar hsofar
  have hmore := h (chunk :: sofar) (List.cons_prefix_cons.mpr ⟨rfl, hsofar⟩)
  rw [onReadBehind_cons hne, onReadBehind_cons hne, hstep, hstep'] at hmore
  exact hmore

theorem SeenAlike.sameBehind_inWork (hbehind : conv.LooksBehind parse) {d d' : DiffLogic n}
    (h : Alike d d') (hstate : d.mState = .inWork) {chunks : List (List UInt8)}
    (hfits : d.FitsBehind parse conv chunks) (hseen : SeenAlike parse conv d d' chunks) :
    SameBehind parse conv d d' chunks := by
  induction chunks generalizing d d' with
  | nil => trivial
  | cons chunk chunks ih =>
      have hcloses := closesAlike_of_same hbehind h (hseen.first hfits.1)
      refine ⟨hcloses, fun d₁ d₁' hstep hstep' ↦ ?_⟩
      have hsteps := readStepBehind_alike hbehind h hstate hfits.2.1 hcloses
      rw [hstep, hstep'] at hsteps
      have h₁ : Alike d₁ d₁' := by
        cases hsteps with
        | returned h₁ => exact h₁
      exact ih h₁ (readStepBehind_inWork hstate hstep) (hfits.2.2 d₁ hstep)
        (hseen.rest hfits.1 hstep hstep')

theorem SeenAlike.sameBehind (hbehind : conv.LooksBehind parse) {d d' : DiffLogic n}
    (h : Alike d d') {stale' : List UInt8} (hgot : Got stale received d)
    (hgot' : Got stale' received d') {chunks : List (List UInt8)}
    (hfits : d.FitsBehind parse conv chunks) (hclean : Clean stale received chunks)
    (hclean' : Clean stale' received chunks) (hseen : SeenAlike parse conv d d' chunks) :
    SameBehind parse conv d d' chunks := by
  induction chunks generalizing d d' received with
  | nil => trivial
  | cons chunk chunks ih =>
      rcases readStepBehind_clean h hgot hgot' hfits.2.1 hclean hclean' with
        ⟨d₁, d₁', hstep, hstep', h₁, hnext⟩
      refine ⟨closesAlike_of_same hbehind h (hseen.first hfits.1), fun d₂ d₂' hd hd' ↦ ?_⟩
      cases hstep.symm.trans hd
      cases hstep'.symm.trans hd'
      have hrest := hseen.rest hfits.1 hstep hstep'
      rcases hnext with hinWork | ⟨⟨hgot₁, hgot₁'⟩, hc, hc'⟩
      · exact SeenAlike.sameBehind_inWork hbehind h₁ hinWork (hfits.2.2 d₁ hstep) hrest
      · exact ih h₁ hgot₁ hgot₁' (hfits.2.2 d₁ hstep) hc hc' hrest

theorem Clean.left {chunks more : List (List UInt8)} (h : Clean stale received (chunks ++ more)) :
    Clean stale received chunks := by
  induction chunks generalizing received with
  | nil => trivial
  | cons chunk chunks ih => exact h.imp_right fun h ↦ ⟨h.1, ih h.2⟩

theorem SameBehind.left {d d' : DiffLogic n} {chunks more : List (List UInt8)}
    (h : SameBehind parse conv d d' (chunks ++ more)) : SameBehind parse conv d d' chunks := by
  induction chunks generalizing d d' with
  | nil => trivial
  | cons chunk chunks ih => exact ⟨h.1, fun d₁ d₁' hd hd' ↦ ih (h.2 d₁ d₁' hd hd')⟩

/-- Two clients detect the response at the same read: after any number of reads both are in the same
state with the same frames queued, and neither goes over too early or copies too much. -/
structure DetectsAlike (parse : UInt8 → List UInt8 → Except String (Option Json))
    (conv : Conversions) (d d' : DiffLogic n) (chunks : List (List UInt8)) : Prop where
  same : SeenAlike parse conv d d' chunks
  first : d.Detects parse conv chunks
  second : d'.Detects parse conv chunks

/-- Detection depends on the bytes received exactly if, up to the read that completes the first
delimiter, neither buffer holds anything that disturbs the search, and from then on none holds a
bracket that closes a payload behind its end in one of them only. -/
theorem detection_independent_iff (hbehind : conv.LooksBehind parse) (hv : d.Valid)
    (hstate : d.mState = .handshakeResponse) (hzero : d.mOffset = 0)
    (hlength : stale.length = BUFFER_SIZE) {chunks : List (List UInt8)}
    (hfits : d.FitsBehind parse conv chunks)
    (hfits' : FitsBehind parse conv { d with mBuffer := stale } chunks) :
    DetectsAlike parse conv d { d with mBuffer := stale } chunks ↔
      (Clean d.mBuffer [] chunks ∧ Clean stale [] chunks) ∧
        SameBehind parse conv d { d with mBuffer := stale } chunks := by
  have hgot : Got d.mBuffer [] d := ⟨hv, hstate, hzero, rfl⟩
  have hgot' : Got stale [] { d with mBuffer := stale } :=
    ⟨⟨hlength, hv.offset, hv.address⟩, hstate, hzero, rfl⟩
  have halike : Alike d { d with mBuffer := stale } := by
    refine ⟨hv, ?_, rfl⟩
    rw [hzero]
    exact agreeTo_zero (hlength.trans hv.buffer.symm)
  apply Iff.intro
  · intro h
    have hclean := (detects_iff hgot hfits).mp h.first
    have hclean' := (detects_iff hgot' hfits').mp h.second
    exact ⟨⟨hclean, hclean'⟩, h.same.sameBehind hbehind halike hgot hgot' hfits hclean hclean'⟩
  · rintro ⟨⟨hclean, hclean'⟩, hsame⟩
    refine ⟨?_, (detects_iff hgot hfits).mpr hclean, (detects_iff hgot' hfits').mpr hclean'⟩
    rintro sofar ⟨more, rfl⟩
    have hrelated := onReadBehind_clean_alike hbehind halike hgot hgot' hfits.left hclean.left
      hclean'.left hsame.left
    apply hrelated.map_eq
    intro s s' hs
    rw [hs.rest]
    rfl

theorem fits_singleton {d : DiffLogic n} (hne : chunk ≠ [])
    (hroom : d.mOffset + chunk.length ≤ BUFFER_SIZE) : d.FitsBehind parse conv [chunk] :=
  ⟨hne, hroom, fun _ _ ↦ trivial⟩

/-- A buffer of spaces: the first read completes the response. -/
theorem detection_independent_iff_example :
    DetectsAlike closedBehind noJson connecting
      { connecting with mBuffer := List.replicate BUFFER_SIZE 32 }
      [switching ++ HTTP_DELIMITER] := by
  have hcomplete : Complete ([] ++ (switching ++ HTTP_DELIMITER)) := ⟨12, by decide +kernel⟩
  have hsame : SameBehind closedBehind noJson connecting
      { connecting with mBuffer := List.replicate BUFFER_SIZE 32 }
      [switching ++ HTTP_DELIMITER] := by
    refine ⟨?_, fun _ _ _ _ ↦ trivial⟩
    intro hstate
    cases hstate
  exact (detection_independent_iff closedBehind_looksBehind connecting_valid rfl rfl
    List.length_replicate (fits_singleton (by decide) (by decide))
    (fits_singleton (by decide) (by decide))).mpr ⟨⟨.inl hcomplete, .inl hcomplete⟩, hsame⟩

/-- What is left of an earlier response: the next one is cut in front of its delimiter. -/
def leftover : List UInt8 :=
  switching ++ (HTTP_DELIMITER ++ List.replicate (BUFFER_SIZE - 16) 0)

/-- The delimiter that is found is not in the bytes received: the copy leaves the buffer. -/
theorem detection_depends_on_leftover :
    connecting.Valid ∧ connecting.mState = .handshakeResponse ∧ connecting.mOffset = 0 ∧
      leftover.length = BUFFER_SIZE ∧ connecting.FitsBehind closedBehind noJson [switching] ∧
      FitsBehind closedBehind noJson { connecting with mBuffer := leftover } [switching] ∧
      ¬ DetectsAlike closedBehind noJson connecting { connecting with mBuffer := leftover }
        [switching] := by
  have hlength : leftover.length = BUFFER_SIZE := by
    rw [leftover, List.length_append, List.length_append, List.length_replicate]
    rfl
  have hfits : connecting.FitsBehind closedBehind noJson [switching] :=
    fits_singleton (by decide) (by decide)
  have hfits' :
      FitsBehind closedBehind noJson { connecting with mBuffer := leftover } [switching] :=
    fits_singleton (by decide) (by decide)
  refine ⟨connecting_valid, rfl, rfl, hlength, hfits, hfits', fun h ↦ ?_⟩
  have hgot : Got leftover [] { connecting with mBuffer := leftover } :=
    ⟨⟨hlength, connecting_valid.offset, connecting_valid.address⟩, rfl, rfl, rfl⟩
  rcases (detects_iff hgot hfits').mp h.second with ⟨delim, hfound⟩ | ⟨hundisturbed, -⟩
  · have hoverrun : strstr HTTP_DELIMITER ([] ++ switching) = .overrun := by decide +kernel
    rw [hoverrun] at hfound
    cases hfound
  · -- behind the bytes received is the old delimiter
    have hstale : [] ++ switching ++ leftover.drop ([] ++ switching).length =
        switching ++ HTTP_DELIMITER ++ List.replicate (BUFFER_SIZE - 16) 0 := by
      rw [List.nil_append, leftover, List.drop_left, List.append_assoc]
    have hfound : strstr HTTP_DELIMITER (switching ++ HTTP_DELIMITER) = .found 12 := by
      decide +kernel
    unfold Undisturbed at hundisturbed
    rw [hstale, strstr_found_append delimiter_ne_nil hfound] at hundisturbed
    exact absurd hundisturbed (by decide)

end DiffLogic

end Tob
