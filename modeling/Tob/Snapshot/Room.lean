import Tob.Snapshot.Delivery

/-!
# The room for the next read

The room `on_read` offers to `SSL_read` comes from the size the buffer had before the loop.  Where
it gets to zero the loop ends, whatever the TLS library has still in store.
-/

namespace Tob

namespace Receiver

variable {head body : List UInt8}

/-! ## What a call offers -/

/-- The room offered to the last `SSL_read` of the read loop. -/
def lastRoom (search : List UInt8 → Search) (bufferSize : Nat) :
    List Nat → Receiver → List UInt8 → Nat
  | [], r, _ => r.room bufferSize
  | limit :: limits, r, incoming =>
      let chunk := sslRead limit (r.room bufferSize) incoming
      if chunk = [] then r.room bufferSize
      else
        match (r.store chunk).map (advance search) with
        | some (.returned (next, false)) =>
            lastRoom search bufferSize limits next (incoming.drop chunk.length)
        | _ => r.room bufferSize

/-- The header is not complete, or the body is not. -/
def Incomplete (r : Receiver) : Prop :=
  r.mReadyToReceiveJson = false ∨ r.mReadOffset < r.mJsonFullSize

/-- A call does nothing undefined, and where it returns with something missing there was room for
its last `SSL_read`. -/
def OffersRoom (limits : List Nat) (r : Receiver) (incoming : List UInt8) : Prop :=
  (r.onRead (strstr HTTP_DELIMITER) .done limits incoming).Ensures fun p ↦
    p.receiver.Incomplete →
      0 < lastRoom (strstr HTTP_DELIMITER) r.mBuffer.length limits r incoming

/-- Every call does, until the socket is closed. -/
def KeepsRoom : List (List Nat) → Receiver → List UInt8 → Prop
  | [], _, _ => True
  | limits :: calls, r, incoming => OffersRoom limits r incoming ∧
      ∀ p, r.onRead (strstr HTTP_DELIMITER) .done limits incoming = .returned p → p.body = none →
        KeepsRoom calls p.receiver p.incoming

/-- How much of a response has been received behind the reads of a call that starts in the header:
the header may take the size the buffer has, and so may the body behind it. -/
def arrives (size headEnd total : Nat) : List Nat → Nat → Nat
  | [], got => got
  | limit :: limits, got =>
      let room := (if got < headEnd then size else headEnd + size) - got
      let count := min (min limit room) (total - got)
      if count = 0 then got else arrives size headEnd total limits (got + count)

/-- So much of a response fills the first buffer: with a part of the header, or with a part of a
body that needs a larger one. -/
def FillsBuffer (head : List UInt8) (got : Nat) : Prop :=
  (got = JSON_BUF_INIT_VALUE ∧ got < head.length + 4) ∨
    (got = head.length + 4 + JSON_BUF_INIT_VALUE ∧
      ∃ size, getBodySize head = .ok size ∧ JSON_BUF_INIT_VALUE < size ∧ size < 2 ^ 63)

/-- No call fills the first buffer, up to the one that completes the header. -/
def Roomy (head body : List UInt8) : List (List Nat) → Nat → Prop
  | [], _ => True
  | limits :: calls, got =>
      let next := arrives JSON_BUF_INIT_VALUE (head.length + 4)
        (head ++ HTTP_DELIMITER ++ body).length limits got
      head.length + 4 ≤ got ∨ ¬ FillsBuffer head next ∧ Roomy head body calls next

/-! ## One read -/

theorem length_sslRead (limit room : Nat) (incoming : List UInt8) :
    (sslRead limit room incoming).length = min (min limit room) incoming.length := by
  rw [sslRead, List.length_take]

theorem lastRoom_stop (search : List UInt8 → Search) {bufferSize limit : Nat} {r : Receiver}
    {incoming : List UInt8} (limits : List Nat)
    (hread : sslRead limit (r.room bufferSize) incoming = []) :
    lastRoom search bufferSize (limit :: limits) r incoming = r.room bufferSize := by
  rw [lastRoom]
  exact if_pos hread

theorem lastRoom_read (search : List UInt8 → Search) {bufferSize limit : Nat} {r r₁ r₂ : Receiver}
    {incoming chunk : List UInt8} (limits : List Nat)
    (hread : sslRead limit (r.room bufferSize) incoming = chunk) (hchunk : chunk ≠ [])
    (hstore : r.store chunk = some r₁) (hadvance : r₁.advance search = .returned (r₂, false)) :
    lastRoom search bufferSize (limit :: limits) r incoming =
      lastRoom search bufferSize limits r₂ (incoming.drop chunk.length) := by
  rw [lastRoom, hread, if_neg hchunk, hstore, Option.map_some, hadvance]

/-! ## In the body -/

/-- Where a loop in the body leaves the receiver, and the room it has offered last. -/
structure BodyLoop (stale size full : Nat) (got : List UInt8) (room : Nat) (p : Progress) :
    Prop where
  body : p.body = none
  inBody : p.receiver.InBody size full got
  length_le : got.length ≤ stale
  room : got.length = full ∨ room = stale - got.length

theorem InBody.bodyLoop (search : List UInt8 → Search) {stale size full : Nat} {r : Receiver}
    {got : List UInt8} (h : r.InBody size full got) (hle : got.length ≤ stale)
    (hsize : stale ≤ size) (hbound : stale < 2 ^ 64) (limits : List Nat) (incoming : List UInt8)
    (headEnd : Nat) :
    ∃ p got', Receiver.readLoop search stale limits r incoming = .returned p ∧
      BodyLoop stale size full got' (lastRoom search stale limits r incoming) p ∧
      (stale < full → headEnd + got'.length =
        arrives stale headEnd (headEnd + got.length + incoming.length) limits
          (headEnd + got.length)) := by
  induction limits generalizing r got incoming with
  | nil => exact ⟨_, got, rfl, ⟨rfl, h, hle, .inr (h.room hle hbound)⟩, fun _ ↦ rfl⟩
  | cons limit limits ih =>
      have hroom := h.room hle hbound
      generalize hread : sslRead limit (stale - got.length) incoming = chunk
      have hcount := length_sslRead limit (stale - got.length) incoming
      have hbehind : ¬ headEnd + got.length < headEnd := by omega
      rw [hread] at hcount
      rw [← hroom] at hread
      rw [arrives, if_neg hbehind, Nat.add_sub_add_left, Nat.add_sub_cancel_left, ← hcount]
      by_cases hchunk : chunk = []
      · rw [hchunk] at hread ⊢
        rw [lastRoom_stop search limits hread]
        exact ⟨_, got, readLoop_stop search limits hread, ⟨rfl, h, hle, .inr hroom⟩, fun _ ↦ rfl⟩
      · have hpos := List.length_pos_iff.mpr hchunk
        rcases h.store chunk (by omega) with ⟨r', hstore, h'⟩
        have hlength : (got ++ chunk).length = got.length + chunk.length := List.length_append
        have hadvance := h'.advance search
        rw [readLoop_read search limits hread hchunk hstore, if_neg (by omega)]
        by_cases hfull : (got ++ chunk).length = full
        · -- the loop breaks: nothing is missing
          rw [hadvance, decide_eq_true hfull]
          exact ⟨_, got ++ chunk, rfl, ⟨rfl, h', by omega, .inl hfull⟩, fun _ ↦ by omega⟩
        · rw [decide_eq_false hfull] at hadvance
          rw [hadvance, lastRoom_read search limits hread hchunk hstore hadvance]
          have hrest : incoming.length = chunk.length + (incoming.drop chunk.length).length := by
            rw [List.length_drop]
            omega
          have hsum : headEnd + got.length + incoming.length =
              headEnd + (got ++ chunk).length + (incoming.drop chunk.length).length := by omega
          have hnext : headEnd + got.length + chunk.length = headEnd + (got ++ chunk).length := by
            omega
          rw [hsum, hnext]
          exact ih h' (by omega) _

theorem InBody.finish {size full : Nat} {got : List UInt8} {p : Progress}
    (h : p.receiver.InBody size full got) (hfull : full ≤ size) :
    ∃ p', Receiver.finish p = .returned p' ∧ p'.receiver = p.receiver := by
  unfold Receiver.finish
  by_cases hlast : p.receiver.mReadOffset = p.receiver.mBuffer.length
  · have hread : readAt p.receiver.mBuffer 0 p.receiver.mJsonFullSize =
        some (p.receiver.mBuffer.take p.receiver.mJsonFullSize) := by
      rw [readAt, if_pos (by rw [h.mJsonFullSize, h.length]; omega), List.drop_zero]
    rw [if_pos hlast, hread, Outcome.attempt_some]
    exact ⟨_, rfl, rfl⟩
  · rw [if_neg hlast]
    exact ⟨p, rfl, rfl⟩

theorem InBody.incomplete_iff {size full : Nat} {got : List UInt8} {r : Receiver}
    (h : r.InBody size full got) : r.Incomplete ↔ got.length < full := by
  rw [Incomplete, h.ready, h.mReadOffset, h.mJsonFullSize]
  exact or_iff_right Bool.noConfusion

/-- From a call in the body on there is always room. -/
theorem InBody.keepsRoom {size full : Nat} {got incoming : List UInt8} {r : Receiver}
    (h : r.InBody size full got) (hfull : full ≤ size) (hbound : size < 2 ^ 63)
    (calls : List (List Nat)) : KeepsRoom calls r incoming := by
  induction calls generalizing r got incoming with
  | nil => trivial
  | cons limits calls ih =>
      have hlength := h.length
      have hle := h.length_le
      rcases h.bodyLoop (strstr HTTP_DELIMITER) hle (le_refl _) (by omega) limits incoming 0 with
        ⟨p, got', hloop, hbody, -⟩
      rcases hbody.inBody.finish hfull with ⟨p', hfinish, hreceiver⟩
      have hinBody := hbody.inBody
      rw [← hreceiver] at hinBody
      have hcall : r.onRead (strstr HTTP_DELIMITER) .done limits incoming = .returned p' := by
        rw [h.reading.onRead, hlength, hloop, Outcome.andThen_returned, hfinish]
      -- with the size of the whole buffer captured, a full one has all of the body
      refine ⟨?_, fun p'' hp'' _ ↦ ?_⟩
      · rw [OffersRoom, hcall, hlength]
        apply Outcome.ensures_returned
        intro hincomplete
        have hless := hinBody.incomplete_iff.mp hincomplete
        rcases hbody.room with hdone | hroom
        · omega
        · omega
      · rw [hcall] at hp''
        cases hp''
        exact ih hinBody

/-! ## In the header -/

theorem le_arrives (size headEnd total : Nat) (limits : List Nat) (got : Nat) :
    got ≤ arrives size headEnd total limits got := by
  induction limits generalizing got with
  | nil => exact le_refl _
  | cons limit limits ih =>
      rw [arrives]
      generalize min (min limit _) (total - got) = count
      by_cases hzero : count = 0
      · exact le_of_eq (if_pos hzero).symm
      · rw [if_neg hzero]
        exact le_trans (Nat.le_add_right got count) (ih _)

-- A buffer that is full of the header takes no more.
theorem arrives_full {size headEnd got : Nat} (hfull : got = size) (hlt : got < headEnd)
    (total : Nat) (limits : List Nat) : arrives size headEnd total limits got = got := by
  cases limits with
  | nil => rfl
  | cons limit limits =>
      rw [arrives, if_pos hlt, hfull, Nat.sub_self, Nat.min_zero, Nat.zero_min]
      exact if_pos rfl

/-- A complete header whose length is no size throws. -/
theorem InHeader.advance_throws {got : List UInt8} (hhead : Head head) {r : Receiver}
    (h : r.InHeader got) (hp : head ++ HTTP_DELIMITER <+: got)
    (hbad : ∀ size, getBodySize head = .ok size → ¬ (0 < size ∧ size < 2 ^ 63)) :
    ∃ what s, r.advance (strstr HTTP_DELIMITER) = .threw what s := by
  rcases h.found hhead hp with ⟨hfound, htext⟩
  have hinit : JSON_BUF_INIT_VALUE = 5000 := rfl
  have hlength : (r.mBuffer.set head.length 0).length = JSON_BUF_INIT_VALUE := by
    rw [List.length_set, h.length]
  rw [advance, if_neg (by rw [h.ready]; decide), processHeader, hfound]
  simp only
  rw [htext]
  cases hsize : getBodySize head with
  | error what => exact ⟨what, _, rfl⟩
  | ok size =>
      simp only
      by_cases hzero : size = 0
      · rw [if_pos hzero]
        exact ⟨_, _, rfl⟩
      · have hhuge : 2 ^ 63 ≤ size := by
          by_contra hless
          exact hbad size hsize ⟨by omega, by omega⟩
        rw [if_neg hzero, hlength, if_pos (by omega), if_pos hhuge]
        exact ⟨_, _, rfl⟩

/-- How a loop ends that starts in the header, with `arrived` bytes of the response received. -/
inductive HeaderLoop (head body : List UInt8) (arrived room : Nat) : Outcome Progress → Prop where
  | waits {p got} : p.receiver.InHeader got →
      got ++ p.incoming = head ++ HTTP_DELIMITER ++ body → got.length = arrived →
      arrived < head.length + 4 → arrived < JSON_BUF_INIT_VALUE →
      room = JSON_BUF_INIT_VALUE - arrived → p.body = none →
      HeaderLoop head body arrived room (.returned p)
  | full : arrived = JSON_BUF_INIT_VALUE → arrived < head.length + 4 →
      HeaderLoop head body arrived room .undefined
  | throws {what p} : head.length + 4 ≤ arrived →
      (∀ size, getBodySize head = .ok size → ¬ (0 < size ∧ size < 2 ^ 63)) →
      HeaderLoop head body arrived room (.threw what p)
  | body {p got size} : head.length + 4 ≤ arrived → getBodySize head = .ok size →
      size < 2 ^ 63 →
      BodyLoop JSON_BUF_INIT_VALUE (max JSON_BUF_INIT_VALUE size) size got room p →
      (JSON_BUF_INIT_VALUE < size → head.length + 4 + got.length = arrived) →
      HeaderLoop head body arrived room (.returned p)

-- The rest of a loop behind the read that has completed the header.
theorem InBody.headerLoop {r : Receiver} {got incoming : List UInt8} {size : Nat}
    (h : r.InBody (max JSON_BUF_INIT_VALUE size) size (got.drop (head.length + 4)))
    (hsize : getBodySize head = .ok size) (hbound : size < 2 ^ 63)
    (hle : got.length ≤ JSON_BUF_INIT_VALUE) (hcomplete : head.length + 4 ≤ got.length)
    (hsplit : got ++ incoming = head ++ HTTP_DELIMITER ++ body) (limits : List Nat) :
    HeaderLoop head body
      (arrives JSON_BUF_INIT_VALUE (head.length + 4) (head ++ HTTP_DELIMITER ++ body).length limits
        got.length)
      (lastRoom (strstr HTTP_DELIMITER) JSON_BUF_INIT_VALUE limits r incoming)
      (Receiver.readLoop (strstr HTTP_DELIMITER) JSON_BUF_INIT_VALUE limits r incoming) := by
  have hdrop : (got.drop (head.length + 4)).length = got.length - (head.length + 4) :=
    List.length_drop
  have htotal := congrArg List.length hsplit
  rw [List.length_append] at htotal
  rcases h.bodyLoop (strstr HTTP_DELIMITER) (show _ ≤ JSON_BUF_INIT_VALUE by omega)
    (le_max_left _ _) (by decide) limits incoming (head.length + 4) with
    ⟨p, got', hloop, hbodyLoop, hcounts⟩
  have hgot : head.length + 4 + (got.drop (head.length + 4)).length = got.length := by omega
  rw [hgot, htotal] at hcounts
  rw [hloop]
  exact .body (le_trans hcomplete (le_arrives _ _ _ _ _)) hsize hbound hbodyLoop hcounts

theorem InHeader.headerLoop (hhead : Head head) {r : Receiver} {got incoming : List UInt8}
    (h : r.InHeader got) (hsplit : got ++ incoming = head ++ HTTP_DELIMITER ++ body)
    (hlt : got.length < head.length + 4) (hroom : got.length < JSON_BUF_INIT_VALUE)
    (limits : List Nat) :
    HeaderLoop head body
      (arrives JSON_BUF_INIT_VALUE (head.length + 4) (head ++ HTTP_DELIMITER ++ body).length limits
        got.length)
      (lastRoom (strstr HTTP_DELIMITER) JSON_BUF_INIT_VALUE limits r incoming)
      (Receiver.readLoop (strstr HTTP_DELIMITER) JSON_BUF_INIT_VALUE limits r incoming) := by
  induction limits generalizing r got incoming with
  | nil => exact .waits h hsplit rfl hlt hroom h.room rfl
  | cons limit limits ih =>
      have htotal := congrArg List.length hsplit
      rw [List.length_append] at htotal
      generalize hread : sslRead limit (JSON_BUF_INIT_VALUE - got.length) incoming = chunk
      have hcount := length_sslRead limit (JSON_BUF_INIT_VALUE - got.length) incoming
      have hsplit' := sslRead_split hread hsplit
      rw [hread] at hcount
      rw [← h.room] at hread
      rw [arrives, if_pos hlt, ← htotal, Nat.add_sub_cancel_left, ← hcount]
      by_cases hchunk : chunk = []
      · rw [hchunk] at hread ⊢
        rw [readLoop_stop _ limits hread, lastRoom_stop _ limits hread]
        exact .waits h hsplit rfl hlt hroom h.room rfl
      · have hpos := List.length_pos_iff.mpr hchunk
        have hlength : (got ++ chunk).length = got.length + chunk.length := List.length_append
        have hp : got ++ chunk <+: head ++ HTTP_DELIMITER ++ body := ⟨_, hsplit'⟩
        rcases h.store chunk (by omega) with ⟨r', hstore, h'⟩
        rw [readLoop_read _ limits hread hchunk hstore, if_neg (by omega), ← hlength, htotal]
        by_cases hlt' : (got ++ chunk).length < head.length + 4
        · by_cases hroom' : (got ++ chunk).length < JSON_BUF_INIT_VALUE
          · have hadvance := h'.advance_incomplete hhead hp hlt' hroom'
            rw [hadvance, lastRoom_read _ limits hread hchunk hstore hadvance]
            exact ih h' hsplit' hlt' hroom'
          · -- the buffer is full of the header, and the search leaves it
            have hle := h'.length_le
            have hfull : (got ++ chunk).length = JSON_BUF_INIT_VALUE := by omega
            rw [h'.advance_overrun hhead hp hlt' hfull, arrives_full hfull hlt']
            exact .full hfull hlt'
        · -- the header is complete with this read
          have hwhole := prefix_of_head_le hp (Nat.le_of_not_lt hlt')
          have harrived : head.length + 4 ≤ arrives JSON_BUF_INIT_VALUE (head.length + 4)
              (head ++ HTTP_DELIMITER ++ body).length limits (got ++ chunk).length :=
            le_trans (by omega) (le_arrives _ _ _ _ _)
          -- a length that is no size throws
          by_cases hgood : ∃ size, getBodySize head = .ok size ∧ 0 < size ∧ size < 2 ^ 63
          · rcases hgood with ⟨size, hsize, hsizePos, hbound⟩
            rcases h'.advance_complete hhead hwhole hsize hsizePos hbound with
              ⟨r'', hadvance, h''⟩
            have hfits := h'.length_le
            have hdrop : ((got ++ chunk).drop (head.length + 4)).length =
                (got ++ chunk).length - (head.length + 4) := List.length_drop
            by_cases hdone : ((got ++ chunk).drop (head.length + 4)).length = size
            · rw [hadvance, decide_eq_true hdone]
              exact .body harrived hsize hbound ⟨rfl, h'', by omega, .inl hdone⟩ (by omega)
            · rw [decide_eq_false hdone] at hadvance
              rw [hadvance, lastRoom_read _ limits hread hchunk hstore hadvance]
              exact h''.headerLoop hsize hbound hfits (Nat.le_of_not_lt hlt') hsplit' limits
          · have hbad : ∀ size, getBodySize head = .ok size → ¬ (0 < size ∧ size < 2 ^ 63) :=
              fun size hsize hrange ↦ hgood ⟨size, hsize, hrange⟩
            rcases h'.advance_throws hhead hwhole hbad with ⟨what, s, hadvance⟩
            rw [hadvance]
            exact .throws harrived hbad

/-! ## The calls -/

/-- Where the receiver is behind a call that has not filled the first buffer. -/
inductive Stage (head body : List UInt8) (arrived : Nat) (p : Progress) : Prop where
  | header {got} : p.receiver.InHeader got →
      got ++ p.incoming = head ++ HTTP_DELIMITER ++ body → got.length = arrived →
      arrived < head.length + 4 → arrived < JSON_BUF_INIT_VALUE → Stage head body arrived p
  | body {got size full} : head.length + 4 ≤ arrived → p.receiver.InBody size full got →
      full ≤ size → size < 2 ^ 63 → Stage head body arrived p

/-- A call that starts in the header offers room exactly if it does not fill the first buffer. -/
theorem HeaderLoop.offersRoom {limits : List Nat} {r : Receiver} {got incoming : List UInt8}
    (h : r.InHeader got) {arrived : Nat}
    (hloop : HeaderLoop head body arrived
      (lastRoom (strstr HTTP_DELIMITER) JSON_BUF_INIT_VALUE limits r incoming)
      (Receiver.readLoop (strstr HTTP_DELIMITER) JSON_BUF_INIT_VALUE limits r incoming)) :
    (OffersRoom limits r incoming ↔ ¬ FillsBuffer head arrived) ∧
      (∀ p, r.onRead (strstr HTTP_DELIMITER) .done limits incoming = .returned p →
        Stage head body arrived p) ∧
      (arrived < head.length + 4 → ¬ FillsBuffer head arrived →
        ∃ p, r.onRead (strstr HTTP_DELIMITER) .done limits incoming = .returned p ∧
          p.body = none) := by
  have hinit : JSON_BUF_INIT_VALUE = 5000 := rfl
  unfold OffersRoom FillsBuffer
  rw [h.reading.onRead, h.length]
  generalize lastRoom (strstr HTTP_DELIMITER) JSON_BUF_INIT_VALUE limits r incoming = room
    at hloop ⊢
  generalize Receiver.readLoop (strstr HTTP_DELIMITER) JSON_BUF_INIT_VALUE limits r incoming = o
    at hloop
  cases hloop with
  | waits hin hsplit hlength hlt hless hroom hbody =>
      rw [Outcome.andThen_returned, hin.finish (by omega)]
      refine ⟨iff_of_true (Outcome.ensures_returned fun _ ↦ by omega) (by omega), ?_,
        fun _ _ ↦ ⟨_, rfl, hbody⟩⟩
      intro p' hp'
      cases hp'
      exact .header hin hsplit hlength hlt hless
  | full hfull hlt =>
      exact ⟨iff_of_false (fun h ↦ h.1 rfl) (not_not.mpr (.inl ⟨hfull, hlt⟩)), nofun,
        fun _ hnot ↦ (hnot (.inl ⟨hfull, hlt⟩)).elim⟩
  | throws hle hbad =>
      refine ⟨iff_of_true (Outcome.ensures_threw _ _ _) ?_, nofun, fun hlt ↦ by omega⟩
      rintro (hfull | ⟨-, size, hsize, hlarge, hbound⟩)
      · omega
      · exact hbad size hsize ⟨by omega, hbound⟩
  | @body p got' size hle hsize hbound hbodyLoop hcounts =>
      rcases hbodyLoop.inBody.finish (le_max_right _ _) with ⟨p', hfinish, hreceiver⟩
      have hinBody := hbodyLoop.inBody
      have hroom := hbodyLoop.room
      have hgot := hbodyLoop.length_le
      rw [← hreceiver] at hinBody
      rw [Outcome.andThen_returned, hfinish]
      refine ⟨?_, ?_, fun hlt ↦ by omega⟩
      · apply Iff.intro
        · -- with the buffer full of a part of the body there was no room
          rintro hoffers (hfull | ⟨hfull, size', hsize', hlarge, -⟩)
          · omega
          · rw [hsize] at hsize'
            cases hsize'
            have hcount := hcounts hlarge
            have hpositive := hoffers.2 p' rfl (hinBody.incomplete_iff.mpr (by omega))
            omega
        · intro hfills
          apply Outcome.ensures_returned
          intro hincomplete
          have hless := hinBody.incomplete_iff.mp hincomplete
          by_contra hzero
          apply hfills
          right
          have hlarge : JSON_BUF_INIT_VALUE < size := by omega
          have hcount := hcounts hlarge
          exact ⟨by omega, size, hsize, hlarge, hbound⟩
      · intro p'' hp''
        cases hp''
        exact .body hle hinBody (le_max_right _ _) (max_lt (by decide) hbound)

theorem roomy_complete (body : List UInt8) (calls : List (List Nat)) {got : Nat}
    (h : head.length + 4 ≤ got) : Roomy head body calls got := by
  cases calls with
  | nil => trivial
  | cons limits calls => exact .inl h

theorem Stage.keepsRoom (hhead : Head head) {arrived : Nat} {p : Progress}
    (h : Stage head body arrived p) (calls : List (List Nat)) :
    KeepsRoom calls p.receiver p.incoming ↔ Roomy head body calls arrived := by
  induction calls generalizing arrived p with
  | nil => exact Iff.rfl
  | cons limits calls ih =>
      rw [Roomy]
      cases h with
      | body hle hinBody hfull hbound =>
          exact iff_of_true (hinBody.keepsRoom hfull hbound _) (.inl hle)
      | header hin hsplit hlength hlt hroom =>
          rw [← hlength] at hlt hroom ⊢
          have hcall := (hin.headerLoop hhead hsplit hlt hroom limits).offersRoom hin
          generalize arrives JSON_BUF_INIT_VALUE (head.length + 4)
            (head ++ HTTP_DELIMITER ++ body).length limits _ = next at hcall ⊢
          rcases hcall with ⟨hoffers, hstage, hreturns⟩
          rw [KeepsRoom, hoffers, or_iff_right (not_le.mpr hlt)]
          apply and_congr_right
          intro hroomy
          by_cases hcomplete : head.length + 4 ≤ next
          · have hrest := roomy_complete body calls hcomplete
            exact iff_of_true (fun p' hp' _ ↦ (ih (hstage p' hp')).mpr hrest) hrest
          · rcases hreturns (by omega) hroomy with ⟨p', hp', hbody⟩
            rw [← ih (hstage p' hp')]
            apply Iff.intro
            · exact fun h ↦ h p' hp' hbody
            · intro h p'' hp''
              rw [hp'] at hp''
              cases hp''
              exact fun _ ↦ h

theorem requested_stage (head body : List UInt8) :
    Stage head body 0 ⟨requested, head ++ HTTP_DELIMITER ++ body, none⟩ :=
  .header requested_inHeader rfl rfl (Nat.succ_pos _) (by decide)

/-- Whenever a call returns with something missing there was room for its last `SSL_read`, exactly
if no call up to the one that completes the header fills the first buffer. -/
theorem keepsRoom_iff (hhead : Head head) (body : List UInt8) (calls : List (List Nat)) :
    KeepsRoom calls requested (head ++ HTTP_DELIMITER ++ body) ↔ Roomy head body calls 0 :=
  (requested_stage head body).keepsRoom hhead calls

theorem length_okResponse :
    (okHeader "6000" ++ HTTP_DELIMITER ++ List.replicate 6000 0x20).length = 6041 := by
  rw [length_response, List.length_replicate]
  rfl

/-- The header comes in a call of its own, and the body in the next one. -/
theorem keepsRoom_iff_example :
    KeepsRoom [[41], [4000, 2000]] requested
      (okHeader "6000" ++ HTTP_DELIMITER ++ List.replicate 6000 0x20) := by
  have hhead : Head (okHeader "6000") := Head.of_strstr (by decide +kernel)
  have harrives : arrives JSON_BUF_INIT_VALUE ((okHeader "6000").length + 4) 6041 [41] 0 = 41 := by
    decide
  rw [keepsRoom_iff hhead, Roomy, length_okResponse, harrives]
  refine .inr ⟨?_, roomy_complete _ _ (by decide)⟩
  rintro (h | h)
  · exact absurd h.1 (by decide)
  · exact absurd h.1 (by decide)

/-- The first 5000 bytes of a longer body come in one call with the header. -/
theorem no_room_behind_header :
    Head (okHeader "6000") ∧ getBodySize (okHeader "6000") = .ok 6000 ∧
      ¬ KeepsRoom [[5000, 5000]] requested
        (okHeader "6000" ++ HTTP_DELIMITER ++ List.replicate 6000 0x20) := by
  have hhead : Head (okHeader "6000") := Head.of_strstr (by decide +kernel)
  have hsize : getBodySize (okHeader "6000") = .ok 6000 := by rfl
  refine ⟨hhead, hsize, ?_⟩
  have harrives : arrives JSON_BUF_INIT_VALUE ((okHeader "6000").length + 4) 6041 [5000, 5000] 0 =
      5041 := by decide
  have hroomy := (requested_stage _ (List.replicate 6000 0x20)).keepsRoom hhead [[5000, 5000]]
  rw [Roomy, length_okResponse, harrives] at hroomy
  rw [hroomy]
  rintro (h | ⟨h, -⟩)
  · exact absurd h (by decide)
  · exact h (.inr ⟨rfl, 6000, hsize, by decide, by decide⟩)

end Receiver

end Tob
