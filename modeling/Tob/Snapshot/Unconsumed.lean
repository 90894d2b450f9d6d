import Tob.Snapshot.Header

/-!
# The buffer of the receiver

What `m_buffer` holds while a response comes in, for a search that stays in the buffer: the buffer
is doubled, replaced or shifted in a loop that goes on with the size it had before.
-/

namespace Tob

/-- `strstr` on a buffer with a NUL byte behind its end. -/
def boundedSearch (buffer : List UInt8) : Search :=
  match strstr HTTP_DELIMITER buffer with
  | .overrun => .ended
  | result => result

/-- The bytes in front of the first delimiter. -/
def headerPart (stream : List UInt8) : List UInt8 := textBefore HTTP_DELIMITER stream

/-- The bytes behind the first delimiter. -/
def bodyPart (stream : List UInt8) : List UInt8 := stream.drop ((headerPart stream).length + 4)

/-! ## The search -/

theorem boundedSearch_eq_found {buffer : List UInt8} {delim : Nat} :
    boundedSearch buffer = .found delim ↔ strstr HTTP_DELIMITER buffer = .found delim := by
  unfold boundedSearch
  cases strstr HTTP_DELIMITER buffer with
  | found index => exact Iff.rfl
  | ended => exact Iff.rfl
  | overrun => exact iff_of_false nofun nofun

theorem boundedSearch_ne_overrun (buffer : List UInt8) : boundedSearch buffer ≠ .overrun := by
  unfold boundedSearch
  cases strstr HTTP_DELIMITER buffer with
  | found index => exact nofun
  | ended => exact nofun
  | overrun => exact nofun

theorem firstAt_delimiter_le {text : List UInt8} {index : Nat}
    (h : FirstAt HTTP_DELIMITER text index) : index + 4 ≤ text.length :=
  h.1.length_le delimiter_ne_nil

/-- What is found over zeros is the first delimiter in what has been received. -/
theorem firstAt_of_boundedSearch {received : List UInt8} {room delim : Nat}
    (h : boundedSearch (received ++ List.replicate room 0) = .found delim) :
    FirstAt HTTP_DELIMITER received delim := by
  have hfound := boundedSearch_eq_found.mp h
  have hat := occursAt_of_strstr hfound
  have hfirst := first_of_strstr hfound
  have hend : delim + 4 ≤ received.length := by
    cases room with
    | zero =>
        rw [List.replicate_zero, List.append_nil] at hat
        exact hat.length_le delimiter_ne_nil
    | succ room =>
        rw [List.replicate_succ] at hat hfirst
        apply hat.before_zero delimiter_ne_zero
        -- the search does not get over the first zero
        by_contra hbehind
        apply hfirst.2 0 _ rfl
        rw [List.take_append, List.take_cons (by omega)]
        exact List.mem_append_right _ List.mem_cons_self
  refine ⟨hat.of_append hend, ?_⟩
  intro i hi hearlier
  exact hfirst.1 i hi (hearlier.append (by omega) _)

/-- If nothing is found, nothing is there. -/
theorem no_delimiter_of_boundedSearch {stream received : List UInt8}
    (htext : ∀ b ∈ headerPart stream, b ≠ 0) (hp : received <+: stream) {room : Nat}
    (h : ∀ delim, boundedSearch (received ++ List.replicate room 0) ≠ .found delim) :
    ¬ HTTP_DELIMITER <:+: received := by
  intro hinfix
  rcases exists_firstAt hinfix with ⟨delim, hfirst⟩
  have hend := firstAt_delimiter_le hfirst
  rcases hp with ⟨more, hstream⟩
  have hheader : headerPart stream = received.take delim := by
    have hwhole := hfirst.append hend more
    rw [hstream] at hwhole
    have hle := firstAt_delimiter_le hwhole
    rw [headerPart, hwhole.textBefore (by omega), ← hstream,
      List.take_append_of_le_length (by omega)]
  have hbuffer := hfirst.append hend (List.replicate room 0)
  apply h delim
  apply boundedSearch_eq_found.mpr
  apply strstr_eq_found _ hbuffer.1 hbuffer.2
  · rw [List.take_append_of_le_length (by omega), ← hheader]
    exact htext
  · rw [List.length_append]
    omega

-- The header part of what has been received, and what is behind it.
theorem FirstAt.bodyPart {received : List UInt8} {delim : Nat}
    (h : FirstAt HTTP_DELIMITER received delim) :
    bodyPart received = received.drop (delim + 4) := by
  have hend := firstAt_delimiter_le h
  rw [Tob.bodyPart, headerPart, h.textBefore (by omega), List.length_take,
    Nat.min_eq_left (by omega)]

namespace Receiver

/-! ## What the buffer holds -/

/-- Before the header is complete: all that has been received, and zeros. -/
structure HoldsHeader (received : List UInt8) (r : Receiver) : Prop where
  reading : r.Reading
  ready : r.mReadyToReceiveJson = false
  mReadOffset : r.mReadOffset = received.length
  fits : received.length ≤ r.mBuffer.length
  bound : r.mBuffer.length < 2 ^ 63
  mBuffer : r.mBuffer = received ++ List.replicate (r.mBuffer.length - received.length) 0

/-- Where the receiver is in the stream between two reads. -/
inductive Place (received : List UInt8) (r : Receiver) : Prop where
  | header : HoldsHeader received r → received.length < r.mBuffer.length →
      ¬ HTTP_DELIMITER <:+: received → Place received r
  | body {delim size full} : FirstAt HTTP_DELIMITER received delim →
      InBody size full (received.drop (delim + 4)) r → full ≤ size → size < 2 ^ 63 →
      Place received r

theorem requested_place : Place [] requested := by
  have hlength : requested.mBuffer.length = JSON_BUF_INIT_VALUE := List.length_replicate
  have hempty : requested.mBuffer =
      [] ++ List.replicate (requested.mBuffer.length - ([] : List UInt8).length) 0 := by
    rw [hlength, List.length_nil, Nat.sub_zero, List.nil_append]
    rfl
  refine .header ⟨⟨rfl, rfl⟩, rfl, rfl, Nat.zero_le _, ?_, hempty⟩ ?_ ?_
  · rw [hlength]
    decide
  · rw [hlength]
    decide
  · intro h
    exact absurd (List.infix_nil.mp h) delimiter_ne_nil

theorem Place.reading {received : List UInt8} {r : Receiver} (h : Place received r) :
    r.Reading := by
  cases h with
  | header h => exact h.reading
  | body _ h => exact h.reading

theorem Place.mReadOffset_le {received : List UInt8} {r : Receiver} (h : Place received r) :
    r.mReadOffset ≤ r.mBuffer.length := by
  cases h with
  | header h hroom =>
      rw [h.mReadOffset]
      exact h.fits
  | body _ h =>
      rw [h.mReadOffset, h.length]
      exact h.length_le

theorem Place.length_lt {received : List UInt8} {r : Receiver} (h : Place received r) :
    r.mBuffer.length < 2 ^ 63 := by
  cases h with
  | header h => exact h.bound
  | body _ h _ hsize =>
      rw [h.length]
      exact hsize

/-! ## A read -/

theorem HoldsHeader.store {received : List UInt8} {r : Receiver} (h : r.HoldsHeader received)
    (chunk : List UInt8) (hroom : received.length + chunk.length ≤ r.mBuffer.length) :
    ∃ r', r.store chunk = some r' ∧ r'.HoldsHeader (received ++ chunk) ∧
      r'.mBuffer.length = r.mBuffer.length := by
  have hzeros : r.mBuffer.length - received.length - chunk.length =
      r.mBuffer.length - (received ++ chunk).length := by
    rw [List.length_append]
    omega
  have hwrite := writeAt_zeros (Eq.refl received.length)
    (show chunk.length ≤ r.mBuffer.length - received.length by omega)
  rw [← h.mBuffer, hzeros] at hwrite
  have hlength := length_writeAt hwrite
  rw [Receiver.store, h.mReadOffset, hwrite, Option.map_some]
  refine ⟨_, rfl, ⟨⟨h.reading.waits, h.reading.connected⟩, h.ready, ?_, ?_, ?_, ?_⟩, hlength⟩
  · exact List.length_append.symm
  · show (received ++ chunk).length ≤ List.length _
    rw [hlength, List.length_append]
    exact hroom
  · show List.length _ < _
    rw [hlength]
    exact h.bound
  · show _ = received ++ chunk ++ List.replicate (List.length _ - _) 0
    rw [hlength]

/-- A full buffer is copied to the front of a larger one. -/
theorem HoldsHeader.copyTo_zeros {received : List UInt8} {r : Receiver}
    (h : r.HoldsHeader received) (hfull : r.mReadOffset = r.mBuffer.length) {size : Nat}
    (hle : received.length ≤ size) :
    r.copyTo 0 (List.replicate size 0) =
      some (received ++ List.replicate (size - received.length) 0) := by
  have hbuffer : r.mBuffer = received := by
    have hmBuffer := h.mBuffer
    rw [← hfull, h.mReadOffset, Nat.sub_self, List.replicate_zero, List.append_nil] at hmBuffer
    exact hmBuffer
  have hread : readAt r.mBuffer 0 r.mReadOffset = some received := by
    rw [hfull, readAt, if_pos (by omega), List.drop_zero, List.take_length, hbuffer]
  have hwrite : writeAt ([] ++ List.replicate size 0) 0 received = _ := writeAt_zeros rfl hle
  rw [List.nil_append, List.nil_append] at hwrite
  rw [copyTo, hread, Option.bind_some, hwrite]

/-- A full buffer without a delimiter is doubled. -/
theorem HoldsHeader.processHeader_ended {received : List UInt8} {r : Receiver}
    (h : r.HoldsHeader received) (hended : boundedSearch r.mBuffer = .ended) (hne : received ≠ []) :
    (r.processHeader boundedSearch).Ensures fun s ↦
      s.1.HoldsHeader received ∧ received.length < s.1.mBuffer.length ∧
        r.mBuffer.length ≤ s.1.mBuffer.length := by
  have hpos := List.length_pos_iff.mpr hne
  have hfits := h.fits
  rw [processHeader, hended]
  simp only
  by_cases hfull : r.mReadOffset = r.mBuffer.length
  · rw [if_pos hfull]
    by_cases hhuge : 2 ^ 63 ≤ 2 * r.mBuffer.length
    · rw [if_pos hhuge]
      exact Outcome.ensures_threw _ _ _
    · have hcopy := h.copyTo_zeros hfull (show received.length ≤ 2 * r.mBuffer.length by omega)
      generalize hgrown : received ++
        List.replicate (2 * r.mBuffer.length - received.length) (0 : UInt8) = mBuffer at hcopy
      have hlength : mBuffer.length = 2 * r.mBuffer.length := by
        rw [← hgrown, List.length_append, List.length_replicate]
        omega
      rw [if_neg hhuge, hcopy, Outcome.attempt_some]
      apply Outcome.ensures_returned
      refine ⟨⟨⟨h.reading.waits, h.reading.connected⟩, h.ready, h.mReadOffset, ?_, ?_, ?_⟩, ?_, ?_⟩
      · show received.length ≤ mBuffer.length
        omega
      · show mBuffer.length < 2 ^ 63
        omega
      · show mBuffer = received ++ List.replicate (mBuffer.length - received.length) 0
        rw [hlength, hgrown]
      · show received.length < mBuffer.length
        omega
      · show r.mBuffer.length ≤ mBuffer.length
        omega
  · rw [if_neg hfull]
    rw [h.mReadOffset] at hfull
    exact Outcome.ensures_returned ⟨h, lt_of_le_of_ne hfits hfull, le_refl _⟩

/-- The first delimiter ends the header, or what stands in it throws. -/
theorem HoldsHeader.processHeader_found {received : List UInt8} {r : Receiver}
    (h : r.HoldsHeader received) {delim : Nat} (hfound : boundedSearch r.mBuffer = .found delim) :
    (r.processHeader boundedSearch).Ensures fun s ↦
      FirstAt HTTP_DELIMITER received delim ∧ ∃ size, size < 2 ^ 63 ∧
        s.1.InBody (max r.mBuffer.length size) size (received.drop (delim + 4)) := by
  have hfirst : FirstAt HTTP_DELIMITER received delim := by
    have hbuffer := hfound
    rw [h.mBuffer] at hbuffer
    exact firstAt_of_boundedSearch hbuffer
  have hend := firstAt_delimiter_le hfirst
  have hgot : r.mBuffer.take r.mReadOffset = received := by
    rw [h.mReadOffset, h.mBuffer, List.take_left]
  have hbound := h.bound
  have hset : (r.mBuffer.set delim 0).length = r.mBuffer.length := List.length_set
  cases hsize : getBodySize (cString (r.mBuffer.set delim 0)) with
  | error what =>
      rw [processHeader, hfound]
      simp only
      rw [hsize]
      exact Outcome.ensures_threw _ _ _
  | ok size =>
      -- any length but a size throws
      by_cases hgood : 0 < size ∧ size < 2 ^ 63
      · rcases Receiver.processHeader_found h.reading hfound (by rw [h.mReadOffset]; exact hend)
          (by rw [h.mReadOffset]; exact h.fits) hbound hsize hgood.1 hgood.2 with ⟨r₁, he, hbody⟩
        rw [hgot] at hbody
        rw [he]
        exact Outcome.ensures_returned ⟨hfirst, size, hgood.2, hbody⟩
      · rw [processHeader, hfound]
        simp only
        rw [hsize]
        simp only
        by_cases hzero : size = 0
        · rw [if_pos hzero]
          exact Outcome.ensures_threw _ _ _
        · rw [if_neg hzero, hset, if_pos (by omega), if_pos (by omega)]
          exact Outcome.ensures_threw _ _ _

theorem HoldsHeader.processHeader {stream received : List UInt8}
    (htext : ∀ b ∈ headerPart stream, b ≠ 0) {r : Receiver} (h : r.HoldsHeader received)
    (hp : received <+: stream) (hne : received ≠ []) :
    (r.processHeader boundedSearch).Ensures fun s ↦
      Place received s.1 ∧ s.1.mReadOffset ≤ r.mReadOffset ∧
        r.mBuffer.length ≤ s.1.mBuffer.length := by
  -- the search decides whether the header is still coming in
  cases hsearch : boundedSearch r.mBuffer with
  | overrun => exact absurd hsearch (boundedSearch_ne_overrun _)
  | ended =>
      have hnone : ¬ HTTP_DELIMITER <:+: received := by
        apply no_delimiter_of_boundedSearch htext hp
        intro delim hfound
        rw [← h.mBuffer, hsearch] at hfound
        cases hfound
      apply (h.processHeader_ended hsearch hne).imp
      rintro s ⟨hholds, hroom, hgrows⟩
      exact ⟨.header hholds hroom hnone, by rw [hholds.mReadOffset, h.mReadOffset], hgrows⟩
  | found delim =>
      apply (h.processHeader_found hsearch).imp
      rintro s ⟨hfirst, size, hsize, hbody⟩
      refine ⟨.body hfirst hbody (le_max_right _ _) (max_lt h.bound hsize), ?_, ?_⟩
      · rw [hbody.mReadOffset, h.mReadOffset, List.length_drop]
        exact Nat.sub_le _ _
      · rw [hbody.length]
        exact le_max_left _ _

-- In the header a read goes to `process_header`.
theorem advance_ensures {search : List UInt8 → Search} {r : Receiver} {P : Receiver → Prop}
    (hready : r.mReadyToReceiveJson = false)
    (h : (r.processHeader search).Ensures fun s ↦ P s.1) :
    (r.advance search).Ensures fun s ↦ P s.1 := by
  rw [Receiver.advance, if_neg (by rw [hready]; decide)]
  cases hprocess : r.processHeader search with
  | returned s => exact Outcome.ensures_returned (h.2 s hprocess)
  | threw what s => exact Outcome.ensures_threw _ _ _
  | aborted s => exact Outcome.ensures_aborted _ _
  | undefined => exact absurd hprocess h.1

theorem HoldsHeader.advance {stream received : List UInt8}
    (htext : ∀ b ∈ headerPart stream, b ≠ 0) {r : Receiver} (h : r.HoldsHeader received)
    (hp : received <+: stream) (hne : received ≠ []) :
    (r.advance boundedSearch).Ensures fun s ↦
      Place received s.1 ∧ s.1.mReadOffset ≤ r.mReadOffset ∧
        r.mBuffer.length ≤ s.1.mBuffer.length :=
  advance_ensures (P := fun s ↦ Place received s ∧ s.mReadOffset ≤ r.mReadOffset ∧
    r.mBuffer.length ≤ s.mBuffer.length) h.ready (h.processHeader htext hp hne)

/-- A read is stored behind what is there, and the loop goes on within the buffer. -/
theorem Place.read {stream received chunk : List UInt8} (htext : ∀ b ∈ headerPart stream, b ≠ 0)
    {r : Receiver} (h : Place received r) (hp : received ++ chunk <+: stream) (hne : chunk ≠ [])
    {stale : Nat} (hfits : r.mReadOffset + chunk.length ≤ stale) (hle : stale ≤ r.mBuffer.length) :
    ∃ r₁, r.store chunk = some r₁ ∧ (r₁.advance boundedSearch).Ensures fun s ↦
      Place (received ++ chunk) s.1 ∧ s.1.mReadOffset ≤ stale ∧ stale ≤ s.1.mBuffer.length := by
  cases h with
  | header h hroom hnone =>
      rw [h.mReadOffset] at hfits
      rcases h.store chunk (by omega) with ⟨r₁, hstore, h₁, hlength⟩
      refine ⟨r₁, hstore, ?_⟩
      apply (h₁.advance htext hp (List.append_ne_nil_of_right_ne_nil _ hne)).imp
      rintro s ⟨hplace, hoffset, hgrows⟩
      rw [h₁.mReadOffset, List.length_append] at hoffset
      exact ⟨hplace, by omega, by omega⟩
  | @body delim size full hfirst h hfull hsize =>
      have hend := firstAt_delimiter_le hfirst
      rw [h.mReadOffset] at hfits
      rw [h.length] at hle
      rcases h.store chunk (by omega) with ⟨r₁, hstore, h₁⟩
      rw [← List.drop_append_of_le_length hend] at h₁
      refine ⟨r₁, hstore, ?_⟩
      rw [h₁.advance]
      apply Outcome.ensures_returned
      refine ⟨.body (hfirst.append hend chunk) h₁ hfull hsize, ?_, ?_⟩
      · rw [h₁.mReadOffset, List.drop_append_of_le_length hend, List.length_append]
        exact hfits
      · rw [h₁.length]
        exact hle

/-! ## The loop and the calls -/

/-- Where the loop leaves the receiver: `stale` is still within the buffer. -/
structure Loops (stream : List UInt8) (stale : Nat) (p : Progress) : Prop where
  body : p.body = none
  place : ∃ received, received ++ p.incoming = stream ∧ Place received p.receiver
  mReadOffset : p.receiver.mReadOffset ≤ stale
  length : stale ≤ p.receiver.mBuffer.length

theorem Place.readLoop {stream received incoming : List UInt8}
    (htext : ∀ b ∈ headerPart stream, b ≠ 0) {r : Receiver} (h : Place received r)
    (hsplit : received ++ incoming = stream) {stale : Nat} (hoffset : r.mReadOffset ≤ stale)
    (hle : stale ≤ r.mBuffer.length) (limits : List Nat) :
    (r.readLoop boundedSearch stale limits incoming).Ensures (Loops stream stale) := by
  have hstays : Loops stream stale ⟨r, incoming, none⟩ := ⟨rfl, ⟨received, hsplit, h⟩, hoffset, hle⟩
  induction limits generalizing r received incoming with
  | nil => exact Outcome.ensures_returned hstays
  | cons limit limits ih =>
      have hbound := h.length_lt
      have hroom : r.room stale = stale - r.mReadOffset := room_eq hoffset (by omega)
      generalize hread : sslRead limit (r.room stale) incoming = chunk
      -- nothing read ends the loop where it is
      by_cases hchunk : chunk = []
      · rw [hchunk] at hread
        rw [readLoop_stop boundedSearch limits hread]
        exact Outcome.ensures_returned hstays
      · have hlength := sslRead_length_le limit (r.room stale) incoming
        have hsplit' := sslRead_split hread hsplit
        rw [hread] at hlength
        rcases h.read htext ⟨_, hsplit'⟩ hchunk (by omega) hle with ⟨r₁, hstore, hadvanced⟩
        rw [readLoop_read boundedSearch limits hread hchunk hstore]
        cases hadvance : r₁.advance boundedSearch with
        | returned s =>
            rcases hadvanced.2 s hadvance with ⟨hs, hs', hs''⟩
            match s with
            | (r', true) => exact Outcome.ensures_returned ⟨rfl, ⟨_, hsplit', hs⟩, hs', hs''⟩
            | (r', false) => exact ih hs hsplit' hs' hs'' ⟨rfl, ⟨_, hsplit', hs⟩, hs', hs''⟩
        | threw what s => exact Outcome.ensures_threw _ _ _
        | aborted s => exact Outcome.ensures_aborted _ _
        | undefined => exact absurd hadvance hadvanced.1

/-- The test behind the loop does not read behind the buffer. -/
theorem Place.finish {received : List UInt8} {p : Progress} (h : Place received p.receiver) :
    (Receiver.finish p).Ensures fun p' ↦
      p'.receiver = p.receiver ∧ p'.incoming = p.incoming := by
  unfold Receiver.finish
  by_cases hfull : p.receiver.mReadOffset = p.receiver.mBuffer.length
  · rw [if_pos hfull]
    cases h with
    | header h hroom =>
        rw [h.mReadOffset] at hfull
        omega
    | body _ h hle =>
        have hread : readAt p.receiver.mBuffer 0 p.receiver.mJsonFullSize =
            some (p.receiver.mBuffer.take p.receiver.mJsonFullSize) := by
          rw [readAt, if_pos (by rw [h.mJsonFullSize, h.length]; omega), List.drop_zero]
        rw [hread, Outcome.attempt_some]
        exact Outcome.ensures_returned ⟨rfl, rfl⟩
  · rw [if_neg hfull]
    exact Outcome.ensures_returned ⟨rfl, rfl⟩

/-- Where the receiver is in the stream behind a call. -/
def At (stream : List UInt8) (p : Progress) : Prop :=
  ∃ received, received ++ p.incoming = stream ∧ Place received p.receiver

theorem Place.onRead {stream received incoming : List UInt8}
    (htext : ∀ b ∈ headerPart stream, b ≠ 0) {r : Receiver} (h : Place received r)
    (hsplit : received ++ incoming = stream) (limits : List Nat) :
    (r.onRead boundedSearch .done limits incoming).Ensures (At stream) := by
  rw [h.reading.onRead]
  apply (h.readLoop htext hsplit h.mReadOffset_le (le_refl _) limits).andThen
  intro q hq
  rcases hq.place with ⟨received', hsplit', hplace⟩
  apply hplace.finish.imp
  rintro p ⟨hreceiver, hincoming⟩
  refine ⟨received', ?_, ?_⟩
  · rw [hincoming]
    exact hsplit'
  · rw [hreceiver]
    exact hplace

theorem Place.run {stream received incoming : List UInt8}
    (htext : ∀ b ∈ headerPart stream, b ≠ 0) {r : Receiver} (h : Place received r)
    (hsplit : received ++ incoming = stream) (calls : List (List Nat)) :
    (Receiver.run boundedSearch calls r incoming).Ensures (At stream) := by
  induction calls generalizing r received incoming with
  | nil => exact Outcome.ensures_returned ⟨received, hsplit, h⟩
  | cons limits calls ih =>
      rw [Receiver.run]
      apply (h.onRead htext hsplit limits).andThen
      intro p hp
      by_cases hbody : p.body.isSome = true
      · rw [if_pos hbody]
        exact Outcome.ensures_returned hp
      · rw [if_neg hbody]
        rcases hp with ⟨received', hsplit', hplace⟩
        exact ih hplace hsplit'

/-! ## Every point of a call -/

/-- What the buffer holds of the bytes received. -/
structure HoldsUnconsumed (received : List UInt8) (r : Receiver) : Prop where
  mReadOffset : r.mReadOffset ≤ r.mBuffer.length
  header : r.mReadyToReceiveJson = false → r.mBuffer.take r.mReadOffset = received ∧
    ∀ b ∈ r.mBuffer.drop r.mReadOffset, b = 0
  body : r.mReadyToReceiveJson = true → HTTP_DELIMITER <:+: received ∧
    r.mBuffer.take r.mReadOffset = bodyPart received ∧ r.mJsonFullSize ≤ r.mBuffer.length

theorem HoldsHeader.holdsUnconsumed {received : List UInt8} {r : Receiver}
    (h : r.HoldsHeader received) : HoldsUnconsumed received r := by
  refine ⟨by rw [h.mReadOffset]; exact h.fits, fun _ ↦ ?_, ?_⟩
  · rw [h.mReadOffset, h.mBuffer, List.take_left, List.drop_left]
    exact ⟨rfl, fun b hb ↦ List.eq_of_mem_replicate hb⟩
  · intro hready
    rw [h.ready] at hready
    cases hready

theorem InBody.holdsUnconsumed {received : List UInt8} {r : Receiver} {delim size full : Nat}
    (h : r.InBody size full (received.drop (delim + 4)))
    (hfirst : FirstAt HTTP_DELIMITER received delim) (hfull : full ≤ size) :
    HoldsUnconsumed received r := by
  refine ⟨?_, ?_, fun _ ↦ ⟨hfirst.1.isInfix, ?_, ?_⟩⟩
  · rw [h.mReadOffset, h.length]
    exact h.length_le
  · intro hready
    rw [h.ready] at hready
    cases hready
  · rw [hfirst.bodyPart, h.mReadOffset]
    exact (List.prefix_iff_eq_take.mp h.mBuffer).symm
  · rw [h.mJsonFullSize, h.length]
    exact hfull

/-- Between two reads the header is taken off as soon as its delimiter is there. -/
theorem Place.holdsUnconsumed {received : List UInt8} {r : Receiver} (h : Place received r) :
    HoldsUnconsumed received r ∧
      (r.mReadyToReceiveJson = true ↔ HTTP_DELIMITER <:+: received) := by
  cases h with
  | header h _ hnone =>
      refine ⟨h.holdsUnconsumed, iff_of_false ?_ hnone⟩
      rw [h.ready]
      exact Bool.false_ne_true
  | body hfirst h hfull _ =>
      exact ⟨h.holdsUnconsumed hfirst hfull, iff_of_true h.ready hfirst.1.isInfix⟩

-- Right behind a read, before the header is looked for.
theorem Place.stored {received : List UInt8} {r : Receiver} (h : Place received r)
    {chunk : List UInt8} (hfits : r.mReadOffset + chunk.length ≤ r.mBuffer.length) :
    ∃ r₁, r.store chunk = some r₁ ∧ HoldsUnconsumed (received ++ chunk) r₁ := by
  cases h with
  | header h hroom hnone =>
      rw [h.mReadOffset] at hfits
      rcases h.store chunk hfits with ⟨r₁, hstore, h₁, -⟩
      exact ⟨r₁, hstore, h₁.holdsUnconsumed⟩
  | body hfirst h hfull hsize =>
      have hend := firstAt_delimiter_le hfirst
      rw [h.mReadOffset, h.length] at hfits
      rcases h.store chunk hfits with ⟨r₁, hstore, h₁⟩
      rw [← List.drop_append_of_le_length hend] at h₁
      exact ⟨r₁, hstore, h₁.holdsUnconsumed (hfirst.append hend chunk) hfull⟩

/-- At every point of every call the buffer holds the unconsumed input, and the room offered to
`SSL_read` is in the buffer. -/
theorem buffer_holds_unconsumed {stream : List UInt8} (htext : ∀ b ∈ headerPart stream, b ≠ 0)
    (calls : List (List Nat)) :
    run boundedSearch calls requested stream ≠ .undefined ∧
      ∀ p, run boundedSearch calls requested stream = .returned p → p.body = none → ∀ limits,
        let stale := p.receiver.mBuffer.length
        readLoop boundedSearch stale limits p.receiver p.incoming ≠ .undefined ∧
          ∀ q, readLoop boundedSearch stale limits p.receiver p.incoming = .returned q →
            ∃ received, received ++ q.incoming = stream ∧ HoldsUnconsumed received q.receiver ∧
              (q.receiver.mReadyToReceiveJson = true ↔ HTTP_DELIMITER <:+: received) ∧
              q.receiver.room stale + q.receiver.mReadOffset = stale ∧
              q.receiver.room stale ≤ q.receiver.mBuffer.length - q.receiver.mReadOffset ∧
              ∀ limit, let chunk := sslRead limit (q.receiver.room stale) q.incoming
                ∃ r, q.receiver.store chunk = some r ∧ HoldsUnconsumed (received ++ chunk) r := by
  have hrun := requested_place.run htext rfl calls
  refine ⟨hrun.1, ?_⟩
  intro p hp _ limits stale
  rcases hrun.2 p hp with ⟨got, hgot, hplace⟩
  have hloop := hplace.readLoop htext hgot hplace.mReadOffset_le (le_refl _) limits
  refine ⟨hloop.1, ?_⟩
  intro q hq
  have hloops := hloop.2 q hq
  have hoffset := hloops.mReadOffset
  have hlength := hloops.length
  have hbound := hplace.length_lt
  have hroom : q.receiver.room stale = stale - q.receiver.mReadOffset :=
    room_eq hoffset (lt_trans hbound (by decide))
  rcases hloops.place with ⟨received, hsplit, hat⟩
  have hholds := hat.holdsUnconsumed
  refine ⟨received, hsplit, hholds.1, hholds.2, by omega, by omega, ?_⟩
  intro limit chunk
  have hchunk : chunk.length ≤ q.receiver.room stale := sslRead_length_le _ _ _
  exact hat.stored (by omega)

/-- A response whose header and body come in one read. -/
theorem buffer_holds_unconsumed_example :
    let stream := okHeader "2" ++ HTTP_DELIMITER ++ [0x7B, 0x7D]
    ∃ q received, readLoop boundedSearch JSON_BUF_INIT_VALUE [100] requested stream = .returned q ∧
      received ++ q.incoming = stream ∧ HoldsUnconsumed received q.receiver := by
  intro stream
  have htext : ∀ b ∈ headerPart stream, b ≠ 0 := by decide +kernel
  have hpoint := (buffer_holds_unconsumed htext []).2 _ rfl rfl [100]
  rw [show requested.mBuffer.length = JSON_BUF_INIT_VALUE from List.length_replicate] at hpoint
  have hreturns : (readLoop boundedSearch JSON_BUF_INIT_VALUE [100] requested stream).isReturned =
      true := by decide +kernel
  cases hloop : readLoop boundedSearch JSON_BUF_INIT_VALUE [100] requested stream with
  | returned q =>
      rcases hpoint.2 q hloop with ⟨received, hsplit, hholds, -⟩
      exact ⟨q, received, rfl, hsplit, hholds⟩
  | threw | aborted | undefined =>
      rw [hloop] at hreturns
      cases hreturns

end Receiver

end Tob
