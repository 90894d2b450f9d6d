import Tob.Snapshot.Delivery
import Tob.Snapshot.Unconsumed

/-!
# Where the search for the header ends

The zeros behind what has been received end the search, and a header that fills the buffer has none
behind it: the buffer is searched before it is doubled.
-/

namespace Tob

namespace Receiver

/-- Every `process_header` of the read loop comes to the end of its search in the buffer. -/
def LoopSearches (bufferSize : Nat) : List Nat → Receiver → List UInt8 → Prop
  | [], _, _ => True
  | limit :: limits, r, incoming =>
      let chunk := sslRead limit (r.room bufferSize) incoming
      chunk = [] ∨ ∀ r₁, r.store chunk = some r₁ →
        (r₁.mReadyToReceiveJson = false → EndsWithin HTTP_DELIMITER r₁.mBuffer) ∧
          ∀ r₂, r₁.advance (strstr HTTP_DELIMITER) = .returned (r₂, false) →
            LoopSearches bufferSize limits r₂ (incoming.drop chunk.length)

/-- It does in every call, until the socket is closed. -/
def SearchesInside : List (List Nat) → Receiver → List UInt8 → Prop
  | [], _, _ => True
  | limits :: calls, r, incoming =>
      LoopSearches r.mBuffer.length limits r incoming ∧
        ∀ p, r.onRead (strstr HTTP_DELIMITER) .done limits incoming = .returned p →
          p.body = none → SearchesInside calls p.receiver p.incoming

/-- The first bytes of a response, as many as the buffer has, neither end the header nor have a NUL
byte among them. -/
def HeaderGoesOn (stream : List UInt8) : Prop :=
  JSON_BUF_INIT_VALUE ≤ stream.length ∧
    ¬ HTTP_DELIMITER <:+: stream.take JSON_BUF_INIT_VALUE ∧
    ∀ b ∈ stream.take JSON_BUF_INIT_VALUE, b ≠ 0

/-- How much one call may read: a read that gets nothing is its last. -/
def available (limits : List Nat) : Nat := (limits.takeWhile (0 < ·)).sum

/-! ## One read -/

theorem loopSearches_stop {bufferSize limit : Nat} {r : Receiver} {incoming : List UInt8}
    (limits : List Nat) (hread : sslRead limit (r.room bufferSize) incoming = []) :
    LoopSearches bufferSize (limit :: limits) r incoming := .inl hread

theorem loopSearches_read {bufferSize limit : Nat} {r r₁ : Receiver} {incoming chunk : List UInt8}
    (limits : List Nat) (hread : sslRead limit (r.room bufferSize) incoming = chunk)
    (hchunk : chunk ≠ []) (hstore : r.store chunk = some r₁) :
    LoopSearches bufferSize (limit :: limits) r incoming ↔
      (r₁.mReadyToReceiveJson = false → EndsWithin HTTP_DELIMITER r₁.mBuffer) ∧
        ∀ r₂, r₁.advance (strstr HTTP_DELIMITER) = .returned (r₂, false) →
          LoopSearches bufferSize limits r₂ (incoming.drop chunk.length) := by
  rw [LoopSearches, hread]
  simp only [hchunk, false_or, hstore, Option.some_inj, forall_eq']

/-! ## The end of a search -/

theorem endsWithin_delimiter (buffer : List UInt8) :
    EndsWithin HTTP_DELIMITER buffer ↔ HTTP_DELIMITER <:+: buffer ∨ 0 ∈ buffer :=
  endsWithin_iff_isInfix delimiter_ne_nil buffer

-- The zeros behind what has been received end the search.
theorem HoldsHeader.endsWithin_of_room {received : List UInt8} {r : Receiver}
    (h : r.HoldsHeader received) (hroom : received.length < r.mBuffer.length) :
    EndsWithin HTTP_DELIMITER r.mBuffer := by
  apply (endsWithin_delimiter _).mpr
  right
  rw [h.mBuffer]
  exact List.mem_append_right _ (List.mem_replicate.mpr ⟨by omega, rfl⟩)

/-- A search that leaves the buffer has a header in it that goes on. -/
theorem HoldsHeader.endsWithin {stream received : List UInt8} (hends : ¬ HeaderGoesOn stream)
    {r : Receiver} (h : r.HoldsHeader received) (hp : received <+: stream)
    (hlarge : JSON_BUF_INIT_VALUE ≤ r.mBuffer.length) : EndsWithin HTTP_DELIMITER r.mBuffer := by
  have hfits := h.fits
  by_cases hroom : received.length < r.mBuffer.length
  · exact h.endsWithin_of_room hroom
  · by_contra hleaves
    have hfull : r.mBuffer = received := by
      have hmBuffer := h.mBuffer
      rw [show r.mBuffer.length - received.length = 0 by omega, List.replicate_zero,
        List.append_nil] at hmBuffer
      exact hmBuffer
    rw [hfull, endsWithin_delimiter, not_or] at hleaves
    rw [hfull] at hlarge
    have hfront : stream.take JSON_BUF_INIT_VALUE = received.take JSON_BUF_INIT_VALUE := by
      rcases hp with ⟨more, rfl⟩
      exact List.take_append_of_le_length hlarge
    apply hends
    refine ⟨le_trans hlarge hp.length_le, ?_, ?_⟩
    · rw [hfront]
      exact fun hpart ↦ hleaves.1 (hpart.trans (List.take_prefix _ _).isInfix)
    · rw [hfront]
      rintro b hb rfl
      exact hleaves.2 (List.mem_of_mem_take hb)

/-! ## A response whose header ends in time -/

/-- Between two reads of a loop: while the header is searched for, the buffer holds it. -/
structure Searching (stream : List UInt8) (stale : Nat) (r : Receiver) (incoming : List UInt8) :
    Prop where
  reading : r.Reading
  header : r.mReadyToReceiveJson = false → ∃ received, received ++ incoming = stream ∧
    r.HoldsHeader received ∧ received.length ≤ stale ∧ stale ≤ r.mBuffer.length ∧
    JSON_BUF_INIT_VALUE ≤ stale

theorem store_keeps {r r₁ : Receiver} {chunk : List UInt8} (h : r.store chunk = some r₁) :
    r₁.mReadyToReceiveJson = r.mReadyToReceiveJson ∧ (r.Reading → r₁.Reading) := by
  rw [Receiver.store, Option.map_eq_some_iff] at h
  obtain ⟨mBuffer, -, rfl⟩ := h
  exact ⟨rfl, fun hreading ↦ ⟨hreading.waits, hreading.connected⟩⟩

-- Within the buffer `strstr` is the bounded search.
theorem processHeader_bounded {r : Receiver} (h : EndsWithin HTTP_DELIMITER r.mBuffer) :
    r.processHeader (strstr HTTP_DELIMITER) = r.processHeader boundedSearch := by
  have hsearch : boundedSearch r.mBuffer = strstr HTTP_DELIMITER r.mBuffer := by
    have hinside := (endsWithin_iff _).mp h
    unfold boundedSearch
    cases hstr : strstr HTTP_DELIMITER r.mBuffer with
    | found delim => rfl
    | ended => rfl
    | overrun => exact absurd hstr hinside
  rw [processHeader, processHeader, hsearch]

/-- A search that ends in the buffer leaves the header there, or ends it. -/
theorem HoldsHeader.advance_inside {received : List UInt8} {r : Receiver}
    (h : r.HoldsHeader received) (hinside : EndsWithin HTTP_DELIMITER r.mBuffer)
    (hne : received ≠ []) :
    (r.advance (strstr HTTP_DELIMITER)).Ensures fun s ↦ s.1.Reading ∧
      (s.1.mReadyToReceiveJson = false →
        s.1.HoldsHeader received ∧ r.mBuffer.length ≤ s.1.mBuffer.length) := by
  apply advance_ensures (P := fun s ↦ s.Reading ∧ (s.mReadyToReceiveJson = false →
    s.HoldsHeader received ∧ r.mBuffer.length ≤ s.mBuffer.length)) h.ready
  rw [processHeader_bounded hinside]
  cases hsearch : boundedSearch r.mBuffer with
  | overrun => exact absurd hsearch (boundedSearch_ne_overrun _)
  | ended =>
      apply (h.processHeader_ended hsearch hne).imp
      exact fun s hs ↦ ⟨hs.1.reading, fun _ ↦ ⟨hs.1, hs.2.2⟩⟩
  | found delim =>
      apply (h.processHeader_found hsearch).imp
      rintro s ⟨-, size, -, hbody⟩
      refine ⟨hbody.reading, fun hready ↦ ?_⟩
      rw [hbody.ready] at hready
      cases hready

/-- One read: the search ends in the buffer, and the loop goes on. -/
theorem Searching.read {stream incoming : List UInt8} (hends : ¬ HeaderGoesOn stream) {stale : Nat}
    {r r₁ : Receiver} (h : Searching stream stale r incoming) {limit : Nat} {chunk : List UInt8}
    (hread : sslRead limit (r.room stale) incoming = chunk) (hchunk : chunk ≠ [])
    (hstore : r.store chunk = some r₁) :
    (r₁.mReadyToReceiveJson = false → EndsWithin HTTP_DELIMITER r₁.mBuffer) ∧
      ∀ s, r₁.advance (strstr HTTP_DELIMITER) = .returned s →
        Searching stream stale s.1 (incoming.drop chunk.length) := by
  rcases store_keeps hstore with ⟨hsame, hkeeps⟩
  have hreading := hkeeps h.reading
  cases hready : r₁.mReadyToReceiveJson with
  | true =>
      refine ⟨fun hheader ↦ Bool.noConfusion hheader, fun s hadvance ↦ ?_⟩
      rw [Receiver.advance, if_pos hready] at hadvance
      cases hadvance
      refine ⟨hreading, fun hheader ↦ ?_⟩
      rw [hready] at hheader
      cases hheader
  | false =>
      obtain ⟨received, hsplit, hholds, hle, hstale, hlarge⟩ := h.header (hsame.symm.trans hready)
      have hbound := hholds.bound
      have hfits := sslRead_length_le limit (r.room stale) incoming
      rw [hread, room_eq (by rw [hholds.mReadOffset]; exact hle) (by omega), hholds.mReadOffset]
        at hfits
      obtain ⟨r₂, hstore', hholds', hlength⟩ := hholds.store chunk (by omega)
      rw [hstore, Option.some_inj] at hstore'
      subst hstore'
      have hsplit' := sslRead_split hread hsplit
      have hinside := hholds'.endsWithin hends ⟨_, hsplit'⟩ (by omega)
      have hadvanced := hholds'.advance_inside hinside (List.append_ne_nil_of_right_ne_nil _ hchunk)
      refine ⟨fun _ ↦ hinside, fun s hadvance ↦ ?_⟩
      obtain ⟨hreading', hheader'⟩ := hadvanced.2 s hadvance
      refine ⟨hreading', fun hready' ↦ ⟨_, hsplit', (hheader' hready').1, ?_, ?_, hlarge⟩⟩
      · rw [List.length_append]
        omega
      · have hgrows := (hheader' hready').2
        omega

/-- The loop: every search ends in the buffer. -/
theorem Searching.readLoop {stream incoming : List UInt8} (hends : ¬ HeaderGoesOn stream)
    {stale : Nat} {r : Receiver} (h : Searching stream stale r incoming) (limits : List Nat) :
    LoopSearches stale limits r incoming ∧
      ∀ p, Receiver.readLoop (strstr HTTP_DELIMITER) stale limits r incoming = .returned p →
        Searching stream stale p.receiver p.incoming := by
  induction limits generalizing r incoming with
  | nil =>
      refine ⟨trivial, fun p hp ↦ ?_⟩
      cases hp
      exact h
  | cons limit limits ih =>
      generalize hread : sslRead limit (r.room stale) incoming = chunk
      by_cases hchunk : chunk = []
      · rw [hchunk] at hread
        refine ⟨loopSearches_stop limits hread, fun p hp ↦ ?_⟩
        rw [readLoop_stop _ limits hread] at hp
        cases hp
        exact h
      · cases hstore : r.store chunk with
        | none =>
            refine ⟨.inr fun r₁ hstore₁ ↦ ?_, fun p hp ↦ ?_⟩
            · rw [hread, hstore] at hstore₁
              cases hstore₁
            · rw [Receiver.readLoop, hread, if_neg hchunk, hstore] at hp
              cases hp
        | some r₁ =>
            have hstep := h.read hends hread hchunk hstore
            refine ⟨(loopSearches_read limits hread hchunk hstore).mpr ⟨hstep.1, ?_⟩, ?_⟩
            · exact fun r₂ hadvance ↦ (ih (hstep.2 _ hadvance)).1
            · intro p hp
              rw [readLoop_read _ limits hread hchunk hstore] at hp
              cases hadvance : r₁.advance (strstr HTTP_DELIMITER) with
              | returned s =>
                  rw [hadvance] at hp
                  obtain ⟨r₂, complete⟩ := s
                  cases complete with
                  | false => exact (ih (hstep.2 _ hadvance)).2 p hp
                  | true =>
                      cases hp
                      exact hstep.2 _ hadvance
              | threw what s => rw [hadvance] at hp; cases hp
              | aborted s => rw [hadvance] at hp; cases hp
              | undefined => rw [hadvance] at hp; cases hp

-- The next call takes the size the buffer has then.
theorem Searching.next {stream incoming : List UInt8} {stale : Nat} {r : Receiver}
    (h : Searching stream stale r incoming) :
    Searching stream r.mBuffer.length r incoming := by
  refine ⟨h.reading, fun hready ↦ ?_⟩
  obtain ⟨received, hsplit, hholds, hle, hstale, hlarge⟩ := h.header hready
  exact ⟨received, hsplit, hholds, hholds.fits, le_refl _, le_trans hlarge hstale⟩

theorem Searching.searchesInside {stream incoming : List UInt8} (hends : ¬ HeaderGoesOn stream)
    {r : Receiver} (h : Searching stream r.mBuffer.length r incoming) (calls : List (List Nat)) :
    SearchesInside calls r incoming := by
  induction calls generalizing r incoming with
  | nil => trivial
  | cons limits calls ih =>
      have hloop := h.readLoop hends limits
      refine ⟨hloop.1, fun p hp _ ↦ ?_⟩
      rw [h.reading.onRead] at hp
      obtain ⟨q, hq, hfinish⟩ := Outcome.andThen_eq_returned_iff.mp hp
      obtain ⟨hreceiver, hincoming⟩ := finish_keeps (congrArg Outcome.state? hfinish)
      rw [hreceiver, hincoming]
      exact ih (hloop.2 q hq).next

theorem requested_searching (stream : List UInt8) :
    Searching stream requested.mBuffer.length requested stream := by
  have hlength : requested.mBuffer.length = JSON_BUF_INIT_VALUE := List.length_replicate
  cases requested_place with
  | header h _ _ =>
      refine ⟨h.reading, fun _ ↦ ⟨[], rfl, h, h.fits, le_refl _, ?_⟩⟩
      rw [hlength]
  | body _ h => exact Bool.noConfusion h.ready

/-! ## A response whose header goes on -/

/-- A part of the first bytes, and of the whole response. -/
theorem HeaderGoesOn.clean {stream received : List UInt8} (h : HeaderGoesOn stream)
    (hp : received <+: stream) (hle : received.length ≤ JSON_BUF_INIT_VALUE) :
    ¬ HTTP_DELIMITER <:+: received ∧ 0 ∉ received := by
  have hpart : received <+: stream.take JSON_BUF_INIT_VALUE := by
    rw [List.prefix_take_iff]
    exact ⟨hp, hle⟩
  exact ⟨fun hat ↦ h.2.1 (hat.trans hpart.isInfix), fun hzero ↦ h.2.2 0 (hpart.subset hzero) rfl⟩

theorem InHeader.holdsHeader {got : List UInt8} {r : Receiver} (h : r.InHeader got) :
    r.HoldsHeader got := by
  refine ⟨h.reading, h.ready, h.mReadOffset, ?_, ?_, ?_⟩
  · rw [h.length]
    exact h.length_le
  · rw [h.length]
    decide
  · rw [h.length]
    exact h.mBuffer

-- While there is room nothing happens.
theorem InHeader.advance_waits {got : List UInt8} {r : Receiver} (h : r.InHeader got)
    (hnone : ¬ HTTP_DELIMITER <:+: got) (hroom : got.length < JSON_BUF_INIT_VALUE) :
    EndsWithin HTTP_DELIMITER r.mBuffer ∧
      r.advance (strstr HTTP_DELIMITER) = .returned (r, false) := by
  have hlength := h.length
  have hinside := h.holdsHeader.endsWithin_of_room (by omega)
  have hended : boundedSearch r.mBuffer = .ended := by
    cases hsearch : boundedSearch r.mBuffer with
    | ended => rfl
    | overrun => exact absurd hsearch (boundedSearch_ne_overrun _)
    | found delim =>
        rw [h.mBuffer] at hsearch
        exact absurd (firstAt_of_boundedSearch hsearch).1.isInfix hnone
  have hheader : r.processHeader boundedSearch = .returned (r, false) := by
    rw [processHeader, hended]
    exact if_neg (by rw [h.mReadOffset]; omega)
  rw [← processHeader_bounded hinside] at hheader
  exact ⟨hinside, advance_of_returned h.ready hheader⟩

-- Full of it, the buffer has nothing that ends the search.
theorem InHeader.leaves {got : List UInt8} {r : Receiver} (h : r.InHeader got)
    (hclean : ¬ HTTP_DELIMITER <:+: got ∧ 0 ∉ got) (hfull : got.length = JSON_BUF_INIT_VALUE) :
    ¬ EndsWithin HTTP_DELIMITER r.mBuffer := by
  rw [h.mBuffer, hfull, Nat.sub_self, List.replicate_zero, List.append_nil, endsWithin_delimiter,
    not_or]
  exact hclean

/-- A read gets what is available, as far as there is room. -/
theorem InHeader.read {stream got incoming : List UInt8} (hgoes : HeaderGoesOn stream)
    {r : Receiver} (h : r.InHeader got) (hsplit : got ++ incoming = stream)
    (hroom : got.length < JSON_BUF_INIT_VALUE) {limit : Nat} (hlimit : 0 < limit) :
    ∃ chunk r₁, sslRead limit (r.room JSON_BUF_INIT_VALUE) incoming = chunk ∧ chunk ≠ [] ∧
      r.store chunk = some r₁ ∧ r₁.InHeader (got ++ chunk) ∧
      got ++ chunk ++ incoming.drop chunk.length = stream ∧
      (got ++ chunk).length = min (got.length + limit) JSON_BUF_INIT_VALUE := by
  have hlong := hgoes.1
  rw [← hsplit, List.length_append] at hlong
  generalize hread : sslRead limit (r.room JSON_BUF_INIT_VALUE) incoming = chunk
  have hcount : chunk.length = min limit (JSON_BUF_INIT_VALUE - got.length) := by
    rw [← hread, h.room, sslRead, List.length_take]
    omega
  obtain ⟨r₁, hstore, h₁⟩ := h.store chunk (by omega)
  refine ⟨chunk, r₁, rfl, List.ne_nil_of_length_pos (by omega), hstore, h₁,
    sslRead_split hread hsplit, ?_⟩
  rw [List.length_append]
  omega

theorem available_zero (limits : List Nat) : available (0 :: limits) = 0 := rfl

theorem available_cons {limit : Nat} (hpos : 0 < limit) (limits : List Nat) :
    available (limit :: limits) = limit + available limits := by
  rw [available, List.takeWhile_cons_of_pos (by simpa using hpos), List.sum_cons, available]

/-- The loop comes to the end of its searches as long as it does not fill the buffer. -/
theorem InHeader.loopSearches_iff {stream got incoming : List UInt8} (hgoes : HeaderGoesOn stream)
    {r : Receiver} (h : r.InHeader got) (hsplit : got ++ incoming = stream)
    (hroom : got.length < JSON_BUF_INIT_VALUE) (limits : List Nat) :
    (LoopSearches JSON_BUF_INIT_VALUE limits r incoming ↔
      got.length + available limits < JSON_BUF_INIT_VALUE) ∧
    (got.length + available limits < JSON_BUF_INIT_VALUE → ∃ p got',
      Receiver.readLoop (strstr HTTP_DELIMITER) JSON_BUF_INIT_VALUE limits r incoming =
        .returned p ∧ p.body = none ∧ p.receiver.InHeader got' ∧ got' ++ p.incoming = stream ∧
      got'.length = got.length + available limits) := by
  induction limits generalizing r got incoming with
  | nil => exact ⟨iff_of_true trivial hroom, fun _ ↦ ⟨_, got, rfl, rfl, h, hsplit, rfl⟩⟩
  | cons limit limits ih =>
      by_cases hzero : limit = 0
      · -- a read that gets nothing is the last one
        have hread : sslRead limit (r.room JSON_BUF_INIT_VALUE) incoming = [] := by
          rw [hzero, sslRead, Nat.zero_min, List.take_zero]
        rw [hzero] at hread ⊢
        rw [available_zero, Nat.add_zero]
        refine ⟨iff_of_true (loopSearches_stop limits hread) hroom, fun _ ↦ ?_⟩
        exact ⟨_, got, readLoop_stop _ limits hread, rfl, h, hsplit, rfl⟩
      · have hpos := Nat.pos_of_ne_zero hzero
        obtain ⟨chunk, r₁, hread, hchunk, hstore, h₁, hsplit', hlength⟩ :=
          h.read hgoes hsplit hroom hpos
        have hclean := hgoes.clean ⟨_, hsplit'⟩ (by omega)
        rw [loopSearches_read limits hread hchunk hstore,
          readLoop_read _ limits hread hchunk hstore, available_cons hpos, ← Nat.add_assoc]
        by_cases hfull : JSON_BUF_INIT_VALUE ≤ got.length + limit
        · rw [Nat.min_eq_right hfull] at hlength
          refine ⟨iff_of_false (fun hsearches ↦ ?_) (by omega), fun hless ↦ ?_⟩
          · exact h₁.leaves hclean hlength (hsearches.1 h₁.ready)
          · exact absurd hless (by omega)
        · rw [Nat.min_eq_left (by omega)] at hlength
          have hnext := ih h₁ hsplit' (by omega)
          obtain ⟨hinside, hadvance⟩ := h₁.advance_waits hclean.1 (by omega)
          rw [hadvance, ← hlength]
          refine ⟨Iff.trans ?_ hnext.1, hnext.2⟩
          simp only [hinside, implies_true, true_and, Outcome.returned.injEq, Prod.mk.injEq,
            and_true, forall_eq']

/-- The calls come to the end of their searches as long as they do not fill the buffer. -/
theorem InHeader.searchesInside_iff {stream got incoming : List UInt8}
    (hgoes : HeaderGoesOn stream) {r : Receiver} (h : r.InHeader got)
    (hsplit : got ++ incoming = stream) (hroom : got.length < JSON_BUF_INIT_VALUE)
    (calls : List (List Nat)) :
    SearchesInside calls r incoming ↔
      got.length + (calls.map available).sum < JSON_BUF_INIT_VALUE := by
  induction calls generalizing r got incoming with
  | nil => exact iff_of_true trivial hroom
  | cons limits calls ih =>
      have hlength := h.length
      obtain ⟨hloop, hreturns⟩ := h.loopSearches_iff hgoes hsplit hroom limits
      rw [SearchesInside, hlength, hloop, List.map_cons, List.sum_cons, ← Nat.add_assoc]
      by_cases hless : got.length + available limits < JSON_BUF_INIT_VALUE
      · obtain ⟨p, got', hp, hbody, h', hsplit', hgot'⟩ := hreturns hless
        have hcall : r.onRead (strstr HTTP_DELIMITER) .done limits incoming = .returned p := by
          rw [h.reading.onRead, hlength, hp, Outcome.andThen_returned, h'.finish (by omega)]
        rw [← hgot', ← ih h' hsplit' (by omega), and_iff_right (by omega)]
        simp only [hcall, Outcome.returned.injEq, forall_eq', hbody, true_implies]
      · exact iff_of_false (fun hsearches ↦ hless hsearches.1) (by omega)

/-! ## Every response -/

/-- The searches of a run end in the buffer, unless the reads fill it with a header that goes on. -/
theorem header_search_inside_iff (calls : List (List Nat)) (stream : List UInt8) :
    SearchesInside calls requested stream ↔
      ¬ (HeaderGoesOn stream ∧ JSON_BUF_INIT_VALUE ≤ (calls.map available).sum) := by
  by_cases hgoes : HeaderGoesOn stream
  · have hsearches := requested_inHeader.searchesInside_iff hgoes (List.nil_append stream)
      (by decide) calls
    rw [List.length_nil, Nat.zero_add] at hsearches
    rw [hsearches, and_iff_right hgoes, Nat.not_le]
  · exact iff_of_true ((requested_searching stream).searchesInside hgoes calls) (fun h ↦ hgoes h.1)

/-- A header with a long line, read at once. -/
theorem header_search_leaves :
    let line := ascii "HTTP/1.1 200 OK\r\nSet-Cookie: id=" ++ List.replicate 5000 0x61
    let stream := line ++ ascii "\r\nContent-Length: 2\r\n\r\n{}"
    ¬ SearchesInside [[5000]] requested stream := by
  intro line stream
  have hline : JSON_BUF_INIT_VALUE ≤ line.length := by
    rw [List.length_append, List.length_replicate]
    exact Nat.le_add_left _ _
  have hfront : stream.take JSON_BUF_INIT_VALUE = line.take JSON_BUF_INIT_VALUE :=
    List.take_append_of_le_length hline
  have hgoes : HeaderGoesOn stream := by
    refine ⟨?_, ?_, ?_⟩
    · rw [List.length_append]
      omega
    · -- the line has one CR, the delimiter two
      intro hpart
      rw [hfront] at hpart
      have hcount := (hpart.trans (List.take_prefix _ line).isInfix).sublist.count_le 13
      rw [List.count_append, List.count_replicate] at hcount
      exact absurd hcount (by decide +kernel)
    · have htext : ∀ b ∈ ascii "HTTP/1.1 200 OK\r\nSet-Cookie: id=", b ≠ 0 := by
        decide +kernel
      intro b hb
      rw [hfront] at hb
      rcases List.mem_append.mp (List.mem_of_mem_take hb) with hb | hb
      · exact htext b hb
      · rw [List.eq_of_mem_replicate hb]
        decide
  rw [requested_inHeader.searchesInside_iff hgoes (List.nil_append stream) (by decide)]
  decide

end Receiver

end Tob
