import Tob.Snapshot.Header

/-!
# Delivery of the snapshot

Whether the body of a response reaches `process_json`, for every way it can be cut into reads.
-/

namespace Tob

namespace Receiver

variable {head body : List UInt8}

/-! ## One iteration -/

theorem InBody.room {size full bufferSize : Nat} {r : Receiver} {got : List UInt8}
    (h : r.InBody size full got) (hle : got.length ≤ bufferSize) (hbound : bufferSize < 2 ^ 64) :
    r.room bufferSize = bufferSize - got.length := by
  rw [room_eq (by rw [h.mReadOffset]; exact hle) hbound, h.mReadOffset]

theorem InHeader.room {r : Receiver} {got : List UInt8} (h : r.InHeader got) :
    r.room JSON_BUF_INIT_VALUE = JSON_BUF_INIT_VALUE - got.length := by
  rw [room_eq (by rw [h.mReadOffset]; exact h.length_le) (by decide), h.mReadOffset]

/-- A read of the body. -/
theorem InBody.readLoop_cons (search : List UInt8 → Search) {bufferSize size full limit : Nat}
    {r : Receiver} {got incoming chunk : List UInt8} (h : r.InBody size full got)
    (hle : got.length ≤ bufferSize) (hsize : bufferSize ≤ size) (hbound : bufferSize < 2 ^ 64)
    (limits : List Nat) (hread : sslRead limit (bufferSize - got.length) incoming = chunk)
    (hchunk : chunk ≠ []) :
    ∃ r' : Receiver, r'.InBody size full (got ++ chunk) ∧
      readLoop search bufferSize (limit :: limits) r incoming =
        if (got ++ chunk).length = full then .returned ⟨r', incoming.drop chunk.length, none⟩
        else readLoop search bufferSize limits r' (incoming.drop chunk.length) := by
  have hfits := sslRead_length_le limit (bufferSize - got.length) incoming
  rw [hread] at hfits
  rcases h.store chunk (by omega) with ⟨r', hstore, h'⟩
  refine ⟨r', h', ?_⟩
  rw [← h.room hle hbound] at hread
  rw [readLoop_read search limits hread hchunk hstore, h'.advance search]
  by_cases hfull : (got ++ chunk).length = full
  · rw [if_pos hfull, decide_eq_true hfull]
    rfl
  · rw [if_neg hfull, decide_eq_false hfull]
    rfl

/-- A read of the header. -/
theorem InHeader.readLoop_cons (search : List UInt8 → Search) {limit : Nat} {r : Receiver}
    {got incoming chunk : List UInt8} (h : r.InHeader got) (limits : List Nat)
    (hread : sslRead limit (JSON_BUF_INIT_VALUE - got.length) incoming = chunk)
    (hchunk : chunk ≠ []) :
    ∃ r' : Receiver, r'.InHeader (got ++ chunk) ∧
      readLoop search JSON_BUF_INIT_VALUE (limit :: limits) r incoming =
        proceed (fun r ↦ readLoop search JSON_BUF_INIT_VALUE limits r (incoming.drop chunk.length))
          (incoming.drop chunk.length) (r'.advance search) := by
  have hle := h.length_le
  have hfits := sslRead_length_le limit (JSON_BUF_INIT_VALUE - got.length) incoming
  rw [hread] at hfits
  rcases h.store chunk (by omega) with ⟨r', hstore, h'⟩
  rw [← h.room] at hread
  exact ⟨r', h', readLoop_read search limits hread hchunk hstore⟩

-- With room in the buffer the call does not look for a body.
theorem InHeader.finish {got : List UInt8} {p : Progress} (h : p.receiver.InHeader got)
    (hroom : got.length < JSON_BUF_INIT_VALUE) : Receiver.finish p = .returned p := by
  unfold Receiver.finish
  exact if_neg (by rw [h.mReadOffset, h.length]; omega)

/-! ## A call, when everything fits -/

/-- A response whose header fits into the first buffer, and whose body fills it. -/
structure Fits (head body : List UInt8) : Prop where
  wellFormed : Head head
  bodySize : getBodySize head = .ok body.length
  headerFits : head.length + 4 ≤ JSON_BUF_INIT_VALUE
  bodyFills : JSON_BUF_INIT_VALUE ≤ body.length
  bound : body.length < 2 ^ 63

/-- Where the receiver is in the response. -/
inductive Phase (head body : List UInt8) : Receiver → List UInt8 → Prop where
  | header {got r incoming} : InHeader got r → got ++ incoming = head ++ HTTP_DELIMITER ++ body →
      got.length < head.length + 4 → Phase head body r incoming
  | body {got r incoming} : InBody body.length body.length got r → got ++ incoming = body →
      Phase head body r incoming

theorem InBody.readLoop (search : List UInt8 → Search) {bufferSize : Nat} {r : Receiver}
    {got incoming : List UInt8} (h : r.InBody body.length body.length got)
    (hsplit : got ++ incoming = body) (hle : got.length ≤ bufferSize)
    (hsize : bufferSize ≤ body.length) (hbound : body.length < 2 ^ 63) (limits : List Nat) :
    ∃ p, readLoop search bufferSize limits r incoming = .returned p ∧ p.body = none ∧
      Phase head body p.receiver p.incoming := by
  induction limits generalizing r got incoming with
  | nil => exact ⟨⟨r, incoming, none⟩, rfl, rfl, .body h hsplit⟩
  | cons limit limits ih =>
      generalize hread : sslRead limit (bufferSize - got.length) incoming = chunk
      by_cases hchunk : chunk = []
      · rw [hchunk, ← h.room hle (by omega)] at hread
        exact ⟨_, readLoop_stop search limits hread, rfl, .body h hsplit⟩
      · rcases h.readLoop_cons search hle hsize (by omega) limits hread hchunk with ⟨r', h', he⟩
        have hsplit' := sslRead_split hread hsplit
        have hfits := sslRead_length_le limit (bufferSize - got.length) incoming
        rw [hread] at hfits
        rw [he]
        by_cases hfull : (got ++ chunk).length = body.length
        · rw [if_pos hfull]
          exact ⟨_, rfl, rfl, .body h' hsplit'⟩
        · rw [if_neg hfull]
          apply ih h' hsplit'
          rw [List.length_append]
          omega

theorem InHeader.readLoop (hfits : Fits head body) {r : Receiver} {got incoming : List UInt8}
    (h : r.InHeader got) (hsplit : got ++ incoming = head ++ HTTP_DELIMITER ++ body)
    (hlt : got.length < head.length + 4) (limits : List Nat) :
    ∃ p, readLoop (strstr HTTP_DELIMITER) JSON_BUF_INIT_VALUE limits r incoming = .returned p ∧
      p.body = none ∧ Phase head body p.receiver p.incoming := by
  have hheader := hfits.headerFits
  have hbody := hfits.bodyFills
  induction limits generalizing r got incoming with
  | nil => exact ⟨⟨r, incoming, none⟩, rfl, rfl, .header h hsplit hlt⟩
  | cons limit limits ih =>
      generalize hread : sslRead limit (JSON_BUF_INIT_VALUE - got.length) incoming = chunk
      by_cases hchunk : chunk = []
      · rw [hchunk, ← h.room] at hread
        exact ⟨_, readLoop_stop _ limits hread, rfl, .header h hsplit hlt⟩
      · rcases h.readLoop_cons (strstr HTTP_DELIMITER) limits hread hchunk with ⟨r', h', he⟩
        have hsplit' := sslRead_split hread hsplit
        have hp : got ++ chunk <+: head ++ HTTP_DELIMITER ++ body := ⟨_, hsplit'⟩
        rw [he]
        by_cases hlt' : (got ++ chunk).length < head.length + 4
        · rw [h'.advance_incomplete hfits.wellFormed hp hlt' (by omega)]
          exact ih h' hsplit' hlt'
        · -- the header is complete with this read
          have hwhole := prefix_of_head_le hp (Nat.le_of_not_lt hlt')
          have hbound := hfits.bound
          have hfull := h'.length_le
          have hlength : ((got ++ chunk).drop (head.length + 4)).length =
              (got ++ chunk).length - (head.length + 4) := List.length_drop
          rcases h'.advance_complete hfits.wellFormed hwhole hfits.bodySize (by omega) hbound with
            ⟨r'', he', h''⟩
          rw [he', decide_eq_false (by omega)]
          rw [Nat.max_eq_right hbody] at h''
          have hsplit'' : (got ++ chunk).drop (head.length + 4) ++ incoming.drop chunk.length =
              body := by
            rw [← List.drop_append_of_le_length (by omega), hsplit']
            exact List.drop_left' List.length_append
          exact h''.readLoop _ hsplit'' (by omega) hbody hbound limits

-- The test behind the loop is about the size of the buffer, which is that of the body.
theorem Phase.finish (hfits : Fits head body) {p : Progress}
    (h : Phase head body p.receiver p.incoming) (hbody : p.body = none) :
    ∃ p', Receiver.finish p = .returned p' ∧ p'.incoming = p.incoming ∧
      p'.receiver = p.receiver ∧ p'.body = if p.incoming = [] then some body else none := by
  have hheader := hfits.headerFits
  have hfills := hfits.bodyFills
  rcases p with ⟨r, incoming, delivered⟩
  simp only at h hbody
  cases h with
  | @header got _ _ h hsplit hlt =>
      have hsum := congrArg List.length hsplit
      rw [List.length_append, List.length_append, List.length_append] at hsum
      have hfour : HTTP_DELIMITER.length = 4 := rfl
      have hsome : incoming ≠ [] := fun hnil ↦ by
        rw [hnil, List.length_nil] at hsum
        omega
      refine ⟨⟨r, incoming, delivered⟩, ?_, rfl, rfl, ?_⟩
      · rw [Receiver.finish]
        exact if_neg (by rw [h.mReadOffset, h.length]; omega)
      · rw [if_neg hsome]
        exact hbody
  | @body got _ _ h hsplit =>
      have hsum := congrArg List.length hsplit
      rw [List.length_append] at hsum
      by_cases hnil : incoming = []
      · rw [hnil, List.append_nil] at hsplit
        have hfront : r.mBuffer = body := by
          have hequal := h.mBuffer.eq_of_length (by rw [hsplit, h.length])
          rw [← hequal, hsplit]
        have hread : readAt r.mBuffer 0 r.mJsonFullSize = some body := by
          rw [hfront, h.mJsonFullSize, readAt, if_pos (by omega), List.drop_zero, List.take_length]
        refine ⟨⟨r, incoming, some body⟩, ?_, rfl, rfl, (if_pos hnil).symm⟩
        rw [Receiver.finish, if_pos (by rw [h.mReadOffset, h.length, hsplit]), hread,
          Outcome.attempt_some]
      · have hpos := List.length_pos_iff.mpr hnil
        refine ⟨⟨r, incoming, delivered⟩, ?_, rfl, rfl, ?_⟩
        · rw [Receiver.finish]
          exact if_neg (by rw [h.mReadOffset, h.length]; omega)
        · rw [if_neg hnil]
          exact hbody

theorem Phase.onRead (hfits : Fits head body) {r : Receiver} {incoming : List UInt8}
    (h : Phase head body r incoming) (connect : SslConnect) (limits : List Nat) :
    ∃ p, r.onRead (strstr HTTP_DELIMITER) connect limits incoming = .returned p ∧
      Phase head body p.receiver p.incoming ∧
      p.body = if p.incoming = [] then some body else none := by
  have hloop : r.Reading ∧ ∃ p, Receiver.readLoop (strstr HTTP_DELIMITER) r.mBuffer.length limits r
      incoming = .returned p ∧ p.body = none ∧ Phase head body p.receiver p.incoming := by
    cases h with
    | header h hsplit hlt =>
        rw [h.length]
        exact ⟨h.reading, h.readLoop hfits hsplit hlt limits⟩
    | body h hsplit =>
        have hle := h.length_le
        rw [h.length]
        exact ⟨h.reading, h.readLoop _ hsplit hle (le_refl _) hfits.bound limits⟩
  rcases hloop with ⟨hreading, p, he, hnone, hphase⟩
  rcases hphase.finish hfits hnone with ⟨p', he', hincoming, hreceiver, hbody⟩
  refine ⟨p', ?_, ?_, ?_⟩
  · rw [hreading.onRead, he, Outcome.andThen_returned, he']
  · rw [hincoming, hreceiver]
    exact hphase
  · rw [hincoming]
    exact hbody

/-! ## A response -/

/-- The body is handed to `process_json` in the call that reads its last byte, whatever the calls
and their reads are, and no call before that throws or goes wrong. -/
def Delivers (head body : List UInt8) : Prop :=
  ∀ calls, ∃ p, run (strstr HTTP_DELIMITER) calls requested (head ++ HTTP_DELIMITER ++ body) =
    .returned p ∧ p.body = if p.incoming = [] then some body else none

theorem Phase.run (hfits : Fits head body) {r : Receiver} {incoming : List UInt8}
    (h : Phase head body r incoming) (hne : incoming ≠ []) (calls : List (List Nat)) :
    ∃ p, Receiver.run (strstr HTTP_DELIMITER) calls r incoming = .returned p ∧
      p.body = if p.incoming = [] then some body else none := by
  induction calls generalizing r incoming with
  | nil => exact ⟨⟨r, incoming, none⟩, rfl, (if_neg hne).symm⟩
  | cons limits calls ih =>
      rcases h.onRead hfits .done limits with ⟨p, he, hphase, hbody⟩
      rw [Receiver.run, he, Outcome.andThen_returned]
      by_cases hnil : p.incoming = []
      · rw [if_pos hnil] at hbody
        refine ⟨p, ?_, by rw [if_pos hnil, hbody]⟩
        rw [hbody]
        rfl
      · rw [if_neg hnil] at hbody
        rw [hbody]
        exact ih hphase hnil

theorem Fits.delivers (hfits : Fits head body) : Delivers head body := by
  intro calls
  have hstart : Phase head body requested (head ++ HTTP_DELIMITER ++ body) :=
    .header requested_inHeader rfl (Nat.lt_add_left _ (by decide))
  apply hstart.run hfits
  exact List.append_ne_nil_of_left_ne_nil
    (List.append_ne_nil_of_right_ne_nil _ delimiter_ne_nil) _

/-! ## The header in one call, the body in the next -/

theorem length_response (head body : List UInt8) :
    (head ++ HTTP_DELIMITER ++ body).length = head.length + 4 + body.length := by
  rw [List.length_append, List.length_append]
  rfl

-- A read of the first bytes of a response.
theorem requested_readLoop (search : List UInt8 → Search) (body : List UInt8) {count : Nat}
    (hpos : 0 < count) (hcount : count ≤ JSON_BUF_INIT_VALUE) (hle : count ≤ head.length + 4) :
    ∃ r : Receiver, r.InHeader ((head ++ HTTP_DELIMITER ++ body).take count) ∧
      readLoop search JSON_BUF_INIT_VALUE [count] requested (head ++ HTTP_DELIMITER ++ body) =
        proceed (fun r ↦ .returned ⟨r, (head ++ HTTP_DELIMITER ++ body).drop count, none⟩)
          ((head ++ HTTP_DELIMITER ++ body).drop count) (r.advance search) := by
  have hresponse := length_response head body
  have hlength : ((head ++ HTTP_DELIMITER ++ body).take count).length = count := by
    rw [List.length_take]
    omega
  have hread : sslRead count (JSON_BUF_INIT_VALUE - ([] : List UInt8).length)
      (head ++ HTTP_DELIMITER ++ body) = (head ++ HTTP_DELIMITER ++ body).take count := by
    rw [sslRead, List.length_nil, Nat.sub_zero, Nat.min_eq_left hcount]
  have hchunk : (head ++ HTTP_DELIMITER ++ body).take count ≠ [] :=
    List.ne_nil_of_length_pos (by omega)
  rcases requested_inHeader.readLoop_cons search [] hread hchunk with ⟨r, h, he⟩
  rw [hlength] at he
  exact ⟨r, h, he⟩

/-- A header that does not fit fills the buffer, and the search leaves it. -/
theorem run_overrun (hhead : Head head) (hlong : JSON_BUF_INIT_VALUE < head.length + 4) :
    run (strstr HTTP_DELIMITER) [[JSON_BUF_INIT_VALUE]] requested
      (head ++ HTTP_DELIMITER ++ body) = .undefined := by
  have hresponse := length_response head body
  rcases requested_readLoop (strstr HTTP_DELIMITER) body (by decide) (le_refl _) (le_of_lt hlong)
    with ⟨r, h, he⟩
  have hlength : ((head ++ HTTP_DELIMITER ++ body).take JSON_BUF_INIT_VALUE).length =
      JSON_BUF_INIT_VALUE := by
    rw [List.length_take]
    omega
  rw [h.advance_overrun hhead (List.take_prefix _ _) (by omega) hlength] at he
  rw [run, requested_inHeader.reading.onRead, requested_inHeader.length, he]
  rfl

theorem take_header (head body : List UInt8) :
    (head ++ HTTP_DELIMITER ++ body).take (head.length + 4) = head ++ HTTP_DELIMITER :=
  List.take_left' List.length_append

theorem drop_header (head body : List UInt8) :
    (head ++ HTTP_DELIMITER ++ body).drop (head.length + 4) = body :=
  List.drop_left' List.length_append

/-- If the header can be read at all, its length is a size. -/
theorem Delivers.bodySize (hhead : Head head) (hfits : head.length + 4 ≤ JSON_BUF_INIT_VALUE)
    (h : Delivers head body) : ∃ size, getBodySize head = .ok size ∧ 0 < size ∧ size < 2 ^ 63 := by
  rcases h [[head.length + 4]] with ⟨p, hrun, -⟩
  rcases requested_readLoop (strstr HTTP_DELIMITER) body (by omega) hfits (le_refl _) with
    ⟨r, hr, he⟩
  rw [take_header] at hr
  rw [run, requested_inHeader.reading.onRead, requested_inHeader.length, he] at hrun
  rcases Outcome.andThen_eq_returned_iff.mp hrun with ⟨p₁, hread, -⟩
  rcases Outcome.andThen_eq_returned_iff.mp hread with ⟨p₂, hloop, -⟩
  rw [advance, if_neg (by rw [hr.ready]; decide)] at hloop
  cases hheader : r.processHeader (strstr HTTP_DELIMITER) with
  | returned x => exact hr.bodySize_of_returned hhead (List.prefix_refl _) hheader
  | threw what x => rw [hheader] at hloop; cases hloop
  | aborted x => rw [hheader] at hloop; cases hloop
  | undefined => rw [hheader] at hloop; cases hloop

theorem requested_onRead_header (body : List UInt8) (hhead : Head head)
    (hfits : head.length + 4 ≤ JSON_BUF_INIT_VALUE) {size : Nat}
    (hsize : getBodySize head = .ok size) (hpos : 0 < size) (hbound : size < 2 ^ 63) :
    ∃ r : Receiver, r.InBody (max JSON_BUF_INIT_VALUE size) size [] ∧
      requested.onRead (strstr HTTP_DELIMITER) .done [head.length + 4]
        (head ++ HTTP_DELIMITER ++ body) = .returned ⟨r, body, none⟩ := by
  have hinit : JSON_BUF_INIT_VALUE = 5000 := rfl
  rcases requested_readLoop (strstr HTTP_DELIMITER) body (by omega) hfits (le_refl _) with
    ⟨r, hr, he⟩
  rw [take_header] at hr
  rcases hr.advance_complete hhead (List.prefix_refl _) hsize hpos hbound with ⟨r', he', hr'⟩
  have hnil : (head ++ HTTP_DELIMITER).drop (head.length + 4) = [] := by
    have hdrop := drop_header head []
    rw [List.append_nil] at hdrop
    exact hdrop
  rw [hnil] at he' hr'
  rw [he', List.length_nil, decide_eq_false (by omega), drop_header] at he
  refine ⟨r', hr', ?_⟩
  rw [requested_inHeader.reading.onRead, requested_inHeader.length, he]
  show finish ⟨r', body, none⟩ = _
  rw [finish]
  exact if_neg (by rw [hr'.mReadOffset, hr'.length, List.length_nil]; omega)

-- As much of the body as the buffer takes: only a full buffer ends the wait.
theorem InBody.onRead_all {size : Nat} {r : Receiver}
    (h : r.InBody (max JSON_BUF_INIT_VALUE size) size []) (hbound : size < 2 ^ 63)
    (hne : body ≠ []) (search : List UInt8 → Search) (connect : SslConnect) :
    ∃ p, r.onRead search connect [body.length] body = .returned p ∧
      p.incoming = body.drop (max JSON_BUF_INIT_VALUE size) ∧
      p.body = if max JSON_BUF_INIT_VALUE size ≤ body.length then some (body.take size)
        else none := by
  have hinit : JSON_BUF_INIT_VALUE = 5000 := rfl
  have hpos := List.length_pos_iff.mpr hne
  generalize hroom : max JSON_BUF_INIT_VALUE size = room at h ⊢
  have hread : sslRead body.length (room - ([] : List UInt8).length) body = body.take room := by
    rw [sslRead, List.length_nil, Nat.sub_zero, Nat.min_comm, ← List.take_take, List.take_length]
  have hlength : (body.take room).length = min room body.length := List.length_take
  have hchunk : body.take room ≠ [] := List.ne_nil_of_length_pos (by omega)
  rcases h.readLoop_cons search (Nat.zero_le _) (le_refl _) (by omega) [] hread hchunk with
    ⟨r', h', he⟩
  rw [List.nil_append] at h' he
  have hrest : body.drop (body.take room).length = body.drop room := by
    rw [hlength]
    by_cases hle : room ≤ body.length
    · rw [Nat.min_eq_left hle]
    · rw [Nat.min_eq_right (by omega), List.drop_length, List.drop_eq_nil_of_le (by omega)]
  have hloop : Receiver.readLoop search room [body.length] r body =
      .returned ⟨r', body.drop room, none⟩ := by
    rw [he, hrest]
    exact ite_self _
  rw [h.reading.onRead, h.length, hloop, Outcome.andThen_returned, finish]
  simp only
  rw [h'.mReadOffset, h'.length, hlength]
  by_cases hle : room ≤ body.length
  · have hbuffer : r'.mBuffer = body.take room :=
      (h'.mBuffer.eq_of_length (by rw [h'.length]; omega)).symm
    have hbody : readAt r'.mBuffer 0 r'.mJsonFullSize = some (body.take size) := by
      rw [hbuffer, h'.mJsonFullSize, readAt, if_pos (by omega), List.drop_zero, List.take_take,
        Nat.min_eq_left (by omega)]
    rw [if_pos (Nat.min_eq_left hle), if_pos hle, hbody, Outcome.attempt_some]
    exact ⟨_, rfl, rfl, rfl⟩
  · rw [if_neg (by omega), if_neg hle]
    exact ⟨_, rfl, rfl, rfl⟩

theorem run_header_then_body (hhead : Head head) (hfits : head.length + 4 ≤ JSON_BUF_INIT_VALUE)
    {size : Nat} (hsize : getBodySize head = .ok size) (hpos : 0 < size) (hbound : size < 2 ^ 63)
    (hne : body ≠ []) :
    ∃ p, run (strstr HTTP_DELIMITER) [[head.length + 4], [body.length]] requested
        (head ++ HTTP_DELIMITER ++ body) = .returned p ∧
      p.incoming = body.drop (max JSON_BUF_INIT_VALUE size) ∧
      p.body = if max JSON_BUF_INIT_VALUE size ≤ body.length then some (body.take size)
        else none := by
  rcases requested_onRead_header body hhead hfits hsize hpos hbound with ⟨r, hr, hheader⟩
  rcases hr.onRead_all hbound hne (strstr HTTP_DELIMITER) .done with ⟨p, hbody, hincoming, hp⟩
  refine ⟨p, ?_, hincoming, hp⟩
  rw [run, hheader, Outcome.andThen_returned]
  show run _ [[body.length]] r body = _
  rw [run, hbody, Outcome.andThen_returned]
  split
  · rfl
  · next hnone =>
      have hnone : p.body = none := by simpa using hnone
      rw [run, ← hnone]

/-- The body is delivered, for every way of reading, exactly if the first `Content-Length` gives its
length, the header fits into the first buffer and the body fills it. -/
theorem delivers_iff (hhead : Head head) (hne : body ≠ []) (hlt : body.length < 2 ^ 31) :
    Delivers head body ↔ getBodySize head = .ok body.length ∧
      head.length + 4 ≤ JSON_BUF_INIT_VALUE ∧ JSON_BUF_INIT_VALUE ≤ body.length := by
  have hpositive := List.length_pos_iff.mpr hne
  apply Iff.intro
  · intro h
    by_cases hfits : head.length + 4 ≤ JSON_BUF_INIT_VALUE
    · rcases h.bodySize hhead hfits with ⟨size, hsize, hpos, hbound⟩
      rcases run_header_then_body hhead hfits hsize hpos hbound hne with ⟨p, hrun, hrest, hp⟩
      rcases h [[head.length + 4], [body.length]] with ⟨p', hrun', hp'⟩
      rw [hrun] at hrun'
      rw [← Outcome.returned.inj hrun', hp, hrest] at hp'
      by_cases hroom : max JSON_BUF_INIT_VALUE size ≤ body.length
      · rw [if_pos hroom] at hp'
        by_cases hnil : body.drop (max JSON_BUF_INIT_VALUE size) = []
        · rw [if_pos hnil, Option.some_inj] at hp'
          have hlength := congrArg List.length hp'
          rw [List.length_take] at hlength
          rw [List.drop_eq_nil_iff] at hnil
          have hequal : size = body.length := by omega
          rw [hequal] at hsize
          exact ⟨hsize, hfits, by omega⟩
        · rw [if_neg hnil] at hp'
          cases hp'
      · -- all of the body has been read, and the buffer is not full
        rw [if_neg hroom, if_pos (List.drop_eq_nil_of_le (by omega))] at hp'
        cases hp'
    · rcases h [[JSON_BUF_INIT_VALUE]] with ⟨p, hrun, -⟩
      rw [run_overrun hhead (by omega)] at hrun
      cases hrun
  · intro h
    exact Fits.delivers ⟨hhead, h.1, h.2.1, h.2.2, by omega⟩

theorem delivers_iff_example : Delivers (okHeader "5000") (List.replicate 5000 0x20) := by
  have hlength : (List.replicate 5000 (0x20 : UInt8)).length = 5000 := List.length_replicate
  have hhead : Head (okHeader "5000") := Head.of_strstr (by decide +kernel)
  have hsize : getBodySize (okHeader "5000") = .ok 5000 := by rfl
  have hne : List.replicate 5000 (0x20 : UInt8) ≠ [] := List.ne_nil_of_length_pos (by omega)
  have hiff := delivers_iff hhead hne (by omega)
  rw [hlength] at hiff
  exact hiff.mpr ⟨hsize, by decide, by decide⟩

/-- A body of two bytes is never delivered: the buffer is larger. -/
theorem small_body_stays : Head (okHeader "2") ∧ getBodySize (okHeader "2") = .ok 2 ∧
    ¬ Delivers (okHeader "2") [0x7B, 0x7D] := by
  have hhead : Head (okHeader "2") := Head.of_strstr (by decide +kernel)
  have hsize : getBodySize (okHeader "2") = .ok 2 := by rfl
  have hfits : (okHeader "2").length + 4 ≤ JSON_BUF_INIT_VALUE := by decide
  refine ⟨hhead, hsize, fun h ↦ ?_⟩
  rcases run_header_then_body hhead hfits hsize (by decide) (by decide)
    (List.cons_ne_nil 0x7B [0x7D]) with ⟨p, hrun, hrest, hp⟩
  rcases h [[(okHeader "2").length + 4], [2]] with ⟨p', hrun', hp'⟩
  rw [show ([0x7B, 0x7D] : List UInt8).length = 2 from rfl] at hrun
  rw [hrun] at hrun'
  rw [← Outcome.returned.inj hrun', hp, hrest, List.drop_eq_nil_of_le (by decide), if_pos rfl,
    if_neg (by decide)] at hp'
  cases hp'

end Receiver

end Tob
