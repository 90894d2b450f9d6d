import Tob.Snapshot.Receiver

/-!
# Reads of the header and of the body

What one read does before the header is complete, at the read that completes it, and behind it.
-/

namespace Tob

namespace Receiver

/-- The request has been sent, and `on_read` reads. -/
structure Reading (r : Receiver) : Prop where
  waits : r.mWaitForRead = true
  connected : r.mSslConnected = true

/-- Before the header is complete: the buffer holds what has been received, and zeros. -/
structure InHeader (got : List UInt8) (r : Receiver) : Prop where
  reading : r.Reading
  ready : r.mReadyToReceiveJson = false
  mReadOffset : r.mReadOffset = got.length
  length : r.mBuffer.length = JSON_BUF_INIT_VALUE
  mBuffer : r.mBuffer = got ++ List.replicate (JSON_BUF_INIT_VALUE - got.length) 0

/-- Behind the header: the buffer starts with what has been received of the body. -/
structure InBody (size full : Nat) (got : List UInt8) (r : Receiver) : Prop where
  reading : r.Reading
  ready : r.mReadyToReceiveJson = true
  mReadOffset : r.mReadOffset = got.length
  length : r.mBuffer.length = size
  mBuffer : got <+: r.mBuffer
  mJsonFullSize : r.mJsonFullSize = full

theorem requested_inHeader : requested.InHeader [] :=
  ⟨⟨rfl, rfl⟩, rfl, rfl, List.length_replicate, rfl⟩

theorem InHeader.length_le {got : List UInt8} {r : Receiver} (h : r.InHeader got) :
    got.length ≤ JSON_BUF_INIT_VALUE := by
  have hbuffer := congrArg List.length h.mBuffer
  have hlength := h.length
  rw [List.length_append, List.length_replicate] at hbuffer
  omega

theorem InBody.length_le {size full : Nat} {got : List UInt8} {r : Receiver}
    (h : r.InBody size full got) : got.length ≤ size := by
  rw [← h.length]
  exact h.mBuffer.length_le

/-! ## A read -/

theorem sslRead_length_le (limit room : Nat) (incoming : List UInt8) :
    (sslRead limit room incoming).length ≤ room := by
  rw [sslRead, List.length_take]
  omega

theorem sslRead_append (limit room : Nat) (incoming : List UInt8) :
    sslRead limit room incoming ++ incoming.drop (sslRead limit room incoming).length =
      incoming := by
  rw [sslRead, List.length_take]
  conv_rhs => rw [← List.take_append_drop (min limit room) incoming]
  congr 1
  by_cases hle : min limit room ≤ incoming.length
  · rw [Nat.min_eq_left hle]
  · rw [Nat.min_eq_right (by omega), List.drop_length, List.drop_eq_nil_of_le (by omega)]

theorem sslRead_split {limit room : Nat} {got incoming chunk all : List UInt8}
    (hread : sslRead limit room incoming = chunk) (hsplit : got ++ incoming = all) :
    got ++ chunk ++ incoming.drop chunk.length = all := by
  have happend := sslRead_append limit room incoming
  rw [hread] at happend
  rw [List.append_assoc, happend, hsplit]

theorem room_eq {r : Receiver} {bufferSize : Nat} (hle : r.mReadOffset ≤ bufferSize)
    (hsize : bufferSize < 2 ^ 64) : r.room bufferSize = bufferSize - r.mReadOffset :=
  Frame.diff_eq hle (by omega)

theorem InHeader.store {got : List UInt8} {r : Receiver} (h : r.InHeader got) (chunk : List UInt8)
    (hroom : got.length + chunk.length ≤ JSON_BUF_INIT_VALUE) :
    ∃ r', r.store chunk = some r' ∧ r'.InHeader (got ++ chunk) := by
  have hzeros : JSON_BUF_INIT_VALUE - got.length - chunk.length =
      JSON_BUF_INIT_VALUE - (got ++ chunk).length := by
    rw [List.length_append]
    omega
  have hwrite := writeAt_zeros (Eq.refl got.length)
    (show chunk.length ≤ JSON_BUF_INIT_VALUE - got.length by omega)
  rw [hzeros] at hwrite
  rw [Receiver.store, h.mReadOffset, h.mBuffer, hwrite, Option.map_some]
  refine ⟨_, rfl, ⟨h.reading.waits, h.reading.connected⟩, h.ready, ?_, ?_, rfl⟩
  · exact List.length_append.symm
  · show List.length (_ ++ _) = _
    rw [List.length_append, List.length_replicate, List.length_append]
    omega

theorem InBody.store {size full : Nat} {got : List UInt8} {r : Receiver}
    (h : r.InBody size full got) (chunk : List UInt8) (hroom : got.length + chunk.length ≤ size) :
    ∃ r', r.store chunk = some r' ∧ r'.InBody size full (got ++ chunk) := by
  have hlength := h.length
  rw [Receiver.store, writeAt, h.mReadOffset, if_pos (by omega), Option.map_some]
  have hfront : r.mBuffer.take got.length = got := (List.prefix_iff_eq_take.mp h.mBuffer).symm
  refine ⟨_, rfl, ⟨h.reading.waits, h.reading.connected⟩, h.ready, ?_, ?_, ?_, h.mJsonFullSize⟩
  · exact List.length_append.symm
  · show List.length (_ ++ _ ++ _) = _
    rw [List.length_append, List.length_append, List.length_drop, hfront]
    omega
  · show got ++ chunk <+: _ ++ _ ++ _
    rw [hfront]
    exact List.prefix_append _ _

theorem InBody.advance {size full : Nat} {got : List UInt8} {r : Receiver}
    (h : r.InBody size full got) (search : List UInt8 → Search) :
    r.advance search = .returned (r, decide (got.length = full)) := by
  rw [Receiver.advance, if_pos h.ready, h.mReadOffset, h.mJsonFullSize]

theorem readLoop_stop (search : List UInt8 → Search) {bufferSize limit : Nat} {r : Receiver}
    {incoming : List UInt8} (limits : List Nat)
    (hread : sslRead limit (r.room bufferSize) incoming = []) :
    readLoop search bufferSize (limit :: limits) r incoming = .returned ⟨r, incoming, none⟩ := by
  rw [readLoop]
  exact if_pos hread

theorem readLoop_read (search : List UInt8 → Search) {bufferSize limit : Nat} {r r₁ : Receiver}
    {incoming chunk : List UInt8} (limits : List Nat)
    (hread : sslRead limit (r.room bufferSize) incoming = chunk) (hchunk : chunk ≠ [])
    (hstore : r.store chunk = some r₁) :
    readLoop search bufferSize (limit :: limits) r incoming =
      proceed (fun r ↦ readLoop search bufferSize limits r (incoming.drop chunk.length))
        (incoming.drop chunk.length) (r₁.advance search) := by
  rw [readLoop, hread, if_neg hchunk, hstore, Outcome.attempt_some]

theorem Reading.onRead {r : Receiver} (h : r.Reading) (search : List UInt8 → Search)
    (connect : SslConnect) (limits : List Nat) (incoming : List UInt8) :
    r.onRead search connect limits incoming =
      (Receiver.readLoop search r.mBuffer.length limits r incoming).andThen finish := by
  rw [Receiver.onRead, h.waits, h.connected]
  rfl

/-! ## process_header -/

theorem cString_set {head rest : List UInt8} (hhead : Head head) (hrest : rest ≠ []) :
    cString ((head ++ rest).set head.length 0) = head := by
  cases rest with
  | nil => exact absurd rfl hrest
  | cons b rest =>
      rw [List.set_append_right _ _ (le_refl _), Nat.sub_self, List.set_cons_zero, cString,
        List.takeWhile_append_of_pos fun b hb ↦ decide_eq_true (hhead.text b hb),
        List.takeWhile_cons_of_neg (by decide), List.append_nil]

-- Behind what has been received there is a zero while there is room.
theorem InHeader.mBuffer_zero {got : List UInt8} {r : Receiver} (h : r.InHeader got)
    (hroom : got.length < JSON_BUF_INIT_VALUE) : ∃ more, r.mBuffer = got ++ 0 :: more := by
  have hsucc : JSON_BUF_INIT_VALUE - got.length = JSON_BUF_INIT_VALUE - got.length - 1 + 1 := by
    omega
  exact ⟨_, h.mBuffer.trans (by rw [hsucc, List.replicate_succ])⟩

-- In the header a read ends with `process_header`.
theorem advance_of_returned {search : List UInt8 → Search} {r r' : Receiver} {complete : Bool}
    (hready : r.mReadyToReceiveJson = false)
    (h : r.processHeader search = .returned (r', complete)) :
    r.advance search =
      .returned (r', complete && decide (r'.mReadOffset = r'.mJsonFullSize)) := by
  rw [advance, if_neg (by rw [hready]; decide), h]

/-- The header is not complete, and neither is the buffer full: nothing happens. -/
theorem InHeader.advance_incomplete {head body got : List UInt8} (hhead : Head head)
    {r : Receiver} (h : r.InHeader got) (hp : got <+: head ++ HTTP_DELIMITER ++ body)
    (hlt : got.length < head.length + 4) (hroom : got.length < JSON_BUF_INIT_VALUE) :
    r.advance (strstr HTTP_DELIMITER) = .returned (r, false) := by
  have hlength := h.length
  have hended : strstr HTTP_DELIMITER r.mBuffer = .ended := by
    rcases h.mBuffer_zero hroom with ⟨more, hbuffer⟩
    rw [hbuffer]
    exact hhead.strstr_incomplete hp hlt
  have hheader : r.processHeader (strstr HTTP_DELIMITER) = .returned (r, false) := by
    rw [processHeader, hended]
    exact if_neg (by rw [h.mReadOffset]; omega)
  exact advance_of_returned h.ready hheader

-- The buffer is full of the header: the search leaves it.
theorem InHeader.advance_overrun {head body got : List UInt8} (hhead : Head head)
    {r : Receiver} (h : r.InHeader got) (hp : got <+: head ++ HTTP_DELIMITER ++ body)
    (hlt : got.length < head.length + 4) (hfull : got.length = JSON_BUF_INIT_VALUE) :
    r.advance (strstr HTTP_DELIMITER) = .undefined := by
  have hoverrun : strstr HTTP_DELIMITER r.mBuffer = .overrun := by
    rw [h.mBuffer, hfull, Nat.sub_self, List.replicate_zero, List.append_nil]
    exact hhead.strstr_full hp hlt
  rw [advance, if_neg (by rw [h.ready]; decide), processHeader, hoverrun]

-- What `strstr` and the header text are when the header is complete.
theorem InHeader.found {head got : List UInt8} (hhead : Head head) {r : Receiver}
    (h : r.InHeader got) (hp : head ++ HTTP_DELIMITER <+: got) :
    strstr HTTP_DELIMITER r.mBuffer = .found head.length ∧
      cString (r.mBuffer.set head.length 0) = head := by
  rcases hp with ⟨behind, hbehind⟩
  have hwhole : got <+: head ++ HTTP_DELIMITER ++ behind := by
    rw [hbehind]
  have hlength : head.length + 4 ≤ got.length := by
    rw [← hbehind, List.length_append, List.length_append]
    exact Nat.le_add_right _ _
  apply And.intro
  · rw [h.mBuffer]
    exact hhead.strstr hwhole hlength
  · rw [h.mBuffer, ← hbehind, List.append_assoc, List.append_assoc]
    exact cString_set hhead (List.append_ne_nil_of_left_ne_nil delimiter_ne_nil _)

/-- Only a length that is a size lets `process_header` return. -/
theorem InHeader.bodySize_of_returned {head got : List UInt8} (hhead : Head head) {r : Receiver}
    (h : r.InHeader got) (hp : head ++ HTTP_DELIMITER <+: got) {x : Receiver × Bool}
    (hreturned : r.processHeader (strstr HTTP_DELIMITER) = .returned x) :
    ∃ size, getBodySize head = .ok size ∧ 0 < size ∧ size < 2 ^ 63 := by
  rcases h.found hhead hp with ⟨hfound, htext⟩
  have hlength : (r.mBuffer.set head.length 0).length = JSON_BUF_INIT_VALUE := by
    rw [List.length_set, h.length]
  have hsmall : JSON_BUF_INIT_VALUE = 5000 := rfl
  rw [processHeader, hfound] at hreturned
  simp only at hreturned
  rw [htext] at hreturned
  cases hsize : getBodySize head with
  | error what => rw [hsize] at hreturned; cases hreturned
  | ok size =>
      rw [hsize] at hreturned
      simp only at hreturned
      by_cases hzero : size = 0
      · rw [if_pos hzero] at hreturned
        cases hreturned
      · rw [if_neg hzero, hlength] at hreturned
        by_cases hhuge : 2 ^ 63 ≤ size
        · rw [if_pos (by omega), if_pos hhuge] at hreturned
          cases hreturned
        · exact ⟨size, rfl, by omega, by omega⟩

-- The part of the body that has arrived with the header goes to the front.
theorem copyTo_front (r : Receiver) {source : Nat} {bytes : List UInt8}
    (hread : readAt r.mBuffer source r.mReadOffset = some bytes) (target : List UInt8)
    (hfits : bytes.length ≤ target.length) :
    ∃ mBuffer, r.copyTo source target = some mBuffer ∧ mBuffer.length = target.length ∧
      bytes <+: mBuffer := by
  refine ⟨bytes ++ target.drop bytes.length, ?_, ?_, List.prefix_append _ _⟩
  · rw [copyTo, hread, Option.bind_some, writeAt, if_pos (by omega), Nat.zero_add]
    rfl
  · rw [List.length_append, List.length_drop]
    omega

/-- The delimiter is found in what has been received, and the length is a size: the body begins. -/
theorem processHeader_found {search : List UInt8 → Search} {r : Receiver} (hreading : r.Reading)
    {delim : Nat} (hfound : search r.mBuffer = .found delim) (hle : delim + 4 ≤ r.mReadOffset)
    (hfits : r.mReadOffset ≤ r.mBuffer.length) (hbuffer : r.mBuffer.length < 2 ^ 63) {size : Nat}
    (hsize : getBodySize (cString (r.mBuffer.set delim 0)) = .ok size) (hpos : 0 < size)
    (hbound : size < 2 ^ 63) :
    ∃ r', r.processHeader search = .returned (r', true) ∧
      r'.InBody (max r.mBuffer.length size) size
        ((r.mBuffer.take r.mReadOffset).drop (delim + 4)) := by
  have hoffset : Frame.diff r.mReadOffset (delim + 4) = r.mReadOffset - (delim + 4) :=
    Frame.diff_eq hle (by omega)
  have hset : (r.mBuffer.set delim 0).length = r.mBuffer.length := List.length_set
  generalize hgot : (r.mBuffer.take r.mReadOffset).drop (delim + 4) = got
  have hrest : got.length = r.mReadOffset - (delim + 4) := by
    rw [← hgot, List.length_drop, List.length_take, Nat.min_eq_left hfits]
  -- the zero that ends the header text is in front of what is copied
  let copied : Receiver := { r with
    mBuffer := r.mBuffer.set delim 0
    mJsonFullSize := size
    mReadOffset := r.mReadOffset - (delim + 4) }
  have hread : readAt copied.mBuffer (delim + 4) copied.mReadOffset = some got := by
    show readAt (r.mBuffer.set delim 0) _ (r.mReadOffset - (delim + 4)) = _
    rw [readAt, if_pos (by omega), List.drop_set_of_lt (by omega), ← hgot, List.drop_take]
  rw [processHeader, hfound]
  simp only
  rw [hsize]
  simp only
  rw [if_neg (by omega), hoffset, hset]
  by_cases hlarge : r.mBuffer.length < size
  · have hzeros : (List.replicate size (0 : UInt8)).length = size := List.length_replicate
    rcases copyTo_front copied hread (List.replicate size 0) (by omega) with
      ⟨mBuffer, he, hlen, hfront⟩
    rw [if_pos hlarge, if_neg (by omega), he, Outcome.attempt_some]
    refine ⟨_, rfl, ⟨hreading.waits, hreading.connected⟩, rfl, hrest.symm, ?_, hfront, rfl⟩
    rw [Nat.max_eq_right (by omega), ← hzeros]
    exact hlen
  · rcases copyTo_front copied hread (r.mBuffer.set delim 0) (by omega) with
      ⟨mBuffer, he, hlen, hfront⟩
    rw [if_neg hlarge, he, Outcome.attempt_some]
    refine ⟨_, rfl, ⟨hreading.waits, hreading.connected⟩, rfl, hrest.symm, ?_, hfront, rfl⟩
    rw [Nat.max_eq_left (by omega), ← hset]
    exact hlen

/-- The header is complete, and its length is a size: the body begins. -/
theorem InHeader.processHeader_complete {head got : List UInt8} (hhead : Head head) {r : Receiver}
    (h : r.InHeader got) (hp : head ++ HTTP_DELIMITER <+: got) {size : Nat}
    (hsize : getBodySize head = .ok size) (hpos : 0 < size) (hbound : size < 2 ^ 63) :
    ∃ r', r.processHeader (strstr HTTP_DELIMITER) = .returned (r', true) ∧
      r'.InBody (max JSON_BUF_INIT_VALUE size) size (got.drop (head.length + 4)) := by
  have hinit : JSON_BUF_INIT_VALUE = 5000 := rfl
  have hfull := h.length_le
  have hoffset := h.mReadOffset
  have hlength : head.length + 4 ≤ got.length := by
    have hle := hp.length_le
    rw [List.length_append] at hle
    exact hle
  rcases h.found hhead hp with ⟨hfound, htext⟩
  have hgot : r.mBuffer.take r.mReadOffset = got := by rw [hoffset, h.mBuffer, List.take_left]
  rw [← htext] at hsize
  have hprocess := processHeader_found h.reading hfound (by omega) (by rw [h.length]; omega)
    (by rw [h.length]; decide) hsize hpos hbound
  rw [h.length, hgot] at hprocess
  exact hprocess

theorem InHeader.advance_complete {head got : List UInt8} (hhead : Head head) {r : Receiver}
    (h : r.InHeader got) (hp : head ++ HTTP_DELIMITER <+: got) {size : Nat}
    (hsize : getBodySize head = .ok size) (hpos : 0 < size) (hbound : size < 2 ^ 63) :
    ∃ r', r.advance (strstr HTTP_DELIMITER) =
        .returned (r', decide ((got.drop (head.length + 4)).length = size)) ∧
      r'.InBody (max JSON_BUF_INIT_VALUE size) size (got.drop (head.length + 4)) := by
  rcases h.processHeader_complete hhead hp hsize hpos hbound with ⟨r', he, hbody⟩
  refine ⟨r', ?_, hbody⟩
  rw [advance_of_returned h.ready he, Bool.true_and, hbody.mReadOffset, hbody.mJsonFullSize]

/-- A header with this length. -/
def okHeader (length : String) : List UInt8 :=
  ascii ("HTTP/1.1 200 OK\r\nContent-Length: " ++ length)

end Receiver

end Tob
