import Tob.Snapshot.Delivery
import Tob.Snapshot.Tls

/-!
# The snapshot connection

From the TLS handshake to the last byte of the response: what the client hands to `process_json`, in
whatever order its socket becomes readable and writable.
-/

namespace Tob

theorem Receiver.Phase.reading {head body incoming : List UInt8} {r : Receiver}
    (h : Phase head body r incoming) : r.Reading := by
  cases h with
  | header hin => exact hin.reading
  | body hin => exact hin.reading

namespace Receiver

theorem readLoop_incoming {search : List UInt8 → Search} {bufferSize limit : Nat} {r : Receiver}
    {incoming : List UInt8} {p : Progress}
    (h : readLoop search bufferSize [limit] r incoming = .returned p) :
    p.incoming = incoming.drop (sslRead limit (r.room bufferSize) incoming).length := by
  unfold readLoop at h
  simp only at h
  by_cases hchunk : sslRead limit (r.room bufferSize) incoming = []
  · rw [if_pos hchunk] at h
    cases h
    rw [hchunk, List.length_nil, List.drop_zero]
  · rw [if_neg hchunk] at h
    rcases Outcome.attempt_eq_returned_iff.mp h with ⟨r₁, -, h⟩
    cases hadvance : r₁.advance search with
    | returned x =>
        rw [hadvance] at h
        rcases x with ⟨r₂, breaks⟩
        cases breaks with
        | true => cases h; rfl
        | false => cases h; rfl
    | threw what x => rw [hadvance] at h; cases h
    | aborted x => rw [hadvance] at h; cases h
    | undefined => rw [hadvance] at h; cases h

/-- There is room for what is left of the response, in either half of it. -/
theorem Phase.room_pos {head body incoming : List UInt8} (hfits : Fits head body) {r : Receiver}
    (h : Phase head body r incoming) (hne : incoming ≠ []) : 0 < r.room r.mBuffer.length := by
  have hheader := hfits.headerFits
  have hbound := hfits.bound
  cases h with
  | header hin hsplit hlt =>
      rw [hin.length, hin.room]
      omega
  | body hin hsplit =>
      have hsum := congrArg List.length hsplit
      have hpos := List.length_pos_iff.mpr hne
      rw [List.length_append] at hsum
      rw [hin.length, hin.room (by omega) (by omega)]
      omega

/-- A call that gets one byte takes it off the response. -/
theorem Phase.onRead_one {head body incoming : List UInt8} (hfits : Fits head body) {r : Receiver}
    (h : Phase head body r incoming) (hne : incoming ≠ []) :
    ∃ p, r.onRead (strstr HTTP_DELIMITER) .done [1] incoming = .returned p ∧
      p.incoming = incoming.drop 1 ∧ Phase head body p.receiver p.incoming ∧
      p.body = if p.incoming = [] then some body else none := by
  rcases h.onRead hfits .done [1] with ⟨p, hp, hphase, hbody⟩
  refine ⟨p, hp, ?_, hphase, hbody⟩
  rw [h.reading.onRead] at hp
  rcases Outcome.andThen_eq_returned_iff.mp hp with ⟨p₁, hloop, hfinish⟩
  have hkeeps : p.receiver = p₁.receiver ∧ p.incoming = p₁.incoming :=
    finish_keeps (by rw [hfinish]; rfl)
  have hroom := h.room_pos hfits hne
  have hpos := List.length_pos_iff.mpr hne
  rw [hkeeps.2, readLoop_incoming hloop, sslRead, List.length_take]
  congr 1
  omega

end Receiver

namespace Client

variable {request head body : List UInt8} {c c' : Client}

/-- The bytes of the response that `on_read` leaves on the socket. -/
def leaves (search : List UInt8 → Search) (result : SslResult) (limits : List Nat)
    (incoming : List UInt8) (c : Client) : List UInt8 :=
  ((c.receiver.onRead search result.connect limits incoming).state?.map
    Receiver.Progress.incoming).getD incoming

/-- The receiver of a client that is through with the request. -/
def requested (r : Receiver) : Receiver := { r with mWaitForRead := true, mSslConnected := true }

theorem requested_of_connected {r : Receiver} (h : r.mSslConnected = true) :
    { r with mWaitForRead := true } = requested r := by
  cases r
  cases h
  rfl

theorem requested_of_reading {r : Receiver} (h : r.Reading) : requested r = r := by
  rcases h with ⟨hwaits, hconnected⟩
  cases r
  cases hwaits
  cases hconnected
  rfl

/-- But for the two flags, which the handshake and the request set, the client is somewhere in the
response; there is something left of it.  What is left of the request starts within it. -/
structure Serving (request head body : List UInt8) (c : Client) (incoming : List UInt8) :
    Prop where
  phase : Receiver.Phase head body (requested c.receiver) incoming
  left : incoming ≠ []
  mRequest : c.mRequest = request
  offered : c.mWriteOffset ≤ c.mRequest.length

theorem new_serving (url : Url) (head body : List UInt8) :
    Serving (snapshotRequest url) head body (new url) (head ++ HTTP_DELIMITER ++ body) where
  phase := .header Receiver.requested_inHeader rfl (Nat.lt_add_left _ (by decide))
  left := List.append_ne_nil_of_left_ne_nil
    (List.append_ne_nil_of_right_ne_nil _ delimiter_ne_nil) _
  mRequest := rfl
  offered := Nat.zero_le _

/-! ## on_write -/

/-- The flags may have changed in the receiver, and more of the request may have been accepted. -/
structure Advances (r : Receiver) (request : List UInt8) (c' : Client) : Prop where
  receiver : requested c'.receiver = requested r
  mRequest : c'.mRequest = request
  offered : c'.mWriteOffset ≤ c'.mRequest.length

theorem advances_waitIfSent (h : c.mWriteOffset ≤ c.mRequest.length) :
    Advances c.receiver c.mRequest (if c.mRequest.length ≤ c.mWriteOffset then
      { c with receiver := { c.receiver with mWaitForRead := true } } else c) := by
  split
  · exact ⟨rfl, rfl, h⟩
  · exact ⟨rfl, rfl, h⟩

/-- `on_write` offers what has not been accepted, and stays within the request. -/
theorem send_advances (h : c.mWriteOffset ≤ c.mRequest.length) (writes : List Int) :
    (c.send writes).Ensures (Advances c.receiver c.mRequest) := by
  induction writes generalizing c with
  | nil => exact Outcome.ensures_returned (advances_waitIfSent (c := c.call _) h)
  | cons writed writes ih =>
      have hdiff : Frame.diff c.mRequest.length c.mWriteOffset ≤
          c.mRequest.length - c.mWriteOffset := by
        unfold Frame.diff Frame.wrap
        omega
      have hfits : c.mWriteOffset +
          min writed.toNat (Frame.diff c.mRequest.length c.mWriteOffset) ≤ c.mRequest.length := by
        omega
      have hread : ∃ bytes, readAt c.mRequest c.mWriteOffset (min writed.toNat
          (Frame.diff c.mRequest.length c.mWriteOffset)) = some bytes := ⟨_, if_pos hfits⟩
      rcases hread with ⟨bytes, hread⟩
      have hlength := (readAt_eq_some hread).2.1
      rw [send, hread, Outcome.attempt_some]
      by_cases hfails : writed < 0
      · rw [if_pos hfails]
        exact Outcome.ensures_threw _ _ _
      · rw [if_neg hfails]
        by_cases hnone : bytes = []
        · rw [if_pos hnone]
          exact Outcome.ensures_returned (advances_waitIfSent (c := c.call _) h)
        · rw [if_neg hnone]
          have hrest := ih (c := { c.call (.write c.mSsl bytes) with
            mWriteOffset := c.mWriteOffset + bytes.length }) (hlength ▸ hfits)
          exact hrest

/-- `ssl_connect` has to do with the flags only. -/
theorem sslConnect_ensures (result : SslResult) :
    (c.sslConnect result).Ensures fun p ↦ requested p.1.receiver = requested c.receiver ∧
      p.1.mRequest = c.mRequest ∧ p.1.mWriteOffset = c.mWriteOffset := by
  cases result with
  | failed => exact Outcome.ensures_aborted _ _
  | _ => exact Outcome.ensures_returned ⟨rfl, rfl, rfl⟩

theorem whenConnected_ensures {f : Client → Outcome Client} {o : Outcome (Client × Bool)}
    {P : Client × Bool → Prop} {Q : Client → Prop} (ho : o.Ensures P)
    (hf : ∀ c, P (c, true) → (f c).Ensures Q) (hstay : ∀ c, P (c, false) → Q c) :
    (whenConnected f o).Ensures Q := by
  cases o with
  | returned p =>
      rcases p with ⟨c, connected⟩
      have hp := ho.2 _ rfl
      cases connected with
      | true => exact hf c hp
      | false => exact Outcome.ensures_returned (hstay c hp)
  | threw what p => exact Outcome.ensures_threw _ _ _
  | aborted p => exact Outcome.ensures_aborted _ _
  | undefined => exact absurd rfl ho.1

/-- `on_write` leaves the client where it is in the response. -/
theorem Serving.onWrite {incoming : List UInt8} (h : Serving request head body c incoming)
    (result : SslResult) (writes : List Int) :
    (c.onWrite result writes).Ensures fun c' ↦ Serving request head body c' incoming := by
  have hadvances {r : Receiver} {mRequest : List UInt8} {c' : Client} (hc : Advances r mRequest c')
      (hphase : Receiver.Phase head body (requested r) incoming) (hrequest : mRequest = request) :
      Serving request head body c' incoming :=
    ⟨hc.receiver ▸ hphase, h.left, hc.mRequest.trans hrequest, hc.offered⟩
  unfold Client.onWrite
  by_cases hwait : c.receiver.mWaitForRead = true
  · rw [if_pos hwait]
    exact Outcome.ensures_returned h
  · rw [if_neg hwait]
    simp only
    by_cases hconnected : c.receiver.mSslConnected = true
    · rw [if_pos hconnected]
      exact (send_advances (c := { c with mSsl := true }) h.offered writes).imp
        fun c' hc ↦ hadvances hc h.phase h.mRequest
    · rw [if_neg hconnected]
      refine whenConnected_ensures (sslConnect_ensures result) ?_ ?_
      · rintro c₁ ⟨hreceiver, hrequest, hoffset⟩
        have hoffered : c₁.mWriteOffset ≤ c₁.mRequest.length := by
          rw [hrequest, hoffset]
          exact h.offered
        exact (send_advances hoffered writes).imp fun c' hc ↦
          hadvances hc (hreceiver ▸ h.phase) (hrequest.trans h.mRequest)
      · rintro c₁ ⟨hreceiver, hrequest, hoffset⟩
        refine ⟨hreceiver ▸ h.phase, h.left, hrequest.trans h.mRequest, ?_⟩
        rw [hrequest, hoffset]
        exact h.offered

/-! ## on_read -/

theorem receiver_sslConnect_ensures (r : Receiver) (connect : SslConnect) :
    (r.sslConnect connect).Ensures fun p ↦ requested p.1 = requested r := by
  cases connect with
  | failed => exact Outcome.ensures_aborted _ _
  | _ => exact Outcome.ensures_returned rfl

/-- `on_read` takes the client on in the response, or it has the handshake to do first.  The body is
handed over with its last byte, and not before. -/
theorem Serving.onRead (hfits : Receiver.Fits head body) {incoming : List UInt8}
    (h : Serving request head body c incoming) (result : SslResult) (limits : List Nat) :
    (c.onRead (strstr HTTP_DELIMITER) result limits incoming).Ensures fun c' ↦
      (c.leaves (strstr HTTP_DELIMITER) result limits incoming ≠ [] →
        Serving request head body c' (c.leaves (strstr HTTP_DELIMITER) result limits incoming)) ∧
      c.delivers (strstr HTTP_DELIMITER) result limits incoming =
        if c.leaves (strstr HTTP_DELIMITER) result limits incoming = [] then some body
        else none := by
  -- what the receiver does is what the client does
  have hclient {P : Receiver.Progress → Prop}
      (hr : (c.receiver.onRead (strstr HTTP_DELIMITER) result.connect limits incoming).Ensures P)
      (hP : ∀ p, P p → Receiver.Phase head body (requested p.receiver) p.incoming ∧
        p.body = if p.incoming = [] then some body else none) :
      (c.onRead (strstr HTTP_DELIMITER) result limits incoming).Ensures fun c' ↦
        (c.leaves (strstr HTTP_DELIMITER) result limits incoming ≠ [] →
          Serving request head body c' (c.leaves (strstr HTTP_DELIMITER) result limits incoming)) ∧
        c.delivers (strstr HTTP_DELIMITER) result limits incoming =
          if c.leaves (strstr HTTP_DELIMITER) result limits incoming = [] then some body
          else none := by
    unfold Client.onRead leaves delivers
    cases hread : c.receiver.onRead (strstr HTTP_DELIMITER) result.connect limits incoming with
    | returned p =>
        rcases hP p (hr.2 p hread) with ⟨hphase, hbody⟩
        exact Outcome.ensures_returned ⟨fun hne ↦ ⟨hphase, hne, h.mRequest, h.offered⟩, hbody⟩
    | threw what p => exact Outcome.ensures_threw _ _ _
    | aborted p => exact Outcome.ensures_aborted _ _
    | undefined => exact absurd hread hr.1
  by_cases hready : c.receiver.mWaitForRead = true ∧ c.receiver.mSslConnected = true
  · -- the response is read
    have hphase := h.phase
    rw [requested_of_reading ⟨hready.1, hready.2⟩] at hphase
    rcases hphase.onRead hfits result.connect limits with ⟨p, hp, hphase', hbody⟩
    refine hclient (P := fun p' ↦ p' = p) (by rw [hp]; exact Outcome.ensures_returned rfl) ?_
    rintro p' rfl
    rw [requested_of_reading hphase'.reading]
    exact ⟨hphase', hbody⟩
  · -- the flags are all that may change
    refine hclient (P := fun p ↦ requested p.receiver = requested c.receiver ∧
      p.incoming = incoming ∧ p.body = none) ?_ ?_
    · unfold Receiver.onRead
      by_cases hwait : c.receiver.mWaitForRead = true
      · have hconnected : c.receiver.mSslConnected = false := by
          rw [← Bool.not_eq_true]
          exact fun hconnected ↦ hready ⟨hwait, hconnected⟩
        rw [hwait, hconnected, Bool.not_true, if_neg Bool.false_ne_true, Bool.not_false, if_pos rfl]
        have hconnect := receiver_sslConnect_ensures c.receiver result.connect
        cases hs : c.receiver.sslConnect result.connect with
        | returned p => exact Outcome.ensures_returned ⟨hconnect.2 p hs, rfl, rfl⟩
        | threw what p => exact Outcome.ensures_threw _ _ _
        | aborted p => exact Outcome.ensures_aborted _ _
        | undefined => exact absurd hs hconnect.1
      · rw [Bool.not_eq_true] at hwait
        rw [hwait, Bool.not_false, if_pos rfl]
        exact Outcome.ensures_returned ⟨rfl, rfl, rfl⟩
    · rintro p ⟨hreceiver, hincoming, hnone⟩
      rw [hreceiver, hincoming, if_neg h.left]
      exact ⟨h.phase, hnone⟩

/-! ## What is left to do -/

/-- The bytes left of the response, and what has to come before them: the request, and the handshake
where `on_read` is waited for. -/
def remaining (c : Client) (incoming : List UInt8) : Nat :=
  incoming.length +
    if c.receiver.mWaitForRead then if c.receiver.mSslConnected then 0 else 2 else 1

/-- A call that accepts all it is offered ends the request. -/
theorem send_all (hoffered : c.mWriteOffset ≤ c.mRequest.length)
    (hlt : c.mRequest.length < 2 ^ 64) :
    ∃ c', c.send [(c.mRequest.length : Int)] = .returned c' ∧
      c'.receiver = { c.receiver with mWaitForRead := true } := by
  have hcount : min (c.mRequest.length : Int).toNat
      (Frame.diff c.mRequest.length c.mWriteOffset) = c.mRequest.length - c.mWriteOffset := by
    rw [Frame.diff_eq hoffered (by omega), Int.toNat_natCast]
    omega
  have hread : readAt c.mRequest c.mWriteOffset (c.mRequest.length - c.mWriteOffset) =
      some (c.mRequest.drop c.mWriteOffset) := by
    rw [readAt, if_pos (by omega), List.take_of_length_le (by rw [List.length_drop])]
  simp only [send, hcount, hread, Outcome.attempt_some]
  rw [if_neg (by omega)]
  by_cases hnone : c.mRequest.drop c.mWriteOffset = []
  · have hsent : c.mRequest.length ≤ c.mWriteOffset := List.drop_eq_nil_iff.mp hnone
    rw [if_pos hnone]
    exact ⟨_, rfl, congrArg Client.receiver (if_pos hsent)⟩
  · have hsent : c.mRequest.length ≤
        c.mWriteOffset + (c.mRequest.drop c.mWriteOffset).length := by
      rw [List.length_drop]
      omega
    rw [if_neg hnone]
    exact ⟨_, rfl, congrArg Client.receiver (if_pos hsent)⟩

/-- A client reads as its receiver does. -/
theorem reads_of_receiver {limits : List Nat} {incoming : List UInt8} {p : Receiver.Progress}
    (hr : c.receiver.onRead (strstr HTTP_DELIMITER) .done limits incoming = .returned p) :
    (∃ c', c.onRead (strstr HTTP_DELIMITER) .one limits incoming = .returned c' ∧
        c'.receiver = p.receiver) ∧
      c.leaves (strstr HTTP_DELIMITER) .one limits incoming = p.incoming ∧
      c.delivers (strstr HTTP_DELIMITER) .one limits incoming = p.body := by
  have hdone : SslResult.one.connect = .done := rfl
  refine ⟨⟨_, by rw [Client.onRead, hdone, hr]; rfl, rfl⟩, ?_, ?_⟩
  · rw [Client.leaves, hdone, hr]
    rfl
  · rw [Client.delivers, hdone, hr]
    rfl

theorem remaining_of_reading {r : Receiver} (h : r.Reading) {incoming : List UInt8}
    (hc : c.receiver = r) : c.remaining incoming = incoming.length := by
  unfold remaining
  rw [hc, h.1, h.2, if_pos rfl, if_pos rfl, Nat.add_zero]

/-- One call is enough for the handshake and the request. -/
theorem onWrite_all (hoffered : c.mWriteOffset ≤ c.mRequest.length)
    (hlt : c.mRequest.length < 2 ^ 64) (hwait : c.receiver.mWaitForRead = false) :
    ∃ c', c.onWrite .one [(c.mRequest.length : Int)] = .returned c' ∧
      c'.receiver = requested c.receiver := by
  unfold Client.onWrite
  rw [if_neg (by rw [hwait]; decide)]
  simp only
  by_cases hconnected : c.receiver.mSslConnected = true
  · rcases send_all (c := { c with mSsl := true }) hoffered hlt with ⟨c', hsend, hreceiver⟩
    rw [if_pos hconnected]
    exact ⟨c', hsend, hreceiver.trans (requested_of_connected hconnected)⟩
  · rw [if_neg hconnected]
    rcases send_all (c := { c with
      receiver := { c.receiver with mSslConnected := true, mWaitForRead := false }, mSsl := true,
      calls := c.calls ++ [.connect true .one] }) hoffered hlt with ⟨c', hsend, hreceiver⟩
    exact ⟨c', hsend, hreceiver⟩

/-- While `on_write` is waited for, it brings the client closer to the end of the response. -/
theorem Serving.onWrite_all {incoming : List UInt8} (h : Serving request head body c incoming)
    (hlt : request.length < 2 ^ 64) (hwait : c.receiver.mWaitForRead = false) :
    ∃ c', c.onWrite .one [(request.length : Int)] = .returned c' ∧
      c'.remaining incoming < c.remaining incoming := by
  rcases h with ⟨-, -, rfl, hoffered⟩
  rcases Client.onWrite_all hoffered hlt hwait with ⟨c', hwrite, hreceiver⟩
  refine ⟨c', hwrite, ?_⟩
  rw [remaining_of_reading ⟨rfl, rfl⟩ hreceiver, remaining, hwait, if_neg Bool.false_ne_true]
  omega

/-- While `on_read` is waited for, one call is enough for the handshake or for a byte. -/
theorem Serving.onRead_one (hfits : Receiver.Fits head body) {incoming : List UInt8}
    (h : Serving request head body c incoming) (hwait : c.receiver.mWaitForRead = true) :
    ∃ c', c.onRead (strstr HTTP_DELIMITER) .one [1] incoming = .returned c' ∧
      c'.remaining (c.leaves (strstr HTTP_DELIMITER) .one [1] incoming) <
        c.remaining incoming := by
  by_cases hconnected : c.receiver.mSslConnected = true
  · -- a byte of the response
    have hphase := h.phase
    rw [requested_of_reading ⟨hwait, hconnected⟩] at hphase
    rcases hphase.onRead_one hfits h.left with ⟨p, hp, hincoming, hphase', -⟩
    rcases reads_of_receiver hp with ⟨⟨c', hread, hreceiver⟩, hleaves, -⟩
    refine ⟨c', hread, ?_⟩
    have hpos := List.length_pos_iff.mpr h.left
    rw [hleaves, remaining_of_reading hphase'.reading hreceiver,
      remaining_of_reading ⟨hwait, hconnected⟩ rfl, hincoming, List.length_drop]
    omega
  · -- the handshake
    have hp : c.receiver.onRead (strstr HTTP_DELIMITER) .done [1] incoming =
        .returned ⟨{ c.receiver with mSslConnected := true, mWaitForRead := false }, incoming,
          none⟩ := by
      unfold Receiver.onRead
      rw [Bool.not_eq_true] at hconnected
      rw [hwait, hconnected]
      rfl
    rcases reads_of_receiver hp with ⟨⟨c', hread, hreceiver⟩, hleaves, -⟩
    refine ⟨c', hread, ?_⟩
    unfold remaining
    rw [hleaves, hreceiver, hwait, if_pos rfl, if_neg hconnected]
    show incoming.length + 1 < incoming.length + 2
    omega

end Client

end Tob
