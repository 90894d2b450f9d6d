import Tob.Library.Discipline
import Tob.Snapshot.Receiver

/-!
# The request over TLS

`on_read` and `on_write` of the HTTP client with the calls of the TLS library: the handshake, the
request and the response, with two flags for the three of them.
-/

namespace Tob

open Discipline

/-- What `SSL_connect` returns: `1`, `0`, or `-1` with an error. -/
inductive SslResult where
  | one
  | zero
  | wantRead
  | wantWrite
  | failed
  deriving DecidableEq, Repr

/-- `ssl_connect` asks for `-1` only. -/
def SslResult.connect : SslResult → SslConnect
  | .one => .done
  | .zero => .done
  | .wantRead => .wantRead
  | .wantWrite => .wantWrite
  | .failed => .failed

/-- A call of the library, and whether `m_ssl` is there: `SSL_connect` with its result, `SSL_write`
with the bytes it accepts, and the calls of `SSL_read` in one loop. -/
inductive SslCall where
  | connect (ssl : Bool) (result : SslResult)
  | write (ssl : Bool) (accepted : List UInt8)
  | read (ssl : Bool)
  deriving DecidableEq, Repr

/-- The HTTP client, and the calls it has made. -/
structure Client where
  receiver : Receiver
  mRequest : List UInt8
  mWriteOffset : Nat
  mSsl : Bool
  calls : List SslCall

/-- An event of the poller, with what the library answers to the calls it causes. -/
inductive ClientEvent where
  | read (result : SslResult) (limits : List Nat) (incoming : List UInt8)
  | write (result : SslResult) (writes : List Int)

namespace Client

def new (url : Url) : Client := ⟨.new, snapshotRequest url, 0, false, []⟩

def call (c : Client) (sslCall : SslCall) : Client := { c with calls := c.calls ++ [sslCall] }

/-- `on_read`. -/
def onRead (search : List UInt8 → Search) (result : SslResult) (limits : List Nat)
    (incoming : List UInt8) (c : Client) : Outcome Client :=
  let calls :=
    if !c.receiver.mWaitForRead then []
    else if !c.receiver.mSslConnected then [.connect c.mSsl result]
    else [.read c.mSsl]
  (c.receiver.onRead search result.connect limits incoming).map fun p ↦
    { c with receiver := p.receiver, calls := c.calls ++ calls }

/-- The bytes that `on_read` hands to `process_json` when it returns, if it does. -/
def delivers (search : List UInt8 → Search) (result : SslResult) (limits : List Nat)
    (incoming : List UInt8) (c : Client) : Option (List UInt8) :=
  (c.receiver.onRead search result.connect limits incoming).state?.bind Receiver.Progress.body

/-- The loop of `on_write` and the test behind it.  A call accepts no more than it is offered;
behind the last result it accepts nothing. -/
def send (c : Client) : List Int → Outcome Client
  | [] =>
      let c := c.call (.write c.mSsl [])
      .returned (if c.mRequest.length ≤ c.mWriteOffset then
        { c with receiver := { c.receiver with mWaitForRead := true } } else c)
  | writed :: writes =>
      .attempt (readAt c.mRequest c.mWriteOffset
        (min writed.toNat (Frame.diff c.mRequest.length c.mWriteOffset))) fun accepted ↦
      let c := c.call (.write c.mSsl accepted)
      if writed < 0 then .threw "write error" c
      else if accepted = [] then
        .returned (if c.mRequest.length ≤ c.mWriteOffset then
          { c with receiver := { c.receiver with mWaitForRead := true } } else c)
      else send { c with mWriteOffset := c.mWriteOffset + accepted.length } writes

/-- `ssl_connect`, with what it returns. -/
def sslConnect (result : SslResult) (c : Client) : Outcome (Client × Bool) :=
  let c := c.call (.connect c.mSsl result)
  (c.receiver.sslConnect result.connect).map fun (receiver, connected) ↦
    ({ c with receiver }, connected)

/-- Go on where `ssl_connect` returns true. -/
def whenConnected (f : Client → Outcome Client) : Outcome (Client × Bool) → Outcome Client
  | .returned (c, true) => f c
  | .returned (c, false) => .returned c
  | .threw what (c, _) => .threw what c
  | .aborted (c, _) => .aborted c
  | .undefined => .undefined

/-- `on_write`; `SSL_new` comes before everything else. -/
def onWrite (result : SslResult) (writes : List Int) (c : Client) : Outcome Client :=
  if c.receiver.mWaitForRead then .returned c
  else
    let c := { c with mSsl := true }
    if c.receiver.mSslConnected then c.send writes
    else whenConnected (fun c ↦ c.send writes) (c.sslConnect result)

def handle (search : List UInt8 → Search) : ClientEvent → Client → Outcome Client
  | .read result limits incoming, c => c.onRead search result limits incoming
  | .write result writes, c => c.onWrite result writes

/-- The states between events, also behind an event whose handler throws. -/
inductive Run (search : List UInt8 → Search) (c₀ : Client) : List ClientEvent → Client → Prop where
  | start : Run search c₀ [] c₀
  | event {events c event c'} : Run search c₀ events c →
      (c.handle search event).state? = some c' → Run search c₀ (events ++ [event]) c'

end Client

/-! ## What a call needs -/

namespace SslCall

def accepted : SslCall → List UInt8
  | .write _ accepted => accepted
  | _ => []

/-- The bytes `SSL_write` has accepted. -/
def allAccepted (calls : List SslCall) : List UInt8 := calls.flatMap accepted

/-- `SSL_connect` has returned `1`. -/
def Connected (calls : List SslCall) : Prop := ∃ ssl, .connect ssl .one ∈ calls

/-- No `SSL_connect` has returned `0`. -/
def NoZero (calls : List SslCall) : Prop := ∀ ssl, .connect ssl .zero ∉ calls

/-- `SSL_write` comes after the handshake and goes on where it has stopped, `SSL_read` comes after
the whole request. -/
def Allowed (request : List UInt8) (before : List SslCall) : SslCall → Prop
  | .connect ssl _ => ssl = true
  | .write ssl bytes => ssl = true ∧ Connected before ∧ allAccepted before ++ bytes <+: request
  | .read ssl => ssl = true ∧ Connected before ∧ allAccepted before = request

theorem allAccepted_concat (calls : List SslCall) (call : SslCall) :
    allAccepted (calls ++ [call]) = allAccepted calls ++ call.accepted := by
  rw [allAccepted, List.flatMap_append, List.flatMap_singleton]
  rfl

theorem Connected.append {calls : List SslCall} (h : Connected calls) (more : List SslCall) :
    Connected (calls ++ more) := by
  rcases h with ⟨ssl, hmem⟩
  exact ⟨ssl, List.mem_append_left more hmem⟩

theorem NoZero.of_prefix {calls calls' : List SslCall} (h : NoZero calls')
    (hp : calls <+: calls') : NoZero calls := fun ssl hmem ↦ h ssl (hp.subset hmem)

end SslCall

namespace Client

open SslCall

variable {search : List UInt8 → Search} {request : List UInt8} {c c' : Client}

/-- What the two flags mean while every call has been allowed. -/
structure Steady (request : List UInt8) (c : Client) : Prop where
  disciplined : Disciplined (Allowed request) c.calls
  mRequest : c.mRequest = request
  mWriteOffset : c.mWriteOffset ≤ request.length
  accepted : allAccepted c.calls = request.take c.mWriteOffset
  connected : c.receiver.mSslConnected = true → Connected c.calls
  mSsl : c.receiver.mSslConnected = true ∨ c.receiver.mWaitForRead = true → c.mSsl = true
  sent : c.receiver.mSslConnected = true → c.receiver.mWaitForRead = true →
    c.mWriteOffset = request.length

theorem new_steady (url : Url) : Steady (snapshotRequest url) (new url) :=
  ⟨disciplined_nil, rfl, Nat.zero_le _, rfl, nofun, nofun, nofun⟩

/-! ## on_write -/

-- A call that accepts nothing leaves the state of the request alone.
theorem Steady.call (h : Steady request c) {sslCall : SslCall}
    (hallowed : Allowed request c.calls sslCall) (hnone : sslCall.accepted = []) :
    Steady request (c.call sslCall) := by
  refine ⟨h.disciplined.snoc hallowed, h.mRequest, h.mWriteOffset, ?_, ?_, h.mSsl, h.sent⟩
  · show allAccepted (c.calls ++ [sslCall]) = _
    rw [allAccepted_concat, hnone, List.append_nil]
    exact h.accepted
  · exact fun hconnected ↦ (h.connected hconnected).append _

-- The test behind the loop.
theorem Steady.waitIfSent (h : Steady request c) (hssl : c.mSsl = true) :
    Steady request (if c.mRequest.length ≤ c.mWriteOffset then
      { c with receiver := { c.receiver with mWaitForRead := true } } else c) := by
  have hoffset := h.mWriteOffset
  by_cases hall : c.mRequest.length ≤ c.mWriteOffset
  · rw [if_pos hall]
    rw [h.mRequest] at hall
    exact ⟨h.disciplined, h.mRequest, h.mWriteOffset, h.accepted, h.connected, fun _ ↦ hssl,
      fun _ _ ↦ le_antisymm hoffset hall⟩
  · rw [if_neg hall]
    exact h

/-- `SSL_write` is offered what it has not accepted yet. -/
theorem Steady.offered (h : Steady request c) {limit : Nat} {bytes : List UInt8}
    (hread : readAt c.mRequest c.mWriteOffset limit = some bytes) :
    c.mWriteOffset + bytes.length ≤ request.length ∧
      allAccepted c.calls ++ bytes = request.take (c.mWriteOffset + bytes.length) := by
  rw [h.mRequest] at hread
  have hbytes := readAt_eq_some hread
  rw [hbytes.2.1, h.accepted, List.take_add, ← hbytes.2.2]
  exact ⟨hbytes.1, rfl⟩

theorem Steady.allowed_write (h : Steady request c) (hssl : c.mSsl = true)
    (hconnected : c.receiver.mSslConnected = true) {limit : Nat} {bytes : List UInt8}
    (hread : readAt c.mRequest c.mWriteOffset limit = some bytes) :
    Allowed request c.calls (.write c.mSsl bytes) := by
  refine ⟨hssl, h.connected hconnected, ?_⟩
  rw [(h.offered hread).2]
  exact List.take_prefix _ _

-- While the loop runs the client does not wait.
theorem Steady.write (h : Steady request c) (hwait : c.receiver.mWaitForRead = false) {limit : Nat}
    {bytes : List UInt8} (hread : readAt c.mRequest c.mWriteOffset limit = some bytes)
    (hallowed : Allowed request c.calls (.write c.mSsl bytes)) :
    Steady request { c.call (.write c.mSsl bytes) with
      mWriteOffset := c.mWriteOffset + bytes.length } := by
  have hoffered := h.offered hread
  refine ⟨h.disciplined.snoc hallowed, h.mRequest, hoffered.1, ?_, ?_, h.mSsl, ?_⟩
  · show allAccepted (c.calls ++ [.write c.mSsl bytes]) = _
    rw [allAccepted_concat]
    exact hoffered.2
  · exact fun hconnected ↦ (h.connected hconnected).append _
  · intro _ hwaits
    rw [show c.receiver.mWaitForRead = true from hwaits] at hwait
    cases hwait

theorem Steady.send (h : Steady request c) (hssl : c.mSsl = true)
    (hconnected : c.receiver.mSslConnected = true) (hwait : c.receiver.mWaitForRead = false)
    {writes : List Int} (hsend : (c.send writes).state? = some c') : Steady request c' := by
  induction writes generalizing c with
  | nil =>
      have hfits : c.mWriteOffset + 0 ≤ request.length := h.mWriteOffset
      have hread : readAt c.mRequest c.mWriteOffset 0 = some [] := by
        rw [readAt, h.mRequest, if_pos hfits, List.take_zero]
      cases hsend
      exact (h.call (h.allowed_write hssl hconnected hread) rfl).waitIfSent hssl
  | cons writed writes ih =>
      rcases Outcome.attempt_state?.mp hsend with ⟨bytes, hread, hsend⟩
      have hallowed := h.allowed_write hssl hconnected hread
      by_cases hfails : writed < 0
      · -- a negative result accepts nothing and ends the loop
        have hnone : bytes = [] := by
          rw [Int.toNat_of_nonpos (le_of_lt hfails), Nat.zero_min] at hread
          exact List.eq_nil_of_length_eq_zero (readAt_eq_some hread).2.1
        rw [if_pos hfails] at hsend
        cases hsend
        exact h.call hallowed hnone
      · rw [if_neg hfails] at hsend
        by_cases hnone : bytes = []
        · rw [if_pos hnone] at hsend
          cases hsend
          exact (h.call hallowed hnone).waitIfSent hssl
        · rw [if_neg hnone] at hsend
          exact ih (h.write hwait hread hallowed) hssl hconnected hwait hsend

-- The calls are not forgotten.
theorem waitIfSent_calls (c : Client) :
    (if c.mRequest.length ≤ c.mWriteOffset then
      { c with receiver := { c.receiver with mWaitForRead := true } } else c).calls = c.calls := by
  split <;> rfl

theorem send_calls {writes : List Int} (hsend : (c.send writes).state? = some c') :
    c.calls <+: c'.calls := by
  induction writes generalizing c with
  | nil =>
      cases hsend
      rw [waitIfSent_calls]
      exact List.prefix_append _ _
  | cons writed writes ih =>
      rcases Outcome.attempt_state?.mp hsend with ⟨bytes, -, hsend⟩
      have hcall : c.calls <+: (c.call (.write c.mSsl bytes)).calls := List.prefix_append _ _
      by_cases hfails : writed < 0
      · rw [if_pos hfails] at hsend
        cases hsend
        exact hcall
      · rw [if_neg hfails] at hsend
        by_cases hnone : bytes = []
        · rw [if_pos hnone] at hsend
          cases hsend
          rw [waitIfSent_calls]
          exact hcall
        · rw [if_neg hnone] at hsend
          have hrest := ih hsend
          exact hcall.trans hrest

theorem whenConnected_state? {f : Client → Outcome Client} {o : Outcome (Client × Bool)}
    (h : (whenConnected f o).state? = some c') :
    (∃ c, o.state? = some (c, true) ∧ (f c).state? = some c') ∨
      ∃ connected, o.state? = some (c', connected) := by
  match o, h with
  | .returned (c, true), h => exact .inl ⟨c, rfl, h⟩
  | .returned (c, false), h => cases h; exact .inr ⟨false, rfl⟩
  | .threw what (c, connected), h => cases h; exact .inr ⟨connected, rfl⟩
  | .aborted (c, connected), h => cases h; exact .inr ⟨connected, rfl⟩

theorem sslConnect_calls {result : SslResult} {connected : Bool}
    (h : (c.sslConnect result).state? = some (c', connected)) :
    c'.calls = c.calls ++ [.connect c.mSsl result] := by
  rcases Outcome.map_state?.mp h with ⟨s, -, hs⟩
  cases hs
  rfl

theorem whenConnected_calls {result : SslResult} {writes : List Int}
    (h : (whenConnected (fun c ↦ c.send writes) (c.sslConnect result)).state? = some c') :
    c.calls ++ [.connect c.mSsl result] <+: c'.calls := by
  rcases whenConnected_state? h with ⟨c₁, hconnect, hsend⟩ | ⟨connected, hconnect⟩
  · rw [← sslConnect_calls hconnect]
    exact send_calls hsend
  · rw [← sslConnect_calls hconnect]

theorem onWrite_calls {result : SslResult} {writes : List Int}
    (h : (c.onWrite result writes).state? = some c') : c.calls <+: c'.calls := by
  unfold onWrite at h
  by_cases hwait : c.receiver.mWaitForRead = true
  · rw [if_pos hwait] at h
    cases h
    exact List.prefix_refl _
  · rw [if_neg hwait] at h
    simp only at h
    by_cases hconnected : c.receiver.mSslConnected = true
    · rw [if_pos hconnected] at h
      have hsend := send_calls h
      exact hsend
    · rw [if_neg hconnected] at h
      have hconnect := whenConnected_calls h
      exact (List.prefix_append _ _).trans hconnect

/-- `ssl_connect` on a client that is not connected, whatever comes but a zero. -/
theorem Steady.sslConnect (h : Steady request c) (hssl : c.mSsl = true)
    (hnot : c.receiver.mSslConnected = false) {result : SslResult} (hzero : result ≠ .zero)
    {connected : Bool} (hc : (c.sslConnect result).state? = some (c', connected)) :
    Steady request c' ∧ c'.mSsl = true ∧ (connected = true →
      c'.receiver.mSslConnected = true ∧ c'.receiver.mWaitForRead = false) := by
  have hcalled : Steady request (c.call (.connect c.mSsl result)) := h.call hssl rfl
  have hoff {r : Receiver} {P : Prop} (hr : r.mSslConnected = c.receiver.mSslConnected) :
      r.mSslConnected = true → P := by
    intro hconnected
    rw [hr, hnot] at hconnected
    cases hconnected
  cases result with
  | one =>
      cases hc
      have hconnected : Connected (c.calls ++ [.connect c.mSsl .one]) :=
        ⟨c.mSsl, List.mem_append_right _ (List.mem_singleton_self _)⟩
      exact ⟨⟨hcalled.disciplined, hcalled.mRequest, hcalled.mWriteOffset, hcalled.accepted,
        fun _ ↦ hconnected, fun _ ↦ hssl, nofun⟩, hssl, fun _ ↦ ⟨rfl, rfl⟩⟩
  | zero => exact absurd rfl hzero
  | wantRead =>
      cases hc
      exact ⟨⟨hcalled.disciplined, hcalled.mRequest, hcalled.mWriteOffset, hcalled.accepted,
        hoff rfl, fun _ ↦ hssl, hoff rfl⟩, hssl, nofun⟩
  | wantWrite =>
      cases hc
      exact ⟨⟨hcalled.disciplined, hcalled.mRequest, hcalled.mWriteOffset, hcalled.accepted,
        hoff rfl, fun _ ↦ hssl, nofun⟩, hssl, nofun⟩
  | failed =>
      cases hc
      exact ⟨hcalled, hssl, nofun⟩

theorem Steady.onWrite (h : Steady request c) {result : SslResult} {writes : List Int}
    (hw : (c.onWrite result writes).state? = some c') (hno : NoZero c'.calls) :
    Steady request c' := by
  unfold Client.onWrite at hw
  by_cases hwait : c.receiver.mWaitForRead = true
  · rw [if_pos hwait] at hw
    cases hw
    exact h
  · -- from here on `m_ssl` is there
    have hready : Steady request { c with mSsl := true } :=
      ⟨h.disciplined, h.mRequest, h.mWriteOffset, h.accepted, h.connected, fun _ ↦ rfl, h.sent⟩
    rw [if_neg hwait] at hw
    simp only at hw
    rw [Bool.not_eq_true] at hwait
    by_cases hconnected : c.receiver.mSslConnected = true
    · rw [if_pos hconnected] at hw
      exact hready.send rfl hconnected hwait hw
    · rw [if_neg hconnected] at hw
      rw [Bool.not_eq_true] at hconnected
      -- a zero would stand in the trace
      have hzero : result ≠ .zero := by
        intro hresult
        apply hno true
        apply (whenConnected_calls hw).subset
        rw [hresult]
        exact List.mem_append_right _ (List.mem_singleton_self _)
      rcases whenConnected_state? hw with ⟨c₁, hconnect, hsend⟩ | ⟨connected, hconnect⟩
      · have hs := hready.sslConnect rfl hconnected hzero hconnect
        exact hs.1.send hs.2.1 (hs.2.2 rfl).1 (hs.2.2 rfl).2 hsend
      · exact (hready.sslConnect rfl hconnected hzero hconnect).1

/-! ## on_read -/

/-- What the read loop does with the flags. -/
structure SameFlags (r r' : Receiver) : Prop where
  waits : r'.mWaitForRead = r.mWaitForRead
  connected : r'.mSslConnected = r.mSslConnected

theorem SameFlags.trans {r r' r'' : Receiver} (h : SameFlags r r') (h' : SameFlags r' r'') :
    SameFlags r r'' :=
  ⟨h'.waits.trans h.waits, h'.connected.trans h.connected⟩

theorem processHeader_sameFlags {r r' : Receiver} {complete : Bool}
    (h : (r.processHeader search).state? = some (r', complete)) : SameFlags r r' := by
  unfold Receiver.processHeader at h
  cases hsearch : search r.mBuffer with
  | overrun =>
      rw [hsearch] at h
      cases h
  | ended =>
      rw [hsearch] at h
      simp only at h
      by_cases hfull : r.mReadOffset = r.mBuffer.length
      · rw [if_pos hfull] at h
        split at h
        · cases h
          exact ⟨rfl, rfl⟩
        · rcases Outcome.attempt_state?.mp h with ⟨mBuffer, -, hr⟩
          cases hr
          exact ⟨rfl, rfl⟩
      · rw [if_neg hfull] at h
        cases h
        exact ⟨rfl, rfl⟩
  | found delim =>
      rw [hsearch] at h
      simp only at h
      split at h
      · cases h
        exact ⟨rfl, rfl⟩
      · split at h
        · cases h
          exact ⟨rfl, rfl⟩
        · split at h
          · split at h
            · cases h
              exact ⟨rfl, rfl⟩
            · rcases Outcome.attempt_state?.mp h with ⟨mBuffer, -, hr⟩
              cases hr
              exact ⟨rfl, rfl⟩
          · rcases Outcome.attempt_state?.mp h with ⟨mBuffer, -, hr⟩
            cases hr
            exact ⟨rfl, rfl⟩

theorem advance_sameFlags {r r' : Receiver} {breaks : Bool}
    (h : (r.advance search).state? = some (r', breaks)) : SameFlags r r' := by
  unfold Receiver.advance at h
  by_cases hready : r.mReadyToReceiveJson = true
  · rw [if_pos hready] at h
    cases h
    exact ⟨rfl, rfl⟩
  · rw [if_neg hready] at h
    cases hheader : r.processHeader search with
    | returned s =>
        have hs : (r.processHeader search).state? = some (s.1, s.2) := by rw [hheader]; rfl
        rw [hheader] at h
        cases h
        exact processHeader_sameFlags hs
    | threw what s =>
        rw [hheader] at h
        cases h
        exact processHeader_sameFlags (by rw [hheader]; rfl)
    | aborted s =>
        rw [hheader] at h
        cases h
        exact processHeader_sameFlags (by rw [hheader]; rfl)
    | undefined =>
        rw [hheader] at h
        cases h

theorem proceed_state? {loop : Receiver → Outcome Receiver.Progress} {rest : List UInt8}
    {o : Outcome (Receiver × Bool)} {p : Receiver.Progress}
    (h : (Receiver.proceed loop rest o).state? = some p) :
    (∃ r, o.state? = some (r, false) ∧ (loop r).state? = some p) ∨
      ∃ breaks, o.state? = some (p.receiver, breaks) := by
  match o, h with
  | .returned (r, false), h => exact .inl ⟨r, rfl, h⟩
  | .returned (r, true), h => cases h; exact .inr ⟨true, rfl⟩
  | .threw what (r, breaks), h => cases h; exact .inr ⟨breaks, rfl⟩
  | .aborted (r, breaks), h => cases h; exact .inr ⟨breaks, rfl⟩

theorem readLoop_sameFlags {size : Nat} {limits : List Nat} {r : Receiver} {incoming : List UInt8}
    {p : Receiver.Progress} (h : (r.readLoop search size limits incoming).state? = some p) :
    SameFlags r p.receiver := by
  induction limits generalizing r incoming with
  | nil =>
      cases h
      exact ⟨rfl, rfl⟩
  | cons limit limits ih =>
      unfold Receiver.readLoop at h
      simp only at h
      split at h
      · cases h
        exact ⟨rfl, rfl⟩
      · rcases Outcome.attempt_state?.mp h with ⟨r₁, hstore, h⟩
        rcases Option.map_eq_some_iff.mp hstore with ⟨mBuffer, -, hr₁⟩
        have hstored : SameFlags r r₁ := by
          rw [← hr₁]
          exact ⟨rfl, rfl⟩
        rcases proceed_state? h with ⟨r₂, hadvance, hloop⟩ | ⟨breaks, hadvance⟩
        · exact (hstored.trans (advance_sameFlags hadvance)).trans (ih hloop)
        · exact hstored.trans (advance_sameFlags hadvance)

theorem Steady.onRead (h : Steady request c) {result : SslResult} {limits : List Nat}
    {incoming : List UInt8} (hr : (c.onRead search result limits incoming).state? = some c')
    (hno : NoZero c'.calls) : Steady request c' := by
  rcases Outcome.map_state?.mp hr with ⟨p, hp, hc'⟩
  unfold Receiver.onRead at hp
  by_cases hwait : c.receiver.mWaitForRead = true
  · rw [hwait, Bool.not_true, if_neg Bool.false_ne_true] at hp hc'
    by_cases hconnected : c.receiver.mSslConnected = true
    · rw [hconnected, Bool.not_true, if_neg Bool.false_ne_true] at hp hc'
      have hsame : SameFlags c.receiver p.receiver := by
        rcases Outcome.andThen_state? hp with hloop | ⟨p₁, hloop, hfinish⟩
        · exact readLoop_sameFlags hloop
        · rw [(Receiver.finish_keeps hfinish).1]
          exact readLoop_sameFlags (by rw [hloop]; rfl)
      have hsent : allAccepted c.calls = request := by
        rw [h.accepted, h.sent hconnected hwait, List.take_length]
      have hread : Steady request (c.call (.read c.mSsl)) :=
        h.call ⟨h.mSsl (.inl hconnected), h.connected hconnected, hsent⟩ rfl
      rw [← hc']
      refine ⟨hread.disciplined, hread.mRequest, hread.mWriteOffset, hread.accepted, ?_, ?_, ?_⟩
      · exact fun _ ↦ hread.connected hconnected
      · exact fun _ ↦ hread.mSsl (.inl hconnected)
      · exact fun _ _ ↦ hread.sent hconnected hwait
    · rw [Bool.not_eq_true] at hconnected
      rw [hconnected, Bool.not_false, if_pos rfl] at hp hc'
      rcases Outcome.map_state?.mp hp with ⟨s, hs, hp⟩
      have hconnect : (c.sslConnect result).state? = some (c', s.2) := by
        apply Outcome.map_state?.mpr ⟨s, hs, _⟩
        rw [← hc', ← hp]
        rfl
      have hzero : result ≠ .zero := by
        intro hresult
        apply hno c.mSsl
        rw [sslConnect_calls hconnect, hresult]
        exact List.mem_append_right _ (List.mem_singleton_self _)
      exact (h.sslConnect (h.mSsl (.inr hwait)) hconnected hzero hconnect).1
  · rw [Bool.not_eq_true] at hwait
    rw [hwait, Bool.not_false, if_pos rfl] at hp hc'
    cases hp
    rw [← hc', List.append_nil]
    exact h

theorem onRead_calls {result : SslResult} {limits : List Nat} {incoming : List UInt8}
    (hr : (c.onRead search result limits incoming).state? = some c') : c.calls <+: c'.calls := by
  rcases Outcome.map_state?.mp hr with ⟨p, -, hc'⟩
  rw [← hc']
  exact List.prefix_append _ _

/-! ## Runs -/

theorem Run.steady {url : Url} {events : List ClientEvent} (h : Run search (new url) events c)
    (hno : NoZero c.calls) : Steady (snapshotRequest url) c := by
  induction h with
  | start => exact new_steady url
  | @event events c event c' hrun hevent ih =>
      cases event with
      | read result limits incoming =>
          exact (ih (hno.of_prefix (onRead_calls hevent))).onRead hevent hno
      | write result writes =>
          exact (ih (hno.of_prefix (onWrite_calls hevent))).onWrite hevent hno

/-- No call comes too early as long as no `SSL_connect` returns `0`. -/
theorem disciplined_of_noZero {url : Url} {events : List ClientEvent}
    (h : Run search (new url) events c) (hno : NoZero c.calls) :
    Disciplined (Allowed (snapshotRequest url)) c.calls :=
  (h.steady hno).disciplined

/-- The request in two parts, and a read. -/
theorem disciplined_of_noZero_example :
    ∃ c, Run (strstr HTTP_DELIMITER) (new ⟨"/", "host"⟩)
        ([] ++ [.write .one [8, 100]] ++ [.read .one [] []]) c ∧
      c.calls.length = 5 ∧ Disciplined (Allowed (snapshotRequest ⟨"/", "host"⟩)) c.calls := by
  have hcalls : (((new ⟨"/", "host"⟩).handle (strstr HTTP_DELIMITER)
      (.write .one [8, 100])).state?.bind fun c ↦
        (c.handle (strstr HTTP_DELIMITER) (.read .one [] [])).state?.map calls) =
      some [.connect true .one, .write true ((snapshotRequest ⟨"/", "host"⟩).take 8),
        .write true ((snapshotRequest ⟨"/", "host"⟩).drop 8), .write true [], .read true] := by
    decide +kernel
  rcases Option.bind_eq_some_iff.mp hcalls with ⟨c₁, hwrite, hcalls⟩
  rcases Option.map_eq_some_iff.mp hcalls with ⟨c, hread, hcalls⟩
  have hno : NoZero c.calls := by
    intro ssl
    rw [hcalls]
    simp
  have hrun := (Run.start.event hwrite).event hread
  refine ⟨c, hrun, ?_, disciplined_of_noZero hrun hno⟩
  rw [hcalls]
  rfl

/-- `SSL_connect` fails with `0`, and the request is written. -/
theorem written_without_connection :
    ∃ c, Run (strstr HTTP_DELIMITER) (new ⟨"/", "host"⟩) ([] ++ [.write .zero []]) c ∧
      ¬ Disciplined (Allowed (snapshotRequest ⟨"/", "host"⟩)) c.calls := by
  have hcalls : (((new ⟨"/", "host"⟩).handle (strstr HTTP_DELIMITER)
      (.write .zero [])).state?.map calls) = some ([.connect true .zero] ++ [.write true []]) := by
    decide +kernel
  rcases Option.map_eq_some_iff.mp hcalls with ⟨c, hwrite, hcalls⟩
  refine ⟨c, Run.start.event hwrite, ?_⟩
  intro h
  rw [hcalls] at h
  rcases h.last.2.1 with ⟨ssl, hone⟩
  simp at hone

end Client

end Tob
