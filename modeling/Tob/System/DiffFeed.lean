import Tob.Diff.Control

/-!
# The diff connection

From the request to the last frame: which orders the client has put into the order queue and which
frames into its output queue, for the bytes its socket has delivered so far.
-/

namespace Tob

/-- What the server sends: the response to the upgrade and the frames behind it. -/
structure DiffStream where
  response : List UInt8
  ws : List WireFrame

/-- The frame that subscribes. -/
def DiffLogic.subscribed : OutputFrame := entry Frame.TEXT.toUInt64 (ascii subscription) 0

namespace DiffStream

/-- The bytes on the wire. -/
def bytes (f : DiffStream) : List UInt8 :=
  f.response ++ HTTP_DELIMITER ++ WireFrame.stream f.ws

/-- The response and the first frames. -/
def front (f : DiffStream) (k : Nat) : List UInt8 :=
  f.response ++ HTTP_DELIMITER ++ WireFrame.stream (f.ws.take k)

/-- The orders of the first frames. -/
def orders (conv : Conversions) (f : DiffStream) (k : Nat) : List Order :=
  (f.ws.take k).flatMap (DiffLogic.listed conv)

/-- What the client has generated by then: it subscribes, and answers the pings. -/
def answers (f : DiffStream) (k : Nat) : List OutputFrame :=
  DiffLogic.subscribed :: (f.ws.take k).flatMap DiffLogic.answers

theorem length_front_zero (f : DiffStream) : (f.front 0).length = f.response.length + 4 := by
  rw [front, List.take_zero, WireFrame.stream, List.append_nil, List.length_append]
  rfl

theorem bytes_eq_front (f : DiffStream) (k : Nat) :
    f.bytes = f.front k ++ WireFrame.stream (f.ws.drop k) := by
  rw [bytes, front, List.append_assoc (f.response ++ HTTP_DELIMITER), ← WireFrame.stream_append,
    List.take_append_drop]

theorem take_succ {f : DiffStream} {k : Nat} {w : WireFrame} {ws' : List WireFrame}
    (hws : f.ws.drop k = w :: ws') : f.ws.take (k + 1) = f.ws.take k ++ [w] := by
  rw [List.take_add, hws]
  rfl

theorem front_succ {f : DiffStream} {k : Nat} {w : WireFrame} {ws' : List WireFrame}
    (hws : f.ws.drop k = w :: ws') : f.front (k + 1) = f.front k ++ w.bytes := by
  rw [front, take_succ hws, WireFrame.stream_append, front, WireFrame.stream, WireFrame.stream,
    List.append_nil, List.append_assoc (f.response ++ HTTP_DELIMITER)]

theorem orders_succ (conv : Conversions) {f : DiffStream} {k : Nat} {w : WireFrame}
    {ws' : List WireFrame} (hws : f.ws.drop k = w :: ws') :
    f.orders conv (k + 1) = f.orders conv k ++ DiffLogic.listed conv w := by
  rw [orders, take_succ hws, List.flatMap_append, List.flatMap_singleton]
  rfl

theorem answers_succ {f : DiffStream} {k : Nat} {w : WireFrame} {ws' : List WireFrame}
    (hws : f.ws.drop k = w :: ws') : f.answers (k + 1) = f.answers k ++ DiffLogic.answers w := by
  rw [answers, take_succ hws, List.flatMap_append, List.flatMap_singleton]
  rfl

theorem answers_prefix (f : DiffStream) (k : Nat) : f.answers k <+: f.answers f.ws.length := by
  refine ⟨(f.ws.drop k).flatMap DiffLogic.answers, ?_⟩
  rw [answers, answers, List.cons_append, ← List.flatMap_append, List.take_append_drop,
    List.take_length]

theorem orders_prefix (conv : Conversions) (f : DiffStream) (k : Nat) :
    f.orders conv k <+: f.ws.flatMap (DiffLogic.listed conv) := by
  refine ⟨(f.ws.drop k).flatMap (DiffLogic.listed conv), ?_⟩
  rw [orders, ← List.flatMap_append, List.take_append_drop]

end DiffStream

namespace DiffLogic

open WireFrame

variable {n : Nat} {conv : Conversions} {f : DiffStream} {stale : List UInt8}

/-- Where the client is in the stream: the bytes received, the orders of the frames it has taken off
the buffer, all of which have ended by themselves, and what it has generated. -/
inductive Stage (conv : Conversions) (f : DiffStream) (stale : List UInt8) :
    List UInt8 → List Order → List OutputFrame → DiffLogic n → Prop where
  | handshake {d} : d.Valid → d.mState = .handshake → d.mOffset = 0 → d.mBuffer = stale →
      Stage conv f stale [] [] [] d
  | response {received d} : Got stale received d → received.length < f.response.length + 4 →
      Stage conv f stale received [] [] d
  | frames {k d} : d.InWork → (∀ w ∈ f.ws.take k, (payloadOrders conv w.plain).2 = .returns) →
      Stage conv f stale (f.front k ++ d.pending) (f.orders conv k) (f.answers k) d

/-- What the client relies on for a read: the server sends nothing before the request, and the
response ends with a read. -/
structure InTime (f : DiffStream) (received chunk : List UInt8) (d : DiffLogic n) : Prop where
  requested : d.mState ≠ .handshake
  upgrade : d.mState = .handshakeResponse →
    (received ++ chunk).length ≤ f.response.length + 4

/-! ## One read -/

/-- What a read leaves, if it is defined: the next stage with the orders and the frames it has
queued, or an exception and a part of what the stream brings. -/
def Feeds (conv : Conversions) (f : DiffStream) (stale received : List UInt8)
    (total : List Order) (generated : List OutputFrame) (d : DiffLogic n)
    (o : Outcome (DiffLogic n)) : Prop :=
  ∀ d', o.state? = some d' → ∃ batch more,
    d'.mOrders.mOrders = d.mOrders.mOrders ++ batch ∧ d'.mOutputQueue = d.mOutputQueue ++ more ∧
    total ++ batch <+: f.ws.flatMap (listed conv) ∧
    generated ++ more <+: f.answers f.ws.length ∧
    (o.isReturned = true → Stage conv f stale received (total ++ batch) (generated ++ more) d')

theorem feeds_same {received : List UInt8} {total : List Order} {generated : List OutputFrame}
    {d d' : DiffLogic n} (hview : d'.view = d.view)
    (htotal : total <+: f.ws.flatMap (listed conv))
    (hgenerated : generated <+: f.answers f.ws.length)
    (h : Stage conv f stale received total generated d') :
    Feeds conv f stale received total generated d (.returned d') := by
  have horders : d'.mOrders = d.mOrders := congrArg Prod.fst hview
  have hqueue : d'.mOutputQueue = d.mOutputQueue := congrArg Prod.snd hview
  rintro d'' ⟨⟩
  refine ⟨[], [], by rw [horders, List.append_nil], by rw [hqueue, List.append_nil], ?_, ?_,
    fun _ ↦ ?_⟩
  · rwa [List.append_nil]
  · rwa [List.append_nil]
  · rwa [List.append_nil, List.append_nil]

theorem upgrade_view {d d₁ : DiffLogic n} {chunk : List UInt8} {upgraded : Bool}
    (h : d.upgrade chunk = some (d₁, upgraded)) :
    d₁.mOrders = d.mOrders ∧
      d₁.mOutputQueue = d.mOutputQueue ++ if upgraded then [subscribed] else [] := by
  rcases Option.bind_eq_some_iff.mp h with ⟨d₂, hreceive, hd₁⟩
  have hview := receive_view hreceive
  have horders : d₂.mOrders = d.mOrders := congrArg Prod.fst hview
  have hqueue : d₂.mOutputQueue = d.mOutputQueue := congrArg Prod.snd hview
  rw [← horders, ← hqueue]
  rcases handshakeResponse_cases hd₁ with ⟨rfl, rfl⟩ | ⟨rfl, d₃, hqueue₃, horders₃, -, hgenerate⟩
  · exact ⟨rfl, (List.append_nil _).symm⟩
  · have hsize : (ascii subscription).length < 2 ^ 63 := by decide
    rw [generateFrame_entry d₃ _ _ hsize, Option.some_inj] at hgenerate
    rw [← hgenerate, ← hqueue₃, ← horders₃]
    exact ⟨rfl, rfl⟩

-- The buffer is empty behind the response, and there is no frame in it.
theorem feeds_upgraded {d d₁ : DiffLogic n} {chunk : List UInt8}
    (hupgrade : d.upgrade chunk = some (d₁, true)) (h : d₁.InWork) (hzero : d₁.mOffset = 0) :
    Feeds conv f stale (f.front 0) [] [] d (d₁.frameStep conv) := by
  have hpending : d₁.pending = [] := by rw [pending, hzero, List.take_zero]
  have hfront : Stage conv f stale (f.front 0 ++ d₁.pending) (f.orders conv 0) (f.answers 0) d₁ :=
    .frames h fun w hw ↦ absurd hw List.not_mem_nil
  rw [hpending, List.append_nil] at hfront
  rcases upgrade_view hupgrade with ⟨horders, hqueue⟩
  rw [frameStep_empty hzero]
  intro d' hstate
  cases hstate
  exact ⟨[], [subscribed], by rw [horders, List.append_nil], hqueue, List.nil_prefix,
    f.answers_prefix 0, fun _ ↦ hfront⟩

-- A part of the response has no delimiter in it.
theorem not_complete {response rest received : List UInt8} (hresponse : Head response)
    (hp : received <+: response ++ HTTP_DELIMITER ++ rest)
    (hlt : received.length < response.length + 4) : ¬ Complete received := by
  rintro ⟨delim, hfound⟩
  have hat := occursAt_of_strstr hfound
  have hend := hat.length_le delimiter_ne_nil
  have hfour : HTTP_DELIMITER.length = 4 := rfl
  rw [← List.append_nil received] at hat
  exact hresponse.not_occursAt hp (by omega) (by omega) hat

theorem feeds_response (hresponse : Head f.response) {received chunk : List UInt8}
    {d : DiffLogic n} (h : Got stale received d) (hroom : d.mOffset + chunk.length ≤ BUFFER_SIZE)
    (hp : received ++ chunk <+: f.bytes) (htime : InTime f received chunk d) :
    Feeds conv f stale (received ++ chunk) [] [] d (d.readStep conv chunk) := by
  have hle := htime.upgrade h.mState
  rw [readStep_eq_upgrade h.mState]
  by_cases hall : (received ++ chunk).length = f.response.length + 4
  · rcases upgrade_delimiter hresponse h hroom hp (le_of_eq hall.symm) with ⟨d₁, he, hwork, hzero⟩
    have hfront : received ++ chunk = f.front 0 := by
      have hpart : f.front 0 <+: f.bytes := by
        rw [f.bytes_eq_front 0]
        exact List.prefix_append _ _
      have hlength : (received ++ chunk).length = (f.front 0).length := by
        rw [hall, f.length_front_zero]
      exact (List.prefix_of_prefix_length_le hp hpart (le_of_eq hlength)).eq_of_length hlength
    rw [he, Outcome.attempt_some, hfront]
    exact feeds_upgraded he hwork hzero
  · have hlt : (received ++ chunk).length < f.response.length + 4 := lt_of_le_of_ne hle hall
    by_cases hundisturbed : Undisturbed stale (received ++ chunk)
    · rcases upgrade_undisturbed h hroom hundisturbed with ⟨d₁, hreceive, hupgrade, hgot⟩
      rw [hupgrade]
      exact feeds_same (receive_view hreceive) List.nil_prefix List.nil_prefix
        (.response hgot hlt)
    · -- what the buffer held before makes the read undefined
      rw [upgrade_disturbed h hroom (not_complete hresponse hp hlt) hundisturbed]
      intro d' hstate
      cases hstate

theorem feeds_frames {k : Nat} {chunk : List UInt8} {d : DiffLogic n} (h : d.InWork)
    (hends : ∀ w ∈ f.ws.take k, (payloadOrders conv w.plain).2 = .returns)
    (hroom : d.mOffset + chunk.length ≤ BUFFER_SIZE)
    (hp : f.front k ++ d.pending ++ chunk <+: f.bytes) :
    Feeds conv f stale (f.front k ++ d.pending ++ chunk) (f.orders conv k) (f.answers k) d
      (d.readStep conv chunk) := by
  rw [f.bytes_eq_front k, List.append_assoc] at hp
  have hleft := (List.prefix_append_right_inj _).mp hp
  have hspec : (d.readStep conv chunk).Ensures _ := readStep_spec h hroom hleft
  rcases recognised_at hleft with ⟨-, hno⟩ | ⟨hlt, w, ws', rest, hws, hgot, hlast⟩
  · -- no frame is complete
    have hwaits := readStep_waits conv h hroom hleft hno
    rcases Outcome.map_eq_returned_iff.mp hwaits with ⟨d₁, hstep, hview⟩
    have hstage : Stage conv f stale (f.front k ++ d.pending ++ chunk) (f.orders conv k)
        (f.answers k) d₁ := by
      rcases hspec.2 d₁ hstep with ⟨hwork, htakes⟩
      rcases htakes with ⟨hrest, -⟩ | ⟨w, ws', hws, hrecognised, -⟩
      · rw [List.append_assoc, ← hrest]
        exact .frames hwork hends
      · exact absurd hrecognised (hno w (by rw [hws]; rfl))
    rw [hstep]
    exact feeds_same hview (f.orders_prefix conv k) (f.answers_prefix k) hstage
  · -- the frame at the head is dealt with
    have hdispatch := readStep_dispatch conv h hroom hgot hlast
    intro d' hstate
    have hview : (Outcome.map view (d.readStep conv chunk)).state? = some d'.view :=
      Outcome.map_state?.mpr ⟨d', hstate, rfl⟩
    rw [hdispatch, dispatchFrame_state?, Option.some_inj] at hview
    have horders : (⟨d.mOrders.mOrders ++ (listed conv w).take (n - d.mOrders.mOrders.length)⟩ :
        Orders n) = d'.mOrders := congrArg Prod.fst hview
    have hqueue : d.mOutputQueue ++ answers w = d'.mOutputQueue := congrArg Prod.snd hview
    refine ⟨(listed conv w).take (n - d.mOrders.mOrders.length), answers w, ?_, hqueue.symm, ?_, ?_,
      ?_⟩
    · rw [← horders]
    · have hnext := f.orders_prefix conv (k + 1)
      rw [DiffStream.orders_succ conv hws] at hnext
      exact ((List.prefix_append_right_inj _).mpr (List.take_prefix _ _)).trans hnext
    · rw [← DiffStream.answers_succ hws]
      exact f.answers_prefix (k + 1)
    · intro hreturned
      have hstep := Outcome.eq_returned hstate hreturned
      rw [hstep] at hdispatch
      rcases (dispatchFrame_returned_iff _ _ _).mp hdispatch.symm with ⟨hreturns, hfits, -⟩
      have hall : (listed conv w).take (n - d.mOrders.mOrders.length) = listed conv w :=
        List.take_of_length_le hfits
      rw [hall, ← DiffStream.orders_succ conv hws, ← DiffStream.answers_succ hws]
      rcases hspec.2 d' hstep with ⟨hwork, htakes⟩
      rcases htakes with ⟨-, hno⟩ | ⟨v, vs, hvs, -, hbytes⟩
      · refine absurd ?_ (hno w (by rw [hws]; rfl))
        refine ⟨by rw [hgot, List.length_append]; omega, fun hbare ↦ hlast ⟨hbare.1, ?_⟩⟩
        have hlength := hbare.2
        rw [hgot, List.length_append] at hlength
        exact List.length_eq_zero_iff.mp (by omega)
      · rw [hws] at hvs
        cases hvs
        rw [List.append_assoc, hbytes, ← List.append_assoc, ← DiffStream.front_succ hws]
        refine .frames hwork ?_
        rw [DiffStream.take_succ hws, List.forall_mem_append, List.forall_mem_singleton]
        exact ⟨hends, hreturns⟩

/-- A read that comes in time takes the client on in the stream. -/
theorem Stage.readStep (hresponse : Head f.response) {received chunk : List UInt8}
    {total : List Order} {generated : List OutputFrame} {d : DiffLogic n}
    (h : Stage conv f stale received total generated d)
    (hroom : d.mOffset + chunk.length ≤ BUFFER_SIZE) (hp : received ++ chunk <+: f.bytes)
    (htime : InTime f received chunk d) :
    Feeds conv f stale (received ++ chunk) total generated d (d.readStep conv chunk) := by
  cases h with
  | handshake _ hstate => exact absurd hstate htime.requested
  | response hgot => exact feeds_response hresponse hgot hroom hp htime
  | frames hwork hends => exact feeds_frames hwork hends hroom hp

/-! ## Reads that end where the stream has a boundary -/

/-- A response that comes in with one read is followed by the subscription. -/
theorem readStep_response {response : List UInt8} (hresponse : Head response) {d : DiffLogic n}
    (h : Got stale [] d) (hroom : d.mOffset + (response ++ HTTP_DELIMITER).length ≤ BUFFER_SIZE)
    (conv : Conversions) :
    ∃ d', d.readStep conv (response ++ HTTP_DELIMITER) = .returned d' ∧
      d'.view = (d.mOrders, d.mOutputQueue ++ [subscribed]) ∧ d'.InWork ∧ d'.mOffset = 0 := by
  have hp : [] ++ (response ++ HTTP_DELIMITER) <+: response ++ HTTP_DELIMITER ++ [] := by
    rw [List.nil_append, List.append_nil]
  have hle : response.length + 4 ≤ ([] ++ (response ++ HTTP_DELIMITER)).length := by
    rw [List.nil_append, List.length_append]
    exact le_refl _
  rcases upgrade_delimiter hresponse h hroom hp hle with ⟨d', hupgrade, hwork, hzero⟩
  rcases upgrade_view hupgrade with ⟨horders, hqueue⟩
  refine ⟨d', ?_, ?_, hwork, hzero⟩
  · rw [readStep_eq_upgrade h.mState, hupgrade]
    exact frameStep_empty hzero conv
  · rw [view, horders, hqueue, if_pos rfl]

/-- A frame that comes in with one read, behind nothing, is dealt with and leaves nothing. -/
theorem readStep_whole {d : DiffLogic n} (h : d.InWork) (hzero : d.mOffset = 0) {w : WireFrame}
    (hroom : d.mOffset + w.bytes.length ≤ BUFFER_SIZE) (hbare : ¬ w.Bare)
    {v : Orders n × List OutputFrame} (hv : dispatchFrame (.of conv w) d.view = .returned v) :
    ∃ d', d.readStep conv w.bytes = .returned d' ∧ d'.view = v ∧ d'.InWork ∧ d'.pending = [] := by
  have hgot : d.pending ++ w.bytes = w.bytes ++ [] := by
    rw [pending, hzero, List.take_zero, List.nil_append, List.append_nil]
  have hdispatch := readStep_dispatch conv h hroom hgot fun hlast ↦ hbare hlast.1
  rw [hv] at hdispatch
  rcases Outcome.map_eq_returned_iff.mp hdispatch with ⟨d', hstep, hview⟩
  have hpart : d.pending ++ w.bytes <+: WireFrame.stream [w] := by
    rw [hgot, WireFrame.stream, WireFrame.stream]
  have hspec : (d.readStep conv w.bytes).Ensures _ := readStep_spec h hroom hpart
  rcases hspec.2 d' hstep with ⟨hwork, htakes⟩
  refine ⟨d', hstep, hview, hwork, ?_⟩
  rcases htakes with ⟨-, hno⟩ | ⟨w', ws', hws, -, hbytes⟩
  · refine absurd ⟨?_, fun hlast ↦ hbare hlast.1⟩ (hno w rfl)
    rw [hgot, List.append_nil]
  · cases hws
    rw [hgot, List.append_right_inj] at hbytes
    exact hbytes.symm

/-! ## Calls -/

/-- The reads of a call, as long as none of them throws. -/
def AllInTime (conv : Conversions) (f : DiffStream) :
    List UInt8 → DiffLogic n → List (List UInt8) → Prop
  | _, _, [] => True
  | received, d, chunk :: chunks =>
      chunk ≠ [] ∧ d.mOffset + chunk.length ≤ BUFFER_SIZE ∧ received ++ chunk <+: f.bytes ∧
        InTime f received chunk d ∧
        ∀ d', d.readStep conv chunk = .returned d' →
          AllInTime conv f (received ++ chunk) d' chunks

theorem Feeds.andThen {received received' : List UInt8} {total : List Order}
    {generated : List OutputFrame} {d : DiffLogic n} {o : Outcome (DiffLogic n)}
    {g : DiffLogic n → Outcome (DiffLogic n)}
    (h : Feeds conv f stale received total generated d o)
    (hg : ∀ d' total' generated', o = .returned d' →
      Stage conv f stale received total' generated' d' →
      Feeds conv f stale received' total' generated' d' (g d')) :
    Feeds conv f stale received' total generated d (o.andThen g) := by
  -- an exception ends the call with what has been queued by then
  have hstops (hno : o.isReturned = false) {o' : Outcome (DiffLogic n)} (hsame : o' = o) :
      Feeds conv f stale received' total generated d o' := by
    subst hsame
    intro d' hstate
    rcases h d' hstate with ⟨batch, more, hqueue, houtput, hpart, hanswers, -⟩
    refine ⟨batch, more, hqueue, houtput, hpart, hanswers, fun hreturned ↦ ?_⟩
    cases hno.symm.trans hreturned
  cases ho : o with
  | returned d₁ =>
      rw [ho] at h
      rcases h d₁ rfl with ⟨batch, more, hqueue, houtput, -, -, hstage⟩
      have hmore := hg d₁ _ _ ho (hstage rfl)
      intro d' hstate
      rcases hmore d' hstate with ⟨batch', more', hqueue', houtput', hrest⟩
      refine ⟨batch ++ batch', more ++ more', by rw [hqueue', hqueue, List.append_assoc],
        by rw [houtput', houtput, List.append_assoc], ?_⟩
      rw [← List.append_assoc, ← List.append_assoc]
      exact hrest
  | threw what d₁ => exact hstops (by rw [ho]; rfl) ho.symm
  | aborted d₁ => exact hstops (by rw [ho]; rfl) ho.symm
  | undefined => exact hstops (by rw [ho]; rfl) ho.symm

theorem Stage.orders_part {received : List UInt8} {total : List Order}
    {generated : List OutputFrame} {d : DiffLogic n}
    (h : Stage conv f stale received total generated d) : total <+: f.ws.flatMap (listed conv) := by
  cases h with
  | handshake => exact List.nil_prefix
  | response => exact List.nil_prefix
  | frames => exact f.orders_prefix conv _

theorem Stage.answers_part {received : List UInt8} {total : List Order}
    {generated : List OutputFrame} {d : DiffLogic n}
    (h : Stage conv f stale received total generated d) :
    generated <+: f.answers f.ws.length := by
  cases h with
  | handshake => exact List.nil_prefix
  | response => exact List.nil_prefix
  | frames => exact f.answers_prefix _

theorem Stage.onRead (hresponse : Head f.response) {chunks : List (List UInt8)}
    {received : List UInt8} {total : List Order} {generated : List OutputFrame} {d : DiffLogic n}
    (h : Stage conv f stale received total generated d)
    (htime : AllInTime conv f received d chunks) :
    Feeds conv f stale (received ++ chunks.flatten) total generated d (d.onRead conv chunks) := by
  induction chunks generalizing received total generated d with
  | nil =>
      rw [List.flatten_nil, List.append_nil]
      exact feeds_same rfl h.orders_part h.answers_part h
  | cons chunk chunks ih =>
      rcases htime with ⟨hchunk, hroom, hp, hin, hrest⟩
      rw [onRead_cons conv d hchunk, List.flatten_cons, ← List.append_assoc]
      exact (h.readStep hresponse hroom hp hin).andThen fun d' _ _ hstep hstage ↦
        ih hstage (hrest d' hstep)

/-- The main loop takes orders out of the queue; that does not touch the stage. -/
theorem Stage.drained {received : List UInt8} {total : List Order} {generated : List OutputFrame}
    {d : DiffLogic n} (h : Stage conv f stale received total generated d) (orders : Orders n) :
    Stage conv f stale received total generated { d with mOrders := orders } := by
  cases h with
  | handshake hv hstate hzero hbuffer =>
      exact .handshake ⟨hv.buffer, hv.offset, hv.address⟩ hstate hzero hbuffer
  | response hgot hlt =>
      have hv := hgot.valid
      exact .response ⟨⟨hv.buffer, hv.offset, hv.address⟩, hgot.mState, hgot.mOffset,
        hgot.mBuffer⟩ hlt
  | @frames k _ hwork hends =>
      have hv := hwork.valid
      exact .frames (d := { d with mOrders := orders })
        ⟨⟨hv.buffer, hv.offset, hv.address⟩, hwork.mState⟩ hends

/-- A write is the request, or it takes bytes out of the output queue. -/
theorem Stage.onWrite {received : List UInt8} {total : List Order} {generated : List OutputFrame}
    {d d' : DiffLogic n} (h : Stage conv f stale received total generated d) {url : Url}
    {limits : List Nat} {accepted : List (List UInt8)}
    (hd : d.onWrite url limits = some (d', accepted)) :
    Stage conv f stale received total generated d' := by
  have hwritten (hstate : d.mState ≠ .handshake) :
      ∃ queue, d' = { d with mOutputQueue := queue } := by
    rw [DiffLogic.onWrite, if_neg hstate] at hd
    rcases Option.map_eq_some_iff.mp hd with ⟨written, -, heq⟩
    exact ⟨_, (Prod.mk.inj heq).1.symm⟩
  cases h with
  | handshake hv hstate hzero hbuffer =>
      rw [DiffLogic.onWrite, if_pos hstate] at hd
      cases hd
      have hgot : Got stale [] (d.writeHandshake url limits).1 := by
        refine ⟨⟨hv.buffer, hv.offset, hv.address⟩, rfl, hzero, ?_⟩
        rw [List.nil_append]
        exact hbuffer
      exact .response hgot (Nat.lt_add_left _ (by decide))
  | response hgot hlt =>
      have hv := hgot.valid
      rcases hwritten (by rw [hgot.mState]; decide) with ⟨queue, rfl⟩
      exact .response ⟨⟨hv.buffer, hv.offset, hv.address⟩, hgot.mState, hgot.mOffset,
        hgot.mBuffer⟩ hlt
  | @frames k _ hwork hends =>
      have hv := hwork.valid
      rcases hwritten (by rw [hwork.mState]; decide) with ⟨queue, rfl⟩
      exact .frames (d := { d with mOutputQueue := queue })
        ⟨⟨hv.buffer, hv.offset, hv.address⟩, hwork.mState⟩ hends

/-! ## Output -/

theorem entry_queued (type : UInt64) {message : List UInt8} (maskKey : UInt32)
    (hsize : message.length < 2 ^ 63) : (entry type message maskKey).Queued := by
  have hroom : message.length + 14 < 2 ^ 64 := by omega
  have hlength := Frame.two_le_length_serialize (Frame.serialize_eq (generated type maskKey) hroom)
  exact ⟨rfl, lt_of_lt_of_le Nat.two_pos hlength.1, hlength.2⟩

/-- A frame that has been generated and not been touched since. -/
structure Whole (o : OutputFrame) : Prop where
  queued : o.Queued
  offset : o.offset = 0

theorem whole_of_mem_answers {k : Nat} {o : OutputFrame} (h : o ∈ f.answers k) : Whole o := by
  rcases List.mem_cons.mp h with rfl | h
  · exact ⟨entry_queued _ _ (by decide), rfl⟩
  · rcases List.mem_flatMap.mp h with ⟨w, -, hw⟩
    rw [DiffLogic.answers] at hw
    split at hw
    · rw [List.mem_singleton.mp hw]
      exact ⟨entry_queued _ _ (by decide), rfl⟩
    · cases hw

theorem unsent_whole {queue : List OutputFrame} (h : ∀ o ∈ queue, Whole o) :
    unsent queue = (queue.map OutputFrame.frame).flatten := by
  rw [unsent]
  refine congrArg List.flatten (List.map_congr_left fun o ho ↦ ?_)
  rw [OutputFrame.rest, (h o ho).offset, List.drop_zero]

/-- What the socket has accepted: a part of the request, and the generated frames up to the bytes
that are still in the queue. -/
structure Sent (url : Url) (d : DiffLogic n) (sent : List UInt8) (generated : List OutputFrame) :
    Prop where
  bytes : ∃ request accepted, request <+: upgradeRequest url ∧ sent = request ++ accepted ∧
    accepted ++ unsent d.mOutputQueue = (generated.map OutputFrame.frame).flatten
  queued : ∀ o ∈ d.mOutputQueue, o.Queued
  early : d.mState = .handshake → sent = []

section Sent

variable {url : Url} {d d' : DiffLogic n} {sent : List UInt8} {generated : List OutputFrame}

theorem Sent.generate (h : Sent url d sent generated) {more : List OutputFrame}
    (hqueue : d'.mOutputQueue = d.mOutputQueue ++ more) (hmore : ∀ o ∈ more, Whole o)
    (hstate : d'.mState = .handshake → d.mState = .handshake) :
    Sent url d' sent (generated ++ more) := by
  rcases h.bytes with ⟨request, accepted, hrequest, hsent, hbytes⟩
  refine ⟨⟨request, accepted, hrequest, hsent, ?_⟩, fun o ho ↦ ?_, fun hearly ↦
    h.early (hstate hearly)⟩
  · rw [hqueue, unsent_append, ← List.append_assoc, hbytes, unsent_whole hmore, List.map_append,
      List.flatten_append]
  · rw [hqueue] at ho
    rcases List.mem_append.mp ho with ho | ho
    · exact h.queued o ho
    · exact (hmore o ho).queued

theorem Sent.drained (h : Sent url d sent generated) (orders : Orders n) :
    Sent url { d with mOrders := orders } sent generated := ⟨h.bytes, h.queued, h.early⟩

/-- `on_write` stays within the frames of the queue, and goes on where it has stopped. -/
theorem Sent.onWrite (h : Sent url d sent generated) (limits : List Nat) :
    ∃ d' accepted, d.onWrite url limits = some (d', accepted) ∧
      Sent url d' (sent ++ accepted.flatten) generated := by
  rcases h.bytes with ⟨request, accepted, hrequest, hsent, hbytes⟩
  by_cases hearly : d.mState = .handshake
  · -- nothing has been sent, and what is accepted is all of the request there will be
    refine ⟨_, _, if_pos hearly, ⟨(upgradeRequest url).take (limits.headD 0), [],
      List.take_prefix _ _, ?_, ?_⟩, h.queued, nofun⟩
    · rw [h.early hearly, List.nil_append, List.flatten_singleton, List.append_nil]
    · have hnil := hsent.symm.trans (h.early hearly)
      rw [← hbytes, (List.append_eq_nil_iff.mp hnil).2]
  · rcases writeLoop_flushes limits h.queued with ⟨queue, writed, he, hf⟩
    refine ⟨{ d with mOutputQueue := queue }, writed, ?_, ⟨request, accepted ++ writed.flatten,
      hrequest, ?_, ?_⟩, hf.queued, fun hstate ↦ absurd hstate hearly⟩
    · rw [DiffLogic.onWrite, if_neg hearly, he]
      rfl
    · rw [hsent, List.append_assoc]
    · rw [List.append_assoc, hf.bytes, hbytes]

end Sent

theorem onRead_early {chunks : List (List UInt8)} {d d' : DiffLogic n}
    (h : (d.onRead conv chunks).state? = some d') (hstate : d'.mState = .handshake) :
    d.mState = .handshake := by
  have hback {d d' : DiffLogic n} {chunk : List UInt8}
      (h : (d.readStep conv chunk).state? = some d') (hstate : d'.mState = .handshake) :
      d.mState = .handshake := by
    have hfollows := readStep_follows h
    rw [hstate] at hfollows
    generalize d.mState = state at hfollows
    cases hfollows
    rfl
  induction chunks generalizing d with
  | nil =>
      cases h
      exact hstate
  | cons chunk chunks ih =>
      by_cases hchunk : chunk = []
      · rw [onRead, if_pos hchunk] at h
        cases h
        exact hstate
      · rw [onRead_cons conv d hchunk] at h
        rcases Outcome.andThen_state? h with hstep | ⟨d₁, hstep, hrest⟩
        · exact hback hstep hstate
        · exact hback (by rw [hstep]; rfl) (ih hrest)

end DiffLogic

end Tob
