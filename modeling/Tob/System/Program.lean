import Tob.Live.Partial
import Tob.System.DiffFeed
import Tob.System.SnapshotFeed

/-!
# The whole program

The loop of `main` over the two clients themselves: a callback gets what its socket reads and
accepts, and does what `DiffLogic` and `ReceiveOrderBookLogic` do with it.  Seen from the loop it is
one of the events of `Main`, or none.
-/

namespace Tob

/-- The locals of `main` that outlive an iteration, with the callbacks of both sockets; the queue of
the diff client is `orders`. -/
structure System (n : Nat) where
  orderBook : OrderBook
  diff : DiffLogic n
  diffOpen : Bool
  client : Client
  orderBookSocket : SnapshotSocket
  orderBookReady : Bool
  lastTime : Nat

/-- `diff_url` and `order_book_url`. -/
structure Urls where
  diff : Url
  orderBook : Url

/-- One callback run by the event loop, with what its socket delivers and accepts. -/
inductive Callback where
  | diffRead (chunks : List (List UInt8))
  | diffWrite (limits : List Nat)
  | diffClose
  | snapshotRead (result : SslResult) (limits : List Nat) (incoming : List UInt8)
  | snapshotWrite (result : SslResult) (writes : List Int)
  | snapshotClose

namespace System

variable {n : Nat}

/-- The state before the loop.  `m_buffer` of the diff client is not initialised. -/
def start (urls : Urls) (depth address : Nat) (buffer : List UInt8) : System n where
  orderBook := .new depth
  diff := ⟨address, 0, buffer, .handshake, [], .empty⟩
  diffOpen := true
  client := .new urls.orderBook
  orderBookSocket := .connected
  orderBookReady := false
  lastTime := 0

/-- What the loop sees of the clients. -/
def toMain (s : System n) : Main n where
  orderBook := s.orderBook
  orders := s.diff.mOrders
  diffOpen := s.diffOpen
  orderBookSocket := s.orderBookSocket
  orderBookReady := s.orderBookReady
  lastTime := s.lastTime

/-- The part of the loop behind the events changes the locals; a new socket gets a new client. -/
def withMain (urls : Urls) (s : System n) (m : Main n) : System n where
  orderBook := m.orderBook
  diff := { s.diff with mOrders := m.orders }
  diffOpen := m.diffOpen
  client :=
    if s.orderBookSocket = .null ∧ m.orderBookSocket = .connected then .new urls.orderBook
    else s.client
  orderBookSocket := m.orderBookSocket
  orderBookReady := m.orderBookReady
  lastTime := m.lastTime

/-- What a callback of the diff client leaves; an exception closes the connection. -/
def afterDiff (s : System n) : Outcome (DiffLogic n) → Outcome (System n)
  | .returned diff => .returned { s with diff }
  | .threw _ diff => .returned { s with diff, diffOpen := false }
  | .aborted diff => .aborted { s with diff }
  | .undefined => .undefined

/-- `process_json` and the `close` behind it; an exception closes the connection as well. -/
def store (conv : Conversions) (s : System n) (body : List UInt8) : Outcome (System n) :=
  match processJson conv body s.orderBook with
  | .returned orderBook => .returned { s with orderBook, orderBookSocket := .closed }
  | .threw _ orderBook => .returned { s with orderBook, orderBookSocket := .closed }
  | .aborted orderBook => .aborted { s with orderBook }
  | .undefined => .undefined

/-- What a callback of the snapshot client leaves, with the body it hands to `process_json`. -/
def afterClient (conv : Conversions) (s : System n) (body : Option (List UInt8)) :
    Outcome Client → Outcome (System n)
  | .returned client =>
      match body with
      | none => .returned { s with client }
      | some body => { s with client }.store conv body
  | .threw _ client => .returned { s with client, orderBookSocket := .closed }
  | .aborted client => .aborted { s with client }
  | .undefined => .undefined

/-- A callback in the `try` block of the event loop.  A socket that is closed or gone has none. -/
def handle (conv : Conversions) (urls : Urls) (s : System n) : Callback → Outcome (System n)
  | .diffRead chunks =>
      if s.diffOpen then s.afterDiff (s.diff.onRead conv chunks) else .returned s
  | .diffWrite limits =>
      if s.diffOpen then
        .attempt (s.diff.onWrite urls.diff limits) fun (diff, _) ↦ .returned { s with diff }
      else .returned s
  | .diffClose => .returned { s with diffOpen := false }
  | .snapshotRead result limits incoming =>
      if s.orderBookSocket = .connected then
        s.afterClient conv (s.client.delivers (strstr HTTP_DELIMITER) result limits incoming)
          (s.client.onRead (strstr HTTP_DELIMITER) result limits incoming)
      else .returned s
  | .snapshotWrite result writes =>
      if s.orderBookSocket = .connected then
        s.afterClient conv none (s.client.onWrite result writes)
      else .returned s
  | .snapshotClose =>
      .returned
        (if s.orderBookSocket = .connected then { s with orderBookSocket := .closed } else s)

/-- The loop over the events of a poll. -/
def handleAll (conv : Conversions) (urls : Urls) (s : System n) :
    List Callback → Outcome (System n)
  | [] => .returned s
  | callback :: callbacks =>
      (s.handle conv urls callback).andThen fun s ↦ s.handleAll conv urls callbacks

/-- The loop body after the events. -/
def afterEvents (urls : Urls) (s : System n) (clock : Clock) : Outcome (System n) :=
  (s.toMain.afterEvents clock).map (s.withMain urls)

/-- One iteration of the outer loop. -/
def iterate (conv : Conversions) (urls : Urls) (s : System n) (callbacks : List Callback)
    (clock : Clock) : Outcome (System n) :=
  (s.handleAll conv urls callbacks).andThen fun s ↦ s.afterEvents urls clock

end System

/-! ## What a read queues -/

namespace DiffLogic

variable {n : Nat} {conv : Conversions}

/-- The queue has grown by some orders, and there was room for them. -/
def Queues (d d' : DiffLogic n) : Prop :=
  ∃ batch, d'.mOrders.mOrders = d.mOrders.mOrders ++ batch ∧
    batch.length ≤ n - d.mOrders.mOrders.length

theorem queues_of_eq {d d' : DiffLogic n} (h : d'.mOrders = d.mOrders) : Queues d d' :=
  ⟨[], by rw [h, List.append_nil], Nat.zero_le _⟩

theorem Queues.trans {d d' d'' : DiffLogic n} (h : Queues d d') (h' : Queues d' d'') :
    Queues d d'' := by
  rcases h with ⟨batch, hqueue, hroom⟩
  rcases h' with ⟨batch', hqueue', hroom'⟩
  refine ⟨batch ++ batch', by rw [hqueue', hqueue, List.append_assoc], ?_⟩
  rw [hqueue, List.length_append] at hroom'
  rw [List.length_append]
  omega

theorem onPayload_queues {d d' : DiffLogic n} {payload : List UInt8} {stop : Nat}
    (h : (d.onPayload conv payload stop).state? = some d') : Queues d d' := by
  have htaken {d : DiffLogic n}
      (h : (Outcome.attempt (d.takeFrame stop) .returned).state? = some d') :
      d'.mOrders = d.mOrders := by
    rcases Outcome.attempt_state?.mp h with ⟨d₁, htake, hd⟩
    cases hd
    exact congrArg Prod.fst (takeFrame_view htake)
  unfold onPayload onParsed at h
  cases hparse : conv.parse payload with
  | error what =>
      rw [hparse] at h
      cases h
      exact queues_of_eq rfl
  | ok parsed =>
      rw [hparse] at h
      cases parsed with
      | none => exact queues_of_eq (htaken h)
      | some root =>
          simp only at h
          -- whatever the message does, it leaves what there was room for
          have hstore (orders : Orders n)
              (hstate : (storeMessage conv root d.mOrders).state? = some orders) :
              ∃ batch, orders.mOrders = d.mOrders.mOrders ++ batch ∧
                batch.length ≤ n - d.mOrders.mOrders.length := by
            rw [storeMessage_eq, Orders.storeThen_state?, Option.some_inj] at hstate
            rw [← hstate]
            exact ⟨_, rfl, List.length_take_le _ _⟩
          cases hmessage : storeMessage conv root d.mOrders with
          | returned orders =>
              rw [hmessage] at h
              rcases hstore orders (by rw [hmessage]; rfl) with ⟨batch, hqueue, hroom⟩
              exact ⟨batch, by rw [htaken h]; exact hqueue, hroom⟩
          | threw what orders =>
              rw [hmessage] at h
              cases h
              exact hstore orders (by rw [hmessage]; rfl)
          | aborted orders =>
              rw [hmessage] at h
              cases h
              exact hstore orders (by rw [hmessage]; rfl)
          | undefined =>
              rw [hmessage] at h
              cases h

theorem frameStep_queues {d d' : DiffLogic n} (h : (d.frameStep conv).state? = some d') :
    Queues d d' := by
  rcases Outcome.attempt_state?.mp h with ⟨decoded, -, h⟩
  by_cases hstop : decoded.stop = d.address
  · rw [if_pos hstop] at h
    cases h
    exact queues_of_eq rfl
  · rw [if_neg hstop] at h
    rcases Outcome.attempt_state?.mp h with ⟨d₁, hping, h⟩
    rcases Outcome.attempt_state?.mp h with ⟨payload, -, h⟩
    refine (queues_of_eq ?_).trans (onPayload_queues h)
    rcases answerPing_cases hping with hno | hpong
    · rw [hno]
    · exact (generateFrame_keeps hpong).2

/-- Whatever the bytes are, a read puts orders behind those in the queue, as many as there is room
for. -/
theorem readStep_queues {d d' : DiffLogic n} {chunk : List UInt8}
    (h : (d.readStep conv chunk).state? = some d') : Queues d d' := by
  rcases Outcome.attempt_state?.mp h with ⟨d₁, hreceive, h⟩
  refine (queues_of_eq (receive_idles hreceive).mOrders).trans ?_
  by_cases hstate : d₁.mState = .handshakeResponse
  · rw [if_pos hstate] at h
    rcases Outcome.attempt_state?.mp h with ⟨⟨d₂, upgraded⟩, hresponse, h⟩
    have hsame : d₂.mOrders = d₁.mOrders := by
      rcases handshakeResponse_cases hresponse with ⟨-, rfl⟩ | ⟨-, d₃, -, horders, -, hgenerate⟩
      · rfl
      · exact (generateFrame_keeps hgenerate).2.trans horders
    refine (queues_of_eq hsame).trans ?_
    cases upgraded with
    | false =>
        cases h
        exact queues_of_eq rfl
    | true => exact frameStep_queues h
  · rw [if_neg hstate] at h
    exact frameStep_queues h

theorem onRead_queues {chunks : List (List UInt8)} {d d' : DiffLogic n}
    (h : (d.onRead conv chunks).state? = some d') : Queues d d' := by
  induction chunks generalizing d with
  | nil =>
      cases h
      exact queues_of_eq rfl
  | cons chunk chunks ih =>
      by_cases hchunk : chunk = []
      · rw [onRead, if_pos hchunk] at h
        cases h
        exact queues_of_eq rfl
      · rw [onRead_cons conv d hchunk] at h
        rcases Outcome.andThen_state? h with hstep | ⟨d₁, hstep, hrest⟩
        · exact readStep_queues hstep
        · exact (readStep_queues (by rw [hstep]; rfl)).trans (ih hrest)

theorem onWrite_orders {url : Url} {limits : List Nat} {d d' : DiffLogic n}
    {accepted : List (List UInt8)} (h : d.onWrite url limits = some (d', accepted)) :
    d'.mOrders = d.mOrders := by
  unfold onWrite at h
  by_cases hhandshake : d.mState = .handshake
  · rw [if_pos hhandshake] at h
    cases h
    rfl
  · rw [if_neg hhandshake] at h
    rcases Option.map_eq_some_iff.mp h with ⟨written, -, heq⟩
    cases heq
    rfl

end DiffLogic

/-! ## Refinement -/

namespace System

variable {n : Nat} {conv : Conversions} {urls : Urls}

theorem queue_of_fits {m : Main n} {batch : List Order}
    (hroom : batch.length ≤ n - m.orders.mOrders.length) (throws : Bool) :
    m.queue batch throws =
      { m with orders := ⟨m.orders.mOrders ++ batch⟩, diffOpen := m.diffOpen && !throws } := by
  unfold Main.queue
  rw [Orders.addOrders_eq, if_pos hroom, List.take_of_length_le hroom]

theorem toMain_diff {s : System n} {diff : DiffLogic n} {batch : List Order}
    (hqueue : diff.mOrders.mOrders = s.diff.mOrders.mOrders ++ batch)
    (hroom : batch.length ≤ n - s.diff.mOrders.mOrders.length) (throws : Bool) :
    s.toMain.queue batch throws = toMain { s with diff, diffOpen := s.diffOpen && !throws } := by
  rw [queue_of_fits hroom]
  unfold toMain
  simp only [Main.mk.injEq, true_and, and_true]
  show (⟨s.diff.mOrders.mOrders ++ batch⟩ : Orders n) = diff.mOrders
  rw [← hqueue]

theorem handleAll_one (m : Main n) (event : Event) :
    m.handleAll conv [event] = m.handle conv event := Outcome.andThen_returned_right _

theorem store_refines {s s' : System n} {body : List UInt8}
    (hconnected : s.orderBookSocket = .connected) (h : s.store conv body = .returned s') :
    s.toMain.handle conv (.snapshot body) = .returned s'.toMain := by
  have hsocket : s.toMain.orderBookSocket = .connected := hconnected
  have hbook : s.toMain.orderBook = s.orderBook := rfl
  unfold store at h
  rw [Main.handle, if_pos hsocket, hbook]
  cases hjson : processJson conv body s.orderBook with
  | returned orderBook => rw [hjson] at h; cases h; rfl
  | threw what orderBook => rw [hjson] at h; cases h; rfl
  | aborted orderBook => rw [hjson] at h; cases h
  | undefined => rw [hjson] at h; cases h

theorem afterDiff_refines {s s' : System n} {chunks : List (List UInt8)}
    (hopen : s.diffOpen = true) (h : s.afterDiff (s.diff.onRead conv chunks) = .returned s') :
    ∃ event, s.toMain.handle conv event = .returned s'.toMain := by
  have hmain : s.toMain.diffOpen = true := hopen
  cases hread : s.diff.onRead conv chunks with
  | returned diff =>
      rcases DiffLogic.onRead_queues (by rw [hread]; rfl) with ⟨batch, hqueue, hroom⟩
      rw [hread] at h
      cases h
      refine ⟨.diffs batch, ?_⟩
      rw [Main.handle, if_pos hmain, toMain_diff hqueue hroom]
      simp only [Bool.not_false, Bool.and_true]
  | threw what diff =>
      rcases DiffLogic.onRead_queues (by rw [hread]; rfl) with ⟨batch, hqueue, hroom⟩
      rw [hread] at h
      cases h
      refine ⟨.diffsThrow batch, ?_⟩
      rw [Main.handle, if_pos hmain, toMain_diff hqueue hroom]
      simp only [Bool.not_true, Bool.and_false]
  | aborted diff => rw [hread] at h; cases h
  | undefined => rw [hread] at h; cases h

theorem afterClient_refines {s s' : System n} {body : Option (List UInt8)}
    {o : Outcome Client} (hconnected : s.orderBookSocket = .connected)
    (h : s.afterClient conv body o = .returned s') :
    ∃ events, s.toMain.handleAll conv events = .returned s'.toMain := by
  have hsocket : s.toMain.orderBookSocket = .connected := hconnected
  cases o with
  | returned client =>
      cases body with
      | none =>
          cases h
          exact ⟨[], rfl⟩
      | some body =>
          refine ⟨[.snapshot body], ?_⟩
          rw [handleAll_one]
          exact store_refines (s := { s with client }) hconnected h
  | threw what client =>
      cases h
      refine ⟨[.snapshotThrow], ?_⟩
      rw [handleAll_one, Main.handle, if_pos hsocket]
      rfl
  | aborted client => cases h
  | undefined => cases h

/-- To the loop, a callback is one event, or none where nothing it shares with the loop changes. -/
theorem handle_refines {s s' : System n} {callback : Callback}
    (h : s.handle conv urls callback = .returned s') :
    ∃ events, s.toMain.handleAll conv events = .returned s'.toMain := by
  have hidle (heq : s'.toMain = s.toMain) :
      ∃ events, s.toMain.handleAll conv events = .returned s'.toMain :=
    ⟨[], congrArg Outcome.returned heq.symm⟩
  cases callback with
  | diffRead chunks =>
      rw [handle] at h
      cases hopen : s.diffOpen with
      | false =>
          rw [hopen, if_neg Bool.false_ne_true] at h
          cases h
          exact hidle rfl
      | true =>
          rw [hopen, if_pos rfl] at h
          rcases afterDiff_refines hopen h with ⟨event, hevent⟩
          exact ⟨[event], (handleAll_one _ _).trans hevent⟩
  | diffWrite limits =>
      rw [handle] at h
      cases hopen : s.diffOpen with
      | false =>
          rw [hopen, if_neg Bool.false_ne_true] at h
          cases h
          exact hidle rfl
      | true =>
          rw [hopen, if_pos rfl] at h
          rcases Outcome.attempt_eq_returned_iff.mp h with ⟨⟨diff, accepted⟩, hwrite, hs⟩
          cases hs
          apply hidle
          unfold toMain
          rw [DiffLogic.onWrite_orders hwrite, hopen]
  | diffClose =>
      cases h
      exact ⟨[.diffClose], handleAll_one _ _⟩
  | snapshotRead result limits incoming =>
      rw [handle] at h
      by_cases hconnected : s.orderBookSocket = .connected
      · rw [if_pos hconnected] at h
        exact afterClient_refines hconnected h
      · rw [if_neg hconnected] at h
        cases h
        exact hidle rfl
  | snapshotWrite result writes =>
      rw [handle] at h
      by_cases hconnected : s.orderBookSocket = .connected
      · rw [if_pos hconnected] at h
        exact afterClient_refines hconnected h
      · rw [if_neg hconnected] at h
        cases h
        exact hidle rfl
  | snapshotClose =>
      cases h
      refine ⟨[.snapshotClose], ?_⟩
      have hsocket : s.toMain.orderBookSocket = s.orderBookSocket := rfl
      rw [handleAll_one, Main.handle, hsocket]
      split <;> rfl

theorem handleAll_append {m m' : Main n} {events more : List Event}
    (h : m.handleAll conv events = .returned m') :
    m.handleAll conv (events ++ more) = m'.handleAll conv more := by
  induction events generalizing m with
  | nil => cases h; rfl
  | cons event events ih =>
      rcases Outcome.andThen_eq_returned_iff.mp h with ⟨m₁, hstep, hrest⟩
      rw [List.cons_append, Main.handleAll, hstep, Outcome.andThen_returned]
      exact ih hrest

theorem handleAll_refines {callbacks : List Callback} {s s' : System n}
    (h : s.handleAll conv urls callbacks = .returned s') :
    ∃ events, s.toMain.handleAll conv events = .returned s'.toMain := by
  induction callbacks generalizing s with
  | nil => cases h; exact ⟨[], rfl⟩
  | cons callback callbacks ih =>
      rcases Outcome.andThen_eq_returned_iff.mp h with ⟨s₁, hstep, hrest⟩
      rcases handle_refines hstep with ⟨events, hevents⟩
      rcases ih hrest with ⟨more, hmore⟩
      exact ⟨events ++ more, (handleAll_append hevents).trans hmore⟩

theorem afterEvents_toMain {s s' : System n} {clock : Clock}
    (h : s.afterEvents urls clock = .returned s') :
    s.toMain.afterEvents clock = .returned s'.toMain := by
  rcases Outcome.map_eq_returned_iff.mp h with ⟨m, hm, rfl⟩
  exact hm

theorem iterate_events {s s' : System n} {callbacks : List Callback} {clock : Clock}
    (h : s.iterate conv urls callbacks clock = .returned s') :
    ∃ events, s.toMain.iterate conv events clock = .returned s'.toMain := by
  rcases Outcome.andThen_eq_returned_iff.mp h with ⟨s₁, hcallbacks, hrest⟩
  rcases handleAll_refines hcallbacks with ⟨events, hevents⟩
  refine ⟨events, ?_⟩
  rw [Main.iterate, hevents, Outcome.andThen_returned, afterEvents_toMain hrest]

/-! ## Callbacks that go through -/

/-- The first write of the diff client is its request. -/
theorem start_onWrite (urls : Urls) (depth address : Nat) (buffer : List UInt8)
    (limits : List Nat) : (start (n := n) urls depth address buffer).diff.onWrite urls.diff limits =
      some (⟨address, 0, buffer, .handshakeResponse, [], .empty⟩,
        [(upgradeRequest urls.diff).take (limits.headD 0)]) := rfl

theorem handle_diffRead {s : System n} (hopen : s.diffOpen = true) {chunks : List (List UInt8)}
    {diff : DiffLogic n} (hread : s.diff.onRead conv chunks = .returned diff) :
    s.handle conv urls (.diffRead chunks) = .returned { s with diff } := by
  rw [handle, if_pos hopen, hread]
  rfl

theorem handle_snapshotWrite {s : System n} (hconnected : s.orderBookSocket = .connected)
    {result : SslResult} {writes : List Int} {client : Client}
    (hwrite : s.client.onWrite result writes = .returned client) :
    s.handle conv urls (.snapshotWrite result writes) = .returned { s with client } := by
  rw [handle, if_pos hconnected, hwrite]
  rfl

theorem handle_snapshotRead {s : System n} (hconnected : s.orderBookSocket = .connected)
    {result : SslResult} {limits : List Nat} {incoming : List UInt8} {client : Client}
    (hread : s.client.onRead (strstr HTTP_DELIMITER) result limits incoming = .returned client) :
    s.handle conv urls (.snapshotRead result limits incoming) =
      s.afterClient conv (s.client.delivers (strstr HTTP_DELIMITER) result limits incoming)
        (.returned client) := by
  rw [handle, if_pos hconnected, hread]

theorem handle_diffWrite {s : System n} (hopen : s.diffOpen = true) {limits : List Nat}
    {diff : DiffLogic n} {accepted : List (List UInt8)}
    (hwrite : s.diff.onWrite urls.diff limits = some (diff, accepted)) :
    s.handle conv urls (.diffWrite limits) = .returned { s with diff } := by
  rw [handle, if_pos hopen, hwrite]
  rfl

/-! ## Reachable states -/

/-- The states the program reaches, whatever its sockets deliver. -/
inductive Reachable (conv : Conversions) (urls : Urls) (depth : Nat) : System n → Prop where
  | start {address buffer} : Reachable conv urls depth (start urls depth address buffer)
  | iterate {s callbacks clock s'} : Reachable conv urls depth s →
      s.iterate conv urls callbacks clock = .returned s' → Reachable conv urls depth s'

theorem Reachable.toMain {depth : Nat} {s : System n} (h : Reachable conv urls depth s) :
    Main.Reachable conv depth s.toMain := by
  induction h with
  | start => exact Main.Run.start
  | iterate _ h ih =>
      rcases iterate_events h with ⟨events, hevents⟩
      exact ih.iterate hevents

/-- The program refines the loop: an iteration over whatever the sockets deliver is an iteration
over some events, so the program reaches no state that the loop does not. -/
theorem iterate_refines {depth : Nat} {s s' : System n} (hreach : Reachable conv urls depth s)
    {callbacks : List Callback} {clock : Clock}
    (h : s.iterate conv urls callbacks clock = .returned s') :
    (∃ events, s.toMain.iterate conv events clock = .returned s'.toMain) ∧
      Main.Reachable conv depth s'.toMain :=
  ⟨iterate_events h, (Reachable.iterate hreach h).toMain⟩

/-! ## An iteration -/

def exampleUrls : Urls := ⟨⟨"/app", "ws.pusherapp.com"⟩, ⟨"/api/order_book", "www.bitstamp.net"⟩⟩

/-- A bid, and the frame that lists it. -/
def bid : Order := ⟨Order.BUY, 5, 3000000, 1000000⟩

def bidString : String := "\x7b\"timestamp\":\"5\",\"bids\":[[\"3\",\"1\"]],\"asks\":[]\x7d"

def bidPayload : List UInt8 :=
  ascii ("\x7b\"data\":\"\x7b\\\"timestamp\\\":\\\"5\\\",\\\"bids\\\":" ++
    "[[\\\"3\\\",\\\"1\\\"]],\\\"asks\\\":[]\x7d\"\x7d")

def bidFrame : WireFrame := ⟨0x81, .short, none, bidPayload, by decide +kernel⟩

/-- The response with the same bid; spaces make its body fill the buffer. -/
def bidHead : List UInt8 := Receiver.okHeader "5000"

def bidBody : List UInt8 := Main.oneBidText ++ List.replicate (5000 - Main.oneBidText.length) 0x20

def bidResponse : List UInt8 := bidHead ++ HTTP_DELIMITER ++ bidBody

def bidConv : Conversions :=
  .documents [(bidBody, Main.oneBid), (bidPayload, .object [("data", .string bidString)]),
    (Main.oneBidText, Main.oneBid)]

/-- The upgrade and the frame, each in a read of its own. -/
def bidReads : List (List UInt8) := [DiffLogic.switching ++ HTTP_DELIMITER, bidFrame.bytes]

theorem bid_orders : payloadOrders bidConv bidFrame.plain = ([bid], .returns) := by
  decide +kernel

theorem bid_read : ∃ d, DiffLogic.connecting.onRead bidConv bidReads = .returned d ∧
    d.mOrders = ⟨[bid]⟩ := by
  have hne : DiffLogic.switching ++ HTTP_DELIMITER ≠ [] :=
    List.append_ne_nil_of_right_ne_nil _ delimiter_ne_nil
  have hgot : DiffLogic.Got DiffLogic.connecting.mBuffer [] DiffLogic.connecting :=
    .self DiffLogic.connecting_valid rfl
  rcases DiffLogic.readStep_response DiffLogic.switching_head hgot (by decide) bidConv with
    ⟨d₁, hfirst, hview, hwork, hzero⟩
  have hstored : DiffLogic.dispatchFrame (.of bidConv bidFrame) d₁.view =
      .returned (⟨[bid]⟩, [DiffLogic.subscribed]) := by
    rw [hview, Dealt.of_eq bid_orders, DiffLogic.dispatchFrame]
    rfl
  have hroom : d₁.mOffset + bidFrame.bytes.length ≤ BUFFER_SIZE := by
    rw [hzero]
    decide +kernel
  rcases DiffLogic.readStep_whole hwork hzero hroom (by decide +kernel) hstored with
    ⟨d₂, hsecond, hqueue, -⟩
  refine ⟨d₂, ?_, congrArg Prod.fst hqueue⟩
  rw [bidReads, DiffLogic.onRead_cons _ _ hne, hfirst, Outcome.andThen_returned,
    DiffLogic.onRead_cons _ _ (by decide +kernel), hsecond]
  rfl

theorem bidBody_length : bidBody.length = 5000 := by
  rw [bidBody, List.length_append, List.length_replicate]
  rfl

/-- The TLS handshake and the request, then the header and the body. -/
theorem bid_served : ∃ c₁ c₂ c₃ : Client,
    (Client.new exampleUrls.orderBook).onWrite .one
      [((snapshotRequest exampleUrls.orderBook).length : Int)] = .returned c₁ ∧
    c₁.onRead (strstr HTTP_DELIMITER) .one [bidHead.length + 4] bidResponse = .returned c₂ ∧
    c₁.delivers (strstr HTTP_DELIMITER) .one [bidHead.length + 4] bidResponse = none ∧
    c₂.onRead (strstr HTTP_DELIMITER) .one [bidBody.length] bidBody = .returned c₃ ∧
    c₂.delivers (strstr HTTP_DELIMITER) .one [bidBody.length] bidBody = some bidBody := by
  have hhead : Head bidHead := Head.of_strstr (by decide +kernel)
  have hsize : getBodySize bidHead = .ok 5000 := rfl
  have hlt : (snapshotRequest exampleUrls.orderBook).length < 2 ^ 64 := by decide +kernel
  rcases (Client.new exampleUrls.orderBook).onWrite_all (Nat.zero_le _) hlt rfl with
    ⟨c₁, hwrite, hrequested⟩
  -- the header, and nothing behind it
  rcases Receiver.requested_onRead_header bidBody hhead (by decide +kernel) hsize (by decide)
    (by decide) with ⟨r, hr, hheader⟩
  rw [show Receiver.requested = c₁.receiver from hrequested.symm] at hheader
  rcases Client.reads_of_receiver hheader with ⟨⟨c₂, hfirst, hreceiver⟩, -, hwaits⟩
  have hne : bidBody ≠ [] := by
    rw [← List.length_pos_iff, bidBody_length]
    decide
  -- the body fills the buffer
  rcases hr.onRead_all (by decide) hne (strstr HTTP_DELIMITER) .done with ⟨p, hbody, -, hdelivered⟩
  have hall : max JSON_BUF_INIT_VALUE 5000 ≤ bidBody.length := le_of_eq bidBody_length.symm
  rw [if_pos hall, List.take_of_length_le (le_of_eq bidBody_length)] at hdelivered
  rw [← show c₂.receiver = r from hreceiver] at hbody
  rcases Client.reads_of_receiver hbody with ⟨⟨c₃, hsecond, -⟩, -, hdelivers⟩
  exact ⟨c₁, c₂, c₃, hwrite, hfirst, hwaits, hsecond, hdelivers.trans hdelivered⟩

/-- Both requests go out, the diff server answers and sends a bid, and the snapshot arrives with the
same bid, its header in one read and its body in another. -/
def bidCallbacks : List Callback :=
  [.diffWrite [300], .diffRead bidReads,
    .snapshotWrite .one [((snapshotRequest exampleUrls.orderBook).length : Int)],
    .snapshotRead .one [bidHead.length + 4] bidResponse,
    .snapshotRead .one [bidBody.length] bidBody]

theorem bid_stored : processJson bidConv bidBody (.new 3) = .returned firstBid := by
  have hparse : bidConv.parse bidBody = .ok (some Main.oneBid) :=
    congrArg Except.ok List.lookup_cons_self
  rw [processJson, hparse]
  rfl

def bidStart : System 1 := start exampleUrls 3 0x10000 (List.replicate BUFFER_SIZE 0)

-- One callback after the other.
theorem bid_callbacks {d : DiffLogic 1} (hread : DiffLogic.connecting.onRead bidConv bidReads =
    .returned d) : ∃ client, bidStart.handleAll bidConv exampleUrls bidCallbacks = .returned
      { bidStart with orderBook := firstBid, diff := d, client, orderBookSocket := .closed } := by
  rcases bid_served with ⟨c₁, c₂, c₃, hwrite, hheader, hwaits, hbody, hdelivers⟩
  have h₁ : bidStart.handle bidConv exampleUrls (.diffWrite [300]) =
      .returned { bidStart with diff := DiffLogic.connecting } :=
    handle_diffWrite rfl (start_onWrite _ _ _ _ _)
  have h₂ : { bidStart with diff := DiffLogic.connecting }.handle bidConv exampleUrls
      (.diffRead bidReads) = .returned { bidStart with diff := d } := handle_diffRead rfl hread
  have h₃ : { bidStart with diff := d }.handle bidConv exampleUrls (.snapshotWrite .one
      [((snapshotRequest exampleUrls.orderBook).length : Int)]) =
      .returned { bidStart with diff := d, client := c₁ } := handle_snapshotWrite rfl hwrite
  have h₄ : { bidStart with diff := d, client := c₁ }.handle bidConv exampleUrls
      (.snapshotRead .one [bidHead.length + 4] bidResponse) =
      .returned { bidStart with diff := d, client := c₂ } := by
    rw [handle_snapshotRead rfl hheader]
    exact congrArg (fun body ↦ afterClient bidConv _ body (.returned c₂)) hwaits
  have h₅ : { bidStart with diff := d, client := c₂ }.handle bidConv exampleUrls
      (.snapshotRead .one [bidBody.length] bidBody) = .returned { bidStart with
        orderBook := firstBid, diff := d, client := c₃, orderBookSocket := .closed } := by
    have hstored : processJson bidConv bidBody bidStart.orderBook = .returned firstBid := bid_stored
    rw [handle_snapshotRead rfl hbody]
    refine (congrArg (fun body ↦ afterClient bidConv _ body (.returned c₃)) hdelivers).trans ?_
    simp only [afterClient, System.store, hstored]
  refine ⟨c₃, ?_⟩
  rw [bidCallbacks, handleAll, h₁, Outcome.andThen_returned, handleAll, h₂,
    Outcome.andThen_returned, handleAll, h₃, Outcome.andThen_returned, handleAll, h₄,
    Outcome.andThen_returned, handleAll, h₅]
  rfl

theorem iterate_refines_example :
    ∃ events m, (Main.start 3 1).iterate bidConv events ⟨0, 0, 0⟩ = .returned m ∧
      m.orderBook.mBid.levels = [(3000000, 1000000)] ∧ m.orderBookReady = true ∧
      Main.Reachable bidConv 3 m := by
  rcases bid_read with ⟨d, hread, horders⟩
  rcases bid_callbacks hread with ⟨client, hcallbacks⟩
  let s : System 1 :=
    { bidStart with orderBook := firstBid, diff := d, client, orderBookSocket := .closed }
  let m : Main 1 := ⟨Main.live.orderBook, .empty, true, .closed, true, 0⟩
  -- the diff has been queued before the snapshot, so the book is in use from here on
  have hmain : s.toMain = ⟨firstBid, ⟨[bid]⟩, true, .closed, false, 0⟩ :=
    congrArg (fun orders ↦ (⟨firstBid, orders, true, .closed, false, 0⟩ : Main 1)) horders
  have hafter : s.afterEvents exampleUrls ⟨0, 0, 0⟩ = .returned (s.withMain exampleUrls m) := by
    rw [System.afterEvents, hmain]
    rfl
  have hiterate : bidStart.iterate bidConv exampleUrls bidCallbacks ⟨0, 0, 0⟩ =
      .returned (s.withMain exampleUrls m) := by
    rw [System.iterate, hcallbacks]
    exact hafter
  rcases iterate_refines .start hiterate with ⟨⟨events, hevents⟩, hreach⟩
  exact ⟨events, _, hevents, rfl, rfl, hreach⟩

end System

end Tob
