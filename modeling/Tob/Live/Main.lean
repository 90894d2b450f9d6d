import Tob.Book.Print
import Tob.Live.Orders
import Tob.Snapshot.ProcessJson

/-!
# The main loop

One iteration of `main` handles the events of a poll and then decides whether the book is usable,
drains the queue into it and prints it.  A callback enters by what it does to the objects it shares
with the loop: the orders it queues, the document it hands to `process_json`, how it ends.
-/

namespace Tob

/-- `order_book_socket`: the null pointer, a connection, or a connection that has been closed. -/
inductive SnapshotSocket where
  | null
  | connected
  | closed
  deriving DecidableEq, Repr

/-- The locals of `main` that outlive an iteration. -/
structure Main (n : Nat) where
  orderBook : OrderBook
  orders : Orders n
  diffOpen : Bool
  orderBookSocket : SnapshotSocket
  orderBookReady : Bool
  lastTime : Nat

/-- One callback run by the event loop. -/
inductive Event where
  /-- `DiffLogic::on_read` queues these orders and returns. -/
  | diffs (batch : List Order)
  /-- `DiffLogic::on_read` queues these orders and throws. -/
  | diffsThrow (batch : List Order)
  /-- The diff connection is closed. -/
  | diffClose
  /-- `ReceiveOrderBookLogic::on_read` calls `process_json` on this body. -/
  | snapshot (body : List UInt8)
  /-- A snapshot callback throws before it gets there. -/
  | snapshotThrow
  /-- The snapshot connection is closed. -/
  | snapshotClose

/-- What the timers show in one iteration; the update timer is read twice. -/
structure Clock where
  reconect : Nat
  update : Nat
  updateAgain : Nat

namespace Main

variable {n : Nat}

def RECONECT_INTERVAL : Nat := 20

/-- The state before the loop; `main` has depth 3 and room for 1000 orders. -/
def start (depth n : Nat) : Main n where
  orderBook := .new depth
  orders := .empty
  diffOpen := true
  orderBookSocket := .connected
  orderBookReady := false
  lastTime := 0

/-- Queue a batch; an exception closes the connection. -/
def queue (s : Main n) (batch : List Order) (throws : Bool) : Main n :=
  match s.orders.addOrders batch with
  | (orders, none) => { s with orders, diffOpen := s.diffOpen && !throws }
  | (orders, some _) => { s with orders, diffOpen := false }

def closeSnapshot (s : Main n) : Main n := { s with orderBookSocket := .closed }

/-- The `try` block of the event loop with its handler: after an exception the socket is closed, as
it is after a snapshot has been stored.  A socket that is closed or gone has no events. -/
def handle (conv : Conversions) (s : Main n) : Event → Outcome (Main n)
  | .diffs batch => .returned (if s.diffOpen then s.queue batch false else s)
  | .diffsThrow batch => .returned (if s.diffOpen then s.queue batch true else s)
  | .diffClose => .returned { s with diffOpen := false }
  | .snapshot body =>
      if s.orderBookSocket = .connected then
        match processJson conv body s.orderBook with
        | .returned orderBook => .returned { s with orderBook }.closeSnapshot
        | .threw _ orderBook => .returned { s with orderBook }.closeSnapshot
        | .aborted orderBook => .aborted { s with orderBook }
        | .undefined => .undefined
      else .returned s
  | .snapshotThrow =>
      .returned (if s.orderBookSocket = .connected then s.closeSnapshot else s)
  | .snapshotClose =>
      .returned (if s.orderBookSocket = .connected then s.closeSnapshot else s)

/-- The loop over the events of a poll. -/
def handleAll (conv : Conversions) (s : Main n) : List Event → Outcome (Main n)
  | [] => .returned s
  | event :: events => (s.handle conv event).andThen fun s ↦ s.handleAll conv events

/-- The tests between the events and the drain; the flag is false where they `continue`. -/
def check (s : Main n) (clock : Clock) : Main n × Bool :=
  if !s.orderBook.toBool then
    if s.orderBookSocket = .null ∧ clock.reconect > RECONECT_INTERVAL then
      ({ s with orderBookSocket := .connected }, false)
    else (s, false)
  else if !s.orderBookReady then
    if s.orderBook.getLastTimestamp < s.orders.getFirstTimestamp then
      ({ s with orderBook := s.orderBook.clear, orderBookSocket := .null }, false)
    else ({ s with orderBookReady := true }, true)
  else (s, true)

/-- The drain and the periodic print. -/
def drainAndPrint (s : Main n) (clock : Clock) : Outcome (Main n) :=
  match Orders.drain s.orderBook s.orders.mOrders with
  | none => .undefined
  | some (orderBook, orders) =>
      if clock.update ≠ s.lastTime then
        match orderBook.print with
        | none => .undefined
        | some (orderBook, _) =>
            .returned { s with orderBook, orders, lastTime := clock.updateAgain }
      else .returned { s with orderBook, orders }

/-- The loop body after the events. -/
def afterEvents (s : Main n) (clock : Clock) : Outcome (Main n) :=
  match s.check clock with
  | (s, false) => .returned s
  | (s, true) => s.drainAndPrint clock

/-- One iteration of the outer loop. -/
def iterate (conv : Conversions) (s : Main n) (events : List Event) (clock : Clock) :
    Outcome (Main n) :=
  (s.handleAll conv events).andThen fun s ↦ s.afterEvents clock

end Main

end Tob
