import Tob.Library.Bytes
import Tob.Live.Steps

/-!
# The drain

Once `main` is live an iteration passes every queued diff to the book, unless the book has lost its
last level: the test for an empty book comes before the drain.
-/

namespace Tob

namespace Main

variable {n : Nat} {conv : Conversions}

/-- What an event does to the queue and to the diff connection. -/
def receive (q : Orders n × Bool) : Event → Orders n × Bool
  | .diffs batch =>
      if q.2 then ((q.1.addOrders batch).1, (q.1.addOrders batch).2.isNone) else q
  | .diffsThrow batch => if q.2 then ((q.1.addOrders batch).1, false) else q
  | .diffClose => (q.1, false)
  | .snapshot _ | .snapshotThrow | .snapshotClose => q

/-- The queue after the events of a poll. -/
def queuedBy (s : Main n) (events : List Event) : Orders n :=
  (events.foldl receive (s.orders, s.diffOpen)).1

/-- Every diff received up to the end of the poll has been passed to the book. -/
structure Applied (s : Main n) (events : List Event) (s' : Main n) : Prop where
  queue : s'.orders.mOrders = []
  book : ∃ drained, s.orderBook.addAll (s.queuedBy events).mOrders = some drained ∧
    s'.orderBook.mBid.levels = drained.mBid.levels ∧
    s'.orderBook.mAsk.levels = drained.mAsk.levels ∧
    s'.orderBook.getLastTimestamp = drained.getLastTimestamp

theorem Handled.receive {s s' : Main n} {event : Event} (h : Handled conv s event s') :
    (s'.orders, s'.diffOpen) = Main.receive (s.orders, s.diffOpen) event := by
  have hqueue (batch : List Order) (throws : Bool) (hopen : s.diffOpen = true) :
      ((s.queue batch throws).orders, (s.queue batch throws).diffOpen) =
        ((s.orders.addOrders batch).1, (s.orders.addOrders batch).2.isNone && !throws) := by
    unfold queue
    rcases s.orders.addOrders batch with ⟨orders, err⟩
    cases err with
    | none => rw [hopen]; rfl
    | some what => rfl
  cases h with
  | @queued batch hopen =>
      rw [hqueue batch false hopen, Main.receive, if_pos hopen]
      simp
  | @queuedThenThrew batch hopen =>
      rw [hqueue batch true hopen, Main.receive, if_pos hopen]
      simp
  | diffsIgnored hclosed | throwIgnored hclosed =>
      rw [hclosed, Main.receive, if_neg Bool.false_ne_true]
  | diffClosed | stored | failed | snapshotIgnored | threw | threwIgnored | closed
    | closeIgnored => rfl

/-- While `main` is live the events touch the queue and the diff connection only. -/
theorem Sound.handled_live {s s' : Main n} {depth : Nat} (h : s.Sound depth)
    (hready : s.orderBookReady = true) {event : Event} (hs : Handled conv s event s') :
    s'.orderBook = s.orderBook ∧ s'.orderBookReady = true := by
  have hclosed := h.closed (.inr hready)
  have hno : s.orderBookSocket ≠ .connected := by rw [hclosed]; decide
  cases hs with
  | queued => exact ⟨(s.queue_orderBook _ _).1, (s.queue_orderBook _ _).2.2.trans hready⟩
  | queuedThenThrew =>
      exact ⟨(s.queue_orderBook _ _).1, (s.queue_orderBook _ _).2.2.trans hready⟩
  | stored hc => exact absurd hc hno
  | failed hc => exact absurd hc hno
  | threw hc => exact absurd hc hno
  | closed hc => exact absurd hc hno
  | diffClosed | diffsIgnored | throwIgnored | snapshotIgnored | threwIgnored | closeIgnored =>
      exact ⟨rfl, hready⟩

theorem Sound.handleAll_live {events : List Event} {s s' : Main n} {depth : Nat}
    (h : s.Sound depth) (hready : s.orderBookReady = true)
    (hs : s.handleAll conv events = .returned s') :
    s'.Sound depth ∧ s'.orderBook = s.orderBook ∧ s'.orderBookReady = true ∧
      s'.orders = s.queuedBy events := by
  induction events generalizing s with
  | nil => cases hs; exact ⟨h, rfl, hready, rfl⟩
  | cons event events ih =>
      rcases Outcome.andThen_eq_returned_iff.mp hs with ⟨s₁, hstep, hs⟩
      have hstep := handled_of_returned hstep
      have hlive := h.handled_live hready hstep
      have hrest := ih (h.handled hstep) hlive.2 hs
      refine ⟨hrest.1, hrest.2.1.trans hlive.1, hrest.2.2.1, ?_⟩
      rw [hrest.2.2.2, queuedBy, queuedBy, List.foldl_cons, hstep.receive]

/-- The states `main` reaches, whatever the connections deliver. -/
def Reachable (conv : Conversions) (depth : Nat) (s : Main n) : Prop :=
  Run conv (fun _ _ _ _ ↦ True) depth () s ()

theorem Reachable.handleAll {events : List Event} {depth : Nat} {s s' : Main n}
    (h : Reachable conv depth s) (hs : s.handleAll conv events = .returned s') :
    Reachable conv depth s' := by
  induction events generalizing s with
  | nil => cases hs; exact h
  | cons event events ih =>
      rcases Outcome.andThen_eq_returned_iff.mp hs with ⟨s₁, hstep, hs⟩
      exact ih (.event h trivial hstep) hs

theorem Reachable.iterate {events : List Event} {clock : Clock} {depth : Nat} {s s' : Main n}
    (h : Reachable conv depth s) (hs : s.iterate conv events clock = .returned s') :
    Reachable conv depth s' := by
  rcases Outcome.andThen_eq_returned_iff.mp hs with ⟨s₁, hevents, hs⟩
  exact .afterEvents (h.handleAll hevents) hs

/-- An iteration of the live loop passes on every diff it has received exactly if the book has a
level left when it starts, or nothing is queued. -/
theorem iterate_applied_iff {depth : Nat} {s s' : Main n} {events : List Event} {clock : Clock}
    (hreach : Reachable conv depth s) (hready : s.orderBookReady = true)
    (hs : s.iterate conv events clock = .returned s') :
    Applied s events s' ↔ s.orderBook.toBool = true ∨ (s.queuedBy events).mOrders = [] := by
  have hsound := hreach.sound
  rcases Outcome.andThen_eq_returned_iff.mp hs with ⟨s₁, hevents, hs⟩
  rcases hsound.handleAll_live hready hevents with ⟨hsound₁, hbook, hready₁, hqueue⟩
  rcases hsound.book with ⟨l, hl⟩
  -- one of the two early exits, or the drain
  cases settled_of_returned hs with
  | idle hempty =>
      rw [hbook] at hempty
      rw [hempty, ← hqueue]
      apply Iff.intro
      · intro h
        exact .inr h.queue
      · intro h
        have hnone := h.resolve_left Bool.false_ne_true
        exact ⟨hnone, s.orderBook, by rw [← hqueue, hnone]; rfl, by rw [hbook], by rw [hbook],
          by rw [hbook]⟩
  | reconnected _ hnull =>
      -- a book in use has its snapshot connection closed
      have hclosed := hsound₁.closed (.inr hready₁)
      rw [hnull] at hclosed
      cases hclosed
  | rejected _ hwaiting =>
      rw [hready₁] at hwaiting
      cases hwaiting
  | drained hfull _ hadd hprint =>
      rw [hbook] at hfull hadd
      rw [hqueue] at hadd
      refine iff_of_true ⟨rfl, _, hadd, ?_⟩ (.inl hfull)
      rcases hprint with rfl | ⟨out, hprint⟩
      · exact ⟨rfl, rfl, rfl⟩
      · rcases hl.addAll (s.queuedBy events).mOrders with ⟨drained, he, hd⟩
        cases he.symm.trans hadd
        have hp := hd.of_print hprint
        exact ⟨hp.bids.levels_eq hd.bids, hp.asks.levels_eq hd.asks, hp.last.trans hd.last.symm⟩

/-- A snapshot with one bid, and the diffs around it. -/
def oneBid : Json :=
  .object [("asks", .array []), ("bids", .array [.array [.string "3", .string "1"]]),
    ("timestamp", .string "5")]

def oneBidText : List UInt8 :=
  ascii "\x7b\"timestamp\":\"5\",\"bids\":[[\"3\",\"1\"]],\"asks\":[]\x7d"

def goLive : List Event := [.diffs [⟨Order.BUY, 5, 3000000, 1000000⟩], .snapshot oneBidText]

/-- `main` live on that snapshot, and after the diff that takes its level away. -/
def live : Main 1000 where
  orderBook := ⟨⟨⟨[(3000000, ⟨1000000, 1000000⟩)], List.pairwise_singleton ..⟩, none, 3⟩,
    .new 3, 5, 3⟩
  orders := .empty
  diffOpen := true
  orderBookSocket := .closed
  orderBookReady := true
  lastTime := 0

def drainedOut : Main 1000 := { live with orderBook := ⟨.new 3, .new 3, 6, 3⟩ }

theorem start_goLive : (start 3 1000).iterate (.whole oneBidText oneBid) goLive ⟨0, 0, 0⟩ =
    .returned live := by
  rfl

theorem iterate_applied_iff_example :
    let events : List Event := [.diffs [⟨Order.BUY, 6, 3000000, 0⟩]]
    live.iterate (.whole oneBidText oneBid) events ⟨0, 0, 0⟩ = .returned drainedOut ∧
      Applied live events drainedOut := by
  intro events
  have hlive : Reachable (.whole oneBidText oneBid) 3 live :=
    Reachable.iterate Run.start start_goLive
  have hdrain : live.iterate (.whole oneBidText oneBid) events ⟨0, 0, 0⟩ = .returned drainedOut :=
    rfl
  exact ⟨hdrain, (iterate_applied_iff hlive rfl hdrain).mpr (.inl rfl)⟩

-- The second diff takes the last level away, the third one stays in the queue.
theorem iterate_leaves_diff :
    let conv := Conversions.whole oneBidText oneBid
    ∃ s : Main 1000, (start 3 1000).iterate conv goLive ⟨0, 0, 0⟩ = .returned live ∧
      live.iterate conv [.diffs [⟨Order.BUY, 6, 3000000, 0⟩]] ⟨0, 0, 0⟩ = .returned drainedOut ∧
      drainedOut.orderBookReady = true ∧
      drainedOut.iterate conv [.diffs [⟨Order.BUY, 7, 4000000, 1000000⟩]] ⟨0, 0, 0⟩ =
        .returned s ∧
      s.orders.mOrders = [⟨Order.BUY, 7, 4000000, 1000000⟩] := by
  intro conv
  exact ⟨_, start_goLive, rfl, rfl, rfl, rfl⟩

end Main

end Tob
