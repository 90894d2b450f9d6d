import Tob.Live.Drain
import Tob.Snapshot.Atomic

/-!
# Parts of a snapshot

The exception of a failed `process_json` is caught in the event loop, and the book it leaves goes
into the test for the ready flag like any other.
-/

namespace Tob

namespace Main

variable {n : Nat} {conv : Conversions}

/-- Remember the book that the last `process_json` call returned, and nothing if it threw.  A call
that throws has not moved the book. -/
inductive LoadStep (conv : Conversions) (s : Main n) (g : Option OrderBook) :
    Event → Option OrderBook → Prop where
  | returned {body orderBook} : s.orderBookSocket = .connected →
      processJson conv body s.orderBook = .returned orderBook →
      LoadStep conv s g (.snapshot body) (some orderBook)
  | threw {body root what orderBook} : s.orderBookSocket = .connected →
      conv.parse body = .ok (some root) →
      processJson conv body s.orderBook = .threw what orderBook →
      s.orderBook.Unmoved (snapshotOrders conv root).1 → LoadStep conv s g (.snapshot body) none
  | parseThrew {body what} : s.orderBookSocket = .connected → conv.parse body = .error what →
      LoadStep conv s g (.snapshot body) none
  | snapshotIgnored {body} : s.orderBookSocket ≠ .connected → LoadStep conv s g (.snapshot body) g
  | other {event} : (∀ body, event ≠ .snapshot body) → LoadStep conv s g event g

/-- A full book before `main` is live is the one the last call returned. -/
theorem Run.loaded {depth : Nat} {s : Main n} {g : Option OrderBook}
    (h : Run conv (LoadStep conv) depth none s g) (hwait : s.orderBookReady = false)
    (hfull : s.orderBook.toBool = true) : g = some s.orderBook := by
  induction h with
  | start => cases (refines_empty_toBool (OrderBook.refines_new depth)).symm.trans hfull
  | @event s g event s' g' hrun hstep hs ih =>
      have hs := handled_of_returned hs
      cases hstep with
      | returned hc hp =>
          cases hs with
          | stored _ hp' => cases hp.symm.trans hp'; rfl
          | failed _ hp' => cases hp.symm.trans hp'
          | snapshotIgnored hno => exact absurd hc hno
      | @threw body root what orderBook hc hparse hp hunmoved =>
          cases hs with
          | stored _ hp' => cases hp.symm.trans hp'
          | failed _ hp' =>
              cases hp.symm.trans hp'
              -- the book was empty and it still is
              have hempty := (hrun.sound.waiting (by rw [hc]; decide)).2
              cases (eq_of_threw_iff hempty hparse hp).mpr hunmoved
              cases (refines_empty_toBool hempty).symm.trans hfull
          | snapshotIgnored hno => exact absurd hc hno
      | parseThrew hc hparse =>
          have hempty := (hrun.sound.waiting (by rw [hc]; decide)).2
          cases hs with
          | stored _ hp' => rw [processJson, hparse] at hp'; cases hp'
          | failed _ hp' =>
              rw [processJson, hparse] at hp'
              cases hp'
              cases (refines_empty_toBool hempty).symm.trans hfull
          | snapshotIgnored hno => exact absurd hc hno
      | snapshotIgnored hno =>
          cases hs with
          | stored hc | failed hc => exact absurd hc hno
          | snapshotIgnored => exact ih hwait hfull
      | other hevent =>
          cases hs with
          | stored | failed => exact absurd rfl (hevent _)
          | queued | queuedThenThrew =>
              rcases s.queue_orderBook _ _ with ⟨hb, -, hr⟩
              rw [hb] at hfull ⊢
              exact ih (hr ▸ hwait) hfull
          | _ => exact ih hwait hfull
  | afterEvents hrun hs ih =>
      cases settled_of_returned hs with
      | idle | reconnected => exact ih hwait hfull
      | rejected =>
          rcases hrun.sound.book with ⟨l, hl⟩
          cases (refines_empty_toBool hl.clear).symm.trans hfull
      | drained => cases hwait

end Main

/-- Loading a snapshot is all or nothing exactly where the levels before the failing one do not move
the book, and where no failing call moves it `main` goes live with a whole snapshot only. -/
theorem snapshot_atomic_iff {conv : Conversions} {book book' : OrderBook} {depth : Nat} {l : Ledger}
    (h : book.Refines depth l) {body : List UInt8} {root : Json} {what : String}
    (hparse : conv.parse body = .ok (some root))
    (hp : processJson conv body book = .threw what book') :
    (book' = book ↔ book.Unmoved (snapshotOrders conv root).1) ∧
      ∀ (n depth : Nat) (s s' : Main n) (g : Option OrderBook) (clock : Clock),
        Main.Run conv (Main.LoadStep conv) depth none s g →
        s.orderBookReady = false → s.check clock = (s', true) → g = some s.orderBook := by
  apply And.intro
  · exact eq_of_threw_iff h hparse hp
  · intro n depth s s' g clock hrun hwait hlive
    exact hrun.loaded hwait (Main.check_live hlive).1

/-- A snapshot whose second bid has no price. -/
def badBid : Json :=
  .object [("asks", .array []),
    ("bids", .array [.array [.string "3", .string "1"], .array [.string "x", .string "1"]]),
    ("timestamp", .string "5")]

def badBidText : List UInt8 := ascii
  "\x7b\"timestamp\":\"5\",\"bids\":[[\"3\",\"1\"],[\"x\",\"1\"]],\"asks\":[]\x7d"

def firstBid : OrderBook :=
  ⟨⟨⟨[(3000000, ⟨1000000, 0⟩)], List.pairwise_singleton ..⟩, none, 3⟩, .new 3, 5, 3⟩

theorem badBid_threw :
    processJson (.whole badBidText badBid) badBidText (.new 3) = .threw "stod" firstBid := rfl

theorem snapshot_atomic_iff_example :
    firstBid = OrderBook.new 3 ↔
      (OrderBook.new 3).Unmoved (snapshotOrders (.whole badBidText badBid) badBid).1 :=
  (snapshot_atomic_iff (OrderBook.refines_new 3) (by rfl) badBid_threw).1

-- The first bid stays in the book, and `main` goes live with it.
theorem partial_snapshot_goesLive :
    processJson (.whole badBidText badBid) badBidText (.new 3) = .threw "stod" firstBid ∧
      firstBid ≠ OrderBook.new 3 ∧
      (Main.start 3 1000).iterate (.whole badBidText badBid)
        [.diffs [⟨Order.BUY, 5, 3000000, 1000000⟩], .snapshot badBidText] ⟨0, 0, 0⟩ =
        .returned Main.live ∧
      Main.live.orderBookReady = true := by
  refine ⟨badBid_threw, fun hsame ↦ ?_, rfl, rfl⟩
  cases congrArg OrderBook.mLastTimestamp hsame

end Tob
