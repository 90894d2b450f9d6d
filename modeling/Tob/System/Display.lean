import Tob.Book.Walk
import Tob.System.Safety

/-!
# What is printed

The lines under the two headings, for the bytes that have come in by then: the best levels of the
exchange.
-/

namespace Tob

/-! ## The print of an iteration -/

namespace Main

variable {n : Nat}

/-- What the loop body writes under its two headings, if it gets there. -/
def printed (s : Main n) (clock : Clock) : Option (List PrintedLevel × List PrintedLevel) :=
  match s.check clock with
  | (_, false) => none
  | (s, true) =>
      if clock.update ≠ s.lastTime then
        (Orders.drain (n := n) s.orderBook s.orders.mOrders).bind fun (orderBook, _) ↦
          orderBook.print.map Prod.snd
      else none

theorem check_passes {s : Main n} {clock : Clock} (h : (s.check clock).2 = true) :
    s.check clock = ({ s with orderBookReady := true }, true) := by
  cases hcheck : s.check clock with
  | mk s₁ live =>
      have hlive : live = true := by simpa [hcheck] using h
      subst hlive
      rw [(check_live hcheck).2.2]

/-- The book that has been drained is the one that is printed. -/
theorem afterEvents_print {s : Main n} {clock : Clock} (hpasses : (s.check clock).2 = true)
    (htime : clock.update ≠ s.lastTime) {drained book : OrderBook} {asks bids : List PrintedLevel}
    (hadd : s.orderBook.addAll s.orders.mOrders = some drained)
    (hprint : drained.print = some (book, asks, bids)) :
    (∃ s', s.afterEvents clock = .returned s') ∧ s.printed clock = some (asks, bids) := by
  have hcheck := check_passes hpasses
  unfold afterEvents printed
  rw [hcheck]
  simp only [drainAndPrint, Orders.drain_eq, hadd, Option.map_some, Option.bind_some, hprint,
    if_pos htime]
  exact ⟨⟨_, rfl⟩, trivial⟩

end Main

namespace System

variable {n : Nat} {conv : Conversions} {urls : Urls} {f : DiffStream} {served : Response → Prop}
  {taken : Response → Snapshot} {depth address k : Nat} {stale : List UInt8} {d : List Order}
  {s : System n} {net : Network}

/-- The loop body prints the best levels of this book: the asks worst first, then the bids.  Without
an ask it does something undefined. -/
structure Shows (urls : Urls) (s : System n) (clock : Clock) (book : OrderBook) : Prop where
  levels : book.mAsk.visibleLevels ≠ [] → ∃ s' asks bids,
    s.afterEvents urls clock = .returned s' ∧ s.toMain.printed clock = some (asks, bids) ∧
    asks.map PrintedLevel.level = book.mAsk.visibleLevels.reverse ∧
    bids.map PrintedLevel.level = book.mBid.visibleLevels
  noAsk : book.mAsk.visibleLevels = [] → s.afterEvents urls clock = .undefined

theorem shows_of_sameSides (hsound : s.toMain.Sound depth) {clock : Clock}
    (hpasses : (s.toMain.check clock).2 = true) (htime : clock.update ≠ s.lastTime)
    {drained book : OrderBook} {l : Ledger} (hl : drained.Refines depth l)
    (hadd : s.orderBook.addAll s.diff.mOrders.mOrders = some drained)
    (hsame : drained.SameSides book) : s.Shows urls clock book := by
  have hvisible : drained.mAsk.visibleLevels = [] ↔ drained.mAsk.visible = [] := List.map_eq_nil_iff
  rw [hsame.visibleAsks] at hvisible
  constructor
  · intro hasks
    rcases hl.printsVisible fun hnone ↦ hasks (hvisible.mpr hnone) with
      ⟨printed, asks, bids, hprint, hasks', hbids', -⟩
    rcases Main.afterEvents_print hpasses htime hadd hprint with ⟨⟨m, hm⟩, hlines⟩
    rw [hsame.visibleAsks] at hasks'
    rw [hsame.visibleBids] at hbids'
    refine ⟨s.withMain urls m, asks, bids, ?_, hlines, hasks', hbids'⟩
    rw [System.afterEvents, hm]
    rfl
  · intro hnone
    have hundefined := (hsound.undefined_iff clock).mpr
      ⟨hpasses, htime, drained, hadd, hvisible.mp hnone⟩
    rw [System.afterEvents, hundefined]
    rfl

/-- What a print shows: the loop body drains the queue, and from the cut of its snapshot on the
levels are those of the exchange after the last diff in it. -/
structure Prints (conv : Conversions) (urls : Urls) (depth : Nat) (d : List Order) (k : Nat)
    (f : DiffStream) (s : System n) (net : Network) (clock : Clock) (snap : Snapshot)
    (drained : List Order) : Prop
    extends Tracks conv depth d k f s net snap drained where
  shown : snap.cut ≤ k + (drained ++ s.diff.mOrders.mOrders).length → ∃ exchange,
    (OrderBook.new depth).addAll (d.take (k + (drained ++ s.diff.mOrders.mOrders).length)) =
        some exchange ∧ s.Shows urls clock exchange

/-- From the bytes on both sockets to the screen: an iteration that gets as far as the print shows
the best levels of the exchange as of the last diff that has come in, once that is behind the cut of
the snapshot that has been loaded. -/
theorem print_shows_exchange {reader : Reader} (hreads : conv.Reads reader)
    (hresponse : Head f.response) (hfits : ∀ r, served r → Receiver.Fits r.head r.body)
    (haddress : address < 2 ^ 56) (hstale : stale.length = BUFFER_SIZE)
    (hpublishes : PublishesDocuments n conv reader depth d k f served taken)
    (h : Run conv urls f served depth address stale s net) {clock : Clock}
    (hpasses : (s.toMain.check clock).2 = true) (htime : clock.update ≠ s.lastTime) :
    served net.response ∧
      ∃ drained, Prints conv urls depth d k f s net clock (taken net.response) drained := by
  rcases h.fed hresponse hfits haddress hstale with ⟨loaded, drained, generated, hfed⟩
  have hpublished := hpublishes.publishes hreads
  -- all that is queued is drained before the print
  have htotal := hfed.part
  rw [hpublished.diffs] at htotal
  rcases Main.check_live (Main.check_passes hpasses) with ⟨hbook, hgap, -⟩
  rcases hfed.passes hbook hgap with ⟨hne, hfirst⟩
  rcases hfed.tracks hpublished htotal hne hfirst with ⟨hr, htracks⟩
  refine ⟨hr, drained, htracks, fun hreached ↦ ?_⟩
  rcases hfed.exchange hpublished htotal hne hfirst hreached with ⟨exchange, he, hsame⟩
  rcases hfed.book.addAll s.diff.mOrders.mOrders with ⟨book, hadd, hl⟩
  rw [← Ledger.addAll_append, List.append_assoc] at hl
  exact ⟨exchange, he, shows_of_sameSides h.toMain.sound hpasses htime hl hadd (hsame book hl)⟩

-- The first second of the quote's run is over: one ask and one bid on the screen.
theorem print_shows_exchange_example : ∃ s net clock s' asks bids, QuoteRun s net ∧
    s.afterEvents exampleUrls clock = .returned s' ∧
    s.toMain.printed clock = some (asks, bids) ∧
    asks.map PrintedLevel.level = [(4000000, 1000000)] ∧
    bids.map PrintedLevel.level = [(3000000, 1000000)] := by
  rcases quote_run with ⟨s, net, hrun, hready, hopen, hempty, hpending, hreceived, -, hbook, -⟩
  have hreads : quoteConv.Reads Reader.wholeNumbers := Conversions.ofReader_reads _
  have hpasses : (s.toMain.check ⟨0, s.lastTime + 1, s.lastTime + 1⟩).2 = true := by
    have hlevel : s.toMain.orderBook.toBool = true := hbook
    have hlive : s.toMain.orderBookReady = true := hready
    simp [Main.check, hlevel, hlive]
  rcases print_shows_exchange hreads DiffLogic.switching_head firstBid_allFit (by decide)
    List.length_replicate quote_publishes hrun hpasses (Nat.succ_ne_self _) with
    ⟨-, drained, hprints⟩
  have hupgraded : quoteStream.response.length + 4 ≤ net.received.length := by
    rw [hreceived]
    decide +kernel
  rcases hprints.received hopen hupgraded with ⟨j, hj, hdrained⟩
  rw [hpending, hreceived, List.append_nil] at hj
  rw [quote_orders hj] at hdrained
  have hshown := hprints.shown
  rw [hdrained] at hshown
  rcases hshown (show 1 ≤ 2 by decide) with ⟨exchange, hexchange, hshows⟩
  cases hexchange
  rcases hshows.levels (List.cons_ne_nil _ _) with ⟨s', asks, bids, hs', hlines, hasks, hbids⟩
  exact ⟨s, net, _, s', asks, bids, hrun, hs', hlines, hasks, hbids⟩

end System

end Tob
