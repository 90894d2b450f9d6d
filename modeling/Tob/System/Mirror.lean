import Tob.System.Network

/-!
# The book of the exchange

What the program is for: with the exchange's diffs on one connection and snapshots of its book on
the other, a live book is the book of the exchange, as of the last diff that has been drained.
-/

open LastWrite

namespace Tob

/-! ## Ledgers -/

/-- A snapshot and the diffs from any point at or before its cut leave what all diffs do. -/
theorem Ledger.addAll_replayed {d : List Order} (hd : Chronological d) {j k depth : Nat}
    (hk : k ≤ j) {t : UInt64} (hafter : ∀ o ∈ d.drop j, t ≤ o.timestamp) {exchange : OrderBook}
    (hexchange : (OrderBook.new depth).addAll (d.take j) = some exchange)
    {bids asks : List (UInt64 × UInt64)} (hbids : bids.Perm exchange.mBid.levels)
    (hasks : asks.Perm exchange.mAsk.levels) :
    (empty.addAll ((levelOrders Order.BUY t bids ++ levelOrders Order.SELL t asks) ++
        d.drop k)).bids = (empty.addAll d).bids ∧
      (empty.addAll ((levelOrders Order.BUY t bids ++ levelOrders Order.SELL t asks) ++
        d.drop k)).asks = (empty.addAll d).asks := by
  rcases (OrderBook.refines_new depth).addAll (d.take j) with ⟨exchange', he, hl⟩
  cases hexchange.symm.trans he
  rcases addAll_levels hl hbids hasks t with ⟨hlb, hla⟩
  rcases addAll_empty_writes (hd.take j) with ⟨hjb, hja⟩
  rcases addAll_empty_writes hd with ⟨hdb, hda⟩
  -- no diff behind the cut is older than what has been loaded
  have hlast : ∀ o ∈ d.drop j,
      (empty.addAll (levelOrders Order.BUY t bids ++ levelOrders Order.SELL t asks)).last ≤
        o.timestamp := by
    intro o ho
    refine le_trans (addAll_last_le ?_ (zero_le_timestamp t)) (hafter o ho)
    exact fun a ha ↦ le_of_eq (levelOrders_timestamp ha)
  rcases addAll_writes (hd.drop k)
    (empty.addAll (levelOrders Order.BUY t bids ++ levelOrders Order.SELL t asks)) with ⟨hb, ha⟩
  rw [addAll_append, hb, ha, hlb, hla, hjb, hja, hdb, hda]
  exact ⟨applyWrites_replayed Order.BUY hd hk hlast, applyWrites_replayed Order.SELL hd hk hlast⟩

namespace OrderBook

/-- Both sides have the same levels, and show the same. -/
structure SameSides (book book' : OrderBook) : Prop where
  bids : book.mBid.levels = book'.mBid.levels
  asks : book.mAsk.levels = book'.mAsk.levels
  visibleBids : book.mBid.visibleLevels = book'.mBid.visibleLevels
  visibleAsks : book.mAsk.visibleLevels = book'.mAsk.visibleLevels

theorem Refines.sameSides {book book' : OrderBook} {depth : Nat} {l l' : Ledger}
    (h : book.Refines depth l) (h' : book'.Refines depth l') (hbids : l.bids = l'.bids)
    (hasks : l.asks = l'.asks) : book.SameSides book' := by
  have hb := h.bids
  have ha := h.asks
  rw [hbids] at hb
  rw [hasks] at ha
  have hlb := hb.levels_eq h'.bids
  have hla := ha.levels_eq h'.asks
  refine ⟨hlb, hla, ?_, ?_⟩
  · rw [hb.visibleLevels_eq_take, h'.bids.visibleLevels_eq_take, hlb]
  · rw [ha.visibleLevels_eq_take, h'.asks.visibleLevels_eq_take, hla]

end OrderBook

/-! ## The exchange -/

/-- The servers publish the diffs `d` from `k` on, and a response brings the snapshot `taken` for
it.  No snapshot from before the subscription is as late as the first diff after it. -/
structure Publishes (n : Nat) (conv : Conversions) (depth : Nat) (d : List Order) (k : Nat)
    (f : DiffStream) (served : Response → Prop) (taken : Response → Snapshot) : Prop where
  chronological : Chronological d
  diffs : f.ws.flatMap (DiffLogic.listed conv) = d.drop k
  body : ∀ r, served r → (taken r).body = r.body
  snapshot : ∀ r, served r → (taken r).Of conv depth d
  noTie : ∀ r, served r → (taken r).HasLevel depth d → (taken r).cut < k →
    (taken r).timestamp ≠ Orders.getFirstTimestamp (⟨d.drop k⟩ : Orders n)

namespace System

variable {n : Nat} {conv : Conversions} {urls : Urls} {f : DiffStream} {served : Response → Prop}
  {taken : Response → Snapshot} {depth address k : Nat} {stale : List UInt8} {d : List Order}
  {s : System n} {net : Network} {loaded drained : List Order} {generated : List OutputFrame}

theorem eq_drop_take {total : List Order} (h : total <+: d.drop k) :
    total = (d.take (k + total.length)).drop k := by
  rw [List.drop_take, Nat.add_sub_cancel_left]
  exact List.prefix_iff_eq_take.mp h

/-- A document with a level in it is from a book with one. -/
theorem hasLevel_of_loaded {snap : Snapshot} {bids asks : List (UInt64 × UInt64)}
    {exchange : OrderBook} (hexchange : snap.exchange depth d = some exchange)
    (hbids : bids.Perm exchange.mBid.levels) (hasks : asks.Perm exchange.mAsk.levels)
    (hne : levelOrders Order.BUY snap.timestamp bids ++
      levelOrders Order.SELL snap.timestamp asks ≠ []) : snap.HasLevel depth d := by
  refine ⟨exchange, hexchange, ?_⟩
  rcases (OrderBook.refines_new depth).addAll (d.take snap.cut) with ⟨exchange', he, hl⟩
  cases hexchange.symm.trans he
  rw [hl.toBool_iff]
  -- one side has a level, and what is at its price is not zero
  rcases bids with - | ⟨⟨p, a⟩, bids⟩
  · rcases asks with - | ⟨⟨p, a⟩, asks⟩
    · exact absurd rfl hne
    · have hmem : (p, a) ∈ exchange.mAsk.levels := hasks.subset List.mem_cons_self
      rcases hl.asks.mem_levels_iff.mp hmem with ⟨hp, ha⟩
      exact ⟨p, .inr (hp ▸ ha)⟩
  · have hmem : (p, a) ∈ exchange.mBid.levels := hbids.subset List.mem_cons_self
    rcases hl.bids.mem_levels_iff.mp hmem with ⟨hp, ha⟩
    exact ⟨p, .inl (hp ▸ ha)⟩

/-- What has been loaded is the snapshot of the last response, and no diff is missing between it and
those behind it. -/
theorem Fed.snapshot (h : Fed conv urls f served depth stale s net loaded drained generated)
    (hpublishes : Publishes n conv depth d k f served taken) {total : List Order}
    (htotal : total <+: d.drop k) (hne : loaded ≠ [])
    (hgap : ¬ (Ledger.empty.addAll loaded).last <
      Orders.getFirstTimestamp (⟨total⟩ : Orders n)) :
    ∃ exchange bids asks, k ≤ (taken net.response).cut ∧
      (OrderBook.new depth).addAll (d.take (taken net.response).cut) = some exchange ∧
      bids.Perm exchange.mBid.levels ∧ asks.Perm exchange.mAsk.levels ∧
      loaded = levelOrders Order.BUY (taken net.response).timestamp bids ++
        levelOrders Order.SELL (taken net.response).timestamp asks := by
  rcases h.document with hnil | ⟨hr, root, hparse, hloaded⟩
  · exact absurd hnil hne
  have hof := hpublishes.snapshot _ hr
  rcases hof.body with ⟨exchange, root', bids, asks, hexchange, hparse', hroot, hbids, hasks⟩
  rw [hpublishes.body _ hr, hparse] at hparse'
  cases hparse'
  rw [hroot.snapshotOrders_eq] at hloaded
  refine ⟨exchange, bids, asks, ?_, hexchange, hbids, hasks, hloaded⟩
  by_contra hcut
  rw [hloaded] at hne hgap
  rw [Ledger.addAll_levels_last hne] at hgap
  have hlater : ∀ o ∈ d.drop k, (taken net.response).timestamp ≤ o.timestamp := by
    intro o ho
    apply hof.after o
    exact (List.drop_sublist_drop_left d (by omega : (taken net.response).cut ≤ k)).subset ho
  exact hpublishes.noTie _ hr (hasLevel_of_loaded hexchange hbids hasks hne) (by omega)
    (Orders.eq_firstTimestamp htotal hlater hgap)

/-- With these diffs behind what has been loaded the book is that of the exchange after the last of
them, once they reach the cut of the snapshot. -/
theorem Fed.exchange (h : Fed conv urls f served depth stale s net loaded drained generated)
    (hpublishes : Publishes n conv depth d k f served taken) {total : List Order}
    (htotal : total <+: d.drop k) (hne : loaded ≠ [])
    (hgap : ¬ (Ledger.empty.addAll loaded).last <
      Orders.getFirstTimestamp (⟨total⟩ : Orders n))
    (hreached : (taken net.response).cut ≤ k + total.length) :
    ∃ exchange, (OrderBook.new depth).addAll (d.take (k + total.length)) = some exchange ∧
      ∀ book : OrderBook, book.Refines depth (Ledger.empty.addAll (loaded ++ total)) →
        book.SameSides exchange := by
  rcases h.snapshot hpublishes htotal hne hgap with
    ⟨exchange, bids, asks, hcut, hexchange, hbids, hasks, hloaded⟩
  have hr : served net.response := h.document.elim (fun hnil ↦ absurd hnil hne) And.left
  -- up to the last of these diffs the exchange has the same history
  have hd := hpublishes.chronological.take (k + total.length)
  have htake : (d.take (k + total.length)).take (taken net.response).cut =
      d.take (taken net.response).cut := by
    rw [List.take_take, Nat.min_eq_left hreached]
  have hafter : ∀ o ∈ (d.take (k + total.length)).drop (taken net.response).cut,
      (taken net.response).timestamp ≤ o.timestamp := by
    intro o ho
    apply (hpublishes.snapshot _ hr).after o
    rw [List.drop_take] at ho
    exact List.mem_of_mem_take ho
  rw [← htake] at hexchange
  rcases Ledger.addAll_replayed hd hcut hafter hexchange hbids hasks with ⟨hb, ha⟩
  rw [← eq_drop_take htotal, ← hloaded] at hb ha
  rcases (OrderBook.refines_new depth).addAll (d.take (k + total.length)) with ⟨book, he, hl⟩
  exact ⟨book, he, fun book' hbook ↦ hbook.sameSides hl hb ha⟩

/-- What the book is made of: the document of the last response, which brings the snapshot `snap`,
and the diffs that have been drained.  Behind these come the diffs in the queue, and they are all
orders of the frames that have been taken off the stream. -/
structure Tracks (conv : Conversions) (depth : Nat) (d : List Order) (k : Nat) (f : DiffStream)
    (s : System n) (net : Network) (snap : Snapshot) (drained : List Order) : Prop where
  cut : k ≤ snap.cut
  book : ∃ root, conv.parse net.response.body = .ok (some root) ∧
    s.orderBook.Refines depth (Ledger.empty.addAll ((snapshotOrders conv root).1 ++ drained))
  queued : drained ++ s.diff.mOrders.mOrders <+: d.drop k
  received : s.diffOpen = true → f.response.length + 4 ≤ net.received.length →
    ∃ j, net.received = f.front j ++ s.diff.pending ∧
      drained ++ s.diff.mOrders.mOrders = f.orders conv j

theorem Fed.tracks (h : Fed conv urls f served depth stale s net loaded drained generated)
    (hpublishes : Publishes n conv depth d k f served taken) {total : List Order}
    (htotal : total <+: d.drop k) (hne : loaded ≠ [])
    (hgap : ¬ (Ledger.empty.addAll loaded).last <
      Orders.getFirstTimestamp (⟨total⟩ : Orders n)) :
    served net.response ∧ Tracks conv depth d k f s net (taken net.response) drained := by
  rcases h.document with hnil | ⟨hr, root, hparse, hloaded⟩
  · exact absurd hnil hne
  rcases h.snapshot hpublishes htotal hne hgap with ⟨-, -, -, hcut, -⟩
  have hbook := h.book
  rw [hloaded] at hbook
  refine ⟨hr, hcut, ⟨root, hparse, hbook⟩, ?_, fun hopen hupgraded ↦ ?_⟩
  · rw [← hpublishes.diffs]
    exact h.part
  · rcases h.taken hopen with ⟨hlt, -⟩ | ⟨j, hj, horders, -⟩
    · exact absurd hlt (Nat.not_lt.mpr hupgraded)
    · exact ⟨j, hj, horders⟩

/-- Where a live book is: from the cut of its snapshot on it is that of the exchange after the last
diff that has been drained, with the same levels on both sides and the same ones shown. -/
structure Mirrors (conv : Conversions) (depth : Nat) (d : List Order) (k : Nat) (f : DiffStream)
    (s : System n) (net : Network) (snap : Snapshot) (drained : List Order) : Prop
    extends Tracks conv depth d k f s net snap drained where
  mirrored : snap.cut ≤ k + drained.length → ∃ exchange,
    (OrderBook.new depth).addAll (d.take (k + drained.length)) = some exchange ∧
      s.orderBook.SameSides exchange

/-- A live book mirrors the exchange, for whatever `parse` makes of the bytes. -/
theorem Run.mirrors (hresponse : Head f.response)
    (hfits : ∀ r, served r → Receiver.Fits r.head r.body) (haddress : address < 2 ^ 56)
    (hstale : stale.length = BUFFER_SIZE)
    (hpublishes : Publishes n conv depth d k f served taken)
    (h : Run conv urls f served depth address stale s net) (hready : s.orderBookReady = true) :
    served net.response ∧
      ∃ drained, Mirrors conv depth d k f s net (taken net.response) drained := by
  rcases h.fed hresponse hfits haddress hstale with ⟨loaded, drained, generated, hfed⟩
  have hpart := hfed.part
  rw [hpublishes.diffs] at hpart
  have htotal : drained <+: d.drop k := (List.prefix_append _ _).trans hpart
  rcases hfed.live hready with ⟨hne, hgap⟩
  rcases hfed.tracks hpublishes htotal hne hgap with ⟨hr, htracks⟩
  refine ⟨hr, drained, htracks, fun hreached ↦ ?_⟩
  rcases hfed.exchange hpublishes htotal hne hgap hreached with ⟨exchange, he, hsame⟩
  exact ⟨exchange, he, hsame s.orderBook hfed.book⟩

/-! ## Its documents -/

/-- The frame carries a message with these orders, or it is a ping or the like: what it carries is
no document. -/
inductive Posts (conv : Conversions) (reader : Reader) (w : WireFrame) : List Order → Prop where
  | message {root} : IsMessage reader root w.plain →
      Posts conv reader w (dataOrders conv root).1
  | other : reader.parse w.plain = .ok none → Posts conv reader w []

theorem listed_of_posts {reader : Reader} (hreads : conv.Reads reader) {ws : List WireFrame}
    {batches : List (List Order)} (h : List.Forall₂ (Posts conv reader) ws batches) :
    ws.flatMap (DiffLogic.listed conv) = batches.flatten := by
  induction h with
  | nil => rfl
  | cons hw _ ih =>
      rw [List.flatMap_cons, List.flatten_cons, ih, DiffLogic.listed]
      cases hw with
      | message hmessage => rw [hreads.payloadOrders_message hmessage]
      | other hparse => rw [payloadOrders, hreads.rejects _ hparse, parsedOrders]

/-- The servers publish the diffs and the snapshots as documents, however these are written. -/
structure PublishesDocuments (n : Nat) (conv : Conversions) (reader : Reader) (depth : Nat)
    (d : List Order) (k : Nat) (f : DiffStream) (served : Response → Prop)
    (taken : Response → Snapshot) : Prop where
  chronological : Chronological d
  diffs : ∃ batches, List.Forall₂ (Posts conv reader) f.ws batches ∧ batches.flatten = d.drop k
  body : ∀ r, served r → (taken r).body = r.body
  snapshot : ∀ r, served r → ∃ book root bids asks, (taken r).exchange depth d = some book ∧
    IsDocument reader root r.body ∧ IsSnapshot conv root (taken r).timestamp bids asks ∧
    bids.Perm book.mBid.levels ∧ asks.Perm book.mAsk.levels
  before : ∀ r, served r → ∀ o ∈ d.take (taken r).cut, o.timestamp ≤ (taken r).timestamp
  after : ∀ r, served r → ∀ o ∈ d.drop (taken r).cut, (taken r).timestamp ≤ o.timestamp
  noTie : ∀ r, served r → (taken r).HasLevel depth d → (taken r).cut < k →
    (taken r).timestamp ≠ Orders.getFirstTimestamp (⟨d.drop k⟩ : Orders n)

theorem PublishesDocuments.publishes {reader : Reader} (hreads : conv.Reads reader)
    (h : PublishesDocuments n conv reader depth d k f served taken) :
    Publishes n conv depth d k f served taken where
  chronological := h.chronological
  diffs := by
    rcases h.diffs with ⟨batches, hposts, hbatches⟩
    rw [listed_of_posts hreads hposts, hbatches]
  body := h.body
  snapshot r hr := by
    rcases h.snapshot r hr with ⟨book, root, bids, asks, hbook, hdoc, hroot, hbids, hasks⟩
    refine ⟨⟨book, root, bids, asks, hbook, ?_, hroot, hbids, hasks⟩, h.before r hr, h.after r hr⟩
    rw [h.body r hr]
    exact hreads.parse_document hdoc
  noTie := h.noTie

/-- From the bytes on both sockets to the book: once the loop is live and the diffs it has drained
reach the cut of the snapshot it has loaded, the book is the one of the exchange after the last of
them. -/
theorem live_book_mirrors_exchange {reader : Reader} (hreads : conv.Reads reader)
    (hresponse : Head f.response) (hfits : ∀ r, served r → Receiver.Fits r.head r.body)
    (haddress : address < 2 ^ 56) (hstale : stale.length = BUFFER_SIZE)
    (hpublishes : PublishesDocuments n conv reader depth d k f served taken)
    (h : Run conv urls f served depth address stale s net) (hready : s.orderBookReady = true) :
    served net.response ∧
      ∃ drained, Mirrors conv depth d k f s net (taken net.response) drained :=
  h.mirrors hresponse hfits haddress hstale (hpublishes.publishes hreads) hready

/-- The snapshot has been taken between the bid and the ask. -/
def afterFirstBid (r : Response) : Snapshot := ⟨1, 5, r.body⟩

theorem quote_publishes : PublishesDocuments 1000 quoteConv Reader.wholeNumbers 3 quote 0
    quoteStream ServesFirstBid afterFirstBid where
  chronological := by
    unfold Chronological
    decide
  diffs := by
    have hquote : Posts quoteConv Reader.wholeNumbers quoteFrame
        (dataOrders quoteConv quoteRoot).1 :=
      .message quote_message
    exact ⟨_, .cons (.other ping_rejected) (.cons hquote .nil), rfl⟩
  body _ _ := rfl
  snapshot := by
    rintro r rfl
    refine ⟨_, Main.oneBid, [(3000000, 1000000)], [], rfl, firstBid_document, ?_, .refl _,
      .refl _⟩
    exact ⟨rfl, ⟨_, rfl, rfl⟩, ⟨_, rfl, rfl⟩⟩
  before _ _ := by
    show ∀ o ∈ quote.take 1, o.timestamp ≤ 5
    decide
  after _ _ := by
    show ∀ o ∈ quote.drop 1, 5 ≤ o.timestamp
    decide
  noTie _ _ _ hcut := absurd hcut (Nat.not_lt_zero _)

theorem live_book_mirrors_exchange_example : ∃ s net, QuoteRun s net ∧
    s.orderBookReady = true ∧ ∃ exchange, (OrderBook.new 3).addAll quote = some exchange ∧
      s.orderBook.SameSides exchange := by
  rcases quote_run with ⟨s, net, hrun, hready, hopen, hempty, hpending, hreceived, -⟩
  have hreads : quoteConv.Reads Reader.wholeNumbers := Conversions.ofReader_reads _
  rcases live_book_mirrors_exchange hreads DiffLogic.switching_head firstBid_allFit (by decide)
    List.length_replicate quote_publishes hrun hready with ⟨-, drained, hmirrors⟩
  -- both orders have been drained
  have hupgraded : quoteStream.response.length + 4 ≤ net.received.length := by
    rw [hreceived]
    decide +kernel
  rcases hmirrors.received hopen hupgraded with ⟨j, hj, hdrained⟩
  rw [hpending, hreceived, List.append_nil] at hj
  rw [hempty, List.append_nil, quote_orders hj] at hdrained
  rw [hdrained] at hmirrors
  rcases hmirrors.mirrored (show 1 ≤ 2 by decide) with ⟨exchange, hexchange, hsame⟩
  exact ⟨s, net, hrun, hready, exchange, hexchange, hsame⟩

end System

end Tob
