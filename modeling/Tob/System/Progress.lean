import Tob.Live.Retry
import Tob.System.Mirror

/-!
# Whether it goes on

Every state of the program from which the loop can still get to a drain, and the ones it never
leaves.
-/

open Relation

namespace Tob

/-! ## The loop -/

namespace Main

variable {n : Nat} {conv : Conversions} {s s' : Main n}

/-- The loop body gets past its tests, whatever the clock shows. -/
def Passes (s : Main n) : Prop := ∀ clock, (s.check clock).2 = true

/-- The book is empty, and its connection is closed but not gone. -/
def Stuck (s : Main n) : Prop := s.orderBook.toBool = false ∧ s.orderBookSocket = .closed

theorem passes_iff : s.Passes ↔ s.orderBook.toBool = true ∧
    (s.orderBookReady = false → ¬ s.orderBook.getLastTimestamp < s.orders.getFirstTimestamp) := by
  constructor
  · intro h
    have hcheck := check_live (Prod.ext rfl (h ⟨0, 0, 0⟩) : s.check ⟨0, 0, 0⟩ = (_, true))
    exact ⟨hcheck.1, hcheck.2.1⟩
  · rintro ⟨hbook, hgap⟩ clock
    unfold check
    rw [hbook, Bool.not_true, if_neg Bool.false_ne_true]
    cases hready : s.orderBookReady with
    | true => rfl
    | false => rw [Bool.not_false, if_pos rfl, if_neg (hgap hready)]

theorem Stuck.not_passes (h : s.Stuck) : ¬ s.Passes := by
  intro hpasses
  have hbook := (passes_iff.mp hpasses).1
  rw [h.1] at hbook
  cases hbook

/-- No callback puts anything into the book without a connection. -/
theorem Stuck.handled (h : s.Stuck) {event : Event} (hs : Handled conv s event s') : s'.Stuck := by
  have hqueue (batch : List Order) (throws : Bool) : (s.queue batch throws).Stuck := by
    rcases s.queue_orderBook batch throws with ⟨hb, hk, -⟩
    exact ⟨hb ▸ h.1, hk ▸ h.2⟩
  have hclosed : s.orderBookSocket ≠ .connected := by
    rw [h.2]
    decide
  cases hs with
  | queued => exact hqueue _ false
  | queuedThenThrew => exact hqueue _ true
  | diffClosed => exact ⟨h.1, h.2⟩
  | stored hconnected | failed hconnected | threw hconnected | closed hconnected =>
      exact absurd hconnected hclosed
  | diffsIgnored | throwIgnored | snapshotIgnored | threwIgnored | closeIgnored => exact h

/-- Only a null pointer is connected again, and only a book that is in use is drained into. -/
theorem Stuck.settled (h : s.Stuck) (hs : Settled s s') : s'.Stuck := by
  have hempty : s.orderBook.toBool ≠ true := by
    rw [h.1]
    decide
  cases hs with
  | idle => exact h
  | reconnected _ hnull =>
      rw [h.2] at hnull
      cases hnull
  | rejected hbook => exact absurd hbook hempty
  | drained hbook => exact absurd hbook hempty

/-- The book is not in use, and the times for which `P` holds are behind the queue.  What is queued
first stays first: something is queued, or nothing will be. -/
structure Waits (P : UInt64 → Prop) (s : Main n) : Prop where
  unused : s.orderBookReady = false
  queued : s.diffOpen = true → s.orders.mOrders ≠ []
  behind : ∀ t, P t → t < s.orders.getFirstTimestamp

theorem queue_mOrders (s : Main n) (batch : List Order) (throws : Bool) :
    ∃ more, (s.queue batch throws).orders.mOrders = s.orders.mOrders ++ more := by
  refine ⟨batch.take (n - s.orders.mOrders.length), ?_⟩
  unfold queue
  rw [Orders.addOrders_eq]
  by_cases hroom : batch.length ≤ n - s.orders.mOrders.length
  · rw [if_pos hroom]
  · rw [if_neg hroom]

theorem Waits.queue {P : UInt64 → Prop} (h : s.Waits P) (hopen : s.diffOpen = true)
    (batch : List Order) (throws : Bool) : (s.queue batch throws).Waits P := by
  rcases s.queue_mOrders batch throws with ⟨more, hmore⟩
  have hbehind := h.behind
  unfold Orders.getFirstTimestamp at hbehind
  cases hqueue : s.orders.mOrders with
  | nil => exact absurd hqueue (h.queued hopen)
  | cons order orders =>
      rw [hqueue] at hmore hbehind
      refine ⟨(s.queue_orderBook batch throws).2.2.trans h.unused, fun _ ↦ ?_, fun t ht ↦ ?_⟩
      · rw [hmore]
        exact List.cons_ne_nil _ _
      · unfold Orders.getFirstTimestamp
        rw [hmore]
        exact hbehind t ht

theorem Waits.handled {P : UInt64 → Prop} (h : s.Waits P) {event : Event}
    (hs : Handled conv s event s') : s'.Waits P := by
  cases hs with
  | queued hopen => exact h.queue hopen _ false
  | queuedThenThrew hopen => exact h.queue hopen _ true
  | diffClosed => exact ⟨h.unused, fun hopen ↦ (by cases hopen), h.behind⟩
  | stored | failed | threw | closed => exact ⟨h.unused, h.queued, h.behind⟩
  | diffsIgnored | throwIgnored | snapshotIgnored | threwIgnored | closeIgnored => exact h

theorem Waits.settled {P : UInt64 → Prop} (h : s.Waits P) (hno : ¬ s.Passes)
    (hs : Settled s s') : s'.Waits P := by
  cases hs with
  | idle => exact h
  | reconnected => exact ⟨h.unused, h.queued, h.behind⟩
  | rejected => exact ⟨h.unused, h.queued, h.behind⟩
  | drained hbook hgap => exact absurd (passes_iff.mpr ⟨hbook, hgap⟩) hno

/-- What every event keeps, all of them keep. -/
theorem handleAll_keeps {P : Main n → Prop}
    (hhandled : ∀ s event s', P s → Handled conv s event s' → P s') (h : P s)
    {events : List Event} (hs : s.handleAll conv events = .returned s') : P s' := by
  induction events generalizing s with
  | nil =>
      cases hs
      exact h
  | cons event events ih =>
      rcases Outcome.andThen_eq_returned_iff.mp hs with ⟨s₁, hstep, hrest⟩
      exact ih (hhandled _ _ _ h (handled_of_returned hstep)) hrest

end Main

/-- The response is a snapshot of this time with a level in it. -/
def Response.Lists (conv : Conversions) (r : Response) (t : UInt64) : Prop :=
  ∃ root bids asks, conv.parse r.body = .ok (some root) ∧ IsSnapshot conv root t bids asks ∧
    ¬ NoLevel (levelOrders Order.BUY t bids ++ levelOrders Order.SELL t asks)

theorem Response.Lists.orders {conv : Conversions} {r : Response} {t : UInt64}
    (h : r.Lists conv t) : ∃ root orders, conv.parse r.body = .ok (some root) ∧
      snapshotOrders conv root = (orders, none) ∧ (∀ o ∈ orders, o.timestamp = t) ∧
      ¬ NoLevel orders ∧ (Ledger.empty.addAll orders).last = t := by
  rcases h with ⟨root, bids, asks, hparse, hroot, hlevels⟩
  refine ⟨root, _, hparse, hroot.snapshotOrders_eq, fun o ho ↦ levelOrders_timestamp ho, hlevels,
    Ledger.addAll_levels_last fun hnil ↦ ?_⟩
  rw [hnil] at hlevels
  exact hlevels ⟨rfl, rfl⟩

/-- Such a snapshot makes a usable book of an empty one. -/
theorem Response.Lists.fills {conv : Conversions} {r : Response} {t : UInt64} {depth : Nat}
    {book : OrderBook} (h : r.Lists conv t) (hbook : book.Refines depth .empty) :
    ∃ book', processJson conv r.body book = .returned book' ∧ book'.toBool = true ∧
      book'.getLastTimestamp = t := by
  rcases h.orders with ⟨root, orders, hparse, hroot, htimes, hlevels, hlast⟩
  rcases hbook.addAll orders with ⟨book', hadd, hbook'⟩
  refine ⟨book', ?_, ?_, hbook'.last.trans hlast⟩
  · unfold processJson
    rw [hparse]
    simp only [storeSnapshot_eq, hroot, addThen, hadd]
  · by_contra hempty
    rw [Bool.not_eq_true] at hempty
    exact hlevels ((hbook.toBool_addAll htimes hadd).mp hempty)

/-! ## The program -/

namespace System

variable {n : Nat} {conv : Conversions} {urls : Urls} {f : DiffStream} {served : Response → Prop}
  {depth address : Nat} {stale : List UInt8} {s : System n} {net : Network} {t : UInt64}

/-- What the events and the rest of the loop body keep, a step keeps. -/
theorem Step.keeps {P : Main n → Prop} {x y : System n × Network}
    (hstep : Step conv urls f served x y)
    (hhandled : ∀ s event s', P s → Main.Handled conv s event s' → P s')
    (hsettled : ∀ s', P x.1.toMain → Main.Settled x.1.toMain s' → P s') (h : P x.1.toMain) :
    P y.1.toMain := by
  cases hstep with
  | callback _ hs =>
      rcases handle_refines hs with ⟨events, hevents⟩
      exact Main.handleAll_keeps hhandled h hevents
  | afterEvents hs => exact hsettled _ h (Main.settled_of_returned (afterEvents_toMain hs))

/-! ### Loop bodies -/

theorem afterEvents_check {m : Main n} {clock : Clock} (h : s.toMain.check clock = (m, false)) :
    s.afterEvents urls clock = .returned (s.withMain urls m) := by
  rw [System.afterEvents, Main.afterEvents, h]
  rfl

theorem reconnects (hnull : s.orderBookSocket = .null) (hempty : s.orderBook.toBool = false)
    {r : Response} (hr : served r) : Step conv urls f served (s, net)
      (s.withMain urls { s.toMain with orderBookSocket := .connected },
        { net with response := r, incoming := r.bytes }) := by
  have hcheck : s.toMain.check ⟨Main.RECONECT_INTERVAL + 1, 0, 0⟩ =
      ({ s.toMain with orderBookSocket := .connected }, false) := by
    have hbook : s.toMain.orderBook.toBool = false := hempty
    unfold Main.check
    rw [hbook, Bool.not_false, if_pos rfl]
    exact if_pos ⟨hnull, Nat.lt_succ_self _⟩
  exact .afterEvents (afterEvents_check hcheck) (.reconnected hnull rfl hr)

/-- A snapshot that is behind the queue goes, and with it the closed connection. -/
theorem rejects (hbook : s.orderBook.toBool = true) (hready : s.orderBookReady = false)
    (hgap : s.orderBook.getLastTimestamp < s.diff.mOrders.getFirstTimestamp) :
    Step conv urls f served (s, net)
      (s.withMain urls
        { s.toMain with orderBook := s.orderBook.clear, orderBookSocket := .null }, net) := by
  have hcheck : s.toMain.check ⟨0, 0, 0⟩ =
      ({ s.toMain with orderBook := s.orderBook.clear, orderBookSocket := .null }, false) := by
    have hfull : (!s.toMain.orderBook.toBool) ≠ true := by
      show (!s.orderBook.toBool) ≠ true
      simp [hbook]
    have hwaits : (!s.toMain.orderBookReady) = true := by
      show (!s.orderBookReady) = true
      simp [hready]
    unfold Main.check
    rw [if_neg hfull, if_pos hwaits]
    exact if_pos hgap
  exact .afterEvents (afterEvents_check hcheck) (.same fun hand ↦ by cases hand.2)

/-! ### Ways to a drain -/

/-- Some steps further on the loop gets past its tests. -/
def CanPass (conv : Conversions) (urls : Urls) (f : DiffStream) (served : Response → Prop)
    (x : System n × Network) : Prop :=
  ∃ y, ReflTransGen (Step conv urls f served) x y ∧ y.1.toMain.Passes

theorem CanPass.head {x y : System n × Network}
    (h : CanPass conv urls f served y)
    (hsteps : ReflTransGen (Step conv urls f served) x y) :
    CanPass conv urls f served x := by
  rcases h with ⟨z, hrest, hpasses⟩
  exact ⟨z, hsteps.trans hrest, hpasses⟩

/-- What the servers promise: everything fits, and every response is a snapshot with a level. -/
structure Serves (conv : Conversions) (urls : Urls) (f : DiffStream) (served : Response → Prop)
    (address : Nat) (stale : List UInt8) : Prop where
  upgrade : Head f.response
  fits : ∀ r, served r → Receiver.Fits r.head r.body
  lists : ∀ r, served r → ∃ t, r.Lists conv t
  request : (snapshotRequest urls.orderBook).length < 2 ^ 64
  address : address < 2 ^ 56
  stale : stale.length = BUFFER_SIZE

theorem Run.loads (h : Run conv urls f served depth address stale s net)
    (hserves : Serves conv urls f served address stale)
    (hconnected : s.orderBookSocket = .connected) : served net.response ∧
      ∀ t, net.response.Lists conv t → ∃ orderBook client incoming,
        ReflTransGen (Step conv urls f served) (s, net)
          ({ s with orderBook, client, orderBookSocket := .closed }, { net with incoming }) ∧
        orderBook.toBool = true ∧ orderBook.getLastTimestamp = t := by
  rcases h.fed hserves.upgrade hserves.fits hserves.address hserves.stale with
    ⟨loaded, drained, generated, hfed⟩
  rcases hfed.serving hconnected with ⟨hr, hserving⟩
  refine ⟨hr, fun t ht ↦ ?_⟩
  have hwaiting := h.toMain.sound.waiting (show s.orderBookSocket ≠ .closed by
    rw [hconnected]
    decide)
  rcases ht.fills hwaiting.2 with ⟨orderBook, hjson, hbook, hlast⟩
  rcases serving_loads s net hconnected hserving (hserves.fits _ hr) hserves.request hjson with
    ⟨client, incoming, hsteps⟩
  exact ⟨orderBook, client, incoming, hsteps, hbook, hlast⟩

/-- The server has a snapshot that is not behind the queue. -/
def Fresh (conv : Conversions) (served : Response → Prop) (s : System n) : Prop :=
  ∃ r t, served r ∧ r.Lists conv t ∧ ¬ t < s.diff.mOrders.getFirstTimestamp

theorem Run.canPass_null (h : Run conv urls f served depth address stale s net)
    (hserves : Serves conv urls f served address stale) (hnull : s.orderBookSocket = .null)
    (hfresh : s.Fresh conv served) : CanPass conv urls f served (s, net) := by
  rcases hfresh with ⟨r, t, hr, ht, hgap⟩
  have hwaiting := h.toMain.sound.waiting (show s.orderBookSocket ≠ .closed by
    rw [hnull]
    decide)
  have hstep : Step conv urls f served (s, net) _ :=
    reconnects hnull (Main.refines_empty_toBool hwaiting.2) hr
  rcases ((h.step hstep).loads hserves rfl).2 t ht with ⟨orderBook, client, incoming, hsteps,
    hbook, hlast⟩
  have hpass : CanPass conv urls f served _ :=
    ⟨_, hsteps, Main.passes_iff.mpr ⟨hbook, fun _ hless ↦ hgap (hlast ▸ hless)⟩⟩
  exact hpass.head (.single hstep)

/-- A book that is not in use yet, and behind the queue, is thrown away for a fresh one. -/
theorem Run.canPass_full (h : Run conv urls f served depth address stale s net)
    (hserves : Serves conv urls f served address stale) (hbook : s.orderBook.toBool = true)
    (hfresh : s.orderBookReady = false → s.Fresh conv served) :
    CanPass conv urls f served (s, net) := by
  by_cases hgap : s.orderBookReady = false ∧
      s.orderBook.getLastTimestamp < s.diff.mOrders.getFirstTimestamp
  · have hstep : Step conv urls f served (s, net) _ := rejects hbook hgap.1 hgap.2
    have hpass := (h.step hstep).canPass_null hserves rfl (hfresh hgap.1)
    exact hpass.head (.single hstep)
  · exact ⟨_, .refl, Main.passes_iff.mpr ⟨hbook, fun hready hless ↦ hgap ⟨hready, hless⟩⟩⟩

/-- A book that is about to be used comes from a snapshot that is not behind the queue. -/
theorem Run.fresh (h : Run conv urls f served depth address stale s net)
    (hserves : Serves conv urls f served address stale) (hready : s.orderBookReady = false)
    (hpasses : s.toMain.Passes) : s.Fresh conv served := by
  rcases h.fed hserves.upgrade hserves.fits hserves.address hserves.stale with
    ⟨loaded, drained, generated, hfed⟩
  rcases Main.passes_iff.mp hpasses with ⟨hbook, hgap⟩
  rcases hfed.passes hbook hgap with ⟨hne, hfirst⟩
  have hdrained := hfed.waiting hready
  subst hdrained
  rcases hfed.document with hnil | ⟨hr, root, hparse, rfl⟩
  · exact absurd hnil hne
  · rcases hserves.lists _ hr with ⟨t, ht⟩
    rcases ht.orders with ⟨root', orders, hparse', hroot, -, -, hlast⟩
    cases hparse.symm.trans hparse'
    rw [hroot, hlast] at hfirst
    exact ⟨net.response, t, hr, ht, hfirst⟩

/-- Where the server has nothing but snapshots that are behind the queue, it stays so, and no drain
comes. -/
theorem Run.waits_not_canPass (h : Run conv urls f served depth address stale s net)
    (hserves : Serves conv urls f served address stale)
    (hwaits : s.toMain.Waits fun t ↦ ∃ r, served r ∧ r.Lists conv t) :
    ¬ CanPass conv urls f served (s, net) := by
  have hno {x : System n × Network} (hrun : Run conv urls f served depth address stale x.1 x.2)
      (hx : x.1.toMain.Waits fun t ↦ ∃ r, served r ∧ r.Lists conv t) : ¬ x.1.toMain.Passes := by
    intro hpasses
    rcases hrun.fresh hserves hx.unused hpasses with ⟨r, t, hr, ht, hgap⟩
    exact hgap (hx.behind t ⟨r, hr, ht⟩)
  rintro ⟨y, hsteps, hpasses⟩
  have hy := reach_keeps (P := fun x : System n × Network ↦
      Run conv urls f served depth address stale x.1 x.2 ∧
        x.1.toMain.Waits fun t ↦ ∃ r, served r ∧ r.Lists conv t)
    (fun _ _ hx hstep ↦ ⟨hx.1.step hstep, hstep.keeps (fun _ _ _ hw ↦ hw.handled)
      (fun _ hw ↦ hw.settled (hno hx.1 hx.2)) hx.2⟩) ⟨h, hwaits⟩ hsteps
  exact hno hy.1 hy.2 hpasses

theorem Stuck.not_canPass (hstuck : s.toMain.Stuck) :
    ¬ CanPass conv urls f served (s, net) := by
  rintro ⟨y, hsteps, hpasses⟩
  have hy := reach_keeps (P := fun x : System n × Network ↦ x.1.toMain.Stuck)
    (fun _ _ hx hstep ↦ hstep.keeps (fun _ _ _ hw ↦ hw.handled) (fun _ hw ↦ hw.settled) hx)
    hstuck hsteps
  exact hy.not_passes hpasses

/-- Whatever has happened so far, the loop can still get to a drain exactly if the book is in use or
the server has a snapshot that is not behind the queue, and the book is not empty with its
connection closed.  Before the book is in use, this is about the states in which a diff is queued or
none will ever be. -/
theorem canPass_iff (h : Run conv urls f served depth address stale s net)
    (hserves : Serves conv urls f served address stale)
    (hqueue : s.orderBookReady = false → s.diffOpen = true → s.diff.mOrders.mOrders ≠ []) :
    CanPass conv urls f served (s, net) ↔
      ¬ s.toMain.Stuck ∧ (s.orderBookReady = true ∨ s.Fresh conv served) := by
  constructor
  · intro hpass
    refine ⟨fun hstuck ↦ Stuck.not_canPass hstuck hpass, ?_⟩
    cases hready : s.orderBookReady with
    | true => exact .inl rfl
    | false =>
        by_contra hno
        refine h.waits_not_canPass hserves ⟨hready, hqueue hready, ?_⟩ hpass
        rintro t ⟨r, hr, ht⟩
        by_contra hgap
        exact hno (.inr ⟨r, t, hr, ht, hgap⟩)
  · rintro ⟨hfree, hhope⟩
    have hfresh (hready : s.orderBookReady = false) : s.Fresh conv served :=
      hhope.resolve_left (by rw [hready]; decide)
    cases hsocket : s.orderBookSocket with
    | null =>
        have hwaiting := h.toMain.sound.waiting (show s.orderBookSocket ≠ .closed by
          rw [hsocket]
          decide)
        exact h.canPass_null hserves hsocket (hfresh hwaiting.1)
    | connected =>
        -- first the document of this connection, whatever its time
        rcases h.loads hserves hsocket with ⟨hr, hloads⟩
        rcases hserves.lists _ hr with ⟨t, ht⟩
        rcases hloads t ht with ⟨orderBook, client, incoming, hsteps, hbook, -⟩
        exact ((h.steps hsteps).canPass_full hserves hbook hfresh).head hsteps
    | closed =>
        cases hbook : s.orderBook.toBool with
        | true => exact h.canPass_full hserves hbook hfresh
        | false => exact absurd ⟨hbook, hsocket⟩ hfree

theorem firstBid_lists : firstBid.Lists quoteConv 5 := by
  refine ⟨Main.oneBid, [(3000000, 1000000)], [], firstBid_parse, ⟨rfl, ⟨_, rfl, rfl⟩,
    ⟨_, rfl, rfl⟩⟩, fun hnone ↦ ?_⟩
  have hbid := (noLevel_iff.mp hnone 3000000).1
  revert hbid
  decide

theorem quote_serves :
    Serves quoteConv exampleUrls quoteStream ServesFirstBid 0x10000 quoteRequested.mBuffer where
  upgrade := DiffLogic.switching_head
  fits := firstBid_allFit
  lists := by
    rintro r rfl
    exact ⟨5, firstBid_lists⟩
  request := by decide +kernel
  address := by decide
  stale := List.length_replicate

-- With both orders queued the program can go on from its first connection, but not without it.
theorem canPass_iff_example : ∃ s net, QuoteRun s net ∧ s.orderBook.toBool = false ∧
    CanPass quoteConv exampleUrls quoteStream ServesFirstBid (s, net) ∧
    ¬ CanPass quoteConv exampleUrls quoteStream ServesFirstBid
      ({ s with orderBookSocket := .closed }, net) := by
  rcases quote_subscribed with ⟨d, hrun, hqueue, -⟩
  have hclosed := hrun.step (.callback .snapshotClose rfl)
  have horders : d.mOrders = ⟨quote⟩ := congrArg Orders.mk hqueue
  have hfresh : Fresh quoteConv ServesFirstBid { quoteStart with diff := d } := by
    refine ⟨firstBid, 5, rfl, firstBid_lists, ?_⟩
    show ¬ 5 < d.mOrders.getFirstTimestamp
    rw [horders]
    decide
  have hsome : d.mOrders.mOrders ≠ [] := by
    rw [hqueue]
    exact List.cons_ne_nil _ _
  refine ⟨_, _, hrun, rfl, (canPass_iff hrun quote_serves fun _ _ ↦ hsome).mpr ⟨?_, .inr hfresh⟩,
    fun hpass ↦ ?_⟩
  · rintro ⟨-, hsocket⟩
    cases hsocket
  · have hfree := ((canPass_iff hclosed quote_serves fun _ _ ↦ hsome).mp hpass).1
    exact hfree ⟨rfl, rfl⟩

end System

end Tob
