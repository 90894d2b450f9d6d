import Tob.Live.Drain
import Tob.Live.Replay

/-!
# Gaps between snapshot and diffs

The exchange publishes diffs and serves snapshots of its book; the client is subscribed from the
diff `k` on.  `main` takes a snapshot when its timestamp is not below the first queued one, so a
snapshot from before the subscription gets in exactly if the two timestamps are the same.
-/

namespace Tob

/-- A snapshot taken after the first `cut` diffs. -/
structure Snapshot where
  cut : Nat
  timestamp : UInt64
  body : List UInt8

namespace Snapshot

/-- The book of the exchange at the cut. -/
def exchange (depth : Nat) (d : List Order) (snap : Snapshot) : Option OrderBook :=
  (OrderBook.new depth).addAll (d.take snap.cut)

def HasLevel (depth : Nat) (d : List Order) (snap : Snapshot) : Prop :=
  ∃ book, snap.exchange depth d = some book ∧ book.toBool = true

/-- The body lists the book of the exchange, and the timestamp is between those of the diffs before
and after the cut. -/
structure Of (conv : Conversions) (depth : Nat) (d : List Order) (snap : Snapshot) : Prop where
  body : ∃ book root bids asks, snap.exchange depth d = some book ∧
    conv.parse snap.body = .ok (some root) ∧ IsSnapshot conv root snap.timestamp bids asks ∧
    bids.Perm book.mBid.levels ∧ asks.Perm book.mAsk.levels
  before : ∀ o ∈ d.take snap.cut, o.timestamp ≤ snap.timestamp
  after : ∀ o ∈ d.drop snap.cut, snap.timestamp ≤ o.timestamp

end Snapshot

/-- What has been delivered to the client: the number of diffs, and the snapshot stored last. -/
structure Feed where
  arrived : Nat
  loaded : Option Snapshot

namespace Feed

variable {n : Nat}

/-- Diffs arrive in order from the diff `k` on and over an open connection, any of the served
snapshots may arrive over an open snapshot connection, and connections fail at any time. -/
inductive Step (d : List Order) (k : Nat) (served : Snapshot → Prop) (s : Main n) :
    Feed → Event → Feed → Prop where
  | diffs {g batch} : s.diffOpen = true → batch <+: (d.drop k).drop g.arrived →
      Step d k served s g (.diffs batch) { g with arrived := g.arrived + batch.length }
  | diffsThrow {g batch} : s.diffOpen = true → batch <+: (d.drop k).drop g.arrived →
      Step d k served s g (.diffsThrow batch) { g with arrived := g.arrived + batch.length }
  | diffClose {g} : Step d k served s g .diffClose g
  | snapshot {g snap} : s.orderBookSocket = .connected → served snap →
      Step d k served s g (.snapshot snap.body) { g with loaded := some snap }
  | snapshotThrow {g} : Step d k served s g .snapshotThrow g
  | snapshotClose {g} : Step d k served s g .snapshotClose g

end Feed

/-! ## What a snapshot leaves in the book -/

/-- Levels loaded into the empty ledger bring their timestamp with them. -/
theorem Ledger.addAll_levels_last {t : UInt64} {bids asks : List (UInt64 × UInt64)}
    (hne : levelOrders Order.BUY t bids ++ levelOrders Order.SELL t asks ≠ []) :
    (Ledger.empty.addAll (levelOrders Order.BUY t bids ++ levelOrders Order.SELL t asks)).last =
      t := by
  have hts : ∀ o ∈ levelOrders Order.BUY t bids ++ levelOrders Order.SELL t asks,
      o.timestamp = t := fun o ↦ levelOrders_timestamp
  generalize levelOrders Order.BUY t bids ++ levelOrders Order.SELL t asks = orders at hne hts
  cases orders with
  | nil => exact absurd rfl hne
  | cons order rest =>
      have ht := hts order List.mem_cons_self
      apply Ledger.addAll_last_eq (fun o ho ↦ hts o (List.mem_cons_of_mem _ ho))
      rw [add, if_neg (show ¬ order.timestamp < empty.last from not_lt.mpr (zero_le_timestamp _))]
      exact ht

/-- A served snapshot goes into the empty book: it is as full as the book of the exchange, and has
its timestamp as soon as it has a level. -/
theorem Snapshot.Of.stored {conv : Conversions} {depth : Nat} {d : List Order} {snap : Snapshot}
    {book : OrderBook} (h : snap.Of conv depth d) (hbook : book.Refines depth .empty) :
    ∃ book', processJson conv snap.body book = .returned book' ∧
      (book'.toBool = true ↔ snap.HasLevel depth d) ∧
      (book'.toBool = true → book'.getLastTimestamp = snap.timestamp) := by
  rcases h.body with ⟨exchange, root, bids, asks, hexchange, hparse, hroot, hbids, hasks⟩
  rcases hbook.addAll
    (levelOrders Order.BUY snap.timestamp bids ++ levelOrders Order.SELL snap.timestamp asks) with
    ⟨book', he, hl⟩
  rcases (OrderBook.refines_new depth).addAll (d.take snap.cut) with ⟨exchange', hex, hexl⟩
  cases hexchange.symm.trans hex
  rcases Ledger.addAll_levels hexl hbids hasks snap.timestamp with ⟨hlb, hla⟩
  have hfull : book'.toBool = true ↔ exchange.toBool = true := by
    rw [hl.toBool_iff, hexl.toBool_iff, hlb, hla]
  refine ⟨book', ?_, ?_, ?_⟩
  · rw [processJson, hparse]
    simp only [hroot.storeSnapshot_eq, addThen, he]
  · rw [hfull]
    constructor
    · intro h
      exact ⟨exchange, hexchange, h⟩
    · rintro ⟨exchange', hex', h⟩
      cases hexchange.symm.trans hex'
      exact h
  · intro htrue
    refine hl.last.trans (Ledger.addAll_levels_last ?_)
    intro hnil
    rw [hnil] at hl
    cases (Main.refines_empty_toBool hl).symm.trans htrue

/-! ## The queue before `main` is live -/

namespace Feed

variable {n : Nat} {conv : Conversions} {depth k : Nat} {d : List Order} {served : Snapshot → Prop}

/-- Until `main` is live the queue is what has arrived, and a full book is the last snapshot. -/
structure Waiting (depth : Nat) (d : List Order) (k : Nat) (served : Snapshot → Prop) (s : Main n)
    (g : Feed) : Prop where
  queue : s.orders.mOrders <+: d.drop k
  arrived : s.diffOpen = true → s.orders.mOrders = (d.drop k).take g.arrived
  loaded : s.orderBook.toBool = true → ∃ snap, g.loaded = some snap ∧ served snap ∧
    snap.HasLevel depth d ∧ s.orderBook.getLastTimestamp = snap.timestamp

theorem Waiting.queued {s : Main n} {g : Feed} (h : Waiting depth d k served s g)
    (hopen : s.diffOpen = true) {batch : List Order} (hb : batch <+: (d.drop k).drop g.arrived)
    (throws : Bool) :
    Waiting depth d k served (s.queue batch throws)
      { g with arrived := g.arrived + batch.length } := by
  have hspec := s.orders.addOrders_spec batch
  have hqueue : ∃ m, (s.queue batch throws).orders.mOrders = s.orders.mOrders ++ batch.take m ∧
      ((s.queue batch throws).diffOpen = true → m = batch.length) := by
    rcases hspec with ⟨m, hm, hall⟩
    unfold Main.queue
    rcases hadd : s.orders.addOrders batch with ⟨orders, err⟩
    rw [hadd] at hm hall
    cases err with
    | none => exact ⟨m, hm, fun _ ↦ hall rfl⟩
    | some what => exact ⟨m, hm, fun h ↦ by cases h⟩
  rcases hqueue with ⟨m, hm, hall⟩
  have hsplit : d.drop k = s.orders.mOrders ++ (d.drop k).drop g.arrived := by
    rw [h.arrived hopen, List.take_append_drop]
  refine ⟨?_, ?_, ?_⟩
  · rw [hm, hsplit, List.prefix_append_right_inj]
    exact (List.take_prefix m batch).trans (hsplit ▸ hb)
  · intro hopen'
    rw [hm, hall hopen', List.take_length, List.take_add, ← h.arrived hopen,
      ← List.prefix_iff_eq_take.mp hb]
  · rw [(s.queue_orderBook batch throws).1]
    exact h.loaded

theorem Waiting.handled {s s' : Main n} {g g' : Feed} {event : Event}
    (h : Waiting depth d k served s g) (hserved : ∀ snap, served snap → snap.Of conv depth d)
    (hempty : s.orderBookSocket ≠ .closed → s.orderBook.Refines depth .empty)
    (hstep : Step d k served s g event g') (hs : Main.Handled conv s event s') :
    Waiting depth d k served s' g' := by
  cases hstep with
  | diffs hopen hb =>
      cases hs with
      | queued => exact h.queued hopen hb false
      | diffsIgnored hclosed => rw [hopen] at hclosed; cases hclosed
  | diffsThrow hopen hb =>
      cases hs with
      | queuedThenThrew => exact h.queued hopen hb true
      | throwIgnored hclosed => rw [hopen] at hclosed; cases hclosed
  | diffClose =>
      cases hs with
      | diffClosed => exact ⟨h.queue, fun hopen ↦ (by cases hopen), h.loaded⟩
  | @snapshot snap hconn hsnap =>
      have hne : s.orderBookSocket ≠ .closed := by rw [hconn]; decide
      rcases (hserved snap hsnap).stored (hempty hne) with ⟨book', hp, hlevel, hlast⟩
      cases hs with
      | stored _ hp' =>
          cases hp.symm.trans hp'
          exact ⟨h.queue, h.arrived,
            fun hfull ↦ ⟨snap, rfl, hsnap, hlevel.mp hfull, hlast hfull⟩⟩
      | failed _ hp' => cases hp.symm.trans hp'
      | snapshotIgnored hno => exact absurd hconn hno
  | snapshotThrow =>
      cases hs with
      | threw => exact ⟨h.queue, h.arrived, h.loaded⟩
      | threwIgnored => exact h
  | snapshotClose =>
      cases hs with
      | closed => exact ⟨h.queue, h.arrived, h.loaded⟩
      | closeIgnored => exact h

theorem waiting_of_run {s : Main n} {g : Feed}
    (hserved : ∀ snap, served snap → snap.Of conv depth d)
    (h : Main.Run conv (Step d k served) depth ⟨0, none⟩ s g) (hwait : s.orderBookReady = false) :
    Waiting depth d k served s g := by
  induction h with
  | start =>
      refine ⟨List.nil_prefix, fun _ ↦ by rw [List.take_zero]; rfl, fun hfull ↦ ?_⟩
      cases (Main.refines_empty_toBool (OrderBook.refines_new depth)).symm.trans hfull
  | @event s g event s' g' hrun hstep hs ih =>
      have hs := Main.handled_of_returned hs
      -- no callback sets or clears the flag
      have hready : s.orderBookReady = false := by
        cases hs with
        | queued | queuedThenThrew => rw [← hwait, (s.queue_orderBook _ _).2.2]
        | _ => exact hwait
      exact (ih hready).handled hserved (fun hne ↦ (hrun.sound.waiting hne).2) hstep hs
  | afterEvents hrun hs ih =>
      cases Main.settled_of_returned hs with
      | idle => exact ih hwait
      | reconnected =>
          have h := ih hwait
          exact ⟨h.queue, h.arrived, h.loaded⟩
      | rejected _ hready =>
          have h := ih hready
          refine ⟨h.queue, h.arrived, fun hfull ↦ ?_⟩
          rcases hrun.sound.book with ⟨l, hl⟩
          cases (Main.refines_empty_toBool hl.clear).symm.trans hfull
      | drained => cases hwait

end Feed

/-! ## The comparison of the two timestamps -/

theorem le_maxTimestamp (t : UInt64) : t ≤ -1 := by
  rw [UInt64.le_iff_toNat_le]
  have hmax : (-1 : UInt64).toNat = 2 ^ 64 - 1 := by decide
  have hlt := t.toNat_lt
  omega

/-- When everything that will be published is at least as late, the test lets in a tie only. -/
theorem Orders.eq_firstTimestamp {n : Nat} {orders : Orders n} {later : List Order} {t : UInt64}
    (hq : orders.mOrders <+: later) (hlater : ∀ o ∈ later, t ≤ o.timestamp)
    (h : ¬ t < orders.getFirstTimestamp) :
    t = Orders.getFirstTimestamp (⟨later⟩ : Orders n) := by
  rcases orders with ⟨queue⟩
  rcases hq with ⟨rest, hrest⟩
  cases queue with
  | nil =>
      have hmax : t = -1 := le_antisymm (le_maxTimestamp t) (not_lt.mp h)
      cases later with
      | nil => exact hmax
      | cons o later =>
          have ho := hlater o List.mem_cons_self
          rw [hmax] at ho ⊢
          exact le_antisymm ho (le_maxTimestamp _)
  | cons o queue =>
      change o :: (queue ++ rest) = later at hrest
      rw [← hrest] at hlater ⊢
      exact le_antisymm (hlater o List.mem_cons_self) (not_lt.mp h)

namespace Main

variable {n : Nat} {conv : Conversions}

-- The first diff arrives, then the snapshot, and the test is passed.
theorem tie_goesLive {depth k : Nat} {d : List Order} {served : Snapshot → Prop} (hn : 0 < n)
    {snap : Snapshot} (hsnap : served snap) (hof : snap.Of conv depth d)
    (hlevel : snap.HasLevel depth d)
    (htie : snap.timestamp = Orders.getFirstTimestamp (⟨d.drop k⟩ : Orders n)) :
    ∃ (s s' : Main n) (g : Feed), Run conv (Feed.Step d k served) depth ⟨0, none⟩ s g ∧
      s.orderBookReady = false ∧ s.check ⟨0, 0, 0⟩ = (s', true) ∧ g.loaded = some snap := by
  have hbatch : (d.drop k).take 1 <+: (d.drop k).drop 0 := List.take_prefix _ _
  let s₁ : Main n := (start depth n).queue ((d.drop k).take 1) false
  have hfirst : s₁.orders.getFirstTimestamp = Orders.getFirstTimestamp (⟨d.drop k⟩ : Orders n) := by
    cases hd : d.drop k with
    | nil => simp only [s₁, hd]; rfl
    | cons o rest =>
        simp only [s₁, hd, queue, List.take_succ_cons, List.take_zero, Orders.addOrders,
          Orders.addOrder, start, Orders.empty, List.length_nil, if_pos hn]
        rfl
  have hbook : s₁.orderBook = OrderBook.new depth := (queue_orderBook _ _ _).1
  have hconn : s₁.orderBookSocket = .connected := (queue_orderBook _ _ _).2.1
  have hready : s₁.orderBookReady = false := (queue_orderBook _ _ _).2.2
  rcases hof.stored (OrderBook.refines_new depth) with ⟨book', hp, hfull, hlast⟩
  have htrue := hfull.mpr hlevel
  let s₂ : Main n := { s₁ with orderBook := book', orderBookSocket := .closed }
  have hrun₁ : Run conv (Feed.Step d k served) depth ⟨0, none⟩ s₁
      ⟨0 + ((d.drop k).take 1).length, none⟩ := .event .start (.diffs rfl hbatch) rfl
  have hstored : s₁.handle conv (.snapshot snap.body) = .returned s₂ := by
    rw [handle, if_pos hconn, hbook, hp]
    rfl
  refine ⟨s₂, { s₂ with orderBookReady := true }, _,
    .event hrun₁ (.snapshot hconn hsnap) hstored, hready, ?_, rfl⟩
  have htest : ¬ book'.getLastTimestamp < s₁.orders.getFirstTimestamp := by
    rw [hlast htrue, hfirst, htie]
    exact lt_irrefl _
  unfold check
  rw [show s₂.orderBook.toBool = true from htrue, show s₂.orderBookReady = false from hready]
  simp only [Bool.not_true, Bool.not_false, if_true]
  rw [if_neg Bool.false_ne_true, if_neg htest]

/-- `main` never goes live with a gap, whatever arrives in which order, exactly if no snapshot with
a level in it is from before the subscription and as late as the first diff after it. -/
theorem gapFree_iff {depth k : Nat} {d : List Order} {served : Snapshot → Prop} (hn : 0 < n)
    (hserved : ∀ snap, served snap → snap.Of conv depth d) :
    (∀ (s s' : Main n) g clock, Run conv (Feed.Step d k served) depth ⟨0, none⟩ s g →
      s.orderBookReady = false → s.check clock = (s', true) →
      ∃ snap, g.loaded = some snap ∧ k ≤ snap.cut) ↔
    ∀ snap, served snap → snap.HasLevel depth d → snap.cut < k →
      snap.timestamp ≠ Orders.getFirstTimestamp (⟨d.drop k⟩ : Orders n) := by
  constructor
  · intro hgap snap hsnap hlevel hcut htie
    rcases tie_goesLive hn hsnap (hserved snap hsnap) hlevel htie with
      ⟨s, s', g, hrun, hwait, hs, hg⟩
    rcases hgap s s' g ⟨0, 0, 0⟩ hrun hwait hs with ⟨snap', hg', hk⟩
    cases hg.symm.trans hg'
    omega
  · intro hcond s s' g clock hrun hwait hlive
    have hw := Feed.waiting_of_run hserved hrun hwait
    rcases check_live hlive with ⟨hfull, htest, -⟩
    rcases hw.loaded hfull with ⟨snap, hloaded, hsnap, hlevel, hlast⟩
    refine ⟨snap, hloaded, ?_⟩
    by_contra hcut
    have hlater : ∀ o ∈ d.drop k, snap.timestamp ≤ o.timestamp := by
      intro o ho
      apply (hserved snap hsnap).after o
      exact (List.drop_sublist_drop_left d (by omega : snap.cut ≤ k)).subset ho
    have htest := htest hwait
    rw [hlast] at htest
    exact hcond snap hsnap hlevel (by omega) (Orders.eq_firstTimestamp hw.queue hlater htest)

/-- Three diffs of one second, and a snapshot taken after the first of them. -/
def oneSecond : List Order :=
  [⟨Order.BUY, 5, 3000000, 1000000⟩, ⟨Order.BUY, 5, 4000000, 1000000⟩,
    ⟨Order.BUY, 5, 6000000, 1000000⟩]

def afterFirst : Snapshot := ⟨1, 5, oneBidText⟩

def ServesFirst (snap : Snapshot) : Prop := snap = afterFirst

theorem afterFirst_of : afterFirst.Of (.whole oneBidText oneBid) 3 oneSecond where
  body := by
    refine ⟨_, oneBid, [(3000000, 1000000)], [], rfl, rfl, ?_, .refl _, .refl _⟩
    exact ⟨rfl, ⟨_, rfl, rfl⟩, ⟨_, rfl, rfl⟩⟩
  before := by decide
  after := by decide

theorem afterFirst_hasLevel : afterFirst.HasLevel 3 oneSecond := ⟨_, rfl, rfl⟩

-- Subscribed from the second diff on, the client misses nothing.
theorem gapFree_iff_example :
    afterFirst.Of (.whole oneBidText oneBid) 3 oneSecond ∧
      (∀ (s s' : Main 1000) g clock,
        Run (.whole oneBidText oneBid) (Feed.Step oneSecond 1 ServesFirst) 3 ⟨0, none⟩ s g →
        s.orderBookReady = false → s.check clock = (s', true) →
        ∃ snap, g.loaded = some snap ∧ 1 ≤ snap.cut) := by
  have hserved : ∀ snap, ServesFirst snap → snap.Of (.whole oneBidText oneBid) 3 oneSecond := by
    rintro snap rfl
    exact afterFirst_of
  refine ⟨afterFirst_of, (gapFree_iff (by decide) hserved).mpr ?_⟩
  rintro snap rfl - hcut
  exact absurd hcut (by decide)

-- Subscribed from the third diff on, the client never sees the second one.
theorem goesLive_with_gap :
    ∃ (s s' : Main 1000) (g : Feed), Chronological oneSecond ∧
      afterFirst.Of (.whole oneBidText oneBid) 3 oneSecond ∧
      Run (.whole oneBidText oneBid) (Feed.Step oneSecond 2 ServesFirst) 3 ⟨0, none⟩ s g ∧
      s.orderBookReady = false ∧ s.check ⟨0, 0, 0⟩ = (s', true) ∧ s'.orderBookReady = true ∧
      g.loaded = some afterFirst ∧ ¬ 2 ≤ afterFirst.cut := by
  have htie : afterFirst.timestamp =
      Orders.getFirstTimestamp (⟨oneSecond.drop 2⟩ : Orders 1000) := rfl
  have hserved : ServesFirst afterFirst := rfl
  rcases tie_goesLive (by decide) hserved afterFirst_of afterFirst_hasLevel htie with
    ⟨s, s', g, hrun, hwait, hlive, hg⟩
  refine ⟨s, s', g, by unfold Chronological; decide, afterFirst_of, hrun, hwait, hlive, ?_, hg,
    by decide⟩
  rw [(check_live hlive).2.2]

end Main

end Tob
