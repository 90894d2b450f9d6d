import Tob.Book.Previous
import Tob.Snapshot.ProcessJson

/-!
# When process_json throws

The levels before the failing one have been added by then.  The book is as before exactly if they
are stale, or say nothing new.
-/

open LastWrite

namespace Tob

/-- The last amount that the orders give to a price is the one the side has. -/
def LimitedMap.Restated {lt : UInt64 → UInt64 → Prop} (side : LimitedMap UInt64 UInt64 lt)
    (type : UInt64) (orders : List Order) : Prop :=
  ∀ p a, lastAmount type orders p = some a → (side.valueAt p).getD 0 = a

/-- The last order that touches a level finds in front of it the amount that the level remembers:
the one the price had before, or none where it inserts the level or puts it behind the window. -/
def LimitedMap.Remembered {lt : UInt64 → UInt64 → Prop} [DecidableRel lt]
    (side : LimitedMap UInt64 UInt64 lt) (prices : Finset UInt64) (type : UInt64)
    (orders : List Order) : Prop :=
  ∀ p a, lastTouch lt prices side.mDepth (fun q ↦ (side.valueAt q).getD 0)
    (writes type orders) p = some a → side.prevAt p = a

/-- The prices of a book and of the orders. -/
def OrderBook.prices (book : OrderBook) (orders : List Order) : Finset UInt64 :=
  (book.mBid.mMap.keys ++ book.mAsk.mMap.keys ++ orders.map Order.price).toFinset

/-- The orders are older than the book, or have its timestamp and repeat its amounts and its
previous amounts. -/
def OrderBook.Unmoved (book : OrderBook) (orders : List Order) : Prop :=
  (∀ o ∈ orders, o.timestamp < book.mLastTimestamp) ∨
    (∀ o ∈ orders, o.timestamp = book.mLastTimestamp) ∧
      (book.mBid.Restated Order.BUY orders ∧ book.mAsk.Restated Order.SELL orders) ∧
      book.mBid.Remembered (book.prices orders) Order.BUY orders ∧
      book.mAsk.Remembered (book.prices orders) Order.SELL orders

namespace LimitedMap

variable {lt : UInt64 → UInt64 → Prop} {m m' : LimitedMap UInt64 UInt64 lt} {depth : Nat}
  {f : UInt64 → UInt64}

theorem Holds.restated_iff (h : m.Holds depth f) (type : UInt64) (orders : List Order) :
    m.Restated type orders ↔ applyWrites f (writes type orders) = f := by
  constructor
  · intro hr
    funext p
    rw [applyWrites_apply]
    cases hl : lastWrite (writes type orders) p with
    | none => rfl
    | some a => rw [Option.getD_some, ← h.getD_valueAt, hr p a hl]
  · intro hf p a ha
    rw [h.getD_valueAt, ← congrFun hf p, applyWrites_apply]
    rw [lastAmount] at ha
    rw [ha]
    rfl

theorem Holds.remembered_iff [DecidableRel lt] (h : m.Holds depth f) {prices : Finset UInt64}
    {type : UInt64} {orders : List Order}
    (hprev : ∀ p, m'.prevAt p =
      (lastTouch lt prices depth f (writes type orders) p).getD (m.prevAt p)) :
    m.Remembered prices type orders ↔ ∀ p, m'.prevAt p = m.prevAt p := by
  have hamounts : (fun q ↦ (m.valueAt q).getD 0) = f := funext h.getD_valueAt
  rw [Remembered, hamounts, h.depth]
  constructor
  · intro hr p
    rw [hprev]
    cases hl : lastTouch lt prices depth f (writes type orders) p with
    | none => rfl
    | some a => rw [Option.getD_some, hr p a hl]
  · intro hsame p a ha
    rw [← hsame, hprev, ha]
    rfl

end LimitedMap

/-- The orders of a document all have its timestamp. -/
theorem snapshotOrders_timestamp (conv : Conversions) (root : Json) :
    ∃ t, ∀ o ∈ (snapshotOrders conv root).1, o.timestamp = t := by
  unfold snapshotOrders
  cases jsonTimestamp conv root with
  | error what => exact ⟨0, fun o ho ↦ absurd ho List.not_mem_nil⟩
  | ok t =>
      refine ⟨t, ?_⟩
      cases root.member "bids" with
      | error what => exact fun o ho ↦ absurd ho List.not_mem_nil
      | ok bids =>
          cases root.member "asks" with
          | error what => exact fun o ho ↦ absurd ho List.not_mem_nil
          | ok asks =>
              dsimp only
              rcases conv.levels bids.values with ⟨levels, err⟩
              cases err with
              | some what =>
                  intro o ho
                  have ho : o ∈ levelOrders Order.BUY t levels ++ levelOrders Order.SELL t [] :=
                    List.mem_append_left _ ho
                  exact levelOrders_timestamp ho
              | none => exact fun o ho ↦ levelOrders_timestamp ho

namespace OrderBook

variable {book book' : OrderBook} {depth : Nat} {l : Ledger} {orders : List Order}

/-- A book is its two sides, with their amounts and previous values, and its timestamp. -/
theorem Refines.eq_iff {l' : Ledger} (h : book.Refines depth l) (h' : book'.Refines depth l')
    (hdepth : book'.mDepth = book.mDepth) :
    book' = book ↔ (l'.bids = l.bids ∧ l'.asks = l.asks ∧ l'.last = l.last) ∧
      (∀ p, book'.mBid.prevAt p = book.mBid.prevAt p) ∧
      ∀ p, book'.mAsk.prevAt p = book.mAsk.prevAt p := by
  constructor
  · rintro rfl
    have hb := (h.bids.eq_iff h'.bids).mp rfl
    have ha := (h.asks.eq_iff h'.asks).mp rfl
    exact ⟨⟨hb.1, ha.1, h'.last.symm.trans h.last⟩, hb.2, ha.2⟩
  · rintro ⟨⟨hbids, hasks, hlast⟩, hprevBids, hprevAsks⟩
    have hb := (h.bids.eq_iff h'.bids).mpr ⟨hbids, hprevBids⟩
    have ha := (h.asks.eq_iff h'.asks).mpr ⟨hasks, hprevAsks⟩
    have ht := h'.last.trans (hlast.trans h.last.symm)
    cases book
    cases book'
    cases hb
    cases ha
    cases ht
    cases hdepth
    rfl

theorem addAll_of_stale (hold : ∀ o ∈ orders, o.timestamp < book.mLastTimestamp) :
    book.addAll orders = some book := by
  induction orders with
  | nil => rfl
  | cons o rest ih =>
      rw [addAll, add, if_pos (hold o List.mem_cons_self), Option.bind_some]
      exact ih fun a ha ↦ hold a (List.mem_cons_of_mem _ ha)

/-- Orders with the timestamp of the book leave it as it is exactly if they repeat the amounts and
the previous amounts. -/
theorem Refines.addAll_eq_iff_of_now (h : book.Refines depth l)
    (ht : ∀ o ∈ orders, o.timestamp = l.last) (hadd : book.addAll orders = some book') :
    book' = book ↔
      (book.mBid.Restated Order.BUY orders ∧ book.mAsk.Restated Order.SELL orders) ∧
        book.mBid.Remembered (book.prices orders) Order.BUY orders ∧
        book.mAsk.Remembered (book.prices orders) Order.SELL orders := by
  rcases h.addAll orders with ⟨added, he, h'⟩
  cases he.symm.trans hadd
  rcases Ledger.addAll_writes (chronological_of_timestamp ht) l with ⟨hb, ha⟩
  have hall : since l.last orders = orders :=
    since_eq_self fun o ho ↦ le_of_eq (ht o ho).symm
  rw [hall] at hb ha
  have hlast : (l.addAll orders).last = l.last := Ledger.addAll_last_eq ht rfl
  have hrecalls : Recalls book book' (book.prices orders) depth l orders := by
    refine h.recalls_addAll ht hadd ?_ ?_ ?_
    · intro q hq
      have hkey : q ∈ book.mBid.mMap.keys := h.bids.mem_keys_iff.mpr hq
      simp [prices, hkey]
    · intro q hq
      have hkey : q ∈ book.mAsk.mMap.keys := h.asks.mem_keys_iff.mpr hq
      simp [prices, hkey]
    · intro o ho
      have hprice : o.price ∈ orders.map Order.price := List.mem_map_of_mem ho
      simp only [prices, List.mem_toFinset, List.mem_append, hprice, or_true]
  rw [h.eq_iff h' (mDepth_of_addAll hadd), h.bids.restated_iff, h.asks.restated_iff,
    h.bids.remembered_iff hrecalls.bids, h.asks.remembered_iff hrecalls.asks, hb, ha]
  simp only [hlast, and_true]

/-- Adding orders of one timestamp leaves a book as it is exactly if they are older than the book or
repeat what it says. -/
theorem Refines.addAll_eq_iff (h : book.Refines depth l) {t : UInt64}
    (ht : ∀ o ∈ orders, o.timestamp = t) (hadd : book.addAll orders = some book') :
    book' = book ↔ book.Unmoved orders := by
  by_cases hold : ∀ o ∈ orders, o.timestamp < book.mLastTimestamp
  · cases (addAll_of_stale hold).symm.trans hadd
    exact iff_of_true rfl (.inl hold)
  · rw [Unmoved, or_iff_right hold]
    by_cases hnow : ∀ o ∈ orders, o.timestamp = book.mLastTimestamp
    · rw [h.addAll_eq_iff_of_now (h.last ▸ hnow) hadd]
      exact ⟨fun hsame ↦ ⟨hnow, hsame⟩, fun hsame ↦ hsame.2⟩
    · -- they are newer, and the timestamp moves
      apply iff_of_false _ fun hsame ↦ hnow hsame.1
      rintro rfl
      rcases h.addAll orders with ⟨added, he, h'⟩
      cases he.symm.trans hadd
      have hne : orders ≠ [] := by
        rintro rfl
        exact hold fun o ho ↦ absurd ho List.not_mem_nil
      have hmax := Ledger.addAll_last_of_timestamp ht hne l
      rw [← h'.last, h.last] at hmax
      have hle : t ≤ l.last := max_eq_left_iff.mp hmax.symm
      rcases lt_or_eq_of_le hle with hlt | heq
      · exact hold fun o ho ↦ by rw [ht o ho, h.last]; exact hlt
      · exact hnow fun o ho ↦ by rw [ht o ho, h.last, heq]

end OrderBook

/-- A throwing `process_json` leaves the book as it was exactly if the levels before the failing one
do not move it. -/
theorem eq_of_threw_iff {conv : Conversions} {book book' : OrderBook} {depth : Nat}
    {l : Ledger} (h : book.Refines depth l) {body : List UInt8} {root : Json} {what : String}
    (hparse : conv.parse body = .ok (some root))
    (hp : processJson conv body book = .threw what book') :
    book' = book ↔ book.Unmoved (snapshotOrders conv root).1 := by
  rcases snapshotOrders_timestamp conv root with ⟨t, ht⟩
  refine h.addAll_eq_iff ht ?_
  rw [processJson, hparse] at hp
  change storeSnapshot conv root book = _ at hp
  rw [storeSnapshot_eq, addThen] at hp
  cases hadd : book.addAll (snapshotOrders conv root).1 with
  | none => rw [hadd] at hp; cases hp
  | some added =>
      rw [hadd] at hp
      cases hwhat : (snapshotOrders conv root).2 with
      | none => rw [hwhat] at hp; cases hp
      | some what => rw [hwhat] at hp; cases hp; rfl

end Tob
