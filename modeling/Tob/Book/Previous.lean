import Tob.Book.Chronology

/-!
# Previous values

What a batch of orders leaves in the previous value of a level is up to the last order that touches
it: one at its price, or one that inserts another level and finds this one right behind the window.
-/

open OrderedContainer LastWrite

namespace Tob

namespace LimitedMap

/-- The previous value of a level, and zero where there is no level. -/
def prevAt {lt : UInt64 → UInt64 → Prop} (side : LimitedMap UInt64 UInt64 lt) (p : UInt64) :
    UInt64 := ((side.mMap.lookup p).map Payload.prevValue).getD 0

section Touch

variable (lt : UInt64 → UInt64 → Prop) [DecidableRel lt] (prices : Finset UInt64) (depth : Nat)

/-- How many of the prices are in front of `p` and have an amount. -/
def rank (f : UInt64 → UInt64) (p : UInt64) : Nat := (prices.filter fun q ↦ lt q p ∧ f q ≠ 0).card

/-- What a write over the amounts `f` leaves in the previous value of `p`, if it touches it. -/
def touch (f : UInt64 → UInt64) (w : UInt64 × UInt64) (p : UInt64) : Option UInt64 :=
  if p = w.1 then some (if w.2 = 0 then 0 else f p)
  else if f w.1 = 0 ∧ w.2 ≠ 0 ∧ f p ≠ 0 ∧
      rank lt prices (Function.update f w.1 w.2) p = depth then some 0
  else none

/-- What the last write that touches `p` leaves in its previous value. -/
def lastTouch (f : UInt64 → UInt64) : List (UInt64 × UInt64) → UInt64 → Option UInt64
  | [], _ => none
  | w :: ws, p =>
      (lastTouch (Function.update f w.1 w.2) ws p).or (touch lt prices depth f w p)

theorem lastTouch_append (f : UInt64 → UInt64) (xs ys : List (UInt64 × UInt64)) (p : UInt64) :
    lastTouch lt prices depth f (xs ++ ys) p =
      (lastTouch lt prices depth (applyWrites f xs) ys p).or
        (lastTouch lt prices depth f xs p) := by
  induction xs generalizing f with
  | nil => simp [lastTouch, applyWrites]
  | cons w ws ih => simp only [List.cons_append, lastTouch, applyWrites, ih, Option.or_assoc]

end Touch

variable {lt : UInt64 → UInt64 → Prop} {side side' : LimitedMap UInt64 UInt64 lt} {depth : Nat}
  {f g : UInt64 → UInt64}

theorem Holds.getD_valueAt (h : side.Holds depth f) (k : UInt64) :
    (side.valueAt k).getD 0 = f k := by
  rw [h.values]
  by_cases hz : f k = 0
  · rw [if_pos hz, hz]
    rfl
  · rw [if_neg hz]
    rfl

/-- The payload of a level is its amount and its previous value. -/
theorem Holds.lookup_eq (h : side.Holds depth f) (p : UInt64) :
    side.mMap.lookup p = if f p = 0 then none else some ⟨f p, side.prevAt p⟩ := by
  have hvalue := h.values p
  unfold valueAt at hvalue
  unfold prevAt
  cases hlook : side.mMap.lookup p with
  | none =>
      rw [hlook] at hvalue
      by_cases hz : f p = 0
      · rw [if_pos hz]
      · rw [if_neg hz] at hvalue
        cases hvalue
  | some payload =>
      rw [hlook] at hvalue
      by_cases hz : f p = 0
      · rw [if_pos hz] at hvalue
        cases hvalue
      · rw [if_neg hz, Option.map_some, Option.some_inj] at hvalue
        rw [if_neg hz, ← hvalue]
        rfl

variable [IsStrictTotalOrder UInt64 lt]

/-- A side is its amounts and its previous values. -/
theorem Holds.eq_iff (h : side.Holds depth f) (h' : side'.Holds depth g) :
    side' = side ↔ g = f ∧ ∀ p, side'.prevAt p = side.prevAt p := by
  constructor
  · rintro rfl
    refine ⟨?_, fun p ↦ rfl⟩
    funext p
    rw [← h.getD_valueAt, ← h'.getD_valueAt]
  · rintro ⟨rfl, hprev⟩
    have hmap : side'.mMap = side.mMap := by
      apply OrderedMap.eq_of_lookup
      intro p
      rw [h.lookup_eq, h'.lookup_eq, hprev]
    have hdepth : side'.mDepth = side.mDepth := h'.depth.trans h.depth.symm
    -- the cached iterator is determined by the prices
    have hend : side'.mEnd = side.mEnd := by rw [h'.window, h.window, hmap, hdepth]
    cases side
    cases side'
    cases hmap
    cases hdepth
    cases hend
    rfl

variable [DecidableRel lt] {prices : Finset UInt64}

theorem Holds.length_filter_keys (h : side.Holds depth f) (hprices : ∀ q, f q ≠ 0 → q ∈ prices)
    (p : UInt64) : (side.mMap.keys.filter fun q ↦ lt q p).length = rank lt prices f p := by
  rw [rank, ← List.toFinset_card_of_nodup (side.mMap.nodup_keys.filter _)]
  congr 1
  ext q
  simp only [List.mem_toFinset, List.mem_filter, Finset.mem_filter, decide_eq_true_eq,
    h.mem_keys_iff]
  constructor
  · exact fun hq ↦ ⟨hprices q hq.1, hq.2, hq.1⟩
  · exact fun hq ↦ ⟨hq.2.2, hq.2.1⟩

/-- One order leaves in every previous value what its touch leaves there. -/
theorem Holds.prevAt_update (h : side.Holds depth f) {order : Order}
    (he : Tob.update side order = some side') (hprices : ∀ q, f q ≠ 0 → q ∈ prices)
    (hprice : order.price ∈ prices) (p : UInt64) :
    side'.prevAt p =
      (touch lt prices depth f (order.price, order.amount) p).getD (side.prevAt p) := by
  have hheld : side'.Holds depth (Function.update f order.price order.amount) := by
    rcases h.update order with ⟨side₁, he₁, h₁⟩
    cases he₁.symm.trans he
    exact h₁
  unfold Tob.update at he
  unfold touch
  simp only
  by_cases hz : order.amount = 0
  · -- the level is erased
    rw [if_pos hz] at he
    rcases erase_leaves h.window order.price with ⟨side₁, he₁, hl⟩
    cases he₁.symm.trans he
    rw [prevAt, hl.lookup]
    by_cases hp : p = order.price
    · rw [if_pos hp, if_pos hp, if_pos hz]
      rfl
    · rw [if_neg hp, if_neg hp, if_neg fun hc ↦ hc.2.1 hz]
      rfl
  · rw [if_neg hz] at he
    rw [if_neg hz]
    by_cases hmem : order.price ∈ side.mMap.keys
    · -- its amount becomes the previous value
      rcases update_overwrites h.window order.amount hmem with ⟨side₁, he₁, hl⟩
      cases he₁.symm.trans he
      have hold : f order.price ≠ 0 := h.mem_keys_iff.mp hmem
      rw [prevAt, hl.lookup]
      by_cases hp : p = order.price
      · rw [if_pos hp, if_pos hp, hp, h.lookup_eq, if_neg hold]
        rfl
      · rw [if_neg hp, if_neg hp, if_neg fun hc ↦ hold hc.1]
        rfl
    · -- a level is inserted, and the one of rank `mDepth` is reset
      rcases update_inserts h.window order.amount hmem with ⟨side₁, he₁, hl⟩
      cases he₁.symm.trans he
      have hnew : f order.price = 0 := by
        rw [h.mem_keys_iff, not_not] at hmem
        exact hmem
      rw [prevAt, hl.lookup]
      by_cases hp : p = order.price
      · rw [if_pos hp, if_pos hp, hp, hnew]
        rfl
      · have hupdate : Function.update f order.price order.amount p = f p :=
          Function.update_of_ne hp _ _
        have hheldPrices : ∀ q, Function.update f order.price order.amount q ≠ 0 → q ∈ prices := by
          intro q hq
          by_cases hqp : q = order.price
          · exact hqp ▸ hprice
          · rw [Function.update_of_ne hqp] at hq
            exact hprices q hq
        have hrank : (side.mMap.keys.orderedInsert lt order.price)[side.mDepth]? = some p ↔
            f p ≠ 0 ∧
              rank lt prices (Function.update f order.price order.amount) p = depth := by
          rw [← hl.keys, h.depth, OrderedMap.getElem?_keys_iff, hheld.mem_keys_iff, hupdate,
            hheld.length_filter_keys hheldPrices]
        rw [if_neg hp, if_neg hp]
        by_cases hreset : (side.mMap.keys.orderedInsert lt order.price)[side.mDepth]? = some p
        · rw [if_pos hreset, if_pos ⟨hnew, hz, hrank.mp hreset⟩]
          cases side.mMap.lookup p with
          | none => rfl
          | some payload => rfl
        · rw [if_neg hreset, if_neg fun hc ↦ hreset (hrank.mpr hc.2.2)]
          rfl

end LimitedMap

namespace OrderBook

variable {book book' : OrderBook} {depth : Nat} {l : Ledger} {prices : Finset UInt64}

theorem mDepth_of_add {order : Order} (he : book.add order = some book') :
    book'.mDepth = book.mDepth := by
  unfold add at he
  split at he
  · cases he
    rfl
  · simp only at he
    split at he
    · rcases Option.map_eq_some_iff.mp he with ⟨mBid, -, rfl⟩
      rfl
    · split at he
      · rcases Option.map_eq_some_iff.mp he with ⟨mAsk, -, rfl⟩
        rfl
      · cases he
        rfl

theorem mDepth_of_addAll {orders : List Order} (he : book.addAll orders = some book') :
    book'.mDepth = book.mDepth := by
  induction orders generalizing book with
  | nil =>
      cases he
      rfl
  | cons order orders ih =>
      rcases Option.bind_eq_some_iff.mp he with ⟨book₁, hadd, hrest⟩
      rw [ih hrest, mDepth_of_add hadd]

/-- The previous values of both sides are those the writes of the orders leave. -/
structure Recalls (book book' : OrderBook) (prices : Finset UInt64) (depth : Nat) (l : Ledger)
    (orders : List Order) : Prop where
  bids : ∀ p, book'.mBid.prevAt p = (LimitedMap.lastTouch (· > ·) prices depth l.bids
    (writes Order.BUY orders) p).getD (book.mBid.prevAt p)
  asks : ∀ p, book'.mAsk.prevAt p = (LimitedMap.lastTouch (· < ·) prices depth l.asks
    (writes Order.SELL orders) p).getD (book.mAsk.prevAt p)

theorem Refines.recalls_add (h : book.Refines depth l) {order : Order}
    (hnew : ¬ order.timestamp < l.last) (he : book.add order = some book')
    (hbids : ∀ q, l.bids q ≠ 0 → q ∈ prices) (hasks : ∀ q, l.asks q ≠ 0 → q ∈ prices)
    (hprice : order.price ∈ prices) : Recalls book book' prices depth l [order] := by
  unfold OrderBook.add at he
  rw [h.last, if_neg hnew] at he
  have hother {type : UInt64} (ht : order.type ≠ type) : writes type [order] = [] := by
    rw [writes, List.filter_cons_of_neg (by simpa using ht)]
    rfl
  have hsame {type : UInt64} (ht : order.type = type) :
      writes type [order] = [(order.price, order.amount)] := by
    rw [writes, List.filter_cons_of_pos (by simpa using ht)]
    rfl
  simp only at he
  by_cases hbuy : order.type = Order.BUY
  · have hsell : order.type ≠ Order.SELL := by
      rw [hbuy]
      decide
    rw [if_pos hbuy] at he
    rcases Option.map_eq_some_iff.mp he with ⟨mBid, hu, rfl⟩
    constructor
    · intro p
      rw [hsame hbuy]
      exact h.bids.prevAt_update hu hbids hprice p
    · intro p
      rw [hother hsell]
      rfl
  · rw [if_neg hbuy] at he
    by_cases hsell : order.type = Order.SELL
    · rw [if_pos hsell] at he
      rcases Option.map_eq_some_iff.mp he with ⟨mAsk, hu, rfl⟩
      constructor
      · intro p
        rw [hother hbuy]
        rfl
      · intro p
        rw [hsame hsell]
        exact h.asks.prevAt_update hu hasks hprice p
    · rw [if_neg hsell] at he
      cases he
      constructor
      · intro p
        rw [hother hbuy]
        rfl
      · intro p
        rw [hother hsell]
        rfl

theorem mem_prices_of_applyWrites {f : UInt64 → UInt64} {type : UInt64} {order : Order}
    (hf : ∀ q, f q ≠ 0 → q ∈ prices) (hprice : order.price ∈ prices) (q : UInt64)
    (hq : applyWrites f (writes type [order]) q ≠ 0) : q ∈ prices := by
  rw [applyWrites_apply] at hq
  cases hl : lastWrite (writes type [order]) q with
  | none =>
      rw [hl] at hq
      exact hf q hq
  | some a =>
      have hmem := mem_of_lastWrite_eq_some hl
      rcases List.mem_map.mp hmem with ⟨o, ho, heq⟩
      have ho := List.mem_singleton.mp (List.mem_filter.mp ho).1
      cases heq
      exact ho ▸ hprice

/-- So do orders that are let in one after the other. -/
theorem Refines.recalls_addAll (h : book.Refines depth l) {orders : List Order}
    (ht : ∀ o ∈ orders, o.timestamp = l.last) (he : book.addAll orders = some book')
    (hbids : ∀ q, l.bids q ≠ 0 → q ∈ prices) (hasks : ∀ q, l.asks q ≠ 0 → q ∈ prices)
    (hprices : ∀ o ∈ orders, o.price ∈ prices) : Recalls book book' prices depth l orders := by
  induction orders generalizing book l with
  | nil =>
      cases he
      exact ⟨fun p ↦ rfl, fun p ↦ rfl⟩
  | cons order orders ih =>
      rcases Option.bind_eq_some_iff.mp he with ⟨book₁, hadd, hrest⟩
      have htime := ht order List.mem_cons_self
      have hprice := hprices order List.mem_cons_self
      have hnew : ¬ order.timestamp < l.last := by
        rw [htime]
        exact lt_irrefl _
      have hfirst := h.recalls_add hnew hadd hbids hasks hprice
      rcases Ledger.add_writes hnew with ⟨hb, ha, hlast⟩
      have h₁ : book₁.Refines depth (l.add order) := by
        rcases h.add order with ⟨book₂, hadd₂, h₂⟩
        cases hadd₂.symm.trans hadd
        exact h₂
      have htimes : ∀ o ∈ orders, o.timestamp = (l.add order).last := by
        intro o ho
        rw [hlast, htime]
        exact ht o (List.mem_cons_of_mem _ ho)
      have hrecalls := ih h₁ htimes hrest
        (fun q hq ↦ mem_prices_of_applyWrites hbids hprice q (hb ▸ hq))
        (fun q hq ↦ mem_prices_of_applyWrites hasks hprice q (ha ▸ hq))
        (fun o ho ↦ hprices o (List.mem_cons_of_mem _ ho))
      have hcons (type : UInt64) :
          writes type (order :: orders) = writes type [order] ++ writes type orders :=
        writes_append type [order] orders
      constructor
      · intro p
        rw [hrecalls.bids, hfirst.bids, hcons, LimitedMap.lastTouch_append, hb, Option.getD_or]
      · intro p
        rw [hrecalls.asks, hfirst.asks, hcons, LimitedMap.lastTouch_append, ha, Option.getD_or]

end OrderBook

end Tob
