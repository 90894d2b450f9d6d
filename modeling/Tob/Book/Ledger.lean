import Tob.Library.Writes
import Tob.Book.OrderBook
import Tob.Book.Window

/-!
# The ledger behind the book

What the order book is for: on each side the last amount written to a price, where zero means that
there is no level, and the timestamp of the last order let in.  The order book refines it.
-/

open OrderedContainer LastWrite

namespace Tob

@[ext]
structure Ledger where
  bids : UInt64 → UInt64
  asks : UInt64 → UInt64
  last : UInt64

namespace Ledger

def empty : Ledger := ⟨fun _ ↦ 0, fun _ ↦ 0, 0⟩

def add (l : Ledger) (order : Order) : Ledger :=
  if order.timestamp < l.last then l
  else
    { bids := if order.type = Order.BUY then Function.update l.bids order.price order.amount
        else l.bids
      asks := if order.type = Order.SELL then Function.update l.asks order.price order.amount
        else l.asks
      last := order.timestamp }

def addAll (l : Ledger) (orders : List Order) : Ledger := orders.foldl add l

theorem addAll_append (l : Ledger) (xs ys : List Order) :
    l.addAll (xs ++ ys) = (l.addAll xs).addAll ys := List.foldl_append ..

end Ledger

/-! ## One side -/

namespace LimitedMap

section Frame

variable {κ ν : Type} [DecidableEq κ] {lt : κ → κ → Prop}

/-- Two maps that differ in previous values only. -/
structure SameLevels (m m' : LimitedMap κ ν lt) : Prop where
  keys : m'.mMap.keys = m.mMap.keys
  mEnd : m'.mEnd = m.mEnd
  depth : m'.mDepth = m.mDepth
  values : ∀ k, m'.valueAt k = m.valueAt k

theorem SameLevels.refl (m : LimitedMap κ ν lt) : SameLevels m m := ⟨rfl, rfl, rfl, fun _ ↦ rfl⟩

theorem SameLevels.trans {m₁ m₂ m₃ : LimitedMap κ ν lt} (h : SameLevels m₁ m₂)
    (h' : SameLevels m₂ m₃) : SameLevels m₁ m₃ :=
  ⟨h'.keys.trans h.keys, h'.mEnd.trans h.mEnd, h'.depth.trans h.depth,
    fun k ↦ (h'.values k).trans (h.values k)⟩

theorem SameLevels.window {m m' : LimitedMap κ ν lt} (h : SameLevels m m') (hm : m.Window) :
    m'.Window := by
  rw [Window, h.mEnd, h.depth, h.keys]
  exact hm

end Frame

variable {lt : UInt64 → UInt64 → Prop}

/-- The levels of a side, best first. -/
def levels (m : LimitedMap UInt64 UInt64 lt) : List (UInt64 × UInt64) :=
  m.mMap.entries.map fun e ↦ (e.1, e.2.value)

/-- The visible levels of a side, best first. -/
def visibleLevels (m : LimitedMap UInt64 UInt64 lt) : List (UInt64 × UInt64) :=
  m.visible.map fun e ↦ (e.1, e.2.value)

/-- The map keeps its window and holds exactly the non-zero amounts of `f`. -/
structure Holds (m : LimitedMap UInt64 UInt64 lt) (depth : Nat) (f : UInt64 → UInt64) : Prop where
  window : m.Window
  depth : m.mDepth = depth
  values : ∀ k, m.valueAt k = if f k = 0 then none else some (f k)

theorem holds_new (depth : Nat) :
    (new depth : LimitedMap UInt64 UInt64 lt).Holds depth fun _ ↦ 0 :=
  ⟨window_new depth, rfl, fun _ ↦ rfl⟩

theorem Holds.clear {m : LimitedMap UInt64 UInt64 lt} {depth : Nat} {f : UInt64 → UInt64}
    (h : m.Holds depth f) : m.clear.Holds depth fun _ ↦ 0 :=
  ⟨window_clear m, h.depth, fun _ ↦ rfl⟩

theorem Holds.sameLevels {m m' : LimitedMap UInt64 UInt64 lt} {depth : Nat}
    {f : UInt64 → UInt64} (h : m.Holds depth f) (hs : SameLevels m m') : m'.Holds depth f :=
  ⟨hs.window h.window, hs.depth.trans h.depth, fun k ↦ (hs.values k).trans (h.values k)⟩

theorem Holds.valueAt_eq_some_iff {m : LimitedMap UInt64 UInt64 lt} {depth : Nat}
    {f : UInt64 → UInt64} (h : m.Holds depth f) {k v : UInt64} :
    m.valueAt k = some v ↔ f k = v ∧ v ≠ 0 := by
  rw [h.values]
  by_cases hz : f k = 0
  · rw [if_pos hz, hz]
    exact ⟨fun he ↦ (Option.some_ne_none v he.symm).elim, fun he ↦ absurd he.1.symm he.2⟩
  · rw [if_neg hz, Option.some_inj]
    exact ⟨fun he ↦ ⟨he, he ▸ hz⟩, fun he ↦ he.1⟩

variable [IsStrictTotalOrder UInt64 lt]

theorem Holds.mem_keys_iff {m : LimitedMap UInt64 UInt64 lt} {depth : Nat}
    {f : UInt64 → UInt64} (h : m.Holds depth f) {k : UInt64} : k ∈ m.mMap.keys ↔ f k ≠ 0 := by
  rw [OrderedMap.mem_keys_iff]
  have hv : (∃ v, m.mMap.lookup k = some v) ↔ ∃ v, m.valueAt k = some v := by
    simp [valueAt]
  rw [hv]
  simp only [h.valueAt_eq_some_iff]
  apply Iff.intro
  · rintro ⟨v, hv, hne⟩
    rw [hv]
    exact hne
  · exact fun hne ↦ ⟨_, rfl, hne⟩

theorem Holds.isEmpty_iff {m : LimitedMap UInt64 UInt64 lt} {depth : Nat}
    {f : UInt64 → UInt64} (h : m.Holds depth f) : m.isEmpty = true ↔ ∀ k, f k = 0 := by
  rw [isEmpty, OrderedMap.isEmpty, List.isEmpty_iff]
  have hkeys : m.mMap.entries = [] ↔ m.mMap.keys = [] := by simp [OrderedMap.keys]
  rw [hkeys, List.eq_nil_iff_forall_not_mem]
  exact forall_congr' fun k ↦ by rw [h.mem_keys_iff, not_not]

/-- The levels of a side depend on the amounts it holds only. -/
theorem Holds.levels_eq {m m' : LimitedMap UInt64 UInt64 lt} {depth depth' : Nat}
    {f : UInt64 → UInt64} (h : m.Holds depth f) (h' : m'.Holds depth' f) : m.levels = m'.levels :=
  OrderedMap.entries_map_eq_of_lookup Payload.value fun k ↦
    (h.values k).trans (h'.values k).symm

theorem Holds.levels_eq_map {m : LimitedMap UInt64 UInt64 lt} {depth : Nat}
    {f : UInt64 → UInt64} (h : m.Holds depth f) : m.levels = m.mMap.keys.map fun p ↦ (p, f p) := by
  rw [levels, OrderedMap.keys, List.map_map]
  apply List.map_congr_left
  intro e he
  have hv : m.valueAt e.1 = some e.2.value := by
    rw [valueAt, OrderedMap.lookup_eq_some_iff.mpr he]; rfl
  rw [Function.comp_apply, (h.valueAt_eq_some_iff.mp hv).1]

theorem Holds.map_fst_levels {m : LimitedMap UInt64 UInt64 lt} {depth : Nat}
    {f : UInt64 → UInt64} (h : m.Holds depth f) : m.levels.map Prod.fst = m.mMap.keys := by
  rw [h.levels_eq_map, List.map_map]
  exact List.map_id' _

theorem Holds.mem_levels_iff {m : LimitedMap UInt64 UInt64 lt} {depth : Nat}
    {f : UInt64 → UInt64} (h : m.Holds depth f) {p a : UInt64} :
    (p, a) ∈ m.levels ↔ f p = a ∧ a ≠ 0 := by
  rw [h.levels_eq_map, List.mem_map]
  apply Iff.intro
  · rintro ⟨k, hk, heq⟩
    rcases Prod.mk.inj heq with ⟨rfl, rfl⟩
    exact ⟨rfl, h.mem_keys_iff.mp hk⟩
  · rintro ⟨rfl, ha⟩
    exact ⟨p, h.mem_keys_iff.mpr ha, rfl⟩

/-- The prices of a side are the prices with an amount, in the order of the side. -/
theorem Holds.keys_eq_sort {m : LimitedMap UInt64 UInt64 lt} {depth : Nat} {f : UInt64 → UInt64}
    (h : m.Holds depth f) {s : Finset UInt64} (hs : ∀ p, p ∈ s ↔ f p ≠ 0)
    (r : UInt64 → UInt64 → Prop) [DecidableRel r] [IsTrans UInt64 r] [Std.Antisymm r]
    [Std.Total r] (hr : ∀ a b, lt a b → r a b) : m.mMap.keys = s.sort r := by
  have hset : m.mMap.keys.toFinset = s := by
    ext p
    rw [List.mem_toFinset, h.mem_keys_iff, hs]
  rw [← hset, eq_comm, List.toFinset_sort r m.mMap.nodup_keys]
  exact m.mMap.sorted_keys.imp fun {a b} hab ↦ hr a b hab

theorem Holds.visibleLevels_eq_take {m : LimitedMap UInt64 UInt64 lt} {depth : Nat}
    {f : UInt64 → UInt64} (h : m.Holds depth f) : m.visibleLevels = m.levels.take depth := by
  rw [visibleLevels, visible_eq_take h.window, levels, h.depth, List.map_take]

theorem Holds.update [DecidableRel lt] {m : LimitedMap UInt64 UInt64 lt} {depth : Nat}
    {f : UInt64 → UInt64} (h : m.Holds depth f) (order : Order) :
    ∃ m', Tob.update m order = some m' ∧
      m'.Holds depth (Function.update f order.price order.amount) := by
  have key : ∀ {m' : LimitedMap UInt64 UInt64 lt} {value : Option UInt64},
      Writes m m' order.price value →
      value = (if order.amount = 0 then none else some order.amount) →
      m'.Holds depth (Function.update f order.price order.amount) := by
    intro m' value hw hv
    refine ⟨hw.window, hw.depth.trans h.depth, fun k ↦ ?_⟩
    rw [hw.values]
    by_cases hk : k = order.price
    · rw [if_pos hk, hv, hk, Function.update_self]
    · rw [if_neg hk, h.values, Function.update_of_ne hk]
  unfold Tob.update
  by_cases hz : order.amount = 0
  · rcases erase_writes h.window order.price with ⟨m', he, hw⟩
    rw [if_pos hz, he]
    exact ⟨m', rfl, key hw (by rw [if_pos hz])⟩
  · rcases update_writes h.window order.price order.amount with ⟨m', he, hw⟩
    rw [if_neg hz, he]
    exact ⟨m', rfl, key hw (by rw [if_neg hz])⟩

end LimitedMap

/-! ## The book -/

namespace OrderBook

/-- The book stands for the ledger `l`. -/
structure Refines (book : OrderBook) (depth : Nat) (l : Ledger) : Prop where
  bids : book.mBid.Holds depth l.bids
  asks : book.mAsk.Holds depth l.asks
  last : book.mLastTimestamp = l.last

theorem refines_new (depth : Nat) : (new depth).Refines depth .empty :=
  ⟨LimitedMap.holds_new depth, LimitedMap.holds_new depth, rfl⟩

theorem Refines.clear {book : OrderBook} {depth : Nat} {l : Ledger} (h : book.Refines depth l) :
    book.clear.Refines depth .empty :=
  ⟨h.bids.clear, h.asks.clear, rfl⟩

theorem Refines.add {book : OrderBook} {depth : Nat} {l : Ledger} (h : book.Refines depth l)
    (order : Order) : ∃ book', book.add order = some book' ∧ book'.Refines depth (l.add order) := by
  unfold OrderBook.add Ledger.add
  rw [h.last]
  by_cases hold : order.timestamp < l.last
  · rw [if_pos hold, if_pos hold]
    exact ⟨book, rfl, h⟩
  · rw [if_neg hold, if_neg hold]
    by_cases hbuy : order.type = Order.BUY
    · have hsell : order.type ≠ Order.SELL := by rw [hbuy]; decide
      rcases h.bids.update order with ⟨mBid, he, hb⟩
      simp only [if_pos hbuy, if_neg hsell, he, Option.map_some]
      exact ⟨_, rfl, hb, h.asks, rfl⟩
    · by_cases hsell : order.type = Order.SELL
      · rcases h.asks.update order with ⟨mAsk, he, ha⟩
        simp only [if_neg hbuy, if_pos hsell, he, Option.map_some]
        exact ⟨_, rfl, h.bids, ha, rfl⟩
      · simp only [if_neg hbuy, if_neg hsell]
        exact ⟨_, rfl, h.bids, h.asks, rfl⟩

theorem Refines.addAll {book : OrderBook} {depth : Nat} {l : Ledger} (h : book.Refines depth l)
    (orders : List Order) :
    ∃ book', book.addAll orders = some book' ∧ book'.Refines depth (l.addAll orders) := by
  induction orders generalizing book l with
  | nil => exact ⟨book, rfl, h⟩
  | cons order orders ih =>
      rcases h.add order with ⟨book', he, h'⟩
      rcases ih h' with ⟨book'', he', h''⟩
      exact ⟨book'', by rw [OrderBook.addAll, he, Option.bind_some, he'], h''⟩

theorem Refines.toBool_iff {book : OrderBook} {depth : Nat} {l : Ledger}
    (h : book.Refines depth l) :
    book.toBool = true ↔ ∃ p, l.bids p ≠ 0 ∨ l.asks p ≠ 0 := by
  have hb := h.bids.isEmpty_iff
  have ha := h.asks.isEmpty_iff
  rw [toBool, Bool.or_eq_true, Bool.not_eq_true', Bool.not_eq_true', ← Bool.not_eq_true,
    ← Bool.not_eq_true, hb, ha, not_forall, not_forall, exists_or]

end OrderBook

end Tob
