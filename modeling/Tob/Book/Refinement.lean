import Tob.Book.Print

/-!
# Runs of the book

Any sequence of `add`, `clear` and `print` leaves the book that the last accepted writes describe.
-/

open OrderedContainer LastWrite

namespace Tob

inductive BookCall where
  | add (order : Order)
  | clear
  | print
  deriving DecidableEq, Repr

/-- The orders accepted since the last `clear`, oldest first. -/
def accept (acc : List Order) : BookCall → List Order
  | .add order => if ∀ a ∈ acc, a.timestamp ≤ order.timestamp then acc ++ [order] else acc
  | .clear => []
  | .print => acc

def accepted (calls : List BookCall) : List Order := calls.foldl accept []

/-- What the orders of one type write, price by price. -/
def writes (type : UInt64) (orders : List Order) : List (UInt64 × UInt64) :=
  (orders.filter fun o ↦ o.type = type).map fun o ↦ (o.price, o.amount)

/-- The amount of the last order of a type at a price. -/
def lastAmount (type : UInt64) (orders : List Order) (price : UInt64) : Option UInt64 :=
  lastWrite (writes type orders) price

/-- The prices whose last order of a type has a non-zero amount. -/
def levelPrices (type : UInt64) (orders : List Order) : Finset UInt64 :=
  (orders.map Order.price).toFinset.filter fun p ↦ (lastAmount type orders p).getD 0 ≠ 0

def lastTimestamp (orders : List Order) : UInt64 := (orders.getLast?.map Order.timestamp).getD 0

theorem mem_levelPrices {type : UInt64} {orders : List Order} {p : UInt64} :
    p ∈ levelPrices type orders ↔ (lastAmount type orders p).getD 0 ≠ 0 := by
  rw [levelPrices, Finset.mem_filter, List.mem_toFinset]
  refine ⟨fun h ↦ h.2, fun h ↦ ⟨?_, h⟩⟩
  cases hl : lastAmount type orders p with
  | none => simp [hl] at h
  | some a =>
      have hmem := mem_of_lastWrite_eq_some hl
      rw [writes, List.mem_map] at hmem
      rcases hmem with ⟨o, ho, heq⟩
      exact List.mem_map.mpr ⟨o, (List.mem_filter.mp ho).1, (Prod.mk.inj heq).1⟩

theorem lastAmount_concat (type : UInt64) (orders : List Order) (order : Order) (p : UInt64) :
    lastAmount type (orders ++ [order]) p =
      if order.type = type ∧ order.price = p then some order.amount
      else lastAmount type orders p := by
  unfold lastAmount writes
  rw [List.filter_append, List.map_append]
  by_cases ht : order.type = type
  · rw [List.filter_cons_of_pos (by simpa using ht), List.filter_nil, List.map_singleton,
      lastWrite_concat]
    simp [ht]
  · rw [List.filter_cons_of_neg (by simpa using ht), List.filter_nil, List.map_nil,
      List.append_nil]
    simp [ht]

namespace Ledger

/-- The ledger that a list of accepted orders leaves. -/
def ofAccepted (acc : List Order) : Ledger where
  bids p := (lastAmount Order.BUY acc p).getD 0
  asks p := (lastAmount Order.SELL acc p).getD 0
  last := lastTimestamp acc

/-- No accepted order is later than the last one. -/
def InOrder (acc : List Order) : Prop := ∀ a ∈ acc, a.timestamp ≤ lastTimestamp acc

theorem lastTimestamp_concat (acc : List Order) (order : Order) :
    lastTimestamp (acc ++ [order]) = order.timestamp := by
  rw [lastTimestamp, List.getLast?_concat]; rfl

theorem lastTimestamp_le_iff {acc : List Order} (hacc : InOrder acc) (t : UInt64) :
    lastTimestamp acc ≤ t ↔ ∀ a ∈ acc, a.timestamp ≤ t := by
  refine ⟨fun h a ha ↦ le_trans (hacc a ha) h, fun h ↦ ?_⟩
  cases hl : acc.getLast? with
  | none =>
      rw [lastTimestamp, hl]
      exact UInt64.le_iff_toNat_le.mpr (Nat.zero_le _)
  | some a =>
      rw [lastTimestamp, hl]
      exact h a (List.mem_of_getLast? hl)

theorem update_lastAmount (type : UInt64) (acc : List Order) (order : Order) :
    (if order.type = type then
      Function.update (fun p ↦ (lastAmount type acc p).getD 0) order.price order.amount
    else fun p ↦ (lastAmount type acc p).getD 0) =
      fun p ↦ (lastAmount type (acc ++ [order]) p).getD 0 := by
  funext p
  rw [lastAmount_concat]
  by_cases ht : order.type = type
  · rw [if_pos ht]
    by_cases hp : order.price = p
    · rw [if_pos ⟨ht, hp⟩, ← hp, Function.update_self]; rfl
    · rw [if_neg (fun h ↦ hp h.2), Function.update_of_ne (Ne.symm hp)]
  · rw [if_neg ht, if_neg (fun h ↦ ht h.1)]

/-- One order moves the ledger the way `accept` moves the accepted orders. -/
theorem ofAccepted_add {acc : List Order} (hacc : InOrder acc) (order : Order) :
    (ofAccepted acc).add order = ofAccepted (accept acc (.add order)) ∧
      InOrder (accept acc (.add order)) := by
  have hiff := lastTimestamp_le_iff hacc order.timestamp
  rw [Ledger.add, accept]
  by_cases hold : order.timestamp < lastTimestamp acc
  · have hno : ¬ ∀ a ∈ acc, a.timestamp ≤ order.timestamp :=
      fun h ↦ absurd (hiff.mpr h) (not_le.mpr hold)
    rw [if_neg hno]
    exact ⟨if_pos hold, hacc⟩
  · have hall := hiff.mp (not_lt.mp hold)
    rw [if_pos hall]
    constructor
    · rw [show (ofAccepted acc).last = lastTimestamp acc from rfl, if_neg hold, ofAccepted,
        ofAccepted, lastTimestamp_concat, ← update_lastAmount, ← update_lastAmount]
    · intro a ha
      rw [lastTimestamp_concat]
      rcases List.mem_append.mp ha with ha | ha
      · exact hall a ha
      · rw [List.mem_singleton.mp ha]

end Ledger

namespace OrderBook

def call (book : OrderBook) : BookCall → Option OrderBook
  | .add order => book.add order
  | .clear => some book.clear
  | .print => book.print.map Prod.fst

def run (book : OrderBook) : List BookCall → Option OrderBook
  | [] => some book
  | c :: calls => (book.call c).bind fun book ↦ book.run calls

/-- Every `print` of the run comes where at least one ask is visible. -/
def Printable (book : OrderBook) : List BookCall → Prop
  | [] => True
  | c :: calls => (c = .print → book.mAsk.visible ≠ []) ∧
      ∀ book', book.call c = some book' → Printable book' calls

/-- One call takes the book from the accepted orders before it to those after it. -/
theorem Refines.call {book : OrderBook} {depth : Nat} {acc : List Order}
    (h : book.Refines depth (.ofAccepted acc)) (hacc : Ledger.InOrder acc) (c : BookCall)
    (hprint : c = .print → book.mAsk.visible ≠ []) :
    ∃ book', book.call c = some book' ∧ book'.Refines depth (.ofAccepted (accept acc c)) ∧
      Ledger.InOrder (accept acc c) := by
  cases c with
  | add order =>
      rcases Ledger.ofAccepted_add hacc order with ⟨hl, hacc'⟩
      rcases h.add order with ⟨book', he, h'⟩
      exact ⟨book', he, hl ▸ h', hacc'⟩
  | clear => exact ⟨book.clear, rfl, h.clear, fun a ha ↦ absurd ha List.not_mem_nil⟩
  | print =>
      rcases h.print (hprint rfl) with ⟨book', out, he, h'⟩
      exact ⟨book', by rw [OrderBook.call, he, Option.map_some], h', hacc⟩

theorem Refines.run {book : OrderBook} {depth : Nat} {acc : List Order}
    (h : book.Refines depth (.ofAccepted acc)) (hacc : Ledger.InOrder acc) {calls : List BookCall}
    (hprint : book.Printable calls) :
    ∃ book', book.run calls = some book' ∧
      book'.Refines depth (.ofAccepted (calls.foldl accept acc)) := by
  induction calls generalizing book acc with
  | nil => exact ⟨book, rfl, h⟩
  | cons c calls ih =>
      rcases h.call hacc c hprint.1 with ⟨book₁, he, h₁, hacc₁⟩
      rcases ih h₁ hacc₁ (hprint.2 book₁ he) with ⟨book', he', h'⟩
      exact ⟨book', by rw [OrderBook.run, he, Option.bind_some, he'], h'⟩

/-- Whatever a run has done, the book it leaves stands for some ledger. -/
theorem Refines.of_run {book book' : OrderBook} {depth : Nat} {l : Ledger}
    (h : book.Refines depth l) {calls : List BookCall} (hrun : book.run calls = some book') :
    ∃ l', book'.Refines depth l' := by
  induction calls generalizing book l with
  | nil =>
      cases hrun
      exact ⟨l, h⟩
  | cons c calls ih =>
      rcases Option.bind_eq_some_iff.mp hrun with ⟨book₁, hcall, hrest⟩
      cases c with
      | add order =>
          rcases h.add order with ⟨book₂, he, h₂⟩
          cases he.symm.trans hcall
          exact ih h₂ hrest
      | clear =>
          cases hcall
          exact ih h.clear hrest
      | print =>
          rcases Option.map_eq_some_iff.mp hcall with ⟨⟨book₂, out⟩, hprint, rfl⟩
          exact ih (h.of_print hprint) hrest

/-- The window of a side that holds the last amounts: its first `depth` prices in order. -/
theorem visibleLevels_of_holds {lt : UInt64 → UInt64 → Prop} [IsStrictTotalOrder UInt64 lt]
    {side : LimitedMap UInt64 UInt64 lt} {depth : Nat} {type : UInt64} {acc : List Order}
    (h : side.Holds depth fun p ↦ (lastAmount type acc p).getD 0)
    (r : UInt64 → UInt64 → Prop) [DecidableRel r] [IsTrans UInt64 r] [Std.Antisymm r]
    [Std.Total r] (hr : ∀ a b, lt a b → r a b) :
    side.visibleLevels = (((levelPrices type acc).sort r).take depth).map
      fun p ↦ (p, (lastAmount type acc p).getD 0) := by
  rw [h.visibleLevels_eq_take, h.levels_eq_map, h.keys_eq_sort (fun _ ↦ mem_levelPrices) r hr,
    List.map_take]

theorem valueAt_iff_of_holds {lt : UInt64 → UInt64 → Prop}
    {side : LimitedMap UInt64 UInt64 lt} {depth : Nat} {type : UInt64} {acc : List Order}
    (h : side.Holds depth fun p ↦ (lastAmount type acc p).getD 0) (p a : UInt64) :
    side.valueAt p = some a ↔ lastAmount type acc p = some a ∧ a ≠ 0 := by
  rw [h.valueAt_eq_some_iff]
  cases lastAmount type acc p with
  | none => exact ⟨fun h ↦ absurd h.1.symm h.2, fun h ↦ (Option.some_ne_none a h.1.symm).elim⟩
  | some b => rw [Option.getD_some, Option.some_inj]

/-- The order book is the last-write-wins book of the accepted orders, with the best `depth` prices
of each side in its window, after every run of its member functions. -/
theorem run_lastWriteWins (depth : Nat) (calls : List BookCall)
    (hprint : (new depth).Printable calls) :
    ∃ book, (new depth).run calls = some book ∧
      (∀ p a, book.mBid.valueAt p = some a ↔
        lastAmount Order.BUY (accepted calls) p = some a ∧ a ≠ 0) ∧
      (∀ p a, book.mAsk.valueAt p = some a ↔
        lastAmount Order.SELL (accepted calls) p = some a ∧ a ≠ 0) ∧
      book.mBid.visibleLevels =
        (((levelPrices Order.BUY (accepted calls)).sort (· ≥ ·)).take depth).map
          (fun p ↦ (p, (lastAmount Order.BUY (accepted calls) p).getD 0)) ∧
      book.mAsk.visibleLevels =
        (((levelPrices Order.SELL (accepted calls)).sort (· ≤ ·)).take depth).map
          (fun p ↦ (p, (lastAmount Order.SELL (accepted calls) p).getD 0)) ∧
      book.getLastTimestamp = lastTimestamp (accepted calls) ∧
      (book.toBool = true ↔ (levelPrices Order.BUY (accepted calls)).Nonempty ∨
        (levelPrices Order.SELL (accepted calls)).Nonempty) := by
  have hstart : (new depth).Refines depth (.ofAccepted []) := refines_new depth
  rcases hstart.run (fun a ha ↦ absurd ha List.not_mem_nil) hprint with ⟨book, he, h⟩
  refine ⟨book, he, valueAt_iff_of_holds h.bids, valueAt_iff_of_holds h.asks,
    visibleLevels_of_holds h.bids _ fun a b hab ↦ le_of_lt hab,
    visibleLevels_of_holds h.asks _ fun a b hab ↦ le_of_lt hab, h.last, ?_⟩
  rw [h.toBool_iff, exists_or]
  simp only [Finset.Nonempty, mem_levelPrices]
  rfl

/-- A run with a deletion, a stale order, a print and a clear in it. -/
theorem run_lastWriteWins_example :
    let calls : List BookCall := [.add ⟨Order.SELL, 5, 7, 2⟩, .add ⟨Order.BUY, 6, 3, 1⟩,
      .add ⟨Order.SELL, 4, 7, 0⟩, .print, .clear, .add ⟨Order.BUY, 1, 3, 9⟩]
    (new 1).Printable calls ∧ ∃ book, (new 1).run calls = some book ∧
      ∀ p a, book.mBid.valueAt p = some a ↔
        lastAmount Order.BUY (accepted calls) p = some a ∧ a ≠ 0 := by
  intro calls
  have hp : (new 1).Printable calls := by
    simp only [calls, Printable]
    refine ⟨by simp, fun b₁ h₁ ↦ ⟨by simp, fun b₂ h₂ ↦ ⟨by simp, fun b₃ h₃ ↦
      ⟨fun _ ↦ ?_, fun b₄ _ ↦ ⟨by simp, fun b₅ _ ↦ ⟨by simp, fun _ _ ↦ trivial⟩⟩⟩⟩⟩⟩
    cases h₁
    cases h₂
    cases h₃
    decide
  rcases run_lastWriteWins 1 calls hp with ⟨book, he, hb, -⟩
  exact ⟨hp, book, he, hb⟩

end OrderBook

end Tob
