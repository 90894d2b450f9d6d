import Tob.Book.Chronology

/-!
# Batches

The orders of one message carry one timestamp.  As long as no two of them write to one level, the
order in which they are added does not show in the book.
-/

open OrderedContainer LastWrite

namespace Tob

/-- No two orders are for one price of one side. -/
def DistinctLevels (orders : List Order) : Prop :=
  orders.Pairwise fun a b ↦ ¬ (a.type = b.type ∧ a.price = b.price)

/-- Orders for different levels write to different prices of each side. -/
theorem DistinctLevels.nodup_writes {orders : List Order} (h : DistinctLevels orders)
    (type : UInt64) : ((writes type orders).map Prod.fst).Nodup := by
  rw [writes, List.map_map, List.Nodup, List.pairwise_map]
  apply (h.sublist List.filter_sublist).imp_of_mem
  intro a b ha hb hne hprice
  have hta : a.type = type := by simpa using (List.mem_filter.mp ha).2
  have htb : b.type = type := by simpa using (List.mem_filter.mp hb).2
  exact hne ⟨hta.trans htb.symm, hprice⟩

/-- A batch leaves the ledger the same in whatever order it is added. -/
theorem Ledger.addAll_eq_of_perm {xs ys : List Order} (hp : xs.Perm ys) {t : UInt64}
    (ht : ∀ o ∈ xs, o.timestamp = t) (hdistinct : DistinctLevels xs) (l : Ledger) :
    l.addAll xs = l.addAll ys := by
  have ht' : ∀ o ∈ ys, o.timestamp = t := fun o ho ↦ ht o (hp.mem_iff.mpr ho)
  have hx := addAll_writes (chronological_of_timestamp ht) l
  have hy := addAll_writes (chronological_of_timestamp ht') l
  -- what is let in depends on the timestamp only, and what it writes on no order
  have hside (type : UInt64) (f : UInt64 → UInt64) :
      applyWrites f (writes type (since l.last xs)) =
        applyWrites f (writes type (since l.last ys)) := by
    have hsince : DistinctLevels (since l.last xs) := hdistinct.sublist List.filter_sublist
    have hperm : (writes type (since l.last xs)).Perm (writes type (since l.last ys)) :=
      ((hp.filter _).filter _).map _
    funext p
    rw [applyWrites_apply, applyWrites_apply, lastWrite_perm hperm (hsince.nodup_writes type)]
  -- an empty batch leaves the timestamp alone
  have hlast : (l.addAll xs).last = (l.addAll ys).last := by
    by_cases hxs : xs = []
    · subst hxs
      rw [List.nil_perm.mp hp]
    · have hys : ys ≠ [] := fun hys ↦ hxs (List.perm_nil.mp (hys ▸ hp))
      rw [addAll_last_of_timestamp ht hxs, addAll_last_of_timestamp ht' hys]
  have hbids : (l.addAll xs).bids = (l.addAll ys).bids := by rw [hx.1, hy.1, hside]
  have hasks : (l.addAll xs).asks = (l.addAll ys).asks := by rw [hx.2, hy.2, hside]
  exact Ledger.ext hbids hasks hlast

namespace OrderBook

/-- Books that stand for one ledger show the same. -/
theorem Refines.same {book book' : OrderBook} {depth : Nat} {l : Ledger}
    (h : book.Refines depth l) (h' : book'.Refines depth l) :
    book.mBid.levels = book'.mBid.levels ∧ book.mAsk.levels = book'.mAsk.levels ∧
      book.mBid.visibleLevels = book'.mBid.visibleLevels ∧
      book.mAsk.visibleLevels = book'.mAsk.visibleLevels ∧
      book.getLastTimestamp = book'.getLastTimestamp := by
  have hbids := h.bids.levels_eq h'.bids
  have hasks := h.asks.levels_eq h'.asks
  refine ⟨hbids, hasks, ?_, ?_, h.last.trans h'.last.symm⟩
  · rw [h.bids.visibleLevels_eq_take, h'.bids.visibleLevels_eq_take, hbids]
  · rw [h.asks.visibleLevels_eq_take, h'.asks.visibleLevels_eq_take, hasks]

/-- A batch leaves the same levels, the same window and the same timestamp in whatever order it is
added to a book. -/
theorem addAll_perm {depth : Nat} {calls : List BookCall} {book : OrderBook}
    (hrun : (new depth).run calls = some book) {xs ys : List Order} (hp : xs.Perm ys)
    {t : UInt64} (ht : ∀ o ∈ xs, o.timestamp = t) (hdistinct : DistinctLevels xs) :
    ∃ book₁ book₂, book.addAll xs = some book₁ ∧ book.addAll ys = some book₂ ∧
      book₁.mBid.levels = book₂.mBid.levels ∧ book₁.mAsk.levels = book₂.mAsk.levels ∧
      book₁.mBid.visibleLevels = book₂.mBid.visibleLevels ∧
      book₁.mAsk.visibleLevels = book₂.mAsk.visibleLevels ∧
      book₁.getLastTimestamp = book₂.getLastTimestamp := by
  rcases (refines_new depth).of_run hrun with ⟨l, h⟩
  rcases h.addAll xs with ⟨book₁, he₁, h₁⟩
  rcases h.addAll ys with ⟨book₂, he₂, h₂⟩
  rw [← Ledger.addAll_eq_of_perm hp ht hdistinct l] at h₂
  exact ⟨book₁, book₂, he₁, he₂, h₁.same h₂⟩

/-- The asks of a message before its bids, in a book where one of them takes a level away. -/
theorem addAll_perm_example :
    let xs : List Order := [⟨Order.BUY, 4, 7, 0⟩, ⟨Order.BUY, 4, 6, 2⟩, ⟨Order.SELL, 4, 7, 1⟩]
    let ys : List Order := [⟨Order.SELL, 4, 7, 1⟩, ⟨Order.BUY, 4, 7, 0⟩, ⟨Order.BUY, 4, 6, 2⟩]
    ∃ book book₁ book₂, (new 1).run [.add ⟨Order.BUY, 3, 7, 5⟩] = some book ∧
      book.addAll xs = some book₁ ∧ book.addAll ys = some book₂ ∧
      book₁.mBid.visibleLevels = book₂.mBid.visibleLevels := by
  intro xs ys
  have hp : xs.Perm ys := by decide
  have ht : ∀ o ∈ xs, o.timestamp = 4 := by decide
  have hdistinct : DistinctLevels xs := by
    unfold DistinctLevels
    decide
  have hrun : ∃ book, (new 1).run [.add ⟨Order.BUY, 3, 7, 5⟩] = some book := ⟨_, rfl⟩
  rcases hrun with ⟨book, hrun⟩
  rcases addAll_perm hrun hp ht hdistinct with ⟨book₁, book₂, he₁, he₂, -, -, hbids, -⟩
  exact ⟨book, book₁, book₂, hrun, he₁, he₂, hbids⟩

end OrderBook

end Tob
