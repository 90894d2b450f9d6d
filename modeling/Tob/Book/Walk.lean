import Tob.Book.Highlight

/-!
# What a print walks over

The asks are walked back from the window's end by a loop that steps before it tests, so it needs an
ask to step to.  The test of `main` is content with a bid.
-/

open OrderedContainer

namespace Tob

namespace LimitedMap

variable {lt : UInt64 → UInt64 → Prop} [IsStrictTotalOrder UInt64 lt]

theorem map_fst_visibleLevels {side : LimitedMap UInt64 UInt64 lt} (hw : side.Window) :
    side.visibleLevels.map Prod.fst = side.mMap.keys.take side.mDepth := by
  rw [visibleLevels, visible_eq_take hw, List.map_map, OrderedMap.keys, ← List.map_take]
  rfl

theorem pairwise_visibleLevels {side : LimitedMap UInt64 UInt64 lt} (hw : side.Window) :
    (side.visibleLevels.map Prod.fst).Pairwise lt := by
  rw [map_fst_visibleLevels hw]
  exact side.mMap.sorted_keys.sublist (List.take_sublist _ _)

theorem visible_ne_nil_iff {side : LimitedMap UInt64 UInt64 lt} (hw : side.Window)
    (hdepth : 1 ≤ side.mDepth) : side.visible ≠ [] ↔ side.isEmpty = false := by
  have hd : side.mDepth ≠ 0 := by omega
  rw [visible_eq_take hw, ne_eq, List.take_eq_nil_iff, isEmpty, OrderedMap.isEmpty,
    List.isEmpty_eq_false_iff]
  simp only [hd, false_or, ne_eq]

end LimitedMap

namespace OrderBook

/-- `print` is defined: it writes the visible asks and then the visible bids, each of them once and
from the highest price down. -/
def PrintsVisible (book : OrderBook) : Prop :=
  ∃ book' asks bids, book.print = some (book', asks, bids) ∧
    asks.map PrintedLevel.level = book.mAsk.visibleLevels.reverse ∧
    bids.map PrintedLevel.level = book.mBid.visibleLevels ∧
    (asks.map PrintedLevel.price).Pairwise (· > ·) ∧
    (bids.map PrintedLevel.price).Pairwise (· > ·)

theorem Refines.printsVisible {book : OrderBook} {depth : Nat} {l : Ledger}
    (h : book.Refines depth l) (hask : book.mAsk.visible ≠ []) : book.PrintsVisible := by
  rcases print_eq h.bids.window h.asks.window hask with ⟨mBid, mAsk, hprint, -, -⟩
  have hasks := h.asks.level_lines askHighlight
  have hbids := h.bids.level_lines bidHighlight
  have hprice (lines : List PrintedLevel) :
      lines.map PrintedLevel.price = (lines.map PrintedLevel.level).map Prod.fst := by
    rw [List.map_map]
    rfl
  -- the asks come out in reverse, so their prices fall as the bids' do
  refine ⟨_, _, _, hprint, ?_, hbids, ?_, ?_⟩
  · rw [List.map_reverse, List.map_reverse, hasks]
  · rw [hprice, List.map_reverse, List.map_reverse, hasks, List.map_reverse, List.pairwise_reverse]
    exact LimitedMap.pairwise_visibleLevels h.asks.window
  · rw [hprice, hbids]
    exact LimitedMap.pairwise_visibleLevels h.bids.window

/-- In every book that a run leaves, `print` walks over the visible levels if and only if there is
an ask. -/
theorem printsVisible_iff {depth : Nat} (hdepth : 1 ≤ depth) {calls : List BookCall}
    {book : OrderBook} (hrun : (new depth).run calls = some book) :
    book.PrintsVisible ↔ book.mAsk.isEmpty = false := by
  rcases (refines_new depth).of_run hrun with ⟨l, h⟩
  rw [← LimitedMap.visible_ne_nil_iff h.asks.window (h.asks.depth ▸ hdepth)]
  apply Iff.intro
  · intro hvisible
    rcases hvisible with ⟨book', asks, bids, hprint, -⟩
    exact print_visible h.asks.window hprint
  · exact h.printsVisible

theorem printsVisible_iff_example :
    ∃ book, (new 1).run [.add ⟨Order.SELL, 1, 9, 2⟩, .add ⟨Order.SELL, 1, 7, 5⟩] = some book ∧
      book.mAsk.isEmpty = false ∧ book.PrintsVisible := by
  have hrun : ∃ book,
      (new 1).run [.add ⟨Order.SELL, 1, 9, 2⟩, .add ⟨Order.SELL, 1, 7, 5⟩] = some book := ⟨_, rfl⟩
  rcases hrun with ⟨book, hrun⟩
  have hask : book.mAsk.isEmpty = false := by
    cases hrun
    rfl
  exact ⟨book, hrun, hask, (printsVisible_iff (le_refl 1) hrun).mpr hask⟩

/-- With a bid and no ask the book counts as filled, and the first step of `print` goes back from
the begin of an empty map. -/
theorem print_without_asks :
    ∃ book, (new 3).run [.add ⟨Order.BUY, 1, 7, 2⟩] = some book ∧ book.toBool = true ∧
      book.mAsk.mMap.prev book.mAsk.mEnd = none ∧ book.print = none ∧ ¬ book.PrintsVisible := by
  have hrun : ∃ book, (new 3).run [.add ⟨Order.BUY, 1, 7, 2⟩] = some book := ⟨_, rfl⟩
  rcases hrun with ⟨book, hrun⟩
  have hprint : book.print = none := by
    cases hrun
    rfl
  refine ⟨book, hrun, ?_, ?_, hprint, ?_⟩
  · cases hrun
    rfl
  · cases hrun
    rfl
  · intro hvisible
    rcases hvisible with ⟨book', asks, bids, he, -⟩
    rw [hprint] at he
    cases he

end OrderBook

end Tob
