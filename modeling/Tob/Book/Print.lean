import Tob.Book.Ledger

/-!
# Printing

`print` walks the visible asks backwards and the visible bids forwards.  It touches previous values
only, and it is defined as soon as one ask is visible.
-/

open OrderedContainer

namespace Tob

/-- `prev_value = value`. -/
def Payload.printed {ν : Type} (p : Payload ν) : Payload ν := ⟨p.value, p.value⟩

namespace LimitedMap

variable {lt : UInt64 → UInt64 → Prop}

/-- The line that is written for the level of a key. -/
def lineAt (side : LimitedMap UInt64 UInt64 lt) (color : String) (k : UInt64) : PrintedLevel :=
  let p := (side.mMap.lookup k).getD (.ofValue 0)
  ⟨if p.value ≠ p.prevValue then some color else none, k, p.value⟩

/-- `side'` is `side` after the levels of `ks` have been printed. -/
structure Printed (side side' : LimitedMap UInt64 UInt64 lt) (ks : List UInt64) : Prop where
  keys : side'.mMap.keys = side.mMap.keys
  mEnd : side'.mEnd = side.mEnd
  depth : side'.mDepth = side.mDepth
  lookup : ∀ k, side'.mMap.lookup k =
    if k ∈ ks then (side.mMap.lookup k).map Payload.printed else side.mMap.lookup k

theorem Printed.refl (side : LimitedMap UInt64 UInt64 lt) : Printed side side [] :=
  ⟨rfl, rfl, rfl, fun _ ↦ rfl⟩

theorem Printed.cons {side side₁ side₂ : LimitedMap UInt64 UInt64 lt} {k : UInt64}
    {ks : List UInt64} (h : Printed side side₁ [k]) (h' : Printed side₁ side₂ ks) :
    Printed side side₂ (k :: ks) := by
  refine ⟨h'.keys.trans h.keys, h'.mEnd.trans h.mEnd, h'.depth.trans h.depth, fun k' ↦ ?_⟩
  rw [h'.lookup, h.lookup]
  simp only [List.mem_cons, List.not_mem_nil, or_false]
  by_cases hk : k' = k
  · simp only [hk, true_or, if_true, Option.map_map]
    split <;> rfl
  · simp only [hk, false_or, if_false]

theorem Printed.sameLevels {side side' : LimitedMap UInt64 UInt64 lt} {ks : List UInt64}
    (h : Printed side side' ks) : SameLevels side side' := by
  refine ⟨h.keys, h.mEnd, h.depth, fun k ↦ ?_⟩
  rw [valueAt, h.lookup]
  split
  · rw [Option.map_map]; rfl
  · rfl

/-- Printing one level leaves the lines of the others as they are. -/
theorem Printed.map_lineAt {side side' : LimitedMap UInt64 UInt64 lt} {k : UInt64}
    (h : Printed side side' [k]) (color : String) {ks : List UInt64} (hk : k ∉ ks) :
    ks.map (side'.lineAt color) = ks.map (side.lineAt color) := by
  apply List.map_congr_left
  intro k' hk'
  have hne : k' ∉ [k] := by
    rw [List.mem_singleton]
    exact ne_of_mem_of_not_mem hk' hk
  rw [lineAt, h.lookup, if_neg hne]
  rfl

variable [IsStrictTotalOrder UInt64 lt]

theorem printLevel_eq {side : LimitedMap UInt64 UInt64 lt} {k : UInt64} (hk : k ∈ side.mMap.keys)
    (color : String) :
    ∃ side', printLevel side (some k) color = some (side', side.lineAt color k) ∧
      Printed side side' [k] := by
  rcases OrderedMap.mem_keys_iff.mp hk with ⟨p, hp⟩
  unfold printLevel lineAt
  rw [OrderedMap.keyAt_of_mem hk, Option.bind_some, hp, Option.bind_some]
  simp only [Option.getD_some]
  by_cases hv : p.value ≠ p.prevValue
  · rw [if_pos hv, if_pos hv]
    refine ⟨_, rfl, OrderedMap.keys_modify .., rfl, rfl, fun k' ↦ ?_⟩
    rw [OrderedMap.lookup_modify]
    simp only [List.mem_singleton]
    rfl
  · rw [if_neg hv, if_neg hv]
    refine ⟨_, rfl, rfl, rfl, rfl, fun k' ↦ ?_⟩
    simp only [List.mem_singleton]
    split
    · -- the previous value is the value already
      rename_i hkey
      rw [hkey, hp, Option.map_some, Payload.printed]
      exact congrArg (fun v ↦ some (Payload.mk p.value v)) (not_not.mp hv).symm
    · rfl

-- The walk back from rank `i + 1` makes one step for every rank down to zero.
theorem printBackward_eq (color : String) (fuel i : Nat) {side : LimitedMap UInt64 UInt64 lt}
    (hi : i < side.mMap.keys.length) (hfuel : i < fuel) :
    ∃ side', printBackward color fuel side side.mMap.keys[i + 1]? =
        some (side', (side.mMap.keys.take (i + 1)).reverse.map (side.lineAt color)) ∧
      Printed side side' (side.mMap.keys.take (i + 1)).reverse := by
  induction fuel generalizing i side with
  | zero => omega
  | succ fuel ih =>
      have hrank := List.getElem?_eq_getElem hi
      rcases printLevel_eq (List.getElem_mem hi) color with ⟨side₁, hline, h₁⟩
      have hprev : side.mMap.prev side.mMap.keys[i + 1]? = some (some side.mMap.keys[i]) := by
        rw [OrderedMap.prev, prevKey_getElem? side.mMap.nodup_keys hi, hrank]; rfl
      have htake : (side.mMap.keys.take (i + 1)).reverse =
          side.mMap.keys[i] :: (side.mMap.keys.take i).reverse := by
        rw [List.take_succ_eq_append_getElem hi, List.reverse_concat]
      rw [printBackward, hprev, Option.bind_some, hline, Option.bind_some, htake]
      by_cases hfirst : some side.mMap.keys[i] = side₁.mMap.first
      · simp only [if_pos hfirst]
        have hzero : i = 0 := by
          rw [OrderedMap.first, h₁.keys, List.head?_eq_getElem?, ← hrank] at hfirst
          exact (List.getElem?_inj hi side.mMap.nodup_keys).mp hfirst
        subst hzero
        exact ⟨_, rfl, h₁⟩
      · simp only [if_neg hfirst]
        cases i with
        | zero =>
            refine absurd ?_ hfirst
            rw [OrderedMap.first, h₁.keys, List.head?_eq_getElem?, hrank]
        | succ i =>
            have hi' : i < side₁.mMap.keys.length := by rw [h₁.keys]; omega
            -- the lines that follow are those of the side as it was
            have hnot : side.mMap.keys[i + 1] ∉ (side.mMap.keys.take (i + 1)).reverse := by
              have hn := side.mMap.nodup_keys.sublist (List.take_sublist (i + 2) _)
              rw [← List.nodup_reverse, htake] at hn
              exact (List.nodup_cons.mp hn).1
            rcases ih i hi' (by omega) with ⟨side', hrest, h'⟩
            rw [h₁.keys] at hrest h'
            rw [← hrank, hrest, h₁.map_lineAt color hnot]
            exact ⟨_, rfl, h₁.cons h'⟩

-- At the window's end nothing is left of it.
theorem drop_window_eq_nil {side : LimitedMap UInt64 UInt64 lt} (hw : side.Window) {i : Nat}
    (hend : side.mMap.keys[i]? = side.mEnd) :
    (side.mMap.keys.take side.mDepth).drop i = [] := by
  rw [List.drop_eq_nil_iff, List.length_take]
  by_contra hlt
  have hil : i < side.mMap.keys.length := by omega
  rw [hw] at hend
  have hid : i = side.mDepth := (List.getElem?_inj hil side.mMap.nodup_keys).mp hend
  omega

-- The walk forward from rank `i` ends at the window's end, at most `size` steps away.
theorem printForward_eq (color : String) (fuel i : Nat) {side : LimitedMap UInt64 UInt64 lt}
    (hw : side.Window) (hi : i ≤ side.mDepth) (hfuel : side.mMap.keys.length ≤ i + fuel) :
    ∃ side', printForward color fuel side side.mMap.keys[i]? =
        some (side', ((side.mMap.keys.take side.mDepth).drop i).map (side.lineAt color)) ∧
      Printed side side' ((side.mMap.keys.take side.mDepth).drop i) := by
  induction fuel generalizing i side with
  | zero =>
      have hend : side.mMap.keys[i]? = side.mEnd := by
        rw [hw, List.getElem?_eq_none (by omega), List.getElem?_eq_none (by omega)]
      rw [printForward, if_pos hend, drop_window_eq_nil hw hend]
      exact ⟨_, rfl, Printed.refl side⟩
  | succ fuel ih =>
      by_cases hend : side.mMap.keys[i]? = side.mEnd
      · rw [printForward, if_pos hend, drop_window_eq_nil hw hend]
        exact ⟨_, rfl, Printed.refl side⟩
      · rw [printForward, if_neg hend]
        have hne : i ≠ side.mDepth := fun h ↦ hend (by rw [h, hw])
        have hlt : i < side.mMap.keys.length := by
          by_contra hge
          apply hend
          rw [hw, List.getElem?_eq_none (by omega), List.getElem?_eq_none (by omega)]
        have hrank := List.getElem?_eq_getElem hlt
        rcases printLevel_eq (List.getElem_mem hlt) color with ⟨side₁, hline, h₁⟩
        rcases ih (i + 1) (h₁.sameLevels.window hw) (by rw [h₁.depth]; omega)
          (by rw [h₁.keys]; omega) with ⟨side', hrest, h'⟩
        have hnext : side₁.mMap.next (some side.mMap.keys[i]) = some side₁.mMap.keys[i + 1]? := by
          rw [OrderedMap.next, Option.bind_some]
          exact nextKey_getElem? side₁.mMap.nodup_keys (by rw [h₁.keys, hrank])
        have hdrop : (side.mMap.keys.take side.mDepth).drop i =
            side.mMap.keys[i] :: (side.mMap.keys.take side.mDepth).drop (i + 1) := by
          rw [List.drop_eq_getElem_cons (by rw [List.length_take]; omega), List.getElem_take]
        -- the lines that follow are those of the side as it was
        have hnot : side.mMap.keys[i] ∉ (side.mMap.keys.take side.mDepth).drop (i + 1) := by
          have hn := side.mMap.nodup_keys.sublist
            ((List.drop_sublist i _).trans (List.take_sublist side.mDepth _))
          rw [hdrop] at hn
          exact (List.nodup_cons.mp hn).1
        rw [h₁.keys, h₁.depth] at hrest h'
        rw [h₁.keys] at hnext
        rw [hrank, hline, Option.bind_some, hdrop]
        simp only [hnext, Option.bind_some, hrest, Option.map_some, h₁.map_lineAt color hnot]
        exact ⟨_, rfl, h₁.cons h'⟩

/-- Without a visible level there is no step back from the window's end. -/
theorem prev_mEnd_eq_none {side : LimitedMap UInt64 UInt64 lt} (hw : side.Window)
    (hv : side.visible = []) : side.mMap.prev side.mEnd = none := by
  rw [visible_eq_take hw, List.take_eq_nil_iff] at hv
  rw [OrderedMap.prev, Option.map_eq_none_iff, hw]
  rcases hv with hd | he
  · rw [hd, ← List.head?_eq_getElem?]
    have hn := side.mMap.nodup_keys
    cases hkeys : side.mMap.keys with
    | nil => rfl
    | cons a rest =>
        rw [hkeys] at hn
        exact prevKey_of_not_mem_tail (List.nodup_cons.mp hn).1
  · rw [show side.mMap.keys = [] by rw [OrderedMap.keys, he, List.map_nil]]
    rfl

end LimitedMap

namespace OrderBook

/-- With an ask in the window, `print` writes the visible levels, the asks worst first. -/
theorem print_eq {book : OrderBook} (hbid : book.mBid.Window) (hwin : book.mAsk.Window)
    (hask : book.mAsk.visible ≠ []) :
    ∃ mBid mAsk, book.print = some ({ book with mBid, mAsk },
        (book.mAsk.mMap.keys.take book.mAsk.mDepth).reverse.map (book.mAsk.lineAt askHighlight),
        (book.mBid.mMap.keys.take book.mBid.mDepth).map (book.mBid.lineAt bidHighlight)) ∧
      LimitedMap.Printed book.mBid mBid (book.mBid.mMap.keys.take book.mBid.mDepth) ∧
      LimitedMap.Printed book.mAsk mAsk
        (book.mAsk.mMap.keys.take book.mAsk.mDepth).reverse := by
  rw [LimitedMap.visible_eq_take hwin, ne_eq, List.take_eq_nil_iff, not_or] at hask
  have hsize : book.mAsk.mMap.keys.length = book.mAsk.mMap.entries.length := List.length_map ..
  have hdepth := Nat.pos_of_ne_zero hask.1
  have hlen := List.length_pos_of_ne_nil hask.2
  -- the backward walk starts at the smaller of the depth and the number of levels
  have hback : ∃ mAsk, printBackward askHighlight book.mAsk.mMap.size book.mAsk book.mAsk.mEnd =
      some (mAsk, (book.mAsk.mMap.keys.take book.mAsk.mDepth).reverse.map
        (book.mAsk.lineAt askHighlight)) ∧
      LimitedMap.Printed book.mAsk mAsk
        (book.mAsk.mMap.keys.take book.mAsk.mDepth).reverse := by
    rw [hwin, ← OrderedMap.length_keys]
    by_cases hle : book.mAsk.mDepth ≤ book.mAsk.mMap.keys.length
    · have hd : book.mAsk.mDepth = book.mAsk.mDepth - 1 + 1 := by omega
      rw [hd]
      exact LimitedMap.printBackward_eq _ _ _ (by omega) (by omega)
    · have hd : book.mAsk.mMap.keys[book.mAsk.mDepth]? =
          book.mAsk.mMap.keys[book.mAsk.mMap.keys.length - 1 + 1]? := by
        rw [List.getElem?_eq_none (by omega), List.getElem?_eq_none (by omega)]
      have ht : book.mAsk.mMap.keys.take book.mAsk.mDepth =
          book.mAsk.mMap.keys.take (book.mAsk.mMap.keys.length - 1 + 1) := by
        rw [List.take_of_length_le (by omega), List.take_of_length_le (by omega)]
      rw [hd, ht]
      exact LimitedMap.printBackward_eq _ _ _ (by omega) (by omega)
  rcases hback with ⟨mAsk, hasks, ha⟩
  have hforw := LimitedMap.printForward_eq bidHighlight book.mBid.mMap.size 0 hbid
    (Nat.zero_le _) (by rw [OrderedMap.length_keys]; omega)
  rw [← List.head?_eq_getElem?, List.drop_zero] at hforw
  rcases hforw with ⟨mBid, hbids, hb⟩
  refine ⟨mBid, mAsk, ?_, hb, ha⟩
  rw [OrderBook.print, hasks, Option.bind_some]
  simp only [OrderedMap.first, hbids, Option.map_some]

/-- With an ask in the window, `print` is defined and keeps what the book stands for. -/
theorem Refines.print {book : OrderBook} {depth : Nat} {l : Ledger} (h : book.Refines depth l)
    (hask : book.mAsk.visible ≠ []) :
    ∃ book' out, book.print = some (book', out) ∧ book'.Refines depth l := by
  rcases print_eq h.bids.window h.asks.window hask with ⟨mBid, mAsk, he, hb, ha⟩
  exact ⟨_, _, he, h.bids.sameLevels hb.sameLevels, h.asks.sameLevels ha.sameLevels, h.last⟩

theorem print_visible {book : OrderBook} {out} (hw : book.mAsk.Window)
    (h : book.print = some out) : book.mAsk.visible ≠ [] := by
  intro hv
  have hprev := LimitedMap.prev_mEnd_eq_none hw hv
  have hback (fuel : Nat) : printBackward askHighlight fuel book.mAsk book.mAsk.mEnd = none := by
    cases fuel with
    | zero => rfl
    | succ fuel => rw [printBackward, hprev, Option.bind_none]
  rw [OrderBook.print, hback, Option.bind_none] at h
  cases h

/-- Whenever `print` is defined it keeps what the book stands for. -/
theorem Refines.of_print {book book' : OrderBook} {depth : Nat} {l : Ledger} {out}
    (h : book.Refines depth l) (hp : book.print = some (book', out)) : book'.Refines depth l := by
  rcases h.print (print_visible h.asks.window hp) with ⟨book₁, out₁, he, h₁⟩
  cases he.symm.trans hp
  exact h₁

end OrderBook

end Tob
