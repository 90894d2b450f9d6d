import Tob.Live.Drain
import Tob.Live.Steps
import Tob.Snapshot.Atomic

/-!
# Retrying the snapshot

A snapshot that is rejected resets `order_book_socket`, and only the null pointer lets `main`
reconnect.  The other ways in which an attempt can fail leave a closed socket behind.
-/

open LastWrite

namespace Tob

/-- The orders leave no level on either side of an empty book. -/
def NoLevel (orders : List Order) : Prop :=
  levelPrices Order.BUY orders = ∅ ∧ levelPrices Order.SELL orders = ∅

theorem noLevel_iff {orders : List Order} : NoLevel orders ↔
    ∀ p, (lastAmount Order.BUY orders p).getD 0 = 0 ∧
      (lastAmount Order.SELL orders p).getD 0 = 0 := by
  simp only [NoLevel, Finset.eq_empty_iff_forall_notMem, mem_levelPrices, not_not, forall_and]

/-- What orders of one timestamp leave of the empty book. -/
theorem OrderBook.Refines.toBool_addAll {book book' : OrderBook} {depth : Nat}
    (h : book.Refines depth .empty) {orders : List Order} {t : UInt64}
    (ht : ∀ o ∈ orders, o.timestamp = t) (hadd : book.addAll orders = some book') :
    book'.toBool = false ↔ NoLevel orders := by
  rcases h.addAll orders with ⟨added, he, h'⟩
  cases he.symm.trans hadd
  rcases Ledger.addAll_empty_writes (chronological_of_timestamp ht) with ⟨hb, ha⟩
  rw [← Bool.not_eq_true, h'.toBool_iff, hb, ha, noLevel_iff]
  simp only [applyWrites_apply, not_exists, not_or, not_not]
  exact Iff.rfl

/-- A body leaves the empty book empty exactly if what is added of it leaves no level. -/
theorem processJson_toBool {conv : Conversions} {body : List UInt8} {book book' : OrderBook}
    {depth : Nat} (h : book.Refines depth .empty)
    (hp : processJson conv body book = .returned book' ∨
      ∃ what, processJson conv body book = .threw what book') :
    book'.toBool = false ↔
      ∀ root, conv.parse body = .ok (some root) → NoLevel (snapshotOrders conv root).1 := by
  rcases processJson_leaves hp with ⟨⟨what, hparse⟩, rfl⟩ | ⟨root, hparse, hadd⟩
  · rw [hparse]
    exact iff_of_true (Main.refines_empty_toBool h) nofun
  · rcases snapshotOrders_timestamp conv root with ⟨t, ht⟩
    rw [h.toBool_addAll ht hadd, hparse]
    apply Iff.intro
    · rintro hnone _ ⟨⟩
      exact hnone
    · exact fun hnone ↦ hnone root rfl

namespace Main

variable {n : Nat} {conv : Conversions}

/-- When the snapshot connection is gone and the book is still empty, the pointer is null. -/
def CanRetry (s : Main n) : Prop :=
  s.orderBookReady = false → s.orderBook.toBool = false → s.orderBookSocket ≠ .connected →
    s.orderBookSocket = .null

/-- The event ends the attempt, and no level of the snapshot is in the book. -/
def Strands (conv : Conversions) (s : Main n) (event : Event) : Prop :=
  s.orderBookSocket = .connected ∧
    match event with
    | .snapshot body =>
        ∀ root, conv.parse body = .ok (some root) → NoLevel (snapshotOrders conv root).1
    | .snapshotThrow => True
    | .snapshotClose => True
    | _ => False

/-- Remember every event and the state it met. -/
def Recorded (s : Main n) (met : List (Main n × Event)) (event : Event)
    (met' : List (Main n × Event)) : Prop := met' = met ++ [(s, event)]

theorem canRetry_of_not_closed {s : Main n} (h : s.orderBookSocket ≠ .closed) : s.CanRetry := by
  intro _ _ hgone
  cases hs : s.orderBookSocket with
  | null => rfl
  | connected => exact absurd hs hgone
  | closed => exact absurd hs h

theorem canRetry_congr {s s' : Main n} (hready : s'.orderBookReady = s.orderBookReady)
    (hbook : s'.orderBook = s.orderBook) (hsocket : s'.orderBookSocket = s.orderBookSocket) :
    s'.CanRetry ↔ s.CanRetry := by
  unfold CanRetry
  rw [hready, hbook, hsocket]

/-- A closed connection can be retried only if something of the snapshot is in the book. -/
theorem Sound.canRetry_closed {s : Main n} {depth : Nat} (h : s.Sound depth)
    (hc : s.orderBookSocket = .connected) {orderBook : OrderBook} :
    CanRetry { s with orderBook, orderBookSocket := .closed } ↔ orderBook.toBool = true := by
  have hready := (h.waiting (by rw [hc]; decide)).1
  apply Iff.intro
  · intro hretry
    by_contra hempty
    rw [Bool.not_eq_true] at hempty
    have hnull : SnapshotSocket.closed = .null := hretry hready hempty nofun
    cases hnull
  · intro hfull _ hempty
    rw [show orderBook.toBool = false from hempty] at hfull
    cases hfull

theorem Sound.canRetry_handled {s s' : Main n} {depth : Nat} (h : s.Sound depth) {event : Event}
    (hs : Handled conv s event s') : s'.CanRetry ↔ s.CanRetry ∧ ¬ Strands conv s event := by
  -- diffs do not touch the snapshot connection; a lost connection leaves the book as it was
  have hqueue (batch : List Order) (throws : Bool) :
      (s.queue batch throws).CanRetry ↔ s.CanRetry := by
    rcases s.queue_orderBook batch throws with ⟨hb, hk, hr⟩
    exact canRetry_congr hr hb hk
  have hidle {P : Prop} (hconn : s.orderBookSocket ≠ .connected) :
      s.CanRetry ↔ s.CanRetry ∧ ¬ (s.orderBookSocket = .connected ∧ P) :=
    (and_iff_left fun hand ↦ hconn hand.1).symm
  have hother {P : Prop} : P ↔ P ∧ ¬ (s.orderBookSocket = .connected ∧ False) :=
    (and_iff_left fun hand ↦ hand.2).symm
  have hempty (hc : s.orderBookSocket = .connected) : s.orderBook.toBool = false :=
    refines_empty_toBool (h.waiting (by rw [hc]; decide)).2
  have hconnected (hc : s.orderBookSocket = .connected) : s.CanRetry :=
    canRetry_of_not_closed (by rw [hc]; decide)
  have hgone (hc : s.orderBookSocket = .connected) :
      CanRetry { s with orderBookSocket := .closed } ↔
        s.CanRetry ∧ ¬ (s.orderBookSocket = .connected ∧ True) := by
    apply iff_of_false
    · intro hretry
      have hfull := (h.canRetry_closed hc).mp hretry
      rw [hempty hc] at hfull
      cases hfull
    · exact fun hand ↦ hand.2 ⟨hc, trivial⟩
  -- a body closes the connection, and what matters is whether it left a level
  have hbody {body : List UInt8} {orderBook : OrderBook} (hc : s.orderBookSocket = .connected)
      (hp : processJson conv body s.orderBook = .returned orderBook ∨
        ∃ what, processJson conv body s.orderBook = .threw what orderBook) :
      CanRetry { s with orderBook, orderBookSocket := .closed } ↔
        s.CanRetry ∧ ¬ Strands conv s (.snapshot body) := by
    have hlevel := processJson_toBool (h.waiting (by rw [hc]; decide)).2 hp
    rw [h.canRetry_closed hc, and_iff_right (hconnected hc), Strands, and_iff_right hc, ← hlevel,
      Bool.not_eq_false]
  cases hs with
  | queued => exact (hqueue _ _).trans hother
  | queuedThenThrew => exact (hqueue _ _).trans hother
  | diffsIgnored => exact hother
  | throwIgnored => exact hother
  | diffClosed => exact (canRetry_congr rfl rfl rfl).trans hother
  | stored hc hp => exact hbody hc (.inl hp)
  | failed hc hp => exact hbody hc (.inr ⟨_, hp⟩)
  | snapshotIgnored hc => exact hidle hc
  | threw hc => exact hgone hc
  | threwIgnored hc => exact hidle hc
  | closed hc => exact hgone hc
  | closeIgnored hc => exact hidle hc

/-- The rest of the loop body neither strands an attempt nor helps a stranded one. -/
theorem canRetry_settled {s s' : Main n} (hs : Settled s s') : s'.CanRetry ↔ s.CanRetry := by
  cases hs with
  | idle => exact Iff.rfl
  | reconnected _ hnull =>
      refine iff_of_true (canRetry_of_not_closed nofun) (canRetry_of_not_closed ?_)
      rw [hnull]
      decide
  | rejected hfull =>
      refine iff_of_true (canRetry_of_not_closed nofun) ?_
      intro _ hempty
      rw [hfull] at hempty
      cases hempty
  | drained hfull =>
      refine iff_of_true nofun ?_
      intro _ hempty
      rw [hfull] at hempty
      cases hempty

/-- A failed attempt can be retried, in every state `main` reaches, exactly if no event before it
has ended an attempt without a level in the book. -/
theorem canRetry_iff {depth : Nat} {s : Main n} {met : List (Main n × Event)}
    (h : Run conv Recorded depth [] s met) :
    s.CanRetry ↔ ∀ m ∈ met, ¬ Strands conv m.1 m.2 := by
  induction h with
  | start =>
      have hnone : ∀ m ∈ ([] : List (Main n × Event)), ¬ Strands conv m.1 m.2 :=
        fun m hm ↦ absurd hm List.not_mem_nil
      exact iff_of_true (canRetry_of_not_closed nofun) hnone
  | event hrun hrecorded hs ih =>
      rw [hrun.sound.canRetry_handled (handled_of_returned hs), ih, hrecorded,
        List.forall_mem_append, List.forall_mem_singleton]
  | afterEvents _ hs ih => rw [canRetry_settled (settled_of_returned hs), ih]

/-- A snapshot that is older than the first diff can be retried. -/
theorem canRetry_iff_example :
    ∃ (s : Main 1000) (met : List (Main 1000 × Event)),
      Run (.whole oneBidText oneBid) Recorded 3 [] s met ∧ s.orderBookSocket = .null ∧
        s.CanRetry := by
  let conv := Conversions.whole oneBidText oneBid
  let s₁ : Main 1000 := (start 3 1000).queue [⟨Order.BUY, 6, 3000000, 1000000⟩] false
  let loaded : OrderBook :=
    ⟨⟨⟨[(3000000, ⟨1000000, 0⟩)], List.pairwise_singleton ..⟩, none, 3⟩, .new 3, 5, 3⟩
  let s₂ : Main 1000 := { s₁ with orderBook := loaded, orderBookSocket := .closed }
  let s₃ : Main 1000 := { s₂ with orderBook := loaded.clear, orderBookSocket := .null }
  have hdiffs : (start 3 1000).handle conv (.diffs [⟨Order.BUY, 6, 3000000, 1000000⟩]) =
      .returned s₁ := rfl
  have hsnapshot : s₁.handle conv (.snapshot oneBidText) = .returned s₂ := rfl
  have hrejected : s₂.afterEvents ⟨0, 0, 0⟩ = .returned s₃ := rfl
  have hrun : Run conv Recorded 3 [] s₃
      ([(start 3 1000, .diffs _)] ++ [(s₁, .snapshot oneBidText)]) :=
    .afterEvents (.event (.event .start rfl hdiffs) rfl hsnapshot) hrejected
  refine ⟨s₃, _, hrun, rfl, (canRetry_iff hrun).mpr ?_⟩
  rw [List.forall_mem_append, List.forall_mem_singleton, List.forall_mem_singleton]
  refine ⟨fun hstrands ↦ hstrands.2, fun hstrands ↦ ?_⟩
  have hamount := (noLevel_iff.mp (hstrands.2 oneBid rfl) 3000000).1
  exact absurd hamount (by decide)

/-- The snapshot connection is lost in the first iteration: the pointer is not null. -/
theorem stranded_after_throw :
    ∃ (s : Main 1000) (met : List (Main 1000 × Event)),
      (start 3 1000).iterate (.whole oneBidText oneBid) [.snapshotThrow] ⟨0, 0, 0⟩ = .returned s ∧
      Run (.whole oneBidText oneBid) Recorded 3 [] s met ∧ s.orderBookSocket = .closed ∧
      ¬ s.CanRetry := by
  let lost : Main 1000 := { start 3 1000 with orderBookSocket := .closed }
  have hthrow : (start 3 1000).handle (.whole oneBidText oneBid) .snapshotThrow =
      .returned lost := rfl
  have hidle : lost.afterEvents ⟨0, 0, 0⟩ = .returned lost := rfl
  refine ⟨lost, _, rfl, .afterEvents (.event .start rfl hthrow) hidle, rfl, ?_⟩
  intro hretry
  have hnull : SnapshotSocket.closed = .null := hretry rfl rfl nofun
  cases hnull

end Main

end Tob
