import Tob.Book.Print
import Tob.Live.Main

/-!
# What a step of the loop does

One inversion theorem for a callback and one for the rest of the loop body, runs over both with a
history beside them, and the invariant of the sockets and the book.
-/

namespace Tob

namespace Main

variable {n : Nat} {conv : Conversions}

/-- A callback that comes back to the loop. -/
inductive Handled (conv : Conversions) (s : Main n) : Event → Main n → Prop where
  | queued {batch} : s.diffOpen = true → Handled conv s (.diffs batch) (s.queue batch false)
  | queuedThenThrew {batch} :
      s.diffOpen = true → Handled conv s (.diffsThrow batch) (s.queue batch true)
  | diffsIgnored {batch} : s.diffOpen = false → Handled conv s (.diffs batch) s
  | throwIgnored {batch} : s.diffOpen = false → Handled conv s (.diffsThrow batch) s
  | diffClosed : Handled conv s .diffClose { s with diffOpen := false }
  | stored {body orderBook} : s.orderBookSocket = .connected →
      processJson conv body s.orderBook = .returned orderBook →
      Handled conv s (.snapshot body) { s with orderBook, orderBookSocket := .closed }
  | failed {body what orderBook} : s.orderBookSocket = .connected →
      processJson conv body s.orderBook = .threw what orderBook →
      Handled conv s (.snapshot body) { s with orderBook, orderBookSocket := .closed }
  | snapshotIgnored {body} : s.orderBookSocket ≠ .connected → Handled conv s (.snapshot body) s
  | threw : s.orderBookSocket = .connected →
      Handled conv s .snapshotThrow { s with orderBookSocket := .closed }
  | threwIgnored : s.orderBookSocket ≠ .connected → Handled conv s .snapshotThrow s
  | closed : s.orderBookSocket = .connected →
      Handled conv s .snapshotClose { s with orderBookSocket := .closed }
  | closeIgnored : s.orderBookSocket ≠ .connected → Handled conv s .snapshotClose s

theorem handled_of_returned {s s' : Main n} {event : Event}
    (h : s.handle conv event = .returned s') : Handled conv s event s' := by
  cases event with
  | diffs batch =>
      rw [handle] at h
      cases hopen : s.diffOpen with
      | false => rw [hopen] at h; cases h; exact .diffsIgnored hopen
      | true => rw [hopen] at h; cases h; exact .queued hopen
  | diffsThrow batch =>
      rw [handle] at h
      cases hopen : s.diffOpen with
      | false => rw [hopen] at h; cases h; exact .throwIgnored hopen
      | true => rw [hopen] at h; cases h; exact .queuedThenThrew hopen
  | diffClose => cases h; exact .diffClosed
  | snapshot body =>
      rw [handle] at h
      by_cases hc : s.orderBookSocket = .connected
      · rw [if_pos hc] at h
        cases hp : processJson conv body s.orderBook with
        | returned orderBook => rw [hp] at h; cases h; exact .stored hc hp
        | threw what orderBook => rw [hp] at h; cases h; exact .failed hc hp
        | aborted orderBook => rw [hp] at h; cases h
        | undefined => rw [hp] at h; cases h
      · rw [if_neg hc] at h; cases h; exact .snapshotIgnored hc
  | snapshotThrow =>
      rw [handle] at h
      by_cases hc : s.orderBookSocket = .connected
      · rw [if_pos hc] at h; cases h; exact .threw hc
      · rw [if_neg hc] at h; cases h; exact .threwIgnored hc
  | snapshotClose =>
      rw [handle] at h
      by_cases hc : s.orderBookSocket = .connected
      · rw [if_pos hc] at h; cases h; exact .closed hc
      · rw [if_neg hc] at h; cases h; exact .closeIgnored hc

/-- The rest of the loop body, up to the next poll. -/
inductive Settled (s : Main n) : Main n → Prop where
  | idle : s.orderBook.toBool = false → Settled s s
  | reconnected : s.orderBook.toBool = false → s.orderBookSocket = .null →
      Settled s { s with orderBookSocket := .connected }
  | rejected : s.orderBook.toBool = true → s.orderBookReady = false →
      s.orderBook.getLastTimestamp < s.orders.getFirstTimestamp →
      Settled s { s with orderBook := s.orderBook.clear, orderBookSocket := .null }
  | drained {drained orderBook lastTime} : s.orderBook.toBool = true →
      (s.orderBookReady = false → ¬ s.orderBook.getLastTimestamp < s.orders.getFirstTimestamp) →
      s.orderBook.addAll s.orders.mOrders = some drained →
      (orderBook = drained ∨ ∃ out, drained.print = some (orderBook, out)) →
      Settled s { s with orderBook, orders := .empty, orderBookReady := true, lastTime }

theorem check_live {s s' : Main n} {clock : Clock} (h : s.check clock = (s', true)) :
    s.orderBook.toBool = true ∧
      (s.orderBookReady = false →
        ¬ s.orderBook.getLastTimestamp < s.orders.getFirstTimestamp) ∧
      s' = { s with orderBookReady := true } := by
  unfold check at h
  cases hbook : s.orderBook.toBool with
  | false =>
      rw [hbook, Bool.not_false, if_pos rfl] at h
      split at h <;> cases h
  | true =>
      rw [hbook, Bool.not_true, if_neg Bool.false_ne_true] at h
      cases hready : s.orderBookReady with
      | true =>
          rw [hready, Bool.not_true, if_neg Bool.false_ne_true] at h
          cases h
          refine ⟨rfl, fun h ↦ (Bool.noConfusion h), ?_⟩
          rw [← hready]
      | false =>
          rw [hready, Bool.not_false, if_pos rfl] at h
          by_cases hgap : s.orderBook.getLastTimestamp < s.orders.getFirstTimestamp
          · rw [if_pos hgap] at h
            cases h
          · rw [if_neg hgap] at h
            cases h
            exact ⟨rfl, fun _ ↦ hgap, rfl⟩

theorem settled_of_check {s s' : Main n} {clock : Clock} (h : s.check clock = (s', false)) :
    Settled s s' := by
  unfold check at h
  cases hbook : s.orderBook.toBool with
  | false =>
      rw [hbook, Bool.not_false, if_pos rfl] at h
      by_cases hr : s.orderBookSocket = .null ∧ clock.reconect > RECONECT_INTERVAL
      · rw [if_pos hr] at h; cases h; exact .reconnected hbook hr.1
      · rw [if_neg hr] at h; cases h; exact .idle hbook
  | true =>
      rw [hbook, Bool.not_true, if_neg Bool.false_ne_true] at h
      cases hready : s.orderBookReady with
      | true => rw [hready, Bool.not_true, if_neg Bool.false_ne_true] at h; cases h
      | false =>
          rw [hready, Bool.not_false, if_pos rfl] at h
          by_cases hgap : s.orderBook.getLastTimestamp < s.orders.getFirstTimestamp
          · have hrejected := Settled.rejected hbook hready hgap
            rw [if_pos hgap] at h
            rw [hready] at hrejected
            cases h
            exact hrejected
          · rw [if_neg hgap] at h; cases h

theorem settled_of_returned {s s' : Main n} {clock : Clock}
    (h : s.afterEvents clock = .returned s') : Settled s s' := by
  unfold afterEvents at h
  rcases hcheck : s.check clock with ⟨s₁, live⟩
  rw [hcheck] at h
  cases live with
  | false => cases h; exact settled_of_check hcheck
  | true =>
      rcases check_live hcheck with ⟨hbook, hgap, rfl⟩
      change drainAndPrint _ clock = _ at h
      unfold drainAndPrint at h
      rw [Orders.drain_eq] at h
      cases hadd : s.orderBook.addAll s.orders.mOrders with
      | none => simp [hadd] at h
      | some drained =>
          simp only [hadd, Option.map_some] at h
          by_cases htime : clock.update ≠ s.lastTime
          · rw [if_pos htime] at h
            cases hprint : drained.print with
            | none => simp [hprint] at h
            | some printed =>
                simp only [hprint] at h
                cases h
                exact .drained hbook hgap hadd (.inr ⟨printed.2, hprint⟩)
          · rw [if_neg htime] at h
            cases h
            exact .drained hbook hgap hadd (.inl rfl)

/-! ## Runs -/

/-- The states `main` reaches under an environment that lets an event happen and remembers `γ`. -/
inductive Run (conv : Conversions) {γ : Type} (env : Main n → γ → Event → γ → Prop) (depth : Nat)
    (g₀ : γ) : Main n → γ → Prop where
  | start : Run conv env depth g₀ (start depth n) g₀
  | event {s g event s' g'} : Run conv env depth g₀ s g → env s g event g' →
      s.handle conv event = .returned s' → Run conv env depth g₀ s' g'
  | afterEvents {s g clock s'} : Run conv env depth g₀ s g →
      s.afterEvents clock = .returned s' → Run conv env depth g₀ s' g

/-- The book is sound, and it is empty until a snapshot connection has been closed. -/
structure Sound (s : Main n) (depth : Nat) : Prop where
  book : ∃ l, s.orderBook.Refines depth l
  waiting : s.orderBookSocket ≠ .closed →
    s.orderBookReady = false ∧ s.orderBook.Refines depth .empty

theorem sound_start (depth : Nat) : (start depth n).Sound depth :=
  ⟨⟨_, OrderBook.refines_new depth⟩, fun _ ↦ ⟨rfl, OrderBook.refines_new depth⟩⟩

theorem refines_empty_toBool {book : OrderBook} {depth : Nat} (h : book.Refines depth .empty) :
    book.toBool = false := by
  rw [← Bool.not_eq_true, h.toBool_iff]
  rintro ⟨p, hp | hp⟩ <;> exact hp rfl

/-- A book with a level, like a book in use, has its snapshot connection closed. -/
theorem Sound.closed {s : Main n} {depth : Nat} (h : s.Sound depth)
    (hs : s.orderBook.toBool = true ∨ s.orderBookReady = true) : s.orderBookSocket = .closed := by
  by_contra hne
  rcases h.waiting hne with ⟨hready, hempty⟩
  rcases hs with hs | hs
  · rw [refines_empty_toBool hempty] at hs; cases hs
  · rw [hready] at hs; cases hs

end Main

/-- Both ways out of `process_json` leave what has been added by then. -/
theorem processJson_leaves {conv : Conversions} {body : List UInt8} {book book' : OrderBook}
    (hp : processJson conv body book = .returned book' ∨
      ∃ what, processJson conv body book = .threw what book') :
    ((∃ what, conv.parse body = .error what) ∧ book' = book) ∨
      ∃ root, conv.parse body = .ok (some root) ∧
        book.addAll (snapshotOrders conv root).1 = some book' := by
  unfold processJson at hp
  cases hparse : conv.parse body with
  | error what =>
      simp only [hparse] at hp
      rcases hp with hp | ⟨what', hp⟩
      · cases hp
      · cases hp
        exact .inl ⟨⟨what, rfl⟩, rfl⟩
  | ok parsed =>
      cases parsed with
      | none => simp [hparse] at hp
      | some root =>
          refine .inr ⟨root, rfl, ?_⟩
          simp only [hparse, storeSnapshot_eq, addThen] at hp
          cases hadd : book.addAll (snapshotOrders conv root).1 with
          | none => simp [hadd] at hp
          | some added =>
              rw [hadd] at hp
              cases hwhat : (snapshotOrders conv root).2 with
              | none =>
                  simp only [hwhat] at hp
                  rcases hp with hp | ⟨what', hp⟩
                  · rw [Outcome.returned.inj hp]
                  · cases hp
              | some what =>
                  simp only [hwhat] at hp
                  rcases hp with hp | ⟨what', hp⟩
                  · cases hp
                  · rw [(Outcome.threw.inj hp).2]

/-- Whatever `process_json` leaves is a sound book. -/
theorem processJson_refines {conv : Conversions} {body : List UInt8} {book book' : OrderBook}
    {depth : Nat} {l : Ledger} (h : book.Refines depth l)
    (hp : processJson conv body book = .returned book' ∨
      ∃ what, processJson conv body book = .threw what book') :
    ∃ l', book'.Refines depth l' := by
  rcases processJson_leaves hp with ⟨-, rfl⟩ | ⟨root, -, hadd⟩
  · exact ⟨l, h⟩
  · rcases h.addAll (snapshotOrders conv root).1 with ⟨added, he, hadded⟩
    cases he.symm.trans hadd
    exact ⟨_, hadded⟩

namespace Main

variable {n : Nat} {conv : Conversions}

theorem queue_orderBook (s : Main n) (batch : List Order) (throws : Bool) :
    (s.queue batch throws).orderBook = s.orderBook ∧
      (s.queue batch throws).orderBookSocket = s.orderBookSocket ∧
      (s.queue batch throws).orderBookReady = s.orderBookReady := by
  unfold queue
  split <;> exact ⟨rfl, rfl, rfl⟩

theorem Sound.handled {s s' : Main n} {depth : Nat} (h : s.Sound depth) {event : Event}
    (hs : Handled conv s event s') : s'.Sound depth := by
  have hqueue (batch : List Order) (throws : Bool) : (s.queue batch throws).Sound depth := by
    rcases s.queue_orderBook batch throws with ⟨hb, hk, hr⟩
    exact ⟨hb ▸ h.book, fun hne ↦ by rw [hb, hr]; exact h.waiting (hk ▸ hne)⟩
  rcases h.book with ⟨l, hl⟩
  cases hs with
  | queued => exact hqueue _ false
  | queuedThenThrew => exact hqueue _ true
  | diffClosed => exact ⟨h.book, h.waiting⟩
  | stored _ hp => exact ⟨processJson_refines hl (.inl hp), fun hne ↦ absurd rfl hne⟩
  | failed _ hp => exact ⟨processJson_refines hl (.inr ⟨_, hp⟩), fun hne ↦ absurd rfl hne⟩
  | threw | closed => exact ⟨h.book, fun hne ↦ absurd rfl hne⟩
  | diffsIgnored | throwIgnored | snapshotIgnored | threwIgnored | closeIgnored => exact h

theorem Sound.settled {s s' : Main n} {depth : Nat} (h : s.Sound depth) (hs : Settled s s') :
    s'.Sound depth := by
  rcases h.book with ⟨l, hl⟩
  cases hs with
  | idle => exact h
  | reconnected _ hnull =>
      exact ⟨h.book, fun _ ↦ h.waiting (by rw [hnull]; decide)⟩
  | rejected _ hready _ => exact ⟨⟨_, hl.clear⟩, fun _ ↦ ⟨hready, hl.clear⟩⟩
  | drained hbook _ hadd hprint =>
      rcases hl.addAll s.orders.mOrders with ⟨drained, he, hd⟩
      cases he.symm.trans hadd
      have hclosed := h.closed (.inl hbook)
      refine ⟨?_, fun hne ↦ absurd hclosed hne⟩
      rcases hprint with rfl | ⟨out, hprint⟩
      · exact ⟨_, hd⟩
      · exact ⟨_, hd.of_print hprint⟩

theorem Run.sound {γ : Type} {env : Main n → γ → Event → γ → Prop} {depth : Nat} {g₀ g : γ}
    {s : Main n} (h : Run conv env depth g₀ s g) : s.Sound depth := by
  induction h with
  | start => exact sound_start depth
  | event _ _ hs ih => exact ih.handled (handled_of_returned hs)
  | afterEvents _ hs ih => exact ih.settled (settled_of_returned hs)

end Main

end Tob
