import Tob.Diff.Dispatch

/-!
# Parts of a message

The orders of a message are queued one at a time, so what has been queued when one of them cannot be
stays queued.
-/

namespace Tob

namespace Orders

variable {n : Nat}

/-- Nothing of a batch that throws is queued. -/
def AllOrNothing (orders : Orders n) (batch : List Order) (ending : Ending) : Prop :=
  ∀ what orders', orders.storeThen batch ending = .threw what orders' → orders' = orders

/-- Every level converts, and there is room for all of the orders. -/
structure StoresAll (orders : Orders n) (batch : List Order) (ending : Ending) : Prop where
  converts : ∀ what, ending ≠ .throws what
  fits : batch.length ≤ n - orders.mOrders.length

theorem allOrNothing_iff (orders : Orders n) (batch : List Order) (ending : Ending) :
    orders.AllOrNothing batch ending ↔
      batch = [] ∨ n ≤ orders.mOrders.length ∨ orders.StoresAll batch ending := by
  have hstate := orders.storeThen_state? batch ending
  have hthrew := orders.storeThen_threw_iff batch ending
  apply Iff.intro
  · intro h
    by_cases hthrows : ∃ what orders', orders.storeThen batch ending = .threw what orders'
    · rcases hthrows with ⟨what, orders', he⟩
      rw [he, h what orders' he, Outcome.state?, Option.some_inj] at hstate
      have hmOrders : orders.mOrders =
          orders.mOrders ++ batch.take (n - orders.mOrders.length) := congrArg mOrders hstate
      rcases List.take_eq_nil_iff.mp (List.self_eq_append_right.mp hmOrders) with hroom | hnone
      · exact .inr (.inl (by omega))
      · exact .inl hnone
    · rw [hthrew, not_or, not_exists] at hthrows
      exact .inr (.inr ⟨hthrows.1, Nat.le_of_not_lt hthrows.2⟩)
  -- nothing gets in before an exception, or there is none
  · intro h what orders' he
    have hno : batch.take (n - orders.mOrders.length) = [] ∨ orders.StoresAll batch ending := by
      rcases h with hnone | hfull | hall
      · exact .inl (by rw [hnone, List.take_nil])
      · exact .inl (by rw [show n - orders.mOrders.length = 0 by omega, List.take_zero])
      · exact .inr hall
    rcases hno with hnone | hall
    · rw [he, hnone, List.append_nil, Outcome.state?, Option.some_inj] at hstate
      exact hstate
    · rcases hthrew.mp ⟨what, orders', he⟩ with ⟨what, hending⟩ | hmore
      · exact absurd hending (hall.converts what)
      · exact absurd hall.fits (Nat.not_le_of_lt hmore)

end Orders

namespace DiffLogic

open WireFrame

variable {n : Nat} {conv : Conversions}

/-- What the last read of a call throws, and what it has queued by then, is up to the orders of the
message that it completes. -/
theorem onRead_threw_iff {d d₁ : DiffLogic n} {chunks : List (List UInt8)} {chunk : List UInt8}
    (hfits : d.Fits conv (chunks ++ [chunk])) (hcall : d.onRead conv chunks = .returned d₁)
    (h : d₁.InWork) {w : WireFrame} {rest : List UInt8}
    (hgot : d₁.pending ++ chunk = w.bytes ++ rest) (hlast : ¬ (w.Bare ∧ rest = []))
    (what : String) (orders : Orders n) :
    (∃ d', d.onRead conv (chunks ++ [chunk]) = .threw what d' ∧ d'.mOrders = orders) ↔
      d₁.mOrders.storeThen (payloadOrders conv w.plain).1 (payloadOrders conv w.plain).2 =
        .threw what orders := by
  have hstep := readStep_orders conv h (hfits.last hcall).2 hgot hlast
  rw [hfits.onRead_concat, hcall, Outcome.andThen_returned, ← hstep, Outcome.map_eq_threw_iff]

/-- A call that throws at a message has queued nothing of it exactly if the message lists no order
before its first level that does not convert, or the queue is full, or nothing is thrown. -/
theorem message_allOrNothing_iff {d d₁ : DiffLogic n} {chunks : List (List UInt8)}
    {chunk : List UInt8} (hfits : d.Fits conv (chunks ++ [chunk]))
    (hcall : d.onRead conv chunks = .returned d₁) (h : d₁.InWork) {w : WireFrame}
    {rest : List UInt8} (hgot : d₁.pending ++ chunk = w.bytes ++ rest)
    (hlast : ¬ (w.Bare ∧ rest = [])) :
    (∀ what d', d.onRead conv (chunks ++ [chunk]) = .threw what d' → d'.mOrders = d₁.mOrders) ↔
      (payloadOrders conv w.plain).1 = [] ∨ n ≤ d₁.mOrders.mOrders.length ∨
        d₁.mOrders.StoresAll (payloadOrders conv w.plain).1 (payloadOrders conv w.plain).2 := by
  have hiff := onRead_threw_iff hfits hcall h hgot hlast
  rw [← Orders.allOrNothing_iff]
  apply Iff.intro
  · intro hcalls what orders' hstored
    rcases (hiff what orders').mpr hstored with ⟨d', hd, horders⟩
    rw [← horders]
    exact hcalls what d' hd
  · intro hall what d' hd
    exact hall what d'.mOrders ((hiff what d'.mOrders).mp ⟨d', hd, rfl⟩)

def brokenFrame : WireFrame := ⟨0x81, .short, none, brokenPayload, by decide +kernel⟩

theorem brokenFrame_plain : brokenFrame.plain = brokenPayload := rfl

theorem brokenFrame_fits : idle.Fits brokenConv ([] ++ [brokenFrame.bytes]) :=
  ⟨by decide, by decide, fun _ _ ↦ trivial⟩

theorem brokenFrame_got : idle.pending ++ brokenFrame.bytes = brokenFrame.bytes ++ [] := by
  rw [idle_pending, List.append_nil, List.nil_append]

/-- The first bid stays queued, and the next drain shows it. -/
theorem message_stored_in_part :
    ∃ d', idle.onRead brokenConv [brokenFrame.bytes] = .threw "stod" d' ∧
      idle.mOrders.mOrders = [] ∧ d'.mOrders.mOrders = [⟨Order.BUY, 5, 7000000, 2000000⟩] ∧
      (Orders.drain (OrderBook.new 3) d'.mOrders.mOrders).map
        (fun s : OrderBook × Orders 1 ↦ s.1.mBid.visibleLevels) = some [(7000000, 2000000)] := by
  have hthrew := onRead_threw_iff brokenFrame_fits (onRead_nil brokenConv idle) idle_inWork
    brokenFrame_got (by decide) "stod" ⟨[⟨Order.BUY, 5, 7000000, 2000000⟩]⟩
  rw [brokenFrame_plain, brokenOrders] at hthrew
  rcases hthrew.mpr rfl with ⟨d', hd, horders⟩
  exact ⟨d', hd, rfl, by rw [horders], by rw [horders]; rfl⟩

/-- With the queue full nothing of it gets in. -/
theorem message_allOrNothing_iff_example :
    let full : DiffLogic 1 := { idle with mOrders := ⟨[⟨Order.SELL, 4, 9, 1⟩]⟩ }
    ∃ d', full.onRead brokenConv [brokenFrame.bytes] = .threw "order queue is full" d' ∧
      d'.mOrders = full.mOrders := by
  intro full
  have hfull : full.InWork :=
    ⟨⟨idle_inWork.valid.buffer, idle_inWork.valid.offset, idle_inWork.valid.address⟩, rfl⟩
  have hfits : full.Fits brokenConv ([] ++ [brokenFrame.bytes]) :=
    ⟨by decide, by decide, fun _ _ ↦ trivial⟩
  have hgot : full.pending ++ brokenFrame.bytes = brokenFrame.bytes ++ [] := brokenFrame_got
  have hthrew := onRead_threw_iff hfits (onRead_nil brokenConv full) hfull hgot (by decide)
    "order queue is full" full.mOrders
  rw [brokenFrame_plain, brokenOrders] at hthrew
  rcases hthrew.mpr rfl with ⟨d', hd, -⟩
  have hnone := (message_allOrNothing_iff hfits (onRead_nil brokenConv full) hfull hgot
    (by decide)).mpr (.inr (.inl (le_refl 1)))
  exact ⟨d', hd, hnone _ d' hd⟩

end DiffLogic

end Tob
