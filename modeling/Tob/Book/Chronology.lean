import Tob.Book.Refinement

/-!
# Orders in chronological order

What the timestamp filter lets through when timestamps do not go back: the orders that are not
older than the book.
-/

open LastWrite

namespace Tob

/-- Timestamps do not go back. -/
def Chronological (orders : List Order) : Prop :=
  orders.Pairwise fun a b ↦ a.timestamp ≤ b.timestamp

theorem Chronological.drop {orders : List Order} (h : Chronological orders) (k : Nat) :
    Chronological (orders.drop k) := h.sublist (List.drop_sublist k orders)

theorem Chronological.take {orders : List Order} (h : Chronological orders) (k : Nat) :
    Chronological (orders.take k) := h.sublist (List.take_sublist k orders)

theorem chronological_of_timestamp {orders : List Order} {t : UInt64}
    (h : ∀ o ∈ orders, o.timestamp = t) : Chronological orders := by
  apply List.pairwise_of_forall_mem_list
  intro a ha b hb
  rw [h a ha, h b hb]

/-- The orders that are not older than `t`. -/
def since (t : UInt64) (orders : List Order) : List Order :=
  orders.filter fun o ↦ t ≤ o.timestamp

theorem since_eq_self {t : UInt64} {orders : List Order} (h : ∀ o ∈ orders, t ≤ o.timestamp) :
    since t orders = orders := by
  rw [since, List.filter_eq_self]
  intro o ho
  simpa using h o ho

/-- In chronological order the recent orders are the last ones. -/
theorem since_suffix {orders : List Order} (h : Chronological orders) (t : UInt64) :
    since t orders <:+ orders := by
  induction orders with
  | nil => exact List.suffix_refl _
  | cons o rest ih =>
      have hc := List.pairwise_cons.mp h
      by_cases ht : t ≤ o.timestamp
      · rw [since_eq_self]
        intro a ha
        rcases List.mem_cons.mp ha with rfl | ha
        · exact ht
        · exact le_trans ht (hc.1 a ha)
      · rw [since, List.filter_cons_of_neg (by simpa using ht)]
        exact (ih hc.2).trans (List.suffix_cons o rest)

theorem writes_append (type : UInt64) (xs ys : List Order) :
    writes type (xs ++ ys) = writes type xs ++ writes type ys := by
  rw [writes, List.filter_append, List.map_append]; rfl

theorem zero_le_timestamp (t : UInt64) : (0 : UInt64) ≤ t :=
  UInt64.le_iff_toNat_le.mpr (Nat.zero_le _)

namespace Ledger

theorem add_writes {l : Ledger} {order : Order} (h : ¬ order.timestamp < l.last) :
    (l.add order).bids = applyWrites l.bids (writes Order.BUY [order]) ∧
      (l.add order).asks = applyWrites l.asks (writes Order.SELL [order]) ∧
      (l.add order).last = order.timestamp := by
  rw [add, if_neg h]
  have hside (type : UInt64) (f : UInt64 → UInt64) :
      (if order.type = type then Function.update f order.price order.amount else f) =
        applyWrites f (writes type [order]) := by
    by_cases ht : order.type = type
    · rw [if_pos ht, writes, List.filter_cons_of_pos (by simpa using ht)]; rfl
    · rw [if_neg ht, writes, List.filter_cons_of_neg (by simpa using ht)]; rfl
  exact ⟨hside _ _, hside _ _, rfl⟩

/-- Orders in chronological order write what is not older than the ledger. -/
theorem addAll_writes {orders : List Order} (h : Chronological orders) (l : Ledger) :
    (l.addAll orders).bids = applyWrites l.bids (writes Order.BUY (since l.last orders)) ∧
      (l.addAll orders).asks = applyWrites l.asks (writes Order.SELL (since l.last orders)) := by
  induction orders generalizing l with
  | nil => exact ⟨rfl, rfl⟩
  | cons order rest ih =>
      have hc := List.pairwise_cons.mp h
      change ((l.add order).addAll rest).bids = _ ∧ ((l.add order).addAll rest).asks = _
      have hrest := ih hc.2 (l.add order)
      by_cases hold : order.timestamp < l.last
      · rw [since, List.filter_cons_of_neg (by simpa using hold)]
        rw [add, if_pos hold] at hrest ⊢
        exact hrest
      · rcases add_writes hold with ⟨hb, ha, hl⟩
        have hall : ∀ o ∈ order :: rest, l.last ≤ o.timestamp := by
          intro o ho
          rcases List.mem_cons.mp ho with rfl | ho
          · exact not_lt.mp hold
          · exact le_trans (not_lt.mp hold) (hc.1 o ho)
        rw [hl, since_eq_self hc.1, hb, ha, ← applyWrites_append, ← applyWrites_append,
          ← writes_append, ← writes_append, List.singleton_append] at hrest
        rw [since_eq_self hall]
        exact hrest

/-- Into the empty ledger everything is let in. -/
theorem addAll_empty_writes {orders : List Order} (h : Chronological orders) :
    (empty.addAll orders).bids = applyWrites (fun _ ↦ 0) (writes Order.BUY orders) ∧
      (empty.addAll orders).asks = applyWrites (fun _ ↦ 0) (writes Order.SELL orders) := by
  have hall : since empty.last orders = orders := since_eq_self fun o _ ↦ zero_le_timestamp _
  have hwrites := addAll_writes h empty
  rw [hall] at hwrites
  exact hwrites

theorem addAll_stale {orders : List Order} {l : Ledger} (h : ∀ o ∈ orders, o.timestamp < l.last) :
    l.addAll orders = l := by
  induction orders with
  | nil => rfl
  | cons o rest ih =>
      change (l.add o).addAll rest = l
      rw [add, if_pos (h o List.mem_cons_self)]
      exact ih fun a ha ↦ h a (List.mem_cons_of_mem _ ha)

theorem addAll_last_le {orders : List Order} {t : UInt64} (h : ∀ o ∈ orders, o.timestamp ≤ t)
    {l : Ledger} (hl : l.last ≤ t) : (l.addAll orders).last ≤ t := by
  induction orders generalizing l with
  | nil => exact hl
  | cons order rest ih =>
      apply ih (fun o ho ↦ h o (List.mem_cons_of_mem _ ho))
      rw [add]
      split
      · exact hl
      · exact h order List.mem_cons_self

/-- Orders of one timestamp are all let in once the first one is. -/
theorem addAll_last_eq {orders : List Order} {t : UInt64} (h : ∀ o ∈ orders, o.timestamp = t)
    {l : Ledger} (hl : l.last = t) : (l.addAll orders).last = t := by
  induction orders generalizing l with
  | nil => exact hl
  | cons order rest ih =>
      have ht := h order List.mem_cons_self
      have hadd : (l.add order).last = t := by
        rw [add, if_neg (by rw [ht, hl]; exact lt_irrefl t)]
        exact ht
      exact ih (fun o ho ↦ h o (List.mem_cons_of_mem _ ho)) hadd

/-- Orders of one timestamp leave the later one of it and the ledger's own. -/
theorem addAll_last_of_timestamp {orders : List Order} {t : UInt64}
    (h : ∀ o ∈ orders, o.timestamp = t) (hne : orders ≠ []) (l : Ledger) :
    (l.addAll orders).last = max l.last t := by
  cases orders with
  | nil => exact absurd rfl hne
  | cons order rest =>
      have hrest : ∀ o ∈ rest, o.timestamp = t := fun o ho ↦ h o (List.mem_cons_of_mem _ ho)
      have ht := h order List.mem_cons_self
      change ((l.add order).addAll rest).last = _
      rw [add]
      by_cases hold : order.timestamp < l.last
      · have hstale : ∀ o ∈ rest, o.timestamp < l.last := by
          intro o ho
          rw [hrest o ho, ← ht]
          exact hold
        rw [if_pos hold, addAll_stale hstale, max_eq_left (ht ▸ le_of_lt hold)]
      · rw [if_neg hold, addAll_last_eq hrest ht, max_eq_right (ht ▸ not_lt.mp hold)]

end Ledger

end Tob
