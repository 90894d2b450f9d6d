import Tob.Book.OrderBook

/-!
# The order queue

`Orders` hands the diffs from the WebSocket client to the main loop.  Its pool has room for
`numberOfOrders` live orders; between two callbacks the live ones are those in the queue.
-/

namespace Tob

structure Orders (numberOfOrders : Nat) where
  mOrders : List Order

namespace Orders

variable {n : Nat}

def empty : Orders n := ⟨[]⟩

def addOrder (orders : Orders n) (order : Order) : Except String (Orders n) :=
  if orders.mOrders.length < n then .ok ⟨orders.mOrders ++ [order]⟩
  else .error "order queue is full"

/-- `get_first_timestamp`: `(uint64_t)-1` when nothing is queued. -/
def getFirstTimestamp (orders : Orders n) : UInt64 :=
  match orders.mOrders with
  | [] => -1
  | order :: _ => order.timestamp

/-- `get_order`: the null pointer when nothing is queued. -/
def getOrder (orders : Orders n) : Option Order × Orders n :=
  match orders.mOrders with
  | [] => (none, orders)
  | order :: rest => (some order, ⟨rest⟩)

def clear (_ : Orders n) : Orders n := ⟨[]⟩

/-- `add_order` for every order of a list, up to the first one that throws. -/
def addOrders (orders : Orders n) : List Order → Orders n × Option String
  | [] => (orders, none)
  | order :: rest =>
      match orders.addOrder order with
      | .error what => (orders, some what)
      | .ok orders => orders.addOrders rest

/-- What there is room for gets in, and the first order there is no room for throws. -/
theorem addOrders_eq (orders : Orders n) (batch : List Order) :
    orders.addOrders batch =
      (⟨orders.mOrders ++ batch.take (n - orders.mOrders.length)⟩,
        if batch.length ≤ n - orders.mOrders.length then none
        else some "order queue is full") := by
  induction batch generalizing orders with
  | nil => simp [addOrders]
  | cons order rest ih =>
      rw [addOrders, addOrder]
      by_cases hroom : orders.mOrders.length < n
      · have hleft : n - orders.mOrders.length = n - (orders.mOrders.length + 1) + 1 := by omega
        have hfits : rest.length + 1 ≤ n - (orders.mOrders.length + 1) + 1 ↔
            rest.length ≤ n - (orders.mOrders.length + 1) := by omega
        rw [if_pos hroom]
        simp only
        rw [ih, hleft, List.take_succ_cons, List.length_cons]
        simp only [List.length_append, List.length_singleton, List.append_assoc,
          List.singleton_append, hfits]
      · have hnone : n - orders.mOrders.length = 0 := by omega
        rw [if_neg hroom, hnone, List.take_zero, List.append_nil, List.length_cons,
          if_neg (by omega)]

/-- Only a part of the list gets in, and all of it if nothing is thrown. -/
theorem addOrders_spec (orders : Orders n) (batch : List Order) :
    ∃ m, (orders.addOrders batch).1.mOrders = orders.mOrders ++ batch.take m ∧
      ((orders.addOrders batch).2 = none → m = batch.length) := by
  rw [addOrders_eq]
  refine ⟨min batch.length (n - orders.mOrders.length), ?_, ?_⟩
  · simp only [List.append_cancel_left_eq]
    rw [List.take_eq_take_min, Nat.min_comm]
  · intro h
    have hfits : batch.length ≤ n - orders.mOrders.length := by simpa using h
    omega

/-- `while (order = orders.get_order()) order_book.add(*order);` -/
def drain (book : OrderBook) : List Order → Option (OrderBook × Orders n)
  | [] => some (book, ⟨[]⟩)
  | order :: rest => (book.add order).bind fun book ↦ drain book rest

/-- A step of the drain: the loop goes on as long as `get_order` finds something. -/
theorem drain_step (book : OrderBook) (orders : Orders n) :
    drain book orders.mOrders = match orders.getOrder with
      | (none, left) => some (book, left)
      | (some order, left) => (book.add order).bind fun book ↦ drain book left.mOrders := by
  rcases orders with ⟨_ | ⟨order, rest⟩⟩ <;> rfl

theorem drain_eq (book : OrderBook) (queue : List Order) :
    drain (n := n) book queue = (book.addAll queue).map fun book ↦ (book, ⟨[]⟩) := by
  induction queue generalizing book with
  | nil => rfl
  | cons order rest ih =>
      rw [drain, OrderBook.addAll]
      cases book.add order with
      | none => rfl
      | some book => exact ih book

end Orders

end Tob
