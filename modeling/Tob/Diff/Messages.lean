import Tob.Diff.DiffLogic
import Tob.Snapshot.ProcessJson

/-!
# The orders of a message

A payload lists orders up to its first conversion that fails, and it ends in one way or another.
What `on_read` does with it depends on that and on the room in the pool only.
-/

namespace Tob

/-- How dealing with a payload ends once its orders have been queued. -/
inductive Ending where
  | returns
  | throws (what : String)
  | aborts
  deriving DecidableEq, Repr

def Ending.ofError : Option String → Ending
  | none => returns
  | some what => throws what

/-! ## Queueing -/

namespace Orders

variable {n : Nat}

/-- Queue orders, then end. -/
def storeThen (orders : Orders n) (batch : List Order) (ending : Ending) : Outcome (Orders n) :=
  match orders.addOrders batch with
  | (orders, some what) => .threw what orders
  | (orders, none) =>
      match ending with
      | .returns => .returned orders
      | .throws what => .threw what orders
      | .aborts => .aborted orders

theorem addOrders_append (orders : Orders n) (xs ys : List Order) :
    orders.addOrders (xs ++ ys) =
      match orders.addOrders xs with
      | (orders, some what) => (orders, some what)
      | (orders, none) => orders.addOrders ys := by
  induction xs generalizing orders with
  | nil => rfl
  | cons x xs ih =>
      rw [List.cons_append, addOrders, addOrders]
      cases orders.addOrder x with
      | error what => rfl
      | ok orders => exact ih orders

theorem storeThen_append (orders : Orders n) (xs ys : List Order) (ending : Ending) :
    orders.storeThen (xs ++ ys) ending =
      (orders.storeThen xs .returns).andThen fun orders ↦ orders.storeThen ys ending := by
  unfold storeThen
  rw [addOrders_append]
  rcases orders.addOrders xs with ⟨orders, err⟩
  cases err <;> rfl

theorem storeThen_error (orders : Orders n) (batch : List Order) (what : String)
    (f : Orders n → Outcome (Orders n)) :
    (orders.storeThen batch (.throws what)).andThen f = orders.storeThen batch (.throws what) := by
  unfold storeThen
  rcases orders.addOrders batch with ⟨orders, err⟩
  cases err <;> rfl

/-- What there is room for stays queued, however it ends. -/
theorem storeThen_state? (orders : Orders n) (batch : List Order) (ending : Ending) :
    (orders.storeThen batch ending).state? =
      some ⟨orders.mOrders ++ batch.take (n - orders.mOrders.length)⟩ := by
  unfold storeThen
  rw [addOrders_eq]
  by_cases hroom : batch.length ≤ n - orders.mOrders.length
  · simp only [if_pos hroom]
    cases ending <;> rfl
  · simp only [if_neg hroom]
    rfl

theorem storeThen_returned_iff (orders : Orders n) (batch : List Order) (ending : Ending) :
    (∃ orders', orders.storeThen batch ending = .returned orders') ↔
      ending = .returns ∧ batch.length ≤ n - orders.mOrders.length := by
  unfold storeThen
  rw [addOrders_eq]
  by_cases hroom : batch.length ≤ n - orders.mOrders.length
  · simp only [if_pos hroom]
    cases ending <;> simp [hroom]
  · simp [hroom]

theorem storeThen_threw_iff (orders : Orders n) (batch : List Order) (ending : Ending) :
    (∃ what orders', orders.storeThen batch ending = .threw what orders') ↔
      (∃ what, ending = .throws what) ∨ n - orders.mOrders.length < batch.length := by
  unfold storeThen
  rw [addOrders_eq]
  by_cases hroom : batch.length ≤ n - orders.mOrders.length
  · simp only [if_pos hroom]
    cases ending <;> simp [hroom]
  · simp only [if_neg hroom]
    simp [Nat.lt_of_not_le hroom]

/-- An empty queue takes a batch without an exception exactly if there is room for all of it. -/
theorem storeThen_returns_iff {orders orders' : Orders n} (hqueue : orders.mOrders = [])
    (batch : List Order) :
    orders.storeThen batch .returns = .returned orders' ↔
      batch.length ≤ n ∧ orders'.mOrders = batch := by
  have hstate := orders.storeThen_state? batch .returns
  have hreturned := orders.storeThen_returned_iff batch .returns
  rw [hqueue, List.nil_append, List.length_nil, Nat.sub_zero] at hstate
  rw [hqueue, List.length_nil, Nat.sub_zero] at hreturned
  constructor
  · intro h
    have hfits := (hreturned.mp ⟨orders', h⟩).2
    rw [h, List.take_of_length_le hfits, Outcome.state?, Option.some_inj] at hstate
    exact ⟨hfits, congrArg mOrders hstate⟩
  · rintro ⟨hfits, hbatch⟩
    rcases hreturned.mpr ⟨rfl, hfits⟩ with ⟨stored, h⟩
    rw [h, List.take_of_length_le hfits, Outcome.state?, Option.some_inj, ← hbatch] at hstate
    rw [h, hstate]

end Orders

/-! ## The orders in a payload -/

/-- The orders of the `data` of a message, up to the first level that does not convert. -/
def dataOrders (conv : Conversions) (data : Json) : List Order × Ending :=
  match data.member "timestamp" with
  | .error what => ([], .throws what)
  | .ok jsonTimestamp =>
      if jsonTimestamp.isNull then ([], .returns)
      else
        match jsonTimestamp.asString.bind conv.stoll with
        | .error what => ([], .throws what)
        | .ok timestamp =>
            match data.member "bids" with
            | .error what => ([], .throws what)
            | .ok bids =>
                match conv.levels bids.values with
                | (levels, some what) => (levelOrders Order.BUY timestamp levels, .throws what)
                | (levels, none) =>
                    match data.member "asks" with
                    | .error what => (levelOrders Order.BUY timestamp levels, .throws what)
                    | .ok asks =>
                        (levelOrders Order.BUY timestamp levels ++
                          levelOrders Order.SELL timestamp (conv.levels asks.values).1,
                          .ofError (conv.levels asks.values).2)

def messageOrders (conv : Conversions) (root : Json) : List Order × Ending :=
  match root.member "data" with
  | .error what => ([], .throws what)
  | .ok jsonData =>
      if jsonData.isNull then ([], .aborts)
      else
        match jsonData.asString.bind fun text ↦ conv.parse text.toUTF8.toList with
        | .error what => ([], .throws what)
        | .ok none => ([], .aborts)
        | .ok (some data) => dataOrders conv data

/-- The orders in what `parse` has made of a payload, and how it ends; one that is no JSON is left
alone. -/
def parsedOrders (conv : Conversions) : Except String (Option Json) → List Order × Ending
  | .error what => ([], .throws what)
  | .ok none => ([], .returns)
  | .ok (some root) => messageOrders conv root

/-- The orders a payload lists, and how it ends. -/
def payloadOrders (conv : Conversions) (payload : List UInt8) : List Order × Ending :=
  parsedOrders conv (conv.parse payload)

/-- A document of levels that all convert lists them as orders, bids first. -/
theorem IsSnapshot.dataOrders_eq {conv : Conversions} {root : Json} {timestamp : UInt64}
    {bids asks : List (UInt64 × UInt64)} (h : IsSnapshot conv root timestamp bids asks) :
    dataOrders conv root =
      (levelOrders Order.BUY timestamp bids ++ levelOrders Order.SELL timestamp asks,
        .returns) := by
  rcases h.bids with ⟨b, hb, hbids⟩
  rcases h.asks with ⟨a, ha, hasks⟩
  have htime := h.timestamp
  unfold jsonTimestamp at htime
  unfold dataOrders
  cases hmember : root.member "timestamp" with
  | error what =>
      rw [hmember] at htime
      cases htime
  | ok value =>
      rw [hmember] at htime
      simp only at htime ⊢
      by_cases hnull : value.isNull
      · rw [if_pos hnull] at htime
        cases htime
      · rw [if_neg hnull] at htime ⊢
        simp only [htime, hb, ha, hbids, hasks]
        rfl

variable {n : Nat}

theorem storeLevels_eq (conv : Conversions) (type timestamp : UInt64) (levels : List Json)
    (orders : Orders n) :
    storeLevels conv type timestamp levels orders =
      orders.storeThen (levelOrders type timestamp (conv.levels levels).1)
        (.ofError (conv.levels levels).2) := by
  induction levels generalizing orders with
  | nil => rfl
  | cons level levels ih =>
      rw [storeLevels, Conversions.levels]
      cases conv.level level with
      | error what => rfl
      | ok pair =>
          simp only [levelOrders, List.map_cons, Orders.storeThen, Orders.addOrders]
          cases orders.addOrder ⟨type, timestamp, pair.1, pair.2⟩ with
          | error what => rfl
          | ok orders => exact ih orders

theorem storeData_eq (conv : Conversions) (data : Json) (orders : Orders n) :
    storeData conv data orders =
      orders.storeThen (dataOrders conv data).1 (dataOrders conv data).2 := by
  unfold storeData dataOrders
  cases data.member "timestamp" with
  | error what => rfl
  | ok jsonTimestamp =>
      simp only
      by_cases hnull : jsonTimestamp.isNull
      · rw [if_pos hnull, if_pos hnull]
        rfl
      · rw [if_neg hnull, if_neg hnull]
        cases jsonTimestamp.asString.bind conv.stoll with
        | error what => rfl
        | ok timestamp =>
            cases data.member "bids" with
            | error what => rfl
            | ok bids =>
                simp only [storeLevels_eq]
                rcases conv.levels bids.values with ⟨levels, err⟩
                cases err with
                -- a bid that does not convert ends the message before its asks
                | some what => exact Orders.storeThen_error _ _ _ _
                | none =>
                    cases data.member "asks" with
                    | error what =>
                        simp only [Ending.ofError, Orders.storeThen]
                        rcases orders.addOrders _ with ⟨orders, err⟩
                        cases err <;> rfl
                    | ok asks =>
                        simp only [Orders.storeThen_append]
                        rfl

theorem storeMessage_eq (conv : Conversions) (root : Json) (orders : Orders n) :
    storeMessage conv root orders =
      orders.storeThen (messageOrders conv root).1 (messageOrders conv root).2 := by
  unfold storeMessage messageOrders
  cases root.member "data" with
  | error what => rfl
  | ok jsonData =>
      simp only
      by_cases hnull : jsonData.isNull
      · rw [if_pos hnull, if_pos hnull]
        rfl
      · rw [if_neg hnull, if_neg hnull]
        cases jsonData.asString.bind fun text ↦ conv.parse text.toUTF8.toList with
        | error what => rfl
        | ok parsed =>
            cases parsed with
            | none => rfl
            | some data => exact storeData_eq conv data orders

/-- Queueing the orders of a message does nothing undefined. -/
theorem storeMessage_ne_undefined (conv : Conversions) (root : Json) (orders : Orders n) :
    storeMessage conv root orders ≠ .undefined := by
  intro hundefined
  have hstate := orders.storeThen_state? (messageOrders conv root).1 (messageOrders conv root).2
  rw [← storeMessage_eq, hundefined] at hstate
  cases hstate

/-! ## A message with a level that does not convert -/

def brokenText : String :=
  "\x7b\"timestamp\":\"5\",\"bids\":[[\"7\",\"2\"],[\"x\",\"1\"]],\"asks\":[]\x7d"

def brokenData : Json := .object
  [("asks", .array []),
    ("bids", .array [.array [.string "7", .string "2"], .array [.string "x", .string "1"]]),
    ("timestamp", .string "5")]

/-- `data` is a string with the text of the message in it. -/
def brokenRoot : Json := .object [("data", .string brokenText)]

def brokenPayload : List UInt8 :=
  ascii ("\x7b\"data\":\"\x7b\\\"timestamp\\\":\\\"5\\\",\\\"bids\\\":" ++
    "[[\\\"7\\\",\\\"2\\\"],[\\\"x\\\",\\\"1\\\"]],\\\"asks\\\":[]\x7d\"\x7d")

def brokenConv : Conversions :=
  .documents [(brokenPayload, brokenRoot), (ascii brokenText, brokenData)]

theorem brokenOrders : payloadOrders brokenConv brokenPayload =
    ([⟨Order.BUY, 5, 7000000, 2000000⟩], .throws "stod") := by decide +kernel

end Tob
