import Tob.Book.Ledger
import Tob.Library.Outcome
import Tob.Snapshot.Json

/-!
# process_json

The snapshot document goes into the book level by level, bids first.  What has been added when a
conversion throws stays in the book.
-/

namespace Tob

/-- `store_orders`. -/
def storeOrders (conv : Conversions) (type timestamp : UInt64) :
    List Json → OrderBook → Outcome OrderBook
  | [], book => .returned book
  | level :: levels, book =>
      match conv.level level with
      | .error what => .threw what book
      | .ok (price, amount) =>
          match book.add ⟨type, timestamp, price, amount⟩ with
          | none => .undefined
          | some book => storeOrders conv type timestamp levels book

/-- The timestamp of a document, or what reading it throws. -/
def jsonTimestamp (conv : Conversions) (root : Json) : Except String UInt64 :=
  match root.member "timestamp" with
  | .error what => .error what
  | .ok value =>
      if value.isNull then .error "no timestamp in json"
      else value.asString.bind conv.stoll

/-- `process_json` from the parsed document on. -/
def storeSnapshot (conv : Conversions) (root : Json) (book : OrderBook) : Outcome OrderBook :=
  match jsonTimestamp conv root with
  | .error what => .threw what book
  | .ok timestamp =>
      match root.member "bids" with
      | .error what => .threw what book
      | .ok bids =>
          (storeOrders conv Order.BUY timestamp bids.values book).andThen fun book ↦
            match root.member "asks" with
            | .error what => .threw what book
            | .ok asks => storeOrders conv Order.SELL timestamp asks.values book

/-- `process_json` on the bytes of the body. -/
def processJson (conv : Conversions) (body : List UInt8) (book : OrderBook) : Outcome OrderBook :=
  match conv.parse body with
  | .error what => .threw what book
  | .ok none => .aborted book
  | .ok (some root) => storeSnapshot conv root book

/-! ## The orders a document adds -/

def levelOrders (type timestamp : UInt64) (levels : List (UInt64 × UInt64)) : List Order :=
  levels.map fun l ↦ ⟨type, timestamp, l.1, l.2⟩

theorem levelOrders_timestamp {t : UInt64} {bids asks : List (UInt64 × UInt64)} {o : Order}
    (h : o ∈ levelOrders Order.BUY t bids ++ levelOrders Order.SELL t asks) : o.timestamp = t := by
  rcases List.mem_append.mp h with h | h
  · rcases List.mem_map.mp h with ⟨l, -, rfl⟩
    rfl
  · rcases List.mem_map.mp h with ⟨l, -, rfl⟩
    rfl

/-- Add orders, then return or throw. -/
def addThen (book : OrderBook) (orders : List Order) (what : Option String) : Outcome OrderBook :=
  match book.addAll orders with
  | none => .undefined
  | some book =>
      match what with
      | none => .returned book
      | some what => .threw what book

theorem OrderBook.addAll_append (book : OrderBook) (xs ys : List Order) :
    book.addAll (xs ++ ys) = (book.addAll xs).bind fun book ↦ book.addAll ys := by
  induction xs generalizing book with
  | nil => rfl
  | cons x xs ih =>
      rw [List.cons_append, OrderBook.addAll, OrderBook.addAll, Option.bind_assoc]
      exact congrArg _ (funext fun book ↦ ih book)

theorem storeOrders_eq (conv : Conversions) (type timestamp : UInt64) (levels : List Json)
    (book : OrderBook) :
    storeOrders conv type timestamp levels book =
      addThen book (levelOrders type timestamp (conv.levels levels).1) (conv.levels levels).2 := by
  induction levels generalizing book with
  | nil => rfl
  | cons level levels ih =>
      rw [storeOrders, Conversions.levels]
      cases conv.level level with
      | error what => rfl
      | ok pair =>
          simp only [levelOrders, List.map_cons, addThen, OrderBook.addAll]
          cases book.add ⟨type, timestamp, pair.1, pair.2⟩ with
          | none => rfl
          | some book => exact ih book

/-- The orders a document adds before it is through or throws, and what it throws. -/
def snapshotOrders (conv : Conversions) (root : Json) : List Order × Option String :=
  match jsonTimestamp conv root with
  | .error what => ([], some what)
  | .ok timestamp =>
      match root.member "bids", root.member "asks" with
      | .ok bids, .ok asks =>
          match conv.levels bids.values with
          | (levels, some what) => (levelOrders Order.BUY timestamp levels, some what)
          | (levels, none) =>
              (levelOrders Order.BUY timestamp levels ++
                levelOrders Order.SELL timestamp (conv.levels asks.values).1,
                (conv.levels asks.values).2)
      | _, _ => ([], some "in Json::Value::resolveReference(key, end): requires objectValue")

theorem storeSnapshot_eq (conv : Conversions) (root : Json) (book : OrderBook) :
    storeSnapshot conv root book =
      addThen book (snapshotOrders conv root).1 (snapshotOrders conv root).2 := by
  unfold storeSnapshot snapshotOrders
  cases htime : jsonTimestamp conv root with
  | error what => rfl
  | ok timestamp =>
      -- a document with a timestamp is an object, so its members can be read
      have hmember (key : String) : ∃ value, root.member key = .ok value := by
        cases root with
        | null => exact ⟨_, rfl⟩
        | object members => exact ⟨_, rfl⟩
        | _ => cases htime
      rcases hmember "bids" with ⟨bids, hbids⟩
      rcases hmember "asks" with ⟨asks, hasks⟩
      simp only [hbids, hasks, storeOrders_eq]
      rcases conv.levels bids.values with ⟨levels, err⟩
      cases err with
      | some what =>
          simp only [addThen]
          cases book.addAll (levelOrders Order.BUY timestamp levels) <;> rfl
      | none =>
          simp only [addThen, OrderBook.addAll_append]
          cases book.addAll (levelOrders Order.BUY timestamp levels) <;> rfl

/-- The document has a timestamp and lists of levels that all convert. -/
structure IsSnapshot (conv : Conversions) (root : Json) (timestamp : UInt64)
    (bids asks : List (UInt64 × UInt64)) : Prop where
  timestamp : jsonTimestamp conv root = .ok timestamp
  bids : ∃ value, root.member "bids" = .ok value ∧ conv.levels value.values = (bids, none)
  asks : ∃ value, root.member "asks" = .ok value ∧ conv.levels value.values = (asks, none)

theorem IsSnapshot.snapshotOrders_eq {conv : Conversions} {root : Json} {timestamp : UInt64}
    {bids asks : List (UInt64 × UInt64)} (h : IsSnapshot conv root timestamp bids asks) :
    snapshotOrders conv root =
      (levelOrders Order.BUY timestamp bids ++ levelOrders Order.SELL timestamp asks, none) := by
  rcases h.bids with ⟨b, hb, hbl⟩
  rcases h.asks with ⟨a, ha, hal⟩
  rw [snapshotOrders, h.timestamp]
  simp only [hb, ha, hbl, hal]

theorem IsSnapshot.storeSnapshot_eq {conv : Conversions} {root : Json} {timestamp : UInt64}
    {bids asks : List (UInt64 × UInt64)} (h : IsSnapshot conv root timestamp bids asks)
    (book : OrderBook) :
    storeSnapshot conv root book = addThen book
      (levelOrders Order.BUY timestamp bids ++ levelOrders Order.SELL timestamp asks) none := by
  rw [Tob.storeSnapshot_eq, h.snapshotOrders_eq]

end Tob
