import Tob.Library.UInt64Order
import Tob.Book.LimitedMap

/-!
# Orders and the order book

`OrderBook` with its two sides, `add`, `clear` and `print`.  The lock is taken for the whole of
every member function, so each of them is one step.
-/

open OrderedContainer

namespace Tob

structure Order where
  type : UInt64
  timestamp : UInt64
  price : UInt64
  amount : UInt64
  deriving DecidableEq, Repr

namespace Order

def INVALID : UInt64 := 0
def BUY : UInt64 := 1
def SELL : UInt64 := 2

end Order

structure OrderBook where
  mBid : LimitedMap UInt64 UInt64 (· > ·)
  mAsk : LimitedMap UInt64 UInt64 (· < ·)
  mLastTimestamp : UInt64
  mDepth : Nat

/-- One line written by `print_level`; `color` is the highlight, if there is one. -/
structure PrintedLevel where
  color : Option String
  price : UInt64
  amount : UInt64
  deriving DecidableEq, Repr

section Side

variable {lt : UInt64 → UInt64 → Prop} [DecidableRel lt] [IsStrictTotalOrder UInt64 lt]

/-- `update`: an order without an amount takes its level away. -/
def update (dest : LimitedMap UInt64 UInt64 lt) (order : Order) :
    Option (LimitedMap UInt64 UInt64 lt) :=
  if order.amount = 0 then dest.erase order.price
  else dest.update order.price order.amount

omit [DecidableRel lt] [IsStrictTotalOrder UInt64 lt] in
/-- `print_level`. -/
def printLevel (side : LimitedMap UInt64 UInt64 lt) (level : Iter UInt64) (color : String) :
    Option (LimitedMap UInt64 UInt64 lt × PrintedLevel) :=
  (side.mMap.keyAt level).bind fun first ↦
  (side.mMap.lookup first).bind fun p ↦
  if p.value ≠ p.prevValue then
    some ({ side with mMap := side.mMap.modify first fun p ↦ ⟨p.value, p.value⟩ },
      ⟨some color, first, p.value⟩)
  else some (side, ⟨none, first, p.value⟩)

omit [DecidableRel lt] [IsStrictTotalOrder UInt64 lt] in
/-- `do { --level; print_level(level, color); } while (level != begin());` -/
def printBackward (color : String) : Nat → LimitedMap UInt64 UInt64 lt → Iter UInt64 →
    Option (LimitedMap UInt64 UInt64 lt × List PrintedLevel)
  | 0, _, _ => none
  | fuel + 1, side, level =>
      (side.mMap.prev level).bind fun level ↦
      (printLevel side level color).bind fun (side, line) ↦
      if level = side.mMap.first then some (side, [line])
      else (printBackward color fuel side level).map fun (side, lines) ↦ (side, line :: lines)

omit [DecidableRel lt] [IsStrictTotalOrder UInt64 lt] in
/-- `for (; level != end(); ++level) print_level(level, color);` -/
def printForward (color : String) : Nat → LimitedMap UInt64 UInt64 lt → Iter UInt64 →
    Option (LimitedMap UInt64 UInt64 lt × List PrintedLevel)
  | 0, side, level => if level = side.mEnd then some (side, []) else none
  | fuel + 1, side, level =>
      if level = side.mEnd then some (side, [])
      else
        (printLevel side level color).bind fun (side, line) ↦
        (side.mMap.next level).bind fun level ↦
        (printForward color fuel side level).map fun (side, lines) ↦ (side, line :: lines)

end Side

namespace OrderBook

/-- `OrderBook(depth)`. -/
def new (depth : Nat) : OrderBook := ⟨.new depth, .new depth, 0, depth⟩

/-- `operator bool`. -/
def toBool (book : OrderBook) : Bool := !book.mBid.isEmpty || !book.mAsk.isEmpty

def add (book : OrderBook) (order : Order) : Option OrderBook :=
  if order.timestamp < book.mLastTimestamp then some book
  else
    let book := { book with mLastTimestamp := order.timestamp }
    if order.type = Order.BUY then
      (update book.mBid order).map fun mBid ↦ { book with mBid }
    else if order.type = Order.SELL then
      (update book.mAsk order).map fun mAsk ↦ { book with mAsk }
    else some book

def askHighlight : String := "\x1b[41m"
def bidHighlight : String := "\x1b[42m"

/-- `print`: the asks from the window's end back to the best one, then the bids from the best one
down; the lists are what it writes under its two headings. -/
def print (book : OrderBook) : Option (OrderBook × List PrintedLevel × List PrintedLevel) :=
  (printBackward askHighlight book.mAsk.mMap.size book.mAsk book.mAsk.mEnd).bind
    fun (mAsk, asks) ↦
  (printForward bidHighlight book.mBid.mMap.size book.mBid book.mBid.mMap.first).map
    fun (mBid, bids) ↦ ({ book with mAsk, mBid }, asks, bids)

def clear (book : OrderBook) : OrderBook :=
  { book with mBid := book.mBid.clear, mAsk := book.mAsk.clear, mLastTimestamp := 0 }

def getLastTimestamp (book : OrderBook) : UInt64 := book.mLastTimestamp

/-- `add` for every order of a list, first to last. -/
def addAll (book : OrderBook) : List Order → Option OrderBook
  | [] => some book
  | order :: orders => (book.add order).bind fun book ↦ book.addAll orders

end OrderBook

end Tob
