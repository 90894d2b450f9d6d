import Mathlib

/-!
# JSON values

The parts of `Json::Value` the receivers use, as the vendored library has them: a wrong type is
reported by an exception, a missing member or element reads as null.
-/

namespace Tob

/-- A parsed value; a number keeps the text `asString` gives it, members are in key order. -/
inductive Json where
  | null
  | boolean (value : Bool)
  | number (text : String)
  | string (value : String)
  | array (items : List Json)
  | object (members : List (String × Json))

namespace Json

/-- `operator!`. -/
def isNull : Json → Bool
  | null => true
  | _ => false

/-- `operator[](const char *)`. -/
def member (root : Json) (key : String) : Except String Json :=
  match root with
  | null => .ok null
  | object members => .ok (((members.find? fun m ↦ m.1 = key).map Prod.snd).getD null)
  | _ => .error "in Json::Value::resolveReference(key, end): requires objectValue"

/-- `operator[](int) const`. -/
def element (value : Json) (index : Nat) : Except String Json :=
  match value with
  | null => .ok null
  | array items => .ok (items[index]?.getD null)
  | _ => .error "in Json::Value::operator[](ArrayIndex)const: requires arrayValue"

def asString : Json → Except String String
  | null => .ok ""
  | boolean value => .ok (if value then "true" else "false")
  | number text => .ok text
  | string value => .ok value
  | array _ => .error "Type is not convertible to string"
  | object _ => .error "Type is not convertible to string"

/-- The values a `for` loop over the value visits. -/
def values : Json → List Json
  | array items => items
  | object members => members.map Prod.snd
  | _ => []

end Json

/-- `Reader::parse` and the conversions from string to number.  `parse` throws on too deep a
document and reports `none` on an invalid one; `stoll` and `scaled` give what the receivers store
in a `uint64_t`, `scaled` being `std::stod` times 1000000. -/
structure Conversions where
  parse : List UInt8 → Except String (Option Json)
  stoll : String → Except String UInt64
  scaled : String → Except String UInt64

/-- `std::stod(level[0].asString()) * 1000000` and the same for `level[1]`. -/
def Conversions.level (conv : Conversions) (level : Json) : Except String (UInt64 × UInt64) :=
  match (level.element 0).bind Json.asString |>.bind conv.scaled with
  | .error what => .error what
  | .ok price =>
      match (level.element 1).bind Json.asString |>.bind conv.scaled with
      | .error what => .error what
      | .ok amount => .ok (price, amount)

/-- The levels that are read before the first one that throws, and what that one throws. -/
def Conversions.levels (conv : Conversions) : List Json → List (UInt64 × UInt64) × Option String
  | [] => ([], none)
  | level :: rest =>
      match conv.level level with
      | .error what => ([], some what)
      | .ok pair => (pair :: (conv.levels rest).1, (conv.levels rest).2)

/-- The value of a text of decimal digits. -/
def decimal (value : Nat) : List Char → Option Nat
  | [] => some value
  | c :: rest => if c.isDigit then decimal (10 * value + (c.toNat - '0'.toNat)) rest else none

/-- The conversions on whole numbers, with one text that parses. -/
def Conversions.whole (text : List UInt8) (root : Json) : Conversions where
  parse bytes := .ok (if bytes = text then some root else none)
  stoll s := match decimal 0 s.toList with
    | some value => .ok (UInt64.ofNat value)
    | none => .error "stoll"
  scaled s := match decimal 0 s.toList with
    | some value => .ok (UInt64.ofNat (value * 1000000))
    | none => .error "stod"

/-- The same conversions with any number of texts that parse. -/
def Conversions.documents (docs : List (List UInt8 × Json)) : Conversions :=
  { whole [] .null with parse := fun bytes ↦ .ok (docs.lookup bytes) }

end Tob
