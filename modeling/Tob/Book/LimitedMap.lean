import Tob.Library.OrderedMap

/-!
# LimitedMap

A map of levels with a window: `mEnd` caches the iterator behind the first `mDepth` levels, and
every insertion and erasure moves it by at most one step.
-/

open OrderedContainer

namespace Tob

structure Payload (ν : Type) where
  value : ν
  prevValue : ν
  deriving DecidableEq, Repr

/-- `Payload(value)`: the previous value starts at zero. -/
def Payload.ofValue {ν : Type} [Zero ν] (value : ν) : Payload ν := ⟨value, 0⟩

structure LimitedMap (κ ν : Type) (lt : κ → κ → Prop) where
  mMap : OrderedMap κ (Payload ν) lt
  mEnd : Iter κ
  mDepth : Nat

namespace LimitedMap

variable {κ ν : Type} {lt : κ → κ → Prop}

/-- `LimitedMap(depth)`. -/
def new (depth : Nat) : LimitedMap κ ν lt := ⟨OrderedMap.empty, none, depth⟩

def isEmpty (m : LimitedMap κ ν lt) : Bool := m.mMap.isEmpty

def clear (m : LimitedMap κ ν lt) : LimitedMap κ ν lt :=
  { m with mMap := OrderedMap.empty, mEnd := none }

variable [DecidableEq κ]

/-- The levels an iteration over `begin()..end()` visits. -/
def visible (m : LimitedMap κ ν lt) : List (κ × Payload ν) := m.mMap.before m.mEnd

/-- The value stored for a key. -/
def valueAt (m : LimitedMap κ ν lt) (k : κ) : Option ν := (m.mMap.lookup k).map Payload.value

variable [DecidableRel lt]

/-- `erase`; `none` if an iterator is used where that is undefined. -/
def erase (m : LimitedMap κ ν lt) (key : κ) : Option (LimitedMap κ ν lt) :=
  match m.mMap.find key with
  | none => some m
  | some k =>
      if m.mMap.size - 1 ≤ m.mDepth then some { m with mMap := m.mMap.erase k, mEnd := none }
      else
        (m.mMap.keyAt m.mEnd).bind fun first ↦
        (if lt key first ∨ key = first then m.mMap.next m.mEnd else some m.mEnd).bind fun mEnd ↦
        some { m with mMap := m.mMap.erase k, mEnd }

variable [IsStrictTotalOrder κ lt] [Zero ν]

/-- `update`; `none` if an iterator is used where that is undefined. -/
def update (m : LimitedMap κ ν lt) (key : κ) (value : ν) : Option (LimitedMap κ ν lt) :=
  match m.mMap.insert key (.ofValue value) with
  | (map, false) => some { m with mMap := map.modify key fun p ↦ ⟨value, p.value⟩ }
  | (map, true) =>
      if map.size ≤ m.mDepth then some { m with mMap := map, mEnd := none }
      else if m.mEnd = none then
        (map.prev none).bind fun mEnd ↦
        (map.keyAt mEnd).bind fun first ↦
        if first = key then some { m with mMap := map, mEnd }
        else
          -- `moved`: the iterator has taken its step and the comparison is skipped
          (map.modifyAt mEnd fun p ↦ ⟨p.value, 0⟩).bind fun map ↦ some { m with mMap := map, mEnd }
      else
        (map.keyAt m.mEnd).bind fun first ↦
        (if lt key first then map.prev m.mEnd else some m.mEnd).bind fun mEnd ↦
        (map.modifyAt mEnd fun p ↦ ⟨p.value, 0⟩).bind fun map ↦ some { m with mMap := map, mEnd }

end LimitedMap

end Tob
