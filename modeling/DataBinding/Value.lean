/-!
# Values

What a data object holds. Scalars are compared by value. Arrays and objects are shared, and
compared by identity: building the same array twice gives two different values.
-/

namespace DataBinding

/-- The identity of an object. -/
structure ObjectId where
  index : Nat
deriving DecidableEq, Repr

/-- The identity of an array. -/
structure ArrayId where
  index : Nat
deriving DecidableEq, Repr

/-- A value. The items of an array never change, so they stand in the value itself; the fields of
an object are found in the heap. -/
inductive Value where
  | null
  | bool (b : Bool)
  | number (x : Float)
  | text (s : String)
  | array (id : ArrayId) (items : List Value)
  | object (id : ObjectId)
deriving Inhabited

namespace Value

/-- Strict equality, which decides whether a write is a change. Zero equals minus zero, and NaN
equals nothing. -/
def strictEq : Value → Value → Bool
  | null, null => true
  | bool a, bool b => a == b
  | number a, number b => a == b
  | text a, text b => a == b
  | array a _, array b _ => a == b
  | object a, object b => a == b
  | _, _ => false

/-- The number in a value. -/
def number? : Value → Option Float
  | number x => some x
  | _ => none

/-- The object in a value. -/
def object? : Value → Option ObjectId
  | object o => some o
  | _ => none

/-- Whether a value is `null`. -/
def isNull : Value → Bool
  | null => true
  | _ => false

mutual

/-- The objects that a value keeps alive by itself: those in it, also through arrays. -/
def objects : Value → List ObjectId
  | array _ items => objectsOfItems items
  | object o => [o]
  | _ => []

/-- The objects that items keep alive. -/
def objectsOfItems : List Value → List ObjectId
  | [] => []
  | item :: rest => objects item ++ objectsOfItems rest

end

end Value

end DataBinding
