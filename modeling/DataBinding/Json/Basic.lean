/-!
# JSON values

Objects keep their members in order. A number is an integer or a double, and the two are told
apart, as they are in the text.
-/

namespace DataBinding

/-- A JSON number. -/
inductive Json.Number where
  | integer (n : Int)
  | double (x : Float)
deriving DecidableEq

/-- The nearest double. -/
def Json.Number.toFloat : Json.Number → Float
  | .integer n => Float.ofInt n
  | .double x => x

/-- A JSON value. -/
inductive Json where
  | null
  | bool (b : Bool)
  | number (n : Json.Number)
  | string (s : String)
  | array (items : List Json)
  | object (members : List (String × Json))
deriving Inhabited

namespace Json

/-- The number `n`. -/
def ofInt (n : Int) : Json := .number (.integer n)

/-- The number `n`. -/
def ofNat (n : Nat) : Json := .number (.integer n)

end Json

end DataBinding
