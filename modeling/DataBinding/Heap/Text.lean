import DataBinding.Decimal.Notation
import DataBinding.Heap.Snapshot
import DataBinding.Json.Printer
import DataBinding.Text.Quoted

/-!
# Values as JSON and as text

The text of a scalar is what a reader of the page sees; arrays and objects show their JSON.
The inspection of a value is for developers and tells its kind as well.
-/

namespace DataBinding

open Decimal

/-- How numbers are spelled on a page: positional from a millionth to twenty-one integral digits.
Minus zero shows no sign. -/
def pageNumbers : NumberFormat where
  least := some (-6)
  greatest := some 20
  pointZero := false
  tie := .up
  infinity := "Infinity"
  notANumber := "NaN"
  zero := "0"
  minusZero := "0"

/-- How numbers are spelled for developers: always positional. -/
def inspectedNumbers : NumberFormat where
  least := none
  greatest := none
  pointZero := false
  tie := .up
  infinity := "inf"
  notANumber := "NaN"
  zero := "0"
  minusZero := "-0"

/-- The greatest integer below which doubles and integers are the same. -/
def maxSafeInteger : Nat := 9007199254740991

/-- A double in JSON: an integer if it is a safe one, and `null` if it is not finite. -/
def jsonOfFloat (x : Float) : Json :=
  match integer? x with
  | some n => if n.natAbs ≤ maxSafeInteger then .ofInt n else .number (.double x)
  | none => if x.isFinite then .number (.double x) else .null

namespace Snapshot

mutual

/-- The JSON of a snapshot. -/
def toJson : Snapshot → Json
  | .null => .null
  | .bool b => .bool b
  | .number x => jsonOfFloat x
  | .text s => .string s
  | .array items => .array (itemsToJson items)
  | .object fields => .object (fieldsToJson fields)
  | .repeated => .string "[Circular]"

/-- The JSON of items. -/
def itemsToJson : List Snapshot → List Json
  | [] => []
  | item :: rest => item.toJson :: itemsToJson rest

/-- The JSON of fields. -/
def fieldsToJson : List (String × SlotMark × Snapshot) → List (String × Json)
  | [] => []
  | (key, _, value) :: rest => (key, value.toJson) :: fieldsToJson rest

end

end Snapshot

namespace Heap

variable {κ : Type}

/-- A value in JSON. -/
def toJson (h : Heap κ) (v : Value) : Json := (h.snapshot v).toJson

/-- The text of a value. -/
def text (h : Heap κ) : Value → String
  | .null => ""
  | .bool b => if b then "true" else "false"
  | .number x => pageNumbers.text x
  | .text s => s
  | v => (h.toJson v).compact

/-- Items between commas. -/
def listed (items : List String) : String := String.intercalate ", " items

mutual

/-- A value for developers. An object shows only its keys and which of them are reactive. -/
def inspect (h : Heap κ) : Value → String
  | .null => "Null"
  | .bool b => if b then "Bool(true)" else "Bool(false)"
  | .number x => "Number(" ++ inspectedNumbers.text x ++ ")"
  | .text s => "Text(" ++ Text.quoted s ++ ")"
  | .array _ items => "[" ++ listed (h.inspectItems items) ++ "]"
  | .object o =>
    let fields := (h.slots o).entries.map fun entry =>
      Text.quoted entry.1 ++ ": " ++ (if entry.2.isPlain then "\"plain\"" else "\"reactive\"")
    "\x7b" ++ listed fields ++ "\x7d"

/-- Items for developers. -/
def inspectItems (h : Heap κ) : List Value → List String
  | [] => []
  | item :: rest => h.inspect item :: h.inspectItems rest

end

end Heap

end DataBinding
