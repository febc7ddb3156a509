import DataBinding.Decimal.Notation
import DataBinding.Json.Basic

/-!
# Compact JSON text

Values without any white space, members in order.
-/

namespace DataBinding.Json

open Decimal

/-- How JSON spells doubles: positional from `0.00001` to sixteen integral digits, always with a
point there, and `null` for what is not a number of JSON. -/
def numberFormat : NumberFormat where
  least := some (-5)
  greatest := some 15
  pointZero := true
  tie := .toEven
  infinity := "null"
  notANumber := "null"
  zero := "0.0"
  minusZero := "-0.0"

/-- The text of a number; what is not finite has none and is written `null`. -/
def Number.text : Number → String
  | .integer n => toString n
  | .double x => if x.isFinite then numberFormat.text x else "null"

/-- How a character stands in a string: only quotes, backslashes and control characters are
escaped, with a letter where JSON has one. -/
def escape (c : Char) : List Char :=
  if c = '"' then ['\\', '"']
  else if c = '\\' then ['\\', '\\']
  else if c = '\n' then ['\\', 'n']
  else if c = '\r' then ['\\', 'r']
  else if c = '\t' then ['\\', 't']
  else if c.toNat = 0x8 then ['\\', 'b']
  else if c.toNat = 0xC then ['\\', 'f']
  else if c.toNat < 0x20 then
    ['\\', 'u', '0', '0'] ++ Nat.toDigits 16 (c.toNat / 16) ++ Nat.toDigits 16 (c.toNat % 16)
  else [c]

/-- A string literal. -/
def literal (s : String) : String :=
  String.ofList ('"' :: s.toList.flatMap escape ++ ['"'])

/-- Items between commas. -/
def commaSeparated (items : List String) : String :=
  String.intercalate "," items

mutual

/-- The compact text of a value. -/
def compact : Json → String
  | .null => "null"
  | .bool b => if b then "true" else "false"
  | .number n => n.text
  | .string s => literal s
  | .array items => "[" ++ commaSeparated (compactItems items) ++ "]"
  | .object members => "\x7b" ++ commaSeparated (compactMembers members) ++ "\x7d"

/-- The texts of the items of an array. -/
def compactItems : List Json → List String
  | [] => []
  | item :: rest => compact item :: compactItems rest

/-- The texts of the members of an object. -/
def compactMembers : List (String × Json) → List String
  | [] => []
  | (key, value) :: rest => (literal key ++ ":" ++ compact value) :: compactMembers rest

end

end DataBinding.Json
