/-!
# Reading a number

A number is decimal digits with an optional point and exponent, or the name of one of the doubles
that have no digits. It is rounded once, to the nearest double.
-/

namespace DataBinding.Decimal

/-- The digits at the start of a text, as their value and count, and the rest. -/
def digits : List Char → Nat → Nat → (Nat × Nat) × List Char
  | [], value, count => ((value, count), [])
  | c :: cs, value, count =>
    if c.isDigit then digits cs (value * 10 + (c.toNat - '0'.toNat)) (count + 1)
    else ((value, count), c :: cs)

/-- The exponent at the end of a text, zero if there is none. -/
def exponent? : List Char → Option Int
  | [] => some 0
  | e :: cs =>
    if e = 'e' ∨ e = 'E' then
      let (negative, cs) :=
        match cs with
        | '-' :: cs => (true, cs)
        | '+' :: cs => (false, cs)
        | cs => (false, cs)
      match digits cs 0 0 with
      | ((_, 0), _) => none
      | ((value, _), []) => some (if negative then -(value : Int) else value)
      | _ => none
    else none

/-- The double nearest to `mantissa * 10 ^ exponent`. Far beyond the doubles it is infinite, far
below them zero. -/
def nearest (mantissa : Nat) (exponent : Int) : Float :=
  if mantissa = 0 then 0
  else if 400 < exponent then 1 / 0
  else if exponent + (Nat.toDigits 10 mantissa).length < -400 then 0
  else Float.ofScientific mantissa (decide (exponent < 0)) exponent.natAbs

/-- The number without its sign. -/
def unsigned? (cs : List Char) : Option Float :=
  let name := cs.map Char.toLower
  if name = "inf".toList ∨ name = "infinity".toList then some (1 / 0)
  else if name = "nan".toList then some (0 / 0)
  else
    let ((whole, wholeCount), rest) := digits cs 0 0
    let ((mantissa, count), rest) :=
      match rest with
      | '.' :: rest => digits rest whole wholeCount
      | rest => ((whole, wholeCount), rest)
    if count = 0 then none
    else (exponent? rest).map fun e => nearest mantissa (e - (count - wholeCount : Nat))

/-- The double that a text stands for. -/
def float? (text : String) : Option Float :=
  match text.toList with
  | '-' :: cs => (unsigned? cs).map fun x => -x
  | '+' :: cs => unsigned? cs
  | cs => unsigned? cs

end DataBinding.Decimal
