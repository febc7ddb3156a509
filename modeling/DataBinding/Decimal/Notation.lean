import DataBinding.Decimal.Shortest

/-!
# Writing a number

A double is written with the fewest digits that read back, either positionally or with an
exponent. Where the one notation gives way to the other, and how the numbers that have no digits
are spelled, is the business of a `NumberFormat`.
-/

namespace DataBinding.Decimal

/-- How doubles are spelled. -/
structure NumberFormat where
  /-- The least exponent of the leading digit that is written positionally, if there is one. -/
  least : Option Int
  /-- The greatest exponent of the leading digit that is written positionally, if there is one. -/
  greatest : Option Int
  /-- Whether a positional number without a fraction ends in `.0`. -/
  pointZero : Bool
  tie : Tie
  infinity : String
  notANumber : String
  zero : String
  minusZero : String

namespace NumberFormat

/-- Whether a decimal with this exponent of its leading digit is written positionally. -/
def positional (f : NumberFormat) (leading : Int) : Bool :=
  f.least.all (· ≤ leading) && f.greatest.all (leading ≤ ·)

end NumberFormat

namespace Numeral

/-- All digits around a decimal point: zeros fill the places between the digits and the point. -/
def positional (d : Numeral) (pointZero : Bool) : List Char :=
  let digits := Nat.toDigits 10 d.digits
  if 0 ≤ d.exponent then
    digits ++ List.replicate d.exponent.toNat '0' ++ (if pointZero then ['.', '0'] else [])
  else
    let places := (-d.exponent).toNat
    let padded := List.replicate (places + 1 - digits.length) '0' ++ digits
    padded.take (padded.length - places) ++ '.' :: padded.drop (padded.length - places)

/-- One digit, the others after a point, and the exponent of the first with its sign. -/
def scientific (d : Numeral) : List Char :=
  let mantissa :=
    match Nat.toDigits 10 d.digits with
    | [] => []
    | [c] => [c]
    | c :: rest => c :: '.' :: rest
  let sign := if d.leading < 0 then '-' else '+'
  mantissa ++ 'e' :: sign :: Nat.toDigits 10 d.leading.natAbs

/-- A decimal in the notation that the format chooses for its size. -/
def spelled (d : Numeral) (f : NumberFormat) : List Char :=
  if f.positional d.leading then d.positional f.pointZero else d.scientific

end Numeral

/-- The text of a double. -/
def NumberFormat.text (f : NumberFormat) (x : Float) : String :=
  match x.toModel.unpack with
  | .notANumber => f.notANumber
  | .infinity .positive => f.infinity
  | .infinity .negative => "-" ++ f.infinity
  | .zero .positive => f.zero
  | .zero .negative => f.minusZero
  | .finite sign mantissa exponent _ =>
    let digits := String.ofList ((shortest f.tie mantissa exponent).spelled f)
    match sign with
    | .positive => digits
    | .negative => "-" ++ digits

/-- The integer that a double is, if it is one. -/
def integer? (x : Float) : Option Int :=
  match x.toModel.unpack with
  | .zero _ => some 0
  | .finite sign mantissa exponent _ =>
    let magnitude? :=
      if 0 ≤ exponent then some (mantissa * Nat.pow 2 exponent.toNat)
      else
        let unit := Nat.pow 2 (-exponent).toNat
        if mantissa % unit = 0 then some (mantissa / unit) else none
    match sign with
    | .positive => magnitude?.map Int.ofNat
    | .negative => magnitude?.map fun n => -(Int.ofNat n)
  | _ => none

end DataBinding.Decimal
