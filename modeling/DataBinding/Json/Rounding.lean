import DataBinding.Json.Basic
import DataBinding.Json.Literal

/-!
# The number a literal stands for

A literal without point and exponent that fits 64 bits is that integer. Any other becomes a
double: as many leading digits as fit 64 bits are rounded to a double, which is then multiplied
or divided by a power of ten. Each step rounds once, so a literal of many digits can miss the
nearest double by one. A number beyond the doubles is refused; one below them is zero.
-/

namespace DataBinding.Json

/-- Appends decimal digits to `significand` as long as it fits 64 bits. Also gives the digits that
are left. -/
def absorb (significand : Nat) : List Nat → Nat × List Nat
  | [] => (significand, [])
  | d :: ds =>
    if significand * 10 + d < Nat.pow 2 64 then absorb (significand * 10 + d) ds
    else (significand, d :: ds)

/-- The double nearest to `10 ^ n`. -/
def powerOfTen (n : Nat) : Float := Float.ofScientific 1 false n

/-- Multiplies by a power of ten, in steps of at most `10 ^ 308`. -/
def scale? (x : Float) (exponent : Int) : Option Float :=
  if exponent.natAbs ≤ 308 then
    if 0 ≤ exponent then
      let y := x * powerOfTen exponent.natAbs
      if y.isInf then none else some y
    else some (x / powerOfTen exponent.natAbs)
  else if x == 0 then some x
  else if 0 ≤ exponent then none
  else scale? (x / powerOfTen 308) (exponent + 308)
termination_by exponent.natAbs
decreasing_by omega

/-- The value of decimal digits. -/
def digitsValue (digits : List Nat) : Nat :=
  digits.foldl (fun n d => n * 10 + d) 0

namespace NumberLiteral

/-- The value of the exponent part, zero if there is none. -/
def exponentValue (l : NumberLiteral) : Int :=
  match l.exponent with
  | none => 0
  | some (negative, digits) => if negative then -(digitsValue digits : Int) else digitsValue digits

/-- The number a literal stands for, unless it is too large. Minus zero is a double. -/
def number? (l : NumberLiteral) : Option Number :=
  let (significand, beyond) := absorb 0 l.whole
  if l.fraction.isNone && l.exponent.isNone && beyond.isEmpty then
    if !l.negative then some (.integer significand)
    else if 0 < significand ∧ significand ≤ Nat.pow 2 63 then some (.integer (-significand))
    else some (.double (-Float.ofNat significand))
  else
    -- digits before the point that do not fit are dropped, but those after it are still tried
    let fraction := l.fraction.getD []
    let (significand, unread) := absorb significand fraction
    let places := fraction.length - unread.length
    let exponent := l.exponentValue + beyond.length - places
    (scale? (Float.ofNat significand) exponent).map fun x => .double (if l.negative then -x else x)

end NumberLiteral

end DataBinding.Json
