/-!
# The shortest decimal of a floating-point number

A finite double is `mantissa * 2 ^ exponent`. Of the decimals that round to it, this module picks
one with the fewest digits, and of those the nearest. All of it is exact arithmetic on natural
numbers; the tie, which the rule leaves open, is the caller's.
-/

namespace DataBinding.Decimal

/-- Which of two equally near decimals is taken. -/
inductive Tie where
  | up
  | toEven
deriving DecidableEq

/-- The positive number `digits * 10 ^ exponent`. -/
structure Numeral where
  digits : Nat
  exponent : Int
deriving DecidableEq

namespace Numeral

/-- How many decimal digits a number has. -/
def digitCount (n : Nat) : Nat :=
  (Nat.toDigits 10 n).length

/-- The exponent of the leading digit. -/
def leading (d : Numeral) : Int :=
  d.exponent + digitCount d.digits - 1

/-- Moves trailing zeros of the digits into the exponent. -/
def stripZeros : Nat → Numeral → Numeral
  | 0, d => d
  | n + 1, d =>
    if d.digits % 10 = 0 ∧ d.digits ≠ 0 then stripZeros n ⟨d.digits / 10, d.exponent + 1⟩ else d

end Numeral

/-- A positive rational `num / den` with the bounds of what rounds to it over the same
denominator. The bounds themselves belong to the interval if `closed` holds. -/
structure Target where
  num : Nat
  den : Nat
  low : Nat
  high : Nat
  closed : Bool

/-- The interval of reals that round to `mantissa * 2 ^ exponent`. The gap below a power of two is
half as wide as the one above it, but for the smallest exponent, below which nothing is finer. -/
def Target.ofBinary (mantissa : Nat) (exponent : Int) : Target :=
  -- everything is counted in quarters of a unit, so that both halves of a gap are whole
  let below := if mantissa = Nat.pow 2 52 ∧ exponent ≠ -1074 then 1 else 2
  let scale := Nat.pow 2 (exponent - 2).toNat
  { num := 4 * mantissa * scale
    den := Nat.pow 2 (2 - exponent).toNat
    low := (4 * mantissa - below) * scale
    high := (4 * mantissa + 2) * scale
    closed := mantissa % 2 = 0 }

/-- The exponent of the first decimal digit of `num / den`. -/
def Target.leading (t : Target) : Int :=
  if t.den ≤ t.num then Numeral.digitCount (t.num / t.den) - 1
  else -(Numeral.digitCount (t.den / t.num) : Int)

/-- Compares the grid point `k * 10 ^ unit` with `x / t.den`, by cross-multiplication. -/
def Target.compareGrid (t : Target) (k : Nat) (unit : Int) (x : Nat) : Ordering :=
  compare (k * Nat.pow 10 unit.toNat * t.den) (x * Nat.pow 10 (-unit).toNat)

/-- Whether the grid point `k * 10 ^ unit` rounds to the target. -/
def Target.admits (t : Target) (k : Nat) (unit : Int) : Bool :=
  let above := t.compareGrid k unit t.low
  let below := t.compareGrid k unit t.high
  (above == .gt && below == .lt) || (t.closed && (above == .eq || below == .eq))

/-- The two neighbours of the target on the grid of step `10 ^ unit` that round to it, the nearer
one if both do. -/
def Target.onGrid? (t : Target) (tie : Tie) (unit : Int) : Option Nat :=
  let num := t.num * Nat.pow 10 (-unit).toNat
  let den := t.den * Nat.pow 10 unit.toNat
  -- the target lies between the grid points `floor` and `floor + 1`
  let floor := num / den
  let rest := num % den
  match t.admits floor unit, t.admits (floor + 1) unit with
  | true, false => some floor
  | false, true => some (floor + 1)
  | false, false => none
  | true, true =>
    match compare (2 * rest) den with
    | .lt => some floor
    | .gt => some (floor + 1)
    | .eq =>
      match tie with
      | .up => some (floor + 1)
      | .toEven => some (if floor % 2 = 0 then floor else floor + 1)

/-- Tries grids of growing fineness, `10 ^ unit` first, and cuts off after the last. -/
def Target.search (t : Target) (tie : Tie) : Nat → Int → Numeral
  | 0, unit => ⟨t.num * Nat.pow 10 (-unit).toNat / (t.den * Nat.pow 10 unit.toNat), unit⟩
  | n + 1, unit =>
    match t.onGrid? tie unit with
    | some k => ⟨k, unit⟩
    | none => t.search tie n (unit - 1)

/-- The shortest decimal that rounds to `mantissa * 2 ^ exponent`. Seventeen digits always do. -/
def shortest (tie : Tie) (mantissa : Nat) (exponent : Int) : Numeral :=
  let t := Target.ofBinary mantissa exponent
  (t.search tie 17 t.leading).stripZeros 17

end DataBinding.Decimal
