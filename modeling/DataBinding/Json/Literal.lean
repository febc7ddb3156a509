/-!
# JSON literals

Strings and numbers as they are written. What a literal stands for is a second step, which can
fail: half of a surrogate pair is no character, and a number can be too large for a double.
-/

namespace DataBinding.Json

/-- One element of a string literal: a character, or a sixteen-bit unit from a `\u` escape. -/
inductive StringPiece where
  | char (c : Char)
  | unit (n : Nat)

/-- A string literal. -/
abbrev StringLiteral := List StringPiece

/-- Whether a unit is the first half of a surrogate pair. -/
def isHighSurrogate (n : Nat) : Bool := 0xD800 ≤ n && n < 0xDC00

/-- Whether a unit is the second half of a surrogate pair. -/
def isLowSurrogate (n : Nat) : Bool := 0xDC00 ≤ n && n < 0xE000

/-- The characters a string literal stands for, unless half of a surrogate pair stands alone. -/
def StringLiteral.chars? : StringLiteral → Option (List Char)
  | [] => some []
  | .char c :: rest => (StringLiteral.chars? rest).map (c :: ·)
  | .unit high :: .unit low :: rest =>
    if isHighSurrogate high then
      if isLowSurrogate low then
        (StringLiteral.chars? rest).map
          (Char.ofNat (0x10000 + (high - 0xD800) * 0x400 + (low - 0xDC00)) :: ·)
      else none
    else if isLowSurrogate high then none
    else (StringLiteral.chars? (.unit low :: rest)).map (Char.ofNat high :: ·)
  | .unit n :: rest =>
    if isHighSurrogate n || isLowSurrogate n then none
    else (StringLiteral.chars? rest).map (Char.ofNat n :: ·)

/-- The text a string literal stands for. -/
def StringLiteral.text? (s : StringLiteral) : Option String :=
  (StringLiteral.chars? s).map String.ofList

/-- A number literal. The digits of each part are kept as digits. -/
structure NumberLiteral where
  negative : Bool
  whole : List Nat
  fraction : Option (List Nat)
  exponent : Option (Bool × List Nat)

end DataBinding.Json
