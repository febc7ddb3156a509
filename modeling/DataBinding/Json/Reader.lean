import DataBinding.Json.Rounding
import DataBinding.OrderedMap

/-!
# Reading JSON text

The text is first read by the grammar alone into a `Written` value, whose literals are still as
they stand in the text. `Written.value?` then gives the value: it refuses lone surrogates, numbers
beyond the doubles, and nesting deeper than the limit. `parse?` does both.

White space is the four characters of the grammar. Control characters stand in no string.
-/

namespace DataBinding.Json

/-- A value as it is written. -/
inductive Written where
  | null
  | bool (b : Bool)
  | number (n : NumberLiteral)
  | string (s : StringLiteral)
  | array (items : List Written)
  | object (members : List (StringLiteral × Written))
deriving Inhabited

/-- How many arrays and objects may be open at once. -/
def maxDepth : Nat := 127

/-! ## The grammar -/

/-- White space between tokens. -/
def isSpace (c : Char) : Bool := c = ' ' || c = '\t' || c = '\n' || c = '\r'

/-- Drops white space. -/
def skipSpace (cs : List Char) : List Char := cs.dropWhile isSpace

/-- The value of a hexadecimal digit. -/
def hexDigit? (c : Char) : Option Nat :=
  if c.isDigit then some (c.toNat - '0'.toNat)
  else if 'a' ≤ c && c ≤ 'f' then some (c.toNat - 'a'.toNat + 10)
  else if 'A' ≤ c && c ≤ 'F' then some (c.toNat - 'A'.toNat + 10)
  else none

/-- The value of four hexadecimal digits. -/
def hexUnit? (a b c d : Char) : Option Nat := do
  let a ← hexDigit? a
  let b ← hexDigit? b
  let c ← hexDigit? c
  let d ← hexDigit? d
  return ((a * 16 + b) * 16 + c) * 16 + d

/-- The character that a backslash and this letter stand for. -/
def escaped? (c : Char) : Option Char :=
  match c with
  | '"' => some '"'
  | '\\' => some '\\'
  | '/' => some '/'
  | 'b' => some '\x08'
  | 'f' => some '\x0c'
  | 'n' => some '\n'
  | 'r' => some '\r'
  | 't' => some '\t'
  | _ => none

/-- Reads a string literal whose opening quote has been read. The pieces read are gathered in
reverse. -/
def readString (pieces : StringLiteral) : List Char → Option (StringLiteral × List Char)
  | [] => none
  | '"' :: rest => some (pieces.reverse, rest)
  | '\\' :: 'u' :: a :: b :: c :: d :: rest =>
    match hexUnit? a b c d with
    | some n => readString (.unit n :: pieces) rest
    | none => none
  | '\\' :: c :: rest =>
    match escaped? c with
    | some e => readString (.char e :: pieces) rest
    | none => none
  | c :: rest => if c.toNat < 0x20 || c = '\\' then none else readString (.char c :: pieces) rest

/-- Reads a run of digits. -/
def readDigits : List Char → List Nat × List Char
  | [] => ([], [])
  | c :: rest =>
    if c.isDigit then
      let (digits, rest) := readDigits rest
      ((c.toNat - '0'.toNat) :: digits, rest)
    else ([], c :: rest)

/-- Reads a run of at least one digit. -/
def readDigits1? (cs : List Char) : Option (List Nat × List Char) :=
  match readDigits cs with
  | ([], _) => none
  | result => some result

/-- Reads the digits before the point: a zero stands there only alone. -/
def readWhole? (cs : List Char) : Option (List Nat × List Char) :=
  match readDigits cs with
  | ([], _) => none
  | (0 :: _ :: _, _) => none
  | result => some result

/-- Reads the digits after a point, if there is one. -/
def readFraction? : List Char → Option (Option (List Nat) × List Char)
  | '.' :: rest => (readDigits1? rest).map fun (digits, rest) => (some digits, rest)
  | cs => some (none, cs)

/-- Reads an exponent, if there is one. -/
def readExponent? : List Char → Option (Option (Bool × List Nat) × List Char)
  | e :: rest =>
    if e = 'e' || e = 'E' then
      match rest with
      | '-' :: rest => (readDigits1? rest).map fun (digits, rest) => (some (true, digits), rest)
      | '+' :: rest => (readDigits1? rest).map fun (digits, rest) => (some (false, digits), rest)
      | rest => (readDigits1? rest).map fun (digits, rest) => (some (false, digits), rest)
    else some (none, e :: rest)
  | [] => some (none, [])

/-- Reads a number literal after its sign. -/
def readNumber? (negative : Bool) (cs : List Char) : Option (NumberLiteral × List Char) := do
  let (whole, cs) ← readWhole? cs
  let (fraction, cs) ← readFraction? cs
  let (exponent, cs) ← readExponent? cs
  return (⟨negative, whole, fraction, exponent⟩, cs)

mutual

/-- Reads one value. Each call takes a character or hands over to one that does, so twice the
length of the text is depth enough. -/
def readValue? : Nat → List Char → Option (Written × List Char)
  | 0, _ => none
  | depth + 1, cs =>
    match skipSpace cs with
    | '"' :: rest => (readString [] rest).map fun (s, rest) => (.string s, rest)
    | '[' :: rest =>
      match skipSpace rest with
      | ']' :: rest => some (.array [], rest)
      | rest => (readItems? depth rest).map fun (items, rest) => (.array items, rest)
    | '\x7b' :: rest =>
      match skipSpace rest with
      | '\x7d' :: rest => some (.object [], rest)
      | rest => (readMembers? depth rest).map fun (members, rest) => (.object members, rest)
    | 'n' :: 'u' :: 'l' :: 'l' :: rest => some (.null, rest)
    | 't' :: 'r' :: 'u' :: 'e' :: rest => some (.bool true, rest)
    | 'f' :: 'a' :: 'l' :: 's' :: 'e' :: rest => some (.bool false, rest)
    -- anything else can only be a number
    | '-' :: rest => (readNumber? true rest).map fun (n, rest) => (.number n, rest)
    | rest => (readNumber? false rest).map fun (n, rest) => (.number n, rest)

/-- Reads the items of an array up to its closing bracket; there is at least one. -/
def readItems? : Nat → List Char → Option (List Written × List Char)
  | 0, _ => none
  | depth + 1, cs =>
    match readValue? depth cs with
    | none => none
    | some (item, rest) =>
      match skipSpace rest with
      | ']' :: rest => some ([item], rest)
      | ',' :: rest => (readItems? depth rest).map fun (items, rest) => (item :: items, rest)
      | _ => none

/-- Reads the members of an object up to its closing brace; there is at least one. -/
def readMembers? : Nat → List Char → Option (List (StringLiteral × Written) × List Char)
  | 0, _ => none
  | depth + 1, cs =>
    match skipSpace cs with
    | '"' :: rest =>
      match readString [] rest with
      | none => none
      | some (key, rest) =>
        match skipSpace rest with
        | ':' :: rest =>
          match readValue? depth rest with
          | none => none
          | some (value, rest) =>
            match skipSpace rest with
            | '\x7d' :: rest => some ([(key, value)], rest)
            | ',' :: rest =>
              (readMembers? depth rest).map fun (members, rest) => ((key, value) :: members, rest)
            | _ => none
        | _ => none
    | _ => none

end

/-- Reads a text that holds one value and nothing else. -/
def Written.parse? (text : String) : Option Written :=
  let cs := text.toList
  match readValue? (2 * cs.length + 2) cs with
  | none => none
  | some (value, rest) => if (skipSpace rest).isEmpty then some value else none

/-! ## The value -/

mutual

/-- How many containers are open at the deepest place. -/
def Written.depth : Written → Nat
  | .array items => depthOfItems items + 1
  | .object members => depthOfMembers members + 1
  | _ => 0

/-- The greatest depth among items. -/
def depthOfItems : List Written → Nat
  | [] => 0
  | item :: rest => max item.depth (depthOfItems rest)

/-- The greatest depth among members. -/
def depthOfMembers : List (StringLiteral × Written) → Nat
  | [] => 0
  | (_, value) :: rest => max value.depth (depthOfMembers rest)

end

mutual

/-- The value that is written, at any depth. -/
def Written.meaning? : Written → Option Json
  | .null => some .null
  | .bool b => some (.bool b)
  | .number n => n.number?.map .number
  | .string s => s.text?.map .string
  | .array items => (meaningOfItems? items).map .array
  | .object members => (meaningOfMembers? [] members).map .object

/-- The values of items. -/
def meaningOfItems? : List Written → Option (List Json)
  | [] => some []
  | item :: rest =>
    match item.meaning? with
    | none => none
    | some value => (meaningOfItems? rest).map (value :: ·)

/-- The values of members, after those already `read`. A repeated key keeps its first place and
takes its last value. -/
def meaningOfMembers? (read : List (String × Json)) :
    List (StringLiteral × Written) → Option (List (String × Json))
  | [] => some read
  | (key, value) :: rest =>
    match key.text?, value.meaning? with
    | some key, some value => meaningOfMembers? (Entries.put read key value) rest
    | _, _ => none

end

/-- The value that is written, if it is not nested too deeply. -/
def Written.value? (w : Written) : Option Json :=
  if w.depth ≤ maxDepth then w.meaning? else none

/-- The value of a JSON text. -/
def parse? (text : String) : Option Json :=
  (Written.parse? text).bind Written.value?

end DataBinding.Json
