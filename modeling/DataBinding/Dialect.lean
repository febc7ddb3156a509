import DataBinding.Json.Printer
import DataBinding.Json.Reader

/-!
# Dialects

A dialect is the five tokens that templates are written with: what announces a directive, what
separates a directive from its qualifier, the shorthand for events, and the two delimiters of an
interpolation. Any of them can be configured in JSON; one that is not keeps its default.
-/

namespace DataBinding

/-- The tokens of a template. -/
structure Dialect where
  directivePrefix : String := "v-"
  qualifierSeparator : String := ":"
  eventPrefix : String := "@"
  opening : String := "\x7b\x7b"
  closing : String := "\x7d\x7d"
deriving DecidableEq

namespace Dialect

/-- The dialect of `v-model`, `v-on:click`, `@click` and double braces. -/
def standard : Dialect := {}

/-- The names of the tokens in a configuration, in order. -/
def tokenNames : List String :=
  ["directive_prefix", "qualifier_separator", "event_prefix", "open", "close"]

/-- The tokens under their names. -/
def tokens (d : Dialect) : List (String × String) :=
  tokenNames.zip [d.directivePrefix, d.qualifierSeparator, d.eventPrefix, d.opening, d.closing]

/-- The dialect with the tokens of a list; a token that is missing there is the standard one. -/
def ofTokens (tokens : List (String × String)) : Dialect :=
  let token (name : String) (default : String) : String :=
    (Entries.find? tokens name).getD default
  { directivePrefix := token "directive_prefix" standard.directivePrefix
    qualifierSeparator := token "qualifier_separator" standard.qualifierSeparator
    eventPrefix := token "event_prefix" standard.eventPrefix
    opening := token "open" standard.opening
    closing := token "close" standard.closing }

/-- The text of a string literal; any other value has none. -/
def textOf? : Json.Written → Option String
  | .string s => s.text?
  | _ => none

/-- The tokens among the members of an object. Other members are skipped, whatever they hold; a
token given twice, or given something other than a string, is an error. -/
def tokensOf? (given : List (String × String)) :
    List (Json.StringLiteral × Json.Written) → Option (List (String × String))
  | [] => some given
  | (key, value) :: rest =>
    match key.text? with
    | none => none
    | some key =>
      if key ∈ tokenNames then
        if key ∈ Entries.keys given then none
        else
          match textOf? value with
          | none => none
          | some token => tokensOf? (given ++ [(key, token)]) rest
      else tokensOf? given rest

/-- The strings of a list, if there is nothing else in it. -/
def textsOf? : List Json.Written → Option (List String)
  | [] => some []
  | item :: rest =>
    match textOf? item with
    | none => none
    | some text => (textsOf? rest).map (text :: ·)

/-- Reads a configuration: an object of tokens by name, or an array of them in order. -/
def parse? (text : String) : Option Dialect :=
  match Json.Written.parse? text with
  | some (.object members) => (tokensOf? [] members).map ofTokens
  | some (.array items) =>
    if items.length ≤ tokenNames.length then
      (textsOf? items).map fun texts => ofTokens (tokenNames.zip texts)
    else none
  | _ => none

/-- The configuration of a dialect. -/
def toJson (d : Dialect) : Json :=
  .object (d.tokens.map fun token => (token.1, .string token.2))

end Dialect

end DataBinding
