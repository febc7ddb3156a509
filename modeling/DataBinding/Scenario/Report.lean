import DataBinding.Document.Tree
import DataBinding.Error
import DataBinding.Heap.Text

/-!
# Reports

How values, nodes and errors are reported in JSON. A report tells a number by its text, so that it
keeps what JSON has no word for, and tells which fields of an object are reactive.
-/

namespace DataBinding.Scenario

/-- Why a step has no result. -/
inductive Failure where
  | view (error : ViewError)
  /-- The step names something that does not exist, or asks for what cannot be. -/
  | rejected

/-- A list of texts. -/
def jsonTexts (texts : List String) : Json := .array (texts.map .string)

/-- A text, or `null`. -/
def jsonText? : Option String → Json
  | none => .null
  | some text => .string text

/-- Pairs of texts. -/
def jsonPairs (pairs : List (String × String)) : Json :=
  .array (pairs.map fun pair => jsonTexts [pair.1, pair.2])

mutual

/-- A value. -/
def reportValue : Snapshot → Json
  | .null => .null
  | .bool b => .bool b
  | .number x => .object [("n", .string (pageNumbers.text x))]
  | .text s => .string s
  | .array items => .array (reportItems items)
  | .object fields => .object [("o", .array (reportFields fields))]
  | .repeated => .object [("circular", .bool true)]

/-- Items of an array. -/
def reportItems : List Snapshot → List Json
  | [] => []
  | item :: rest => reportValue item :: reportItems rest

/-- Fields of an object: the key, the value, and whether it is plain or how many watchers are
subscribed. -/
def reportFields : List (String × SlotMark × Snapshot) → List Json
  | [] => []
  | (key, .plain, value) :: rest =>
    .array [.string key, reportValue value, .string "p"] :: reportFields rest
  | (key, .reactive n, value) :: rest =>
    .array [.string key, reportValue value, .string "r", .ofNat n] :: reportFields rest

end

mutual

/-- A node with everything below it. -/
def reportTree : Tree → Json
  | .node _ content listeners children =>
    let below := [("kids", .array (reportTrees children)), ("ls", .ofNat listeners)]
    match content with
    | .element tag attributes value =>
      .object ([("el", .string tag), ("attrs", jsonPairs attributes.entries),
        ("value", .string value)] ++ below)
    | .text text => .object (("t", .string text) :: below)
    | .comment text => .object (("c", .string text) :: below)

/-- Nodes in a row. -/
def reportTrees : List Tree → List Json
  | [] => []
  | tree :: rest => reportTree tree :: reportTrees rest

end

/-- The name of a kind of error. -/
def errorName : ViewError → String
  | .unknownDirective _ => "UnknownDirective"
  | .missingEventName _ => "MissingEventName"
  | .unknownMethod _ => "UnknownMethod"
  | .rootNotFound _ => "RootNotFound"
  | .unknownProperty _ => "UnknownProperty"
  | .methodFailed .. => "Method"
  | .malformedJson => "Json"

/-- An error. What is wrong with a JSON text is not told. -/
def reportError (e : ViewError) : Json :=
  match e with
  | .malformedJson => .object [("error", .string (errorName e))]
  | _ => .object [("error", .string (errorName e)), ("message", .string e.message)]

/-- A failure. -/
def reportFailure : Failure → Json
  | .view e => reportError e
  | .rejected => .object [("error", .string "driver")]

/-- A result or a failure. -/
def reportOutcome : Except Failure Json → Json
  | .ok result => result
  | .error failure => reportFailure failure

end DataBinding.Scenario
