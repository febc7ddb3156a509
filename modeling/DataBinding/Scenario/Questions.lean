import DataBinding.Scenario.Play

/-!
# Single questions

What becomes of one configuration, one text, one name or one value, reported in full.
-/

namespace DataBinding.Scenario

open Act

/-- A question or a whole scenario. -/
inductive Question where
  | dialect (source : String)
  | object (source : String)
  | template (source : String) (dialect : Option String) (data : Option Expression)
  | directive (name : String) (dialect : Option String)
  | value (expression : Expression)
  | script (s : Script)

/-- The tokens of a configuration. -/
def reportDialect (source : String) : Json :=
  match Dialect.parse? source with
  | none => reportError .malformedJson
  | some d =>
    .object (d.tokens.map (fun t => (t.1, .string t.2)) ++
      [("json", .string d.toJson.compact), ("is_default", .bool (d == .standard))])

/-- The object of a JSON text. -/
def reportObject (source : String) : Act Json :=
  match Json.parse? source with
  | some (.object members) => do
    let v ← request (.ofJson (.object members))
    let o ← given v.object?
    let s ← ask (.snapshot v)
    return .object [("keys", jsonTexts (← ask (.keys o))), ("json", .string s.toJson.compact),
      ("desc", reportValue s)]
  | _ => throw (.view .malformedJson)

/-- A segment of a template. -/
def reportSegment : Segment → Json
  | .literal text => jsonTexts ["lit", text]
  | .marker key => jsonTexts ["mark", key]

/-- The parts of a template, and its text against some data. -/
def reportTemplate (source : String) (dialect : Option String) (data : Option Expression) :
    Act Json := do
  let d ← Setup.readDialect ⟨[], dialect⟩
  let o ← match data with
    | none => request .newObject
    | some e => e.evalObject []
  let t := Template.parse source d
  let text ← request (.render t o)
  return .object [("segments", .array (t.segments.map reportSegment)),
    ("markers", jsonTexts t.markers), ("has", .bool t.hasMarkers),
    ("detect", .bool (Template.detect source d)), ("render", .string text)]

/-- The directive that an attribute names. -/
def reportDirective (name : String) (dialect : Option String) : Act Json := do
  let d ← Setup.readDialect ⟨[], dialect⟩
  match ← settle (Directive.parse name d) with
  | none => return .string "none"
  | some .model => return .string "model"
  | some .text => return .string "text"
  | some (.on event) => return .object [("on", .string event)]

/-- Everything that can be asked of a value. -/
def reportQuestion (e : Expression) : Act Json := do
  let v ← e.eval []
  let s ← ask (.snapshot v)
  let text ← ask (.text v)
  let asBool := match v with
    | .bool b => Json.bool b
    | _ => .null
  let asNumber := match v with
    | .number x => Json.string (pageNumbers.text x)
    | _ => .null
  let asText := match v with
    | .text s => Json.string s
    | _ => .null
  return .object [("desc", reportValue s), ("text", .string text), ("display", .string text),
    ("json", .string s.toJson.compact), ("is_null", .bool v.isNull), ("as_bool", asBool),
    ("as_f64", asNumber), ("as_str", asText), ("is_object", .bool v.object?.isSome),
    ("self_eq", .bool (v.strictEq v))]

/-- The answer to a question. -/
def Question.answer : Question → Json
  | dialect source => reportDialect source
  | object source => perform (reportObject source)
  | template source d data => perform (reportTemplate source d data)
  | directive name d => perform (reportDirective name d)
  | value e => perform (reportQuestion e)
  | script s => s.play

end DataBinding.Scenario
