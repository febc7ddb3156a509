import DataBinding.Scenario.Evaluation

/-!
# Steps on bindings and apps

What each step does, and its result.
-/

namespace DataBinding.Scenario

open Act

/-- The dialect of a setup. -/
def Setup.readDialect (s : Setup Body) : Act Dialect :=
  match s.dialect with
  | none => return .standard
  | some text =>
    match Dialect.parse? text with
    | some d => return d
    | none => throw (.view .malformedJson)

/-- The methods of a setup, by name. -/
def Setup.methodTable (s : Setup Body) : OrderedMap Code :=
  .ofList (s.methods.map fun m => (m.1, .method m.1 m.2))

/-- What bindings to an object are made of. -/
def Setup.kit (s : Setup Body) (data : ObjectId) : Act (Kit Code) := do
  return { data, methods := s.methodTable, dialect := ← s.readDialect }

/-- The names of methods for developers. -/
def inspectMethods (methods : OrderedMap Code) : String :=
  "\x7b" ++ Heap.listed (methods.keys.map Text.quoted) ++ "\x7d"

/-- A dialect for developers. -/
def inspectDialect (d : Dialect) : String :=
  "Syntax \x7b " ++ Heap.listed (d.tokens.map fun t => t.1 ++ ": " ++ Text.quoted t.2) ++ " \x7d"

/-- Does a step on bindings and apps. -/
def AppStep.run (locals : Locals) : AppStep Body → Act Json
  | bind name directive expression object setup => do
    let n ← node name
    let o ← object.evalObject locals
    let kit ← setup.kit o
    request (.bind directive n expression kit)
    return .null
  | compile name object setup => do
    let n ← node name
    let o ← object.evalObject locals
    let kit ← setup.kit o
    settle (← request (.compile kit n))
    return .null
  | methods setup asked => do
    let table := setup.methodTable.insert "extra" .succeed
    let answers := asked.map fun name =>
      Json.array [.bool (table.contains name), .bool (table.find? name).isSome]
    return .array [.string (inspectMethods table), .array answers]
  | inspectCompiler setup => do
    let d := inspectDialect (← setup.readDialect)
    let m := inspectMethods setup.methodTable
    return jsonTexts ["Compiler \x7b syntax: " ++ d ++ ", methods: " ++ m ++ " \x7d", d, m]
  | mount name place selector object setup hook succeeding => do
    let n ← node place
    let o ← object.evalObject locals
    let kit ← setup.kit o
    let hook ← Act.hook hook
    let methods := match succeeding with
      | none => kit.methods
      | some method => kit.methods.insert method .succeed
    let place := match selector with
      | none => Mount.node n
      | some selector => .selector n selector
    let app ← settle (← request (.mount place hook { kit with methods }))
    modifyDesk fun d => { d with apps := d.apps.insert name app }
    return jsonTexts app.keys
  | get name key => do
    let app ← Act.app name
    match ← holding [.object app.data] (request (.getProperty app key)) with
    | none => return .string "none"
    | some v => return .object [("some", ← report v)]
  | set name key value => do
    let v ← value.eval locals
    let app ← Act.app name
    settle (← holding [.object app.data] (request (.setProperty app key v)))
    return .null
  | keys name => do
    return jsonTexts (← Act.app name).keys
  | inspect name => do
    let app ← Act.app name
    let tree ← ask (.tree app.root)
    return .string ("App \x7b el: " ++ tree.inspect ++ ", keys: [" ++
      Heap.listed (app.keys.map Text.quoted) ++ "], methods: " ++ inspectMethods app.methods ++
      " \x7d")
  | root name keep => do
    keepNode keep (← Act.app name).root
    return .null
  | data name keep => do
    keepValue keep (.object (← Act.app name).data)
    return .null
  | call name method event object => do
    let app ← Act.app name
    let o ← match object with
      | none => pure app.data
      | some object => object.evalObject locals
    match app.methods.find? method with
    | none => return .string "no method"
    | some code =>
      settle (← request (.callMethod code o event))
      return .string "called"

end DataBinding.Scenario
