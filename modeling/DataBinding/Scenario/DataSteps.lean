import DataBinding.Scenario.Evaluation

/-!
# Steps on values and objects

What each step does, and its result. A step that only does something has the result `null`.
-/

namespace DataBinding.Scenario

open Act

/-- The JSON text of a value. -/
def jsonOf (v : Value) : Act Json := do
  let s ← ask (.snapshot v)
  return .string s.toJson.compact

/-- How an observer is shown: what it tells its hook is its own affair. -/
def observerText : Json := .string "Observer \x7b .. \x7d"

/-- Does a step on values and objects. -/
def DataStep.run (locals : Locals) : DataStep → Act Json
  | keep name value => do
    let v ← value.eval locals
    keepValue name v
    report v
  | fromJson name source => do
    match Json.parse? source with
    | some (.object members) =>
      let v ← request (.ofJson (.object members))
      keepValue name v
      report v
    | _ => throw (.view .malformedJson)
  | drop shelf name => do
    let held := (← desk).holds name shelf
    modifyDesk fun d => d.drop name shelf
    return .bool held
  | get object key => do
    let o ← object.evalObject locals
    report (← request (.read o key))
  | peek object key => do
    let o ← object.evalObject locals
    report (← ask (.peek o key))
  | set object key value => do
    let v ← value.eval locals
    let o ← holding v.handles (object.evalObject locals)
    request (.write o key v)
    return .null
  | contains object key => do
    let o ← object.evalObject locals
    return .bool (← ask (.contains o key))
  | isReactive object key => do
    let o ← object.evalObject locals
    return .bool (← ask (.isReactive o key))
  | count object key => do
    let o ← object.evalObject locals
    return .ofNat (← ask (.subscriberCount o key))
  | keys object => do
    let o ← object.evalObject locals
    return jsonTexts (← ask (.keys o))
  | size object => do
    let o ← object.evalObject locals
    let keys ← ask (.keys o)
    return .array [.ofNat keys.length, .bool keys.isEmpty]
  | objectJson object => do
    let o ← object.evalObject locals
    jsonOf (.object o)
  | sameObject a b => do
    let o ← a.evalObject locals
    let p ← holding [.object o] (b.evalObject locals)
    return .bool (o == p)
  | describe value => do
    report (← value.eval locals)
  | json value => do
    jsonOf (← value.eval locals)
  | text value => do
    return .string (← value.evalText locals)
  | inspect value => do
    let v ← value.eval locals
    return .string (← ask (.inspect v))
  | equal a b => do
    let x ← a.eval locals
    let y ← holding x.handles (b.eval locals)
    return .array [.bool (x.strictEq y), .bool (x.strictEq y)]
  | observeObject hook object => do
    let hook ← Act.hook hook
    let o ← object.evalObject locals
    request (.observe hook (.object o))
    return observerText
  | observe hook value => do
    let hook ← Act.hook hook
    let v ← value.eval locals
    request (.observe hook v)
    return observerText
  | weaken name object => do
    let o ← object.evalObject locals
    modifyDesk fun d => { d with weaks := d.weaks.insert name o }
    return .null
  | upgrade weak name => do
    match (← desk).weaks.find? weak with
    | none => return .bool false
    | some o =>
      if ← ask (.isAlive o) then
        if let some name := name then
          keepValue name (.object o)
        return .bool true
      else return .bool false

end DataBinding.Scenario
