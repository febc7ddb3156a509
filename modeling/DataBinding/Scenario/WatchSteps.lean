import DataBinding.Scenario.Evaluation

/-!
# Steps on hooks and watchers

What each step does, and its result.
-/

namespace DataBinding.Scenario

open Act

/-- The key and the last value of a watcher, reported. -/
def reportWatcher (i : WatcherId) : Act Json := do
  let (key, last) ← given (← ask (.watcher i))
  return .object [("expr", .string key), ("value", ← report last)]

/-- Does a step on hooks and watchers. -/
def WatchStep.run (locals : Locals) : WatchStep Body → Act Json
  | silentHook name => do
    modifyDesk fun d => { d with hooks := d.hooks.insert name .silent }
    return .null
  | hook name onGet onSet => do
    modifyDesk fun d => { d with hooks := d.hooks.insert name (.custom (.hook name onGet onSet)) }
    return .null
  | watch name expression object body => do
    let o ← object.evalObject locals
    let i ← request (.watch expression o (.watcher name body))
    modifyDesk fun d => { d with watchers := d.watchers.insert name i }
    reportWatcher i
  | update name => do
    let i ← watcher name
    request (.update i)
    return .null
  | seen name => do
    let i ← watcher name
    reportWatcher i
  | same a b => do
    let i ← watcher a
    let j ← watcher b
    return .bool (i == j)
  | inspect name => do
    let i ← watcher name
    let (key, last) ← given (← ask (.watcher i))
    let last ← ask (.inspect last)
    return .string ("Watcher \x7b id: WatcherId(#), expr: " ++ Text.quoted key ++ ", last: " ++
      last ++ " \x7d")
  | current => do
    match ← ask .collecting with
    | none => return .array [.bool false, .null]
    | some i =>
      let (key, _) ← given (← ask (.watcher i))
      return .array [.bool true, .string key]

end DataBinding.Scenario
