import DataBinding.Scenario.AppSteps
import DataBinding.Scenario.DataSteps
import DataBinding.Scenario.NodeSteps
import DataBinding.Scenario.WatchSteps

/-!
# Playing a scenario

Steps run in order, and a failed one does not stop those after it. Callbacks log what happened to
them and then run their bodies; results other than `null` are logged. A hook and a watcher log the
errors of their bodies and go on; a method and a listener stop at the first error and answer with
it.
-/

namespace DataBinding.Scenario

open Act

mutual

/-- Does a step. -/
def Step.run (locals : Locals) : Step → Act Json
  | .data step => step.run locals
  | .watching step => step.run locals
  | .node step => step.run locals
  | .app step => step.run locals
  | .collecting name steps => do
    let i ← watcher name
    let results ← Act.collecting i (runAll locals steps)
    return .array results
  | .onlyIf condition steps => do
    if ← condition.eval locals then
      let results ← runAll locals steps
      return .array results
    else return .null
  | .fail e => throw (.view e)
  | .invalid => reject

/-- Does steps one after the other, and gives their results or errors. -/
def runAll (locals : Locals) : List Step → Act (List Json)
  | [] => return []
  | step :: rest => do
    let outcome ← ExceptT.lift (step.run locals).run
    let results ← runAll locals rest
    return reportOutcome outcome :: results

end

/-- Logs the outcome of a step in a callback, unless it is `null`. -/
def noteOutcome (outcome : Except Failure Json) : Act Unit :=
  match reportOutcome outcome with
  | .null => return
  | report => note (.array [.string "step", report])

/-- Runs a body to its end, whatever its steps answer. -/
def runBody (locals : Locals) : Body → Act Unit
  | [] => return
  | step :: rest => do
    noteOutcome (← ExceptT.lift (step.run locals).run)
    runBody locals rest

/-- Runs a body up to the first step that answers with an error of the view. -/
def runUntilError (locals : Locals) : Body → Act Unit
  | [] => return
  | step :: rest => do
    match ← ExceptT.lift (step.run locals).run with
    | .error (.view e) => throw (.view e)
    | outcome =>
      noteOutcome outcome
      runUntilError locals rest

/-- The locals of an event. -/
def eventLocals (event : Event) : Locals :=
  [("$event", .text event.name), ("$value", (event.value.map Value.text).getD .null)]

/-- Logs an event. -/
def noteEvent (label name : String) (event : Event) : Act Unit :=
  note (.array [.string label, .string name, .string event.name, jsonText? event.value])

/-- The body that goes with a key. -/
def bodyFor (bodies : List (String × Body)) (key : String) : Body :=
  (Entries.find? bodies key).getD []

/-- What a callback does. -/
def Code.act : Code → Occasion → Act Unit
  | .hook name onGet _, .reading key value => do
    note (.array [.string "get", .string name, .string key, .string (← ask (.text value))])
    runBody [("$value", value)] (bodyFor onGet key)
  | .hook name _ onSet, .writing key value => do
    note (.array [.string "set", .string name, .string key, .string (← ask (.text value))])
    runBody [("$value", value)] (bodyFor onSet key)
  | .watcher name body, .changed value => do
    note (.array [.string "fire", .string name, ← report value])
    runBody [("$value", value)] body
  | .listener name body, .heard event => do
    noteEvent "heard" name event
    runUntilError (eventLocals event) body
  | .method name body, .called data event => do
    noteEvent "call" name event
    runUntilError (("$data", .object data) :: eventLocals event) body
  | _, _ => return

/-- The host of scenarios. -/
def host : Host Code Desk where
  body code occasion := do
    match ← (code.act occasion).run with
    | .error (.view e) => return .error e
    | _ => return .ok ()
  handles := Desk.handles

/-- A scenario: its steps, and steps to look at the view with after each step from a number on. -/
structure Script where
  steps : Body
  inspection : Option Body
  inspectFrom : Nat

/-- Empties the log and gives what was in it. -/
def takeLog : Act Json := do
  let log := (← desk).log
  modifyDesk fun d => { d with log := #[] }
  return .array log.toList

/-- Plays the steps of a scenario from the one with number `n` on: the result and the log of each,
and what the inspection shows. The log of the inspection is thrown away. -/
def playFrom (inspection : Option Body) (inspectFrom : Nat) : Nat → Body → Act (List Json)
  | _, [] => return []
  | n, step :: rest => do
    let outcome ← ExceptT.lift (step.run []).run
    -- taken before the inspection, which logs as well
    let log ← takeLog
    let entry := [("r", reportOutcome outcome), ("log", log)]
    let shown ← match inspection with
      | some body =>
        if inspectFrom ≤ n then
          let results ← runAll [] body
          let _ ← takeLog
          pure [("show", Json.array results)]
        else pure []
      | none => pure []
    let entries ← playFrom inspection inspectFrom (n + 1) rest
    return .object (entry ++ shown) :: entries

/-- How deep callbacks may call each other. -/
def callbackDepth : Nat := 1000000

/-- Does something in an empty world. -/
def perform (act : Act Json) : Json :=
  match host.run callbackDepth act.run { user := {} } with
  | some (outcome, _) => reportOutcome outcome
  | none => reportFailure .rejected

/-- Plays a scenario in an empty world. -/
def Script.play (s : Script) : Json :=
  perform do
    let entries ← playFrom s.inspection s.inspectFrom 0 s.steps
    return .array entries

end DataBinding.Scenario
