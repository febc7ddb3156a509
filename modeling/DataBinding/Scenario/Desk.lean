import DataBinding.Program
import DataBinding.Scenario.Report
import DataBinding.Scenario.Step

/-!
# The desk of a scenario

The registers in which a scenario keeps its things, and the log that its callbacks write. A
register holds its thing; setting it anew lets go of the old one. Weak registers hold nothing.
-/

namespace DataBinding.Scenario

/-- The code of a callback. -/
inductive Code where
  /-- A hook runs a body for some of the keys that are read or written. -/
  | hook (name : String) (onGet onSet : List (String × Body))
  | watcher (name : String) (body : Body)
  | listener (name : String) (body : Body)
  | method (name : String) (body : Body)
  /-- A method that does nothing and succeeds. -/
  | succeed

/-- The registers and the log. -/
structure Desk where
  values : OrderedMap Value := ∅
  weaks : OrderedMap ObjectId := ∅
  nodes : OrderedMap NodeId := ∅
  watchers : OrderedMap WatcherId := ∅
  apps : OrderedMap (App Code) := ∅
  hooks : OrderedMap (Hook Code) := ∅
  fragments : OrderedMap (List NodeId) := ∅
  log : Array Json := #[]

namespace Desk

/-- What the registers hold. -/
def handles (d : Desk) : List Handle :=
  (d.values.entries.flatMap fun entry => entry.2.handles) ++
    d.watchers.entries.map (fun entry => .watcher entry.2) ++
    d.apps.entries.map fun entry => .object entry.2.data

/-- Whether a register is in use. -/
def holds (d : Desk) (name : String) : Shelf → Bool
  | .values => d.values.contains name
  | .weaks => d.weaks.contains name
  | .nodes => d.nodes.contains name
  | .watchers => d.watchers.contains name
  | .apps => d.apps.contains name
  | .hooks => d.hooks.contains name
  | .fragments => d.fragments.contains name

/-- Empties a register. -/
def drop (d : Desk) (name : String) : Shelf → Desk
  | .values => { d with values := d.values.erase name }
  | .weaks => { d with weaks := d.weaks.erase name }
  | .nodes => { d with nodes := d.nodes.erase name }
  | .watchers => { d with watchers := d.watchers.erase name }
  | .apps => { d with apps := d.apps.erase name }
  | .hooks => { d with hooks := d.hooks.erase name }
  | .fragments => { d with fragments := d.fragments.erase name }

end Desk

/-- The locals of a callback. -/
abbrev Locals := List (String × Value)

/-- What a step does: a program that may fail. -/
abbrev Act (α : Type) := ExceptT Failure (Program Code Desk) α

namespace Act

variable {α : Type}

/-- Asks a question. -/
def ask (q : Query α) : Act α := ExceptT.lift (.ask q)

/-- Makes a request. -/
def request (r : Request Code α) : Act α := ExceptT.lift (.request r)

/-- The desk. -/
def desk : Act Desk := ExceptT.lift .getUser

/-- Changes the desk. -/
def modifyDesk (f : Desk → Desk) : Act Unit := ExceptT.lift (.updateUser f)

/-- Holds handles while something is done. -/
def holding (handles : List Handle) (act : Act α) : Act α := ExceptT.mk (.holding handles act.run)

/-- Lets a watcher collect while something is done. -/
def collecting (i : WatcherId) (act : Act α) : Act α := ExceptT.mk (.collecting i act.run)

/-- The step cannot be done. -/
def reject : Act α := throw .rejected

/-- What should be there. -/
def given : Option α → Act α
  | some a => return a
  | none => reject

/-- What the view answers, or the error that it answers with. -/
def settle : Except ViewError α → Act α
  | .ok a => return a
  | .error e => throw (.view e)

/-- Writes to the log. -/
def note (entry : Json) : Act Unit := modifyDesk fun d => { d with log := d.log.push entry }

/-- The value in a register. -/
def value (name : String) : Act Value := do given ((← desk).values.find? name)

/-- The node in a register. -/
def node (name : String) : Act NodeId := do given ((← desk).nodes.find? name)

/-- The watcher in a register. -/
def watcher (name : String) : Act WatcherId := do given ((← desk).watchers.find? name)

/-- The app in a register. -/
def app (name : String) : Act (App Code) := do given ((← desk).apps.find? name)

/-- The hook in a register; without a name the silent one. -/
def hook : Option String → Act (Hook Code)
  | none => return .silent
  | some name => do given ((← desk).hooks.find? name)

/-- Keeps a value. -/
def keepValue (name : String) (v : Value) : Act Unit :=
  modifyDesk fun d => { d with values := d.values.insert name v }

/-- Keeps a node. -/
def keepNode (name : String) (n : NodeId) : Act Unit :=
  modifyDesk fun d => { d with nodes := d.nodes.insert name n }

/-- The tree of the node in a register. -/
def tree (name : String) : Act Tree := do
  let n ← node name
  ask (.tree n)

/-- The report of a value. -/
def report (v : Value) : Act Json := do
  return reportValue (← ask (.snapshot v))

end Act

end DataBinding.Scenario
