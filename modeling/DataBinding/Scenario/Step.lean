import DataBinding.Directive
import DataBinding.Document.Basic
import DataBinding.Error
import DataBinding.Json.Basic

/-!
# Scenarios

A scenario is a list of steps that drive a view: they make data and nodes, bind them, change them
and look at what came of it. Things are kept in registers under names. The bodies of callbacks are
scenarios too, so a callback can do whatever a step can.
-/

namespace DataBinding.Scenario

/-- How a value is obtained. -/
inductive Expression where
  | null
  | bool (b : Bool)
  | number (x : Float)
  | text (s : String)
  | array (items : List Expression)
  /-- A fresh value from JSON. -/
  | json (j : Json)
  /-- A fresh object whose fields are set in order. -/
  | object (fields : List (String × Expression))
  /-- A local of the callback, or else a value register. -/
  | named (name : String)
  | get (object : Expression) (key : String)
  | peek (object : Expression) (key : String)
  /-- A sum; what is no number counts as zero. -/
  | add (items : List Expression)
  /-- The texts of values in a row. -/
  | concat (items : List Expression)
  /-- A text several times over. -/
  | replicate (s : String) (times : Nat)
  /-- Nothing that could be evaluated. -/
  | invalid
deriving Inhabited

/-- How a node is obtained: a new one with children, which may be named, or one from a register. -/
inductive NodeSpec where
  | new (content : Content) (attributes : List (String × String)) (children : List NodeSpec)
      (name : Option String)
  | named (name : String)
deriving Inhabited

/-- What a conditional step depends on. -/
inductive Condition where
  | less (a b : Expression)
  | equal (a b : Expression)

/-- The kinds of registers. -/
inductive Shelf where
  | values
  | weaks
  | nodes
  | watchers
  | apps
  | hooks
  | fragments
deriving DecidableEq

/-- Steps on values and objects. -/
inductive DataStep where
  | keep (name : String) (value : Expression)
  | fromJson (name text : String)
  | drop (shelf : Shelf) (name : String)
  | get (object : Expression) (key : String)
  | peek (object : Expression) (key : String)
  | set (object : Expression) (key : String) (value : Expression)
  | contains (object : Expression) (key : String)
  | isReactive (object : Expression) (key : String)
  | count (object : Expression) (key : String)
  | keys (object : Expression)
  | size (object : Expression)
  | objectJson (object : Expression)
  | sameObject (a b : Expression)
  | describe (value : Expression)
  | json (value : Expression)
  | text (value : Expression)
  | inspect (value : Expression)
  | equal (a b : Expression)
  | observeObject (hook : Option String) (object : Expression)
  | observe (hook : Option String) (value : Expression)
  | weaken (name : String) (object : Expression)
  | upgrade (weak : String) (name : Option String)

/-- Steps on hooks and watchers, with callback bodies of a type `β`. -/
inductive WatchStep (β : Type) where
  | silentHook (name : String)
  | hook (name : String) (onGet onSet : List (String × β))
  | watch (name expression : String) (object : Expression) (body : β)
  | update (watcher : String)
  | seen (watcher : String)
  | same (a b : String)
  | inspect (watcher : String)
  | current

/-- Steps on nodes, with callback bodies of a type `β`. -/
inductive NodeStep (β : Type) where
  | build (spec : NodeSpec)
  | dump (node : String)
  | inspect (node : String)
  | text (node : String)
  | value (node : String)
  | tag (node : String)
  | kind (node : String)
  | findAttribute (node key : String)
  | attributes (node : String)
  | childCount (node : String)
  | listenerCount (node : String)
  | same (a b : String)
  | setAttribute (node key value : String)
  | setText (node : String) (value : Expression)
  | setValue (node : String) (value : Expression)
  | append (node : String) (children : List NodeSpec)
  | detach (node : String)
  | detachFragment (node name : String)
  | attachFragment (node name : String)
  | query (node selector : String) (name : Option String)
  | listen (node name event : String) (body : β)
  | dispatch (node : String) (event : Event)
  | enter (node : String) (value : Expression)
  | click (node : String)

/-- What templates are compiled with: methods in order, and the text of a dialect if it is not the
standard one. -/
structure Setup (β : Type) where
  methods : List (String × β)
  dialect : Option String

/-- Steps on bindings and apps, with callback bodies of a type `β`. -/
inductive AppStep (β : Type) where
  | bind (node : String) (directive : Directive) (expression : String) (object : Expression)
      (setup : Setup β)
  | compile (node : String) (object : Expression) (setup : Setup β)
  | methods (setup : Setup β) (asked : List String)
  | inspectCompiler (setup : Setup β)
  | mount (name node : String) (selector : Option String) (object : Expression) (setup : Setup β)
      (hook : Option String) (succeeding : Option String)
  | get (app key : String)
  | set (app key : String) (value : Expression)
  | keys (app : String)
  | inspect (app : String)
  | root (app name : String)
  | data (app name : String)
  | call (app method : String) (event : Event) (object : Option Expression)

/-- A step of a scenario. -/
inductive Step where
  | data (step : DataStep)
  | watching (step : WatchStep (List Step))
  | node (step : NodeStep (List Step))
  | app (step : AppStep (List Step))
  /-- Steps while a watcher collects dependencies. -/
  | collecting (watcher : String) (steps : List Step)
  /-- Steps if a condition holds. -/
  | onlyIf (condition : Condition) (steps : List Step)
  | fail (error : ViewError)
  /-- Nothing that could be done. -/
  | invalid

/-- The body of a callback. -/
abbrev Body := List Step

end DataBinding.Scenario
