import DataBinding.Document.Tree
import DataBinding.Error
import DataBinding.Heap.Text
import DataBinding.Template

/-!
# The world of a view

Data objects, watchers and nodes, with the slot for the watcher that is collecting dependencies.
User code appears as codes of a type `κ` and keeps a state of its own, of a type `σ`.

`Run` is what an operation is: it changes the world and gives an answer, or it runs out of the
depth it was given and gives none. Operations are written for any monad that has the world for its
state and takes notes of what happens to watchers. A `Run` is the least of these monads: nobody
reads its notes.
-/

namespace DataBinding

/-- What a watcher does when its value has changed. -/
inductive Reaction (κ : Type) where
  /-- Shows the value in a form control. -/
  | setValue (node : NodeId)
  /-- Shows the value as the text of a node. -/
  | setText (node : NodeId)
  /-- Renders a template anew as the text of a node. -/
  | render (node : NodeId) (template : Template)
  /-- Runs code of the user's. -/
  | custom (code : κ)
deriving DecidableEq

/-- A live binding between a key of an object and a reaction. `last` is the value it saw last. -/
structure Watcher (κ : Type) where
  key : String
  data : ObjectId
  last : Value
  reaction : Reaction κ

/-- Something that is kept alive as long as somebody holds it. -/
inductive Handle where
  | object (o : ObjectId)
  | watcher (w : WatcherId)
deriving DecidableEq

/-- The objects that a value keeps alive, as handles. -/
def Value.handles (v : Value) : List Handle := v.objects.map .object

/-- The state of everything. -/
structure World (κ σ : Type) where
  heap : Heap κ := {}
  watchers : Table (Watcher κ) := ∅
  document : Document κ := ∅
  /-- The watcher that is collecting dependencies. -/
  current : Option WatcherId := none
  /-- What the operations in progress hold. -/
  held : List Handle := []
  user : σ

/-- What happens to a watcher. -/
inductive Happening where
  /-- It is going to be built. -/
  | begun (i : WatcherId)
  /-- It has been built and has read a value. -/
  | built (i : WatcherId) (value : Value)
  /-- It is going to react to a value. -/
  | fired (i : WatcherId) (value : Value)

/-- A monad in which operations note what happens to watchers. -/
class Noting (m : Type → Type) where
  /-- Notes that something happens. -/
  note : Happening → m Unit

/-- An operation on the world. -/
abbrev Run (κ σ : Type) : Type → Type := StateT (World κ σ) Option

instance (κ σ : Type) : Noting (Run κ σ) := ⟨fun _ => pure ()⟩

namespace World

variable {κ σ : Type}

/-- The watcher with an identity. -/
def watcher? (w : World κ σ) (i : WatcherId) : Option (Watcher κ) := w.watchers.find? i.index

/-- Appends the collecting watcher, if there is one, to the subscribers of a field. -/
def subscribeCurrent (o : ObjectId) (key : String) (w : World κ σ) : World κ σ :=
  match w.current with
  | none => w
  | some i => { w with heap := w.heap.subscribe o key i }

/-- Notes the value that a watcher saw last. -/
def setLast (i : WatcherId) (value : Value) (w : World κ σ) : World κ σ :=
  { w with watchers := w.watchers.modify i.index fun x => { x with last := value } }

/-- Changes the heap. -/
def mapHeap (f : Heap κ → Heap κ) (w : World κ σ) : World κ σ := { w with heap := f w.heap }

/-- Changes the document. -/
def mapDocument (f : Document κ → Document κ) (w : World κ σ) : World κ σ :=
  { w with document := f w.document }

/-- Shows a value in a form control. -/
def showValue (n : NodeId) (value : Value) (w : World κ σ) : World κ σ :=
  w.mapDocument fun d => d.setValue n (w.heap.text value)

/-- Shows a value as the text of a node. -/
def showText (n : NodeId) (value : Value) (w : World κ σ) : World κ σ :=
  w.mapDocument fun d => d.setText n (w.heap.text value)

end World

namespace Run

variable {κ σ α : Type} {m : Type → Type} [Monad m] [MonadState (World κ σ) m]

/-- Holds handles while an operation runs. -/
def holding (handles : List Handle) (act : m α) : m α := do
  let before := (← get).held
  modify fun w => { w with held := handles ++ before }
  let answer ← act
  modify fun w => { w with held := before }
  return answer

/-- Puts a watcher into the slot while an operation runs. What was there before is back afterwards,
and held until then. -/
def collecting (i : WatcherId) (act : m α) : m α := do
  let before := (← get).current
  modify fun w => { w with current := some i }
  let answer ← holding (before.toList.map .watcher) act
  modify fun w => { w with current := before }
  return answer

end Run

/-- What happens to a piece of user code. -/
inductive Occasion where
  /-- A hook learns that a field is read. -/
  | reading (key : String) (value : Value)
  /-- A hook learns that a field is about to be written. -/
  | writing (key : String) (value : Value)
  /-- A watcher saw a new value. -/
  | changed (value : Value)
  /-- A listener gets an event. -/
  | heard (event : Event)
  /-- A method is called on the data it was bound to. -/
  | called (data : ObjectId) (event : Event)

/-- What operations need to know of the user: how to run a piece of code, and which handles the
user's state holds. `depth` bounds how deep a tree is compiled. -/
structure Env (κ σ : Type) (m : Type → Type := Run κ σ) where
  call : κ → Occasion → m (Except ViewError Unit)
  handles : σ → List Handle
  depth : Nat

/-- Tells a hook. What it answers is of no account. -/
def Env.tell {κ σ : Type} {m : Type → Type} [Monad m] (env : Env κ σ m) (hook : Hook κ)
    (occasion : Occasion) : m Unit :=
  match hook with
  | .silent => return
  | .custom code => discard (env.call code occasion)

end DataBinding
