import DataBinding.Heap.Interception
import DataBinding.Liveness
import DataBinding.Reactive.Reading

/-!
# Writes and watchers

A write to a reactive field that changes its value observes the new value, tells the hook, stores
the value and then updates the subscribers, in order of registration. A watcher that is updated
reads its own key again and reacts if the value is another than the one it saw last.

All user code runs between steps that are complete in themselves, so it may read, write and watch
as it likes, this very field included.
-/

namespace DataBinding

open Noting (note)

variable {κ σ : Type} {m : Type → Type} [Monad m] [MonadState (World κ σ) m] [Noting m]

/-- Does what a watcher has to do with a new value. -/
def Watcher.react (env : Env κ σ m) (x : Watcher κ) (value : Value) : m Unit :=
  match x.reaction with
  | .setValue n => modify (World.showValue n value)
  | .setText n => modify (World.showText n value)
  | .render n template => do
    let text ← template.render env x.data
    modify (World.mapDocument fun d => d.setText n text)
  | .custom code => discard (env.call code (.changed value))

/-- Updates a watcher: it reads its key again, untracked, and reacts to a change. A watcher whose
data is gone does nothing. -/
def update (env : Env κ σ m) (i : WatcherId) : m Unit := do
  let w ← get
  match w.watcher? i with
  | none => return
  | some x =>
    if w.isAlive env.handles x.data then
      let value := w.heap.peek x.data x.key
      -- noted before the reaction, so an update from within it finds nothing new
      modify (World.setLast i value)
      if x.last.strictEq value then return
      else
        Run.holding (.watcher i :: .object x.data :: value.handles ++ x.last.handles) do
          note (.fired i value)
          x.react env value
    else return

/-- Updates watchers one after the other. -/
def updateAll (env : Env κ σ m) : List WatcherId → m Unit
  | [] => return
  | i :: rest => do
    update env i
    updateAll env rest

/-- Updates those that are subscribed to a field now. Who subscribes meanwhile is not updated. -/
def notify (env : Env κ σ m) (o : ObjectId) (key : String) : m Unit := do
  updateAll env ((← get).heap.subscribers o key)

/-- Writes another value to a reactive field. -/
def overwrite (env : Env κ σ m) (o : ObjectId) (key : String) (cell : Cell κ) (value : Value) :
    m Unit := do
  modify (World.mapHeap fun h => h.intercept cell.hook [value])
  -- the hook is told of the new value while the field still has the old one
  Run.holding (.object o :: value.handles) (env.tell cell.hook (.writing key value))
  -- only the value is set: who subscribed during the hook stays subscribed
  modify (World.mapHeap fun h => h.store o key value)
  Run.holding [.object o] (notify env o key)

/-- Writes a field. A plain or missing one is set without anybody learning of it; a reactive one
only if the value is not strictly equal to the one it has. -/
def write (env : Env κ σ m) (o : ObjectId) (key : String) (value : Value) : m Unit := do
  match (← get).heap.cell? o key with
  | none => modify (World.mapHeap fun h => h.putPlain o key value)
  | some cell =>
    if cell.value.strictEq value then return
    else overwrite env o key cell value

/-- Observes a value: from now on its fields are reactive and report to the hook. -/
def observe (hook : Hook κ) (value : Value) : m Unit :=
  modify (World.mapHeap fun h => h.intercept hook [value])

/-- Builds a watcher. It collects its dependency by reading its key once; it does not react to the
value it starts with. -/
def watch (env : Env κ σ m) (expression : String) (o : ObjectId) (reaction : Reaction κ) :
    m WatcherId := do
  let key := Text.trim expression
  -- watchers are never taken out, so the size is a number nobody has had
  let i : WatcherId := ⟨(← get).watchers.size⟩
  note (.begun i)
  modify fun w =>
    { w with watchers := w.watchers.push { key, data := o, last := .null, reaction } }
  let initial ← Run.holding [.object o] (Run.collecting i (read env o key))
  modify (World.setLast i initial)
  note (.built i initial)
  return i

end DataBinding
