import DataBinding.App
import DataBinding.Heap.OfJson

/-!
# User code

User code is a `Program`: it asks questions, makes requests, keeps a state of its own, and goes on
with what it is answered. This is all it can do with the world, so whatever every question and
every request respects, every program respects.

Callbacks are not programs but codes; a `Host` says which program a code stands for. A callback may
make requests that call further callbacks, and so on. `Host.env` follows that down to a depth; a
run that would need more depth has no answer.
-/

namespace DataBinding

/-- A question, by the type of its answer. Asking changes nothing, and nobody learns of it. -/
inductive Query : Type → Type where
  | peek (o : ObjectId) (key : String) : Query Value
  | contains (o : ObjectId) (key : String) : Query Bool
  | isReactive (o : ObjectId) (key : String) : Query Bool
  | subscriberCount (o : ObjectId) (key : String) : Query Nat
  | keys (o : ObjectId) : Query (List String)
  | snapshot (v : Value) : Query Snapshot
  | text (v : Value) : Query String
  | inspect (v : Value) : Query String
  | isAlive (o : ObjectId) : Query Bool
  | collecting : Query (Option WatcherId)
  /-- The key of a watcher and the value it saw last. -/
  | watcher (i : WatcherId) : Query (Option (String × Value))
  | tree (n : NodeId) : Query Tree
  | find (n : NodeId) (selector : String) : Query (Option NodeId)

/-- A request, by the type of its answer. -/
inductive Request (κ : Type) : Type → Type where
  /-- A new object without fields. -/
  | newObject : Request κ ObjectId
  | newArray (items : List Value) : Request κ Value
  | ofJson (j : Json) : Request κ Value
  | read (o : ObjectId) (key : String) : Request κ Value
  | write (o : ObjectId) (key : String) (value : Value) : Request κ Unit
  | observe (hook : Hook κ) (value : Value) : Request κ Unit
  | watch (expression : String) (o : ObjectId) (code : κ) : Request κ WatcherId
  | update (i : WatcherId) : Request κ Unit
  | render (template : Template) (o : ObjectId) : Request κ String
  | newNode (content : Content) : Request κ NodeId
  | setAttribute (n : NodeId) (name value : String) : Request κ Unit
  | setText (n : NodeId) (text : String) : Request κ Unit
  | setValue (n : NodeId) (text : String) : Request κ Unit
  | appendChildren (n : NodeId) (children : List NodeId) : Request κ Unit
  /-- Takes all children off a node and gives them. -/
  | detachChildren (n : NodeId) : Request κ (List NodeId)
  | listen (n : NodeId) (event : String) (code : κ) : Request κ Unit
  | dispatch (n : NodeId) (event : Event) : Request κ (Except ViewError Unit)
  | enter (n : NodeId) (text : String) : Request κ (Except ViewError Unit)
  | bind (directive : Directive) (n : NodeId) (expression : String) (kit : Kit κ) : Request κ Unit
  | compile (kit : Kit κ) (root : NodeId) : Request κ (Except ViewError Unit)
  | mount (place : Mount) (hook : Hook κ) (kit : Kit κ) : Request κ (Except ViewError (App κ))
  | getProperty (app : App κ) (key : String) : Request κ (Option Value)
  | setProperty (app : App κ) (key : String) (value : Value) : Request κ (Except ViewError Unit)
  /-- Calls a method without an event having happened. -/
  | callMethod (method : κ) (data : ObjectId) (event : Event) : Request κ (Except ViewError Unit)

/-- A piece of user code, by the type of its answer. -/
inductive Program (κ σ : Type) : Type → Type 1 where
  | done {α : Type} (a : α) : Program κ σ α
  | andThen {α β : Type} (p : Program κ σ α) (next : α → Program κ σ β) : Program κ σ β
  | ask {α : Type} (q : Query α) : Program κ σ α
  | request {α : Type} (r : Request κ α) : Program κ σ α
  /-- The state of the user. -/
  | getUser : Program κ σ σ
  | updateUser (f : σ → σ) : Program κ σ Unit
  /-- Holds handles while a program runs. -/
  | holding {α : Type} (handles : List Handle) (p : Program κ σ α) : Program κ σ α
  /-- Lets a watcher collect dependencies while a program runs. -/
  | collecting {α : Type} (i : WatcherId) (p : Program κ σ α) : Program κ σ α

instance {κ σ : Type} : Monad (Program κ σ) where
  pure := .done
  bind := .andThen

namespace Query

variable {κ σ : Type}

/-- The answer to a question. -/
def answer {α : Type} (handles : σ → List Handle) (w : World κ σ) : Query α → α
  | peek o key => w.heap.peek o key
  | contains o key => (w.heap.slots o).contains key
  | isReactive o key => w.heap.isReactive o key
  | subscriberCount o key => (w.heap.subscribers o key).length
  | keys o => (w.heap.slots o).keys
  | snapshot v => w.heap.snapshot v
  | text v => w.heap.text v
  | inspect v => w.heap.inspect v
  | isAlive o => w.isAlive handles o
  | collecting => w.current
  | watcher i => (w.watcher? i).map fun x => (x.key, x.last)
  | tree n => w.document.tree n
  | find n selector => w.document.query n selector

end Query

namespace Request

variable {κ σ : Type} {m : Type → Type} [Alternative m] [Monad m] [MonadState (World κ σ) m]
  [Noting m]

/-- Changes the world and answers with what the change gives. -/
def changing {α : Type} (f : World κ σ → α × World κ σ) : m α := modifyGet f

/-- Does what is requested. -/
def perform (env : Env κ σ m) {α : Type} : Request κ α → m α
  | newObject => changing fun w =>
    let (o, heap) := w.heap.alloc ∅
    (o, { w with heap })
  | newArray items => changing fun w =>
    let (v, heap) := w.heap.allocArray items
    (v, { w with heap })
  | ofJson j => changing fun w =>
    let (v, heap) := w.heap.ofJson j
    (v, { w with heap })
  | read o key => DataBinding.read env o key
  | write o key value => DataBinding.write env o key value
  | observe hook value => DataBinding.observe hook value
  | watch expression o code => DataBinding.watch env expression o (.custom code)
  | update i => DataBinding.update env i
  | render template o => template.render env o
  | newNode content => changing fun w =>
    let (n, document) := w.document.create content
    (n, { w with document })
  | setAttribute n name value => modify (World.mapDocument fun d => d.setAttribute n name value)
  | setText n text => modify (World.mapDocument fun d => d.setText n text)
  | setValue n text => modify (World.mapDocument fun d => d.setValue n text)
  | appendChildren n children => modify (World.mapDocument fun d => d.appendChildren n children)
  | detachChildren n => changing fun w =>
    (w.document.children n, w.mapDocument fun d => d.detachChildren n)
  | listen n event code =>
    modify (World.mapDocument fun d => d.addListener n event (.custom code))
  | dispatch n event => DataBinding.dispatch env n event
  | enter n text => DataBinding.enter env n text
  | bind directive n expression kit => directive.bind env n expression kit
  | compile kit root => DataBinding.compile env kit root
  | mount place hook kit => DataBinding.mount env place hook kit
  | getProperty app key => app.get env key
  | setProperty app key value => app.set env key value
  | callMethod method data event =>
    Run.holding [.object data] (env.call method (.called data event))

end Request

namespace Program

variable {κ σ : Type}

/-- Runs a program. -/
def exec (env : Env κ σ) {α : Type} : Program κ σ α → Run κ σ α
  | done a => return a
  | andThen p next => do
    let a ← p.exec env
    (next a).exec env
  | ask q => do
    return q.answer env.handles (← get)
  | request r => r.perform env
  | getUser => do
    return (← get).user
  | updateUser f => modify fun w => { w with user := f w.user }
  | holding handles p => .holding handles (p.exec env)
  | collecting i p => .collecting i (p.exec env)

end Program

/-- What the codes of user code stand for, and which handles the user's state holds. -/
structure Host (κ σ : Type) where
  body : κ → Occasion → Program κ σ (Except ViewError Unit)
  handles : σ → List Handle

namespace Host

variable {κ σ : Type}

/-- The environment in which callbacks may call each other to a depth. -/
def env (host : Host κ σ) : Nat → Env κ σ
  | 0 => { call := fun _ _ => failure, handles := host.handles, depth := 0 }
  | depth + 1 =>
    { call := fun code occasion => (host.body code occasion).exec (host.env depth)
      handles := host.handles
      depth := depth + 1 }

/-- Runs a program with callbacks to a depth. -/
def run (host : Host κ σ) (depth : Nat) {α : Type} (p : Program κ σ α) (w : World κ σ) :
    Option (α × World κ σ) :=
  p.exec (host.env depth) w

end Host

end DataBinding
