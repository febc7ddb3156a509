import DataBinding.Reactive.Writing

/-!
# Events

Dispatching an event runs the listeners that a node has for it at that moment, in order of
registration, up to the first that fails. All of them get the same event. An event without a value
that reaches an element takes the form value that the element has then.
-/

namespace DataBinding

variable {κ σ : Type} {m : Type → Type} [Monad m] [MonadState (World κ σ) m] [Noting m]

/-- Hands an event to a listener. Data that is gone is neither written nor given to a method. -/
def Listener.deliver (env : Env κ σ m) (event : Event) :
    Listener κ → m (Except ViewError Unit)
  | .writeBack data key => do
    match event.value with
    | none => return .ok ()
    | some text =>
      if (← get).isAlive env.handles data then
        write env data key (.text text)
      return .ok ()
  | .callMethod _ name none => return .error (.unknownMethod name)
  | .callMethod data _ (some method) => do
    if (← get).isAlive env.handles data then
      Run.holding [.object data] (env.call method (.called data event))
    else return .ok ()
  | .custom code => env.call code (.heard event)

/-- Hands an event to listeners one after the other, up to the first that fails. -/
def deliverAll (env : Env κ σ m) (event : Event) :
    List (Listener κ) → m (Except ViewError Unit)
  | [] => return .ok ()
  | listener :: rest => do
    match ← listener.deliver env event with
    | .error e => return .error e
    | .ok () => deliverAll env event rest

/-- The event as the listeners of a node get it. -/
def Event.targeted (event : Event) (content : Content) : Event :=
  if event.value.isNone && content.isElement then { event with value := some content.value }
  else event

/-- Dispatches an event on a node. -/
def dispatch (env : Env κ σ m) (n : NodeId) (event : Event) : m (Except ViewError Unit) := do
  -- the listeners and the event are settled now; what listeners change comes too late for both
  let d := (← get).document
  deliverAll env (event.targeted (d.content n)) (d.listenersFor n event.name)

/-- Enters a text into a form control: its value changes, then the event is dispatched. -/
def enter (env : Env κ σ m) (n : NodeId) (text : String) : m (Except ViewError Unit) := do
  modify (World.mapDocument fun d => d.setValue n text)
  dispatch env n { name := "input", value := some text }

end DataBinding
