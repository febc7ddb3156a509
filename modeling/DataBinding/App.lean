import DataBinding.Compile
import DataBinding.Document.Selector

/-!
# Apps

Mounting an app observes its data, compiles the tree below the mount point, and makes a property
of every key that the data has then. Keys that come later are no properties.
-/

namespace DataBinding

variable {κ σ : Type} {m : Type → Type} [Alternative m] [Monad m] [MonadState (World κ σ) m]
  [Noting m]

/-- Where an app is mounted: on a node, or on what a selector finds below one. -/
inductive Mount where
  | node (n : NodeId)
  | selector (document : NodeId) (text : String)

/-- A mounted app. -/
structure App (κ : Type) where
  root : NodeId
  data : ObjectId
  keys : List String
  methods : OrderedMap κ

/-- The node of a mount point. -/
def Mount.resolve (d : Document κ) : Mount → Except ViewError NodeId
  | node n => .ok n
  | selector document text =>
    match d.query document text with
    | some n => .ok n
    | none => .error (.rootNotFound text)

/-- Mounts an app. Where there is no mount point, nothing is touched. -/
def mount (env : Env κ σ m) (place : Mount) (hook : Hook κ) (kit : Kit κ) :
    m (Except ViewError (App κ)) := do
  match place.resolve (← get).document with
  | .error e => return .error e
  | .ok root =>
    observe hook (.object kit.data)
    match ← compile env kit root with
    | .error e => return .error e
    | .ok () =>
      -- taken after compiling, so a field that a hook added meanwhile is a property too
      let keys := ((← get).heap.slots kit.data).keys
      return .ok { root, data := kit.data, keys, methods := kit.methods }

namespace App

/-- Whether a key is a property. -/
def exposes (app : App κ) (key : String) : Bool := app.keys.contains key

/-- Reads a property. -/
def get (env : Env κ σ m) (app : App κ) (key : String) : m (Option Value) := do
  if app.exposes key then
    let value ← read env app.data key
    return some value
  else return none

/-- Writes a property. -/
def set (env : Env κ σ m) (app : App κ) (key : String) (value : Value) :
    m (Except ViewError Unit) := do
  if app.exposes key then
    write env app.data key value
    return .ok ()
  else return .error (.unknownProperty key)

end App

end DataBinding
