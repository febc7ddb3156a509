import DataBinding.Directive
import DataBinding.Reactive.Events

/-!
# Binding nodes

What a directive does to its node. A model keeps a form value and a key the same; a text follows a
key, or a template with one watcher for each marker; an event calls a method by its name. The
bindings do not hold the data.
-/

namespace DataBinding

variable {κ σ : Type} {m : Type → Type} [Monad m] [MonadState (World κ σ) m] [Noting m]

/-- What bindings are made of: the data, the methods by name, and the dialect of templates. -/
structure Kit (κ : Type) where
  data : ObjectId
  methods : OrderedMap κ := ∅
  dialect : Dialect := .standard

/-- Binds a form control to a key, in both directions. -/
def bindModel (env : Env κ σ m) (n : NodeId) (expression : String) (data : ObjectId) :
    m Unit := do
  let key := Text.trim expression
  let initial ← read env data key
  Run.holding (.object data :: initial.handles) (discard (watch env key data (.setValue n)))
  modify (World.mapDocument fun d => d.addListener n "input" (.writeBack data key))
  -- what is shown is the first of the two reads: hooks may have written in between
  modify (World.showValue n initial)

/-- Builds one watcher for each marker of a template. -/
def watchMarkers (env : Env κ σ m) (n : NodeId) (template : Template) (data : ObjectId) :
    List String → m Unit
  | [] => return
  | key :: rest => do
    let _ ← watch env key data (.render n template)
    watchMarkers env n template data rest

/-- Binds the text of a node to a template with markers, or else to a key. -/
def bindText (env : Env κ σ m) (n : NodeId) (expression : String) (data : ObjectId)
    (dialect : Dialect) : m Unit := do
  let template := Template.parse expression dialect
  if template.hasMarkers then
    -- a key that is marked twice gets two watchers
    watchMarkers env n template data template.markers
    let text ← template.render env data
    modify (World.mapDocument fun d => d.setText n text)
  else
    let i ← watch env expression data (.setText n)
    let value := (((← get).watcher? i).map Watcher.last).getD .null
    modify (World.showText n value)

/-- Binds an event of a node to a method. The name is looked up now; if there is no such method,
the event will fail. -/
def bindEvent (n : NodeId) (expression event : String) (kit : Kit κ) : m Unit :=
  let name := Text.trim expression
  modify (World.mapDocument fun d =>
    d.addListener n event (.callMethod kit.data name (kit.methods.find? name)))

/-- Binds a node as a directive says. -/
def Directive.bind (env : Env κ σ m) (n : NodeId) (expression : String) (kit : Kit κ) :
    Directive → m Unit
  | .model => Run.holding [.object kit.data] (bindModel env n expression kit.data)
  | .text => Run.holding [.object kit.data] (bindText env n expression kit.data kit.dialect)
  | .on event => bindEvent n expression event kit

end DataBinding
