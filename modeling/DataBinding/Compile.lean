import DataBinding.Binding

/-!
# Compiling a tree

Compiling walks the nodes below a root in document order and makes every binding that a directive
attribute or a marker in a text asks for. The children of the root are taken off meanwhile and put
back at the end, also after an error. The children of a node are looked up after its own bindings
are made: children that a text has replaced are not walked into, but the text in their place is.
-/

namespace DataBinding

variable {κ σ : Type} {m : Type → Type} [Alternative m] [Monad m] [MonadState (World κ σ) m]
  [Noting m]

/-- Makes the bindings that attributes ask for, up to the first that is in error. -/
def compileAttributes (env : Env κ σ m) (kit : Kit κ) (n : NodeId) :
    List (String × String) → m (Except ViewError Unit)
  | [] => return .ok ()
  | (name, expression) :: rest => do
    match Directive.parse name kit.dialect with
    | .error e => return .error e
    | .ok none => compileAttributes env kit n rest
    | .ok (some directive) =>
      directive.bind env n expression kit
      compileAttributes env kit n rest

/-- Makes the bindings that one node asks for. -/
def compileNode (env : Env κ σ m) (kit : Kit κ) (n : NodeId) :
    m (Except ViewError Unit) := do
  match (← get).document.content n with
  | .element _ attributes _ => compileAttributes env kit n attributes.entries
  | .text text =>
    if Template.detect text kit.dialect then
      Directive.text.bind env n text kit
    return .ok ()
  | .comment _ => return .ok ()

/-- Makes the bindings of nodes in a row and of all below them, each node before its children,
down to a depth. -/
def compileNodes (env : Env κ σ m) (kit : Kit κ) :
    Nat → List NodeId → m (Except ViewError Unit)
  | _, [] => return .ok ()
  | 0, _ :: _ => failure
  | depth + 1, n :: rest => do
    match ← compileNode env kit n with
    | .error e => return .error e
    | .ok () =>
      -- the children as they are by now
      match ← compileNodes env kit depth ((← get).document.children n) with
      | .error e => return .error e
      | .ok () => compileNodes env kit (depth + 1) rest

/-- Compiles everything below a root. -/
def compile (env : Env κ σ m) (kit : Kit κ) (root : NodeId) : m (Except ViewError Unit) := do
  let nodes := (← get).document.children root
  -- detached nodes are compiled all the same: bindings go by identity
  modify (World.mapDocument fun d => d.detachChildren root)
  let result ← Run.holding [.object kit.data] (compileNodes env kit env.depth nodes)
  modify (World.mapDocument fun d => d.appendChildren root nodes)
  return result

end DataBinding
