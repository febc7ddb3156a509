import DataBinding.World

/-!
# Tracked reads

Reading a reactive field subscribes the watcher that is collecting dependencies and tells the
hook. Templates are rendered by such reads.
-/

namespace DataBinding

variable {κ σ : Type} {m : Type → Type} [Monad m] [MonadState (World κ σ) m]

/-- Reads a field, `null` if it is missing. -/
def read (env : Env κ σ m) (o : ObjectId) (key : String) : m Value := do
  match (← get).heap.slot? o key with
  | none => return .null
  | some (.plain value) => return value
  | some (.reactive cell) =>
    -- subscribed first, so the hook finds the watcher in the list already
    modify (World.subscribeCurrent o key)
    Run.holding (.object o :: cell.value.handles) (env.tell cell.hook (.reading key cell.value))
    return cell.value

/-- The text of one segment against an object. -/
def Segment.render (env : Env κ σ m) (o : ObjectId) : Segment → m String
  | .literal text => return text
  | .marker key => do
    let value ← read env o key
    return (← get).heap.text value

/-- The texts of segments in a row. -/
def renderSegments (env : Env κ σ m) (o : ObjectId) : List Segment → m String
  | [] => return ""
  | segment :: rest => do
    let text ← segment.render env o
    let texts ← renderSegments env o rest
    return text ++ texts

/-- The text of a template against an object. -/
def Template.render (env : Env κ σ m) (t : Template) (o : ObjectId) : m String :=
  renderSegments env o t.segments

end DataBinding
