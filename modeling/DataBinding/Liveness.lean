import DataBinding.World

/-!
# What is still alive

Watchers, listeners and templates do not hold their data. An object lives as long as somebody
holds it: a running operation, the user, a live object with it in a field, or a live watcher that
saw it last. A watcher lives while it is collecting, while the user holds it, or while it is
subscribed to a field of a live object. Things that hold each other in a circle stay alive.

So the dead are found by peeling: what nobody holds is dead, then what only the dead hold, and so
on. What is left when nothing more comes off is alive.
-/

namespace DataBinding.World

variable {κ σ : Type}

/-- What a slot holds. -/
def slotHandles (s : Slot κ) : List Handle :=
  s.value.handles ++ ((s.cell?.map Cell.subscribers).getD []).map .watcher

/-- What a thing holds. -/
def holdings (w : World κ σ) : Handle → List Handle
  | .object o => (w.heap.slots o).entries.flatMap fun entry => slotHandles entry.2
  | .watcher i => ((w.watcher? i).map fun x => x.last.handles).getD []

/-- What is held from outside the heap. -/
def roots (w : World κ σ) (handles : σ → List Handle) : List Handle :=
  w.held ++ w.current.toList.map .watcher ++ handles w.user

/-- All objects and watchers there ever were. -/
def things (w : World κ σ) : List Handle :=
  (List.range w.heap.objects.size).map (fun i => .object ⟨i⟩) ++
    (List.range w.watchers.size).map fun i => .watcher ⟨i⟩

/-- Those things of a list that are held from outside or by others of the list. -/
def stillHeld (w : World κ σ) (roots kept : List Handle) : List Handle :=
  let held := roots ++ kept.flatMap w.holdings
  kept.filter (· ∈ held)

/-- Takes off what nobody holds, again and again until nothing comes off. -/
def peel (w : World κ σ) (roots : List Handle) : Nat → List Handle → List Handle
  | 0, kept => kept
  | n + 1, kept =>
    let next := w.stillHeld roots kept
    -- `stillHeld` only takes away, so equal lengths mean equal lists
    if next.length = kept.length then kept else w.peel roots n next

/-- Whether an object is alive. What is held from outside needs no peeling. -/
def isAlive (w : World κ σ) (handles : σ → List Handle) (o : ObjectId) : Bool :=
  let roots := w.roots handles
  decide (.object o ∈ roots) ||
    decide (.object o ∈ w.peel roots w.things.length w.things)

/-- An object that is held from outside is alive. -/
theorem isAlive_of_mem_roots {w : World κ σ} {handles : σ → List Handle} {o : ObjectId}
    (h : .object o ∈ w.roots handles) : w.isAlive handles o = true := by
  simp [isAlive, h]

end DataBinding.World
