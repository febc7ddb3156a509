import DataBinding.Proofs.Cellwise
import DataBinding.Program

/-!
# Silent worlds

A world is hushed when no field of it reports to a hook and nobody has taken notes. Data,
subscribers, watchers, nodes and what is held stay as they are, so whatever can be asked of a world
has the same answer when the world is hushed, and what is alive in it is alive in silence.

Code is hushed when it chooses no hook for what it observes.
-/

namespace DataBinding

variable {κ σ ρ α : Type}

/-! ## Heaps -/

/-- A cell that reports to nobody. -/
def Cell.hushed (c : Cell κ) : Cell κ := { c with hook := .silent }

/-- A heap of which no field reports to anybody. -/
def Heap.hushed (h : Heap κ) : Heap κ := h.mapCells Cell.hushed

/-- No reader of data looks at hooks. -/
theorem Cell.unread_hushed : Unread (κ := κ) hushed := ⟨fun _ => rfl, fun _ => rfl⟩

namespace Heap

variable (h : Heap κ)

theorem slot?_hushed (o : ObjectId) (key : String) :
    h.hushed.slot? o key = (h.slot? o key).map (Slot.modifyCell Cell.hushed) :=
  h.slot?_mapCells Cell.hushed o key

theorem cell?_hushed (o : ObjectId) (key : String) :
    h.hushed.cell? o key = (h.cell? o key).map Cell.hushed :=
  h.cell?_mapCells Cell.hushed o key

@[simp] theorem peek_hushed (o : ObjectId) (key : String) : h.hushed.peek o key = h.peek o key :=
  h.peek_mapCells Cell.unread_hushed o key

@[simp] theorem text_hushed (v : Value) : h.hushed.text v = h.text v :=
  h.text_mapCells Cell.unread_hushed v

@[simp] theorem keys_slots_hushed (o : ObjectId) : (h.hushed.slots o).keys = (h.slots o).keys := by
  rw [hushed, slots_mapCells, Slots.keys_mapCells]

/-- Who subscribed to a field is not touched. -/
@[simp] theorem subscribers_hushed (o : ObjectId) (key : String) :
    h.hushed.subscribers o key = h.subscribers o key := by
  rw [subscribers, subscribers, cell?_hushed]
  cases h.cell? o key <;> rfl

theorem hushed_putPlain (o : ObjectId) (key : String) (v : Value) :
    (h.putPlain o key v).hushed = h.hushed.putPlain o key v :=
  h.mapCells_putPlain Cell.hushed o key v

/-- Storing a value keeps the hook of the field. -/
theorem hushed_store (o : ObjectId) (key : String) (v : Value) :
    (h.store o key v).hushed = h.hushed.store o key v :=
  h.mapCells_modifyCell o key fun _ => rfl

theorem hushed_subscribe (o : ObjectId) (key : String) (i : WatcherId) :
    (h.subscribe o key i).hushed = h.hushed.subscribe o key i :=
  h.mapCells_modifyCell o key fun _ => rfl

/-- What is observed with a hook is observed in silence. -/
theorem hushed_intercept (hook : Hook κ) (values : List Value) :
    (intercept hook h values).hushed = intercept .silent h.hushed values :=
  h.mapCells_intercept Cell.unread_hushed (fun _ => rfl) values

/-- A new object has the same number in silence. -/
theorem hushed_alloc : h.hushed.alloc ∅ = ((h.alloc ∅).1, (h.alloc ∅).2.hushed) :=
  Prod.ext (congrArg ObjectId.mk (h.size_objects_mapCells Cell.hushed))
    (h.mapCells_alloc Cell.hushed ∅).symm

theorem hushed_ofJson (j : Json) : h.hushed.ofJson j = ((h.ofJson j).1, (h.ofJson j).2.hushed) :=
  mapCells_ofJson Cell.hushed h j

end Heap

/-! ## Worlds -/

namespace World

/-- A world without hooks and without their notes. -/
def hushed (w : World κ (σ × ρ)) : World κ σ :=
  { w with heap := w.heap.hushed, user := w.user.1 }

variable (w : World κ (σ × ρ))

@[simp] theorem heap_hushed : w.hushed.heap = w.heap.hushed := rfl

@[simp] theorem document_hushed : w.hushed.document = w.document := rfl

@[simp] theorem watcher?_hushed (i : WatcherId) : w.hushed.watcher? i = w.watcher? i := rfl

theorem hushed_mapHeap {f f' : Heap κ → Heap κ} (hf : ∀ h, (f h).hushed = f' h.hushed) :
    (w.mapHeap f).hushed = w.hushed.mapHeap f' :=
  congrArg (fun heap => { w.hushed with heap }) (hf w.heap)

/-- Who is collecting subscribes in silence too. -/
theorem hushed_subscribeCurrent (o : ObjectId) (key : String) :
    (w.subscribeCurrent o key).hushed = w.hushed.subscribeCurrent o key := by
  obtain ⟨heap, watchers, document, current, held, user⟩ := w
  cases current with
  | none => rfl
  | some i =>
    exact congrArg (fun heap => (⟨heap, watchers, document, some i, held, user.1⟩ : World κ σ))
      (heap.hushed_subscribe o key i)

/-- Hooks hold nothing. -/
theorem holdings_hushed (h : Handle) : w.hushed.holdings h = w.holdings h := by
  cases h with
  | watcher i => rfl
  | object o =>
    have hslot : ∀ s : Slot κ, slotHandles (s.modifyCell Cell.hushed) = slotHandles s := by
      intro s
      cases s <;> rfl
    show (w.heap.hushed.slots o).entries.flatMap (fun entry => slotHandles entry.2) =
      (w.heap.slots o).entries.flatMap fun entry => slotHandles entry.2
    rw [Heap.hushed, Heap.slots_mapCells, Slots.entries_mapCells, List.flatMap_map]
    simp only [hslot]

/-- What stays alive round after round is the same. -/
theorem peel_hushed (roots : List Handle) (n : Nat) (kept : List Handle) :
    w.hushed.peel roots n kept = w.peel roots n kept := by
  induction n generalizing kept with
  | zero => rfl
  | succ n ih =>
    have hheld : w.hushed.stillHeld roots kept = w.stillHeld roots kept := by
      unfold stillHeld
      rw [funext w.holdings_hushed]
    unfold peel
    simp only [hheld, ih]

/-- What notes do not hold is alive or not whether there are hooks or not. -/
theorem isAlive_hushed {handles : σ × ρ → List Handle} {handles₀ : σ → List Handle}
    (hhandles : ∀ u, handles u = handles₀ u.1) (o : ObjectId) :
    w.hushed.isAlive handles₀ o = w.isAlive handles o := by
  have hroots : w.hushed.roots handles₀ = w.roots handles :=
    congrArg (w.held ++ w.current.toList.map .watcher ++ ·) (hhandles w.user).symm
  have hthings : w.hushed.things = w.things := by
    show (List.range w.heap.hushed.objects.size).map _ ++ _ = _
    rw [Heap.hushed, Heap.size_objects_mapCells]
    rfl
  unfold isAlive
  dsimp only
  rw [hroots, hthings, peel_hushed]

end World

/-- Hooks cannot be asked for. -/
theorem Query.answer_hushed {handles : σ × ρ → List Handle} {handles₀ : σ → List Handle}
    (hhandles : ∀ u, handles u = handles₀ u.1) (w : World κ (σ × ρ)) (q : Query α) :
    q.answer handles₀ w.hushed = q.answer handles w := by
  cases q with
  | peek o key => exact w.heap.peek_hushed o key
  | contains o key =>
    show ((w.heap.hushed.slots o).find? key).isSome = ((w.heap.slots o).find? key).isSome
    rw [← Heap.slot?, ← Heap.slot?, Heap.slot?_hushed, Option.isSome_map]
  | isReactive o key => exact w.heap.isReactive_mapCells Cell.hushed o key
  | subscriberCount o key => exact congrArg List.length (w.heap.subscribers_hushed o key)
  | keys o => exact w.heap.keys_slots_hushed o
  | snapshot v => exact w.heap.snapshot_mapCells Cell.unread_hushed v
  | text v => exact w.heap.text_hushed v
  | inspect v => exact w.heap.inspect_mapCells Cell.hushed v
  | isAlive o => exact w.isAlive_hushed hhandles o
  | collecting | watcher i | tree n | find n selector => rfl

/-! ## Code that chooses no hooks -/

/-- A request that chooses no hook for what it observes. -/
def Request.hushed : Request κ α → Request κ α
  | .observe _ v => .observe .silent v
  | .mount place _ kit => .mount place .silent kit
  | r => r

/-- A program that chooses no hooks. -/
def Program.hushed {α : Type} : Program κ σ α → Program κ σ α
  | .done a => .done a
  | .andThen p next => .andThen p.hushed fun a => (next a).hushed
  | .ask q => .ask q
  | .request r => .request r.hushed
  | .getUser => .getUser
  | .updateUser f => .updateUser f
  | .holding handles p => .holding handles p.hushed
  | .collecting i p => .collecting i p.hushed

/-- User code that chooses no hooks. -/
def Host.hushed (host : Host κ σ) : Host κ σ :=
  { host with body := fun code occasion => (host.body code occasion).hushed }

end DataBinding
