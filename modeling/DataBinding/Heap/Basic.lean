import DataBinding.OrderedMap
import DataBinding.Table
import DataBinding.Value

/-!
# The heap of data objects

An object is an ordered map of slots. A slot starts out plain: it holds a value and nobody learns
of its changes. Observing an object turns its plain slots into reactive ones, whose cells also
list the watchers that subscribed to the field, and name the hook that is told of each access.

An object that does not exist reads like one without fields.
-/

namespace DataBinding

/-- The identity of a watcher. -/
structure WatcherId where
  index : Nat
deriving DecidableEq, Repr

/-- Who is told of the accesses to a reactive field: nobody, or some code of the user's. -/
inductive Hook (κ : Type) where
  | silent
  | custom (code : κ)

/-- What a reactive slot holds. Subscribers are in order of registration. -/
structure Cell (κ : Type) where
  value : Value
  subscribers : List WatcherId := []
  hook : Hook κ

/-- A slot of an object. -/
inductive Slot (κ : Type) where
  | plain (value : Value)
  | reactive (cell : Cell κ)

namespace Slot

variable {κ : Type}

/-- The value in a slot. -/
def value : Slot κ → Value
  | plain v => v
  | reactive cell => cell.value

/-- The cell of a reactive slot. -/
def cell? : Slot κ → Option (Cell κ)
  | plain _ => none
  | reactive cell => some cell

/-- Whether a slot is plain. -/
def isPlain (s : Slot κ) : Bool := s.cell?.isNone

/-- A plain slot becomes a cell without subscribers; a reactive one stays as it is. -/
def observed (hook : Hook κ) : Slot κ → Slot κ
  | plain v => reactive { value := v, hook := hook }
  | reactive cell => reactive cell

/-- Changes the cell of a reactive slot. -/
def modifyCell (f : Cell κ → Cell κ) : Slot κ → Slot κ
  | plain v => plain v
  | reactive cell => reactive (f cell)

@[simp] theorem value_observed (hook : Hook κ) (s : Slot κ) :
    (s.observed hook).value = s.value := by
  cases s <;> rfl

end Slot

/-- The slots of an object, by key. -/
abbrev Slots (κ : Type) := OrderedMap (Slot κ)

/-- All data objects, and how many arrays have been made. -/
structure Heap (κ : Type) where
  objects : Table (Slots κ) := ∅
  arrays : Nat := 0

namespace Heap

variable {κ : Type}

/-- The slots of an object. -/
def slots (h : Heap κ) (o : ObjectId) : Slots κ := (h.objects.find? o.index).getD ∅

/-- The slot of an object at a key. -/
def slot? (h : Heap κ) (o : ObjectId) (key : String) : Option (Slot κ) := (h.slots o).find? key

/-- The cell of a reactive field. -/
def cell? (h : Heap κ) (o : ObjectId) (key : String) : Option (Cell κ) :=
  (h.slot? o key).bind Slot.cell?

/-- The value of a field, `null` for one that is missing. Nobody learns of this access. -/
def peek (h : Heap κ) (o : ObjectId) (key : String) : Value :=
  ((h.slot? o key).map Slot.value).getD .null

/-- The watchers subscribed to a field, in order of registration. -/
def subscribers (h : Heap κ) (o : ObjectId) (key : String) : List WatcherId :=
  ((h.cell? o key).map Cell.subscribers).getD []

/-- Whether a field is reactive. -/
def isReactive (h : Heap κ) (o : ObjectId) (key : String) : Bool := (h.cell? o key).isSome

/-- Adds an object. -/
def alloc (h : Heap κ) (slots : Slots κ) : ObjectId × Heap κ :=
  (⟨h.objects.size⟩, { h with objects := h.objects.push slots })

/-- Makes an array, different from all others. -/
def allocArray (h : Heap κ) (items : List Value) : Value × Heap κ :=
  (.array ⟨h.arrays⟩ items, { h with arrays := h.arrays + 1 })

/-- Changes the slots of an object. -/
def modifySlots (h : Heap κ) (o : ObjectId) (f : Slots κ → Slots κ) : Heap κ :=
  { h with objects := h.objects.modify o.index f }

/-- Puts a plain slot: a new key goes to the end. -/
def putPlain (h : Heap κ) (o : ObjectId) (key : String) (value : Value) : Heap κ :=
  h.modifySlots o fun slots => slots.insert key (.plain value)

/-- Changes the cell of a reactive field. -/
def modifyCell (h : Heap κ) (o : ObjectId) (key : String) (f : Cell κ → Cell κ) : Heap κ :=
  h.modifySlots o fun slots => slots.modify key (Slot.modifyCell f)

/-- Stores a value in a reactive field. -/
def store (h : Heap κ) (o : ObjectId) (key : String) (value : Value) : Heap κ :=
  h.modifyCell o key fun cell => { cell with value := value }

/-- Appends a watcher to the subscribers of a reactive field. -/
def subscribe (h : Heap κ) (o : ObjectId) (key : String) (w : WatcherId) : Heap κ :=
  h.modifyCell o key fun cell => { cell with subscribers := cell.subscribers ++ [w] }

theorem slots_alloc (h : Heap κ) (slots : Slots κ) (o : ObjectId) :
    (h.alloc slots).2.slots o = if o = (h.alloc slots).1 then slots else h.slots o := by
  obtain ⟨i⟩ := o
  simp only [alloc, Heap.slots, Table.find?_push, ObjectId.mk.injEq]
  split <;> rfl

/-- A change to an object that exists is seen there and nowhere else. -/
theorem slots_modifySlots (h : Heap κ) (o : ObjectId) (f : Slots κ → Slots κ) (p : ObjectId) :
    (h.modifySlots o f).slots p =
      if o = p ∧ p.index < h.objects.size then f (h.slots p) else h.slots p := by
  obtain ⟨i⟩ := o
  obtain ⟨j⟩ := p
  simp only [modifySlots, Heap.slots, Table.find?_modify, ObjectId.mk.injEq]
  by_cases hij : i = j
  · subst hij
    cases hf : h.objects.find? i with
    | none =>
      have hlt : ¬ i < h.objects.size := by
        intro hlt
        have := Table.find?_eq_none_iff.mp hf
        omega
      simp [hlt]
    | some slots => simp [Table.lt_size_of_find? hf]
  · simp [hij]

theorem lt_size_of_slot? {h : Heap κ} {o : ObjectId} {key : String} {s : Slot κ}
    (hs : h.slot? o key = some s) : o.index < h.objects.size := by
  unfold slot? slots at hs
  cases hf : h.objects.find? o.index with
  | none => simp [hf] at hs
  | some slots => exact Table.lt_size_of_find? hf

end Heap

end DataBinding
