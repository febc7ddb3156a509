import DataBinding.Proofs.Accesses
import DataBinding.Proofs.Cellwise

/-!
# Heaps without the names of subscribers

Nothing that is read out of a heap tells who subscribed to a field, only how many did. So what is
read is the same after the names of the subscribers are taken out, and whatever is done to the
heap can be done without the names as well.
-/

namespace DataBinding

variable {κ : Type}

/-- A cell without the names of its subscribers. -/
def Cell.nameless (c : Cell κ) : Cell κ :=
  { c with subscribers := c.subscribers.map fun _ => ⟨0⟩ }

/-- A slot without the names of its subscribers. -/
def Slot.nameless (s : Slot κ) : Slot κ := s.modifyCell Cell.nameless

/-- Slots without the names of their subscribers. -/
def Slots.nameless (slots : Slots κ) : Slots κ := slots.mapValues fun _ => Slot.nameless

/-- A heap without the names of its subscribers. -/
def Heap.nameless (h : Heap κ) : Heap κ :=
  { h with objects := ⟨h.objects.entries.map Slots.nameless⟩ }

/-- Names are never read, and their number is kept. -/
theorem Cell.unread_nameless : Unread (κ := κ) nameless :=
  ⟨fun _ => rfl, fun _ => List.length_map _⟩

@[simp] theorem Slots.keys_nameless (slots : Slots κ) : slots.nameless.keys = slots.keys :=
  slots.keys_mapCells Cell.nameless

namespace Heap

/-! ## Reading without names -/

variable (h : Heap κ)

@[simp] theorem size_objects_nameless : h.nameless.objects.size = h.objects.size :=
  h.size_objects_mapCells Cell.nameless

/-- Reading anything from a heap without names is a case of reading one with every cell changed. -/
@[simp] theorem slots_nameless (o : ObjectId) : h.nameless.slots o = (h.slots o).nameless :=
  h.slots_mapCells Cell.nameless o

@[simp] theorem slot?_nameless (o : ObjectId) (key : String) :
    h.nameless.slot? o key = (h.slot? o key).map Slot.nameless :=
  h.slot?_mapCells Cell.nameless o key

/-- A field is as reactive without the names as with them. -/
@[simp] theorem cell?_nameless (o : ObjectId) (key : String) :
    h.nameless.cell? o key = (h.cell? o key).map Cell.nameless :=
  h.cell?_mapCells Cell.nameless o key

/-- Values do not depend on who subscribed. -/
@[simp] theorem peek_nameless (o : ObjectId) (key : String) :
    h.nameless.peek o key = h.peek o key :=
  h.peek_mapCells Cell.unread_nameless o key

@[simp] theorem isReactive_nameless (o : ObjectId) (key : String) :
    h.nameless.isReactive o key = h.isReactive o key :=
  h.isReactive_mapCells Cell.nameless o key

@[simp] theorem fields_nameless (o : ObjectId) : h.nameless.fields o = h.fields o :=
  h.fields_mapCells Cell.unread_nameless o

@[simp] theorem text_nameless (v : Value) : h.nameless.text v = h.text v :=
  h.text_mapCells Cell.unread_nameless v

/-- A snapshot counts subscribers, and names none. -/
@[simp] theorem snapshot_nameless (v : Value) : h.nameless.snapshot v = h.snapshot v :=
  h.snapshot_mapCells Cell.unread_nameless v

@[simp] theorem inspect_nameless (v : Value) : h.nameless.inspect v = h.inspect v :=
  h.inspect_mapCells Cell.nameless v

/-! ## Changing without names -/

theorem nameless_putPlain (o : ObjectId) (key : String) (v : Value) :
    (h.putPlain o key v).nameless = h.nameless.putPlain o key v :=
  h.mapCells_putPlain Cell.nameless o key v

/-- A value is stored in the cell that has no names. -/
theorem nameless_store (o : ObjectId) (key : String) (v : Value) :
    (h.store o key v).nameless = h.nameless.store o key v :=
  h.mapCells_modifyCell o key fun _ => rfl

/-- Whoever subscribes, without names it is always the same watcher. -/
theorem nameless_subscribe (o : ObjectId) (key : String) (i : WatcherId) :
    (h.subscribe o key i).nameless = h.nameless.subscribe o key ⟨0⟩ :=
  h.mapCells_modifyCell o key fun _ => by simp [Cell.nameless]

theorem nameless_alloc (slots : Slots κ) :
    (h.alloc slots).2.nameless = (h.nameless.alloc slots.nameless).2 :=
  h.mapCells_alloc Cell.nameless slots

/-- New cells have nobody in their lists, so there are no names to take out. -/
theorem nameless_intercept (hook : Hook κ) (values : List Value) :
    (intercept hook h values).nameless = intercept hook h.nameless values :=
  h.mapCells_intercept Cell.unread_nameless (fun _ => rfl) values

/-- A value made from JSON is made the same without names. -/
theorem nameless_ofJson (j : Json) :
    h.nameless.ofJson j = ((h.ofJson j).1, (h.ofJson j).2.nameless) :=
  mapCells_ofJson Cell.nameless h j

end Heap

end DataBinding
