import DataBinding.Proofs.Fields

/-!
# Changing every cell of a heap

Whatever is read out of a heap depends on its cells only through their values and the numbers of
their subscribers. So what is read is the same after a change to every cell that leaves these
alone, and whatever is done to the heap can be done after such a change as well.
-/

namespace DataBinding

variable {κ : Type}

/-- A change to cells that cannot be read off them. -/
structure Cell.Unread (f : Cell κ → Cell κ) : Prop where
  value : ∀ c, (f c).value = c.value
  count : ∀ c, (f c).subscribers.length = c.subscribers.length

/-- Slots with every cell changed. -/
def Slots.mapCells (f : Cell κ → Cell κ) (slots : Slots κ) : Slots κ :=
  slots.mapValues fun _ => Slot.modifyCell f

/-- A heap with every cell changed. -/
def Heap.mapCells (f : Cell κ → Cell κ) (h : Heap κ) : Heap κ :=
  { h with objects := ⟨h.objects.entries.map (Slots.mapCells f)⟩ }

section

variable {f : Cell κ → Cell κ}

namespace Slot

/-- The value of a slot is the one in its cell, which the change leaves alone. -/
theorem value_modifyCell (hf : Cell.Unread f) (s : Slot κ) : (s.modifyCell f).value = s.value := by
  cases s with
  | plain v => rfl
  | reactive c => exact hf.value c

@[simp] theorem isPlain_modifyCell (f : Cell κ → Cell κ) (s : Slot κ) :
    (s.modifyCell f).isPlain = s.isPlain := by
  cases s <;> rfl

/-- What a snapshot says of a reactive field is how many subscribers it has. -/
theorem mark_modifyCell (hf : Cell.Unread f) (s : Slot κ) : (s.modifyCell f).mark = s.mark := by
  cases s with
  | plain v => rfl
  | reactive c => exact congrArg SlotMark.reactive (hf.count c)

/-- A slot that is observed gets a new cell, or keeps the one it has. -/
theorem modifyCell_observed {hook hook' : Hook κ}
    (hnew : ∀ v, f { value := v, hook } = { value := v, hook := hook' }) (s : Slot κ) :
    (s.observed hook).modifyCell f = (s.modifyCell f).observed hook' := by
  cases s with
  | plain v => exact congrArg Slot.reactive (hnew v)
  | reactive c => rfl

end Slot

namespace Slots

/-- The keys and their order stay. -/
theorem entries_mapCells (f : Cell κ → Cell κ) (slots : Slots κ) :
    (slots.mapCells f).entries =
      slots.entries.map fun entry => (entry.1, entry.2.modifyCell f) := rfl

@[simp] theorem keys_mapCells (f : Cell κ → Cell κ) (slots : Slots κ) :
    OrderedMap.keys (slots.mapCells f) = slots.keys :=
  OrderedMap.keys_mapValues _ _

/-- Which slots are plain is seen without their cells. -/
theorem plainValues_mapCells (hf : Cell.Unread f) (slots : Slots κ) :
    (slots.mapCells f).plainValues = slots.plainValues := by
  unfold plainValues
  rw [entries_mapCells, List.filterMap_map]
  congr 1
  funext entry
  simp [Slot.value_modifyCell hf]

/-- Observing after the change is observing before it, for new cells that the change makes alike. -/
theorem mapCells_observed {hook hook' : Hook κ}
    (hnew : ∀ v, f { value := v, hook } = { value := v, hook := hook' }) (slots : Slots κ) :
    mapCells f (slots.observed hook) = (slots.mapCells f).observed hook' := by
  apply OrderedMap.ext
  simp [mapCells, observed, OrderedMap.mapValues, Entries.mapValues, Slot.modifyCell_observed hnew]

theorem mapCells_insert (f : Cell κ → Cell κ) (slots : Slots κ) (key : String) (s : Slot κ) :
    mapCells f (slots.insert key s) = (slots.mapCells f).insert key (s.modifyCell f) := by
  apply OrderedMap.ext
  show Entries.mapValues (fun _ => Slot.modifyCell f) (Entries.put slots.entries key s) =
    Entries.put (Entries.mapValues (fun _ => Slot.modifyCell f) slots.entries) key (s.modifyCell f)
  induction slots.entries with
  | nil => rfl
  | cons entry rest ih =>
    obtain ⟨k, t⟩ := entry
    by_cases hk : k = key
    · simp [Entries.put, Entries.mapValues, hk]
    · simpa [Entries.put, Entries.mapValues, hk] using ih

/-- Changing one cell, before and after. -/
theorem mapCells_modify (slots : Slots κ) (key : String) {g g' : Cell κ → Cell κ}
    (hg : ∀ c, f (g c) = g' (f c)) :
    mapCells f (slots.modify key (Slot.modifyCell g)) =
      (slots.mapCells f).modify key (Slot.modifyCell g') := by
  apply OrderedMap.ext
  simp only [mapCells, OrderedMap.modify, OrderedMap.mapValues, Entries.mapValues, List.map_map]
  refine List.map_congr_left fun entry _ => ?_
  obtain ⟨k, s⟩ := entry
  by_cases hk : k = key
  · cases s with
    | plain v => simp [Slot.modifyCell]
    | reactive c => simp [hk, Slot.modifyCell, hg c]
  · simp [hk]

/-- Plain slots have no cells. -/
theorem mapCells_of_isPlain {slots : Slots κ}
    (hplain : ∀ entry ∈ slots.entries, entry.2.isPlain = true) : slots.mapCells f = slots := by
  apply OrderedMap.ext
  rw [entries_mapCells]
  conv => rhs; rw [← List.map_id slots.entries]
  refine List.map_congr_left fun entry hmem => ?_
  obtain ⟨key, s⟩ := entry
  cases s with
  | plain v => rfl
  | reactive c => exact absurd (hplain _ hmem) (by simp [Slot.isPlain, Slot.cell?])

end Slots

namespace Heap

/-! ## Reading changed cells -/

variable (h : Heap κ)

@[simp] theorem size_objects_mapCells (f : Cell κ → Cell κ) :
    (h.mapCells f).objects.size = h.objects.size :=
  Array.size_map

@[simp] theorem slots_mapCells (f : Cell κ → Cell κ) (o : ObjectId) :
    (h.mapCells f).slots o = (h.slots o).mapCells f := by
  simp only [Heap.slots, Table.find?, mapCells, Array.getElem?_map]
  cases h.objects.entries[o.index]? <;> rfl

@[simp] theorem slot?_mapCells (f : Cell κ → Cell κ) (o : ObjectId) (key : String) :
    (h.mapCells f).slot? o key = (h.slot? o key).map (Slot.modifyCell f) := by
  rw [slot?, slots_mapCells]
  exact OrderedMap.find?_mapValues _ _ _

/-- A field has a cell after the change if it had one. -/
@[simp] theorem cell?_mapCells (f : Cell κ → Cell κ) (o : ObjectId) (key : String) :
    (h.mapCells f).cell? o key = (h.cell? o key).map f := by
  rw [cell?, cell?, slot?_mapCells]
  cases h.slot? o key with
  | none => rfl
  | some s => cases s <;> rfl

/-- No field becomes reactive by the change, and none ceases to be. -/
@[simp] theorem isReactive_mapCells (f : Cell κ → Cell κ) (o : ObjectId) (key : String) :
    (h.mapCells f).isReactive o key = h.isReactive o key := by
  rw [isReactive, isReactive, cell?_mapCells, Option.isSome_map]

/-- Values are read as before. -/
theorem peek_mapCells (hf : Cell.Unread f) (o : ObjectId) (key : String) :
    (h.mapCells f).peek o key = h.peek o key := by
  rw [peek, peek, slot?_mapCells, Option.map_map]
  congr 2
  exact funext (Slot.value_modifyCell hf)

theorem fields_mapCells (hf : Cell.Unread f) (o : ObjectId) :
    (h.mapCells f).fields o = h.fields o := by
  simp [fields, Slots.entries_mapCells, Function.comp_def, Slot.value_modifyCell hf]

/-- The page shows nothing of cells but their values. -/
theorem text_mapCells (hf : Cell.Unread f) (v : Value) : (h.mapCells f).text v = h.text v :=
  text_congr (fun o => h.fields_mapCells hf o) v

/-- Along the recursion of the snapshot, which visits the same objects in the same order. -/
theorem snapshotBelow_mapCells (hf : Cell.Unread f) (path : List ObjectId) (v : Value) :
    (h.mapCells f).snapshotBelow path v = h.snapshotBelow path v := by
  fun_induction Heap.snapshotBelow h path v with
  | case1 | case2 | case3 | case4 => simp [snapshotBelow]
  | case5 path id items ih =>
    rw [snapshotBelow]
    exact congrArg Snapshot.array (List.map_congr_left ih)
  | case6 path o ho => rw [snapshotBelow_repeated _ ho]
  | case7 path o ho ih =>
    rw [snapshotBelow_object _ ho, slots_mapCells, Slots.entries_mapCells,
      List.map_attach_eq_pmap, List.map_map]
    simp only [List.pmap_eq_map]
    refine congrArg Snapshot.object (List.map_congr_left fun entry hmem => ?_)
    have hentry := ih ⟨entry, hmem⟩
    simp only [Function.comp_apply, Slot.mark_modifyCell hf, Slot.value_modifyCell hf, hentry]

theorem snapshot_mapCells (hf : Cell.Unread f) (v : Value) :
    (h.mapCells f).snapshot v = h.snapshot v :=
  h.snapshotBelow_mapCells hf [] v

mutual

/-- What developers see of a value tells nothing of cells. -/
theorem inspect_mapCells (f : Cell κ → Cell κ) (v : Value) :
    (h.mapCells f).inspect v = h.inspect v := by
  match v with
  | .null | .bool _ | .number _ | .text _ => rfl
  | .array _ items =>
    show "[" ++ listed ((h.mapCells f).inspectItems items) ++ "]" = _
    rw [inspectItems_mapCells f items]
    rfl
  | .object o =>
    rw [inspect, inspect, slots_mapCells, Slots.entries_mapCells, List.map_map]
    simp [Function.comp_def]

theorem inspectItems_mapCells (f : Cell κ → Cell κ) (items : List Value) :
    (h.mapCells f).inspectItems items = h.inspectItems items := by
  match items with
  | [] => rfl
  | item :: rest =>
    rw [inspectItems, inspectItems, inspect_mapCells f item, inspectItems_mapCells f rest]

end

/-! ## Doing things to changed cells -/

/-- An operation on the slots of one object can be done after the change if it can on slots. -/
theorem mapCells_modifySlots (o : ObjectId) {g g' : Slots κ → Slots κ}
    (hg : ∀ slots, (g slots).mapCells f = g' (slots.mapCells f)) :
    (h.modifySlots o g).mapCells f = (h.mapCells f).modifySlots o g' := by
  have hobjects :
      ((h.modifySlots o g).mapCells f).objects = ((h.mapCells f).modifySlots o g').objects := by
    apply Table.ext
    apply Array.ext_getElem?
    intro k
    simp only [mapCells, modifySlots, Table.modify, Array.getElem?_map, Array.getElem?_modify]
    split
    · rw [Option.map_map, Option.map_map]
      congr 1
      exact funext hg
    · rfl
  exact congrArg (fun objects => ({ objects, arrays := h.arrays } : Heap κ)) hobjects

/-- A plain slot has no cell that could be changed. -/
theorem mapCells_putPlain (f : Cell κ → Cell κ) (o : ObjectId) (key : String) (v : Value) :
    (h.putPlain o key v).mapCells f = (h.mapCells f).putPlain o key v :=
  h.mapCells_modifySlots o fun slots => slots.mapCells_insert f key (.plain v)

theorem mapCells_modifyCell (o : ObjectId) (key : String) {g g' : Cell κ → Cell κ}
    (hg : ∀ c, f (g c) = g' (f c)) :
    (h.modifyCell o key g).mapCells f = (h.mapCells f).modifyCell o key g' :=
  h.mapCells_modifySlots o fun slots => slots.mapCells_modify key hg

/-- A new object gets the next number in both heaps. -/
theorem mapCells_alloc (f : Cell κ → Cell κ) (slots : Slots κ) :
    (h.alloc slots).2.mapCells f = ((h.mapCells f).alloc (slots.mapCells f)).2 := by
  simp [alloc, mapCells, Table.push]

theorem mapCells_observeObject {hook hook' : Hook κ}
    (hnew : ∀ v, f { value := v, hook } = { value := v, hook := hook' }) (o : ObjectId) :
    (h.observeObject hook o).mapCells f = (h.mapCells f).observeObject hook' o :=
  h.mapCells_modifySlots o (Slots.mapCells_observed hnew)

/-- Along the recursion of interception: the values on the way are the same, so it reaches the same
objects. -/
theorem mapCells_intercept (hf : Cell.Unread f) {hook hook' : Hook κ}
    (hnew : ∀ v, f { value := v, hook } = { value := v, hook := hook' }) (values : List Value) :
    (intercept hook h values).mapCells f = intercept hook' (h.mapCells f) values := by
  fun_induction intercept hook h values with
  | case1 h => rw [intercept]
  | case2 h o rest hnone ih =>
    rw [ih]
    conv => rhs; rw [intercept]
    rw [slots_mapCells, Slots.plainValues_mapCells hf, if_pos hnone]
  | case3 h o rest hsome ih =>
    rw [ih, mapCells_observeObject _ hnew]
    conv => rhs; rw [intercept]
    rw [slots_mapCells, Slots.plainValues_mapCells hf, if_neg hsome]
  | case4 h v rest hv ih =>
    rw [ih]
    conv => rhs; rw [intercept.eq_def]
    cases v with
    | object o => exact absurd rfl (hv o)
    | _ => rfl

mutual

/-- A value made from JSON has no cells yet. -/
theorem mapCells_ofJson (f : Cell κ → Cell κ) (h : Heap κ) (j : Json) :
    (h.mapCells f).ofJson j = ((h.ofJson j).1, (h.ofJson j).2.mapCells f) := by
  match j with
  | .null | .bool _ | .number _ | .string _ => rfl
  | .array items =>
    rw [ofJson, ofJson, mapCells_ofJsonItems f h items]
    rfl
  | .object members =>
    have hplain : ∀ entry ∈ (OrderedMap.ofList (h.ofJsonMembers members).1).entries,
        entry.2.isPlain = true := fun entry hmem =>
      isPlain_of_find?_ofJsonMembers ((OrderedMap.find?_eq_some_iff _ entry.1 entry.2).mpr hmem)
    have hslots := Slots.mapCells_of_isPlain (f := f) hplain
    rw [ofJson, ofJson, mapCells_ofJsonMembers f h members]
    dsimp only
    rw [mapCells_alloc, hslots]
    simp [alloc]

theorem mapCells_ofJsonItems (f : Cell κ → Cell κ) (h : Heap κ) (items : List Json) :
    (h.mapCells f).ofJsonItems items =
      ((h.ofJsonItems items).1, (h.ofJsonItems items).2.mapCells f) := by
  match items with
  | [] => rfl
  | item :: rest =>
    rw [ofJsonItems, ofJsonItems, mapCells_ofJson f h item]
    dsimp only
    rw [mapCells_ofJsonItems f (h.ofJson item).2 rest]

theorem mapCells_ofJsonMembers (f : Cell κ → Cell κ) (h : Heap κ)
    (members : List (String × Json)) :
    (h.mapCells f).ofJsonMembers members =
      ((h.ofJsonMembers members).1, (h.ofJsonMembers members).2.mapCells f) := by
  match members with
  | [] => rfl
  | (key, value) :: rest =>
    rw [ofJsonMembers, ofJsonMembers, mapCells_ofJson f h value]
    dsimp only
    rw [mapCells_ofJsonMembers f (h.ofJson value).2 rest]

end

end Heap

end

end DataBinding
