import DataBinding.Heap.Text
import DataBinding.Proofs.Cells

/-!
# What the text of a value depends on

The text of a value depends on the keys and values of the fields behind it and on nothing else: not
on who is subscribed, nor on which fields are reactive.
-/

namespace DataBinding

namespace Heap

variable {κ : Type}

/-- The keys and values of an object, in order. -/
def fields (h : Heap κ) (o : ObjectId) : List (String × Value) :=
  (h.slots o).entries.map fun entry => (entry.1, entry.2.value)

/-- Changing cells without changing values leaves the fields as they are. -/
theorem fields_modifyCell (h : Heap κ) (o : ObjectId) (k : String) {f : Cell κ → Cell κ}
    (hf : ∀ c, (f c).value = c.value) (p : ObjectId) :
    (h.modifyCell o k f).fields p = h.fields p := by
  unfold fields modifyCell
  rw [slots_modifySlots]
  split
  · simp only [OrderedMap.modify, OrderedMap.mapValues, Entries.mapValues, List.map_map]
    apply List.map_congr_left
    intro entry _
    obtain ⟨key, slot⟩ := entry
    by_cases hk : key = k
    · cases slot with
      | plain v => simp [Slot.modifyCell]
      | reactive cell => simp [hk, Slot.modifyCell, Slot.value, hf cell]
    · simp [hk]
  · rfl

theorem itemsToJson_map {α : Type} (f : α → Snapshot) (items : List α) :
    Snapshot.itemsToJson (items.map f) = items.map fun item => (f item).toJson := by
  induction items with
  | nil => rfl
  | cons item rest ih => simp [Snapshot.itemsToJson, ih]

theorem fieldsToJson_map {α : Type} (key : α → String) (mark : α → SlotMark) (f : α → Snapshot)
    (entries : List α) :
    Snapshot.fieldsToJson (entries.map fun e => (key e, mark e, f e)) =
      entries.map fun e => (key e, (f e).toJson) := by
  induction entries with
  | nil => rfl
  | cons entry rest ih => simp [Snapshot.fieldsToJson, ih]

/-- Heaps unfold a value into the same JSON if their fields are the same to JSON. -/
theorem toJson_snapshotBelow_of_fields {h h' : Heap κ}
    (hfields : ∀ o path, (h.fields o).map (fun e => (e.1, (h'.snapshotBelow path e.2).toJson)) =
      (h'.fields o).map fun e => (e.1, (h'.snapshotBelow path e.2).toJson))
    (path : List ObjectId) (v : Value) :
    (h.snapshotBelow path v).toJson = (h'.snapshotBelow path v).toJson := by
  -- along the unfolding in the first heap
  fun_induction Heap.snapshotBelow h path v with
  | case1 | case2 | case3 | case4 => simp [snapshotBelow, Snapshot.toJson]
  | case5 path id items ih =>
    rw [snapshotBelow]
    simp only [Snapshot.toJson, itemsToJson_map]
    congr 1
    exact List.map_congr_left fun item hmem => ih item hmem
  | case6 path o ho => rw [snapshotBelow_repeated h' ho]
  | case7 path o ho ih =>
    rw [snapshotBelow_object h' ho, List.map_attach_eq_pmap]
    simp only [List.pmap_eq_map, Snapshot.toJson, fieldsToJson_map]
    congr 1
    have hleft : (h.slots o).entries.map
          (fun e => (e.1, (h.snapshotBelow (o :: path) e.2.value).toJson)) =
        (h.fields o).map fun e => (e.1, (h'.snapshotBelow (o :: path) e.2).toJson) := by
      rw [fields, List.map_map]
      apply List.map_congr_left
      intro entry hmem
      have hentry := ih ⟨entry, hmem⟩
      simp [hentry]
    rw [hleft, hfields o, fields, List.map_map]
    rfl

/-- Heaps with the same fields unfold a value into the same JSON. -/
theorem toJson_snapshotBelow_congr {h h' : Heap κ} (hfields : ∀ o, h.fields o = h'.fields o)
    (path : List ObjectId) (v : Value) :
    (h.snapshotBelow path v).toJson = (h'.snapshotBelow path v).toJson :=
  toJson_snapshotBelow_of_fields (fun o _ => by rw [hfields o]) path v

/-- Heaps with the same fields give a value the same text. -/
theorem text_congr {h h' : Heap κ} (hfields : ∀ o, h.fields o = h'.fields o) (v : Value) :
    h.text v = h'.text v := by
  cases v with
  | null | bool | number | text => rfl
  | array id items =>
    show (h.toJson _).compact = (h'.toJson _).compact
    rw [toJson, toJson, snapshot, snapshot, toJson_snapshotBelow_congr hfields]
  | object o =>
    show (h.toJson _).compact = (h'.toJson _).compact
    rw [toJson, toJson, snapshot, snapshot, toJson_snapshotBelow_congr hfields]

end Heap

end DataBinding
