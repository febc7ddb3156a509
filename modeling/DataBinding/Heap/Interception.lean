import DataBinding.Heap.Basic

/-!
# Interception

Observing a value turns every plain slot of its object into a reactive one, and goes on with the
values of the slots it turned. It does not look into arrays, nor behind slots that were reactive
before. Each object that is gone into loses its plain slots, so this ends on cyclic data too.
-/

namespace DataBinding

namespace Slots

variable {κ : Type}

/-- The values of the plain slots, in order of the keys. -/
def plainValues (slots : Slots κ) : List Value :=
  slots.entries.filterMap fun entry => if entry.2.isPlain then some entry.2.value else none

/-- All slots reactive. -/
def observed (hook : Hook κ) (slots : Slots κ) : Slots κ :=
  slots.mapValues fun _ slot => slot.observed hook

theorem plainValues_observed (hook : Hook κ) (slots : Slots κ) :
    (slots.observed hook).plainValues = [] := by
  simp only [plainValues, observed, OrderedMap.mapValues, Entries.mapValues,
    List.filterMap_map, List.filterMap_eq_nil_iff]
  rintro ⟨key, slot⟩ -
  cases slot <;> rfl

theorem observed_of_plainValues_eq_nil (hook : Hook κ) {slots : Slots κ}
    (h : slots.plainValues = []) : slots.observed hook = slots := by
  apply OrderedMap.ext
  simp only [plainValues, List.filterMap_eq_nil_iff] at h
  simp only [observed, OrderedMap.mapValues, Entries.mapValues]
  conv => rhs; rw [← List.map_id slots.entries]
  apply List.map_congr_left
  rintro ⟨key, slot⟩ hmem
  have := h _ hmem
  cases slot with
  | plain v => simp [Slot.isPlain, Slot.cell?] at this
  | reactive cell => rfl

end Slots

namespace Heap

variable {κ : Type}

/-- How many plain slots there are in the heap. -/
def plainCount (h : Heap κ) : Nat := h.objects.total fun slots => slots.plainValues.length

/-- Makes all slots of an object reactive. -/
def observeObject (h : Heap κ) (hook : Hook κ) (o : ObjectId) : Heap κ :=
  h.modifySlots o (Slots.observed hook)

theorem observeObject_of_plainValues_eq_nil {h : Heap κ} (hook : Hook κ) {o : ObjectId}
    (ho : (h.slots o).plainValues = []) : h.observeObject hook o = h := by
  have hobjects : h.objects.modify o.index (Slots.observed hook) = h.objects := by
    apply Table.ext
    apply Array.ext_getElem?
    intro i
    simp only [Table.modify, Array.getElem?_modify]
    split
    · next hi =>
      subst hi
      simp only [slots, Table.find?] at ho
      cases hs : h.objects.entries[o.index]? with
      | none => rfl
      | some s =>
        rw [hs, Option.getD_some] at ho
        simp [Slots.observed_of_plainValues_eq_nil hook ho]
    · rfl
  rw [observeObject, modifySlots, hobjects]

/-- Observing an object takes its plain slots off the count. -/
theorem plainCount_observeObject (h : Heap κ) (hook : Hook κ) (o : ObjectId) :
    (h.observeObject hook o).plainCount + (h.slots o).plainValues.length = h.plainCount := by
  cases hs : h.objects.find? o.index with
  | none =>
    have hempty : h.slots o = ∅ := by simp [slots, hs]
    have hnil : (h.slots o).plainValues = [] := by rw [hempty]; rfl
    rw [observeObject_of_plainValues_eq_nil hook hnil, hnil]
    rfl
  | some slots =>
    have hslots : h.slots o = slots := by simp [Heap.slots, hs]
    have hadd := Table.total_modify_add (f := fun s : Slots κ => s.plainValues.length)
      (g := Slots.observed hook) hs
    rw [Slots.plainValues_observed] at hadd
    rw [hslots]
    exact hadd

/-- Observes values one after the other, each in depth before the next. -/
def intercept (hook : Hook κ) (h : Heap κ) : List Value → Heap κ
  | [] => h
  | .object o :: rest =>
    if (h.slots o).plainValues = [] then intercept hook h rest
    else intercept hook (h.observeObject hook o) ((h.slots o).plainValues ++ rest)
  | _ :: rest => intercept hook h rest
-- a slot that is turned counts no more, and its value counts in the list instead
termination_by values => h.plainCount + values.length
decreasing_by
  · simp only [List.length_cons]
    omega
  · next ho =>
    have hcount := plainCount_observeObject h hook o
    have := List.length_pos_iff.mpr ho
    simp only [List.length_append, List.length_cons]
    omega
  · simp only [List.length_cons]
    omega

end Heap

end DataBinding
