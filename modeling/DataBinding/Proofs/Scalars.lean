import DataBinding.Proofs.Cells
import DataBinding.Proofs.Equality

/-!
# Flat data

A heap is flat if all fields hold scalars. It stays flat as long as scalars are written and objects
are made from flat JSON, and strictly equal values in it have the same text, then and later.
-/

namespace DataBinding

namespace Json

/-- Whether a JSON value has nothing in it. -/
def isScalar : Json → Bool
  | array _ => false
  | object _ => false
  | _ => true

/-- Whether what is in a JSON value has nothing in it. -/
def isFlat : Json → Bool
  | array items => items.all isScalar
  | object members => members.all fun member => member.2.isScalar
  | _ => true

end Json

namespace Heap

variable {κ : Type}

/-- Whether all fields hold scalars. -/
def Flat (h : Heap κ) : Prop := ∀ o key, (h.peek o key).isScalar = true

/-- A heap stays flat if each field holds what it held before, or a scalar. -/
theorem flat_of_peek {h h' : Heap κ} (hflat : h.Flat)
    (hpeek : ∀ o key, h'.peek o key = h.peek o key ∨ (h'.peek o key).isScalar = true) :
    h'.Flat := by
  intro o key
  rcases hpeek o key with heq | hscalar
  · rw [heq]
    exact hflat o key
  · exact hscalar

theorem peek_modifyCell_of_ne (h : Heap κ) {o p : ObjectId} {k key : String} (f : Cell κ → Cell κ)
    (hne : ¬ (p = o ∧ key = k)) : (h.modifyCell o k f).peek p key = h.peek p key := by
  unfold peek
  rw [slot?_modifyCell, if_neg hne]

/-- A value that is stored is found there, and nowhere else. -/
theorem peek_store {h : Heap κ} {o : ObjectId} {k : String} {c : Cell κ}
    (hc : h.cell? o k = some c) (v : Value) (p : ObjectId) (key : String) :
    (h.store o k v).peek p key = if p = o ∧ key = k then v else h.peek p key := by
  by_cases hp : p = o ∧ key = k
  · rw [if_pos hp]
    obtain ⟨rfl, rfl⟩ := hp
    have hstored : (h.store p key v).cell? p key = some { c with value := v } := by
      rw [cell?_store, if_pos ⟨rfl, rfl⟩, hc]
      rfl
    rw [peek_of_cell? hstored]
  · rw [if_neg hp]
    exact peek_modifyCell_of_ne h _ hp

theorem peek_putPlain (h : Heap κ) (o : ObjectId) (k : String) (v : Value) (p : ObjectId)
    (key : String) :
    (h.putPlain o k v).peek p key =
      if o = p ∧ p.index < h.objects.size ∧ k = key then v else h.peek p key := by
  unfold peek
  rw [slot?_putPlain]
  split <;> rfl

theorem peek_alloc (h : Heap κ) (slots : Slots κ) (p : ObjectId) (key : String) :
    (h.alloc slots).2.peek p key =
      if p = (h.alloc slots).1 then ((slots.find? key).map Slot.value).getD .null
      else h.peek p key := by
  unfold peek slot?
  rw [slots_alloc]
  split <;> rfl

/-- Storing scalars keeps a heap flat. -/
theorem Flat.store {h : Heap κ} (hflat : h.Flat) (o : ObjectId) (k : String) {v : Value}
    (hv : v.isScalar = true) : (h.store o k v).Flat := by
  cases hc : h.cell? o k with
  | none =>
    have hsame : h.store o k v = h := modifyCell_of_cell?_eq_none hc _
    rw [hsame]
    exact hflat
  | some c =>
    refine flat_of_peek hflat fun p key => ?_
    rw [peek_store hc]
    split
    · exact .inr hv
    · exact .inl rfl

theorem Flat.putPlain {h : Heap κ} (hflat : h.Flat) (o : ObjectId) (k : String) {v : Value}
    (hv : v.isScalar = true) : (h.putPlain o k v).Flat := by
  refine flat_of_peek hflat fun p key => ?_
  rw [peek_putPlain]
  split
  · exact .inr hv
  · exact .inl rfl

/-- A new object holds nothing yet. -/
theorem Flat.alloc {h : Heap κ} (hflat : h.Flat) {slots : Slots κ}
    (hslots : ∀ key s, slots.find? key = some s → s.value.isScalar = true) :
    (h.alloc slots).2.Flat := by
  refine flat_of_peek hflat fun p key => ?_
  rw [peek_alloc]
  split
  · refine .inr ?_
    cases hs : slots.find? key with
    | none => rfl
    | some s => exact hslots key s hs
  · exact .inl rfl

/-! ## Flat JSON -/

/-- A scalar in JSON makes no object. -/
theorem ofJson_of_isScalar (h : Heap κ) {j : Json} (hj : j.isScalar = true) :
    (h.ofJson j).1.isScalar = true ∧ (h.ofJson j).2 = h := by
  cases j with
  | null | bool | number | string => exact ⟨rfl, rfl⟩
  | array | object => cases hj

theorem ofJsonItems_of_isScalar (h : Heap κ) {items : List Json}
    (hitems : items.all Json.isScalar = true) : (h.ofJsonItems items).2 = h := by
  induction items with
  | nil => rfl
  | cons item rest ih =>
    rw [List.all_cons, Bool.and_eq_true] at hitems
    rw [ofJsonItems]
    show ((h.ofJson item).2.ofJsonItems rest).2 = h
    rw [(ofJson_of_isScalar h hitems.1).2]
    exact ih hitems.2

theorem ofJsonMembers_of_isScalar (h : Heap κ) {members : List (String × Json)}
    (hmembers : (members.all fun member => member.2.isScalar) = true) :
    (∀ entry ∈ (h.ofJsonMembers members).1, entry.2.value.isScalar = true) ∧
      (h.ofJsonMembers members).2 = h := by
  induction members with
  | nil => exact ⟨fun entry hmem => absurd hmem (by simp [ofJsonMembers]), rfl⟩
  | cons member rest ih =>
    obtain ⟨key, value⟩ := member
    rw [List.all_cons, Bool.and_eq_true] at hmembers
    obtain ⟨hvalue, hheap⟩ := ofJson_of_isScalar h hmembers.1
    obtain ⟨hentries, hrest⟩ := ih hmembers.2
    rw [ofJsonMembers]
    refine ⟨fun entry hmem => ?_, ?_⟩
    · rcases List.mem_cons.mp hmem with rfl | hmem
      · exact hvalue
      · rw [hheap] at hmem
        exact hentries entry hmem
    · show ((h.ofJson value).2.ofJsonMembers rest).2 = h
      rw [hheap]
      exact hrest

/-- Flat JSON leaves a flat heap flat. -/
theorem Flat.ofJson {h : Heap κ} (hflat : h.Flat) {j : Json} (hj : j.isFlat = true) :
    (h.ofJson j).2.Flat := by
  cases j with
  | null | bool | number | string => exact hflat
  | array items =>
    rw [Heap.ofJson]
    show (h.ofJsonItems items).2.Flat
    rw [ofJsonItems_of_isScalar h hj]
    exact hflat
  | object members =>
    obtain ⟨hentries, hheap⟩ := ofJsonMembers_of_isScalar h hj
    rw [Heap.ofJson]
    show ((h.ofJsonMembers members).2.alloc _).2.Flat
    rw [hheap]
    exact hflat.alloc fun key s hs =>
      of_find?_ofList (P := fun s => s.value.isScalar = true) hentries hs

end Heap

end DataBinding
