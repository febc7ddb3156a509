import DataBinding.Heap.Basic

/-!
# Snapshots

The unfolding of a value into a tree: arrays and objects become what they hold, to the bottom. An
object that is met again inside itself is not unfolded a second time. One that is only shared is
unfolded at every place. A snapshot is no access: nobody subscribes and no hook is told.
-/

namespace DataBinding

/-- What kind of slot a field is, with the number of its subscribers. -/
inductive SlotMark where
  | plain
  | reactive (subscribers : Nat)
deriving DecidableEq

/-- The mark of a slot. -/
def Slot.mark {κ : Type} : Slot κ → SlotMark
  | .plain _ => .plain
  | .reactive cell => .reactive cell.subscribers.length

/-- A value unfolded into a tree. -/
inductive Snapshot where
  | null
  | bool (b : Bool)
  | number (x : Float)
  | text (s : String)
  | array (items : List Snapshot)
  | object (fields : List (String × SlotMark × Snapshot))
  /-- An object that stands above on the path from the top. -/
  | repeated

namespace Heap

variable {κ : Type}

/-- The objects of the heap that are not on a path. -/
def unseen (h : Heap κ) (path : List ObjectId) : List Nat :=
  (List.range h.objects.size).filter fun i => ⟨i⟩ ∉ path

theorem unseen_cons (h : Heap κ) (path : List ObjectId) (o : ObjectId) :
    h.unseen (o :: path) = (h.unseen path).filter (· ≠ o.index) := by
  simp only [unseen, List.filter_filter]
  apply List.filter_congr
  intro i _
  have hi : (⟨i⟩ : ObjectId) = o ↔ i = o.index := by
    constructor
    · rintro rfl; rfl
    · rintro rfl; rfl
  simp [hi]

theorem length_unseen_cons_lt {h : Heap κ} {path : List ObjectId} {o : ObjectId} (ho : o ∉ path)
    {entry : String × Slot κ} (hmem : entry ∈ (h.slots o).entries) :
    (h.unseen (o :: path)).length < (h.unseen path).length := by
  have hlt := lt_size_of_slot? ((OrderedMap.find?_eq_some_iff _ entry.1 entry.2).mpr hmem)
  rw [unseen_cons, List.length_filter_lt_length_iff_exists]
  exact ⟨o.index, by simp [unseen, hlt, ho], by simp⟩

/-- The snapshot of a value that is met below the objects of `path`. -/
def snapshotBelow (h : Heap κ) (path : List ObjectId) : Value → Snapshot
  | .null => .null
  | .bool b => .bool b
  | .number x => .number x
  | .text s => .text s
  | .array _ items => .array (items.map (h.snapshotBelow path))
  | .object o =>
    if ho : o ∈ path then .repeated
    else
      .object ((h.slots o).entries.attach.map fun entry =>
        have := length_unseen_cons_lt ho entry.2
        (entry.1.1, entry.1.2.mark, h.snapshotBelow (o :: path) entry.1.2.value))
termination_by value => ((h.unseen path).length, sizeOf value)

/-- The snapshot of a value. -/
def snapshot (h : Heap κ) (v : Value) : Snapshot := h.snapshotBelow [] v

/-- An object off the path is unfolded into its slots. -/
theorem snapshotBelow_object (h : Heap κ) {path : List ObjectId} {o : ObjectId} (ho : o ∉ path) :
    h.snapshotBelow path (.object o) =
      .object ((h.slots o).entries.map fun entry =>
        (entry.1, entry.2.mark, h.snapshotBelow (o :: path) entry.2.value)) := by
  rw [snapshotBelow, dif_neg ho, List.map_attach_eq_pmap]
  simp

/-- An object on the path is not unfolded again. -/
theorem snapshotBelow_repeated (h : Heap κ) {path : List ObjectId} {o : ObjectId} (ho : o ∈ path) :
    h.snapshotBelow path (.object o) = .repeated := by
  rw [snapshotBelow, dif_pos ho]

end Heap

end DataBinding
