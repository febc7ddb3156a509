import DataBinding.Heap.Basic
import DataBinding.Json.Basic

/-!
# Values from JSON

A JSON value becomes a fresh value: every object and every array in it is a new one, and all slots
are plain. Numbers become doubles.
-/

namespace DataBinding.Heap

variable {κ : Type}

mutual

/-- The value of a JSON value, and the heap with its objects. -/
def ofJson (h : Heap κ) : Json → Value × Heap κ
  | .null => (.null, h)
  | .bool b => (.bool b, h)
  | .number n => (.number n.toFloat, h)
  | .string s => (.text s, h)
  | .array items =>
    let (items, h) := ofJsonItems h items
    h.allocArray items
  | .object members =>
    let (slots, h) := ofJsonMembers h members
    let (o, h) := h.alloc (.ofList slots)
    (.object o, h)

/-- The values of JSON values. -/
def ofJsonItems (h : Heap κ) : List Json → List Value × Heap κ
  | [] => ([], h)
  | item :: rest =>
    let (item, h) := ofJson h item
    let (rest, h) := ofJsonItems h rest
    (item :: rest, h)

/-- The plain slots of JSON members. -/
def ofJsonMembers (h : Heap κ) : List (String × Json) → List (String × Slot κ) × Heap κ
  | [] => ([], h)
  | (key, value) :: rest =>
    let (value, h) := ofJson h value
    let (rest, h) := ofJsonMembers h rest
    ((key, .plain value) :: rest, h)

end

end DataBinding.Heap
