/-!
# Tables of numbered entries

Everything that is shared in a view has a number: its entry in a table. Entries are added at the
end and never taken out, so a number stays good.
-/

namespace DataBinding

/-- Entries numbered from zero. -/
structure Table (α : Type) where
  entries : Array α

namespace Table

variable {α : Type}

instance : EmptyCollection (Table α) := ⟨⟨#[]⟩⟩

instance : Inhabited (Table α) := ⟨∅⟩

@[ext] theorem ext {a b : Table α} (h : a.entries = b.entries) : a = b := by
  cases a; cases b; simp_all

/-- How many entries there are; also the number of the next one. -/
def size (t : Table α) : Nat := t.entries.size

/-- The entry with a number. -/
def find? (t : Table α) (i : Nat) : Option α := t.entries[i]?

/-- Adds an entry at the end. -/
def push (t : Table α) (a : α) : Table α := ⟨t.entries.push a⟩

/-- Changes the entry with a number, if there is one. -/
def modify (t : Table α) (i : Nat) (f : α → α) : Table α := ⟨t.entries.modify i f⟩

@[simp] theorem find?_empty (i : Nat) : (∅ : Table α).find? i = none := rfl

theorem find?_push (t : Table α) (a : α) (i : Nat) :
    (t.push a).find? i = if i = t.size then some a else t.find? i := by
  by_cases h : i = t.entries.size <;> simp [find?, push, size, Array.getElem?_push, h]

theorem find?_modify (t : Table α) (i : Nat) (f : α → α) (j : Nat) :
    (t.modify i f).find? j = if i = j then (t.find? j).map f else t.find? j := by
  simp [find?, modify, Array.getElem?_modify]

@[simp] theorem size_push (t : Table α) (a : α) : (t.push a).size = t.size + 1 := by
  simp [size, push]

@[simp] theorem size_modify (t : Table α) (i : Nat) (f : α → α) : (t.modify i f).size = t.size := by
  simp [size, modify]

theorem find?_eq_none_iff {t : Table α} {i : Nat} : t.find? i = none ↔ t.size ≤ i := by
  simp [find?, size]

theorem lt_size_of_find? {t : Table α} {i : Nat} {a : α} (h : t.find? i = some a) :
    i < t.size := by
  simp only [find?, Array.getElem?_eq_some_iff] at h
  exact h.1

/-- The sum of a measure over the entries. -/
def total (f : α → Nat) (t : Table α) : Nat := t.entries.toList.foldr (f · + ·) 0

private theorem foldr_modify_add {f : α → Nat} {g : α → α} {a : α} :
    ∀ {l : List α} {i : Nat}, l[i]? = some a →
      (l.modify i g).foldr (f · + ·) 0 + f a = l.foldr (f · + ·) 0 + f (g a)
  | [], _, h => by simp at h
  | b :: l, 0, h => by
    simp only [List.getElem?_cons_zero, Option.some.injEq] at h
    subst h
    simp only [List.modify_zero_cons, List.foldr_cons]
    omega
  | b :: l, i + 1, h => by
    have ih := foldr_modify_add (f := f) (g := g) (l := l) (i := i) (by simpa using h)
    simp only [List.modify_succ_cons, List.foldr_cons]
    omega

/-- Changing an entry changes the sum by what it changes there. -/
theorem total_modify_add {f : α → Nat} {g : α → α} {t : Table α} {i : Nat} {a : α}
    (h : t.find? i = some a) : (t.modify i g).total f + f a = t.total f + f (g a) := by
  have hl : t.entries.toList[i]? = some a := by simpa [find?] using h
  simpa [total, modify] using foldr_modify_add (f := f) (g := g) hl

end Table

end DataBinding
