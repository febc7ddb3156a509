/-!
# Maps that remember the order of insertion

A map from strings that lists its keys in the order in which they first came. Setting an old key
changes its value in place; a new key goes to the end. `Entries` holds the operations on plain
lists of pairs, `OrderedMap` the same under the invariant that no key occurs twice.
-/

namespace DataBinding

namespace Entries

variable {α β : Type}

/-- The value of the first entry with this key. -/
def find? : List (String × α) → String → Option α
  | [], _ => none
  | (k, v) :: rest, key => if k = key then some v else find? rest key

/-- Sets a key, in place if it is there and at the end if not. -/
def put : List (String × α) → String → α → List (String × α)
  | [], key, value => [(key, value)]
  | (k, v) :: rest, key, value =>
    if k = key then (key, value) :: rest else (k, v) :: put rest key value

/-- The keys, in order. -/
def keys (entries : List (String × α)) : List String := entries.map (·.1)

/-- Applies `f` to every value. -/
def mapValues (f : String → α → β) (entries : List (String × α)) : List (String × β) :=
  entries.map fun entry => (entry.1, f entry.1 entry.2)

@[simp] theorem keys_mapValues (f : String → α → β) (entries : List (String × α)) :
    keys (mapValues f entries) = keys entries := by
  simp [keys, mapValues]

theorem keys_put (entries : List (String × α)) (key : String) (value : α) :
    keys (put entries key value) =
      if key ∈ keys entries then keys entries else keys entries ++ [key] := by
  induction entries with
  | nil => simp [put, keys]
  | cons entry rest ih =>
    obtain ⟨k, v⟩ := entry
    by_cases h : k = key
    · simp [put, keys, h]
    · have hk : key ≠ k := fun hk => h hk.symm
      simp only [keys, put, h, ↓reduceIte, List.map_cons, List.mem_cons, hk, false_or] at ih ⊢
      rw [ih]
      split <;> simp_all

theorem nodup_keys_put {entries : List (String × α)} (h : (keys entries).Nodup) (key : String)
    (value : α) : (keys (put entries key value)).Nodup := by
  rw [keys_put]
  split
  · exact h
  · next hk =>
    refine List.nodup_append.mpr ⟨h, by simp, ?_⟩
    intro a ha b hb
    rw [List.mem_singleton.mp hb]
    exact fun hab => hk (hab ▸ ha)

theorem find?_put (entries : List (String × α)) (key : String) (value : α) (other : String) :
    find? (put entries key value) other =
      if key = other then some value else find? entries other := by
  induction entries with
  | nil => rfl
  | cons entry rest ih =>
    obtain ⟨k, v⟩ := entry
    by_cases h : k = key
    · subst h
      by_cases ho : k = other <;> simp [put, find?, ho]
    · by_cases ho : k = other
      · subst ho
        have hk : key ≠ k := fun hk => h hk.symm
        simp [put, find?, h, hk]
      · simp [put, find?, h, ho, ih]

theorem find?_mapValues (f : String → α → β) (entries : List (String × α)) (key : String) :
    find? (mapValues f entries) key = (find? entries key).map (f key) := by
  induction entries with
  | nil => rfl
  | cons entry rest ih =>
    obtain ⟨k, v⟩ := entry
    by_cases h : k = key
    · subst h; simp [mapValues, find?]
    · simpa [mapValues, find?, h] using ih

theorem find?_isSome_iff (entries : List (String × α)) (key : String) :
    (find? entries key).isSome ↔ key ∈ keys entries := by
  induction entries with
  | nil => simp [find?, keys]
  | cons entry rest ih =>
    obtain ⟨k, v⟩ := entry
    by_cases h : k = key
    · simp [find?, keys, h]
    · have hk : key ≠ k := fun hk => h hk.symm
      simpa [find?, keys, h, hk] using ih

theorem mem_of_find? {entries : List (String × α)} {key : String} {value : α}
    (h : find? entries key = some value) : (key, value) ∈ entries := by
  induction entries with
  | nil => simp [find?] at h
  | cons entry rest ih =>
    obtain ⟨k, v⟩ := entry
    by_cases hk : k = key
    · simp_all [find?]
    · simp only [find?, hk, ↓reduceIte] at h
      exact List.mem_cons_of_mem _ (ih h)

theorem find?_of_mem {entries : List (String × α)} (hnd : (keys entries).Nodup) {key : String}
    {value : α} (h : (key, value) ∈ entries) : find? entries key = some value := by
  induction entries with
  | nil => simp at h
  | cons entry rest ih =>
    obtain ⟨k, v⟩ := entry
    simp only [keys, List.map_cons, List.nodup_cons, List.mem_map, not_exists, not_and] at hnd
    rcases List.mem_cons.mp h with heq | hmem
    · simp_all [find?]
    · have hk : k ≠ key := fun hk => hnd.1 _ hmem hk.symm
      simpa [find?, hk] using ih hnd.2 hmem

end Entries

/-- A map from strings in order of insertion. -/
structure OrderedMap (α : Type) where
  entries : List (String × α)
  nodup : (Entries.keys entries).Nodup := by simp [Entries.keys]
deriving DecidableEq

namespace OrderedMap

variable {α β : Type}

instance : EmptyCollection (OrderedMap α) := ⟨{ entries := [] }⟩

instance : Inhabited (OrderedMap α) := ⟨∅⟩

@[ext] theorem ext {a b : OrderedMap α} (h : a.entries = b.entries) : a = b := by
  cases a; cases b; simp_all

/-- The value of a key. -/
def find? (m : OrderedMap α) (key : String) : Option α := Entries.find? m.entries key

/-- Whether a key is there. -/
def contains (m : OrderedMap α) (key : String) : Bool := (m.find? key).isSome

/-- The keys, in order. -/
def keys (m : OrderedMap α) : List String := Entries.keys m.entries

/-- Sets a key. -/
def insert (m : OrderedMap α) (key : String) (value : α) : OrderedMap α where
  entries := Entries.put m.entries key value
  nodup := Entries.nodup_keys_put m.nodup key value

/-- Applies `f` to every value. -/
def mapValues (f : String → α → β) (m : OrderedMap α) : OrderedMap β where
  entries := Entries.mapValues f m.entries
  nodup := by rw [Entries.keys_mapValues]; exact m.nodup

/-- Applies `f` to the value of one key. -/
def modify (m : OrderedMap α) (key : String) (f : α → α) : OrderedMap α :=
  m.mapValues fun k v => if k = key then f v else v

/-- Takes a key away. -/
def erase (m : OrderedMap α) (key : String) : OrderedMap α where
  entries := m.entries.filter (·.1 ≠ key)
  nodup := m.nodup.sublist (List.filter_sublist.map _)

/-- Sets the keys of a list one after the other. -/
def ofList (entries : List (String × α)) : OrderedMap α :=
  entries.foldl (fun m entry => m.insert entry.1 entry.2) ∅

@[simp] theorem find?_empty (key : String) : (∅ : OrderedMap α).find? key = none := rfl

theorem find?_insert (m : OrderedMap α) (key : String) (value : α) (other : String) :
    (m.insert key value).find? other = if key = other then some value else m.find? other :=
  Entries.find?_put _ _ _ _

theorem keys_insert (m : OrderedMap α) (key : String) (value : α) :
    (m.insert key value).keys = if key ∈ m.keys then m.keys else m.keys ++ [key] :=
  Entries.keys_put _ _ _

@[simp] theorem find?_mapValues (f : String → α → β) (m : OrderedMap α) (key : String) :
    (m.mapValues f).find? key = (m.find? key).map (f key) :=
  Entries.find?_mapValues _ _ _

@[simp] theorem keys_mapValues (f : String → α → β) (m : OrderedMap α) :
    (m.mapValues f).keys = m.keys :=
  Entries.keys_mapValues _ _

theorem find?_modify (m : OrderedMap α) (key : String) (f : α → α) (other : String) :
    (m.modify key f).find? other =
      if other = key then (m.find? other).map f else m.find? other := by
  rw [modify, find?_mapValues]
  by_cases h : other = key
  · simp [h]
  · simp [h]

@[simp] theorem keys_modify (m : OrderedMap α) (key : String) (f : α → α) :
    (m.modify key f).keys = m.keys :=
  keys_mapValues _ _

theorem contains_iff (m : OrderedMap α) (key : String) : m.contains key ↔ key ∈ m.keys :=
  Entries.find?_isSome_iff _ _

theorem find?_eq_some_iff (m : OrderedMap α) (key : String) (value : α) :
    m.find? key = some value ↔ (key, value) ∈ m.entries :=
  ⟨Entries.mem_of_find?, Entries.find?_of_mem m.nodup⟩

end OrderedMap

end DataBinding
