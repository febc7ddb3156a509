import DataBinding.Heap.Interception
import DataBinding.Heap.OfJson

/-!
# What heap operations do to cells

One lemma for each operation on the heap and what it leaves in the slots. Nothing in the heap
takes a reactive field away or empties its list: cells are only made, by interception, and then
changed one at a time, by storing and by subscribing.
-/

namespace DataBinding

namespace Slot

variable {κ : Type}

/-- The cells after a change to one of them. Where there is no cell, the change is lost. -/
@[simp] theorem cell?_modifyCell (f : Cell κ → Cell κ) (s : Slot κ) :
    (s.modifyCell f).cell? = s.cell?.map f := by
  cases s <;> rfl

/-- A plain slot gets a cell with its value, and a cell is left alone. -/
theorem cell?_observed (hook : Hook κ) (s : Slot κ) :
    (s.observed hook).cell? = some (s.cell?.getD { value := s.value, hook := hook }) := by
  cases s <;> rfl

/-- Observing twice is observing once. -/
theorem observed_observed (hook : Hook κ) (s : Slot κ) :
    (s.observed hook).observed hook = s.observed hook := by
  cases s <;> rfl

end Slot

namespace Heap

variable {κ : Type}

theorem slot?_modifySlots (h : Heap κ) (o : ObjectId) (f : Slots κ → Slots κ) (p : ObjectId)
    (key : String) :
    (h.modifySlots o f).slot? p key =
      if o = p ∧ p.index < h.objects.size then (f (h.slots p)).find? key else h.slot? p key := by
  unfold slot?
  rw [slots_modifySlots]
  split <;> rfl

/-- A number that no object has yet has no fields either. -/
theorem slot?_eq_none_of_size_le {h : Heap κ} {o : ObjectId} (ho : h.objects.size ≤ o.index)
    (key : String) : h.slot? o key = none := by
  cases hs : h.slot? o key with
  | none => rfl
  | some s =>
    have := lt_size_of_slot? hs
    omega

/-- The value of a reactive field is the one in its cell. -/
theorem peek_of_cell? {h : Heap κ} {o : ObjectId} {key : String} {c : Cell κ}
    (hc : h.cell? o key = some c) : h.peek o key = c.value := by
  obtain ⟨s, hs, hsc⟩ := Option.bind_eq_some_iff.mp hc
  cases s with
  | plain v => exact absurd hsc (by simp [Slot.cell?])
  | reactive cell =>
    obtain rfl : cell = c := Option.some.inj hsc
    simp [peek, hs, Slot.value]

theorem subscribers_of_cell? {h : Heap κ} {o : ObjectId} {key : String} {c : Cell κ}
    (hc : h.cell? o key = some c) : h.subscribers o key = c.subscribers := by
  simp [subscribers, hc]

/-- Who is subscribed to a field stands in its cell, so the field is reactive. -/
theorem mem_subscribers {h : Heap κ} {o : ObjectId} {key : String} {i : WatcherId} :
    i ∈ h.subscribers o key ↔ ∃ c, h.cell? o key = some c ∧ i ∈ c.subscribers := by
  unfold subscribers
  cases h.cell? o key with
  | none => simp
  | some c => simp

/-! ## One cell changes -/

/-- The slots after a change to one cell. -/
theorem slot?_modifyCell (h : Heap κ) (o : ObjectId) (k : String) (f : Cell κ → Cell κ)
    (p : ObjectId) (key : String) :
    (h.modifyCell o k f).slot? p key =
      if p = o ∧ key = k then (h.slot? p key).map (Slot.modifyCell f) else h.slot? p key := by
  rw [modifyCell, slot?_modifySlots]
  by_cases hp : p = o
  · subst hp
    by_cases hlt : p.index < h.objects.size
    · simp only [hlt, and_self, ↓reduceIte, true_and, OrderedMap.find?_modify]
      rfl
    · have hnone := slot?_eq_none_of_size_le (Nat.le_of_not_lt hlt) key
      simp [hlt, hnone]
  · have hop : ¬ o = p := fun h => hp h.symm
    simp [hp, hop]

theorem cell?_modifyCell (h : Heap κ) (o : ObjectId) (k : String) (f : Cell κ → Cell κ)
    (p : ObjectId) (key : String) :
    (h.modifyCell o k f).cell? p key =
      if p = o ∧ key = k then (h.cell? p key).map f else h.cell? p key := by
  unfold cell?
  rw [slot?_modifyCell]
  split
  · cases h.slot? p key with
    | none => rfl
    | some s => simp
  · rfl

/-- Storing keeps who is subscribed. -/
theorem cell?_store (h : Heap κ) (o : ObjectId) (k : String) (v : Value) (p : ObjectId)
    (key : String) :
    (h.store o k v).cell? p key =
      if p = o ∧ key = k then (h.cell? p key).map fun c => { c with value := v }
      else h.cell? p key :=
  cell?_modifyCell h o k _ p key

/-- Subscribing appends, whether or not the watcher is in the list already. -/
theorem cell?_subscribe (h : Heap κ) (o : ObjectId) (k : String) (i : WatcherId) (p : ObjectId)
    (key : String) :
    (h.subscribe o k i).cell? p key =
      if p = o ∧ key = k then
        (h.cell? p key).map fun c => { c with subscribers := c.subscribers ++ [i] }
      else h.cell? p key :=
  cell?_modifyCell h o k _ p key

/-- The lists depend on the cells alone. -/
theorem subscribers_congr {h h' : Heap κ} {p : ObjectId} {key : String}
    (hcell : h'.cell? p key = h.cell? p key) : h'.subscribers p key = h.subscribers p key := by
  unfold subscribers
  rw [hcell]

theorem subscribers_store (h : Heap κ) (o : ObjectId) (k : String) (v : Value) (p : ObjectId)
    (key : String) : (h.store o k v).subscribers p key = h.subscribers p key := by
  unfold subscribers
  rw [cell?_store]
  split
  · cases h.cell? p key <;> rfl
  · rfl

/-- Where there is no cell, changing it changes nothing. -/
theorem modify_of_cell?_eq_none {slots : Slots κ} {k : String}
    (hnone : (slots.find? k).bind Slot.cell? = none) (f : Cell κ → Cell κ) :
    slots.modify k (Slot.modifyCell f) = slots := by
  apply OrderedMap.ext
  simp only [OrderedMap.modify, OrderedMap.mapValues, Entries.mapValues]
  conv => rhs; rw [← List.map_id slots.entries]
  apply List.map_congr_left
  intro entry hmem
  by_cases hk : entry.1 = k
  · -- the slot of the key is a plain one
    have hfind : slots.find? k = some entry.2 :=
      (OrderedMap.find?_eq_some_iff _ _ _).mpr (hk ▸ hmem)
    rw [hfind] at hnone
    obtain ⟨key, slot⟩ := entry
    cases slot with
    | plain v => simp [Slot.modifyCell]
    | reactive cell => simp [Slot.cell?] at hnone
  · simp [hk]

theorem modifyCell_of_cell?_eq_none {h : Heap κ} {o : ObjectId} {k : String}
    (hc : h.cell? o k = none) (f : Cell κ → Cell κ) : h.modifyCell o k f = h := by
  have hobjects : h.objects.modify o.index (fun s => s.modify k (Slot.modifyCell f)) =
      h.objects := by
    apply Table.ext
    apply Array.ext_getElem?
    intro j
    simp only [Table.modify, Array.getElem?_modify]
    split
    · next hj =>
      subst hj
      cases hs : h.objects.entries[o.index]? with
      | none => rfl
      | some slots =>
        have hslots : h.slots o = slots := by simp [Heap.slots, Table.find?, hs]
        have hnone : (slots.find? k).bind Slot.cell? = none := by
          rw [← hslots]
          exact hc
        simp [modify_of_cell?_eq_none hnone]
    · rfl
  rw [modifyCell, modifySlots, hobjects]

/-! ## Plain fields and new objects -/

/-- A plain field is put into the object, whatever the slot was before. -/
theorem slot?_putPlain (h : Heap κ) (o : ObjectId) (k : String) (v : Value) (p : ObjectId)
    (key : String) :
    (h.putPlain o k v).slot? p key =
      if o = p ∧ p.index < h.objects.size ∧ k = key then some (.plain v) else h.slot? p key := by
  rw [putPlain, slot?_modifySlots]
  by_cases hp : o = p ∧ p.index < h.objects.size
  · obtain ⟨rfl, hlt⟩ := hp
    simp only [hlt, and_self, ↓reduceIte, OrderedMap.find?_insert, true_and]
    rfl
  · rw [if_neg hp, if_neg fun hall => hp ⟨hall.1, hall.2.1⟩]

/-- Where a plain field is put by a write, there was no cell. -/
theorem cell?_putPlain {h : Heap κ} {o : ObjectId} {k : String} (hc : h.cell? o k = none)
    (v : Value) (p : ObjectId) (key : String) :
    (h.putPlain o k v).cell? p key = h.cell? p key := by
  unfold cell?
  rw [slot?_putPlain]
  split
  · next hall =>
    obtain ⟨rfl, _, rfl⟩ := hall
    exact hc.symm
  · rfl

/-- A new object has plain slots, and a number under which nothing was. -/
theorem cell?_alloc {h : Heap κ} {slots : Slots κ}
    (hslots : ∀ key, (slots.find? key).bind Slot.cell? = none) (p : ObjectId) (key : String) :
    (h.alloc slots).2.cell? p key = h.cell? p key := by
  unfold cell? slot?
  rw [slots_alloc]
  split
  · next hp =>
    rw [hslots]
    have hnone := slot?_eq_none_of_size_le (h := h) (o := p) (by rw [hp]; simp [alloc]) key
    unfold slot? at hnone
    simp [hnone]
  · rfl

/-- What holds of all slots in a list holds of all slots of the map that is made from it. -/
theorem of_find?_ofList {P : Slot κ → Prop} {entries : List (String × Slot κ)}
    (hentries : ∀ entry ∈ entries, P entry.2) {key : String} {s : Slot κ}
    (hs : (OrderedMap.ofList entries).find? key = some s) : P s := by
  -- along the list, for a map of such slots
  have hfold : ∀ (entries : List (String × Slot κ)) (m : Slots κ),
      (∀ entry ∈ entries, P entry.2) → (∀ k s, m.find? k = some s → P s) →
      ∀ k s, (entries.foldl (fun m entry => m.insert entry.1 entry.2) m).find? k = some s →
        P s := by
    intro entries
    induction entries with
    | nil => exact fun m _ hm => hm
    | cons entry rest ih =>
      intro m hentries hm
      refine ih _ (fun e he => hentries e (List.mem_cons_of_mem _ he)) ?_
      intro k s hs
      rw [OrderedMap.find?_insert] at hs
      split at hs
      · rw [← Option.some.inj hs]
        exact hentries entry List.mem_cons_self
      · exact hm k s hs
  exact hfold entries ∅ hentries (fun k s h => by simp at h) key s hs

theorem cell?_eq_none_of_isPlain {s : Slot κ} (hs : s.isPlain = true) : s.cell? = none := by
  simpa [Slot.isPlain] using hs

/-! ## Values from JSON -/

theorem isPlain_of_mem_ofJsonMembers (h : Heap κ) (members : List (String × Json)) :
    ∀ entry ∈ (h.ofJsonMembers members).1, entry.2.isPlain = true := by
  induction members generalizing h with
  | nil => exact fun entry hmem => absurd hmem (by simp [ofJsonMembers])
  | cons member rest ih =>
    rw [ofJsonMembers]
    intro entry hmem
    rcases List.mem_cons.mp hmem with heq | hmem
    · rw [heq]; rfl
    · exact ih _ entry hmem

theorem isPlain_of_find?_ofJsonMembers {h : Heap κ} {members : List (String × Json)}
    {key : String} {s : Slot κ}
    (hs : (OrderedMap.ofList (h.ofJsonMembers members).1).find? key = some s) :
    s.isPlain = true :=
  of_find?_ofList (P := fun s => s.isPlain = true) (isPlain_of_mem_ofJsonMembers h members) hs

/-- A relation from heap to heap that adding a new array keeps, and adding a new object all of whose
slots are plain. A value made from JSON adds nothing else. -/
structure ByAdding (R : Heap κ → Heap κ → Prop) : Prop where
  refl : ∀ h, R h h
  trans : ∀ {a b c}, R a b → R b c → R a c
  array : ∀ h items, R h (h.allocArray items).2
  object : ∀ h (slots : Slots κ), (∀ key, (slots.find? key).bind Slot.cell? = none) →
    R h (h.alloc slots).2

namespace ByAdding

variable {R : Heap κ → Heap κ → Prop}

mutual

theorem ofJson (hadd : ByAdding R) (h : Heap κ) (j : Json) : R h (h.ofJson j).2 := by
  match j with
  | .null | .bool _ | .number _ | .string _ => exact hadd.refl h
  | .array items =>
    rw [Heap.ofJson]
    exact hadd.trans (ofJsonItems hadd h items) (hadd.array _ _)
  | .object members =>
    rw [Heap.ofJson]
    refine hadd.trans (ofJsonMembers hadd h members) (hadd.object _ _ fun key => ?_)
    cases hs : (OrderedMap.ofList (h.ofJsonMembers members).1).find? key with
    | none => rfl
    | some s => exact cell?_eq_none_of_isPlain (isPlain_of_find?_ofJsonMembers hs)

theorem ofJsonItems (hadd : ByAdding R) (h : Heap κ) (items : List Json) :
    R h (h.ofJsonItems items).2 := by
  match items with
  | [] => exact hadd.refl h
  | item :: rest =>
    rw [Heap.ofJsonItems]
    exact hadd.trans (ofJson hadd h item) (ofJsonItems hadd _ rest)

theorem ofJsonMembers (hadd : ByAdding R) (h : Heap κ) (members : List (String × Json)) :
    R h (h.ofJsonMembers members).2 := by
  match members with
  | [] => exact hadd.refl h
  | (key, value) :: rest =>
    rw [Heap.ofJsonMembers]
    exact hadd.trans (ofJson hadd h value) (ofJsonMembers hadd _ rest)

end

end ByAdding

/-- A value made from JSON has plain slots only, and no cell changes. -/
theorem cell?_ofJson (h : Heap κ) (j : Json) (p : ObjectId) (key : String) :
    (h.ofJson j).2.cell? p key = h.cell? p key := by
  have hadd : ByAdding fun h h' : Heap κ => h'.cell? p key = h.cell? p key :=
    { refl := fun _ => rfl
      trans := fun hab hbc => hbc.trans hab
      array := fun _ _ => rfl
      object := fun _ _ hslots => cell?_alloc hslots p key }
  exact hadd.ofJson h j

/-! ## Interception -/

/-- Observing one object leaves the slots of all others alone. -/
theorem slot?_observeObject (h : Heap κ) (hook : Hook κ) (o p : ObjectId) (key : String) :
    (h.observeObject hook o).slot? p key =
      if o = p then (h.slot? p key).map (Slot.observed hook) else h.slot? p key := by
  rw [observeObject, slot?_modifySlots]
  by_cases hp : o = p
  · subst hp
    by_cases hlt : o.index < h.objects.size
    · simp only [hlt, and_self, ↓reduceIte, Slots.observed, OrderedMap.find?_mapValues]
      rfl
    · simp [hlt, slot?_eq_none_of_size_le (Nat.le_of_not_lt hlt) key]
  · simp [hp]

/-- Interception leaves a slot alone or makes it reactive. -/
theorem slot?_intercept (hook : Hook κ) (h : Heap κ) (values : List Value) (p : ObjectId)
    (key : String) :
    (intercept hook h values).slot? p key = h.slot? p key ∨
      (intercept hook h values).slot? p key = (h.slot? p key).map (Slot.observed hook) := by
  fun_induction intercept hook h values with
  | case1 h => exact .inl rfl
  | case2 h o rest hnone ih => exact ih
  | case3 h o rest hsome ih =>
    rw [slot?_observeObject] at ih
    split at ih
    · refine .inr ?_
      rcases ih with ih | ih
      · exact ih
      · rw [ih, Option.map_map]
        congr 1
        exact funext (Slot.observed_observed hook)
    · exact ih
  | case4 h v rest hv ih => exact ih

/-- An object that is observed has no plain slots left. -/
theorem slot?_intercept_object (hook : Hook κ) (h : Heap κ) (o : ObjectId) (rest : List Value)
    (key : String) :
    (intercept hook h (.object o :: rest)).slot? o key =
      (h.slot? o key).map (Slot.observed hook) := by
  have htwice : ((h.slot? o key).map (Slot.observed hook)).map (Slot.observed hook) =
      (h.slot? o key).map (Slot.observed hook) := by
    rw [Option.map_map]
    congr 1
    exact funext (Slot.observed_observed hook)
  rw [intercept]
  split
  · next hnone =>
    have hsame : (h.slot? o key).map (Slot.observed hook) = h.slot? o key := by
      have hslots := Slots.observed_of_plainValues_eq_nil hook hnone
      unfold slot?
      rw [← OrderedMap.find?_mapValues (fun _ => Slot.observed hook)]
      exact congrArg (OrderedMap.find? · key) hslots
    rcases slot?_intercept hook h rest o key with heq | heq
    · rw [heq, hsame]
    · exact heq
  · have hobserved := slot?_observeObject h hook o o key
    rw [if_pos rfl] at hobserved
    rcases slot?_intercept hook (h.observeObject hook o) ((h.slots o).plainValues ++ rest) o key
      with heq | heq
    · rw [heq, hobserved]
    · rw [heq, hobserved, htwice]

theorem peek_intercept (hook : Hook κ) (h : Heap κ) (values : List Value) (p : ObjectId)
    (key : String) : (intercept hook h values).peek p key = h.peek p key := by
  unfold peek
  rcases slot?_intercept hook h values p key with heq | heq
  · rw [heq]
  · rw [heq, Option.map_map]
    congr 2
    exact funext (Slot.value_observed hook)

/-- A cell stays what it is. -/
theorem cell?_intercept_of_some {hook : Hook κ} {h : Heap κ} {values : List Value} {p : ObjectId}
    {key : String} {c : Cell κ} (hc : h.cell? p key = some c) :
    (intercept hook h values).cell? p key = some c := by
  obtain ⟨s, hs, hsc⟩ := Option.bind_eq_some_iff.mp hc
  unfold cell?
  rcases slot?_intercept hook h values p key with heq | heq
  · rw [heq]; exact hc
  · rw [heq, hs]
    simp [Slot.cell?_observed, hsc]

/-- A cell that is there afterwards was there before, or is new and has no subscribers. -/
theorem cell?_of_intercept {hook : Hook κ} {h : Heap κ} {values : List Value} {p : ObjectId}
    {key : String} {c : Cell κ} (hc : (intercept hook h values).cell? p key = some c) :
    h.cell? p key = some c ∨
      (h.cell? p key = none ∧ c = { value := h.peek p key, subscribers := [], hook := hook }) := by
  unfold cell? at hc ⊢
  rcases slot?_intercept hook h values p key with heq | heq
  · rw [heq] at hc
    exact .inl hc
  · rw [heq] at hc
    cases hs : h.slot? p key with
    | none => rw [hs] at hc; simp at hc
    | some s =>
      rw [hs] at hc
      cases s with
      | plain v =>
        refine .inr ⟨rfl, ?_⟩
        rw [show h.peek p key = v by simp [peek, hs, Slot.value]]
        exact (Option.some.inj hc).symm
      | reactive cell => exact .inl hc

/-- New cells have empty lists, as fields without a cell have. -/
theorem subscribers_intercept (hook : Hook κ) (h : Heap κ) (values : List Value) (p : ObjectId)
    (key : String) : (intercept hook h values).subscribers p key = h.subscribers p key := by
  cases hc : (intercept hook h values).cell? p key with
  | none =>
    have hnone : h.cell? p key = none := by
      cases hc' : h.cell? p key with
      | none => rfl
      | some c => rw [cell?_intercept_of_some hc'] at hc; cases hc
    simp [subscribers, hc, hnone]
  | some c =>
    rcases cell?_of_intercept hc with hold | ⟨hnone, rfl⟩
    · exact subscribers_congr (hc.trans hold.symm)
    · simp [subscribers, hc, hnone]

end Heap

end DataBinding
