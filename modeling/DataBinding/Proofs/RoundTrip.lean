import DataBinding.Proofs.Integers
import DataBinding.Proofs.Unfolding

/-!
# Through JSON and back

What is made from JSON is new, plain and a tree: objects are numbered as they are made, from the
inside out, so an object holds only objects with smaller numbers. `Heap.Spells` says this of a value
together with the JSON that it was made from. As nothing repeats in such a value, its own JSON is
position by position the one it was made from; and the JSON of any value, once without double keys
and with numbers that have been doubles, comes back as it is.
-/

namespace DataBinding

theorem Entries.put_of_not_mem {α : Type} {entries : List (String × α)} {key : String}
    (hkey : key ∉ keys entries) (value : α) :
    put entries key value = entries ++ [(key, value)] := by
  induction entries with
  | nil => rfl
  | cons entry rest ih =>
    obtain ⟨k, v⟩ := entry
    have hne : k ≠ key := fun heq => hkey (heq ▸ List.mem_cons_self)
    rw [put, if_neg hne, ih fun hmem => hkey (List.mem_cons_of_mem k hmem)]
    rfl

/-- New keys that are all different come after the old ones, in order. -/
theorem OrderedMap.entries_foldl_insert {α : Type} {entries : List (String × α)} {m : OrderedMap α}
    (hnodup : (Entries.keys (m.entries ++ entries)).Nodup) :
    (entries.foldl (fun m entry => m.insert entry.1 entry.2) m).entries = m.entries ++ entries := by
  induction entries generalizing m with
  | nil => exact (List.append_nil m.entries).symm
  | cons entry rest ih =>
    have hkey : entry.1 ∉ Entries.keys m.entries := by
      intro hmem
      rw [Entries.keys, List.map_append, List.nodup_append] at hnodup
      exact hnodup.2.2 _ hmem _ List.mem_cons_self rfl
    have hinsert : (m.insert entry.1 entry.2).entries = m.entries ++ [entry] :=
      Entries.put_of_not_mem hkey entry.2
    have hnext : m.entries ++ entry :: rest = (m.insert entry.1 entry.2).entries ++ rest := by
      rw [hinsert, List.append_assoc, List.singleton_append]
    rw [hnext] at hnodup ⊢
    exact ih hnodup

/-- Setting keys that are all different lists them as they come. -/
theorem OrderedMap.entries_ofList {α : Type} {entries : List (String × α)}
    (hnodup : (Entries.keys entries).Nodup) : (OrderedMap.ofList entries).entries = entries :=
  entries_foldl_insert hnodup

namespace Heap

variable {κ : Type}

/-! ## New objects and arrays -/

/-- A later heap with the same objects in it that were there before. -/
structure Extends (h h' : Heap κ) : Prop where
  size : h.objects.size ≤ h'.objects.size
  arrays : h.arrays ≤ h'.arrays
  slots : ∀ o : ObjectId, o.index < h.objects.size → h'.slots o = h.slots o

namespace Extends

variable {h h' h'' : Heap κ}

theorem refl (h : Heap κ) : h.Extends h := ⟨Nat.le_refl _, Nat.le_refl _, fun _ _ => rfl⟩

theorem trans (hab : h.Extends h') (hbc : h'.Extends h'') : h.Extends h'' where
  size := Nat.le_trans hab.size hbc.size
  arrays := Nat.le_trans hab.arrays hbc.arrays
  slots o ho := (hbc.slots o (Nat.lt_of_lt_of_le ho hab.size)).trans (hab.slots o ho)

theorem alloc (h : Heap κ) (slots : Slots κ) : h.Extends (h.alloc slots).2 where
  size := by
    show h.objects.size ≤ (h.objects.push slots).size
    simp [Table.size, Table.push]
  arrays := Nat.le_refl _
  slots o ho := by
    rw [slots_alloc, if_neg]
    rintro rfl
    exact Nat.lt_irrefl _ ho

theorem allocArray (h : Heap κ) (items : List Value) : h.Extends (h.allocArray items).2 :=
  ⟨Nat.le_refl _, Nat.le_succ _, fun _ _ => rfl⟩

theorem byAdding : ByAdding (Extends (κ := κ)) where
  refl := .refl
  trans := .trans
  array := .allocArray
  object h slots _ := .alloc h slots

end Extends

/-! ## Values that spell JSON -/

/-- The value is the JSON written into the heap. Its arrays are numbered from `arrays` on, its
objects from `first` on and below `past`. An object holds only objects with smaller numbers than its
own, in plain slots. -/
inductive Spells (h : Heap κ) (first arrays : Nat) : Nat → Value → Json → Prop where
  | null {past : Nat} : Spells h first arrays past .null .null
  | bool {past : Nat} (b : Bool) : Spells h first arrays past (.bool b) (.bool b)
  | number {past : Nat} (n : Json.Number) :
      Spells h first arrays past (.number n.toFloat) (.number n)
  | text {past : Nat} (s : String) : Spells h first arrays past (.text s) (.string s)
  | array {past : Nat} {id : ArrayId} {vs : List Value} {items : List Json} :
      arrays ≤ id.index → vs.length = items.length →
      (∀ (i : Nat) v j, vs[i]? = some v → items[i]? = some j →
        Spells h first arrays past v j) →
      Spells h first arrays past (.array id vs) (.array items)
  | object {past : Nat} {o : ObjectId} {members : List (String × Json)} :
      first ≤ o.index → o.index < past → (h.slots o).keys = Entries.keys members →
      (∀ key s, h.slot? o key = some s → s.isPlain = true) →
      (∀ key s j, h.slot? o key = some s → Entries.find? members key = some j →
        Spells h first arrays o.index s.value j) →
      Spells h first arrays past (.object o) (.object members)

namespace Spells

variable {h h' : Heap κ} {first arrays past past' : Nat} {v : Value} {j : Json}

/-- A value still spells the same when more has been made. -/
theorem mono (hs : h.Spells first arrays past v j) (hle : past ≤ past')
    (hslots : ∀ o : ObjectId, o.index < past → h'.slots o = h.slots o) :
    h'.Spells first arrays past' v j := by
  induction hs generalizing past' with
  | null => exact .null
  | bool b => exact .bool b
  | number n => exact .number n
  | text s => exact .text s
  | array hid hlength hitems ih =>
    exact .array hid hlength fun i v j hv hj => ih i v j hv hj hle hslots
  | object hfirst hpast hkeys hplain hfields ih =>
    rename_i o members
    have ho : h'.slots o = h.slots o := hslots o hpast
    refine .object hfirst (Nat.lt_of_lt_of_le hpast hle) (by rw [ho, hkeys]) ?_ ?_
    · intro key s hkey
      rw [slot?, ho] at hkey
      exact hplain key s hkey
    · intro key s j hkey hj
      rw [slot?, ho] at hkey
      exact ih key s j hkey hj (Nat.le_refl _) fun p hp => hslots p (Nat.lt_trans hp hpast)

theorem of_extends (hs : h.Spells first arrays h.objects.size v j) (hx : h.Extends h') :
    h'.Spells first arrays h'.objects.size v j :=
  hs.mono hx.size hx.slots

end Spells

mutual

/-- What is made from JSON spells it. -/
theorem spells_ofJson {first arrays : Nat} (h : Heap κ) (hfirst : first ≤ h.objects.size)
    (harrays : arrays ≤ h.arrays) {j : Json} (hj : j.Distinct) :
    (h.ofJson j).2.Spells first arrays (h.ofJson j).2.objects.size (h.ofJson j).1 j := by
  match j with
  | .null => exact .null
  | .bool b => exact .bool b
  | .number n => exact .number n
  | .string s => exact .text s
  | .array items =>
    have hx := Extends.byAdding.ofJsonItems h items
    have hitems := spells_ofJsonItems h hfirst harrays fun i item hi =>
      hj.below (s := .item i) hi
    rw [ofJson]
    exact .array (Nat.le_trans harrays hx.arrays) hitems.1 fun i v j hv hj' =>
      (hitems.2 i v j hv hj').of_extends (Extends.allocArray _ _)
  | .object members =>
    have hnodup := hj [] members rfl
    have hx := Extends.byAdding.ofJsonMembers h members
    have hplain := isPlain_of_mem_ofJsonMembers h members
    obtain ⟨hkeys, hfields⟩ := spells_ofJsonMembers h hfirst harrays fun member hmem =>
      hj.below (s := .field member.1) (Entries.find?_of_mem hnodup hmem)
    rw [ofJson]
    rcases hm : h.ofJsonMembers members with ⟨slots, h'⟩
    rw [hm] at hx hplain hkeys hfields
    -- no key occurs twice, so no member is overwritten by a later one
    have hentries : (OrderedMap.ofList slots).entries = slots :=
      OrderedMap.entries_ofList (by rw [hkeys]; exact hnodup)
    have hslots : (h'.alloc (.ofList slots)).2.slots (h'.alloc (.ofList slots)).1 =
        .ofList slots := by
      rw [slots_alloc, if_pos rfl]
    refine .object (Nat.le_trans hfirst hx.size) ?_ ?_ ?_ ?_
    · show h'.objects.size < (h'.objects.push _).size
      simp [Table.size, Table.push]
    · show ((h'.alloc (.ofList slots)).2.slots (h'.alloc (.ofList slots)).1).keys = _
      rw [hslots, OrderedMap.keys, hentries, hkeys]
    · intro key s hs
      have hs' : (OrderedMap.ofList slots).find? key = some s := by
        rw [← hslots]
        exact hs
      exact of_find?_ofList (P := fun s => s.isPlain = true) hplain hs'
    · intro key s j hs hj'
      have hs' : (OrderedMap.ofList slots).find? key = some s := by
        rw [← hslots]
        exact hs
      rw [OrderedMap.find?, hentries] at hs'
      exact (hfields key s j hs' hj').mono (Nat.le_refl _) (Extends.alloc h' _).slots

theorem spells_ofJsonItems {first arrays : Nat} (h : Heap κ) (hfirst : first ≤ h.objects.size)
    (harrays : arrays ≤ h.arrays) {items : List Json}
    (hitems : ∀ (i : Nat) item, items[i]? = some item → item.Distinct) :
    (h.ofJsonItems items).1.length = items.length ∧
      ∀ (i : Nat) v j, (h.ofJsonItems items).1[i]? = some v → items[i]? = some j →
        (h.ofJsonItems items).2.Spells first arrays (h.ofJsonItems items).2.objects.size v j := by
  match items with
  | [] => exact ⟨rfl, fun i v j hv => absurd hv (by simp [ofJsonItems])⟩
  | item :: rest =>
    have hx := Extends.byAdding.ofJson h item
    have hitem := spells_ofJson h hfirst harrays (hitems 0 item rfl)
    have hrest := spells_ofJsonItems (h.ofJson item).2 (Nat.le_trans hfirst hx.size)
      (Nat.le_trans harrays hx.arrays) fun i later hi => hitems (i + 1) later hi
    rw [ofJsonItems]
    refine ⟨congrArg (· + 1) hrest.1, fun i v j hv hj' => ?_⟩
    cases i with
    | zero =>
      obtain rfl := Option.some.inj hv
      obtain rfl := Option.some.inj hj'
      exact hitem.of_extends (Extends.byAdding.ofJsonItems _ rest)
    | succ i => exact hrest.2 i v j hv hj'

theorem spells_ofJsonMembers {first arrays : Nat} (h : Heap κ)
    (hfirst : first ≤ h.objects.size) (harrays : arrays ≤ h.arrays)
    {members : List (String × Json)} (hmembers : ∀ member ∈ members, member.2.Distinct) :
    Entries.keys (h.ofJsonMembers members).1 = Entries.keys members ∧
      ∀ key s j, Entries.find? (h.ofJsonMembers members).1 key = some s →
        Entries.find? members key = some j →
        (h.ofJsonMembers members).2.Spells first arrays
          (h.ofJsonMembers members).2.objects.size s.value j := by
  match members with
  | [] => exact ⟨rfl, fun key s j hs => absurd hs (by simp [ofJsonMembers, Entries.find?])⟩
  | (k, value) :: rest =>
    have hx := Extends.byAdding.ofJson h value
    have hvalue := spells_ofJson h hfirst harrays (hmembers _ List.mem_cons_self)
    have hrest := spells_ofJsonMembers (h.ofJson value).2 (Nat.le_trans hfirst hx.size)
      (Nat.le_trans harrays hx.arrays) fun member hmem =>
        hmembers member (List.mem_cons_of_mem _ hmem)
    rw [ofJsonMembers]
    refine ⟨congrArg (k :: ·) hrest.1, fun key s j hs hj' => ?_⟩
    rw [Entries.find?] at hs hj'
    by_cases hkey : k = key
    · rw [if_pos hkey] at hs hj'
      obtain rfl := Option.some.inj hs
      obtain rfl := Option.some.inj hj'
      exact hvalue.of_extends (Extends.byAdding.ofJsonMembers _ rest)
    · rw [if_neg hkey] at hs hj'
      exact hrest.2 key s j hs hj'

end

namespace Spells

variable {h : Heap κ} {first arrays past : Nat} {v : Value} {j : Json}

/-- A value and the JSON that it spells go on alike below every step, with objects that have smaller
numbers than the value has if it is an object. -/
theorem step (hs : h.Spells first arrays past v j) (s : Down) :
    (h.below? v s = none ∧ j.below? s = none) ∨
      ∃ u c past', h.below? v s = some u ∧ j.below? s = some c ∧ past' ≤ past ∧
        (∀ o, v = .object o → past' ≤ o.index) ∧ h.Spells first arrays past' u c := by
  cases hs with
  | null | bool | number | text => exact .inl ⟨by cases s <;> rfl, by cases s <;> rfl⟩
  | @array _ id vs items hid hlength hitems =>
    cases s with
    | field key => exact .inl ⟨rfl, rfl⟩
    | item i =>
      by_cases hi : i < vs.length
      · have hv : vs[i]? = some vs[i] := List.getElem?_eq_getElem hi
        have hj : items[i]? = some (items.get ⟨i, hlength ▸ hi⟩) :=
          List.getElem?_eq_getElem _
        exact .inr ⟨_, _, past, hv, hj, Nat.le_refl _, (fun o ho => by cases ho),
          hitems i _ _ hv hj⟩
      · refine .inl ⟨List.getElem?_eq_none (Nat.le_of_not_lt hi), List.getElem?_eq_none ?_⟩
        rw [← hlength]
        exact Nat.le_of_not_lt hi
  | @object _ o members hfirst hpast hkeys hplain hfields =>
    cases s with
    | item i => exact .inl ⟨rfl, rfl⟩
    | field key =>
      -- both have the key or neither has
      have hsome : (h.slot? o key).isSome = (Entries.find? members key).isSome := by
        rw [Bool.eq_iff_iff, Entries.find?_isSome_iff, ← hkeys]
        exact OrderedMap.contains_iff _ _
      cases hslot : h.slot? o key with
      | none =>
        rw [hslot] at hsome
        have hnone : Entries.find? members key = none := by
          cases hfind : Entries.find? members key with
          | none => rfl
          | some c =>
            rw [hfind] at hsome
            cases hsome
        exact .inl ⟨by rw [below?, hslot]; rfl, hnone⟩
      | some slot =>
        rw [hslot] at hsome
        obtain ⟨c, hc⟩ := Option.isSome_iff_exists.mp hsome.symm
        refine .inr ⟨slot.value, c, o.index, by rw [below?, hslot]; rfl, hc, Nat.le_of_lt hpast, ?_,
          hfields key slot c hslot hc⟩
        intro o' ho'
        obtain rfl := Value.object.inj ho'
        exact Nat.le_refl _

/-- So it is at every position, with numbers below those of all objects on the way. -/
theorem at? (hs : h.Spells first arrays past v j) (p : List Down) :
    (h.at? v p = none ∧ j.at? p = none) ∨
      ∃ u c past', h.at? v p = some u ∧ j.at? p = some c ∧ past' ≤ past ∧
        (∀ o ∈ h.above v p, past' ≤ o.index) ∧ h.Spells first arrays past' u c := by
  induction p generalizing past v j with
  | nil => exact .inr ⟨v, j, past, rfl, rfl, Nat.le_refl _, by simp [above], hs⟩
  | cons s p ih =>
    rcases hs.step s with ⟨hu, hc⟩ | ⟨u, c, past', hu, hc, hle, hself, hbelow⟩
    · exact .inl ⟨by rw [Heap.at?, hu]; rfl, by rw [Json.at?, hc]; rfl⟩
    · rw [Heap.at?, Json.at?, hu, hc, above_cons hu, Option.bind_some, Option.bind_some]
      rcases ih hbelow with hnone | ⟨u', c', past'', hu', hc', hle', habove, hat⟩
      · exact .inl hnone
      · refine .inr ⟨u', c', past'', hu', hc', Nat.le_trans hle' hle, fun o ho => ?_, hat⟩
        rcases List.mem_append.mp ho with ho | ho
        · cases v with
          | object o' =>
            obtain rfl : o = o' := by simpa [Value.object?] using ho
            exact Nat.le_trans hle' (hself o rfl)
          | null | bool | number | text | array => simp [Value.object?] at ho
        · exact habove o ho

/-- What was made from JSON is a tree. -/
theorem not_repeats (hs : h.Spells first arrays past v j) (p : List Down) : ¬ h.Repeats v p := by
  rintro ⟨o, ho, hmem⟩
  rcases hs.at? p with ⟨hnone, -⟩ | ⟨u, c, past', hu, -, -, habove, hat⟩
  · rw [hnone] at ho
    cases ho
  · rw [hu] at ho
    obtain rfl := Option.some.inj ho
    cases hat with
    | object hfirst hpast => exact absurd (habove o hmem) (Nat.not_le_of_lt hpast)

/-- The layer of a value that spells JSON is the one of the JSON, if the number in it was a double
before. -/
theorem layer_eq (hs : h.Spells first arrays past v j)
    (hnumber : ∀ n, j = .number n → jsonOfFloat n.toFloat = .number n) : h.layer v = j.layer := by
  cases hs with
  | null | bool | text => rfl
  | number n => rw [layer, hnumber n rfl]; rfl
  | array hid hlength hitems => rw [layer, Json.layer, hlength]
  | object hfirst hpast hkeys hplain hfields => rw [layer, Json.layer, hkeys]

end Spells

/-- JSON of a value, made into a value again. -/
theorem toJson_of_spells {h : Heap κ} {first arrays past : Nat} {v : Value} {j : Json}
    (hs : h.Spells first arrays past v j) (hdistinct : j.Distinct)
    (hnumbers : ∀ p n, j.at? p = some (.number n) → jsonOfFloat n.toFloat = .number n) :
    h.toJson v = j := by
  have hacyclic := hs.not_repeats
  refine Json.eq_of_layers (distinct_toJson h v) hdistinct fun p => ?_
  rw [layer_at?_toJson (not_cut_of_acyclic hacyclic p) (hacyclic p)]
  rcases hs.at? p with ⟨hu, hc⟩ | ⟨u, c, past', hu, hc, -, -, hat⟩
  · rw [hu, hc]
    rfl
  · rw [hu, hc, Option.map_some, Option.map_some, hat.layer_eq]
    rintro n rfl
    exact hnumbers p n hc

/-- Every number in the JSON of a value was a double before. -/
theorem number_toJson {h : Heap κ} {v : Value} {p : List Down} {n : Json.Number}
    (hn : (h.toJson v).at? p = some (.number n)) : jsonOfFloat n.toFloat = .number n := by
  by_cases hc : h.Cut v p
  · rw [at?_toJson_of_cut hc] at hn
    cases hn
  · by_cases hr : h.Repeats v p
    · rw [at?_toJson_of_repeats hc hr] at hn
      cases hn
    · have hlayer := layer_at?_toJson hc hr
      rw [hn, Option.map_some] at hlayer
      obtain ⟨u, -, hu⟩ := Option.map_eq_some_iff.mp hlayer.symm
      cases u with
      | number x => exact jsonOfFloat_toFloat (Layer.scalar.inj hu)
      | null | bool | text | array | object => cases hu

/-- The JSON of any value comes back as it is. -/
theorem toJson_ofJson_toJson (h : Heap κ) (v : Value) :
    (h.ofJson (h.toJson v)).2.toJson (h.ofJson (h.toJson v)).1 = h.toJson v :=
  toJson_of_spells (spells_ofJson h (Nat.le_refl _) (Nat.le_refl _) (distinct_toJson h v))
    (distinct_toJson h v) fun _ _ hn => number_toJson hn

/-! ## Copies -/

/-- Two values, each in its heap, look the same from above. -/
def Alike (h h' : Heap κ) : Value → Value → Prop
  | .array _ items, .array _ items' => items.length = items'.length
  | .object o, .object o' => (h.slots o).keys = (h'.slots o').keys
  | u, u' => u.strictEq u' = true

/-- A value is new in a later heap, and all its slots are plain. -/
def NewAndPlain (h h' : Heap κ) : Value → Prop
  | .array id _ => h.arrays ≤ id.index
  | .object o => h.objects.size ≤ o.index ∧ ∀ key s, h'.slot? o key = some s → s.isPlain = true
  | _ => True

/-- A value in a later heap is a new and plain copy. -/
structure Copies (h : Heap κ) (v : Value) (h' : Heap κ) (v' : Value) : Prop where
  kept : h.Extends h'
  fresh : ∀ p u', h'.at? v' p = some u' → h.NewAndPlain h' u'
  /-- The two unfold alike: there is the same at every position. -/
  alike : ∀ p, Option.Rel (h.Alike h') (h.at? v p) (h'.at? v' p)

theorem newAndPlain_of_spells {h h' : Heap κ} {past : Nat} {v : Value} {j : Json}
    (hs : h'.Spells h.objects.size h.arrays past v j) : h.NewAndPlain h' v := by
  cases hs with
  | null | bool | number | text => trivial
  | array hid => exact hid
  | object hfirst _ _ hplain => exact ⟨hfirst, hplain⟩

/-- A finite scalar is strictly equal to what its JSON becomes. -/
theorem alike_of_layer {h h' : Heap κ} {first arrays past : Nat} {u u' : Value} {c : Json}
    (hs : h'.Spells first arrays past u' c) (hlayer : c.layer = h.layer u)
    (hfinite : ∀ x, u = .number x → x.isFinite = true) : h.Alike h' u u' := by
  -- equal layers are of one kind, so all other pairs are contradictory
  cases u with
  | number x =>
    obtain ⟨n, hn, hxn⟩ := jsonOfFloat_of_isFinite (hfinite x rfl)
    rw [layer, hn] at hlayer
    cases hs with
    | number n' =>
      obtain rfl := Json.number.inj (Layer.scalar.inj hlayer)
      exact hxn
    | null | bool | text | array | object => cases hlayer
  | null =>
    cases hs with
    | null => rfl
    | bool | number | text | array | object => cases hlayer
  | bool b =>
    cases hs with
    | bool b' =>
      obtain rfl := Json.bool.inj (Layer.scalar.inj hlayer)
      exact beq_self_eq_true b'
    | null | number | text | array | object => cases hlayer
  | text s =>
    cases hs with
    | text s' =>
      obtain rfl := Json.string.inj (Layer.scalar.inj hlayer)
      exact beq_self_eq_true s'
    | null | bool | number | array | object => cases hlayer
  | array id items =>
    cases hs with
    | array _ hlength => exact (hlength.trans (Layer.array.inj hlayer)).symm
    | null | bool | number | text | object => cases hlayer
  | object o =>
    cases hs with
    | object _ _ hkeys => exact (hkeys.trans (Layer.object.inj hlayer)).symm
    | null | bool | number | text | array => cases hlayer

/-- The JSON of a value without cycles and with finite numbers becomes a copy of it. -/
theorem copies_ofJson_toJson {h : Heap κ} {v : Value} (hacyclic : ∀ p, ¬ h.Repeats v p)
    (hfinite : ∀ p x, h.at? v p = some (.number x) → x.isFinite = true) :
    h.Copies v (h.ofJson (h.toJson v)).2 (h.ofJson (h.toJson v)).1 := by
  have hspells := spells_ofJson h (Nat.le_refl _) (Nat.le_refl _) (distinct_toJson h v)
  refine ⟨Extends.byAdding.ofJson h _, fun p u' hu' => ?_, fun p => ?_⟩
  · rcases hspells.at? p with ⟨hnone, -⟩ | ⟨u, c, past, hu, -, -, -, hat⟩
    · rw [hnone] at hu'
      cases hu'
    · obtain rfl := Option.some.inj (hu.symm.trans hu')
      exact newAndPlain_of_spells hat
  · have hlayer := layer_at?_toJson (not_cut_of_acyclic hacyclic p) (hacyclic p)
    rcases hspells.at? p with ⟨hu', hc⟩ | ⟨u', c, past, hu', hc, -, -, hat⟩
    · rw [hc, Option.map_none] at hlayer
      rw [hu', Option.map_eq_none_iff.mp hlayer.symm]
      exact .none
    · rw [hc, Option.map_some] at hlayer
      obtain ⟨u, hu, hlayer⟩ := Option.map_eq_some_iff.mp hlayer.symm
      rw [hu, hu']
      refine .some (alike_of_layer hat hlayer.symm ?_)
      rintro x rfl
      exact hfinite p x hu

/-- Through JSON and back. A value without cycles and with finite numbers becomes a new and plain
copy of itself. JSON, made into a value, gives JSON that stays the same from then on. -/
theorem json_round_trip (h : Heap κ) :
    (∀ v, (∀ p, ¬ h.Repeats v p) →
      (∀ p x, h.at? v p = some (.number x) → x.isFinite = true) →
      h.Copies v (h.ofJson (h.toJson v)).2 (h.ofJson (h.toJson v)).1) ∧
    ∀ j, ∃ v h', h.ofJson j = (v, h') ∧
      (h'.ofJson (h'.toJson v)).2.toJson (h'.ofJson (h'.toJson v)).1 = h'.toJson v := by
  constructor
  · intro v hacyclic hfinite
    exact copies_ofJson_toJson hacyclic hfinite
  · intro j
    exact ⟨_, _, rfl, toJson_ofJson_toJson _ _⟩

/-- A heap with one object, whose only field is reactive. -/
def sharing : Heap Unit where
  objects := (∅ : Table (Slots Unit)).push
    (OrderedMap.insert ∅ "x" (.reactive { value := .number 0.5, hook := .silent }))
  arrays := 1

/-- An array in which that object stands twice. -/
def sharingPair : Value := .array ⟨0⟩ [.object ⟨0⟩, .object ⟨0⟩]

theorem sharing_at? {p : List Down} {u : Value} (hu : sharing.at? sharingPair p = some u) :
    (p = [] ∧ u = sharingPair) ∨ (∃ i, p = [.item i] ∧ u = .object ⟨0⟩) ∨ u = .number 0.5 := by
  rcases p with _ | ⟨i | key, p⟩
  · exact .inl ⟨rfl, (Option.some.inj hu).symm⟩
  · have hobject : sharing.at? (.object ⟨0⟩) p = some u := by
      rcases i with _ | _ | i
      · exact hu
      · exact hu
      · cases hu
    rcases p with _ | ⟨j | key, rest⟩
    · exact .inr (.inl ⟨i, rfl, (Option.some.inj hobject).symm⟩)
    · cases hobject
    · by_cases hkey : "x" = key
      · subst hkey
        cases rest with
        | nil => exact .inr (.inr (Option.some.inj hobject).symm)
        | cons s rest => cases s <;> cases hobject
      · have hnone : sharing.slot? ⟨0⟩ key = none := by
          show ((∅ : Slots Unit).insert "x" _).find? key = none
          rw [OrderedMap.find?_insert, if_neg hkey]
          rfl
        have hbelow : sharing.below? (.object ⟨0⟩) (.field key) = none := by
          rw [below?, hnone]
          rfl
        rw [at?, hbelow] at hobject
        cases hobject
  · cases hu

/-- Sharing and reactivity do not come back. -/
theorem json_round_trip_sharing :
    (∀ p, ¬ sharing.Repeats sharingPair p) ∧
    (∀ p x, sharing.at? sharingPair p = some (.number x) → x.isFinite = true) ∧
    sharing.Copies sharingPair (sharing.ofJson (sharing.toJson sharingPair)).2
      (sharing.ofJson (sharing.toJson sharingPair)).1 := by
  have hacyclic (p : List Down) : ¬ sharing.Repeats sharingPair p := by
    rintro ⟨o, ho, hmem⟩
    rcases sharing_at? ho with ⟨rfl, -⟩ | ⟨i, rfl, -⟩ | hu
    · cases hmem
    · rw [above] at hmem
      cases hbelow : sharing.below? sharingPair (.item i) with
      | none =>
        rw [hbelow] at hmem
        cases hmem
      | some u =>
        rw [hbelow] at hmem
        cases hmem
    · cases hu
  have hfinite (p : List Down) (x : Float)
      (hx : sharing.at? sharingPair p = some (.number x)) : x.isFinite = true := by
    rcases sharing_at? hx with ⟨-, hu⟩ | ⟨i, -, hu⟩ | hu
    · cases hu
    · cases hu
    · obtain rfl := Value.number.inj hu
      rfl
  exact ⟨hacyclic, hfinite, (json_round_trip sharing).1 sharingPair hacyclic hfinite⟩

end Heap

end DataBinding
