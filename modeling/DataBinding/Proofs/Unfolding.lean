import DataBinding.Program
import DataBinding.Proofs.Fields

/-!
# What a snapshot shows

A position in a value is a way down to it, item by item and field by field. Under a value in the
heap the ways may be endless, for an object can lie in itself; its JSON is a tree. The two are
compared position by position, each time by what can be seen there without going further down
(`Layer`).

The JSON has a placeholder where an object is met that stands above on the way, nothing below the
placeholder, and the layer of the value everywhere else. No other JSON has this.
-/

namespace DataBinding

/-- Entries are determined by their keys in order and the value of every key. -/
theorem Entries.eq_of_find? {α : Type} {entries entries' : List (String × α)}
    (hkeys : keys entries = keys entries') (hnodup : (keys entries).Nodup)
    (hfind : ∀ key, find? entries key = find? entries' key) : entries = entries' := by
  induction entries generalizing entries' with
  | nil =>
    cases entries' with
    | nil => rfl
    | cons entry rest => cases hkeys
  | cons entry rest ih =>
    cases entries' with
    | nil => cases hkeys
    | cons entry' rest' =>
      obtain ⟨k, v⟩ := entry
      obtain ⟨k', v'⟩ := entry'
      obtain ⟨hk, hrestkeys⟩ := List.cons.inj hkeys
      obtain rfl : k = k' := hk
      obtain ⟨hnot, hrestnodup⟩ := List.nodup_cons.mp hnodup
      have hv : v = v' := by
        have hfirst := hfind k
        rw [find?, find?, if_pos rfl, if_pos rfl] at hfirst
        exact Option.some.inj hfirst
      have hnone {entries : List (String × α)} (hmem : k ∉ keys entries) :
          find? entries k = none := by
        rw [← Option.not_isSome_iff_eq_none, find?_isSome_iff]
        exact hmem
      have hrest := ih hrestkeys hrestnodup fun key => by
        by_cases hkey : k = key
        · subst hkey
          have hnot' : k ∉ keys rest' := by
            rw [show keys rest' = keys rest from hrestkeys.symm]
            exact hnot
          rw [hnone hnot, hnone hnot']
        · have hlater := hfind key
          rwa [find?, find?, if_neg hkey, if_neg hkey] at hlater
      rw [hv, hrest]

/-- A step down: to an item of an array or to a field of an object. -/
inductive Down where
  | item (index : Nat)
  | field (key : String)

/-- What can be seen without a step down: a scalar, the length of an array, the keys of an
object. -/
inductive Layer where
  | scalar (j : Json)
  | array (length : Nat)
  | object (keys : List String)

namespace Json

/-- What is one step below. -/
def below? : Json → Down → Option Json
  | .array items, .item i => items[i]?
  | .object members, .field key => Entries.find? members key
  | _, _ => none

/-- What is at a position. -/
def at? : Json → List Down → Option Json
  | j, [] => some j
  | j, s :: p => (j.below? s).bind fun c => c.at? p

/-- The layer on top. -/
def layer : Json → Layer
  | .array items => .array items.length
  | .object members => .object (Entries.keys members)
  | j => .scalar j

/-- No object in it has a key twice. -/
def Distinct (j : Json) : Prop :=
  ∀ p members, j.at? p = some (.object members) → (Entries.keys members).Nodup

theorem Distinct.below {j c : Json} {s : Down} (hj : j.Distinct) (hc : j.below? s = some c) :
    c.Distinct := by
  intro p members hp
  refine hj (s :: p) members ?_
  rw [at?, hc, Option.bind_some, hp]

theorem sizeOf_lt_of_below? {j c : Json} {s : Down} (h : j.below? s = some c) :
    sizeOf c < sizeOf j := by
  cases j with
  | array items =>
    cases s with
    | item i =>
      have hlt := List.sizeOf_lt_of_mem (List.mem_of_getElem? h)
      simp only [Json.array.sizeOf_spec]
      omega
    | field key => cases h
  | object members =>
    cases s with
    | item i => cases h
    | field key =>
      have hlt := List.sizeOf_lt_of_mem (Entries.mem_of_find? h)
      simp only [Json.object.sizeOf_spec, Prod.mk.sizeOf_spec] at hlt ⊢
      omega
  | null | bool | number | string => cases h

/-- What holds of a JSON value when it holds of all below it holds of every JSON value. -/
theorem below_induction {motive : Json → Prop}
    (h : ∀ j, (∀ s c, j.below? s = some c → motive c) → motive j) (j : Json) : motive j :=
  h j fun _ c _ => below_induction h c
termination_by sizeOf j
decreasing_by exact sizeOf_lt_of_below? ‹_›

theorem eq_of_below {j j' : Json} (hlayer : j.layer = j'.layer) (hj : j.Distinct)
    (hbelow : ∀ s, j.below? s = j'.below? s) : j = j' := by
  cases j with
  | array items =>
    cases j' with
    | array items' =>
      have hitems : items = items' := List.ext_getElem? fun i => hbelow (.item i)
      rw [hitems]
    | null | bool | number | string | object => cases hlayer
  | object members =>
    cases j' with
    | object members' =>
      have hmembers : members = members' :=
        Entries.eq_of_find? (Layer.object.inj hlayer) (hj [] members rfl) fun key =>
          hbelow (.field key)
      rw [hmembers]
    | null | bool | number | string | array => cases hlayer
  | null | bool | number | string =>
    cases j' with
    | null | bool | number | string => exact Layer.scalar.inj hlayer
    | array | object => cases hlayer

/-- JSON without double keys is determined by its layers. -/
theorem eq_of_layers {j j' : Json} (hj : j.Distinct) (hj' : j'.Distinct)
    (hlayers : ∀ p, (j.at? p).map layer = (j'.at? p).map layer) : j = j' := by
  induction j using below_induction generalizing j' with
  | h j ih =>
    have htop : j.layer = j'.layer := Option.some.inj (hlayers [])
    refine eq_of_below htop hj fun s => ?_
    have hstep (p : List Down) :
        ((j.below? s).bind fun c => c.at? p).map layer =
          ((j'.below? s).bind fun c => c.at? p).map layer := hlayers (s :: p)
    cases hc : j.below? s with
    | none =>
      cases hc' : j'.below? s with
      | none => rfl
      | some c' =>
        have hnil := hstep []
        rw [hc, hc'] at hnil
        cases hnil
    | some c =>
      cases hc' : j'.below? s with
      | none =>
        have hnil := hstep []
        rw [hc, hc'] at hnil
        cases hnil
      | some c' =>
        rw [hc, hc'] at hstep
        rw [ih s c hc (hj.below hc) (hj'.below hc') hstep]

end Json

namespace Heap

variable {κ : Type}

/-- The value one step below. -/
def below? (h : Heap κ) : Value → Down → Option Value
  | .array _ items, .item i => items[i]?
  | .object o, .field key => (h.slot? o key).map Slot.value
  | _, _ => none

/-- The value at a position. -/
def at? (h : Heap κ) : Value → List Down → Option Value
  | v, [] => some v
  | v, s :: p => (h.below? v s).bind fun u => h.at? u p

/-- The objects on the way down to a position, without the one that may be there. -/
def above (h : Heap κ) : Value → List Down → List ObjectId
  | _, [] => []
  | v, s :: p => v.object?.toList ++ ((h.below? v s).map fun u => h.above u p).getD []

/-- The layer of a value, scalars as JSON. -/
def layer (h : Heap κ) : Value → Layer
  | .null => .scalar .null
  | .bool b => .scalar (.bool b)
  | .number x => .scalar (jsonOfFloat x)
  | .text s => .scalar (.string s)
  | .array _ items => .array items.length
  | .object o => .object (h.slots o).keys

/-- At a position there is an object that stands above it on the way. -/
def Repeats (h : Heap κ) (v : Value) (p : List Down) : Prop :=
  ∃ o, h.at? v p = some (.object o) ∧ o ∈ h.above v p

/-- On the way to a position, before it, an object repeats. -/
def Cut (h : Heap κ) (v : Value) (p : List Down) : Prop :=
  ∃ q s r, p = q ++ s :: r ∧ h.Repeats v q

/-- The JSON is the unfolding of the value, cut off where an object repeats. -/
structure Unfolds (h : Heap κ) (v : Value) (j : Json) : Prop where
  distinct : j.Distinct
  /-- Nothing is below a placeholder. -/
  none_of_cut : ∀ p, h.Cut v p → j.at? p = none
  placeholder : ∀ p, ¬ h.Cut v p → h.Repeats v p → j.at? p = some (.string "[Circular]")
  /-- Everywhere else the JSON looks like the value. -/
  layers : ∀ p, ¬ h.Cut v p → ¬ h.Repeats v p → (j.at? p).map Json.layer = (h.at? v p).map h.layer

/-! ## Below a path

The unfolding carries the objects that it is inside of. All of the above is therefore said for a
value that is met below a path.
-/

/-- At a position below a path there is an object that stands above it or on the path. -/
def RepeatsBelow (h : Heap κ) (path : List ObjectId) (v : Value) (p : List Down) : Prop :=
  ∃ o, h.at? v p = some (.object o) ∧ o ∈ h.above v p ++ path

/-- Before a position below a path, an object repeats. -/
def CutBelow (h : Heap κ) (path : List ObjectId) (v : Value) (p : List Down) : Prop :=
  ∃ q s r, p = q ++ s :: r ∧ h.RepeatsBelow path v q

variable {h : Heap κ} {path : List ObjectId} {v : Value}

theorem repeatsBelow_nil_iff {p : List Down} : h.RepeatsBelow [] v p ↔ h.Repeats v p := by
  unfold RepeatsBelow Repeats
  simp only [List.append_nil]

theorem cutBelow_nil_iff {p : List Down} : h.CutBelow [] v p ↔ h.Cut v p := by
  unfold CutBelow Cut
  simp only [repeatsBelow_nil_iff]

theorem above_cons {s : Down} {u : Value} (hu : h.below? v s = some u) (p : List Down) :
    h.above v (s :: p) = v.object?.toList ++ h.above u p := by
  rw [above, hu]
  rfl

theorem RepeatsBelow.cons {s : Down} {u : Value} {p : List Down} (hu : h.below? v s = some u)
    (hr : h.RepeatsBelow (v.object?.toList ++ path) u p) : h.RepeatsBelow path v (s :: p) := by
  obtain ⟨o, ho, hmem⟩ := hr
  refine ⟨o, ?_, ?_⟩
  · rw [at?, hu, Option.bind_some, ho]
  · rw [above_cons hu]
    simp only [List.mem_append] at hmem ⊢
    rcases hmem with hmem | hmem | hmem
    · exact .inl (.inr hmem)
    · exact .inl (.inl hmem)
    · exact .inr hmem

theorem CutBelow.cons {s : Down} {u : Value} {p : List Down} (hu : h.below? v s = some u)
    (hc : h.CutBelow (v.object?.toList ++ path) u p) : h.CutBelow path v (s :: p) := by
  obtain ⟨q, s', r, rfl, hr⟩ := hc
  exact ⟨s :: q, s', r, rfl, hr.cons hu⟩

/-- Where something is cut off, it is cut off at the top or below a step. -/
theorem CutBelow.cases_cons {s : Down} {p : List Down} (hc : h.CutBelow path v (s :: p)) :
    (∃ o, v = .object o ∧ o ∈ path) ∨
      ∀ u, h.below? v s = some u → h.CutBelow (v.object?.toList ++ path) u p := by
  obtain ⟨q, s', r, hp, o, ho, hmem⟩ := hc
  cases q with
  | nil =>
    obtain rfl := Option.some.inj ho
    exact .inl ⟨o, rfl, hmem⟩
  | cons s₁ q =>
    obtain ⟨rfl, rfl⟩ := List.cons.inj hp
    refine .inr fun u hu => ⟨q, s', r, rfl, o, ?_, ?_⟩
    · rwa [at?, hu, Option.bind_some] at ho
    · rw [above_cons hu] at hmem
      simp only [List.mem_append] at hmem ⊢
      rcases hmem with (hmem | hmem) | hmem
      · exact .inr (.inl hmem)
      · exact .inl hmem
      · exact .inr (.inr hmem)

/-- A value that is not an object of the path looks in the JSON as it does in the heap. -/
theorem layer_toJson_snapshotBelow (hv : ∀ o, v = .object o → o ∉ path) :
    (h.snapshotBelow path v).toJson.layer = h.layer v := by
  cases v with
  | number x =>
    rw [snapshotBelow, Snapshot.toJson, layer]
    unfold jsonOfFloat
    split
    · split <;> rfl
    · split <;> rfl
  | array id items =>
    rw [snapshotBelow, Snapshot.toJson, itemsToJson_map]
    simp [Json.layer, layer]
  | object o =>
    rw [snapshotBelow_object h (hv o rfl), Snapshot.toJson, fieldsToJson_map]
    simp [Json.layer, layer, Entries.keys, OrderedMap.keys]
  | null | bool | text => rw [snapshotBelow]; rfl

/-- One step below a value that is not an object of the path, the JSON goes on as the value does,
below a path that is longer by the value itself. -/
theorem below?_toJson_snapshotBelow (hv : ∀ o, v = .object o → o ∉ path) (s : Down) :
    (h.snapshotBelow path v).toJson.below? s =
      (h.below? v s).map fun u => (h.snapshotBelow (v.object?.toList ++ path) u).toJson := by
  cases v with
  | number x =>
    rw [snapshotBelow, Snapshot.toJson]
    unfold jsonOfFloat
    split
    · split <;> rfl
    · split <;> rfl
  | array id items =>
    rw [snapshotBelow, Snapshot.toJson, itemsToJson_map]
    cases s with
    | item i => exact List.getElem?_map ..
    | field key => rfl
  | object o =>
    rw [snapshotBelow_object h (hv o rfl), Snapshot.toJson, fieldsToJson_map]
    cases s with
    | item i => rfl
    | field key =>
      have hmap := Entries.find?_mapValues
        (fun _ (s : Slot κ) => (h.snapshotBelow (o :: path) s.value).toJson)
        (h.slots o).entries key
      refine hmap.trans ?_
      show _ = ((h.slot? o key).map Slot.value).map _
      rw [Option.map_map]
      rfl
  | null | bool | text => rw [snapshotBelow]; cases s <;> rfl

/-- Where nothing is cut off, the JSON is that of the value there below the way down. -/
theorem at?_toJson_snapshotBelow {p : List Down} (hc : ¬ h.CutBelow path v p) :
    (h.snapshotBelow path v).toJson.at? p =
      (h.at? v p).map fun u => (h.snapshotBelow ((h.above v p).reverse ++ path) u).toJson := by
  induction p generalizing path v with
  | nil => rfl
  | cons s p ih =>
    have hv (o : ObjectId) (ho : v = .object o) : o ∉ path := by
      intro hmem
      exact hc ⟨[], s, p, rfl, o, congrArg some ho, hmem⟩
    rw [Json.at?, below?_toJson_snapshotBelow hv, at?]
    cases hu : h.below? v s with
    | none => rfl
    | some u =>
      have hrest : ¬ h.CutBelow (v.object?.toList ++ path) u p := fun hcut => hc (hcut.cons hu)
      have hself : v.object?.toList.reverse = v.object?.toList := by
        cases v.object? <;> rfl
      rw [Option.map_some, Option.bind_some, Option.bind_some, ih hrest, above_cons hu,
        List.reverse_append, hself, List.append_assoc]

theorem at?_toJson_of_cutBelow {p : List Down} (hc : h.CutBelow path v p) :
    (h.snapshotBelow path v).toJson.at? p = none := by
  induction p generalizing path v with
  | nil =>
    obtain ⟨q, s, r, hp, -⟩ := hc
    simp at hp
  | cons s p ih =>
    by_cases hv : ∃ o, v = .object o ∧ o ∈ path
    · obtain ⟨o, rfl, hmem⟩ := hv
      rw [snapshotBelow_repeated h hmem]
      rfl
    · rw [Json.at?, below?_toJson_snapshotBelow fun o ho hmem => hv ⟨o, ho, hmem⟩]
      cases hu : h.below? v s with
      | none => rfl
      | some u =>
        rcases hc.cases_cons with htop | hrest
        · exact absurd htop hv
        · exact ih (hrest u hu)

/-! ## From the top -/

theorem at?_toJson {p : List Down} (hc : ¬ h.Cut v p) :
    (h.toJson v).at? p =
      (h.at? v p).map fun u => (h.snapshotBelow (h.above v p).reverse u).toJson := by
  have hcut : ¬ h.CutBelow [] v p := fun hcut => hc (cutBelow_nil_iff.mp hcut)
  have hsnapshot := at?_toJson_snapshotBelow hcut
  rw [List.append_nil] at hsnapshot
  exact hsnapshot

/-- Where nothing is cut off and no object repeats, the JSON looks like the value. -/
theorem layer_at?_toJson {p : List Down} (hc : ¬ h.Cut v p) (hr : ¬ h.Repeats v p) :
    ((h.toJson v).at? p).map Json.layer = (h.at? v p).map h.layer := by
  rw [at?_toJson hc]
  cases hu : h.at? v p with
  | none => rfl
  | some u =>
    rw [Option.map_some, Option.map_some, Option.map_some, layer_toJson_snapshotBelow]
    rintro o rfl hmem
    exact hr ⟨o, hu, by simpa using hmem⟩

theorem at?_toJson_of_repeats {p : List Down} (hc : ¬ h.Cut v p) (hr : h.Repeats v p) :
    (h.toJson v).at? p = some (.string "[Circular]") := by
  obtain ⟨o, ho, hmem⟩ := hr
  rw [at?_toJson hc, ho, Option.map_some, snapshotBelow_repeated h (by simpa using hmem)]
  rfl

theorem at?_toJson_of_cut {p : List Down} (hc : h.Cut v p) : (h.toJson v).at? p = none :=
  at?_toJson_of_cutBelow (cutBelow_nil_iff.mpr hc)

/-- Objects have no key twice, and so has no JSON of a value. -/
theorem distinct_toJson (h : Heap κ) (v : Value) : (h.toJson v).Distinct := by
  intro p members hp
  by_cases hc : h.Cut v p
  · rw [at?_toJson_of_cut hc] at hp
    cases hp
  · by_cases hr : h.Repeats v p
    · rw [at?_toJson_of_repeats hc hr] at hp
      cases hp
    · have hlayer := layer_at?_toJson hc hr
      rw [hp, Option.map_some] at hlayer
      obtain ⟨u, -, hu⟩ := Option.map_eq_some_iff.mp hlayer.symm
      cases u with
      | object o =>
        rw [← Layer.object.inj hu]
        exact (h.slots o).nodup
      | null | bool | number | text | array => cases hu

theorem unfolds_toJson (h : Heap κ) (v : Value) : h.Unfolds v (h.toJson v) where
  distinct := distinct_toJson h v
  none_of_cut _ hc := at?_toJson_of_cut hc
  placeholder _ hc hr := at?_toJson_of_repeats hc hr
  layers _ hc hr := layer_at?_toJson hc hr

/-- A value has one unfolding only. -/
theorem Unfolds.eq {j j' : Json} (hj : h.Unfolds v j) (hj' : h.Unfolds v j') : j = j' := by
  refine Json.eq_of_layers hj.distinct hj'.distinct fun p => ?_
  by_cases hc : h.Cut v p
  · rw [hj.none_of_cut p hc, hj'.none_of_cut p hc]
  · by_cases hr : h.Repeats v p
    · rw [hj.placeholder p hc hr, hj'.placeholder p hc hr]
    · rw [hj.layers p hc hr, hj'.layers p hc hr]

theorem eq_toJson_iff {j : Json} : j = h.toJson v ↔ h.Unfolds v j := by
  constructor
  · rintro rfl
    exact unfolds_toJson h v
  · intro hj
    exact hj.eq (unfolds_toJson h v)

/-- Of a path only the objects that lie in the value count. -/
theorem snapshotBelow_congr {path' : List ObjectId}
    (hpath : ∀ q o, h.at? v q = some (.object o) → (o ∈ path ↔ o ∈ path')) :
    h.snapshotBelow path v = h.snapshotBelow path' v := by
  fun_induction Heap.snapshotBelow h path v generalizing path' with
  | case1 | case2 | case3 | case4 => simp [snapshotBelow]
  | case5 path id items ih =>
    rw [snapshotBelow]
    congr 1
    refine List.map_congr_left fun item hmem => ih item hmem fun q o hq => ?_
    obtain ⟨i, hi⟩ := List.mem_iff_getElem?.mp hmem
    refine hpath (.item i :: q) o ?_
    have hbelow : h.below? (.array id items) (.item i) = some item := hi
    rw [at?, hbelow, Option.bind_some, hq]
  | case6 path o ho => rw [snapshotBelow_repeated h ((hpath [] o rfl).mp ho)]
  | case7 path o ho ih =>
    rw [snapshotBelow_object h fun ho' => ho ((hpath [] o rfl).mpr ho'), List.map_attach_eq_pmap]
    simp only [List.pmap_eq_map]
    congr 1
    refine List.map_congr_left fun entry hmem => ?_
    have hslot := (OrderedMap.find?_eq_some_iff _ entry.1 entry.2).mpr hmem
    have hbelow : h.below? (.object o) (.field entry.1) = some entry.2.value := by
      rw [below?, slot?, hslot, Option.map_some]
    have hpath' (q : List Down) (p : ObjectId) (hq : h.at? entry.2.value q = some (.object p)) :
        p ∈ o :: path ↔ p ∈ o :: path' := by
      have hdown := hpath (.field entry.1 :: q) p (by rw [at?, hbelow, Option.bind_some, hq])
      rw [List.mem_cons, List.mem_cons, hdown]
    rw [ih ⟨entry, hmem⟩ hpath']

/-- What is only shared is there in full: at a position that no object below it stands above,
there is the whole JSON of the value. -/
theorem at?_toJson_of_shared {p : List Down} {u : Value} (hc : ¬ h.Cut v p)
    (hu : h.at? v p = some u)
    (hshared : ∀ q o, h.at? u q = some (.object o) → o ∉ h.above v p) :
    (h.toJson v).at? p = some (h.toJson u) := by
  have hpath : h.snapshotBelow (h.above v p).reverse u = h.snapshot u :=
    snapshotBelow_congr fun q o hq => by simp [hshared q o hq]
  rw [at?_toJson hc, hu, Option.map_some, hpath]
  rfl

theorem not_cut_of_acyclic (hacyclic : ∀ p, ¬ h.Repeats v p) (p : List Down) : ¬ h.Cut v p := by
  rintro ⟨q, s, r, -, hr⟩
  exact hacyclic q hr

end Heap

/-- Asking for a snapshot gives an answer and changes nothing, in every world. The JSON of the
snapshot is the unfolding of the value that stops where an object repeats, and it is the only one.
What is shared is there in full, and without cycles there is no placeholder. -/
theorem Host.snapshot_unfolds {κ σ : Type} (host : Host κ σ) (depth : Nat) (w : World κ σ)
    (v : Value) :
    ∃ snapshot, host.run depth (.ask (.snapshot v)) w = some (snapshot, w) ∧
      (∀ j, j = snapshot.toJson ↔ w.heap.Unfolds v j) ∧
      (∀ p u, ¬ w.heap.Cut v p → w.heap.at? v p = some u →
        (∀ q o, w.heap.at? u q = some (.object o) → o ∉ w.heap.above v p) →
        snapshot.toJson.at? p = some (w.heap.toJson u)) ∧
      ((∀ p, ¬ w.heap.Repeats v p) → ∀ p,
        (snapshot.toJson.at? p).map Json.layer = (w.heap.at? v p).map w.heap.layer) := by
  refine ⟨w.heap.snapshot v, rfl, fun j => Heap.eq_toJson_iff, ?_, ?_⟩
  · intro p u hc hu hshared
    exact Heap.at?_toJson_of_shared hc hu hshared
  · intro hacyclic p
    exact Heap.layer_at?_toJson (Heap.not_cut_of_acyclic hacyclic p) (hacyclic p)

end DataBinding
