import DataBinding.Proofs.Doubles
import DataBinding.Proofs.Fields
import DataBinding.Proofs.Scalars

/-!
# Heaps that read alike

Two heaps read alike if they have the same objects with the same keys in the same order, and each
field has the same value in both, but for the sign of zero. Which fields are reactive is of no
account. Values that are alike in such heaps have the same JSON and the same text.

Strict equality tells arrays apart by their identity alone. So that it says something of the items
too, there has to be one list of items for each identity: values `Fit` it.
-/

namespace DataBinding

/-! ## Values -/

namespace Value

/-- Whether two values are the same but for the sign of zero. -/
def Resembles (a b : Value) : Prop :=
  a = b ∨ ∃ x y, a = .number x ∧ b = .number y ∧ (x == y) = true

mutual

/-- Whether the arrays in a value have the items that belong to their identities. -/
def Fits (items : ArrayId → List Value) : Value → Prop
  | array id own => items id = own ∧ AllFit items own
  | _ => True

/-- Whether this is so in all of some values. -/
def AllFit (items : ArrayId → List Value) : List Value → Prop
  | [] => True
  | v :: rest => Fits items v ∧ AllFit items rest

end

theorem allFit_iff {items : ArrayId → List Value} {vs : List Value} :
    AllFit items vs ↔ ∀ v ∈ vs, v.Fits items := by
  induction vs with
  | nil => simp [AllFit]
  | cons v rest ih => simp [AllFit, ih]

namespace Resembles

variable {a b c : Value}

theorem refl (a : Value) : a.Resembles a := .inl rfl

theorem symm (h : a.Resembles b) : b.Resembles a := by
  rcases h with rfl | ⟨x, y, rfl, rfl, hxy⟩
  · exact refl a
  · exact .inr ⟨y, x, rfl, rfl, Decimal.beq_symm hxy⟩

theorem trans (hab : a.Resembles b) (hbc : b.Resembles c) : a.Resembles c := by
  rcases hab with rfl | ⟨x, y, rfl, rfl, hxy⟩
  · exact hbc
  · rcases hbc with rfl | ⟨_, z, heq, rfl, hyz⟩
    · exact .inr ⟨x, y, rfl, rfl, hxy⟩
    · cases heq
      exact .inr ⟨x, z, rfl, rfl, Decimal.beq_trans hxy hyz⟩

/-- Strictly equal values resemble each other. -/
theorem of_strictEq {items : ArrayId → List Value} (ha : a.Fits items) (hb : b.Fits items)
    (h : a.strictEq b = true) : a.Resembles b := by
  cases a <;> cases b <;> simp only [strictEq, reduceCtorEq, beq_iff_eq] at h
  case null.null => exact refl _
  case number.number x y => exact .inr ⟨x, y, rfl, rfl, h⟩
  case array.array id own id' own' =>
    obtain rfl := h
    obtain rfl : own = own' := ha.1.symm.trans hb.1
    exact refl _
  all_goals exact .inl (by rw [h])

/-- Strict equality does not tell what resembles each other apart. -/
theorem strictEq_congr {a' b' : Value} (ha : a.Resembles a') (hb : b.Resembles b') :
    a.strictEq b = a'.strictEq b' := by
  have himp : ∀ {a a' b b' : Value}, a.Resembles a' → b.Resembles b' → a.strictEq b = true →
      a'.strictEq b' = true := by
    intro a a' b b' ha hb h
    have hleft : a'.strictEq b = true := by
      rcases ha with rfl | ⟨x, y, rfl, rfl, hxy⟩
      · exact h
      · exact strictEq_trans (b := .number x) (Decimal.beq_symm hxy) h
    rcases hb with rfl | ⟨x, y, rfl, rfl, hxy⟩
    · exact hleft
    · exact strictEq_trans (c := .number y) hleft hxy
  rw [Bool.eq_iff_iff]
  exact ⟨himp ha hb, himp ha.symm hb.symm⟩

theorem object?_eq (h : a.Resembles b) : a.object? = b.object? := by
  rcases h with rfl | ⟨x, y, rfl, rfl, _⟩ <;> rfl

end Resembles

/-- An item of an array, `null` if there is none. -/
def item : Value → Nat → Value
  | array _ items, i => items.getD i .null
  | _, _ => .null

/-- What resembles a value that fits does so too. -/
theorem Fits.of_resembles {items : ArrayId → List Value} {a b : Value} (ha : a.Fits items)
    (h : a.Resembles b) : b.Fits items := by
  rcases h with rfl | ⟨x, y, rfl, rfl, _⟩
  · exact ha
  · trivial

theorem Resembles.item {a b : Value} (h : a.Resembles b) (i : Nat) :
    (a.item i).Resembles (b.item i) := by
  rcases h with rfl | ⟨x, y, rfl, rfl, _⟩
  · exact .refl _
  · exact .refl _

theorem Fits.item {items : ArrayId → List Value} {a : Value} (h : a.Fits items) (i : Nat) :
    (a.item i).Fits items := by
  cases a with
  | array id own =>
    show (own.getD i .null).Fits items
    rw [List.getD_eq_getElem?_getD]
    cases hi : own[i]? with
    | none => trivial
    | some v => exact allFit_iff.mp h.2 v (List.mem_of_getElem? hi)
  | _ => trivial

end Value

/-- Numbers that are equal are the same in JSON. -/
theorem jsonOfFloat_of_beq {x y : Float} (h : (x == y) = true) : jsonOfFloat x = jsonOfFloat y := by
  rcases Decimal.eq_of_compare_eq (Decimal.beq_iff_compare.mp h) with heq | ⟨s, s', hx, hy⟩
  · rw [Decimal.eq_of_unpack_eq heq]
  · simp [jsonOfFloat, Decimal.integer?, hx, hy]

namespace Heap

variable {κ : Type}

/-- The keys of an object with their values. -/
theorem fields_eq_map_keys (h : Heap κ) (o : ObjectId) :
    h.fields o = (h.slots o).keys.map fun key => (key, h.peek o key) := by
  rw [fields, OrderedMap.keys, Entries.keys, List.map_map]
  apply List.map_congr_left
  rintro ⟨key, s⟩ hmem
  have hs : h.slot? o key = some s := Entries.find?_of_mem (h.slots o).nodup hmem
  simp [peek, hs]

/-- Two heaps with the same objects and keys, and values that are the same but for the sign of
zero. -/
structure Mirrors (h h' : Heap κ) : Prop where
  size : h.objects.size = h'.objects.size
  keys : ∀ o, (h.slots o).keys = (h'.slots o).keys
  peek : ∀ o key, (h.peek o key).Resembles (h'.peek o key)

/-- Values that resemble each other have the same JSON. -/
theorem toJson_snapshotBelow_of_resembles (h : Heap κ) (path : List ObjectId) {v v' : Value}
    (hv : v.Resembles v') : (h.snapshotBelow path v).toJson = (h.snapshotBelow path v').toJson := by
  rcases hv with rfl | ⟨x, y, rfl, rfl, hxy⟩
  · rfl
  · simp only [snapshotBelow, Snapshot.toJson]
    exact jsonOfFloat_of_beq hxy

theorem text_of_resembles (h : Heap κ) {v v' : Value} (hv : v.Resembles v') :
    h.text v = h.text v' := by
  rcases hv with rfl | ⟨x, y, rfl, rfl, hxy⟩
  · rfl
  · exact text_of_strictEq h rfl hxy

namespace Mirrors

variable {h h' h'' : Heap κ}

theorem refl (h : Heap κ) : h.Mirrors h := ⟨rfl, fun _ => rfl, fun _ _ => .refl _⟩

theorem symm (hm : h.Mirrors h') : h'.Mirrors h :=
  ⟨hm.size.symm, fun o => (hm.keys o).symm, fun o key => (hm.peek o key).symm⟩

theorem trans (hm : h.Mirrors h') (hm' : h'.Mirrors h'') : h.Mirrors h'' :=
  ⟨hm.size.trans hm'.size, fun o => (hm.keys o).trans (hm'.keys o),
    fun o key => (hm.peek o key).trans (hm'.peek o key)⟩

/-- The JSON of a value is the same in heaps that read alike. -/
theorem toJson_snapshotBelow (hm : h.Mirrors h') (path : List ObjectId) (v : Value) :
    (h.snapshotBelow path v).toJson = (h'.snapshotBelow path v).toJson := by
  refine toJson_snapshotBelow_of_fields (fun o path => ?_) path v
  rw [fields_eq_map_keys, fields_eq_map_keys, List.map_map, List.map_map, hm.keys o]
  apply List.map_congr_left
  intro key _
  exact congrArg (key, ·) (toJson_snapshotBelow_of_resembles h' path (hm.peek o key))

theorem toJson (hm : h.Mirrors h') {v v' : Value} (hv : v.Resembles v') :
    h.toJson v = h'.toJson v' :=
  (hm.toJson_snapshotBelow [] v).trans (toJson_snapshotBelow_of_resembles h' [] hv)

/-- The text of a value is the same in heaps that read alike. -/
theorem text (hm : h.Mirrors h') {v v' : Value} (hv : v.Resembles v') :
    h.text v = h'.text v' := by
  refine Eq.trans ?_ (text_of_resembles h' hv)
  cases v with
  | null | bool | number | text => rfl
  | array id items => exact congrArg Json.compact (hm.toJson (.refl _))
  | object o => exact congrArg Json.compact (hm.toJson (.refl _))

end Mirrors

/-! ## Observing and writing -/

theorem keys_slots_modifySlots (h : Heap κ) (o : ObjectId) {f : Slots κ → Slots κ}
    (hf : ∀ slots, (f slots).keys = slots.keys) (p : ObjectId) :
    ((h.modifySlots o f).slots p).keys = (h.slots p).keys := by
  rw [slots_modifySlots]
  split
  · exact hf _
  · rfl

theorem size_modifySlots (h : Heap κ) (o : ObjectId) (f : Slots κ → Slots κ) :
    (h.modifySlots o f).objects.size = h.objects.size :=
  Table.size_modify _ _ _

/-- What is observed reads as before. -/
theorem mirrors_intercept (hook : Hook κ) (h : Heap κ) (values : List Value) :
    h.Mirrors (intercept hook h values) := by
  refine ⟨?_, fun p => ?_, fun p key => by rw [peek_intercept]; exact .refl _⟩
  · fun_induction intercept hook h values with
    | case1 h => rfl
    | case3 h o rest hsome ih => exact (size_modifySlots h o _).symm.trans ih
    | case2 | case4 => assumption
  · fun_induction intercept hook h values with
    | case1 h => rfl
    | case3 h o rest hsome ih =>
      rw [← ih, observeObject, keys_slots_modifySlots]
      exact fun slots => OrderedMap.keys_mapValues _ slots
    | case2 | case4 => assumption

/-- One heap is the other after a write, but for the sign of zero: the field has the value, and if
it is new its key is the last one. -/
structure Written (o : ObjectId) (key : String) (v : Value) (h h' : Heap κ) : Prop where
  size : h'.objects.size = h.objects.size
  keys : ∀ p, (h'.slots p).keys =
    if o = p ∧ p.index < h.objects.size ∧ key ∉ (h.slots p).keys then (h.slots p).keys ++ [key]
    else (h.slots p).keys
  peek : ∀ p k, (h'.peek p k).Resembles
    (if o = p ∧ p.index < h.objects.size ∧ key = k then v else h.peek p k)

variable {o : ObjectId} {key : String} {v : Value} {h : Heap κ}

theorem written_putPlain (h : Heap κ) (o : ObjectId) (key : String) (v : Value) :
    Written o key v h (h.putPlain o key v) := by
  refine ⟨size_modifySlots h o _, fun p => ?_, fun p k => ?_⟩
  · rw [putPlain, slots_modifySlots]
    by_cases hp : o = p ∧ p.index < h.objects.size
    · rw [if_pos hp, OrderedMap.keys_insert]
      by_cases hkey : key ∈ (h.slots p).keys
      · rw [if_pos hkey, if_neg fun hall => hall.2.2 hkey]
      · rw [if_neg hkey, if_pos ⟨hp.1, hp.2, hkey⟩]
    · rw [if_neg hp, if_neg fun hall => hp ⟨hall.1, hall.2.1⟩]
  · rw [peek_putPlain]
    exact .refl _

/-- A reactive field is there already. -/
theorem mem_keys_of_cell? {c : Cell κ} (hc : h.cell? o key = some c) :
    o.index < h.objects.size ∧ key ∈ (h.slots o).keys := by
  obtain ⟨s, hs, _⟩ := Option.bind_eq_some_iff.mp hc
  refine ⟨lt_size_of_slot? hs, (OrderedMap.contains_iff _ _).mp ?_⟩
  rw [OrderedMap.contains]
  exact Option.isSome_iff_exists.mpr ⟨s, hs⟩

/-- A write to a reactive field that is dropped because the field has that value already. -/
theorem written_self {items : ArrayId → List Value} {c : Cell κ} (hc : h.cell? o key = some c)
    (hfits : c.value.Fits items) (hv : v.Fits items) (heq : c.value.strictEq v = true) :
    Written o key v h h := by
  refine ⟨rfl, fun p => ?_, fun p k => ?_⟩
  · rw [if_neg]
    rintro ⟨rfl, _, hkey⟩
    exact hkey (mem_keys_of_cell? hc).2
  · split
    · next hall =>
      obtain ⟨rfl, _, rfl⟩ := hall
      rw [peek_of_cell? hc]
      exact .of_strictEq hfits hv heq
    · exact .refl _

/-- A write that is stored in a reactive field, after the new value has been observed. -/
theorem written_store {c : Cell κ} (hc : h.cell? o key = some c) (v : Value) :
    Written o key v h ((h.intercept c.hook [v]).store o key v) := by
  obtain ⟨hlt, hmem⟩ := mem_keys_of_cell? hc
  have hm := mirrors_intercept c.hook h [v]
  refine ⟨(size_modifySlots _ o _).trans hm.size.symm, fun p => ?_, fun p k => ?_⟩
  · rw [store, modifyCell, keys_slots_modifySlots, ← hm.keys p, if_neg]
    · rintro ⟨rfl, _, hkey⟩
      exact hkey hmem
    · exact fun slots => OrderedMap.keys_modify slots key _
  · rw [peek_store (cell?_intercept_of_some hc), peek_intercept]
    by_cases hp : p = o ∧ k = key
    · rw [if_pos hp, if_pos ⟨hp.1.symm, hp.1 ▸ hlt, hp.2.symm⟩]
      exact .refl _
    · rw [if_neg hp, if_neg fun hall => hp ⟨hall.1.symm, hall.2.2.symm⟩]
      exact .refl _

/-- Heaps that read alike do so after the same write. -/
theorem Mirrors.written {h h' h₁ h₁' : Heap κ} {v' : Value} (hm : h.Mirrors h')
    (hv : v.Resembles v') (hw : Written o key v h h₁) (hw' : Written o key v' h' h₁') :
    h₁.Mirrors h₁' := by
  refine ⟨hw.size.trans (hm.size.trans hw'.size.symm), fun p => ?_, fun p k => ?_⟩
  · rw [hw.keys p, hw'.keys p, hm.keys p, hm.size]
  · refine (hw.peek p k).trans (.trans ?_ (hw'.peek p k).symm)
    rw [hm.size]
    split
    · exact hv
    · exact hm.peek p k

/-- Whether all fields have values that fit. -/
def Fits (h : Heap κ) (items : ArrayId → List Value) : Prop := ∀ o key, (h.peek o key).Fits items

theorem Fits.of_mirrors {h' : Heap κ} {items : ArrayId → List Value} (hfits : h.Fits items)
    (hm : h.Mirrors h') : h'.Fits items :=
  fun o key => (hfits o key).of_resembles (hm.peek o key)

theorem Fits.written {h' : Heap κ} {items : ArrayId → List Value} (hfits : h.Fits items)
    (hv : v.Fits items) (hw : Written o key v h h') : h'.Fits items := by
  intro p k
  refine Value.Fits.of_resembles ?_ (hw.peek p k).symm
  split
  · exact hv
  · exact hfits p k

end Heap

end DataBinding
