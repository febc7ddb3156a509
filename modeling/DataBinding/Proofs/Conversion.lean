import DataBinding.Proofs.Observation
import DataBinding.Proofs.Recording

/-!
# What observing turns reactive

A value is observed for itself, or because it is written to a reactive field. Either way the plain
slots that can be reached from it along plain slots turn reactive, each in its place and with its
value, and the heap is otherwise the one it was. Cycles and shared objects make no difference: what
is reached is told by the heap as it is before, although the slots turn one object at a time.

A write comes this far whatever the subscribers of the field do: the hook of the field is told, and
if it only records, the value is stored and the first subscriber is next.
-/

namespace DataBinding

variable {κ σ : Type}

namespace Heap

/-- One heap is the other after a value has been observed, and has been stored in a field if one is
named. The slots that turn reactive are those that were plain in an object that is reached; they
keep their values, have no subscribers and report to the hook. Fields that were reactive before are
the same, with their values, lists and hooks, but for the value of the field that is named. -/
structure Converts (hook : Hook κ) (v : Value) (field? : Option (ObjectId × String))
    (h h' : Heap κ) : Prop where
  size : h'.objects.size = h.objects.size
  arrays : h'.arrays = h.arrays
  keys : ∀ p, (h'.slots p).keys = (h.slots p).keys
  isReactive_iff : ∀ p key, h'.isReactive p key = true ↔
    h.isReactive p key = true ∨
      (∃ u, h.slot? p key = some (.plain u)) ∧ h.ReachedFrom [v] p
  turned : ∀ p key u, h.slot? p key = some (.plain u) → h.ReachedFrom [v] p →
    h'.slot? p key = some (.reactive { value := u, subscribers := [], hook := hook })
  passed : ∀ p key u, h.slot? p key = some (.plain u) → ¬ h.ReachedFrom [v] p →
    h'.slot? p key = some (.plain u)
  kept : ∀ p key c, h.slot? p key = some (.reactive c) →
    h'.slot? p key =
      some (.reactive (if field? = some (p, key) then { c with value := v } else c))

variable {h h' : Heap κ} {hook : Hook κ} {v : Value} {o : ObjectId} {key : String} {c : Cell κ}

theorem arrays_intercept (hook : Hook κ) (h : Heap κ) (values : List Value) :
    (intercept hook h values).arrays = h.arrays := by
  fun_induction intercept hook h values with
  | case1 h => rfl
  | case3 h o rest hsome ih => exact ih
  | case2 | case4 => assumption

theorem slot?_of_cell? (hc : h.cell? o key = some c) : h.slot? o key = some (.reactive c) := by
  obtain ⟨s, hs, hcell⟩ := Option.bind_eq_some_iff.mp hc
  cases s with
  | plain u => cases hcell
  | reactive c' =>
    obtain rfl := Option.some.inj hcell
    exact hs

/-- A slot is reactive if it was, or if it was plain and has been observed. -/
theorem isReactive_intercept_iff (hook : Hook κ) (h : Heap κ) (values : List Value)
    (p : ObjectId) (key : String) :
    (intercept hook h values).isReactive p key = true ↔
      h.isReactive p key = true ∨
        (∃ u, h.slot? p key = some (.plain u)) ∧ h.ReachedFrom values p := by
  obtain ⟨hreached, hpassed⟩ := slot?_intercept_iff hook h values p key
  by_cases hr : h.ReachedFrom values p
  · have hslot := hreached hr
    cases hs : h.slot? p key with
    | none =>
      rw [hs] at hslot
      simp [isReactive, cell?, hs, hslot]
    | some s =>
      rw [hs] at hslot
      rw [isReactive_of_slot? hslot, isReactive_of_slot? hs]
      cases s with
      | plain u => simp [Slot.observed, Slot.cell?, hr]
      | reactive c => simp [Slot.observed, Slot.cell?]
  · have hslot := hpassed hr
    unfold isReactive cell?
    rw [hslot]
    simp [hr]

theorem converts_intercept (hook : Hook κ) (h : Heap κ) (v : Value) :
    h.Converts hook v none (intercept hook h [v]) where
  size := (mirrors_intercept hook h [v]).size.symm
  arrays := arrays_intercept hook h [v]
  keys p := ((mirrors_intercept hook h [v]).keys p).symm
  isReactive_iff := isReactive_intercept_iff hook h [v]
  turned p key u hs hr := by
    rw [(slot?_intercept_iff hook h [v] p key).1 hr, hs]
    rfl
  passed p key u hs hr := ((slot?_intercept_iff hook h [v] p key).2 hr).trans hs
  kept p key c hs := by
    have hc : h.cell? p key = some c := by
      rw [cell?, hs]
      rfl
    rw [if_neg (by simp)]
    exact slot?_of_cell? (cell?_intercept_of_some hc)

/-- Storing the value in a field that was reactive before changes that value and nothing else. -/
theorem Converts.store (hconv : h.Converts hook v none h') (hc : h.cell? o key = some c) :
    h.Converts hook v (some (o, key)) (h'.store o key v) := by
  -- at the field itself there is a cell, so no plain slot is concerned
  have hplain : ∀ p k u, h.slot? p k = some (.plain u) → ¬ (p = o ∧ k = key) := by
    rintro p k u hs ⟨rfl, rfl⟩
    rw [slot?_of_cell? hc] at hs
    cases hs
  refine
    { size := (size_modifySlots h' o _).trans hconv.size
      arrays := hconv.arrays
      keys := fun p => ?_
      isReactive_iff := fun p k => ?_
      turned := fun p k u hs hr => ?_
      passed := fun p k u hs hr => ?_
      kept := fun p k c' hs => ?_ }
  · rw [Heap.store, modifyCell, keys_slots_modifySlots, hconv.keys p]
    exact fun slots => OrderedMap.keys_modify slots key _
  · rw [← hconv.isReactive_iff p k]
    unfold isReactive
    rw [cell?_store]
    split
    · rw [Option.isSome_map]
    · exact Iff.rfl
  · rw [Heap.store, slot?_modifyCell, if_neg (hplain p k u hs)]
    exact hconv.turned p k u hs hr
  · rw [Heap.store, slot?_modifyCell, if_neg (hplain p k u hs)]
    exact hconv.passed p k u hs hr
  · have hkept := hconv.kept p k c' hs
    rw [if_neg (by simp)] at hkept
    rw [Heap.store, slot?_modifyCell, hkept]
    by_cases hp : p = o ∧ k = key
    · obtain ⟨rfl, rfl⟩ := hp
      rw [if_pos ⟨rfl, rfl⟩, if_pos rfl]
      rfl
    · rw [if_neg hp, if_neg fun heq => hp ?_]
      obtain ⟨rfl, rfl⟩ := Prod.mk.inj (Option.some.inj heq)
      exact ⟨rfl, rfl⟩

end Heap

/-- **Observing turns just the slots that are reached along plain slots.** Observing a value comes
to an end on every heap, and so does a write of another value to a reactive field whose hook only
records, as far as the update of the first subscriber. -/
theorem observing_converts (hook : Hook κ) (v : Value) (w : World κ σ) :
    (∃ h', (observe hook v : Run κ σ Unit) w = some ((), { w with heap := h' }) ∧
      w.heap.Converts hook v none h') ∧
    ∀ (host : Host κ σ) o key c, w.heap.cell? o key = some c → c.value.strictEq v = false →
      c.hook.IsPassive host →
        ∃ h', w.heap.Converts c.hook v (some (o, key)) h' ∧
          ∀ depth, ∃ user, write (host.env (depth + 1)) o key v w =
            Run.holding [.object o] (updateAll (host.env (depth + 1)) c.subscribers)
              { w with heap := h', user } := by
  refine ⟨⟨_, rfl, Heap.converts_intercept hook w.heap v⟩, ?_⟩
  intro host o key c hc hne hpassive
  refine ⟨_, (Heap.converts_intercept c.hook w.heap v).store hc, fun depth => ?_⟩
  obtain ⟨user, htell⟩ := hpassive.tell depth
    (show (Occasion.writing key v).isAccess = true from rfl)
    { w.mapHeap fun h => h.intercept c.hook [v] with
      held := .object o :: v.handles ++ w.held }
  exact ⟨user, write_eq_notifying hc hne htell⟩

namespace Entangled

/-- One hook, which counts what it is told. -/
def host : Host Unit Nat where
  body _ _ := .andThen (.updateUser (· + 1)) fun _ => .done (.ok ())
  handles _ := []

/-- Object 0 is in itself, in object 1 and in an array. Object 1 is in two fields of object 0. What
object 0 has in `seen` is reactive already, so object 2 stays behind it, and object 3 is only in
the array. -/
def start : Slots Unit where
  entries := [("self", .plain (.object ⟨0⟩)), ("left", .plain (.object ⟨1⟩)),
    ("right", .plain (.object ⟨1⟩)), ("list", .plain (.array ⟨0⟩ [.object ⟨3⟩])),
    ("seen", .reactive { value := .object ⟨2⟩, hook := .silent })]

def shared : Slots Unit where
  entries := [("owner", .plain (.object ⟨0⟩))]

def behind : Slots Unit where
  entries := [("leaf", .plain (.bool true))]

/-- The field that object 0 is written to. -/
def target : Cell Unit where
  value := .null
  hook := .custom ()

def holder : Slots Unit where
  entries := [("target", .reactive target)]

def world : World Unit Nat where
  heap := { objects := ⟨#[start, shared, behind, behind, holder]⟩, arrays := 1 }
  user := 0

/-- From object 0, plain slots lead to objects 0 and 1 alone. -/
theorem eq_of_reachedFrom {p : ObjectId} (hr : world.heap.ReachedFrom [.object ⟨0⟩] p) :
    p = ⟨0⟩ ∨ p = ⟨1⟩ := by
  have hstart : (world.heap.slots ⟨0⟩).plainValues =
      [.object ⟨0⟩, .object ⟨1⟩, .object ⟨1⟩, .array ⟨0⟩ [.object ⟨3⟩]] := rfl
  have hshared : (world.heap.slots ⟨1⟩).plainValues = [.object ⟨0⟩] := rfl
  obtain ⟨o, hmem, hr⟩ := hr
  obtain rfl := Value.object.inj (List.mem_singleton.mp hmem)
  induction hr with
  | refl => exact .inl rfl
  | tail _ hto ih =>
    rw [← Heap.mem_plainValues_object] at hto
    rcases ih with rfl | rfl
    · rw [hstart] at hto
      simpa using hto
    · rw [hshared] at hto
      exact .inl (Value.object.inj (List.mem_singleton.mp hto))

end Entangled

open Entangled in
/-- Object 0 is written to a field: the slots of objects 0 and 1 turn, the cycle notwithstanding,
and neither what is behind a reactive slot nor what is in an array does. -/
theorem observing_converts_entangled :
    world.heap.cell? ⟨4⟩ "target" = some target ∧
    target.value.strictEq (.object ⟨0⟩) = false ∧
    target.hook.IsPassive host ∧
    ∃ h', (∀ depth, ∃ user, write (host.env (depth + 1)) ⟨4⟩ "target" (.object ⟨0⟩) world =
        some ((), { world with heap := h', user })) ∧
      h'.slot? ⟨0⟩ "self" = some (.reactive { value := .object ⟨0⟩, hook := .custom () }) ∧
      h'.slot? ⟨1⟩ "owner" = some (.reactive { value := .object ⟨0⟩, hook := .custom () }) ∧
      h'.slot? ⟨0⟩ "seen" = some (.reactive { value := .object ⟨2⟩, hook := .silent }) ∧
      h'.slot? ⟨2⟩ "leaf" = some (.plain (.bool true)) ∧
      h'.slot? ⟨3⟩ "leaf" = some (.plain (.bool true)) ∧
      h'.slot? ⟨4⟩ "target" = some (.reactive { target with value := .object ⟨0⟩ }) := by
  have hc : world.heap.cell? ⟨4⟩ "target" = some target := rfl
  have hne : target.value.strictEq (.object ⟨0⟩) = false := rfl
  have hpassive : target.hook.IsPassive host := fun _ _ => ⟨trivial, fun _ => trivial⟩
  obtain ⟨_, hwrites⟩ := observing_converts .silent (.object ⟨0⟩) world
  obtain ⟨h', hconv, hwrite⟩ := hwrites host ⟨4⟩ "target" target hc hne hpassive
  have hself : world.heap.ReachedFrom [.object ⟨0⟩] ⟨0⟩ := ⟨_, List.mem_cons_self, .refl⟩
  have hshared : world.heap.ReachedFrom [.object ⟨0⟩] ⟨1⟩ :=
    ⟨_, List.mem_cons_self, .single ⟨"left", rfl⟩⟩
  refine ⟨hc, hne, hpassive, h', fun depth => ?_, hconv.turned _ _ _ rfl hself,
    hconv.turned _ _ _ rfl hshared, hconv.kept _ _ _ rfl, hconv.passed _ _ _ rfl fun hr => ?_,
    hconv.passed _ _ _ rfl fun hr => ?_, hconv.kept _ _ _ rfl⟩
  · obtain ⟨user, hwrite⟩ := hwrite depth
    exact ⟨user, hwrite⟩
  · rcases eq_of_reachedFrom hr with heq | heq <;> cases heq
  · rcases eq_of_reachedFrom hr with heq | heq <;> cases heq

end DataBinding
