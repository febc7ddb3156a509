import DataBinding.Liveness
import DataBinding.Proofs.Fields
import Mathlib.Logic.Relation

/-!
# What keeps a thing alive

Being alive is computed by peeling. Here it is said without peeling: something is alive if it is
held from outside, or if it is one of some things that hold each other up. These are exactly the
things that peeling never gets at, as it stops at a list of things of which none can be taken off.

An object holds the objects in its fields and the subscribers of its fields; a watcher holds the
objects in the value that it saw last.
-/

namespace DataBinding

variable {κ σ : Type}

namespace Heap

/-- An object has another one in a field, by itself or in an array. -/
def Holds (h : Heap κ) (p q : ObjectId) : Prop := ∃ field ∈ h.fields p, q ∈ field.2.objects

/-- From an object one gets to another one through fields. -/
def Leads (h : Heap κ) : ObjectId → ObjectId → Prop := Relation.ReflTransGen h.Holds

theorem holds_of_cell? {h : Heap κ} {p q : ObjectId} {key : String} {c : Cell κ}
    (hc : h.cell? p key = some c) (hq : q ∈ c.value.objects) : h.Holds p q := by
  obtain ⟨s, hs, hcell⟩ := Option.bind_eq_some_iff.mp hc
  refine ⟨(key, s.value), List.mem_map.mpr ⟨(key, s), Entries.mem_of_find? hs, rfl⟩, ?_⟩
  cases s with
  | plain v => cases hcell
  | reactive cell =>
    obtain rfl := Option.some.inj hcell
    exact hq

end Heap

namespace World

variable {w : World κ σ} {roots kept : List Handle}

theorem mem_holdings_object {p : ObjectId} {h : Handle} :
    h ∈ w.holdings (.object p) ↔
      (∃ q, h = .object q ∧ w.heap.Holds p q) ∨
        ∃ i key, h = .watcher i ∧ i ∈ w.heap.subscribers p key := by
  have hfind : ∀ key s, (key, s) ∈ (w.heap.slots p).entries ↔ w.heap.slot? p key = some s :=
    fun key s => ⟨Entries.find?_of_mem (w.heap.slots p).nodup, Entries.mem_of_find?⟩
  simp only [holdings, List.mem_flatMap, slotHandles, List.mem_append, Value.handles, List.mem_map]
  constructor
  · rintro ⟨⟨key, s⟩, hs, ⟨q, hq, rfl⟩ | ⟨i, hi, rfl⟩⟩
    · exact .inl ⟨q, rfl, _, List.mem_map.mpr ⟨_, hs, rfl⟩, hq⟩
    · refine .inr ⟨i, key, rfl, Heap.mem_subscribers.mpr ?_⟩
      cases s with
      | plain v => cases hi
      | reactive c =>
        refine ⟨c, ?_, hi⟩
        rw [Heap.cell?, (hfind key _).mp hs]
        rfl
  · rintro (⟨q, rfl, field, hfield, hq⟩ | ⟨i, key, rfl, hi⟩)
    · obtain ⟨entry, hentry, rfl⟩ := List.mem_map.mp hfield
      exact ⟨entry, hentry, .inl ⟨q, hq, rfl⟩⟩
    · obtain ⟨c, hc, hi⟩ := Heap.mem_subscribers.mp hi
      obtain ⟨s, hs, hcell⟩ := Option.bind_eq_some_iff.mp hc
      refine ⟨(key, s), (hfind key s).mpr hs, .inr ⟨i, ?_, rfl⟩⟩
      rw [hcell]
      exact hi

theorem mem_holdings_watcher {i : WatcherId} {h : Handle} :
    h ∈ w.holdings (.watcher i) ↔
      ∃ x q, w.watcher? i = some x ∧ h = .object q ∧ q ∈ x.last.objects := by
  cases hx : w.watcher? i with
  | none => simp [holdings, hx]
  | some x =>
    simp only [holdings, hx, Option.map_some, Option.getD_some, Value.handles, List.mem_map,
      Option.some.injEq]
    constructor
    · rintro ⟨q, hq, rfl⟩
      exact ⟨x, q, rfl, rfl, hq⟩
    · rintro ⟨_, q, rfl, rfl, hq⟩
      exact ⟨q, hq, rfl⟩

/-! ## Peeling -/

theorem mem_stillHeld {h : Handle} :
    h ∈ w.stillHeld roots kept ↔ h ∈ kept ∧ (h ∈ roots ∨ ∃ g ∈ kept, h ∈ w.holdings g) := by
  simp [stillHeld, List.mem_filter, List.mem_append, List.mem_flatMap]

theorem length_stillHeld_le : (w.stillHeld roots kept).length ≤ kept.length :=
  List.length_filter_le _ _

theorem stillHeld_of_length_eq (h : (w.stillHeld roots kept).length = kept.length) :
    w.stillHeld roots kept = kept :=
  List.filter_eq_self.mpr (List.length_filter_eq_length_iff.mp h)

theorem mem_of_mem_peel {n : Nat} {h : Handle} (hh : h ∈ w.peel roots n kept) : h ∈ kept := by
  induction n generalizing kept with
  | zero => exact hh
  | succ n ih =>
    unfold peel at hh
    dsimp only at hh
    split at hh
    · exact hh
    · exact (mem_stillHeld.mp (ih hh)).1

/-- Given as many rounds as there are things, peeling stops where nothing comes off. -/
theorem stillHeld_peel {n : Nat} (hn : kept.length ≤ n) :
    w.stillHeld roots (w.peel roots n kept) = w.peel roots n kept := by
  induction n generalizing kept with
  | zero =>
    obtain rfl := List.length_eq_zero_iff.mp (Nat.le_zero.mp hn)
    rfl
  | succ n ih =>
    unfold peel
    dsimp only
    split
    · next hsame => exact stillHeld_of_length_eq hsame
    · next hless =>
      have hle : (w.stillHeld roots kept).length ≤ kept.length := length_stillHeld_le
      exact ih (by omega)

/-- Things that exist, each held from outside or by another of them. -/
structure Sustained (w : World κ σ) (roots : List Handle) (K : Handle → Prop) : Prop where
  exist : ∀ h, K h → h ∈ w.things
  held : ∀ h, K h → h ∈ roots ∨ ∃ g, K g ∧ h ∈ w.holdings g

/-- Things that hold each other up are never peeled off. -/
theorem Sustained.mem_peel {K : Handle → Prop} (hK : w.Sustained roots K) {n : Nat}
    (hkept : ∀ h, K h → h ∈ kept) {h : Handle} (hh : K h) : h ∈ w.peel roots n kept := by
  induction n generalizing kept with
  | zero => exact hkept h hh
  | succ n ih =>
    unfold peel
    dsimp only
    split
    · exact hkept h hh
    · refine ih fun g hg => mem_stillHeld.mpr ⟨hkept g hg, ?_⟩
      rcases hK.held g hg with hroot | ⟨g', hg', hholds⟩
      · exact .inl hroot
      · exact .inr ⟨g', hkept g' hg', hholds⟩

/-- An object is alive if and only if it is held from outside, or is one of some things that hold
each other up. -/
theorem isAlive_iff {handles : σ → List Handle} {o : ObjectId} :
    w.isAlive handles o = true ↔
      .object o ∈ w.roots handles ∨ ∃ K, w.Sustained (w.roots handles) K ∧ K (.object o) := by
  simp only [isAlive, Bool.or_eq_true, decide_eq_true_eq]
  refine or_congr Iff.rfl ⟨fun hpeel => ?_, ?_⟩
  · refine ⟨(· ∈ w.peel (w.roots handles) w.things.length w.things), ⟨?_, ?_⟩, hpeel⟩
    · exact fun h hh => mem_of_mem_peel hh
    · intro h hh
      rw [← stillHeld_peel (Nat.le_refl _)] at hh
      exact (mem_stillHeld.mp hh).2
  · rintro ⟨K, hK, ho⟩
    exact hK.mem_peel hK.exist ho

end World

end DataBinding
