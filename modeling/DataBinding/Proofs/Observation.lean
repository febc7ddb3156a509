import DataBinding.Proofs.Properties
import Mathlib.Logic.Relation

/-!
# How far observing goes

Observing a value follows plain slots that hold objects and stops at slots that are reactive
already: those have been followed before. So a field that was added since, behind a reactive slot,
is not found, and stays plain.

The values that are still to be observed stand in a list. What can be reached from the list along
plain slots is the invariant: when an object is taken off, its plain slots turn reactive, and the
values of these take its place. A way that leads through the object goes on from one of them.
-/

namespace DataBinding

variable {κ σ : Type}

/-! ## Ways through the heap -/

theorem Slots.mem_plainValues {slots : Slots κ} {v : Value} :
    v ∈ slots.plainValues ↔ ∃ key, slots.find? key = some (.plain v) := by
  simp only [plainValues, List.mem_filterMap, OrderedMap.find?_eq_some_iff]
  constructor
  · rintro ⟨⟨key, s⟩, hmem, hv⟩
    cases s with
    | plain v' =>
      obtain rfl := Option.some.inj hv
      exact ⟨key, hmem⟩
    | reactive c => cases hv
  · rintro ⟨key, hmem⟩
    exact ⟨(key, .plain v), hmem, rfl⟩

namespace Heap

/-- An object has another one in a field. -/
def FieldTo (h : Heap κ) (p q : ObjectId) : Prop := ∃ key, h.peek p key = .object q

/-- An object has another one in a plain slot. -/
def PlainTo (h : Heap κ) (p q : ObjectId) : Prop := ∃ key, h.slot? p key = some (.plain (.object q))

/-- From an object one gets to another one through fields that hold objects. -/
def Reaches (h : Heap κ) : ObjectId → ObjectId → Prop := Relation.ReflTransGen h.FieldTo

/-- From an object one gets to another one through plain slots alone. -/
def ReachesPlainly (h : Heap κ) : ObjectId → ObjectId → Prop := Relation.ReflTransGen h.PlainTo

/-- An object can be reached through plain slots from one of some values. -/
def ReachedFrom (h : Heap κ) (values : List Value) (p : ObjectId) : Prop :=
  ∃ o, .object o ∈ values ∧ h.ReachesPlainly o p

/-- All fields of an object are reactive. -/
def AllReactive (h : Heap κ) (o : ObjectId) : Prop :=
  ∀ key ∈ (h.slots o).keys, h.isReactive o key = true

variable {h : Heap κ} {hook : Hook κ} {o p q : ObjectId} {values rest : List Value}

theorem mem_keys_iff {key : String} :
    key ∈ (h.slots o).keys ↔ ∃ s, h.slot? o key = some s :=
  (OrderedMap.contains_iff _ key).symm.trans Option.isSome_iff_exists

theorem isReactive_of_slot? {key : String} {s : Slot κ} (hs : h.slot? o key = some s) :
    h.isReactive o key = s.cell?.isSome := by
  rw [isReactive, cell?, hs]
  rfl

/-- A plain slot is against all being reactive. -/
theorem AllReactive.not_plain (ho : h.AllReactive o) {key : String} {v : Value} :
    h.slot? o key ≠ some (.plain v) := by
  intro hs
  have hreactive := ho key (mem_keys_iff.mpr ⟨_, hs⟩)
  rw [isReactive_of_slot? hs] at hreactive
  cases hreactive

theorem mem_plainValues_object :
    .object q ∈ (h.slots o).plainValues ↔ h.PlainTo o q :=
  Slots.mem_plainValues

/-- When an object has been observed, only its own plain slots are gone. -/
theorem plainTo_observeObject :
    (h.observeObject hook o).PlainTo p q ↔ p ≠ o ∧ h.PlainTo p q := by
  unfold PlainTo
  simp only [slot?_observeObject]
  by_cases hp : o = p
  · subst hp
    simp only [if_true, ne_eq, not_true_eq_false, false_and, iff_false, not_exists]
    intro key hs
    obtain ⟨s, _, hobserved⟩ := Option.map_eq_some_iff.mp hs
    cases s <;> cases hobserved
  · simp [hp, Ne.symm hp]

theorem ReachesPlainly.of_observeObject (hr : (h.observeObject hook o).ReachesPlainly p q) :
    h.ReachesPlainly p q :=
  Relation.ReflTransGen.mono (fun _ _ hto => (plainTo_observeObject.mp hto).2) p q hr

/-- A way either ends at an object, or goes on from one of its plain slots, or goes past it. The
part that is left of it does not use the slots of the object. -/
theorem ReachesPlainly.through (hook : Hook κ) (o : ObjectId) (hr : h.ReachesPlainly p q) :
    q = o ∨ (∃ p', h.PlainTo o p' ∧ (h.observeObject hook o).ReachesPlainly p' q) ∨
      (h.observeObject hook o).ReachesPlainly p q := by
  induction hr using Relation.ReflTransGen.head_induction_on with
  | refl => exact .inr (.inr .refl)
  | @head a b hto _ ih =>
    rcases ih with hend | hthrough | hpast
    · exact .inl hend
    · exact .inr (.inl hthrough)
    · by_cases ha : a = o
      · exact .inr (.inl ⟨b, ha ▸ hto, hpast⟩)
      · exact .inr (.inr (hpast.head (plainTo_observeObject.mpr ⟨ha, hto⟩)))

/-- Taking an object off the list, for the values of its plain slots, loses only the object. -/
theorem reachedFrom_observeObject (hook : Hook κ) :
    h.ReachedFrom (.object o :: rest) p ↔
      p = o ∨ (h.observeObject hook o).ReachedFrom ((h.slots o).plainValues ++ rest) p := by
  constructor
  · rintro ⟨a, hmem, hr⟩
    rcases hr.through hook o with hend | ⟨b, hto, hb⟩ | hpast
    · exact .inl hend
    · exact .inr ⟨b, List.mem_append_left _ (mem_plainValues_object.mpr hto), hb⟩
    · rcases List.mem_cons.mp hmem with hhead | hrest
      · obtain rfl := Value.object.inj hhead
        -- from the object itself there is no way any more
        rcases hpast.cases_head with hend | ⟨b, hto, _⟩
        · exact .inl hend.symm
        · exact absurd rfl (plainTo_observeObject.mp hto).1
      · exact .inr ⟨a, List.mem_append_right _ hrest, hpast⟩
  · rintro (rfl | ⟨a, hmem, hr⟩)
    · exact ⟨p, List.mem_cons_self, .refl⟩
    · rcases List.mem_append.mp hmem with hplain | hrest
      · exact ⟨o, List.mem_cons_self, hr.of_observeObject.head (mem_plainValues_object.mp hplain)⟩
      · exact ⟨a, List.mem_cons_of_mem _ hrest, hr.of_observeObject⟩

/-- An object without plain slots can be taken off the list. -/
theorem reachedFrom_of_plainValues_eq_nil (ho : (h.slots o).plainValues = []) :
    h.ReachedFrom (.object o :: rest) p ↔ p = o ∨ h.ReachedFrom rest p := by
  rw [reachedFrom_observeObject .silent, observeObject_of_plainValues_eq_nil .silent ho, ho,
    List.nil_append]

theorem reachedFrom_of_not_object {v : Value} (hv : ∀ o, v ≠ .object o) :
    h.ReachedFrom (v :: rest) p ↔ h.ReachedFrom rest p := by
  constructor
  · rintro ⟨a, hmem, hr⟩
    rcases List.mem_cons.mp hmem with hhead | hrest
    · exact absurd hhead.symm (hv a)
    · exact ⟨a, hrest, hr⟩
  · rintro ⟨a, hmem, hr⟩
    exact ⟨a, List.mem_cons_of_mem _ hmem, hr⟩

/-! ## What is observed -/

/-- **Observing turns what can be reached through plain slots, and nothing else.** -/
theorem slot?_intercept_iff (hook : Hook κ) (h : Heap κ) (values : List Value) (p : ObjectId)
    (key : String) :
    (h.ReachedFrom values p →
      (intercept hook h values).slot? p key = (h.slot? p key).map (Slot.observed hook)) ∧
    (¬ h.ReachedFrom values p → (intercept hook h values).slot? p key = h.slot? p key) := by
  -- along the list of values, as it is worked off
  fun_induction intercept hook h values with
  | case1 h =>
    refine ⟨fun hr => ?_, fun _ => rfl⟩
    obtain ⟨o, hmem, _⟩ := hr
    exact absurd hmem List.not_mem_nil
  | case2 h o rest hnone ih =>
    rw [reachedFrom_of_plainValues_eq_nil hnone]
    have hsame := slot?_observeObject h hook o o key
    rw [if_pos rfl, observeObject_of_plainValues_eq_nil hook hnone] at hsame
    refine ⟨fun hr => ?_, fun hr => ih.2 fun hrest => hr (.inr hrest)⟩
    by_cases hrest : h.ReachedFrom rest p
    · exact ih.1 hrest
    · obtain rfl := hr.resolve_right hrest
      exact (ih.2 hrest).trans hsame
  | case3 h o rest hsome ih =>
    rw [reachedFrom_observeObject hook]
    rw [slot?_observeObject] at ih
    by_cases hp : o = p
    · subst hp
      rw [if_pos rfl, Option.map_map,
        show Slot.observed hook ∘ Slot.observed hook = Slot.observed hook from
          funext (Slot.observed_observed hook)] at ih
      refine ⟨fun _ => ?_, fun hr => absurd (.inl rfl) hr⟩
      exact (em _).elim ih.1 ih.2
    · rw [if_neg hp] at ih
      exact ⟨fun hr => ih.1 (hr.resolve_left (Ne.symm hp)), fun hr => ih.2 fun h => hr (.inr h)⟩
  | case4 h v rest hv ih =>
    rw [reachedFrom_of_not_object hv]
    exact ih

/-- An object has only reactive fields afterwards if it had before, or is reached. -/
theorem allReactive_intercept (hook : Hook κ) (h : Heap κ) (values : List Value) (p : ObjectId) :
    (intercept hook h values).AllReactive p ↔ h.AllReactive p ∨ h.ReachedFrom values p := by
  have hkeys := (mirrors_intercept hook h values).keys p
  unfold AllReactive
  rw [← hkeys]
  constructor
  · intro hall
    by_cases hr : h.ReachedFrom values p
    · exact .inr hr
    · refine .inl fun key hkey => ?_
      have hreactive := hall key hkey
      unfold isReactive cell? at hreactive ⊢
      rwa [(slot?_intercept_iff hook h values p key).2 hr] at hreactive
  · rintro (hall | hr) key hkey
    · exact (LastsIn.intercept hook h values).isReactive (hall key hkey)
    · obtain ⟨s, hs⟩ := mem_keys_iff.mp hkey
      have hslot := (slot?_intercept_iff hook h values p key).1 hr
      rw [hs] at hslot
      rw [isReactive_of_slot? hslot]
      cases s <;> rfl

/-- Nothing is nearer or farther for having been observed. -/
theorem reaches_intercept (hook : Hook κ) (h : Heap κ) (values : List Value) :
    (intercept hook h values).Reaches = h.Reaches := by
  have hto : (intercept hook h values).FieldTo = h.FieldTo := by
    funext p q
    simp only [FieldTo, peek_intercept]
  rw [Reaches, hto, Reaches]

/-- Where reactive fields hold only objects whose fields are all reactive, what is reached at all
and has a plain field is reached through plain slots. -/
theorem Reaches.plainly {data : ObjectId}
    (hbehind : ∀ o key q, h.Reaches data o → h.isReactive o key = true →
      h.peek o key = .object q → h.AllReactive q)
    (hr : h.Reaches data p) : h.AllReactive p ∨ h.ReachesPlainly data p := by
  induction hr with
  | refl => exact .inr .refl
  | @tail a b hreached hto ih =>
    obtain ⟨key, hkey⟩ := hto
    cases hs : h.slot? a key with
    | none =>
      rw [peek, hs] at hkey
      cases hkey
    | some s =>
      cases s with
      | reactive c =>
        exact .inl (hbehind a key b hreached (isReactive_of_slot? hs) hkey)
      | plain v =>
        have hv : v = .object b := by simpa [peek, hs, Slot.value] using hkey
        rcases ih with hall | hplain
        · exact absurd hs hall.not_plain
        · exact .inr (hplain.tail ⟨key, hv ▸ hs⟩)

end Heap

/-! ## Fields that notify -/

/-- A field notifies: a watcher that reads it while collecting is subscribed, and a write of
another value stores the value and then updates all that were subscribed. -/
structure World.Notifies (env : Env κ σ) (w : World κ σ) (o : ObjectId) (key : String) : Prop where
  subscribes : ∀ i v w', read env o key { w with current := some i } = some (v, w') →
    w.heap.subscribers o key ++ [i] <+: w'.heap.subscribers o key
  updates : ∀ v w', (w.heap.peek o key).strictEq v = false →
    write env o key v w = some ((), w') →
      ∃ w₁ w₂, w₁.heap.peek o key = v ∧
        w.heap.subscribers o key <+: w₁.heap.subscribers o key ∧
        updateAll env (w₁.heap.subscribers o key) w₁ = some ((), w₂) ∧
        w' = { w₂ with held := w.held }

section

variable {host : Host κ σ} {depth : Nat} {o : ObjectId} {key : String} {w w' : World κ σ}
  {v : Value}

/-- A read of a reactive field subscribes whoever is collecting, whatever the hook does then. -/
theorem read_subscribes {i : WatcherId} {c : Cell κ} (hc : w.heap.cell? o key = some c)
    (hcurrent : w.current = some i) (hread : read (host.env depth) o key w = some (v, w')) :
    w.heap.subscribers o key ++ [i] <+: w'.heap.subscribers o key := by
  obtain ⟨s, hs, hcell⟩ := Option.bind_eq_some_iff.mp hc
  cases s with
  | plain v => cases hcell
  | reactive c' =>
    obtain rfl := Option.some.inj hcell
    obtain ⟨_, _, hget, hread⟩ := Run.bind_eq_some.mp hread
    obtain ⟨rfl, rfl⟩ := Run.get_eq_some.mp hget
    rw [hs] at hread
    obtain ⟨_, w₁, hsub, hread⟩ := Run.bind_eq_some.mp hread
    obtain ⟨_, w₂, htell, hread⟩ := Run.bind_eq_some.mp hread
    obtain ⟨_, rfl⟩ := Run.pure_eq_some.mp hread
    have hheap : w₁.heap = w.heap.subscribe o key i := by
      rw [← Run.modify_eq_some.mp hsub, World.subscribeCurrent, hcurrent]
    have hlist : w₁.heap.subscribers o key = w.heap.subscribers o key ++ [i] := by
      rw [hheap, Heap.subscribers, Heap.cell?_subscribe, if_pos ⟨rfl, rfl⟩, hc,
        Heap.subscribers_of_cell? hc]
      rfl
    have htold := ((host.env_echoes w₁ depth).tell c'.hook (.reading key c'.value)).holding
      (.object o :: c'.value.handles) (.refl w₁)
    rw [← hlist]
    exact (htold.2 htell).lasts.heap.subscribers o key

/-- A write of another value stores it, and then updates all that are subscribed. -/
theorem write_updates {c : Cell κ} (hc : w.heap.cell? o key = some c)
    (hne : c.value.strictEq v = false)
    (hwrite : write (host.env depth) o key v w = some ((), w')) :
    ∃ w₁ w₂, w₁.heap.peek o key = v ∧ w.heap.subscribers o key <+: w₁.heap.subscribers o key ∧
      updateAll (host.env depth) (w₁.heap.subscribers o key) w₁ = some ((), w₂) ∧
      w' = { w₂ with held := w.held } := by
  rw [write_eq_overwrite hc hne] at hwrite
  obtain ⟨_, w₁, hintercept, hwrite⟩ := Run.bind_eq_some.mp hwrite
  obtain rfl := Run.modify_eq_some.mp hintercept
  obtain ⟨_, w₂, htell, hwrite⟩ := Run.bind_eq_some.mp hwrite
  obtain ⟨_, w₃, hstore, hwrite⟩ := Run.bind_eq_some.mp hwrite
  obtain rfl := Run.modify_eq_some.mp hstore
  obtain ⟨w₄, hnotify, rfl⟩ := Run.holding_eq_some.mp hwrite
  obtain ⟨_, _, hget, hall⟩ := Run.bind_eq_some.mp hnotify
  obtain ⟨rfl, rfl⟩ := Run.get_eq_some.mp hget
  -- up to the moment the value is stored, the field and its list last
  have htold := ((host.env_echoes _ depth).tell c.hook (.writing key v)).holding
    (.object o :: v.handles) (.refl (w.mapHeap fun h => h.intercept c.hook [v]))
  have hheld : w₂.held = w.held := by
    obtain ⟨w₅, _, rfl⟩ := Run.holding_eq_some.mp htell
    rfl
  have hlasts : w.heap.LastsIn w₂.heap :=
    (Heap.LastsIn.intercept c.hook w.heap [v]).trans (htold.2 htell).lasts.heap
  obtain ⟨c', hc', _⟩ := hlasts.field hc
  refine ⟨_, w₄, ?_, ?_, hall, by rw [← hheld]; rfl⟩
  · exact (Heap.peek_store hc' v o key).trans (if_pos ⟨rfl, rfl⟩)
  · show _ <+: (w₂.heap.store o key v).subscribers o key
    rw [Heap.subscribers_store]
    exact hlasts.subscribers o key

/-- **The fields that notify are the reactive ones.** -/
theorem notifies_iff (host : Host κ σ) (depth : Nat) (w : World κ σ) (o : ObjectId)
    (key : String) :
    w.Notifies (host.env depth) o key ↔ w.heap.isReactive o key = true := by
  constructor
  · intro hn
    by_contra hplain
    have hc : w.heap.cell? o key = none := by
      simpa [Heap.isReactive] using hplain
    have hnobody : w.heap.subscribers o key = [] := by
      rw [Heap.subscribers, hc]
      rfl
    -- a read of a field that is not reactive leaves everything as it is
    obtain ⟨v, hread⟩ : ∃ v, read (host.env depth) o key { w with current := some ⟨0⟩ } =
        some (v, { w with current := some ⟨0⟩ }) := by
      unfold read
      rw [Run.get_bind]
      cases hs : w.heap.slot? o key with
      | none => exact ⟨.null, rfl⟩
      | some s =>
        cases s with
        | plain v => exact ⟨v, rfl⟩
        | reactive c =>
          rw [Heap.cell?, hs] at hc
          cases hc
    have hprefix := hn.subscribes _ v _ hread
    rw [hnobody] at hprefix
    exact absurd (List.prefix_nil.mp hprefix) (by simp)
  · intro hreactive
    obtain ⟨c, hc⟩ := Option.isSome_iff_exists.mp hreactive
    refine ⟨fun i v w' hread => read_subscribes (w := { w with current := some i }) hc rfl hread,
      fun v w' hne hwrite => ?_⟩
    rw [Heap.peek_of_cell? hc] at hne
    exact write_updates hc hne hwrite

end

/-! ## What the compiler sees -/

/-- **What the compiler sees.** Compiling starts in the world in which the data has been observed.
An object that can be reached from the data has only reactive fields then, just if it had only such
fields before, or can be reached along fields that were plain: a plain field behind a reactive one
is not found. So nothing is missed if what reactive fields hold has only reactive fields, as it is
on data that nobody has observed before. A field notifies if it is reactive, then and from then
on. -/
theorem compiler_sees (host : Host κ σ) (depth : Nat) (place : Mount) (hook : Hook κ) (kit : Kit κ)
    (w : World κ σ) (root : NodeId) (hplace : place.resolve w.document = .ok root) :
    let seen := w.observing hook kit.data
    mount (host.env depth) place hook kit w =
        (compile (host.env depth) kit root >>= takeKeys kit root) seen ∧
      (∀ o, seen.heap.Reaches kit.data o →
        (seen.heap.AllReactive o ↔
          w.heap.AllReactive o ∨ w.heap.ReachesPlainly kit.data o)) ∧
      ((∀ o key q, w.heap.Reaches kit.data o → w.heap.isReactive o key = true →
          w.heap.peek o key = .object q → w.heap.AllReactive q) →
        ∀ o, seen.heap.Reaches kit.data o → seen.heap.AllReactive o) ∧
      ∀ o key, (∀ d, seen.Notifies (host.env d) o key ↔ seen.heap.isReactive o key = true) ∧
        (seen.heap.isReactive o key = true → ∀ later, seen.LastsIn later →
          ∀ d, later.Notifies (host.env d) o key) := by
  intro seen
  have hall : ∀ o, seen.heap.AllReactive o ↔
      w.heap.AllReactive o ∨ w.heap.ReachesPlainly kit.data o := by
    intro o
    have hfrom : w.heap.ReachedFrom [.object kit.data] o ↔ w.heap.ReachesPlainly kit.data o := by
      simp [Heap.ReachedFrom]
    rw [← hfrom]
    exact Heap.allReactive_intercept hook w.heap _ o
  have hreaches : seen.heap.Reaches = w.heap.Reaches := Heap.reaches_intercept hook w.heap _
  refine ⟨mount_of_ok hplace _ hook kit, fun o _ => hall o, fun hbehind o ho => ?_, fun o key =>
    ⟨fun d => notifies_iff host d seen o key, fun hreactive later hlater d => ?_⟩⟩
  · rw [hreaches] at ho
    exact (hall o).mpr (ho.plainly hbehind)
  · exact (notifies_iff host d later o key).mpr (hlater.heap.isReactive hreactive)

namespace Belated

def host : Host Unit Unit where
  body _ _ := .done (.ok ())
  handles _ := []

/-- A node to mount on, and some data: object 1. It is observed with object 0 in its field `inner`.
After that object 0 gets a field, and so does the data: object 2, which nobody has observed. -/
def program : Program Unit Unit Unit :=
  .andThen (.request (.newNode (.ofTag "div"))) fun _ =>
  .andThen (.request .newObject) fun inner =>
  .andThen (.request .newObject) fun data =>
  .andThen (.request (.write data "inner" (.object inner))) fun _ =>
  .andThen (.request (.observe .silent (.object data))) fun _ =>
  .andThen (.request (.write inner "late" (.bool true))) fun _ =>
  .andThen (.request .newObject) fun other =>
  .andThen (.request (.write other "field" (.bool true))) fun _ =>
  .request (.write data "other" (.object other))

/-- The data before it is observed, and after. -/
def bare : Slots Unit where
  entries := [("inner", .plain (.object ⟨0⟩))]

def observed : Slots Unit where
  entries := [("inner", .reactive { value := .object ⟨0⟩, hook := .silent })]

def inner : Slots Unit where
  entries := [("late", .plain (.bool true))]

def data : Slots Unit where
  entries := [("inner", .reactive { value := .object ⟨0⟩, hook := .silent }),
    ("other", .plain (.object ⟨2⟩))]

def other : Slots Unit where
  entries := [("field", .plain (.bool true))]

def page : Document Unit := ⟨#[{ content := .element "div" ∅ "" }]⟩

/-- The world that the program leaves. -/
def world : World Unit Unit where
  heap := { objects := ⟨#[inner, data, other]⟩ }
  document := page
  user := ()

def pageKit : Kit Unit := { data := ⟨1⟩ }

theorem intercept_bare : Heap.intercept .silent { objects := ⟨#[∅, bare]⟩ } [.object ⟨1⟩] =
    { objects := ⟨#[∅, observed]⟩ } := by
  have hbare : ((({ objects := ⟨#[∅, bare]⟩ } : Heap Unit)).slots ⟨1⟩).plainValues =
      [.object ⟨0⟩] := rfl
  have hempty : ((({ objects := ⟨#[∅, bare]⟩ } : Heap Unit).observeObject .silent ⟨1⟩).slots
      ⟨0⟩).plainValues = [] := rfl
  rw [Heap.intercept, hbare, if_neg (List.cons_ne_nil _ _), List.append_nil, Heap.intercept,
    if_pos hempty, Heap.intercept]
  rfl

theorem run_program : host.run 1 program { user := () } = some ((), world) := by
  refine Run.bind_eq_some.mpr ⟨⟨0⟩, _, rfl, ?_⟩
  refine Run.bind_eq_some.mpr ⟨⟨0⟩, _, rfl, ?_⟩
  refine Run.bind_eq_some.mpr ⟨⟨1⟩, _, rfl, ?_⟩
  refine Run.bind_eq_some.mpr ⟨(), _, rfl, ?_⟩
  refine Run.bind_eq_some.mpr
    ⟨(), { heap := { objects := ⟨#[∅, observed]⟩ }, document := page, user := () }, ?_, ?_⟩
  · refine Run.modify_eq_some.mpr ?_
    exact congrArg (fun heap => ({ heap, document := page, user := () } : World Unit Unit))
      intercept_bare
  refine Run.bind_eq_some.mpr ⟨(), _, rfl, ?_⟩
  refine Run.bind_eq_some.mpr ⟨⟨2⟩, _, rfl, ?_⟩
  refine Run.bind_eq_some.mpr ⟨(), _, rfl, ?_⟩
  rfl

/-- From the data, plain slots lead to object 2 and no farther. -/
theorem not_reachesPlainly : ¬ world.heap.ReachesPlainly ⟨1⟩ ⟨0⟩ := by
  have hdata : (world.heap.slots ⟨1⟩).plainValues = [.object ⟨2⟩] := rfl
  have hother : (world.heap.slots ⟨2⟩).plainValues = [.bool true] := rfl
  intro hr
  rcases hr.cases_head with heq | ⟨p, hto, hr⟩
  · cases heq
  · rw [← Heap.mem_plainValues_object, hdata] at hto
    obtain rfl := Value.object.inj (List.mem_singleton.mp hto)
    rcases hr.cases_head with heq | ⟨q, hto, _⟩
    · cases heq
    · rw [← Heap.mem_plainValues_object, hother] at hto
      cases List.mem_singleton.mp hto

end Belated

open Belated in
/-- Object 2, which was not observed before, has been observed when compiling starts. -/
theorem compiler_sees_belated :
    host.run 1 program { user := () } = some ((), world) ∧
    ¬ world.heap.AllReactive ⟨2⟩ ∧
    (world.observing .silent ⟨1⟩).heap.AllReactive ⟨2⟩ ∧
    (world.observing .silent ⟨1⟩).Notifies (host.env 1) ⟨2⟩ "field" := by
  have hplain : world.heap.slot? ⟨2⟩ "field" = some (.plain (.bool true)) := rfl
  have hto : world.heap.PlainTo ⟨1⟩ ⟨2⟩ := ⟨"other", rfl⟩
  obtain ⟨_, hall, _, hnotify⟩ := compiler_sees host 1 (.node ⟨0⟩) .silent pageKit world ⟨0⟩ rfl
  have hreaches : (world.observing .silent ⟨1⟩).heap.Reaches ⟨1⟩ ⟨2⟩ := by
    show (world.heap.intercept .silent _).Reaches ⟨1⟩ ⟨2⟩
    rw [Heap.reaches_intercept]
    exact .single ⟨"other", rfl⟩
  have hreactive := (hall ⟨2⟩ hreaches).mpr (.inr (.single hto))
  refine ⟨run_program, fun h => h.not_plain hplain, hreactive, ?_⟩
  refine ((hnotify ⟨2⟩ "field").1 1).mpr (hreactive "field" ?_)
  rw [World.observing, World.mapHeap, ← (Heap.mirrors_intercept _ _ _).keys]
  decide

open Belated in
/-- The field that object 0 was given after it was observed is plain when compiling starts, though
the data leads to it. -/
theorem compiler_sees_late_field :
    host.run 1 program { user := () } = some ((), world) ∧
    mount (host.env 1) (.node ⟨0⟩) .silent pageKit world =
      (compile (host.env 1) pageKit ⟨0⟩ >>= takeKeys pageKit ⟨0⟩)
        (world.observing .silent pageKit.data) ∧
    (world.observing .silent pageKit.data).heap.Reaches pageKit.data ⟨0⟩ ∧
    (world.observing .silent pageKit.data).heap.slot? ⟨0⟩ "late" = some (.plain (.bool true)) ∧
    ¬ (world.observing .silent pageKit.data).heap.AllReactive ⟨0⟩ ∧
    ¬ (world.observing .silent pageKit.data).Notifies (host.env 1) ⟨0⟩ "late" := by
  have hunreached : ¬ world.heap.ReachedFrom [.object ⟨1⟩] ⟨0⟩ := by
    rintro ⟨o, hmem, hr⟩
    obtain rfl := Value.object.inj (List.mem_singleton.mp hmem)
    exact not_reachesPlainly hr
  have hlate : (world.observing .silent pageKit.data).heap.slot? ⟨0⟩ "late" =
      some (.plain (.bool true)) :=
    (Heap.slot?_intercept_iff .silent world.heap _ ⟨0⟩ "late").2 hunreached
  refine ⟨run_program, mount_of_ok rfl _ _ _, ?_, hlate, fun h => h.not_plain hlate, ?_⟩
  · show (world.heap.intercept .silent _).Reaches ⟨1⟩ ⟨0⟩
    rw [Heap.reaches_intercept]
    exact .single ⟨"inner", rfl⟩
  · rw [notifies_iff, Heap.isReactive_of_slot? hlate]
    exact Bool.false_ne_true

end DataBinding
