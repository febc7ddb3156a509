import DataBinding.Proofs.Accesses
import DataBinding.Proofs.Scalars

/-!
# What a write and an update do

A write either sets a plain field, or finds the value strictly equal and does nothing, or stores
the value and updates the watchers that are subscribed at that moment. An update notes the value
that its key has now; if that is a change, it reacts.
-/

namespace DataBinding

variable {κ σ : Type}

namespace World

theorem watcher?_of_watchers {w w' : World κ σ} (h : w'.watchers = w.watchers) (i : WatcherId) :
    w'.watcher? i = w.watcher? i := by
  unfold watcher?
  rw [h]

theorem watcher?_setLast (w : World κ σ) (i : WatcherId) (v : Value) (j : WatcherId) :
    (w.setLast i v).watcher? j =
      if i = j then (w.watcher? j).map fun x => { x with last := v } else w.watcher? j := by
  obtain ⟨i⟩ := i
  obtain ⟨j⟩ := j
  simp only [watcher?, setLast, Table.find?_modify, WatcherId.mk.injEq]

theorem watcher?_setLast_self {w : World κ σ} {i : WatcherId} {x : Watcher κ}
    (hx : w.watcher? i = some x) (v : Value) :
    (w.setLast i v).watcher? i = some { x with last := v } := by
  rw [watcher?_setLast, if_pos rfl, hx]
  rfl

theorem watcher?_setLast_of_ne (w : World κ σ) {i j : WatcherId} (hij : ¬ i = j) (v : Value) :
    (w.setLast i v).watcher? j = w.watcher? j := by
  rw [watcher?_setLast, if_neg hij]

theorem watcher?_push (w : World κ σ) (x : Watcher κ) (j : WatcherId) :
    World.watcher? { w with watchers := w.watchers.push x } j =
      if j = ⟨w.watchers.size⟩ then some x else w.watcher? j := by
  obtain ⟨j⟩ := j
  simp only [watcher?, Table.find?_push, WatcherId.mk.injEq]

theorem lt_size_of_watcher? {w : World κ σ} {i : WatcherId} {x : Watcher κ}
    (h : w.watcher? i = some x) : i.index < w.watchers.size :=
  Table.lt_size_of_find? h

/-- A watcher that is there is not the one that would be built next. -/
theorem ne_next_of_watcher? {w : World κ σ} {i : WatcherId} {x : Watcher κ}
    (h : w.watcher? i = some x) : ¬ i = ⟨w.watchers.size⟩ := by
  rintro rfl
  exact Nat.lt_irrefl _ (lt_size_of_watcher? h)

/-- Building a watcher leaves those that are there as they are. -/
theorem watcher?_push_of_some {w : World κ σ} {i : WatcherId} {x : Watcher κ}
    (h : w.watcher? i = some x) (y : Watcher κ) :
    World.watcher? { w with watchers := w.watchers.push y } i = some x := by
  rw [watcher?_push, if_neg (ne_next_of_watcher? h), h]

/-- Being true of all watchers can be checked. -/
theorem forall_watcher_iff {w : World κ σ} {P : WatcherId → Watcher κ → Prop} :
    (∀ k < w.watchers.size, ∀ x ∈ w.watcher? ⟨k⟩, P ⟨k⟩ x) ↔
      ∀ i x, w.watcher? i = some x → P i x :=
  ⟨fun h i x hx => h i.index (lt_size_of_watcher? hx) x hx, fun h k _ x hx => h ⟨k⟩ x hx⟩

/-- What is held by an operation in progress is alive. -/
theorem isAlive_of_mem_held {w : World κ σ} {handles : σ → List Handle} {o : ObjectId}
    (h : .object o ∈ w.held) : w.isAlive handles o = true :=
  isAlive_of_mem_roots (by simp [roots, h])

end World

variable {env : Env κ σ}

/-- The cases of an update: nothing to do, nothing new, or a reaction. -/
theorem update_eq_some {i : WatcherId} {w w' : World κ σ} {u : Unit}
    (h : update env i w = some (u, w')) :
    (w' = w ∧ ∀ x, w.watcher? i = some x → w.isAlive env.handles x.data = false) ∨
    ∃ x, w.watcher? i = some x ∧
      ((x.last.strictEq (w.heap.peek x.data x.key) = true ∧
          w' = w.setLast i (w.heap.peek x.data x.key)) ∨
        (x.last.strictEq (w.heap.peek x.data x.key) = false ∧ ∃ held w₁,
          Run.holding held (x.react env (w.heap.peek x.data x.key))
            (w.setLast i (w.heap.peek x.data x.key)) = some ((), w₁) ∧ w' = w₁)) := by
  obtain ⟨_, _, hget, h⟩ := Run.bind_eq_some.mp h
  obtain ⟨rfl, rfl⟩ := Run.get_eq_some.mp hget
  cases hx : w.watcher? i with
  | none =>
    rw [hx] at h
    refine .inl ⟨(Run.pure_eq_some.mp h).2.symm, fun x hsome => ?_⟩
    cases hsome
  | some x =>
    rw [hx] at h
    dsimp only at h
    -- the data may be gone, and then the update does nothing
    cases hl : w.isAlive env.handles x.data with
    | false =>
      rw [hl] at h
      refine .inl ⟨(Run.pure_eq_some.mp h).2.symm, fun y hy => ?_⟩
      cases hy
      exact hl
    | true =>
      rw [hl] at h
      refine .inr ⟨x, rfl, ?_⟩
      obtain ⟨_, w₁, hset, h⟩ := Run.bind_eq_some.mp h
      obtain rfl := Run.modify_eq_some.mp hset
      cases heq : x.last.strictEq (w.heap.peek x.data x.key) with
      | true =>
        rw [heq] at h
        exact .inl ⟨rfl, (Run.pure_eq_some.mp h).2.symm⟩
      | false =>
        rw [heq] at h
        exact .inr ⟨rfl, _, w', h, rfl⟩

section

variable {w : World κ σ} {i : WatcherId} {x : Watcher κ}

/-- An update where there is no watcher, or its data is gone. -/
theorem update_eq_self
    (hdead : ∀ x, w.watcher? i = some x → w.isAlive env.handles x.data = false) :
    update env i w = some ((), w) := by
  refine Run.bind_eq_some.mpr ⟨w, w, Run.get_eq_some.mpr ⟨rfl, rfl⟩, ?_⟩
  cases hx : w.watcher? i with
  | none => rfl
  | some x =>
    dsimp only
    rw [hdead x hx]
    rfl

/-- An update that finds nothing new. -/
theorem update_eq_setLast (hx : w.watcher? i = some x)
    (halive : w.isAlive env.handles x.data = true)
    (heq : x.last.strictEq (w.heap.peek x.data x.key) = true) :
    update env i w = some ((), w.setLast i (w.heap.peek x.data x.key)) := by
  refine Run.bind_eq_some.mpr ⟨w, w, Run.get_eq_some.mpr ⟨rfl, rfl⟩, ?_⟩
  rw [hx]
  dsimp only
  rw [if_pos halive]
  refine Run.bind_eq_some.mpr ⟨(), _, Run.modify_eq_some.mpr rfl, ?_⟩
  rw [if_pos heq]
  exact Run.pure_eq_some.mpr ⟨rfl, rfl⟩

/-- An update that finds another value is the reaction to it. -/
theorem update_eq_holding (hx : w.watcher? i = some x)
    (halive : w.isAlive env.handles x.data = true)
    (hne : x.last.strictEq (w.heap.peek x.data x.key) = false) :
    update env i w =
      Run.holding (.watcher i :: .object x.data :: (w.heap.peek x.data x.key).handles ++
        x.last.handles) (x.react env (w.heap.peek x.data x.key))
        (w.setLast i (w.heap.peek x.data x.key)) := by
  unfold update
  rw [Run.get_bind, hx]
  dsimp only
  rw [if_pos halive, Run.bind_eq_of_eq_some (a := ()) (Run.modify_eq_some.mpr rfl), hne,
    if_neg Bool.false_ne_true]
  rfl

/-- It comes to an end if the reaction does. -/
theorem update_eq_react (hx : w.watcher? i = some x)
    (halive : w.isAlive env.handles x.data = true)
    (hne : x.last.strictEq (w.heap.peek x.data x.key) = false) {w' : World κ σ}
    (hreact : x.react env (w.heap.peek x.data x.key)
      { w.setLast i (w.heap.peek x.data x.key) with
        held := .watcher i :: .object x.data :: (w.heap.peek x.data x.key).handles ++
          x.last.handles ++ w.held } = some ((), w')) :
    update env i w = some ((), { w' with held := w.held }) := by
  rw [update_eq_holding hx halive hne]
  exact Run.holding_eq_some.mpr ⟨w', hreact, rfl⟩

end

/-- Whether a reaction is code of the user's. -/
def Reaction.IsCustom : Reaction κ → Prop
  | .custom _ => True
  | _ => False

instance (r : Reaction κ) : Decidable r.IsCustom :=
  match r with
  | .custom _ => .isTrue trivial
  | .setValue _ | .setText _ | .render _ _ => .isFalse id

/-- Whether a watcher runs code of the user's. -/
def World.RunsCode (w : World κ σ) (i : WatcherId) : Prop :=
  ∃ x, w.watcher? i = some x ∧ x.reaction.IsCustom

instance (w : World κ σ) (i : WatcherId) : Decidable (w.RunsCode i) :=
  inferInstanceAs (Decidable (∃ x ∈ w.watcher? i, x.reaction.IsCustom))

/-- What a watcher of a binding does to the document with a new value. -/
def Watcher.shown (x : Watcher κ) (h : Heap κ) (v : Value) (d : Document κ) : Document κ :=
  match x.reaction with
  | .setValue n => d.setValue n (h.text v)
  | .setText n => d.setText n (h.text v)
  | .render n t => d.setText n (t.rendering h x.data)
  | .custom _ => d

/-- A binding reacts by showing something. A template is read for that, with whoever collects. -/
theorem Env.HooksRead.react_reads (hq : env.HooksRead) {x : Watcher κ} {v : Value}
    {w w' : World κ σ} {u : Unit} (hx : ¬ x.reaction.IsCustom)
    (h : x.react env v w = some (u, w')) :
    ∃ w₁, w.Reads w₁ ∧ w' = { w₁ with document := x.shown w.heap v w.document } := by
  unfold Watcher.react at h
  unfold Watcher.shown
  cases hr : x.reaction with
  | setValue n =>
    rw [hr] at h
    exact ⟨w, .refl w, (Run.modify_eq_some.mp h).symm⟩
  | setText n =>
    rw [hr] at h
    exact ⟨w, .refl w, (Run.modify_eq_some.mp h).symm⟩
  | render n t =>
    rw [hr] at h
    obtain ⟨text, w₁, hrender, h⟩ := Run.bind_eq_some.mp h
    obtain ⟨rfl, hreads⟩ := hq.render_eq_some hrender
    refine ⟨w₁, hreads, ?_⟩
    obtain ⟨places, user, rfl⟩ := hreads
    exact (Run.modify_eq_some.mp h).symm
  | custom code => exact absurd (by rw [hr]; trivial) hx

/-- The cases of an update once more, with what a binding shows. -/
theorem Env.HooksRead.update_reads (hq : env.HooksRead) {i : WatcherId} {w w' : World κ σ}
    {u : Unit} (h : update env i w = some (u, w')) :
    (w' = w ∧ ∀ x, w.watcher? i = some x → w.isAlive env.handles x.data = false) ∨
    ∃ x, w.watcher? i = some x ∧
      ((x.last.strictEq (w.heap.peek x.data x.key) = true ∧
          w' = w.setLast i (w.heap.peek x.data x.key)) ∨
        (x.last.strictEq (w.heap.peek x.data x.key) = false ∧
          ((¬ x.reaction.IsCustom ∧ ∃ w₁, (w.setLast i (w.heap.peek x.data x.key)).Reads w₁ ∧
              w' = { w₁ with
                document := x.shown w.heap (w.heap.peek x.data x.key) w.document }) ∨
            ∃ code held, x.reaction = .custom code ∧
              Run.holding held (discard (env.call code (.changed (w.heap.peek x.data x.key))))
                (w.setLast i (w.heap.peek x.data x.key)) = some (u, w')))) := by
  rcases update_eq_some h with hdead | ⟨x, hx, hsame | ⟨hne, held, w₁, hreact, rfl⟩⟩
  · exact .inl hdead
  · exact .inr ⟨x, hx, .inl hsame⟩
  · refine .inr ⟨x, hx, .inr ⟨hne, ?_⟩⟩
    by_cases hcustom : x.reaction.IsCustom
    · right
      cases hr : x.reaction with
      | custom code =>
        unfold Watcher.react at hreact
        rw [hr] at hreact
        exact ⟨code, held, rfl, hreact⟩
      | setValue n => rw [hr] at hcustom; exact hcustom.elim
      | setText n => rw [hr] at hcustom; exact hcustom.elim
      | render n t => rw [hr] at hcustom; exact hcustom.elim
    · left
      obtain ⟨w₂, h₂, rfl⟩ := Run.holding_eq_some.mp hreact
      obtain ⟨_, ⟨places, user, rfl⟩, rfl⟩ := hq.react_reads hcustom h₂
      exact ⟨hcustom, _, ⟨places, user, rfl⟩, rfl⟩

/-- While nobody collects, a binding shows something and does nothing else. -/
theorem Env.HooksRead.update_cases (hq : env.HooksRead) {i : WatcherId} {w w' : World κ σ}
    {u : Unit} (hcur : w.current = none) (h : update env i w = some (u, w')) :
    (w' = w ∧ ∀ x, w.watcher? i = some x → w.isAlive env.handles x.data = false) ∨
    ∃ x, w.watcher? i = some x ∧
      ((x.last.strictEq (w.heap.peek x.data x.key) = true ∧
          w' = w.setLast i (w.heap.peek x.data x.key)) ∨
        (x.last.strictEq (w.heap.peek x.data x.key) = false ∧
          ((¬ x.reaction.IsCustom ∧ ∃ user, w' = { w.setLast i (w.heap.peek x.data x.key) with
              document := x.shown w.heap (w.heap.peek x.data x.key) w.document, user }) ∨
            ∃ code held, x.reaction = .custom code ∧
              Run.holding held (discard (env.call code (.changed (w.heap.peek x.data x.key))))
                (w.setLast i (w.heap.peek x.data x.key)) = some (u, w')))) := by
  rcases hq.update_reads h with hdead | ⟨x, hx, hsame | ⟨hne, hshows | hcode⟩⟩
  · exact .inl hdead
  · exact .inr ⟨x, hx, .inl hsame⟩
  · obtain ⟨hcustom, w₁, hreads, rfl⟩ := hshows
    obtain ⟨user, rfl⟩ := hreads.of_current_eq_none hcur
    exact .inr ⟨x, hx, .inr ⟨hne, .inl ⟨hcustom, user, rfl⟩⟩⟩
  · exact .inr ⟨x, hx, .inr ⟨hne, .inr hcode⟩⟩

/-- A binding shows a value that is new to it. -/
theorem Env.HooksRead.update_shown (hq : env.HooksRead) {i : WatcherId} {w w' : World κ σ}
    {u : Unit} {x : Watcher κ} (hcur : w.current = none) (h : update env i w = some (u, w'))
    (hx : w.watcher? i = some x) (hcustom : ¬ x.reaction.IsCustom) (hheld : .object x.data ∈ w.held)
    (hne : x.last.strictEq (w.heap.peek x.data x.key) = false) :
    ∃ user, w' = { w.setLast i (w.heap.peek x.data x.key) with
      document := x.shown w.heap (w.heap.peek x.data x.key) w.document, user } := by
  rcases hq.update_cases hcur h with ⟨rfl, hdead⟩ | ⟨y, hy, hupdate⟩
  · have halive := hdead x hx
    rw [World.isAlive_of_mem_held hheld] at halive
    cases halive
  · obtain rfl := Option.some.inj (hx.symm.trans hy)
    rcases hupdate with ⟨heq, _⟩ | ⟨_, ⟨_, hshown⟩ | ⟨code, held, hcode, _⟩⟩
    · rw [hne] at heq
      cases heq
    · exact hshown
    · rw [hcode] at hcustom
      exact absurd trivial hcustom

/-- The update of a watcher that runs no code of the user's notes a value, and may show it. -/
theorem Env.HooksRead.update_plain (hq : env.HooksRead) {i : WatcherId} {w w' : World κ σ}
    {u : Unit} (hcur : w.current = none) (h : update env i w = some (u, w'))
    (hcode : ¬ w.RunsCode i) :
    w' = w ∨ ∃ x, w.watcher? i = some x ∧ w'.heap = w.heap ∧
      w'.watchers = (w.setLast i (w.heap.peek x.data x.key)).watchers := by
  rcases hq.update_cases hcur h with
    ⟨rfl, _⟩ | ⟨x, hx, ⟨_, rfl⟩ | ⟨_, ⟨_, user, rfl⟩ | ⟨code, held, hcustom, _⟩⟩⟩
  · exact .inl rfl
  · exact .inr ⟨x, hx, rfl, rfl⟩
  · exact .inr ⟨x, hx, rfl, rfl⟩
  · refine absurd ⟨x, hx, ?_⟩ hcode
    rw [hcustom]
    trivial

/-! ## Writes -/

/-- The world in which the subscribers of a field are updated: the value is observed and stored,
the object is held, and the hook may have recorded. -/
def World.stored (w : World κ σ) (o : ObjectId) (key : String) (c : Cell κ) (v : Value)
    (user : σ) : World κ σ :=
  { w with
    heap := (w.heap.intercept c.hook [v]).store o key v
    held := .object o :: w.held
    user := user }

theorem World.subscribers_stored (w : World κ σ) (o : ObjectId) (key : String) (c : Cell κ)
    (v : Value) (user : σ) (p : ObjectId) (k : String) :
    (w.stored o key c v user).heap.subscribers p k = w.heap.subscribers p k :=
  (Heap.subscribers_store _ o key v p k).trans (Heap.subscribers_intercept c.hook w.heap [v] p k)

section

variable {env : Env κ σ} {o : ObjectId} {key : String} {c : Cell κ} {v : Value} {w : World κ σ}

/-- A write to a plain or missing field. -/
theorem write_eq_putPlain (hc : w.heap.cell? o key = none) (v : Value) :
    write env o key v w = some ((), w.mapHeap fun h => h.putPlain o key v) := by
  unfold write
  rw [Run.get_bind, hc]
  rfl

/-- A write of what the field has already. -/
theorem write_eq_self (hc : w.heap.cell? o key = some c) (heq : c.value.strictEq v = true) :
    write env o key v w = some ((), w) := by
  unfold write
  rw [Run.get_bind, hc]
  dsimp only
  rw [if_pos heq]
  rfl

theorem write_eq_overwrite (hc : w.heap.cell? o key = some c)
    (hne : c.value.strictEq v = false) :
    write env o key v w = overwrite env o key c v w := by
  unfold write
  rw [Run.get_bind, hc]
  dsimp only
  rw [if_neg (Bool.eq_false_iff.mp hne)]

/-- A write comes as far as the subscribers if the hook of the field only records. -/
theorem write_eq_notifying {user : σ} (hc : w.heap.cell? o key = some c)
    (hne : c.value.strictEq v = false)
    (htell : env.tell c.hook (.writing key v)
      { w.mapHeap fun h => h.intercept c.hook [v] with
        held := .object o :: v.handles ++ w.held } =
      some ((), { w.mapHeap fun h => h.intercept c.hook [v] with
        held := .object o :: v.handles ++ w.held
        user })) :
    write env o key v w =
      Run.holding [.object o] (updateAll env c.subscribers)
        { w with heap := (w.heap.intercept c.hook [v]).store o key v, user } := by
  have hheld : Run.holding (.object o :: v.handles) (env.tell c.hook (.writing key v))
      (w.mapHeap fun h => h.intercept c.hook [v]) =
      some ((), { w.mapHeap fun h => h.intercept c.hook [v] with user }) :=
    Run.holding_eq_some.mpr ⟨_, htell, rfl⟩
  have hnotify : notify env o key (w.stored o key c v user) =
      updateAll env c.subscribers (w.stored o key c v user) := by
    unfold notify
    rw [Run.get_bind, World.subscribers_stored, Heap.subscribers_of_cell? hc]
  rw [write_eq_overwrite hc hne]
  unfold overwrite
  rw [Run.bind_eq_of_eq_some (a := ()) (Run.modify_eq_some.mpr rfl),
    Run.bind_eq_of_eq_some hheld,
    Run.bind_eq_of_eq_some (a := ()) (Run.modify_eq_some.mpr rfl)]
  exact Run.holding_congr hnotify

end

/-- The world in which the subscribers of a field are updated, once the hook has been told: the
value is stored, and the object held. -/
def World.storing (w : World κ σ) (o : ObjectId) (key : String) (v : Value) : World κ σ :=
  { w with heap := w.heap.store o key v, held := .object o :: w.held }

/-- The cases of a write: a plain field, no change, or a change that the subscribers learn of. They
are those who are subscribed when the hook has been told. -/
theorem Env.HooksRead.write_reads (hq : env.HooksRead) {o : ObjectId} {key : String} {v : Value}
    {w w' : World κ σ} {u : Unit} (h : write env o key v w = some (u, w')) :
    (w.heap.cell? o key = none ∧ w' = w.mapHeap fun h => h.putPlain o key v) ∨
    ∃ c, w.heap.cell? o key = some c ∧
      ((c.value.strictEq v = true ∧ w' = w) ∨
        (c.value.strictEq v = false ∧ ∃ w₁ w₂,
          (w.mapHeap fun h => h.intercept c.hook [v]).Reads w₁ ∧
          updateAll env (w₁.heap.subscribers o key) (w₁.storing o key v) = some ((), w₂) ∧
          w' = { w₂ with held := w.held })) := by
  cases hc : w.heap.cell? o key with
  | none =>
    rw [write_eq_putPlain hc] at h
    obtain ⟨_, rfl⟩ := Prod.mk.inj (Option.some.inj h)
    exact .inl ⟨rfl, rfl⟩
  | some c =>
    refine .inr ⟨c, rfl, ?_⟩
    cases heq : c.value.strictEq v with
    | true =>
      rw [write_eq_self hc heq] at h
      obtain ⟨_, rfl⟩ := Prod.mk.inj (Option.some.inj h)
      exact .inl ⟨rfl, rfl⟩
    | false =>
      rw [write_eq_overwrite hc heq] at h
      obtain ⟨_, w₁, hobs, h⟩ := Run.bind_eq_some.mp h
      obtain rfl := Run.modify_eq_some.mp hobs
      obtain ⟨_, w₁, htell, h⟩ := Run.bind_eq_some.mp h
      obtain ⟨_, w₂, hstore, h⟩ := Run.bind_eq_some.mp h
      obtain rfl := Run.modify_eq_some.mp hstore
      obtain ⟨w₃, hnotify, rfl⟩ := Run.holding_eq_some.mp h
      obtain ⟨_, _, hget, hall⟩ := Run.bind_eq_some.mp hnotify
      obtain ⟨rfl, rfl⟩ := Run.get_eq_some.mp hget
      have hreads := hq.holding_tell c.hook rfl _ htell
      -- storing a value subscribes nobody, so the list is the one that the hook left
      have hsubs : (w₁.heap.store o key v).subscribers o key = w₁.heap.subscribers o key :=
        Heap.subscribers_store _ o key v o key
      refine .inr ⟨rfl, w₁, w₃, hreads, ?_, ?_⟩
      · rw [← hsubs]
        exact hall
      · obtain ⟨places, user, rfl⟩ := hreads
        rfl

/-- While nobody collects, the hook leaves the heap alone. -/
theorem Env.HooksRead.write_eq_some (hq : env.HooksRead) {o : ObjectId} {key : String} {v : Value}
    {w w' : World κ σ} {u : Unit} (hcur : w.current = none)
    (h : write env o key v w = some (u, w')) :
    (w.heap.cell? o key = none ∧ w' = w.mapHeap fun h => h.putPlain o key v) ∨
    ∃ c, w.heap.cell? o key = some c ∧
      ((c.value.strictEq v = true ∧ w' = w) ∨
        (c.value.strictEq v = false ∧ ∃ user w₁,
          updateAll env c.subscribers (w.stored o key c v user) = some ((), w₁) ∧
            w' = { w₁ with held := w.held })) := by
  rcases hq.write_reads h with hplain | ⟨c, hc, hsame | ⟨hne, w₁, w₂, hreads, hall, rfl⟩⟩
  · exact .inl hplain
  · exact .inr ⟨c, hc, .inl hsame⟩
  · obtain ⟨user, rfl⟩ := hreads.of_current_eq_none hcur
    have hsubs : (w.heap.intercept c.hook [v]).subscribers o key = c.subscribers :=
      (Heap.subscribers_intercept c.hook w.heap [v] o key).trans (Heap.subscribers_of_cell? hc)
    refine .inr ⟨c, hc, .inr ⟨hne, user, w₂, ?_, rfl⟩⟩
    rw [← hsubs]
    exact hall

/-- The cells after a value is stored: the written one has the value, others stay, and those that
are new have no subscribers. -/
theorem World.cell?_stored {w : World κ σ} {o : ObjectId} {key : String} {c : Cell κ}
    (hc : w.heap.cell? o key = some c) (v : Value) (user : σ) {p : ObjectId} {k : String}
    {c' : Cell κ} (hc' : (w.stored o key c v user).heap.cell? p k = some c') :
    (p = o ∧ k = key ∧ c' = { c with value := v }) ∨
      (¬ (p = o ∧ k = key) ∧ (w.heap.cell? p k = some c' ∨ c'.subscribers = [])) := by
  unfold stored at hc'
  dsimp only at hc'
  rw [Heap.cell?_store] at hc'
  by_cases hp : p = o ∧ k = key
  · rw [if_pos hp] at hc'
    obtain ⟨rfl, rfl⟩ := hp
    rw [Heap.cell?_intercept_of_some hc] at hc'
    exact .inl ⟨rfl, rfl, (Option.some.inj hc').symm⟩
  · rw [if_neg hp] at hc'
    refine .inr ⟨hp, ?_⟩
    rcases Heap.cell?_of_intercept hc' with hold | ⟨_, rfl⟩
    · exact .inl hold
    · exact .inr rfl

theorem peek_stored {w : World κ σ} {o : ObjectId} {key : String} {c : Cell κ}
    (hc : w.heap.cell? o key = some c) (v : Value) (user : σ) (p : ObjectId) (k : String) :
    (w.stored o key c v user).heap.peek p k =
      if p = o ∧ k = key then v else w.heap.peek p k := by
  refine (Heap.peek_store (Heap.cell?_intercept_of_some hc) v p k).trans ?_
  rw [Heap.peek_intercept]

end DataBinding
