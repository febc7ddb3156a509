import DataBinding.Proofs.Enrolling

/-!
# Two environments that cannot be told apart

An environment that checks something and one that does not give the same answers, as long as
what is checked is true. In worlds that are in order this is so for every operation if it is so for
callbacks; and every operation leaves the world in order. So both are proved together, operation
by operation.

Hooks are run while watchers collect, in worlds that are exact but not in order. It is assumed of
them that they touch nothing but the state of the user.
-/

namespace DataBinding

variable {κ σ α β : Type}

open World

/-- In a world that is in order both runs do the same, which leaves the world in order and moves it
along a relation. -/
def Run.Alike (R : World κ σ → World κ σ → Prop) (m m' : Run κ σ α) : Prop :=
  ∀ ⦃w⦄, w.InOrder → m w = m' w ∧ ∀ ⦃a w'⦄, m' w = some (a, w') → w'.InOrder ∧ R w w'

/-- In an exact world both runs come to the same end, and only the state of the user changes. -/
def Run.Record (m m' : Run κ σ α) : Prop :=
  ∀ ⦃w⦄, w.Exact → ∃ a user, m w = some (a, { w with user }) ∧ m' w = some (a, { w with user })

/-- Two environments that cannot be told apart in worlds that are in order. -/
structure Env.Twins (e e' : Env κ σ) : Prop where
  handles : e.handles = e'.handles
  depth : e.depth = e'.depth
  hooks : ∀ code occasion, occasion.isAccess = true →
    Run.Record (e.call code occasion) (e'.call code occasion)
  calls : ∀ code occasion, occasion.isAccess = false →
    Run.Alike Enrolls (e.call code occasion) (e'.call code occasion)

/-- A carried relation that steps are in which touch no list. -/
structure Tolerant (R : World κ σ → World κ σ → Prop) : Prop extends Carried R where
  keeps : ∀ {w w'}, w.Keeps w' → R w w'

/-- A tolerant relation that the building of a watcher is in. -/
structure Building (R : World κ σ → World κ σ → Prop) : Prop extends Tolerant R where
  watching : ∀ o w watch, R w (watching o w watch)

theorem tolerant_keeps : Tolerant (Keeps (κ := κ) (σ := σ)) := ⟨carried_keeps, id⟩

theorem building_builds : Building (Builds (κ := κ) (σ := σ)) :=
  ⟨⟨carried_builds, Keeps.builds⟩, builds_watching⟩

theorem building_enrolls : Building (Enrolls (κ := κ) (σ := σ)) :=
  ⟨⟨carried_enrolls, fun h => h.builds.enrolls⟩,
    fun o w watch => (builds_watching o w watch).enrolls⟩

/-- Only the document, the state of the user or what is held has changed. -/
theorem World.Keeps.of_heap {w w' : World κ σ} (hwatchers : w'.watchers = w.watchers)
    (hheap : w'.heap = w.heap) : w.Keeps w' :=
  ⟨.of_watchers hwatchers fun _ _ => by rw [hheap], fun _ _ => by rw [hheap]⟩

/-- Whoever touches no list and puts nobody into the slot keeps a world in order. -/
theorem World.InOrder.of_lists {w w' : World κ σ} (h : w.InOrder) (hlists : w.SameLists w')
    (hcurrent : w'.current = w.current) : w'.InOrder :=
  ⟨hcurrent.trans h.current, hlists.exact h.exact⟩

theorem World.InOrder.hold {w : World κ σ} (h : w.InOrder) (held : List Handle) :
    InOrder { w with held } :=
  h.of_lists (.of_watchers rfl fun _ _ => rfl) rfl

namespace Run.Alike

variable {R : World κ σ → World κ σ → Prop} {m m' : Run κ σ α}

theorem pure (hR : Carried R) (a : α) : Alike R (Pure.pure a) (Pure.pure a) := by
  intro w hw
  refine ⟨rfl, fun b w' h => ?_⟩
  obtain ⟨_, rfl⟩ := Run.pure_eq_some.mp h
  exact ⟨hw, hR.refl w⟩

/-- Less may be asked of the world afterwards. -/
theorem mono {R' : World κ σ → World κ σ → Prop} (hm : Alike R m m')
    (hR : ∀ {w w'}, R w w' → R' w w') : Alike R' m m' := fun _ hw =>
  ⟨(hm hw).1, fun _ _ h => ⟨((hm hw).2 h).1, hR ((hm hw).2 h).2⟩⟩

/-- Steps in a row, of which each has its own relation. -/
theorem andThen {Q S : World κ σ → World κ σ → Prop} {f f' : α → Run κ σ β}
    (htrans : ∀ {a b c}, Q a b → S b c → R a c) (hm : Alike Q m m')
    (hf : ∀ a, Alike S (f a) (f' a)) : Alike R (m >>= f) (m' >>= f') := by
  intro w hw
  obtain ⟨heq, hmoves⟩ := hm hw
  refine ⟨Run.bind_congr heq fun h => (hf _ (hmoves h).1).1, fun b w' h => ?_⟩
  obtain ⟨a, w₁, h₁, h₂⟩ := Run.bind_eq_some.mp h
  obtain ⟨hw₁, hr₁⟩ := hmoves h₁
  obtain ⟨hw', hr⟩ := (hf a hw₁).2 h₂
  exact ⟨hw', htrans hr₁ hr⟩

/-- The world in between is in order, so the second step is taken from there. -/
theorem bind (hR : Carried R) {f f' : α → Run κ σ β} (hm : Alike R m m')
    (hf : ∀ a, Alike R (f a) (f' a)) : Alike R (m >>= f) (m' >>= f') :=
  .andThen (S := R) (fun hab hbc => hR.trans _ _ _ hab hbc) hm hf

/-- The step that looks at the world is the same on both sides. -/
theorem after_get {f f' : World κ σ → Run κ σ α} (hf : ∀ w, w.InOrder → Alike R (f w) (f' w)) :
    Alike R (get >>= f) (get >>= f') := by
  intro w hw
  refine ⟨(hf w hw hw).1, fun a w' h => ?_⟩
  obtain ⟨_, _, hget, h⟩ := Run.bind_eq_some.mp h
  obtain ⟨rfl, rfl⟩ := Run.get_eq_some.mp hget
  exact (hf w hw hw).2 h

/-- A change that touches no list. -/
theorem changing {f : World κ σ → World κ σ} (hlists : ∀ w : World κ σ, w.SameLists (f w))
    (hcurrent : ∀ w, (f w).current = w.current) (hf : ∀ w, R w (f w)) :
    Alike R (modify f : Run κ σ Unit) (modify f) := by
  intro w hw
  refine ⟨rfl, fun u w' h => ?_⟩
  rw [← Run.modify_eq_some.mp h]
  exact ⟨hw.of_lists (hlists w) (hcurrent w), hf w⟩

/-- A change to the document. -/
theorem marking (hR : Tolerant R) {f : World κ σ → World κ σ}
    (hf : ∀ w, ∃ document, f w = { w with document }) :
    Alike R (modify f : Run κ σ Unit) (modify f) := by
  have hkeeps : ∀ w : World κ σ, w.Keeps (f w) := fun w => by
    obtain ⟨document, heq⟩ := hf w
    rw [heq]
    exact .of_heap rfl rfl
  refine .changing (fun w => (hkeeps w).lists) (fun w => ?_) fun w => hR.keeps (hkeeps w)
  obtain ⟨document, heq⟩ := hf w
  rw [heq]

theorem discard (hm : Alike R m m') : Alike R (Functor.discard m) (Functor.discard m') := by
  intro w hw
  obtain ⟨heq, hmoves⟩ := hm hw
  refine ⟨Run.discard_congr heq, fun u w' h => ?_⟩
  obtain ⟨a, h⟩ := Run.discard_eq_some.mp h
  exact hmoves h

theorem holding (hR : Carried R) (hs : List Handle) (hm : Alike R m m') :
    Alike R (Run.holding hs m) (Run.holding hs m') := by
  intro w hw
  obtain ⟨heq, hmoves⟩ := hm (hw.hold (hs ++ w.held))
  refine ⟨Run.holding_congr heq, fun a w' h => ?_⟩
  obtain ⟨w₁, h₁, rfl⟩ := Run.holding_eq_some.mp h
  obtain ⟨hw₁, hr₁⟩ := hmoves h₁
  exact ⟨hw₁.hold w.held, hR.hold hr₁⟩

end Run.Alike

namespace Env.Twins

open Run (Alike)

variable {e e' : Env κ σ} {R : World κ σ → World κ σ → Prop}

/-! ## Reading and watching -/

theorem tell (h : e.Twins e') (hook : Hook κ) {occasion : Occasion}
    (ho : occasion.isAccess = true) :
    Run.Record (e.tell hook occasion) (e'.tell hook occasion) := by
  intro w hw
  cases hook with
  | silent => exact ⟨(), w.user, rfl, rfl⟩
  | custom code =>
    obtain ⟨a, user, heq, heq'⟩ := h.hooks code occasion ho hw
    exact ⟨(), user, Run.discard_eq_some.mpr ⟨a, heq⟩, Run.discard_eq_some.mpr ⟨a, heq'⟩⟩

theorem holding_tell (h : e.Twins e') (hook : Hook κ) {occasion : Occasion}
    (ho : occasion.isAccess = true) (hs : List Handle) :
    Run.Record (.holding hs (e.tell hook occasion)) (.holding hs (e'.tell hook occasion)) := by
  intro w hw
  have hlists : w.SameLists { w with held := hs ++ w.held } := .of_watchers rfl fun _ _ => rfl
  have hw' := hlists.exact hw
  obtain ⟨a, user, heq, heq'⟩ := h.tell hook ho hw'
  exact ⟨a, user, Run.holding_eq_some.mpr ⟨_, heq, rfl⟩, Run.holding_eq_some.mpr ⟨_, heq', rfl⟩⟩

/-- A read by which the collecting watcher gets into a list where it belongs. -/
theorem read_exact (h : e.Twins e') {o : ObjectId} {key : String} {w : World κ σ}
    (hw : (w.readings o [key]).Exact) : ∃ user,
    read e o key w = some (w.heap.peek o key, { w.readings o [key] with user }) ∧
      read e' o key w = some (w.heap.peek o key, { w.readings o [key] with user }) := by
  cases hc : w.heap.cell? o key with
  | none =>
    have hplain : ∀ env : Env κ σ, read env o key w =
        some (w.heap.peek o key, { w.readings o [key] with user := w.user }) := fun env => by
      refine read_eq_of_tell (fun _ => rfl) fun c hc' => ?_
      rw [hc] at hc'
      cases hc'
    exact ⟨w.user, hplain e, hplain e'⟩
  | some c =>
    have hlists : (w.readings o [key]).SameLists
        { w.readings o [key] with held := .object o :: c.value.handles ++ w.held } :=
      .of_watchers rfl fun _ _ => rfl
    have haccess : (Occasion.reading key c.value).isAccess = true := rfl
    obtain ⟨_, user, htell, htell'⟩ := h.tell c.hook haccess (hlists.exact hw)
    have hread : ∀ env : Env κ σ, env.tell c.hook (.reading key c.value)
          { w.readings o [key] with held := .object o :: c.value.handles ++ w.held } =
        some ((), { w.readings o [key] with
          held := .object o :: c.value.handles ++ w.held
          user }) →
        read env o key w = some (w.heap.peek o key, { w.readings o [key] with user }) := by
      intro env henv
      refine read_eq_of_tell (fun hnone => ?_) fun c' hc' => ?_
      · rw [hc] at hnone
        cases hnone
      · obtain rfl := Option.some.inj (hc.symm.trans hc')
        exact henv
    exact ⟨user, hread e htell, hread e' htell'⟩

theorem read (h : e.Twins e') (hR : Tolerant R) (o : ObjectId) (key : String) :
    Alike R (read e o key) (read e' o key) := by
  intro w hw
  have hsame := World.readings_of_current_eq_none hw.current o [key]
  have hexact : (w.readings o [key]).Exact := by
    rw [hsame]
    exact hw.exact
  obtain ⟨user, hread, hread'⟩ := h.read_exact hexact
  refine ⟨hread.trans hread'.symm, fun a w' hr => ?_⟩
  rw [hread', hsame] at hr
  obtain ⟨_, rfl⟩ := Prod.mk.inj (Option.some.inj hr)
  exact ⟨hw.of_lists (.of_watchers rfl fun _ _ => rfl) rfl, hR.keeps (.of_heap rfl rfl)⟩

/-- The same world is seen by both. -/
theorem sideBySide (h : e.Twins e') (hR : Tolerant R) :
    SideBySide e e' Eq fun m m' : Run κ σ _ => Alike R m m' where
  pure := .pure hR.toCarried
  bind := .bind hR.toCarried
  sight := .same h.handles
  after_get hf := .after_get fun w _ => hf w w rfl
  discard := .discard
  holding := .holding hR.toCarried
  edit _ := .marking hR fun _ => ⟨_, rfl⟩
  read := h.read hR

/-- While it is built, a watcher collects in the list of its own field. -/
theorem watch_eq (h : e.Twins e') (expression : String) (o : ObjectId) (reaction : Reaction κ)
    {w : World κ σ} (hw : w.InOrder) : ∃ user,
    watch e expression o reaction w = some (⟨w.watchers.size⟩,
        { World.watching o w (Text.trim expression, reaction) with user }) ∧
      watch e' expression o reaction w = some (⟨w.watchers.size⟩,
        { World.watching o w (Text.trim expression, reaction) with user }) := by
  let key := Text.trim expression
  let w₁ := w.begun o key reaction
  have hexact : (w₁.readings o [key]).Exact := by
    have hlists : (World.watching o w (key, reaction)).SameLists (w₁.readings o [key]) := by
      refine ⟨by simp [World.watching, World.readings, World.begun, w₁], fun j => ?_,
        fun _ _ => rfl⟩
      rw [World.watcher?_watching]
      show ((World.watcher? { w with watchers := w.watchers.push _ } j).map _) = _
      rw [World.watcher?_push]
      split <;> rfl
    exact hlists.exact (hw.exact.watching o (key, reaction))
  obtain ⟨user, hread, hread'⟩ := h.read_exact hexact
  have hwatch : ∀ env : Env κ σ,
      DataBinding.read env o key w₁ =
        some (w₁.heap.peek o key, { w₁.readings o [key] with user }) →
      watch env expression o reaction w =
        some (⟨w.watchers.size⟩, { World.watching o w (key, reaction) with user }) := by
    intro env henv
    refine watch_eq_some_iff.mpr ⟨rfl, _, _, henv, ?_⟩
    simp only [World.setLast, World.readings, World.begun, w₁, Table.modify_push_size]
    rfl
  exact ⟨user, hwatch e hread, hwatch e' hread'⟩

/-- A new watcher joins the same list in both runs. -/
theorem watch (h : e.Twins e') (hR : Building R) (expression : String) (o : ObjectId)
    (reaction : Reaction κ) :
    Alike R (watch e expression o reaction) (watch e' expression o reaction) := by
  intro w hw
  obtain ⟨user, hwatch, hwatch'⟩ := h.watch_eq expression o reaction hw
  refine ⟨hwatch.trans hwatch'.symm, fun i w' hr => ?_⟩
  rw [hwatch'] at hr
  obtain ⟨_, rfl⟩ := Prod.mk.inj (Option.some.inj hr)
  have hkeeps : (World.watching o w (Text.trim expression, reaction)).Keeps
      { World.watching o w (Text.trim expression, reaction) with user } := .of_heap rfl rfl
  have hbuilt : (World.watching o w (Text.trim expression, reaction)).InOrder :=
    ⟨hw.current, hw.exact.watching o _⟩
  exact ⟨hbuilt.of_lists hkeeps.lists rfl,
    hR.trans _ _ _ (hR.watching o w _) (hR.keeps hkeeps)⟩

theorem buildsSideBySide (h : e.Twins e') (hR : Building R) :
    BuildsSideBySide e e' Eq fun m m' : Run κ σ _ => Alike R m m' where
  toSideBySide := h.sideBySide hR.toTolerant
  watch := h.watch hR
  depth := h.depth.le
  stuck hm' := by
    rw [hm' h.depth.symm]
    exact fun w _ => ⟨rfl, fun a w' hr => absurd hr (by simp)⟩

/-! ## Updates and writes -/

/-- What is drawn and what is called is the same in both runs. -/
theorem update (h : e.Twins e') (i : WatcherId) : Alike Enrolls (update e i) (update e' i) := by
  refine (h.sideBySide building_enrolls.toTolerant).update (fun code _ => h.calls code _ rfl)
    (fun i v => ?_) i
  exact .changing (fun w => .setLast w i v) (fun _ => rfl) fun w =>
    (SameLists.setLast w i v).enrolls id

theorem notify (h : e.Twins e') (o : ObjectId) (key : String) :
    Alike Enrolls (notify e o key) (notify e' o key) :=
  (h.sideBySide building_enrolls.toTolerant).notify h.update o key

/-- Whatever a hook records, it touches no list. -/
theorem tell_enrolls (h : e.Twins e') (hook : Hook κ) {occasion : Occasion}
    (ho : occasion.isAccess = true) (hs : List Handle) :
    Alike Enrolls (.holding hs (e.tell hook occasion)) (.holding hs (e'.tell hook occasion)) := by
  intro w hw
  obtain ⟨a, user, heq, heq'⟩ := h.holding_tell hook ho hs hw.exact
  refine ⟨heq.trans heq'.symm, fun b w' hr => ?_⟩
  rw [heq'] at hr
  obtain ⟨_, rfl⟩ := Prod.mk.inj (Option.some.inj hr)
  exact ⟨hw.of_lists (.of_watchers rfl fun _ _ => rfl) rfl,
    building_enrolls.keeps (.of_heap rfl rfl)⟩

/-- Observing touches no list, but fields become reactive. -/
theorem observing (hook : Hook κ) (values : List Value) :
    Alike (fun w w' => w.SameLists w' ∧ w.Enrolls w')
      (modify (World.mapHeap fun heap => heap.intercept hook values) : Run κ σ Unit)
      (modify (World.mapHeap fun heap => heap.intercept hook values)) := by
  have hlists : ∀ w : World κ σ,
      w.SameLists (w.mapHeap fun heap => heap.intercept hook values) := fun w =>
    .of_watchers rfl fun o key => Heap.subscribers_intercept hook w.heap values o key
  refine .changing hlists (fun _ => rfl) fun w => ⟨hlists w, (hlists w).enrolls ?_⟩
  intro o key hreactive
  obtain ⟨c, hc⟩ := Option.isSome_iff_exists.mp hreactive
  exact Option.isSome_iff_exists.mpr ⟨c, Heap.cell?_intercept_of_some hc⟩

theorem storing (o : ObjectId) (key : String) (v : Value) :
    Alike Enrolls (modify (World.mapHeap fun heap => heap.store o key v) : Run κ σ Unit)
      (modify (World.mapHeap fun heap => heap.store o key v)) := by
  have hlists : ∀ w : World κ σ, w.SameLists (w.mapHeap fun heap => heap.store o key v) :=
    fun w => .of_watchers rfl fun p k => Heap.subscribers_store w.heap o key v p k
  refine .changing hlists (fun _ => rfl) fun w => (hlists w).enrolls fun {p k} hreactive => ?_
  show ((w.heap.store o key v).cell? p k).isSome = true
  rw [Heap.cell?_store]
  split
  · rw [Option.isSome_map]
    exact hreactive
  · exact hreactive

theorem overwrite (h : e.Twins e') (o : ObjectId) (key : String) (c : Cell κ) (v : Value) :
    Alike Enrolls (overwrite e o key c v) (overwrite e' o key c v) :=
  .bind carried_enrolls ((observing c.hook [v]).mono And.right) fun _ =>
    .bind carried_enrolls (h.tell_enrolls c.hook rfl _) fun _ =>
    .bind carried_enrolls (storing o key v) fun _ =>
    .holding carried_enrolls _ (h.notify o key)

/-- Both runs find the same cell, so they store or stop together. -/
theorem write (h : e.Twins e') (o : ObjectId) (key : String) (v : Value) :
    Alike Enrolls (write e o key v) (write e' o key v) := by
  intro w hw
  cases hc : w.heap.cell? o key with
  | none =>
    rw [write_eq_putPlain hc, write_eq_putPlain hc]
    refine ⟨rfl, fun u w' hr => ?_⟩
    obtain ⟨_, rfl⟩ := Prod.mk.inj (Option.some.inj hr)
    have hcell := Heap.cell?_putPlain hc v
    have hkeeps : w.Keeps (w.mapHeap fun heap => heap.putPlain o key v) :=
      ⟨.of_watchers rfl fun p k => Heap.subscribers_congr (hcell p k),
        fun p k => congrArg Option.isSome (hcell p k)⟩
    exact ⟨hw.of_lists hkeeps.lists rfl, building_enrolls.keeps hkeeps⟩
  | some c =>
    cases heq : c.value.strictEq v with
    | true =>
      rw [write_eq_self hc heq, write_eq_self hc heq]
      exact Alike.pure carried_enrolls () hw
    | false =>
      rw [write_eq_overwrite hc heq, write_eq_overwrite hc heq]
      exact h.overwrite o key c v hw

/-! ## Events -/

theorem deliver (h : e.Twins e') (event : Event) (l : Listener κ) :
    Alike Enrolls (l.deliver e event) (l.deliver e' event) :=
  (h.sideBySide building_enrolls.toTolerant).deliver (fun code _ _ => h.calls code _ rfl)
    (fun code _ => h.calls code _ rfl) h.write event l

end Env.Twins

end DataBinding
