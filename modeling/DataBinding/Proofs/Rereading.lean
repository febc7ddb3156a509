import DataBinding.Proofs.Effects
import DataBinding.Proofs.Growth

/-!
# What an update reads

A watcher that is updated reads its own key without anybody learning of it, and what a model or the
text of a key shows is the value read there. A template is different: it is rendered anew by reads
like any others. So when a write happens while some watcher is collecting, that watcher subscribes
to the keys of the templates that are shown anew, and to nothing else.
-/

namespace DataBinding

variable {κ σ : Type}

/-- All hooks only record, whatever access they are told of. -/
def World.Passive (w : World κ σ) (env : Env κ σ) : Prop :=
  ∀ o key c, w.heap.cell? o key = some c → ∀ occasion, occasion.isAccess = true → ∀ w',
    ∃ user, env.tell c.hook occasion w' = some ((), { w' with user })

theorem World.Passive.recordedBy {w : World κ σ} {env : Env κ σ} (h : w.Passive env)
    (o : ObjectId) : w.RecordedBy env o :=
  fun key c hc k value w' => h o key c hc (.reading k value) rfl w'

/-- The fields that a watcher reads, with the slot as it is, in order to show something. -/
def Watcher.rereads (x : Watcher κ) : List (ObjectId × String) :=
  match x.reaction with
  | .render _ t => t.markers.map fun key => (x.data, key)
  | _ => []

namespace World

/-- A watcher has seen another value than the one its key has. -/
def Changed (w : World κ σ) (i : WatcherId) (x : Watcher κ) : Prop :=
  w.watcher? i = some x ∧ x.last.strictEq (w.heap.peek x.data x.key) = false

/-- Watchers have been updated: some have seen a value, and the one that is collecting has
subscribed in some places. -/
structure Rereads (places : List (ObjectId × String)) (w w' : World κ σ) : Prop where
  current : w'.current = w.current
  held : w'.held = w.held
  heap : w'.heap = w.heap.subscribeAll w.current places
  watcher : ∀ i, w'.watcher? i = w.watcher? i ∨ ∃ x, w.watcher? i = some x ∧
    w'.watcher? i = some { x with last := w.heap.peek x.data x.key }

namespace Rereads

variable {places places' : List (ObjectId × String)} {a b c w w' : World κ σ}

theorem refl (w : World κ σ) : w.Rereads [] w :=
  ⟨rfl, rfl, (Heap.subscribeAll_nil _ _).symm, fun _ => .inl rfl⟩

theorem peek (h : w.Rereads places w') (o : ObjectId) (key : String) :
    w'.heap.peek o key = w.heap.peek o key := by
  rw [h.heap, Heap.peek_subscribeAll]

theorem trans (hab : a.Rereads places b) (hbc : b.Rereads places' c) :
    a.Rereads (places ++ places') c := by
  refine ⟨hbc.current.trans hab.current, hbc.held.trans hab.held, ?_, fun i => ?_⟩
  · rw [hbc.heap, hab.heap, hab.current, Heap.subscribeAll_append]
  · rcases hab.watcher i with hi | ⟨x, hx, hi⟩
    · rcases hbc.watcher i with hi' | ⟨x, hx, hi'⟩
      · exact .inl (hi'.trans hi)
      · refine .inr ⟨x, hi.symm.trans hx, ?_⟩
        rw [hi', hab.peek]
    · rcases hbc.watcher i with hi' | ⟨y, hy, hi'⟩
      · exact .inr ⟨x, hx, hi'.trans hi⟩
      · obtain rfl := Option.some.inj (hi.symm.trans hy)
        refine .inr ⟨x, hx, ?_⟩
        rw [hi', hab.peek]

/-- Whoever is found changed later was changed before: a value that was seen is changed only if it
is equal to nothing. -/
theorem changed (h : w.Rereads places w') {i : WatcherId} {y : Watcher κ} (hy : w'.Changed i y) :
    ∃ x, w.Changed i x ∧ y.rereads = x.rereads := by
  obtain ⟨hy, hne⟩ := hy
  rcases h.watcher i with hi | ⟨x, hx, hi⟩
  · refine ⟨y, ⟨hi.symm.trans hy, ?_⟩, rfl⟩
    rw [← h.peek]
    exact hne
  · obtain rfl := Option.some.inj (hi.symm.trans hy)
    refine ⟨x, ⟨hx, ?_⟩, rfl⟩
    rw [h.peek] at hne
    cases heq : x.last.strictEq (w.heap.peek x.data x.key) with
    | false => rfl
    | true =>
      have hself := Value.strictEq_of_strictEq (Value.strictEq_symm heq)
      exact absurd hself (by rw [hne]; exact Bool.false_ne_true)

theorem runsCode (h : w.Rereads places w') {i : WatcherId} (hi : w'.RunsCode i) :
    w.RunsCode i := by
  obtain ⟨y, hy, hcode⟩ := hi
  rcases h.watcher i with hi | ⟨x, hx, hi⟩
  · exact ⟨y, hi.symm.trans hy, hcode⟩
  · obtain rfl := Option.some.inj (hi.symm.trans hy)
    exact ⟨x, hx, hcode⟩

end Rereads

theorem Passive.of_hooks {w w' : World κ σ} {env : Env κ σ} (h : w.Passive env)
    (hcell : ∀ o key c, w'.heap.cell? o key = some c →
      ∃ p k c₀, w.heap.cell? p k = some c₀ ∧ c.hook = c₀.hook) : w'.Passive env := by
  intro o key c hc
  obtain ⟨p, k, c₀, hc₀, hhook⟩ := hcell o key c hc
  rw [hhook]
  exact h p k c₀ hc₀

theorem Rereads.passive {places : List (ObjectId × String)} {w w' : World κ σ} {env : Env κ σ}
    (h : w.Rereads places w') (hp : w.Passive env) : w'.Passive env := by
  refine hp.of_hooks fun o key c hc => ?_
  rw [h.heap] at hc
  cases hcur : w.current with
  | none =>
    rw [hcur] at hc
    exact ⟨o, key, c, hc, rfl⟩
  | some i =>
    rw [hcur, Heap.cell?_subscribeAll] at hc
    obtain ⟨c₀, hc₀, rfl⟩ := Option.map_eq_some_iff.mp hc
    exact ⟨o, key, c₀, hc₀, rfl⟩

end World

open World

variable {env : Env κ σ} {w : World κ σ}

/-! ## Updates -/

theorem rereads_setLast (w : World κ σ) {i : WatcherId} {x : Watcher κ}
    (hx : w.watcher? i = some x) :
    w.Rereads [] (w.setLast i (w.heap.peek x.data x.key)) := by
  refine ⟨rfl, rfl, (Heap.subscribeAll_nil _ _).symm, fun j => ?_⟩
  by_cases hij : i = j
  · subst hij
    exact .inr ⟨x, hx, watcher?_setLast_self hx _⟩
  · exact .inl (watcher?_setLast_of_ne w hij _)

/-- Showing something reads the keys of a template, and nothing else. -/
theorem react_rereads {x : Watcher κ} (hr : w.RecordedBy env x.data)
    (hcustom : ¬ x.reaction.IsCustom) (v : Value) : ∃ w',
    x.react env v w = some ((), w') ∧ w.Rereads x.rereads w' ∧ w'.watchers = w.watchers := by
  unfold Watcher.react Watcher.rereads
  cases hreaction : x.reaction with
  | setValue n =>
    exact ⟨_, Run.modify_eq_some.mpr rfl,
      ⟨rfl, rfl, (Heap.subscribeAll_nil _ _).symm, fun _ => .inl rfl⟩, rfl⟩
  | setText n =>
    exact ⟨_, Run.modify_eq_some.mpr rfl,
      ⟨rfl, rfl, (Heap.subscribeAll_nil _ _).symm, fun _ => .inl rfl⟩, rfl⟩
  | render n t =>
    obtain ⟨user, hrender⟩ := render_eq hr t
    refine ⟨_, Run.bind_eq_some.mpr ⟨_, _, hrender, Run.modify_eq_some.mpr rfl⟩,
      ⟨rfl, rfl, rfl, fun _ => .inl rfl⟩, rfl⟩
  | custom code =>
    rw [hreaction] at hcustom
    exact absurd trivial hcustom

/-- What the update of one watcher has read: what the watcher shows, if it sees another value and
its data is held. The other watchers have seen nothing. -/
structure World.RereadsFor (i : WatcherId) (places : List (ObjectId × String))
    (w w' : World κ σ) : Prop where
  rereads : w.Rereads places w'
  others : ∀ j, j ≠ i → w'.watcher? j = w.watcher? j
  sound : ∀ place ∈ places, ∃ x, w.Changed i x ∧ place ∈ x.rereads
  complete : ∀ x, w.Changed i x → .object x.data ∈ w.held → x.rereads = places

namespace World.RereadsFor

variable {i : WatcherId} {x : Watcher κ}

/-- Where there is no watcher, or its data is gone, nothing is read. -/
theorem idle (hdead : ∀ x, w.watcher? i = some x → w.isAlive env.handles x.data = false) :
    w.RereadsFor i [] w := by
  refine ⟨.refl w, fun _ _ => rfl, fun _ h => absurd h List.not_mem_nil, fun x hx hheld => ?_⟩
  have halive := hdead x hx.1
  rw [isAlive_of_mem_held hheld] at halive
  cases halive

/-- A watcher that finds nothing new notes what it has found. -/
theorem setLast (hx : w.watcher? i = some x)
    (heq : x.last.strictEq (w.heap.peek x.data x.key) = true) :
    w.RereadsFor i [] (w.setLast i (w.heap.peek x.data x.key)) := by
  refine ⟨rereads_setLast w hx, fun j hj => watcher?_setLast_of_ne w (Ne.symm hj) _,
    fun _ h => absurd h List.not_mem_nil, fun y hy _ => ?_⟩
  obtain ⟨hy, hne⟩ := hy
  obtain rfl := Option.some.inj (hx.symm.trans hy)
  rw [heq] at hne
  cases hne

/-- A watcher that finds another value reads what it shows. -/
theorem reacted (hx : w.watcher? i = some x)
    (hne : x.last.strictEq (w.heap.peek x.data x.key) = false) {held : List Handle}
    {w' : World κ σ}
    (hreads : Rereads x.rereads { w.setLast i (w.heap.peek x.data x.key) with held } w')
    (hwatchers : w'.watchers = (w.setLast i (w.heap.peek x.data x.key)).watchers) :
    w.RereadsFor i x.rereads { w' with held := w.held } := by
  have hwatcher : ∀ j, World.watcher? { w' with held := w.held } j =
      (w.setLast i (w.heap.peek x.data x.key)).watcher? j := fun j =>
    watcher?_of_watchers hwatchers j
  refine ⟨⟨hreads.current, rfl, hreads.heap, fun j => ?_⟩, fun j hj => ?_,
    fun place hplace => ⟨x, ⟨hx, hne⟩, hplace⟩, fun y hy _ => ?_⟩
  · rw [hwatcher j]
    exact (rereads_setLast w hx).watcher j
  · exact (hwatcher j).trans (watcher?_setLast_of_ne w (Ne.symm hj) _)
  · rw [Option.some.inj (hx.symm.trans hy.1)]

end World.RereadsFor

/-- An update of a binding comes to an end and reads what it shows anew. -/
theorem update_rereads (hp : w.Passive env) {i : WatcherId} (hcode : ¬ w.RunsCode i) :
    ∃ w' places, update env i w = some ((), w') ∧ w.RereadsFor i places w' := by
  cases hx : w.watcher? i with
  | none =>
    have hdead : ∀ x, w.watcher? i = some x → w.isAlive env.handles x.data = false :=
      fun x h => by rw [hx] at h; cases h
    exact ⟨w, [], update_eq_self hdead, .idle hdead⟩
  | some x =>
  cases halive : w.isAlive env.handles x.data with
  | false =>
    have hdead : ∀ y, w.watcher? i = some y → w.isAlive env.handles y.data = false :=
      fun y h => by rw [← Option.some.inj (hx.symm.trans h)]; exact halive
    exact ⟨w, [], update_eq_self hdead, .idle hdead⟩
  | true =>
  cases heq : x.last.strictEq (w.heap.peek x.data x.key) with
  | true => exact ⟨_, [], update_eq_setLast hx halive heq, .setLast hx heq⟩
  | false =>
    have hcustom : ¬ x.reaction.IsCustom := fun h => hcode ⟨x, hx, h⟩
    let w₁ : World κ σ :=
      { w.setLast i (w.heap.peek x.data x.key) with
        held := .watcher i :: .object x.data :: (w.heap.peek x.data x.key).handles ++
          x.last.handles ++ w.held }
    obtain ⟨w₂, hreact, hreads, hwatchers⟩ := react_rereads (w := w₁) (x := x)
      (by exact hp.recordedBy x.data) hcustom (w.heap.peek x.data x.key)
    exact ⟨_, x.rereads, update_eq_react hx halive heq hreact, .reacted hx heq hreads hwatchers⟩

theorem updateAll_rereads {is : List WatcherId} (hp : w.Passive env)
    (hcode : ∀ i ∈ is, ¬ w.RunsCode i) :
    ∃ w' places, updateAll env is w = some ((), w') ∧ w.Rereads places w' ∧
      (∀ place ∈ places, ∃ i ∈ is, ∃ x, w.Changed i x ∧ place ∈ x.rereads) ∧
      (∀ i ∈ is, ∀ x, w.Changed i x → .object x.data ∈ w.held →
        ∀ place ∈ x.rereads, place ∈ places) := by
  -- a reread changes no value and runs no code, so the others can be told from the start
  induction is generalizing w with
  | nil =>
    exact ⟨w, [], rfl, .refl w, fun _ h => absurd h List.not_mem_nil,
      fun _ h => absurd h List.not_mem_nil⟩
  | cons i rest ih =>
    obtain ⟨w₁, first, hupdate, hfirst, hothers, hfrom, hto⟩ :=
      update_rereads hp (hcode i List.mem_cons_self)
    obtain ⟨w', later, hall, hlater, hfrom', hto'⟩ := ih (hfirst.passive hp) fun j hj h =>
      hcode j (List.mem_cons_of_mem _ hj) (hfirst.runsCode h)
    refine ⟨w', first ++ later, Run.bind_eq_some.mpr ⟨(), w₁, hupdate, hall⟩,
      hfirst.trans hlater, ?_, ?_⟩
    · intro place hplace
      rcases List.mem_append.mp hplace with h | h
      · obtain ⟨x, hx, hmem⟩ := hfrom place h
        exact ⟨i, List.mem_cons_self, x, hx, hmem⟩
      · obtain ⟨j, hj, y, hy, hmem⟩ := hfrom' place h
        obtain ⟨x, hx, hsame⟩ := hfirst.changed hy
        exact ⟨j, List.mem_cons_of_mem _ hj, x, hx, hsame ▸ hmem⟩
    · intro j hj x hx hheld place hplace
      by_cases hji : j = i
      · subst hji
        rw [hto x hx hheld] at hplace
        exact List.mem_append_left _ hplace
      · -- the first update was of another watcher, so this one is still to come
        have hj : j ∈ rest := by
          rcases List.mem_cons.mp hj with h | h
          · exact absurd h hji
          · exact h
        refine List.mem_append_right _
          (hto' j hj x ⟨(hothers j hji).trans hx.1, ?_⟩ ?_ place hplace)
        · rw [hfirst.peek]
          exact hx.2
        · rw [hfirst.held]
          exact hheld

/-! ## Writes -/

/-- The value that a field has after a write to a reactive field. -/
def World.valueAfter (w : World κ σ) (o : ObjectId) (key : String) (v : Value) (p : ObjectId)
    (k : String) : Value :=
  if p = o ∧ k = key then v else w.heap.peek p k

/-- A write changes the value of its field, and a watcher in the list of the field, to which the
value is new, renders a template with this key of this object. -/
def World.RendersAnew (w : World κ σ) (o : ObjectId) (key : String) (v : Value) (p : ObjectId)
    (k : String) : Prop :=
  ∃ c, w.heap.cell? o key = some c ∧ c.value.strictEq v = false ∧ ∃ i ∈ c.subscribers, ∃ x,
    w.watcher? i = some x ∧ x.last.strictEq (w.valueAfter o key v x.data x.key) = false ∧
      (p, k) ∈ x.rereads

theorem World.Passive.stored (hp : w.Passive env) {o : ObjectId} {key : String} {c : Cell κ}
    (hc : w.heap.cell? o key = some c) (v : Value) (user : σ) :
    (w.stored o key c v user).Passive env := by
  -- fields that a write makes reactive get the hook of the field that is written
  have hintercept : ∀ p k c', (w.heap.intercept c.hook [v]).cell? p k = some c' →
      ∃ p k c₀, w.heap.cell? p k = some c₀ ∧ c'.hook = c₀.hook := by
    intro p k c' hc'
    rcases Heap.cell?_of_intercept hc' with hold | ⟨_, rfl⟩
    · exact ⟨p, k, c', hold, rfl⟩
    · exact ⟨o, key, c, hc, rfl⟩
  refine hp.of_hooks fun p k c' hc' => ?_
  unfold World.stored at hc'
  dsimp only at hc'
  rw [Heap.cell?_store] at hc'
  split at hc'
  · obtain ⟨c₁, hc₁, rfl⟩ := Option.map_eq_some_iff.mp hc'
    exact hintercept p k c₁ hc₁
  · exact hintercept p k c' hc'

theorem Watcher.data_of_mem_rereads {x : Watcher κ} {p : ObjectId} {k : String}
    (h : (p, k) ∈ x.rereads) : x.data = p := by
  unfold Watcher.rereads at h
  split at h
  · obtain ⟨key, _, heq⟩ := List.mem_map.mp h
    exact (Prod.mk.inj heq).1
  · cases h

/-- The lists of subscribers after a watcher was appended in places. -/
theorem Heap.subscribers_subscribeAll_eq (h : Heap κ) (current : Option WatcherId)
    (places : List (ObjectId × String)) (p : ObjectId) (k : String) : ∃ late,
    (h.subscribeAll current places).subscribers p k = h.subscribers p k ++ late ∧
      (∀ i ∈ late, current = some i) ∧ (late ≠ [] → (p, k) ∈ places) ∧
      (current.isSome = true → (p, k) ∈ places →
        (h.subscribeAll current places).isReactive p k = true → late ≠ []) := by
  cases current with
  | none => exact ⟨[], by simp, fun _ h => absurd h List.not_mem_nil, fun h => absurd rfl h,
      fun h => by cases h⟩
  | some i =>
    unfold subscribers isReactive
    rw [cell?_subscribeAll]
    cases hc : h.cell? p k with
    | none => exact ⟨[], rfl, fun _ h => absurd h List.not_mem_nil, fun h => absurd rfl h,
        fun _ _ h => by cases h⟩
    | some c =>
      refine ⟨List.replicate (places.count (p, k)) i, rfl, ?_, ?_, ?_⟩
      · exact fun j hj => congrArg some (List.eq_of_mem_replicate hj).symm
      · intro hne
        by_contra hnot
        rw [List.count_eq_zero_of_not_mem hnot] at hne
        exact hne rfl
      · intro _ hmem _ hnil
        have hpos := List.count_pos_iff.mpr hmem
        have hlength := congrArg List.length hnil
        rw [List.length_replicate, List.length_nil] at hlength
        omega

/-- A write to a reactive field comes to an end, and the keys that are read are those of templates
that are rendered anew. Of the written object, which is held, all of these are read. -/
theorem write_rereads (hp : w.Passive env) {o : ObjectId} {key : String} {c : Cell κ} {v : Value}
    (hc : w.heap.cell? o key = some c) (hne : c.value.strictEq v = false)
    (hcode : ∀ i ∈ c.subscribers, ¬ w.RunsCode i) : ∃ user w' places,
    write env o key v w = some ((), { w' with held := w.held }) ∧
      (w.stored o key c v user).Rereads places w' ∧
      (∀ p k, (p, k) ∈ places → w.RendersAnew o key v p k) ∧
      ∀ k, w.RendersAnew o key v o k → (o, k) ∈ places := by
  -- the hook is told in the world in which the value is observed and the object is held
  obtain ⟨user, htell⟩ := hp o key c hc (.writing key v) rfl
    { w.mapHeap fun h => h.intercept c.hook [v] with held := .object o :: v.handles ++ w.held }
  obtain ⟨w', places, hall, hrereads, hfrom, hto⟩ :=
    updateAll_rereads (hp.stored hc v user) hcode
  have hchanged : ∀ i x, (w.stored o key c v user).Changed i x ↔ w.watcher? i = some x ∧
      x.last.strictEq (w.valueAfter o key v x.data x.key) = false := by
    intro i x
    unfold World.Changed
    rw [peek_stored hc]
    rfl
  refine ⟨user, w', places, write_eq_of_tell hc hne htell hall, hrereads, ?_, ?_⟩
  · intro p k hmem
    obtain ⟨i, hi, x, hx, hmem⟩ := hfrom (p, k) hmem
    obtain ⟨hx, hnew⟩ := (hchanged i x).mp hx
    exact ⟨c, hc, hne, i, hi, x, hx, hnew, hmem⟩
  · rintro k ⟨c', hc', _, i, hi, x, hx, hnew, hmem⟩
    obtain rfl := Option.some.inj (hc.symm.trans hc')
    have hheld : Handle.object x.data ∈ (w.stored o key c v user).held := by
      rw [Watcher.data_of_mem_rereads hmem]
      exact List.mem_cons_self
    exact hto i hi x ((hchanged i x).mpr ⟨hx, hnew⟩) hheld _ hmem

/-- **What a write subscribes.** Let hooks only record, and let the watchers in the list of the
written field be those of bindings. Then the write comes to an end, and no list of subscribers has
changed, except that the watcher that is collecting has been appended where a template is rendered
anew. For the templates of the written object this is so at every reactive key. -/
theorem subscribers_after_write {host : Host κ σ} {depth : Nat} {o : ObjectId} {key : String}
    {v : Value} {w : World κ σ} (hp : w.Passive (host.env depth))
    (hcode : ∀ i ∈ w.heap.subscribers o key, ¬ w.RunsCode i) :
    ∃ w', host.run depth (.request (.write o key v)) w = some ((), w') ∧ ∀ p k, ∃ late,
      w'.heap.subscribers p k = w.heap.subscribers p k ++ late ∧
      (∀ i ∈ late, w.current = some i) ∧
      (late ≠ [] → w.RendersAnew o key v p k) ∧
      (p = o → w.current.isSome = true → w.RendersAnew o key v p k →
        w'.heap.isReactive p k = true → late ≠ []) := by
  show ∃ w', write (host.env depth) o key v w = some ((), w') ∧ _
  -- a write that updates nobody changes no list
  have hsame : ∀ {w' : World κ σ}, (∀ p k, w'.heap.subscribers p k = w.heap.subscribers p k) →
      (∀ p k, ¬ w.RendersAnew o key v p k) → ∀ p k, ∃ late,
        w'.heap.subscribers p k = w.heap.subscribers p k ++ late ∧
        (∀ i ∈ late, w.current = some i) ∧ (late ≠ [] → w.RendersAnew o key v p k) ∧
        (p = o → w.current.isSome = true → w.RendersAnew o key v p k →
          w'.heap.isReactive p k = true → late ≠ []) := by
    intro w' hlists hidle p k
    exact ⟨[], by rw [hlists, List.append_nil], fun _ h => absurd h List.not_mem_nil,
      fun h => absurd rfl h, fun _ _ h => absurd h (hidle p k)⟩
  cases hc : w.heap.cell? o key with
  | none =>
    refine ⟨_, write_eq_putPlain hc v, hsame (fun p k => ?_) fun p k ⟨c, hc', _⟩ => ?_⟩
    · exact Heap.subscribers_congr (Heap.cell?_putPlain hc v p k)
    · rw [hc] at hc'
      cases hc'
  | some c =>
  cases heq : c.value.strictEq v with
  | true =>
    refine ⟨w, write_eq_self hc heq, hsame (fun _ _ => rfl) fun p k ⟨c', hc', hne, _⟩ => ?_⟩
    obtain rfl := Option.some.inj (hc.symm.trans hc')
    rw [heq] at hne
    cases hne
  | false =>
    rw [Heap.subscribers_of_cell? hc] at hcode
    obtain ⟨user, w', places, hwrite, hrereads, hfrom, hto⟩ := write_rereads hp hc heq hcode
    refine ⟨_, hwrite, fun p k => ?_⟩
    obtain ⟨late, hlate, hcurrent, hplace, hmore⟩ :=
      (w.stored o key c v user).heap.subscribers_subscribeAll_eq w.current places p k
    refine ⟨late, ?_, hcurrent, fun hlate => hfrom p k (hplace hlate), ?_⟩
    · show w'.heap.subscribers p k = _
      rw [hrereads.heap]
      exact hlate.trans (by rw [subscribers_stored])
    · rintro rfl hsome hrenders hreactive
      refine hmore hsome (hto k hrenders) ?_
      exact (congrArg (fun h => h.isReactive p k) hrereads.heap).symm.trans hreactive

namespace EnteredWriter

def host : Host Unit Unit where
  body _ _ := .done (.ok ())
  handles _ := []

/-- A watcher of one field, and a text node bound to a template of another. -/
def setUp : Program Unit Unit WatcherId :=
  .andThen (.request .newObject) fun o =>
  .andThen (.request (.write o "a" (.text "one"))) fun _ =>
  .andThen (.request (.write o "other" .null)) fun _ =>
  .andThen (.request (.observe .silent (.object o))) fun _ =>
  .andThen (.request (.watch "other" o ())) fun outer =>
  .andThen (.request (.newNode (.text ""))) fun n =>
  .andThen (.request (.bind .text n "{{ a }}" { data := o })) fun _ => .done outer

/-- A write while a watcher is collecting. -/
def rewrite (outer : WatcherId) : Program Unit Unit Unit :=
  .collecting outer (.request (.write ⟨0⟩ "a" (.text "two")))

def fields : Slots Unit where
  entries :=
    [("a", .reactive { value := .text "one", subscribers := [⟨0⟩], hook := .silent }),
      ("other", .reactive { value := .null, subscribers := [⟨1⟩], hook := .silent })]

def template : Template := ⟨[.marker "a"]⟩

/-- A world in which the second watcher is collecting. -/
def world : World Unit Unit where
  heap := { objects := ⟨#[fields]⟩ }
  watchers := ⟨#[
    { key := "a", data := ⟨0⟩, last := .text "one", reaction := .render ⟨0⟩ template },
    { key := "other", data := ⟨0⟩, last := .null, reaction := .custom () }]⟩
  document := ⟨#[{ content := .text "one" }]⟩
  current := some ⟨1⟩
  user := ()

theorem world_passive (env : Env Unit Unit) : world.Passive env := by
  intro o key c hc
  have hsilent : c.hook = .silent := by
    obtain ⟨s, hs, hsc⟩ := Option.bind_eq_some_iff.mp hc
    obtain ⟨i⟩ := o
    cases i with
    | succ i => cases hs
    | zero =>
      have hslot : world.heap.slot? ⟨0⟩ key = if "a" = key then
          some (.reactive { value := .text "one", subscribers := [⟨0⟩], hook := .silent })
        else if "other" = key then
          some (.reactive { value := .null, subscribers := [⟨1⟩], hook := .silent })
        else none := rfl
      rw [hslot] at hs
      split at hs
      · obtain rfl := Option.some.inj hs
        obtain rfl := Option.some.inj hsc
        rfl
      · split at hs
        · obtain rfl := Option.some.inj hs
          obtain rfl := Option.some.inj hsc
          rfl
        · cases hs
  intro occasion _ w'
  rw [hsilent]
  exact ⟨w'.user, rfl⟩

end EnteredWriter

open EnteredWriter in
theorem subscribers_after_write_entered : ∃ w' late,
    host.run 3 (.request (.write ⟨0⟩ "a" (.text "two"))) world = some ((), w') ∧
      w'.heap.subscribers ⟨0⟩ "a" = [⟨0⟩] ++ late ∧ late ≠ [] ∧ ∀ i ∈ late, i = ⟨1⟩ := by
  have hreactive : ∀ w', host.run 3 (.request (.write ⟨0⟩ "a" (.text "two"))) world =
      some ((), w') → w'.heap.isReactive ⟨0⟩ "a" = true := by
    have hends : (host.run 3 (.request (.write ⟨0⟩ "a" (.text "two"))) world).all
        (fun r => r.2.heap.isReactive ⟨0⟩ "a") = true := by decide +kernel
    intro w' hrun
    rw [hrun] at hends
    exact hends
  have hpassive : world.Passive (host.env 3) := world_passive _
  have hcode : ∀ i ∈ world.heap.subscribers ⟨0⟩ "a", ¬ world.RunsCode i := by decide
  obtain ⟨w', hrun, hlists⟩ := subscribers_after_write (v := .text "two") hpassive hcode
  obtain ⟨late, hlate, hcurrent, _, hmore⟩ := hlists ⟨0⟩ "a"
  refine ⟨w', late, hrun, hlate, ?_, fun i hi => (Option.some.inj (hcurrent i hi)).symm⟩
  refine hmore rfl rfl ?_ (hreactive w' hrun)
  exact ⟨_, rfl, by decide, ⟨0⟩, List.mem_cons_self, _, rfl, by decide, by decide⟩

open EnteredWriter in
/-- Watchers of bindings alone are affected, and yet the watcher that is collecting subscribes. -/
theorem write_subscribes_collecting : ∃ outer w w',
    host.run 3 setUp (.fresh ()) = some (outer, w) ∧
      (∀ i ∈ w.heap.subscribers ⟨0⟩ "a", ¬ w.RunsCode i) ∧
      host.run 3 (rewrite outer) w = some ((), w') ∧
      w'.heap.subscribers ⟨0⟩ "a" = w.heap.subscribers ⟨0⟩ "a" ++ [outer] := by
  have hends : (host.run 3 setUp (.fresh ())).any (fun r =>
      decide (∀ i ∈ r.2.heap.subscribers ⟨0⟩ "a", ¬ r.2.RunsCode i) &&
        (host.run 3 (rewrite r.1) r.2).any fun r' =>
          r'.2.heap.subscribers ⟨0⟩ "a" == r.2.heap.subscribers ⟨0⟩ "a" ++ [r.1]) = true := by
    decide +kernel
  obtain ⟨⟨outer, w⟩, hrun, hafter⟩ := (Option.any_eq_true _ _).mp hends
  obtain ⟨hcode, hafter⟩ := Bool.and_eq_true_iff.mp hafter
  obtain ⟨⟨_, w'⟩, hrun', hlists⟩ := (Option.any_eq_true _ _).mp hafter
  exact ⟨outer, w, w', hrun, of_decide_eq_true hcode, hrun', by simpa using hlists⟩

end DataBinding
