import DataBinding.Proofs.Orderly
import DataBinding.Proofs.Updates

/-!
# No update is lost

While a write is notifying, the watchers it has not come to yet have seen an older value. The
invariant therefore names them: a world is settled but for `P` if every watcher that is subscribed
to its own field, and is not one of `P`, has seen the value that the field has.

A write breaks it for the subscribers it is about to update, and each update mends it for one of
them. What callbacks do in between is again writes, updates and new watchers, and these keep the
invariant for every `P`: so the outer fan-out finds its own debt unchanged after each callback,
however deep the writes below it were nested, and has none left at the end.

A watcher that is let collect may join the list of its own field when it has not seen what is there.
Who is in that list already does not join it: so nothing is said of those, `E`, that are let collect
before they are.
-/

namespace DataBinding

variable {κ σ : Type}

/-- No watcher is let collect. -/
abbrev Nobody : WatcherId → Prop := fun _ => False

namespace World

/-- Every watcher in the list of its own field has seen the value of the field, but for some. -/
def SettledBut (w : World κ σ) (P : ObjectId → String → WatcherId → Prop) : Prop :=
  ∀ i x c, w.watcher? i = some x → w.heap.cell? x.data x.key = some c → i ∈ c.subscribers →
    ¬ P x.data x.key i → x.last = c.value

/-- Every watcher in the list of its own field has seen the value of the field. -/
def Settled (w : World κ σ) : Prop :=
  ∀ i x c, w.watcher? i = some x → w.heap.cell? x.data x.key = some c → i ∈ c.subscribers →
    x.last = c.value

/-- Only watchers that exist are subscribed anywhere, but for those that may be let collect. -/
def Wired (w : World κ σ) (E : WatcherId → Prop := Nobody) : Prop :=
  ∀ o key c i, w.heap.cell? o key = some c → i ∈ c.subscribers → E i ∨ i.index < w.watchers.size

/-- A watcher that is in the list of its own field. -/
def Enrolled (w : World κ σ) (i : WatcherId) : Prop :=
  ∃ x, w.watcher? i = some x ∧ i ∈ w.heap.subscribers x.data x.key

instance (w : World κ σ) (i : WatcherId) : Decidable (w.Enrolled i) :=
  inferInstanceAs (Decidable (∃ x ∈ w.watcher? i, i ∈ w.heap.subscribers x.data x.key))

/-- Whoever collects is enrolled already, or may be let collect before. -/
def Collecting (w : World κ σ) (E : WatcherId → Prop := Nobody) : Prop :=
  ∀ i, w.current = some i → E i ∨ w.Enrolled i

/-- What every step does: it gives the slot back, what is held stays held, who is enrolled stays so,
and whatever was settled stays settled. -/
structure Settles (w w' : World κ σ) (E : WatcherId → Prop := Nobody) : Prop where
  current : w'.current = w.current
  held : w'.held = w.held
  enrolled : ∀ {i}, w.Enrolled i → w'.Enrolled i
  wired : w.Wired E → w'.Wired E
  settled : ∀ P, (∀ o key i, E i → P o key i) → w.SettledBut P → w'.SettledBut P

/-- The relation of the worlds before and after a step of an orderly run. -/
def SettlesFrom (E : WatcherId → Prop) (w w' : World κ σ) : Prop :=
  w.Collecting E → w.Settles w' E

variable {E : WatcherId → Prop} {P Q : ObjectId → String → WatcherId → Prop} {w w' : World κ σ}

theorem settledBut_false : (w.SettledBut fun _ _ _ => False) ↔ w.Settled := by
  constructor
  · intro h i x c hx hc hi
    exact h i x c hx hc hi id
  · intro h i x c hx hc hi _
    exact h i x c hx hc hi

theorem SettledBut.mono (h : w.SettledBut P)
    (hPQ : ∀ {i x}, w.watcher? i = some x → P x.data x.key i → Q x.data x.key i) :
    w.SettledBut Q :=
  fun i x c hx hc hi hnot => h i x c hx hc hi fun hp => hnot (hPQ hx hp)

/-- A watcher that is subscribed to its key has seen its value, but for some. -/
theorem SettledBut.last_eq_peek (h : w.SettledBut P) {i : WatcherId} {x : Watcher κ}
    (hx : w.watcher? i = some x) (hi : i ∈ w.heap.subscribers x.data x.key)
    (hnot : ¬ P x.data x.key i) : x.last = w.heap.peek x.data x.key := by
  obtain ⟨c, hc, hi⟩ := Heap.mem_subscribers.mp hi
  rw [h i x c hx hc hi hnot, Heap.peek_of_cell? hc]

theorem Settled.last_eq_peek (h : w.Settled) {i : WatcherId} {x : Watcher κ}
    (hx : w.watcher? i = some x) (hi : i ∈ w.heap.subscribers x.data x.key) :
    x.last = w.heap.peek x.data x.key :=
  (settledBut_false.mpr h).last_eq_peek hx hi id

theorem Wired.lt_size (hw : w.Wired) {o : ObjectId} {key : String} {i : WatcherId}
    (hi : i ∈ w.heap.subscribers o key) : i.index < w.watchers.size := by
  obtain ⟨c, hc, hi⟩ := Heap.mem_subscribers.mp hi
  exact (hw o key c i hc hi).resolve_left id

/-- Watchers that are there stay, and lists are added to. -/
theorem Enrolled.of_lists {i : WatcherId} (h : w.Enrolled i)
    (hwatcher : ∀ {x}, w.watcher? i = some x → ∃ last, w'.watcher? i = some { x with last })
    (hlists : ∀ o key, i ∈ w.heap.subscribers o key → i ∈ w'.heap.subscribers o key) :
    w'.Enrolled i := by
  obtain ⟨x, hx, hi⟩ := h
  obtain ⟨last, hx'⟩ := hwatcher hx
  exact ⟨_, hx', hlists _ _ hi⟩

theorem Collecting.nobody (h : w.current = none) : w.Collecting E := by
  intro i hi
  rw [h] at hi
  cases hi

theorem Settles.collecting (h : w.Settles w' E) (hcollects : w.Collecting E) :
    w'.Collecting E :=
  fun i hi => (hcollects i (h.current ▸ hi)).imp_right h.enrolled

/-- A step that leaves watchers alone and makes no cell but empty ones. -/
theorem SettlesFrom.of_cells (hwatchers : w'.watchers = w.watchers)
    (hcurrent : w'.current = w.current) (hheld : w'.held = w.held)
    (hkept : ∀ {o key c}, w.heap.cell? o key = some c → w'.heap.cell? o key = some c)
    (hcells : ∀ {o key c}, w'.heap.cell? o key = some c →
      w.heap.cell? o key = some c ∨ c.subscribers = []) : w.SettlesFrom E w' := by
  intro _
  refine ⟨hcurrent, hheld, fun {i} hi => ?_, fun hwired o key c i hc hi => ?_, ?_⟩
  · refine hi.of_lists (fun {x} hx => ⟨x.last, ?_⟩) fun o key hi => ?_
    · rw [watcher?_of_watchers hwatchers]
      exact hx
    · obtain ⟨c, hc, hi⟩ := Heap.mem_subscribers.mp hi
      exact Heap.mem_subscribers.mpr ⟨c, hkept hc, hi⟩
  · rcases hcells hc with hold | hnew
    · rw [hwatchers]
      exact hwired o key c i hold hi
    · rw [hnew] at hi
      cases hi
  · intro P _ hP i x c hx hc hi hnot
    rcases hcells hc with hold | hnew
    · rw [watcher?_of_watchers hwatchers] at hx
      exact hP i x c hx hold hi hnot
    · rw [hnew] at hi
      cases hi

theorem SettlesFrom.mapDocument (w : World κ σ) (f : Document κ → Document κ) :
    w.SettlesFrom E (w.mapDocument f) :=
  .of_cells rfl rfl rfl id .inl

theorem SettlesFrom.user (w : World κ σ) (user : σ) : w.SettlesFrom E { w with user := user } :=
  .of_cells rfl rfl rfl id .inl

/-- Observing makes cells that nobody is subscribed to. -/
theorem SettlesFrom.intercept (w : World κ σ) (hook : Hook κ) (values : List Value) :
    w.SettlesFrom E (w.mapHeap fun h => h.intercept hook values) := by
  refine .of_cells rfl rfl rfl Heap.cell?_intercept_of_some fun {o key c} hc => ?_
  rcases Heap.cell?_of_intercept hc with hold | ⟨_, rfl⟩
  · exact .inl hold
  · exact .inr rfl

/-- Whoever collects joins lists while something is read. It does not join its own list, if it is
enrolled. -/
theorem SettlesFrom.of_reads (h : w.Reads w') : w.SettlesFrom E w' := by
  intro hcollects
  rcases Option.eq_none_or_eq_some w.current with hcur | ⟨j, hcur⟩
  · obtain ⟨user, rfl⟩ := h.of_current_eq_none hcur
    exact SettlesFrom.user w user hcollects
  · obtain ⟨places, user, rfl⟩ := h
    have hj := hcollects j hcur
    refine ⟨rfl, rfl, fun {i} hi => ?_, fun hwired o key c i hc hi => ?_, ?_⟩
    · refine hi.of_lists (fun {x} hx => ⟨x.last, hx⟩) fun o key hi => ?_
      obtain ⟨n, hn⟩ := Heap.subscribers_subscribeAll w.heap j places o key
      show i ∈ (w.heap.subscribeAll w.current places).subscribers o key
      rw [hcur, hn]
      exact List.mem_append_left _ hi
    · dsimp only at hc ⊢
      rw [hcur, Heap.cell?_subscribeAll] at hc
      obtain ⟨c₀, hc₀, rfl⟩ := Option.map_eq_some_iff.mp hc
      rcases List.mem_append.mp hi with hold | hnew
      · exact hwired o key c₀ i hc₀ hold
      · rw [List.eq_of_mem_replicate hnew]
        exact hj.imp_right fun ⟨x, hx, _⟩ => lt_size_of_watcher? hx
    · intro P hE hP i x c hx hc hi hnot
      dsimp only at hc
      rw [hcur, Heap.cell?_subscribeAll] at hc
      obtain ⟨c₀, hc₀, rfl⟩ := Option.map_eq_some_iff.mp hc
      rcases List.mem_append.mp hi with hold | hnew
      · exact hP i x c₀ hx hc₀ hold hnot
      · obtain rfl := List.eq_of_mem_replicate hnew
        rcases hj with hj | ⟨y, hy, hold⟩
        · exact absurd (hE _ _ _ hj) hnot
        · obtain rfl := Option.some.inj (hx.symm.trans hy)
          obtain ⟨c, hc, hold⟩ := Heap.mem_subscribers.mp hold
          obtain rfl := Option.some.inj (hc₀.symm.trans hc)
          exact hP i x c₀ hx hc₀ hold hnot

theorem carried_settlesFrom : Carried (SettlesFrom (κ := κ) (σ := σ) E) where
  refl _ := .of_cells rfl rfl rfl id .inl
  trans a b c hab hbc := by
    intro hcollects
    have h₁ := hab hcollects
    have h₂ := hbc (h₁.collecting hcollects)
    exact ⟨h₂.current.trans h₁.current, h₂.held.trans h₁.held,
      fun hi => h₂.enrolled (h₁.enrolled hi), fun hwired => h₂.wired (h₁.wired hwired),
      fun P hE hP => h₂.settled P hE (h₁.settled P hE hP)⟩
  hold := by
    intro w w' held h hcollects
    have h₁ := h hcollects
    exact ⟨h₁.current, rfl, h₁.enrolled, h₁.wired, h₁.settled⟩

/-- What is done while a watcher collects that may be let collect. -/
theorem settlesFrom_enters {mayEnter : World κ σ → WatcherId → Bool}
    (hE : ∀ w i, mayEnter w i = true → E i ∨ w.Enrolled i) :
    Carried.EntersAlong (SettlesFrom E) mayEnter := by
  intro w w' i henter h _
  have hcollects : World.Collecting { w with current := some i } E := by
    intro j hj
    obtain rfl := Option.some.inj hj
    have hi : E i ∨ w.Enrolled i := hE w i henter
    exact hi
  have h₁ := h hcollects
  exact ⟨rfl, h₁.held, h₁.enrolled, h₁.wired, h₁.settled⟩

end World

open World

variable {env : Env κ σ} {E : WatcherId → Prop}

/-! ## One step -/

theorem render_settles (hq : env.HooksRead) (t : Template) (o : ObjectId) :
    Run.Moves (SettlesFrom E) (t.render env o) := by
  intro w text w' h
  exact .of_reads (hq.render_eq_some h).2

theorem react_settles (hq : env.HooksRead) (hcall : env.CallsMove (SettlesFrom E))
    (x : Watcher κ) (v : Value) : Run.Moves (SettlesFrom E) (x.react env v) := by
  unfold Watcher.react
  split
  · exact .modify fun w => .mapDocument w _
  · exact .modify fun w => .mapDocument w _
  · exact carried_settlesFrom.bind (render_settles hq _ _) fun _ =>
      .modify fun w => .mapDocument w _
  · exact .discard (hcall _ _ rfl)

/-- Noting the value that the key has settles the watcher, and disturbs no other. -/
theorem settledBut_setLast {w : World κ σ} {i : WatcherId} {x : Watcher κ}
    (hx : w.watcher? i = some x) {P Q : ObjectId → String → WatcherId → Prop}
    (hP : w.SettledBut P) (hPQ : ∀ o key j, P o key j → Q o key j ∨ j = i) :
    (w.setLast i (w.heap.peek x.data x.key)).SettledBut Q := by
  intro j y c hy hc hj hnot
  rw [watcher?_setLast] at hy
  by_cases hij : i = j
  · subst hij
    rw [if_pos rfl, hx] at hy
    obtain rfl := Option.some.inj hy
    exact Heap.peek_of_cell? hc
  · rw [if_neg hij] at hy
    refine hP j y c hy hc hj fun hp => ?_
    rcases hPQ _ _ _ hp with hq | hji
    · exact hnot hq
    · exact hij hji.symm

theorem settlesFrom_setLast {w : World κ σ} {i : WatcherId} {x : Watcher κ}
    (hx : w.watcher? i = some x) :
    w.SettlesFrom E (w.setLast i (w.heap.peek x.data x.key)) := by
  intro _
  refine ⟨rfl, rfl, fun {j} hj => ?_, fun hwired o key c j hc hj => ?_,
    fun P _ hP => settledBut_setLast hx hP fun _ _ _ hp => .inl hp⟩
  · refine hj.of_lists (fun {y} hy => ?_) fun _ _ => id
    rw [watcher?_setLast, hy]
    split
    · exact ⟨_, rfl⟩
    · exact ⟨y.last, rfl⟩
  · simpa [setLast] using hwired o key c j hc hj

theorem update_settles (hq : env.HooksRead) (hcall : env.CallsMove (SettlesFrom E))
    (i : WatcherId) : Run.Moves (SettlesFrom E) (update env i) := by
  intro w u w' h
  rcases update_eq_some h with ⟨rfl, _⟩ | ⟨x, hx, ⟨_, rfl⟩ | ⟨_, held, w₁, hreact, rfl⟩⟩
  · exact carried_settlesFrom.refl w'
  · exact settlesFrom_setLast hx
  · exact carried_settlesFrom.trans _ _ _ (settlesFrom_setLast hx)
      (carried_settlesFrom.holding held (react_settles hq hcall x _) hreact)

variable {P Q : ObjectId → String → WatcherId → Prop}

/-- An update settles the watcher for good, if its data is held. -/
theorem settledBut_update (hq : env.HooksRead) (hcall : env.CallsMove (SettlesFrom E))
    {w w' : World κ σ} {u : Unit} {i : WatcherId} (h : update env i w = some (u, w'))
    (hcollects : w.Collecting E) (hE : ∀ o key j, E j → Q o key j) (hP : w.SettledBut P)
    (hPQ : ∀ o key j, P o key j → Q o key j ∨ (j = i ∧ .object o ∈ w.held)) :
    w'.SettledBut Q := by
  rcases update_eq_some h with ⟨rfl, hdead⟩ | ⟨x, hx, ⟨_, rfl⟩ | ⟨_, held, w₁, hreact, rfl⟩⟩
  · -- an update that does nothing was not of a watcher whose data is held
    refine hP.mono fun {j y} hy hp => ?_
    rcases hPQ _ _ _ hp with hq | ⟨rfl, hheld⟩
    · exact hq
    · have := hdead y hy
      rw [isAlive_of_mem_held hheld] at this
      cases this
  · exact settledBut_setLast hx hP fun _ _ _ hp => (hPQ _ _ _ hp).imp_right And.left
  · have hset := settlesFrom_setLast hx hcollects
    have hr := carried_settlesFrom.holding held (react_settles hq hcall x _) hreact
      (hset.collecting hcollects)
    exact hr.settled Q hE
      (settledBut_setLast hx hP fun _ _ _ hp => (hPQ _ _ _ hp).imp_right And.left)

/-- Updating a list settles every watcher in it whose data is held. -/
theorem settledBut_updateAll (hq : env.HooksRead) (hcall : env.CallsMove (SettlesFrom E))
    {is : List WatcherId} {w w' : World κ σ} {u : Unit} (h : updateAll env is w = some (u, w'))
    (hcollects : w.Collecting E) {o : ObjectId} (hheld : .object o ∈ w.held) {key : String}
    (hE : ∀ p k j, E j → P p k j)
    (hP : w.SettledBut fun p k i => P p k i ∨ (p = o ∧ k = key ∧ i ∈ is)) :
    w'.SettledBut P := by
  induction is generalizing w with
  | nil =>
    obtain ⟨rfl, rfl⟩ := Run.pure_eq_some.mp h
    refine hP.mono fun _ hp => ?_
    rcases hp with hp | ⟨_, _, hmem⟩
    · exact hp
    · cases hmem
  | cons j rest ih =>
    obtain ⟨_, w₁, h₁, h₂⟩ := Run.bind_eq_some.mp h
    have hstep := update_settles hq hcall j h₁ hcollects
    refine ih h₂ (hstep.collecting hcollects) (by rw [hstep.held]; exact hheld) ?_
    refine settledBut_update hq hcall h₁ hcollects (fun p k i hi => .inl (hE p k i hi)) hP
      fun p k i hp => ?_
    rcases hp with hp | ⟨rfl, rfl, hmem⟩
    · exact .inl (.inl hp)
    · rcases List.mem_cons.mp hmem with rfl | hrest
      · exact .inr ⟨rfl, hheld⟩
      · exact .inl (.inr ⟨rfl, rfl, hrest⟩)

/-- Storing a value unsettles the subscribers of the field and nobody else. -/
theorem settledBut_storing {w : World κ σ} {o : ObjectId} {key : String} (v : Value)
    (hP : w.SettledBut fun p k i =>
      P p k i ∨ (p = o ∧ k = key ∧ i ∈ w.heap.subscribers o key)) :
    (w.storing o key v).SettledBut fun p k i =>
      P p k i ∨ (p = o ∧ k = key ∧ i ∈ w.heap.subscribers o key) := by
  intro i x c hx hc hi hnot
  have hc' : (w.heap.store o key v).cell? x.data x.key = some c := hc
  rw [Heap.cell?_store] at hc'
  split at hc'
  · next hp =>
    obtain ⟨c₀, hc₀, rfl⟩ := Option.map_eq_some_iff.mp hc'
    obtain ⟨rfl, rfl⟩ := hp
    exact absurd (.inr ⟨rfl, rfl, Heap.mem_subscribers.mpr ⟨c₀, hc₀, hi⟩⟩) hnot
  · exact hP i x c hx hc' hi hnot

theorem enrolled_storing {w : World κ σ} {i : WatcherId} (h : w.Enrolled i) (o : ObjectId)
    (key : String) (v : Value) : (w.storing o key v).Enrolled i :=
  h.of_lists (fun {x} hx => ⟨x.last, hx⟩) fun p k hi =>
    (Heap.subscribers_store w.heap o key v p k).symm ▸ hi

theorem collecting_storing {w : World κ σ} (h : w.Collecting E) (o : ObjectId) (key : String)
    (v : Value) : (w.storing o key v).Collecting E :=
  fun i hi => (h i hi).imp_right fun henrolled => enrolled_storing henrolled o key v

theorem wired_storing {w : World κ σ} (hwired : w.Wired E) (o : ObjectId) (key : String)
    (v : Value) : (w.storing o key v).Wired E := by
  intro p k c i hc hi
  have hmem : i ∈ (w.heap.store o key v).subscribers p k := Heap.mem_subscribers.mpr ⟨c, hc, hi⟩
  rw [Heap.subscribers_store] at hmem
  obtain ⟨c₀, hc₀, hi₀⟩ := Heap.mem_subscribers.mp hmem
  exact hwired p k c₀ i hc₀ hi₀

/-- A write that comes to the store leaves the subscribers of its field settled, whatever was
unsettled before it. -/
theorem settledBut_write (hq : env.HooksRead) (hcall : env.CallsMove (SettlesFrom E))
    {o : ObjectId} {key : String} {v : Value} {w w' : World κ σ} {u : Unit}
    (hcollects : w.Collecting E)
    (hall : updateAll env (w.heap.subscribers o key) (w.storing o key v) = some (u, w'))
    (hE : ∀ p k j, E j → P p k j)
    (hP : w.SettledBut fun p k i =>
      P p k i ∨ (p = o ∧ k = key ∧ i ∈ w.heap.subscribers o key)) : w'.SettledBut P :=
  settledBut_updateAll hq hcall hall (collecting_storing hcollects o key v) List.mem_cons_self hE
    (settledBut_storing v hP)

theorem write_settles (hq : env.HooksRead) (hcall : env.CallsMove (SettlesFrom E))
    (o : ObjectId) (key : String) (v : Value) :
    Run.Moves (SettlesFrom E) (write env o key v) := by
  intro w u w' h
  rcases hq.write_reads h with
    ⟨hc, rfl⟩ | ⟨c, hc, ⟨_, rfl⟩ | ⟨_, w₁, w₂, hreads, hall, rfl⟩⟩
  · have hcell := Heap.cell?_putPlain hc v
    exact .of_cells rfl rfl rfl (fun {p k c'} hc' => (hcell p k).trans hc')
      fun {p k c'} hc' => .inl ((hcell p k).symm.trans hc')
  · exact carried_settlesFrom.refl w'
  · intro hcollects
    have htold := carried_settlesFrom.trans _ _ _ (.intercept w c.hook [v]) (.of_reads hreads)
      hcollects
    have hcollects₁ := htold.collecting hcollects
    have hsteps := carried_settlesFrom.updateAll (update_settles hq hcall) _ hall
      (collecting_storing hcollects₁ o key v)
    refine ⟨hsteps.current.trans htold.current, rfl, fun hi => ?_, fun hwired => ?_,
      fun P hE hP => ?_⟩
    · exact hsteps.enrolled (enrolled_storing (htold.enrolled hi) o key v)
    · exact hsteps.wired (wired_storing (htold.wired hwired) o key v)
    · have hsettled : w₂.SettledBut P := settledBut_write hq hcall hcollects₁ hall hE
        ((htold.settled P hE hP).mono fun _ hp => .inl hp)
      exact hsettled

theorem observe_settles (hook : Hook κ) (v : Value) :
    Run.Moves (σ := σ) (SettlesFrom E) (observe hook v) :=
  .modify fun w => .intercept w hook [v]

/-- A new watcher is settled from the start: what its hook did while it was reading subscribed
nobody but itself, and changed no value. -/
theorem watch_settles (hq : env.HooksRead) (expression : String) (o : ObjectId)
    (reaction : Reaction κ) :
    Run.Moves (SettlesFrom E) (watch env expression o reaction) := by
  intro w i w' h _
  obtain ⟨rfl, places, user, rfl⟩ := hq.watch_eq_some h
  have hpush := watcher?_push w
    { key := Text.trim expression, data := o,
      last := w.heap.peek o (Text.trim expression), reaction }
  refine ⟨rfl, rfl, fun {j} hj => ?_, fun hwired p k c j hc hj => ?_, fun P _ hP => ?_⟩
  · refine hj.of_lists (fun {x} hx => ⟨x.last, ?_⟩) fun p k hi => ?_
    · exact watcher?_push_of_some hx _
    · obtain ⟨n, hn⟩ := Heap.subscribers_subscribeAll w.heap ⟨w.watchers.size⟩ _ p k
      exact hn.symm ▸ List.mem_append_left _ hi
  · dsimp only at hc ⊢
    rw [Heap.cell?_subscribeAll] at hc
    obtain ⟨c₀, hc₀, rfl⟩ := Option.map_eq_some_iff.mp hc
    rw [Table.size_push]
    rcases List.mem_append.mp hj with hold | hnew
    · exact (hwired p k c₀ j hc₀ hold).imp_right fun hlt => Nat.lt_succ_of_lt hlt
    · rw [List.eq_of_mem_replicate hnew]
      exact .inr (Nat.lt_succ_self _)
  · intro j y c hy hc hj hnot
    dsimp only at hc
    rw [Heap.cell?_subscribeAll] at hc
    obtain ⟨c₀, hc₀, rfl⟩ := Option.map_eq_some_iff.mp hc
    have hy' := (hpush j).symm.trans hy
    by_cases hj' : j = ⟨w.watchers.size⟩
    · rw [if_pos hj'] at hy'
      obtain rfl := Option.some.inj hy'
      have hpeek := Heap.peek_of_cell? hc₀
      exact hpeek
    · rw [if_neg hj'] at hy'
      rcases List.mem_append.mp hj with hold | hnew
      · exact hP j y c₀ hy' hc₀ hold hnot
      · exact absurd (List.eq_of_mem_replicate hnew) hj'

/-! ## Whole runs -/

theorem bind_settles (hq : env.HooksRead) (d : Directive) (n : NodeId) (expression : String)
    (kit : Kit κ) : Run.Moves (SettlesFrom E) (d.bind env n expression kit) := by
  have hread : ∀ key, Run.Moves (SettlesFrom E) (read env kit.data key) := fun key _ _ _ h =>
    .of_reads (hq.read_reads kit.data key h)
  cases d with
  | model =>
    exact carried_settlesFrom.holding _ (carried_settlesFrom.bindModel hread
      (fun e => watch_settles hq e _ _) (fun w _ => .mapDocument w _)
      (fun w _ => .mapDocument w _) _)
  | text =>
    exact carried_settlesFrom.holding _ (carried_settlesFrom.bindText
      (fun e _ => watch_settles hq e _ _) (fun e => watch_settles hq e _ _)
      (fun t => render_settles hq t _) (fun w _ => .mapDocument w _) _ _)
  | on event => exact .modify fun w => .mapDocument w _

/-- A request that is not made of others settles. -/
theorem simple_settles (hq : env.HooksRead) (hcall : env.CallsMove (SettlesFrom E))
    {α : Type} (r : Request κ α) (hr : r.isCompound = false) :
    Run.Moves (SettlesFrom E) (r.perform env) := by
  have hdocument : ∀ f, Run.Moves (SettlesFrom E)
      (modify (World.mapDocument f) : Run κ σ Unit) := fun f => .modify fun w => .mapDocument w f
  intro w a w' h
  cases r with
  | newObject =>
    obtain ⟨rfl, rfl⟩ := Prod.mk.inj (Run.changing_eq_some.mp h)
    have hcell : ∀ o key, (w.heap.alloc ∅).2.cell? o key = w.heap.cell? o key :=
      Heap.cell?_alloc fun _ => rfl
    exact .of_cells rfl rfl rfl (fun {o key c} hc => (hcell o key).trans hc)
      fun {o key c} hc => .inl ((hcell o key).symm.trans hc)
  | newArray items =>
    obtain ⟨rfl, rfl⟩ := Prod.mk.inj (Run.changing_eq_some.mp h)
    exact .of_cells rfl rfl rfl id .inl
  | ofJson j =>
    obtain ⟨rfl, rfl⟩ := Prod.mk.inj (Run.changing_eq_some.mp h)
    have hcell := Heap.cell?_ofJson w.heap j
    exact .of_cells rfl rfl rfl (fun {o key c} hc => (hcell o key).trans hc)
      fun {o key c} hc => .inl ((hcell o key).symm.trans hc)
  | write o key v => exact write_settles hq hcall o key v h
  | observe hook v => exact observe_settles hook v h
  | watch expression o code => exact watch_settles hq expression o _ h
  | update i => exact update_settles hq hcall i h
  | newNode content =>
    obtain ⟨rfl, rfl⟩ := Prod.mk.inj (Run.changing_eq_some.mp h)
    exact .of_cells rfl rfl rfl id .inl
  | setAttribute n name value => exact hdocument _ h
  | setText n text => exact hdocument _ h
  | setValue n text => exact hdocument _ h
  | appendChildren n children => exact hdocument _ h
  | detachChildren n =>
    obtain ⟨rfl, rfl⟩ := Prod.mk.inj (Run.changing_eq_some.mp h)
    exact .mapDocument w _
  | listen n event code => exact hdocument _ h
  | _ => cases hr

theorem steps_settle (hq : env.HooksRead) (hcall : env.CallsMove (SettlesFrom E))
    {may : {α : Type} → World κ σ → Request κ α → Bool} :
    Steps env (SettlesFrom E) (fun _ => True) (fun _ _ => True) may where
  carried := carried_settlesFrom
  hooks := hq
  calls := hcall
  guard h := h trivial
  walk := ⟨fun _ _ _ _ _ => trivial, fun _ _ _ _ _ => trivial, fun _ _ _ _ => trivial⟩
  reads := .of_reads
  simple r _ _ _ hr _ h := simple_settles hq hcall r hr h
  observe := observe_settles
  writeText o key text := write_settles hq hcall o key (.text text)
  setProperty _ h := write_settles hq hcall _ _ _ h
  enter _ := .mapDocument _ _
  bind n d expression kit _ _ _ _ h := bind_settles hq d n expression kit h
  detach w _ := .mapDocument w _
  append w _ _ _ _ := .mapDocument w _
  okBind _ _ := trivial
  okCompile _ _ := trivial
  okMount _ _ _ _ := trivial

/-- The world in which nothing has happened yet. -/
def World.fresh (user : σ) : World κ σ := { user }

section

variable {host : Host κ σ} {rule : {α : Type} → Option Occasion → World κ σ → Request κ α → Bool}
  {mayEnter : World κ σ → WatcherId → Bool} {depth : Nat} {α : Type} {p : Program κ σ α}
  {w w' : World κ σ} {user : σ} {a : α}

/-- Any two worlds that an orderly run leads from and to are related by `SettlesFrom`. -/
theorem run_settles_entering (hE : ∀ w i, mayEnter w i = true → E i ∨ w.Enrolled i)
    (hrun : host.run depth p w = some (a, w'))
    (hob : host.Obeys (.orderly rule mayEnter) depth p w) : w.SettlesFrom E w' := by
  refine Host.runUnder_moves_of_requests carried_settlesFrom (fun w f => .user w (f w.user))
    (settlesFrom_enters hE) ?_ hrun hob
  intro env on henv _ β r w₁ b w₂ hmay h
  have hsteps : Steps env (SettlesFrom E) _ _ (rule on) :=
    steps_settle henv.hooks henv.calls
  exact hsteps.request r hmay h

theorem run_settles (hrun : host.run depth p w = some (a, w'))
    (hob : host.Obeys (.orderly rule) depth p w) : w.SettlesFrom Nobody w' :=
  run_settles_entering (fun _ _ h => absurd h Bool.false_ne_true) hrun hob

/-- When an orderly run is over, the world is settled but for the watchers that were let collect
before they were enrolled. -/
theorem settledBut_of_orderly (hE : ∀ w i, mayEnter w i = true → E i ∨ w.Enrolled i)
    (hrun : host.run depth p (.fresh user) = some (a, w))
    (hob : host.Obeys (.orderly rule mayEnter) depth p (.fresh user)) :
    w.SettledBut fun _ _ i => E i := by
  have hfresh : (World.fresh user : World κ σ).SettledBut fun _ _ i => E i := by
    intro i x c hx hc hi _
    cases hc
  exact (run_settles_entering hE hrun hob (.nobody rfl)).settled _ (fun _ _ _ => id) hfresh

/-- Whatever rule user code keeps, the world is settled when an orderly run is over. -/
theorem settled_of_orderly (hrun : host.run depth p (.fresh user) = some (a, w))
    (hob : host.Obeys (.orderly rule) depth p (.fresh user)) : w.Settled :=
  settledBut_false.mp
    (settledBut_of_orderly (fun _ _ h => absurd h Bool.false_ne_true) hrun hob)

end

/-- **No lost update.** When a run is over in which hooks only read and record and nobody lets a
watcher collect, every watcher that is subscribed to its own field has seen the very value that the
field has. -/
theorem settled_of_run {host : Host κ σ} {depth : Nat} {α : Type} {p : Program κ σ α} {user : σ}
    {a : α} {w : World κ σ} (hrun : host.run depth p (.fresh user) = some (a, w))
    (hob : host.Obeys (.orderly fun _ _ _ => true) depth p (.fresh user)) : w.Settled :=
  settled_of_orderly hrun hob

namespace Rewriting

/-- A callback that answers `true` by writing a text to the same key and watching it once more. -/
def host : Host Bool Unit where
  body
    | true, .changed (.bool true) =>
      .andThen (.request (.write ⟨0⟩ "a" (.text "b"))) fun _ =>
      .andThen (.request (.watch "a" ⟨0⟩ false)) fun _ => .done (.ok ())
    | _, _ => .done (.ok ())
  handles _ := []

/-- Two watchers of one key, the first with that callback, and a write. -/
def program : Program Bool Unit Unit :=
  .andThen (.request .newObject) fun o =>
  .andThen (.request (.write o "a" (.bool false))) fun _ =>
  .andThen (.request (.observe .silent (.object o))) fun _ =>
  .andThen (.request (.watch "a" o true)) fun _ =>
  .andThen (.request (.watch "a" o false)) fun _ =>
  .request (.write o "a" (.bool true))

end Rewriting

theorem settled_of_run_rewriting :
    ∃ u w, Rewriting.host.run 3 Rewriting.program (.fresh ()) = some (u, w) ∧
      Rewriting.host.Obeys (.orderly fun _ _ _ => true) 3 Rewriting.program (.fresh ()) ∧
      (w.heap.subscribers ⟨0⟩ "a").length = 3 ∧ w.Settled := by
  have hends : (Rewriting.host.run 3 Rewriting.program (.fresh ())).any
      (fun r => (r.2.heap.subscribers ⟨0⟩ "a").length == 3) = true := by decide +kernel
  have hob : Rewriting.host.Obeys (.orderly fun _ _ _ => true) 3 Rewriting.program
      (.fresh ()) := by
    unfold Host.Obeys
    decide +kernel
  obtain ⟨⟨u, w⟩, hrun, hthree⟩ := (Option.any_eq_true _ _).mp hends
  exact ⟨u, w, hrun, hob, by simpa using hthree, settled_of_run hrun hob⟩

end DataBinding
