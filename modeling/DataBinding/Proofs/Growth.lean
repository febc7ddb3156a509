import DataBinding.Proofs.Nodes
import DataBinding.Proofs.Scalars
import DataBinding.Proofs.Settled

/-!
# What a run only adds to

Watchers, subscriptions, nodes and listeners are never taken back: a later world has those of an
earlier one, subscriptions in the same order and new ones after them. So what is known at the end
of a run about who is bound to what held at every moment before, as far as things existed then.

A world is sound if nobody collects in it, the data is flat, what watchers saw last are scalars,
children exist, and whoever shows a value in a form control also listens there. Steps that write
scalars keep a world sound.

Where watchers are let collect, they may be subscribed later than when they are new, and nothing is
said of their subscriptions: `E` are those that may be let collect.
-/

namespace DataBinding

variable {κ σ : Type}

namespace World

/-- What is in order about the data, the watchers and the document. -/
structure Tidy (w : World κ σ) : Prop where
  closed : w.document.Closed
  flat : w.heap.Flat
  seen : ∀ {i x}, w.watcher? i = some x → x.last.isScalar = true
  heard : ∀ {i x n}, w.watcher? i = some x → x.reaction = .setValue n →
    .writeBack x.data x.key ∈ w.document.listenersFor n "input"

/-- A tidy world in which nobody collects and only watchers that exist are subscribed, those apart
that may be let collect. -/
structure Sound (w : World κ σ) (E : WatcherId → Prop := Nobody) : Prop where
  collecting : ∀ i, w.current = some i → E i
  wired : w.Wired E
  tidy : w.Tidy

/-- A later world has what an earlier one has. -/
structure Grows (w w' : World κ σ) (E : WatcherId → Prop := Nobody) : Prop where
  size : w.watchers.size ≤ w'.watchers.size
  watcher : ∀ {i x}, w.watcher? i = some x → ∃ last, w'.watcher? i = some { x with last }
  subscribers : ∀ o key, ∃ late, w'.heap.subscribers o key = w.heap.subscribers o key ++ late ∧
    ∀ i ∈ late, E i ∨ (w.watchers.size ≤ i.index ∧ i.index < w'.watchers.size)
  document : w.document.Extends w'.document

variable {E : WatcherId → Prop}

theorem Sound.current {w : World κ σ} (hs : w.Sound) : w.current = none :=
  Option.eq_none_iff_forall_ne_some.mpr hs.collecting

namespace Grows

theorem refl (w : World κ σ) : w.Grows w E :=
  ⟨Nat.le_refl _, fun {_ x} hx => ⟨x.last, hx⟩, fun _ _ => ⟨[], by simp⟩, .refl _⟩

theorem trans {a b c : World κ σ} (hab : a.Grows b E) (hbc : b.Grows c E) : a.Grows c E := by
  refine ⟨Nat.le_trans hab.size hbc.size, ?_, ?_, hab.document.trans hbc.document⟩
  · intro i x hx
    obtain ⟨_, hx₁⟩ := hab.watcher hx
    obtain ⟨last, hx₂⟩ := hbc.watcher hx₁
    exact ⟨last, hx₂⟩
  · intro o key
    obtain ⟨late, hlate, hnew⟩ := hab.subscribers o key
    obtain ⟨late', hlate', hnew'⟩ := hbc.subscribers o key
    refine ⟨late ++ late', by rw [hlate', hlate, List.append_assoc], ?_⟩
    intro i hi
    have hsize := hab.size
    have hsize' := hbc.size
    rcases List.mem_append.mp hi with hi | hi
    · exact (hnew i hi).imp_right fun h => by omega
    · exact (hnew' i hi).imp_right fun h => by omega

/-- What is held does not count. -/
theorem holding {a b : World κ σ} (h : a.Grows b E) (held held' : List Handle) :
    Grows { a with held } { b with held := held' } E :=
  ⟨h.size, h.watcher, h.subscribers, h.document⟩

/-- Nothing has changed but values, the user's state and what is held, or the document grew. -/
theorem of_eq {w w' : World κ σ} (hwatchers : w'.watchers = w.watchers)
    (hsubscribers : ∀ o key, w'.heap.subscribers o key = w.heap.subscribers o key)
    (hdocument : w.document.Extends w'.document) : w.Grows w' E := by
  refine ⟨Nat.le_of_eq (congrArg Table.size hwatchers.symm), ?_, ?_, hdocument⟩
  · intro i x hx
    refine ⟨x.last, ?_⟩
    rw [watcher?_of_watchers hwatchers]
    exact hx
  · intro o key
    exact ⟨[], by rw [hsubscribers, List.append_nil], fun i hi => absurd hi (by simp)⟩

variable {w w' : World κ σ}

/-- A watcher of the later world that is not new was there in the earlier one. -/
theorem watcher_of_lt (h : w.Grows w' E) {i : WatcherId} {x : Watcher κ}
    (hx : w'.watcher? i = some x) (hi : i.index < w.watchers.size) :
    ∃ last, w.watcher? i = some { x with last } := by
  cases hw : w.watcher? i with
  | none =>
    have := Table.find?_eq_none_iff.mp hw
    omega
  | some y =>
    obtain ⟨last, hy⟩ := h.watcher hw
    obtain rfl := Option.some.inj (hx.symm.trans hy)
    exact ⟨y.last, rfl⟩

theorem mem_subscribers (h : w.Grows w' E) {o : ObjectId} {key : String} {i : WatcherId}
    (hi : i ∈ w.heap.subscribers o key) : i ∈ w'.heap.subscribers o key := by
  obtain ⟨late, hlate, _⟩ := h.subscribers o key
  rw [hlate]
  exact List.mem_append_left _ hi

/-- While nobody is let collect, nobody subscribes later than when they are new. -/
theorem mem_subscribers_of_lt (h : w.Grows w') {o : ObjectId} {key : String} {i : WatcherId}
    (hi : i ∈ w'.heap.subscribers o key) (hlt : i.index < w.watchers.size) :
    i ∈ w.heap.subscribers o key := by
  obtain ⟨late, hlate, hnew⟩ := h.subscribers o key
  rw [hlate] at hi
  rcases List.mem_append.mp hi with hi | hi
  · exact hi
  · have := ((hnew i hi).resolve_left id).1
    omega

theorem runsCode (h : w.Grows w' E) {i : WatcherId} (hi : w.RunsCode i) : w'.RunsCode i := by
  obtain ⟨x, hx, hcode⟩ := hi
  obtain ⟨last, hx'⟩ := h.watcher hx
  exact ⟨_, hx', hcode⟩

theorem wired (h : w.Grows w' E) (hw : w.Wired E) : w'.Wired E := by
  intro o key c i hc hi
  obtain ⟨late, hlate, hnew⟩ := h.subscribers o key
  have hmem : i ∈ w'.heap.subscribers o key := Heap.mem_subscribers.mpr ⟨c, hc, hi⟩
  rw [hlate] at hmem
  rcases List.mem_append.mp hmem with hold | hi
  · obtain ⟨c, hc, hi⟩ := Heap.mem_subscribers.mp hold
    exact (hw o key c i hc hi).imp_right fun hlt => Nat.lt_of_lt_of_le hlt h.size
  · exact (hnew i hi).imp_right And.right

end Grows

/-- What a step of a run of proper requests does. -/
structure Advances (w w' : World κ σ) (E : WatcherId → Prop := Nobody) : Prop where
  sound : w'.Sound E
  grows : w.Grows w' E
  current : w'.current = w.current
  held : w'.held = w.held

/-- The relation of the worlds before and after such a step. -/
def AdvancesFrom (E : WatcherId → Prop) (w w' : World κ σ) : Prop :=
  w.Sound E → w.Advances w' E

theorem Sound.hold {w : World κ σ} (hs : w.Sound E) (held : List Handle) :
    Sound { w with held := held } E :=
  ⟨hs.collecting, hs.wired, hs.tidy.closed, hs.tidy.flat, hs.tidy.seen, hs.tidy.heard⟩

/-- Who collects does not count, as long as it may be let collect. -/
theorem Sound.collect {w : World κ σ} (hs : w.Sound E) {current : Option WatcherId}
    (hcurrent : ∀ i, current = some i → E i) : Sound { w with current } E :=
  ⟨hcurrent, hs.wired, hs.tidy.closed, hs.tidy.flat, hs.tidy.seen, hs.tidy.heard⟩

/-- A step that keeps the world tidy keeps it sound. -/
theorem AdvancesFrom.of_tidy {w w' : World κ σ} (hcurrent : w'.current = w.current)
    (hheld : w'.held = w.held) (h : w.Sound E → w'.Tidy ∧ w.Grows w' E) :
    w.AdvancesFrom E w' := by
  intro hs
  obtain ⟨htidy, hgrows⟩ := h hs
  exact ⟨⟨fun i hi => hs.collecting i (hcurrent ▸ hi), hgrows.wired hs.wired, htidy⟩, hgrows,
    hcurrent, hheld⟩

theorem carried_advancesFrom : Carried (AdvancesFrom (κ := κ) (σ := σ) E) where
  refl w hs := ⟨hs, .refl w, rfl, rfl⟩
  trans a b c hab hbc := by
    intro hs
    have h₁ := hab hs
    have h₂ := hbc h₁.sound
    exact ⟨h₂.sound, h₁.grows.trans h₂.grows, h₂.current.trans h₁.current, h₂.held.trans h₁.held⟩
  hold := by
    intro w w' held h hs
    have h' := h (hs.hold held)
    exact ⟨h'.sound.hold w.held, h'.grows.holding w.held w.held, h'.current, rfl⟩

/-- What is done while a watcher collects that may be let collect. -/
theorem advancesFrom_enters {mayEnter : World κ σ → WatcherId → Bool}
    (hE : ∀ w i, mayEnter w i = true → E i) :
    Carried.EntersAlong (AdvancesFrom E) mayEnter := by
  intro w w' i henter h hs
  have h' := h (hs.collect fun j hj => Option.some.inj hj ▸ hE w i henter)
  exact ⟨h'.sound.collect hs.collecting,
    ⟨h'.grows.size, h'.grows.watcher, h'.grows.subscribers, h'.grows.document⟩, rfl, h'.held⟩

/-! ## Steps without watchers -/

/-- A step that leaves watchers and subscriptions alone. -/
theorem AdvancesFrom.of_lists {w w' : World κ σ} (hwatchers : w'.watchers = w.watchers)
    (hcurrent : w'.current = w.current) (hheld : w'.held = w.held)
    (hsubscribers : ∀ o key, w'.heap.subscribers o key = w.heap.subscribers o key)
    (hflat : w.heap.Flat → w'.heap.Flat) (hdocument : w.document.Evolves w'.document) :
    w.AdvancesFrom E w' := by
  refine .of_tidy hcurrent hheld fun hs =>
    ⟨?_, .of_eq hwatchers hsubscribers hdocument.document⟩
  refine ⟨hdocument.closed hs.tidy.closed, hflat hs.tidy.flat, ?_, ?_⟩
  · intro i x hx
    rw [watcher?_of_watchers hwatchers] at hx
    exact hs.tidy.seen hx
  · intro i x n hx hreact
    rw [watcher?_of_watchers hwatchers] at hx
    exact hdocument.document.listeners (hs.tidy.heard hx hreact)

theorem AdvancesFrom.mapDocument (w : World κ σ) {f : Document κ → Document κ}
    (hdocument : w.document.Evolves (f w.document)) : w.AdvancesFrom E (w.mapDocument f) :=
  .of_lists rfl rfl rfl (fun _ _ => rfl) id hdocument

theorem AdvancesFrom.user (w : World κ σ) (user : σ) :
    w.AdvancesFrom E { w with user := user } :=
  .of_lists rfl rfl rfl (fun _ _ => rfl) id (.refl _)

/-- Whoever collects joins lists at their ends while something is read. -/
theorem AdvancesFrom.of_reads {w w' : World κ σ} (h : w.Reads w') : w.AdvancesFrom E w' := by
  obtain ⟨places, user, rfl⟩ := h
  refine .of_tidy rfl rfl fun hs => ⟨⟨hs.tidy.closed, ?_, hs.tidy.seen, hs.tidy.heard⟩,
    ⟨Nat.le_refl _, fun {_ x} hx => ⟨x.last, hx⟩, fun o key => ?_, .refl _⟩⟩
  · intro o key
    show ((w.heap.subscribeAll _ places).peek o key).isScalar = true
    rw [Heap.peek_subscribeAll]
    exact hs.tidy.flat o key
  · show ∃ late, (w.heap.subscribeAll w.current places).subscribers o key = _ ∧ _
    cases hcur : w.current with
    | none => exact ⟨[], by simp, fun i hi => absurd hi (by simp)⟩
    | some i =>
      obtain ⟨n, hn⟩ := Heap.subscribers_subscribeAll w.heap i places o key
      refine ⟨List.replicate n i, hn, fun j hj => .inl ?_⟩
      rw [List.eq_of_mem_replicate hj]
      exact hs.collecting i hcur

theorem AdvancesFrom.setText (w : World κ σ) (n : NodeId) (text : String) :
    w.AdvancesFrom E (w.mapDocument fun d => d.setText n text) :=
  .mapDocument w (.setText _ n text)

theorem AdvancesFrom.setValue (w : World κ σ) (n : NodeId) (text : String) :
    w.AdvancesFrom E (w.mapDocument fun d => d.setValue n text) :=
  .mapDocument w (.setValue _ n text)

theorem AdvancesFrom.intercept (w : World κ σ) (hook : Hook κ) (values : List Value) :
    w.AdvancesFrom E (w.mapHeap fun h => h.intercept hook values) := by
  refine .of_lists rfl rfl rfl ?_ ?_ (.refl _)
  · exact fun o key => Heap.subscribers_intercept hook w.heap values o key
  · intro hflat o key
    show ((w.heap.intercept hook values).peek o key).isScalar = true
    rw [Heap.peek_intercept]
    exact hflat o key

theorem observe_advances (hook : Hook κ) (v : Value) :
    Run.Moves (σ := σ) (AdvancesFrom E) (observe hook v) :=
  .modify fun w => .intercept w hook [v]

end World

open World

variable {env : Env κ σ} {E : WatcherId → Prop}

/-! ## Watchers -/

/-- Noting the value of a key. -/
theorem advancesFrom_setLast (w : World κ σ) (i : WatcherId) (o : ObjectId) (key : String) :
    w.AdvancesFrom E (w.setLast i (w.heap.peek o key)) := by
  refine .of_tidy rfl rfl fun hs => ⟨⟨hs.tidy.closed, hs.tidy.flat, ?_, ?_⟩, ?_⟩
  · intro j y hy
    rw [watcher?_setLast] at hy
    split at hy
    · obtain ⟨z, _, rfl⟩ := Option.map_eq_some_iff.mp hy
      exact hs.tidy.flat o key
    · exact hs.tidy.seen hy
  · intro j y n hy hreact
    rw [watcher?_setLast] at hy
    split at hy
    · obtain ⟨z, hz, rfl⟩ := Option.map_eq_some_iff.mp hy
      exact hs.tidy.heard (x := z) hz hreact
    · exact hs.tidy.heard hy hreact
  · refine ⟨by simp [setLast], ?_, fun o key => ⟨[], by simp [setLast], by simp⟩, .refl _⟩
    intro j y hy
    rw [watcher?_setLast, hy]
    split
    · exact ⟨_, rfl⟩
    · exact ⟨y.last, rfl⟩

/-- A new watcher that has seen the value of its key, with whatever its directive does to the
document. -/
theorem tidy_watched {w : World κ σ} (hs : w.Sound E) {x : Watcher κ}
    (hlast : x.last = w.heap.peek x.data x.key) (places : List (ObjectId × String))
    {document : Document κ} (user : σ) (hdocument : w.document.Extends document)
    (hclosed : document.Closed)
    (hheard : ∀ n, x.reaction = .setValue n →
      .writeBack x.data x.key ∈ document.listenersFor n "input") :
    let w' : World κ σ := { w with
      watchers := w.watchers.push x
      heap := w.heap.subscribeAll (some ⟨w.watchers.size⟩) places
      document
      user }
    w'.Tidy ∧ w.Grows w' E := by
  intro w'
  have hpush : ∀ j, w'.watcher? j = if j = ⟨w.watchers.size⟩ then some x else w.watcher? j :=
    fun j => watcher?_push w x j
  refine ⟨⟨hclosed, ?_, ?_, ?_⟩, ?_, ?_, ?_, hdocument⟩
  · intro o key
    show ((w.heap.subscribeAll _ places).peek o key).isScalar = true
    rw [Heap.peek_subscribeAll]
    exact hs.tidy.flat o key
  · intro j y hy
    rw [hpush] at hy
    split at hy
    · obtain rfl := Option.some.inj hy
      rw [hlast]
      exact hs.tidy.flat _ _
    · exact hs.tidy.seen hy
  · intro j y n hy hreact
    rw [hpush] at hy
    split at hy
    · obtain rfl := Option.some.inj hy
      exact hheard n hreact
    · exact hdocument.listeners (hs.tidy.heard hy hreact)
  · show w.watchers.size ≤ (w.watchers.push x).size
    rw [Table.size_push]
    omega
  · intro j y hy
    exact ⟨y.last, watcher?_push_of_some hy x⟩
  · -- the new watcher joins the lists at their ends
    intro o key
    show ∃ late, (w.heap.subscribeAll _ places).subscribers o key = _ ∧ _
    obtain ⟨n, hn⟩ := Heap.subscribers_subscribeAll w.heap ⟨w.watchers.size⟩ places o key
    refine ⟨List.replicate n ⟨w.watchers.size⟩, hn, fun i hi => ?_⟩
    rw [List.eq_of_mem_replicate hi]
    right
    show w.watchers.size ≤ w.watchers.size ∧ w.watchers.size < (w.watchers.push x).size
    rw [Table.size_push]
    omega

theorem watch_advances (hq : env.HooksRead) (expression : String) (o : ObjectId)
    {reaction : Reaction κ} (hreact : ∀ n, reaction ≠ .setValue n) :
    Run.Moves (AdvancesFrom E) (watch env expression o reaction) := by
  intro w i w' h
  obtain ⟨rfl, places, user, rfl⟩ := hq.watch_eq_some h
  refine .of_tidy rfl rfl fun hs => ?_
  exact tidy_watched hs rfl _ user (.refl _) hs.tidy.closed fun n hn => absurd hn (hreact n)

/-! ## Updates and writes -/

theorem react_advances (hq : env.HooksRead) (hcall : env.CallsMove (AdvancesFrom E))
    (x : Watcher κ) (v : Value) : Run.Moves (AdvancesFrom E) (x.react env v) := by
  unfold Watcher.react
  split
  · exact .modify fun w => .setValue w _ _
  · exact .modify fun w => .setText w _ _
  · exact carried_advancesFrom.bind (fun _ _ _ h => .of_reads (hq.render_eq_some h).2) fun _ =>
      .modify fun w => .setText w _ _
  · exact .discard (hcall _ _ rfl)

theorem update_advances (hq : env.HooksRead) (hcall : env.CallsMove (AdvancesFrom E))
    (i : WatcherId) : Run.Moves (AdvancesFrom E) (update env i) := by
  intro w u w' h
  rcases update_eq_some h with ⟨rfl, _⟩ | ⟨x, hx, ⟨_, rfl⟩ | ⟨_, held, w₁, hreact, rfl⟩⟩
  · exact carried_advancesFrom.refl w'
  · exact advancesFrom_setLast w i _ _
  · exact carried_advancesFrom.trans _ _ _ (advancesFrom_setLast w i _ _)
      (carried_advancesFrom.holding held (react_advances hq hcall x _) hreact)

/-- The world in which the subscribers of a field are updated is sound too. -/
theorem sound_storing {w : World κ σ} (hs : w.Sound E) (o : ObjectId) (key : String)
    {v : Value} (hv : v.isScalar = true) :
    (w.storing o key v).Sound E ∧ w.Grows (w.storing o key v) E := by
  refine ⟨⟨hs.collecting, wired_storing hs.wired o key v, ?_⟩, ?_⟩
  · exact ⟨hs.tidy.closed, hs.tidy.flat.store o key hv, hs.tidy.seen, hs.tidy.heard⟩
  · exact .of_eq rfl (Heap.subscribers_store w.heap o key v) (.refl _)

theorem sound_stored {w : World κ σ} (hs : w.Sound E) (o : ObjectId) (key : String) (c : Cell κ)
    {v : Value} (hv : v.isScalar = true) (user : σ) :
    (w.stored o key c v user).Sound E ∧ w.Grows (w.stored o key c v user) E := by
  have htold := carried_advancesFrom.trans _ _ _ (.intercept w c.hook [v]) (.user _ user) hs
  obtain ⟨hstored, hgrows⟩ := sound_storing htold.sound o key hv
  exact ⟨hstored, htold.grows.trans hgrows⟩

theorem write_advances (hq : env.HooksRead) (hcall : env.CallsMove (AdvancesFrom E))
    (o : ObjectId) (key : String) {v : Value} (hv : v.isScalar = true) :
    Run.Moves (AdvancesFrom E) (write env o key v) := by
  intro w u w' h
  rcases hq.write_reads h with
    ⟨hc, rfl⟩ | ⟨c, hc, ⟨_, rfl⟩ | ⟨_, w₁, w₂, hreads, hall, rfl⟩⟩
  · refine .of_lists rfl rfl rfl ?_ ?_ (.refl _)
    · exact fun p k => Heap.subscribers_congr (Heap.cell?_putPlain hc v p k)
    · exact fun hflat => hflat.putPlain o key hv
  · exact carried_advancesFrom.refl w'
  · intro hs
    have htold := carried_advancesFrom.trans _ _ _ (.intercept w c.hook [v]) (.of_reads hreads) hs
    obtain ⟨hstored, hgrows⟩ := sound_storing htold.sound o key hv
    have hall := carried_advancesFrom.updateAll (update_advances hq hcall) _ hall hstored
    have hgrows₁ := (htold.grows.trans hgrows).trans hall.grows
    exact ⟨hall.sound.hold w.held, hgrows₁.holding w.held w.held,
      hall.current.trans htold.current, rfl⟩

end DataBinding
