import DataBinding.Proofs.Settled
import DataBinding.Proofs.Trees

/-!
# Whom a mounted app enlists

The watchers of a mounted app all watch its data, and whoever of them is subscribed to anything is
subscribed to the field that it watches: a hook that reads other fields while a watcher is being
built subscribes it there too, but only after it was subscribed at home. The listeners of the app
write its data or call its methods.

Mounting brings this about. From then on nothing changes it as long as nobody binds, watches or
listens.
-/

namespace DataBinding

variable {κ σ : Type}

/-- Whether a request makes watchers or listeners. -/
def Request.binds {κ α : Type} : Request κ α → Bool
  | .watch _ _ _ => true
  | .listen _ _ _ => true
  | .bind _ _ _ _ => true
  | .compile _ _ => true
  | .mount _ _ _ => true
  | _ => false

/-- Hooks only read and record, and nobody makes watchers or listeners, or lets a watcher
collect. -/
def Conduct.unbinding : Conduct κ σ := .orderly fun _ _ r => !r.binds

/-- Whether a listener is one that a binding makes. -/
def Listener.IsBound (kit : Kit κ) : Listener κ → Prop
  | .writeBack data _ => data = kit.data
  | .callMethod data name method => data = kit.data ∧ method = kit.methods.find? name
  | .custom _ => False

namespace World

/-- All who are subscribed watch a field of the data and are subscribed there; certain nodes have
listeners that bindings make, and no others. -/
structure Enlisted (kit : Kit κ) (silent : NodeId → Prop) (w : World κ σ) : Prop where
  homed : ∀ {o key i}, i ∈ w.heap.subscribers o key →
    ∃ x, w.watcher? i = some x ∧ x.data = kit.data ∧ i ∈ w.heap.subscribers x.data x.key
  bound : ∀ {n}, silent n → ∀ entry ∈ (w.document.node n).listeners, entry.2.IsBound kit

/-- What a step does that starts without a collecting watcher. -/
def EnlistsFrom (kit : Kit κ) (silent : NodeId → Prop) (w w' : World κ σ) : Prop :=
  w.current = none → w.Enlisted kit silent → w'.current = none ∧ w'.Enlisted kit silent

theorem carried_enlistsFrom (kit : Kit κ) (silent : NodeId → Prop) :
    Carried (EnlistsFrom (σ := σ) kit silent) where
  refl _ hcur h := ⟨hcur, h⟩
  trans _ _ _ hab hbc := by
    intro hcur h
    obtain ⟨hcur', h'⟩ := hab hcur h
    exact hbc hcur' h'
  hold := by
    intro w w' held h hcur he
    obtain ⟨hcur', he'⟩ := h hcur ⟨he.homed, he.bound⟩
    exact ⟨hcur', he'.homed, he'.bound⟩

variable {kit : Kit κ} {silent : NodeId → Prop} {w w' : World κ σ}

/-- A step that leaves subscriptions alone, and what watchers are but not what they saw. -/
theorem EnlistsFrom.of_lists (hcurrent : w'.current = w.current)
    (hsubscribers : ∀ o key, w'.heap.subscribers o key = w.heap.subscribers o key)
    (hwatchers : ∀ {i x}, w.watcher? i = some x → ∃ last, w'.watcher? i = some { x with last })
    (hlisteners : ∀ n, (w'.document.node n).listeners = (w.document.node n).listeners) :
    w.EnlistsFrom kit silent w' := by
  intro hcur h
  refine ⟨hcurrent.trans hcur, ?_, ?_⟩
  · intro o key i hi
    rw [hsubscribers] at hi
    obtain ⟨x, hx, hdata, hhome⟩ := h.homed hi
    obtain ⟨last, hx'⟩ := hwatchers hx
    refine ⟨_, hx', hdata, ?_⟩
    rw [hsubscribers]
    exact hhome
  · intro n hn entry hentry
    rw [hlisteners] at hentry
    exact h.bound hn entry hentry

/-- A step of the document that leaves listeners alone. -/
theorem EnlistsFrom.mapDocument (w : World κ σ) {f : Document κ → Document κ}
    (hlisteners : ∀ n, ((f w.document).node n).listeners = (w.document.node n).listeners) :
    w.EnlistsFrom kit silent (w.mapDocument f) :=
  .of_lists rfl (fun _ _ => rfl) (fun {_ x} hx => ⟨x.last, hx⟩) hlisteners

/-- A step of the heap that leaves subscriptions alone. -/
theorem EnlistsFrom.mapHeap (w : World κ σ) {f : Heap κ → Heap κ}
    (hsubscribers : ∀ o key, (f w.heap).subscribers o key = w.heap.subscribers o key) :
    w.EnlistsFrom kit silent (w.mapHeap f) :=
  .of_lists rfl hsubscribers (fun {_ x} hx => ⟨x.last, hx⟩) fun _ => rfl

theorem EnlistsFrom.of_reads (h : w.Reads w') : w.EnlistsFrom kit silent w' := by
  intro hcur
  obtain ⟨user, rfl⟩ := h.of_current_eq_none hcur
  have hstep : w.EnlistsFrom kit silent { w with user } :=
    .of_lists rfl (fun _ _ => rfl) (fun {_ x} hx => ⟨x.last, hx⟩) fun _ => rfl
  exact hstep hcur

theorem EnlistsFrom.setText (w : World κ σ) (n : NodeId) (text : String) :
    w.EnlistsFrom kit silent (w.mapDocument fun d => d.setText n text) :=
  .mapDocument w fun m => Document.listeners_setText w.document n text m

theorem EnlistsFrom.setValue (w : World κ σ) (n : NodeId) (text : String) :
    w.EnlistsFrom kit silent (w.mapDocument fun d => d.setValue n text) :=
  .mapDocument w fun m => Document.listeners_setValue w.document n text m

theorem EnlistsFrom.detachChildren (w : World κ σ) (n : NodeId) :
    w.EnlistsFrom kit silent (w.mapDocument fun d => d.detachChildren n) :=
  .mapDocument w fun m => Document.listeners_detachChildren w.document n m

theorem EnlistsFrom.appendChildren (w : World κ σ) (n : NodeId) (cs : List NodeId) :
    w.EnlistsFrom kit silent (w.mapDocument fun d => d.appendChildren n cs) :=
  .mapDocument w fun m => Document.listeners_appendChildren w.document n cs m

/-- A binding adds listeners of its own. -/
theorem EnlistsFrom.addListener (w : World κ σ) (n : NodeId) (event : String) {l : Listener κ}
    (hl : l.IsBound kit) : w.EnlistsFrom kit silent (w.mapDocument fun d =>
      d.addListener n event l) := by
  intro hcur h
  refine ⟨hcur, h.homed, fun {m} hm entry hentry => ?_⟩
  by_cases hn : w.document.has n
  · have hentry : entry ∈ ((w.document.addListener n event l).node m).listeners := hentry
    rw [Document.listeners_addListener hn] at hentry
    rcases List.mem_append.mp hentry with hold | hnew
    · exact h.bound hm entry hold
    · split at hnew
      · rw [List.mem_singleton.mp hnew]
        exact hl
      · cases hnew
  · have hsame : (w.document.addListener n event l).node m = w.document.node m := by
      unfold Document.addListener
      rw [Document.node_modifyNode, if_neg]
      rintro ⟨rfl, hhas⟩
      exact hn hhas
    exact h.bound hm entry (hsame ▸ hentry)

end World

open World

variable {env : Env κ σ} {kit : Kit κ} {silent : NodeId → Prop}

/-! ## Watchers -/

/-- A field that is not reactive is read without anybody learning of it. -/
theorem read_eq_of_cell?_eq_none {o : ObjectId} {key : String} {w : World κ σ}
    (hc : w.heap.cell? o key = none) : read env o key w = some (w.heap.peek o key, w) := by
  unfold read
  rw [Run.get_bind]
  cases hs : w.heap.slot? o key with
  | none => simp [Heap.peek, hs]
  | some s =>
    cases s with
    | plain v => simp [Heap.peek, hs, Slot.value]
    | reactive c => simp [Heap.cell?, hs, Slot.cell?] at hc

/-- A watcher of such a field is subscribed nowhere. -/
theorem watch_eq_some_of_cell?_eq_none {expression : String} {o : ObjectId}
    {reaction : Reaction κ} {w w' : World κ σ} {i : WatcherId}
    (hc : w.heap.cell? o (Text.trim expression) = none)
    (hw : watch env expression o reaction w = some (i, w')) :
    w' = { w with
      watchers := w.watchers.push
        { key := Text.trim expression, data := o,
          last := w.heap.peek o (Text.trim expression), reaction } } := by
  obtain ⟨rfl, v, w₁, hread, rfl⟩ := watch_eq_some_iff.mp hw
  rw [read_eq_of_cell?_eq_none (by exact hc)] at hread
  obtain ⟨rfl, rfl⟩ := Prod.mk.inj (Option.some.inj hread)
  simp only [World.setLast, World.begun, Table.modify_push_size]

theorem watch_enlists (hq : env.HooksRead) (expression : String) (reaction : Reaction κ) :
    Run.Moves (EnlistsFrom kit silent) (watch env expression kit.data reaction) := by
  intro w i w' h hcur he
  cases hc : w.heap.cell? kit.data (Text.trim expression) with
  | none =>
    obtain rfl := watch_eq_some_of_cell?_eq_none hc h
    refine ⟨hcur, fun {o key j} hj => ?_, he.bound⟩
    obtain ⟨x, hx, hdata, hhome⟩ := he.homed hj
    exact ⟨x, watcher?_push_of_some hx _, hdata, hhome⟩
  | some c =>
    obtain ⟨rfl, places, user, rfl⟩ := hq.watch_eq_some h
    refine ⟨hcur, fun {o key j} hj => ?_, he.bound⟩
    obtain ⟨n, hn⟩ := Heap.subscribers_subscribeAll w.heap ⟨w.watchers.size⟩
      ((kit.data, Text.trim expression) :: places) o key
    have hj : j ∈ (w.heap.subscribeAll (some ⟨w.watchers.size⟩)
      ((kit.data, Text.trim expression) :: places)).subscribers o key := hj
    rw [hn] at hj
    rcases List.mem_append.mp hj with hold | hnew
    · obtain ⟨x, hx, hdata, hhome⟩ := he.homed hold
      obtain ⟨m, hm⟩ := Heap.subscribers_subscribeAll w.heap ⟨w.watchers.size⟩
        ((kit.data, Text.trim expression) :: places) x.data x.key
      refine ⟨x, watcher?_push_of_some hx _, hdata, ?_⟩
      show j ∈ (w.heap.subscribeAll _ _).subscribers x.data x.key
      rw [hm]
      exact List.mem_append_left _ hhome
    · -- the new watcher was subscribed to its own field first
      obtain rfl := List.eq_of_mem_replicate hnew
      refine ⟨_, (watcher?_push w _ _).trans (if_pos rfl), rfl, ?_⟩
      refine Heap.mem_subscribers.mpr
        ⟨_, (Heap.cell?_subscribeAll w.heap _ _ kit.data _).trans (congrArg _ hc), ?_⟩
      refine List.mem_append_right _ ?_
      rw [List.count_cons_self, List.replicate_succ]
      exact List.mem_cons_self

/-! ## Mounting -/

theorem bind_enlists (hq : env.HooksRead) (d : Directive) (n : NodeId) (expression : String) :
    Run.Moves (EnlistsFrom kit silent) (d.bind env n expression kit) := by
  have hcarried := carried_enlistsFrom (σ := σ) kit silent
  cases d with
  | model =>
    refine hcarried.holding _ (hcarried.bindModel ?_ ?_ ?_ ?_ _)
    · exact fun key _ _ _ h => .of_reads (hq.read_reads _ key h)
    · exact fun e => watch_enlists hq e _
    · exact fun w key => .addListener w n "input" rfl
    · exact fun w v => .setValue w n _
  | text =>
    refine hcarried.holding _ (hcarried.bindText ?_ ?_ ?_ ?_ _ _)
    · exact fun e t => watch_enlists hq e _
    · exact fun e => watch_enlists hq e _
    · exact fun t _ _ _ h => .of_reads (hq.render_eq_some h).2
    · exact fun w text => .setText w n text
  | on event => exact .modify fun w => .addListener w n event ⟨rfl, rfl⟩

theorem observe_enlists (hook : Hook κ) (v : Value) :
    Run.Moves (σ := σ) (EnlistsFrom kit silent) (observe hook v) :=
  .modify fun w => .mapHeap w fun o key => Heap.subscribers_intercept hook w.heap [v] o key

/-- Mounting enlists for its own data. -/
theorem mount_enlists (hq : env.HooksRead) (place : Mount) (hook : Hook κ) :
    Run.Moves (EnlistsFrom kit silent) (mount env place hook kit) := by
  intro w result w' h
  have hwalk : Carried.Walk (EnlistsFrom (κ := κ) (σ := σ) kit silent) fun _ _ => True :=
    ⟨fun _ _ _ _ _ => trivial, fun _ _ _ _ _ => trivial, fun _ _ _ _ => trivial⟩
  exact (carried_enlistsFrom kit silent).mount hwalk
    (fun n d expression _ _ _ _ hbind => bind_enlists hq d n expression hbind)
    (fun root _ w => .detachChildren w root) (fun root _ w ns _ _ => .appendChildren w root ns)
    observe_enlists (fun _ _ => trivial) h

/-! ## What happens after mounting -/

theorem react_enlists (hq : env.HooksRead) (hcall : env.CallsMove (EnlistsFrom kit silent))
    (x : Watcher κ) (v : Value) : Run.Moves (EnlistsFrom kit silent) (x.react env v) := by
  unfold Watcher.react
  split
  · exact .modify fun w => .setValue w _ _
  · exact .modify fun w => .setText w _ _
  · exact (carried_enlistsFrom kit silent).bind
      (fun _ _ _ h => .of_reads (hq.render_eq_some h).2) fun _ => .modify fun w => .setText w _ _
  · exact .discard (hcall _ _ rfl)

theorem enlistsFrom_setLast (w : World κ σ) (i : WatcherId) (v : Value) :
    w.EnlistsFrom kit silent (w.setLast i v) := by
  refine .of_lists rfl (fun _ _ => rfl) (fun {j x} hx => ?_) fun _ => rfl
  rw [watcher?_setLast, hx]
  split
  · exact ⟨v, rfl⟩
  · exact ⟨x.last, rfl⟩

theorem update_enlists (hq : env.HooksRead) (hcall : env.CallsMove (EnlistsFrom kit silent))
    (i : WatcherId) : Run.Moves (EnlistsFrom kit silent) (update env i) := by
  have hcarried := carried_enlistsFrom (σ := σ) kit silent
  intro w u w' h
  rcases update_eq_some h with ⟨rfl, _⟩ | ⟨x, hx, ⟨_, rfl⟩ | ⟨_, held, w₁, hreact, rfl⟩⟩
  · exact hcarried.refl w'
  · exact enlistsFrom_setLast w i _
  · exact hcarried.trans _ _ _ (enlistsFrom_setLast w i _)
      (hcarried.holding held (react_enlists hq hcall x _) hreact)

theorem write_enlists (hq : env.HooksRead) (hcall : env.CallsMove (EnlistsFrom kit silent))
    (o : ObjectId) (key : String) (v : Value) :
    Run.Moves (EnlistsFrom kit silent) (write env o key v) := by
  have hcarried := carried_enlistsFrom (σ := σ) kit silent
  intro w u w' h hcur he
  rcases hq.write_eq_some hcur h with
    ⟨hc, rfl⟩ | ⟨c, hc, ⟨_, rfl⟩ | ⟨_, user, w₁, hall, rfl⟩⟩
  · exact EnlistsFrom.mapHeap w
      (fun p k => Heap.subscribers_congr (Heap.cell?_putPlain hc v p k)) hcur he
  · exact ⟨hcur, he⟩
  · have hstored : w.EnlistsFrom kit silent (w.stored o key c v user) :=
      .of_lists rfl (subscribers_stored w o key c v user) (fun {_ x} hx => ⟨x.last, hx⟩)
        fun _ => rfl
    obtain ⟨hcur', he'⟩ := hstored hcur he
    obtain ⟨hcur₁, he₁⟩ := hcarried.updateAll (update_enlists hq hcall) _ hall hcur' he'
    exact ⟨hcur₁, he₁.homed, he₁.bound⟩

theorem simple_enlists (hq : env.HooksRead) (hcall : env.CallsMove (EnlistsFrom kit silent))
    {α : Type} (r : Request κ α) (hr : r.isCompound = false) (hbinds : r.binds = false) :
    Run.Moves (EnlistsFrom kit silent) (r.perform env) := by
  intro w a w' h
  -- what makes a watcher or a listener is excluded
  cases r with
  | newObject =>
    obtain ⟨rfl, rfl⟩ := Prod.mk.inj (Run.changing_eq_some.mp h)
    exact .mapHeap w (f := fun h => (h.alloc ∅).2) fun o key =>
      Heap.subscribers_congr (Heap.cell?_alloc (fun _ => rfl) o key)
  | newArray items =>
    obtain ⟨rfl, rfl⟩ := Prod.mk.inj (Run.changing_eq_some.mp h)
    exact .mapHeap w (f := fun h => (h.allocArray items).2) fun _ _ => rfl
  | ofJson j =>
    obtain ⟨rfl, rfl⟩ := Prod.mk.inj (Run.changing_eq_some.mp h)
    exact .mapHeap w (f := fun h => (h.ofJson j).2) fun o key =>
      Heap.subscribers_congr (Heap.cell?_ofJson w.heap j o key)
  | write o key v => exact write_enlists hq hcall o key v h
  | observe hook v => exact observe_enlists hook v h
  | update i => exact update_enlists hq hcall i h
  | newNode content =>
    obtain ⟨rfl, rfl⟩ := Prod.mk.inj (Run.changing_eq_some.mp h)
    exact .mapDocument w (f := fun d => (d.create content).2) fun m =>
      Document.listeners_create w.document content m
  | setAttribute n name value =>
    rw [← Run.modify_eq_some.mp h]
    exact .mapDocument w fun m => Document.listeners_modifyNode w.document n
      (f := fun node => { node with content := node.content.setAttribute name value })
      (fun _ => rfl) m
  | setText n text =>
    rw [← Run.modify_eq_some.mp h]
    exact .setText w n text
  | setValue n text =>
    rw [← Run.modify_eq_some.mp h]
    exact .setValue w n text
  | appendChildren n children =>
    rw [← Run.modify_eq_some.mp h]
    exact .appendChildren w n children
  | detachChildren n =>
    obtain ⟨rfl, rfl⟩ := Prod.mk.inj (Run.changing_eq_some.mp h)
    exact .detachChildren w n
  | watch _ _ _ => cases hbinds
  | listen _ _ _ => cases hbinds
  | _ => cases hr

theorem steps_enlist (hq : env.HooksRead) (hcall : env.CallsMove (EnlistsFrom kit silent)) :
    Steps env (EnlistsFrom kit silent) (fun _ => True) (fun _ _ => False)
      fun _ r => !r.binds where
  carried := carried_enlistsFrom kit silent
  hooks := hq
  calls := hcall
  guard h := h trivial
  walk := ⟨fun _ _ _ _ h => h, fun _ _ _ h _ => h, fun _ _ _ h => h⟩
  reads := .of_reads
  simple r _ _ _ hr hbinds h := simple_enlists hq hcall r hr (by simpa using hbinds) h
  observe := observe_enlists
  writeText o key text := write_enlists hq hcall o key (.text text)
  setProperty _ h := write_enlists hq hcall _ _ _ h
  enter _ := .setValue _ _ _
  bind _ _ _ _ _ _ _ h := h.elim
  detach w n := .detachChildren w n
  append w n ns _ _ := .appendChildren w n ns
  okBind _ h := by cases h
  okCompile _ h := by cases h
  okMount _ h := by cases h

/-- While nobody makes watchers or listeners, those who are enlisted stay so. -/
theorem run_enlists {host : Host κ σ} {depth : Nat} {α : Type} {p : Program κ σ α}
    {w w' : World κ σ} {a : α} (hrun : host.run depth p w = some (a, w'))
    (hob : host.Obeys .unbinding depth p w) : w.EnlistsFrom kit silent w' :=
  Host.runUnder_moves (carried_enlistsFrom kit silent)
    (fun _ _ => .of_lists rfl (fun _ _ => rfl) (fun {_ x} hx => ⟨x.last, hx⟩) fun _ => rfl)
    (fun henv _ => steps_enlist henv.hooks henv.calls) hrun hob

end DataBinding
