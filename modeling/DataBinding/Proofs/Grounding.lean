import DataBinding.Proofs.Proper
import DataBinding.Proofs.Shuffling

/-!
# Grounded worlds

In a grounded world nobody is collecting, and whatever is named exists: the children of nodes, the
nodes that watchers show something at, the watchers that are subscribed and those that are held.
Nodes and watchers are never taken back, so a world stays grounded as long as user code names nodes
that exist. Names that are not made up are such names, so all runs of interest stay in grounded
worlds.
-/

namespace DataBinding

variable {κ σ : Type}

namespace World

/-- A world in which nobody is collecting and the nodes that are named exist. -/
structure Rooted (w : World κ σ) : Prop where
  current : w.current = none
  closed : w.document.Closed
  nodes : ∀ i x, w.watcher? i = some x → ∀ n, x.reaction.node? = some n → w.document.has n

/-- A rooted world in which the watchers that are named exist. -/
structure Grounded (w : World κ σ) : Prop extends w.Rooted where
  wired : w.Wired
  held : ∀ i, .watcher i ∈ w.held → i.index < w.watchers.size

/-- A later world that is rooted, and what the earlier one had is still there. -/
structure Stands (w w' : World κ σ) : Prop where
  rooted : w'.Rooted
  size : w.watchers.size ≤ w'.watchers.size
  document : w.document.Extends w'.document

/-- The relation of the worlds before and after a step that names nodes that exist. -/
def StandsFrom (w w' : World κ σ) : Prop := w.Rooted → w.Stands w'

theorem carried_standsFrom : Carried (StandsFrom (κ := κ) (σ := σ)) where
  refl w hw := ⟨hw, Nat.le_refl _, .refl _⟩
  trans a b c hab hbc := by
    intro ha
    have hb := hab ha
    have hc := hbc hb.rooted
    exact ⟨hc.rooted, Nat.le_trans hb.size hc.size, hb.document.trans hc.document⟩
  hold := by
    intro w w' held h hw
    have h' := h ⟨hw.current, hw.closed, hw.nodes⟩
    exact ⟨⟨h'.rooted.current, h'.rooted.closed, h'.rooted.nodes⟩, h'.size, h'.document⟩

/-! ## Steps without watchers -/

/-- A step that leaves watchers alone. -/
theorem StandsFrom.of_watchers {w w' : World κ σ} (hwatchers : w'.watchers = w.watchers)
    (hcurrent : w'.current = w.current) (hdocument : w.document.Evolves w'.document) :
    w.StandsFrom w' := by
  intro hw
  refine ⟨⟨hcurrent.trans hw.current, hdocument.closed hw.closed, ?_⟩, by rw [hwatchers],
    hdocument.document⟩
  intro i x hx n hn
  rw [watcher?_of_watchers hwatchers] at hx
  exact hdocument.document.has (hw.nodes i x hx n hn)

theorem StandsFrom.mapDocument (w : World κ σ) {f : Document κ → Document κ}
    (hdocument : w.document.Evolves (f w.document)) : w.StandsFrom (w.mapDocument f) :=
  .of_watchers rfl rfl hdocument

theorem StandsFrom.user (w : World κ σ) (user : σ) : w.StandsFrom { w with user := user } :=
  .of_watchers rfl rfl (.refl _)

/-- Reading adds subscribers and no watchers. -/
theorem StandsFrom.of_reads {w w' : World κ σ} (h : w.Reads w') : w.StandsFrom w' := by
  obtain ⟨places, user, rfl⟩ := h
  exact .of_watchers rfl rfl (.refl _)

theorem observe_stands (hook : Hook κ) (v : Value) :
    Run.Moves (σ := σ) StandsFrom (observe hook v) :=
  .modify fun _ => .of_watchers rfl rfl (.refl _)

end World

open World

variable {env : Env κ σ}

/-! ## Watchers -/

theorem standsFrom_setLast (w : World κ σ) (i : WatcherId) (v : Value) :
    w.StandsFrom (w.setLast i v) := by
  intro hw
  refine ⟨⟨hw.current, hw.closed, ?_⟩, by simp [setLast], .refl _⟩
  intro j y hy n hn
  rw [watcher?_setLast] at hy
  split at hy
  · obtain ⟨x, hx, rfl⟩ := Option.map_eq_some_iff.mp hy
    exact hw.nodes j x hx n hn
  · exact hw.nodes j y hy n hn

/-- A new watcher shows something at a node that exists. -/
theorem watch_stands (hq : env.HooksRead) {expression : String} {o : ObjectId}
    {reaction : Reaction κ} {w w' : World κ σ} {i : WatcherId}
    (hreaction : ∀ n, reaction.node? = some n → w.document.has n)
    (h : watch env expression o reaction w = some (i, w')) : w.StandsFrom w' := by
  obtain ⟨rfl, places, user, rfl⟩ := hq.watch_eq_some h
  intro hw
  refine ⟨⟨hw.current, hw.closed, ?_⟩, ?_, .refl _⟩
  · intro j y hy n hn
    have hy := (watcher?_push w _ j).symm.trans hy
    split at hy
    · obtain rfl := Option.some.inj hy
      exact hreaction n hn
    · exact hw.nodes j y hy n hn
  · show w.watchers.size ≤ (w.watchers.push _).size
    rw [Table.size_push]
    exact Nat.le_succ _

/-- A reaction draws at nodes that exist, or calls user code. -/
theorem react_stands (hq : env.HooksRead) (hcall : env.CallsMove StandsFrom) (x : Watcher κ)
    (v : Value) : Run.Moves StandsFrom (x.react env v) := by
  unfold Watcher.react
  split
  · exact .modify fun w => .mapDocument w (.setValue _ _ _)
  · exact .modify fun w => .mapDocument w (.setText _ _ _)
  · exact carried_standsFrom.bind (fun _ _ _ h => .of_reads (hq.render_eq_some h).2) fun _ =>
      .modify fun w => .mapDocument w (.setText _ _ _)
  · exact .discard (hcall _ _ rfl)

theorem update_stands (hq : env.HooksRead) (hcall : env.CallsMove StandsFrom) (i : WatcherId) :
    Run.Moves StandsFrom (update env i) := by
  intro w u w' h
  rcases update_eq_some h with ⟨rfl, _⟩ | ⟨x, hx, ⟨_, rfl⟩ | ⟨_, held, w₁, hreact, rfl⟩⟩
  · exact carried_standsFrom.refl w'
  · exact standsFrom_setLast w i _
  · exact carried_standsFrom.trans _ _ _ (standsFrom_setLast w i _)
      (carried_standsFrom.holding held (react_stands hq hcall x _) hreact)

/-- A write stores, and then updates the watchers that are subscribed. -/
theorem write_stands (hq : env.HooksRead) (hcall : env.CallsMove StandsFrom) (o : ObjectId)
    (key : String) (v : Value) : Run.Moves StandsFrom (write env o key v) := by
  intro w u w' h hw
  rcases hq.write_eq_some hw.current h with
    ⟨_, rfl⟩ | ⟨c, _, ⟨_, rfl⟩ | ⟨_, user, w₁, hall, rfl⟩⟩
  · exact StandsFrom.of_watchers rfl rfl (.refl _) hw
  · exact carried_standsFrom.refl w' hw
  · have hstored : (w.stored o key c v user).Rooted := ⟨hw.current, hw.closed, hw.nodes⟩
    have h₁ := carried_standsFrom.updateAll (update_stands hq hcall) _ hall hstored
    exact ⟨⟨h₁.rooted.current, h₁.rooted.closed, h₁.rooted.nodes⟩, h₁.size, h₁.document⟩

/-- A binding of a node that exists. -/
theorem bind_stands (hq : env.HooksRead) (n : NodeId) (d : Directive) (expression : String)
    (kit : Kit κ) {w w' : World κ σ} {u : Unit} (hn : w.document.has n)
    (h : d.bind env n expression kit w = some (u, w')) : w.StandsFrom w' := by
  -- all that is done in between leaves the node where it is
  have hcarried : Carried fun w w' : World κ σ => w.document.has n → w.StandsFrom w' :=
    ⟨fun w _ => carried_standsFrom.refl w,
      fun a b c hab hbc ha hrooted => carried_standsFrom.trans a b c (hab ha)
        (hbc ((hab ha hrooted).document.has ha)) hrooted,
      fun h hn => carried_standsFrom.hold (h hn)⟩
  have hwatch : ∀ (reaction : Reaction κ) e, reaction.node? = some n →
      Run.Moves (fun w w' : World κ σ => w.document.has n → w.StandsFrom w')
        (watch env e kit.data reaction) := by
    intro reaction e hreaction w i w' h hn
    exact watch_stands hq (fun m hm => Option.some.inj (hreaction.symm.trans hm) ▸ hn) h
  cases d with
  | model =>
    refine hcarried.holding _ (hcarried.bindModel ?_ ?_ ?_ ?_ _) h hn
    · exact fun key _ _ _ h _ => .of_reads (hq.read_reads _ key h)
    · exact fun e => hwatch _ e rfl
    · exact fun w key _ => .mapDocument w (.addListener _ n "input" _)
    · exact fun w v _ => .mapDocument w (.setValue _ n _)
  | text =>
    refine hcarried.holding _ (hcarried.bindText ?_ ?_ ?_ ?_ _ _) h hn
    · exact fun e t => hwatch _ e rfl
    · exact fun e => hwatch _ e rfl
    · exact fun t _ _ _ h _ => .of_reads (hq.render_eq_some h).2
    · exact fun w text _ => .mapDocument w (.setText _ n text)
  | on event =>
    obtain rfl := Run.modify_eq_some.mp h
    exact .mapDocument w (.addListener _ n event _)

/-! ## Runs -/

/-- Whether the nodes exist that a request names as children or for bindings. -/
def Request.namesNodes {α : Type} (w : World κ σ) : Request κ α → Bool
  | .appendChildren _ children => children.all fun n => decide (w.document.has n)
  | .bind _ n _ _ => decide (w.document.has n)
  | .compile _ root => decide (w.document.has root)
  | .mount (.node n) _ _ => decide (w.document.has n)
  | .mount (.selector document _) _ _ => decide (w.document.has document)
  | _ => true

theorem simple_stands (hq : env.HooksRead) (hcall : env.CallsMove StandsFrom) {α : Type}
    (r : Request κ α) {w w' : World κ σ} {a : α} (hr : r.isCompound = false)
    (hnames : r.namesNodes w = true) (h : r.perform env w = some (a, w')) : w.StandsFrom w' := by
  cases r with
  | newObject | newArray items | ofJson j =>
    obtain ⟨rfl, rfl⟩ := Prod.mk.inj (Run.changing_eq_some.mp h)
    exact .of_watchers rfl rfl (.refl _)
  | write o key v => exact write_stands hq hcall o key v h
  | observe hook v => exact observe_stands hook v h
  | watch expression o code => exact watch_stands hq (fun n hn => by cases hn) h
  | update i => exact update_stands hq hcall i h
  | newNode content =>
    obtain ⟨rfl, rfl⟩ := Prod.mk.inj (Run.changing_eq_some.mp h)
    exact .of_watchers rfl rfl (.create _ content)
  | setAttribute n name value =>
    obtain rfl := Run.modify_eq_some.mp h
    exact .mapDocument w (.setAttribute _ n name value)
  | setText n text =>
    obtain rfl := Run.modify_eq_some.mp h
    exact .mapDocument w (.setText _ n text)
  | setValue n text =>
    obtain rfl := Run.modify_eq_some.mp h
    exact .mapDocument w (.setValue _ n text)
  | appendChildren n children =>
    obtain rfl := Run.modify_eq_some.mp h
    refine .mapDocument w (.appendChildren _ n fun c hc => ?_)
    simpa using List.all_eq_true.mp hnames c hc
  | detachChildren n =>
    obtain ⟨rfl, rfl⟩ := Prod.mk.inj (Run.changing_eq_some.mp h)
    exact .mapDocument w (.detachChildren _ n)
  | listen n event code =>
    obtain rfl := Run.modify_eq_some.mp h
    exact .mapDocument w (.addListener _ n event _)
  | _ => cases hr

/-- A node of a rooted world that exists. -/
def World.Reaches (w : World κ σ) (n : NodeId) : Prop := w.Rooted ∧ w.document.has n

theorem reaches_of_mount {w : World κ σ} {place : Mount} {hook : Hook κ} {kit : Kit κ}
    (hw : w.Rooted) (h : (Request.mount place hook kit).namesNodes w = true) {root : NodeId}
    (hroot : place.resolve w.document = .ok root) : w.Reaches root := by
  refine ⟨hw, Mount.has_of_resolve hw.closed hroot ?_⟩
  cases place <;> simpa [Request.namesNodes] using h

/-- Every request takes a world that stands to one that does. -/
theorem steps_stand {host : Host κ σ} (henv : env.Orderly host StandsFrom) :
    Steps env StandsFrom World.Rooted World.Reaches fun w r => r.namesNodes w where
  carried := carried_standsFrom
  hooks := henv.hooks
  calls := henv.calls
  guard h hw := h hw hw
  walk := {
    stays := fun _ _ _ h hn => ⟨(h hn.1).rooted, (h hn.1).document.has hn.2⟩
    down := fun _ n c hn hc => ⟨hn.1, hn.1.closed n c hc⟩
    held := fun _ _ _ hn => ⟨⟨hn.1.current, hn.1.closed, hn.1.nodes⟩, hn.2⟩ }
  reads := .of_reads
  simple r _ _ _ hr hnames h := simple_stands henv.hooks henv.calls r hr hnames h
  observe := observe_stands
  writeText o key text := write_stands henv.hooks henv.calls o key (.text text)
  setProperty _ h := write_stands henv.hooks henv.calls _ _ _ h
  enter _ := .mapDocument _ (.setValue _ _ _)
  bind n d expression kit _ _ _ hn h := bind_stands henv.hooks n d expression kit hn.2 h
  detach w n := .mapDocument w (.detachChildren _ n)
  append w n _ _ hns := .mapDocument w (.appendChildren _ n fun m hm => (hns m hm).2)
  okBind hw hnames := ⟨hw, by simpa [Request.namesNodes] using hnames⟩
  okCompile hw hnames := ⟨hw, by simpa [Request.namesNodes] using hnames⟩
  okMount hw hnames _ hroot := reaches_of_mount hw hnames hroot

theorem World.grounded_fresh (user : σ) : (World.fresh user : World κ σ).Grounded := by
  refine ⟨⟨rfl, ?_, ?_⟩, ?_, ?_⟩
  · intro n c hc
    cases hc
  · intro i x hx
    cases hx
  · intro o key c i hc hi
    cases hc
  · intro i hi
    cases hi

/-- A run in which nodes are named that exist leads from a grounded world to a grounded world. -/
theorem World.Grounded.of_run {host : Host κ σ} {depth : Nat} {α : Type} {p : Program κ σ α}
    {w w' : World κ σ} {a : α} (hw : w.Grounded) (hrun : host.run depth p w = some (a, w'))
    (hob : host.Obeys (.orderly fun _ w r => r.namesNodes w) depth p w) : w'.Grounded := by
  have hstands : w.Stands w' := Host.runUnder_moves carried_standsFrom
    (fun w f => .user w (f w.user)) (fun henv _ => steps_stand henv) hrun hob hw.toRooted
  have hsettles := run_settles hrun hob (.nobody hw.current)
  refine ⟨hstands.rooted, hsettles.wired hw.wired, fun i hi => ?_⟩
  rw [hsettles.held] at hi
  exact Nat.lt_of_lt_of_le (hw.held i hi) hstands.size

end DataBinding
