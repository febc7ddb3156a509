import DataBinding.Proofs.Runs

/-!
# Runs side by side

Two runs of one operation, in two environments, take the same steps as long as they see the same.
A relation between runs that passes from steps to what is put together from them therefore passes
along all operations: it need be known of reading, writing, building a watcher and calling user
code, and of the plain changes to watchers and document. What is put together from these is
rendered, updated, dispatched, bound, compiled and mounted here once, for all such relations.
-/

namespace DataBinding

variable {κ σ σ' : Type}

/-! ## Steps in a row -/

/-- A relation between runs that steps in a row are in if the steps are. -/
structure InTurn (Q : {α : Type} → Run κ σ α → Run κ σ' α → Prop) : Prop where
  pure : ∀ {α : Type} (a : α), Q (Pure.pure a) (Pure.pure a)
  bind : ∀ {α β : Type} {m : Run κ σ α} {m' : Run κ σ' α} {f : α → Run κ σ β}
    {f' : α → Run κ σ' β}, Q m m' → (∀ a, Q (f a) (f' a)) → Q (m >>= f) (m' >>= f')

namespace InTurn

variable {Q : {α : Type} → Run κ σ α → Run κ σ' α → Prop} {e : Env κ σ} {e' : Env κ σ'}

theorem render (h : InTurn Q) {o : ObjectId}
    (hsegment : ∀ segment : Segment, Q (segment.render e o) (segment.render e' o))
    (t : Template) : Q (t.render e o) (t.render e' o) := by
  obtain ⟨segments⟩ := t
  show Q (renderSegments e o segments) (renderSegments e' o segments)
  induction segments with
  | nil => exact h.pure _
  | cons segment rest ih =>
    exact h.bind (hsegment segment) fun _ => h.bind ih fun _ => h.pure _

/-- Watchers are updated one after the other, on both sides in the same order. -/
theorem updateAll (h : InTurn Q) {is : List WatcherId}
    (hupdate : ∀ i ∈ is, Q (update e i) (update e' i)) :
    Q (updateAll e is) (updateAll e' is) := by
  induction is with
  | nil => exact h.pure _
  | cons i rest ih =>
    exact h.bind (hupdate i List.mem_cons_self) fun _ =>
      ih fun j hj => hupdate j (List.mem_cons_of_mem _ hj)

/-- An error ends the row on both sides. -/
theorem deliverAll (h : InTurn Q) {event : Event}
    (hdeliver : ∀ l : Listener κ, Q (l.deliver e event) (l.deliver e' event))
    (ls : List (Listener κ)) : Q (deliverAll e event ls) (deliverAll e' event ls) := by
  induction ls with
  | nil => exact h.pure _
  | cons l rest ih =>
    refine h.bind (hdeliver l) fun result => ?_
    cases result with
    | error e => exact h.pure _
    | ok u => exact ih

/-- Whether a property exists is known when its app is mounted, so both sides answer alike. -/
theorem getProperty (h : InTurn Q) {app : App κ}
    (hread : ∀ key, Q (read e app.data key) (read e' app.data key)) (key : String) :
    Q (app.get e key) (app.get e' key) := by
  unfold App.get
  split
  · exact h.bind (hread key) fun _ => h.pure _
  · exact h.pure _

theorem setProperty (h : InTurn Q) {app : App κ}
    (hwrite : ∀ key v, Q (write e app.data key v) (write e' app.data key v)) (key : String)
    (v : Value) : Q (app.set e key v) (app.set e' key v) := by
  unfold App.set
  split
  · exact h.bind (hwrite key v) fun _ => h.pure _
  · exact h.pure _

end InTurn

/-! ## What both runs see -/

/-- In worlds that belong together, two runs see the same of watchers, fields and document. -/
structure Sight (e : Env κ σ) (e' : Env κ σ') (S : World κ σ → World κ σ' → Prop) : Prop where
  isAlive : ∀ {w w'}, S w w' → ∀ o, w.isAlive e.handles o = w'.isAlive e'.handles o
  watcher? : ∀ {w w'}, S w w' → ∀ i, w.watcher? i = w'.watcher? i
  document : ∀ {w w'}, S w w' → w.document = w'.document
  peek : ∀ {w w'}, S w w' → ∀ o key, w.heap.peek o key = w'.heap.peek o key
  text : ∀ {w w'}, S w w' → ∀ v, w.heap.text v = w'.heap.text v
  subscribers : ∀ {w w'}, S w w' → ∀ o key, w.heap.subscribers o key = w'.heap.subscribers o key
  keys : ∀ {w w'}, S w w' → ∀ o, (w.heap.slots o).keys = (w'.heap.slots o).keys

/-- One world is seen twice. -/
theorem Sight.same {e e' : Env κ σ} (hhandles : e.handles = e'.handles) : Sight e e' Eq where
  isAlive h o := by rw [h, hhandles]
  watcher? h _ := by rw [h]
  document h := by rw [h]
  peek h _ _ := by rw [h]
  text h _ := by rw [h]
  subscribers h _ _ := by rw [h]
  keys h _ := by rw [h]

/-- The changes that reactions, bindings and compilations make to a document. -/
inductive Document.Edit : (Document κ → Document κ) → Prop
  | setValue (n : NodeId) (text : String) : Edit fun d => d.setValue n text
  | setText (n : NodeId) (text : String) : Edit fun d => d.setText n text
  | addListener (n : NodeId) (event : String) (l : Listener κ) :
    Edit fun d => d.addListener n event l
  | detachChildren (n : NodeId) : Edit fun d => d.detachChildren n
  | appendChildren (n : NodeId) (ns : List NodeId) : Edit fun d => d.appendChildren n ns

/-- Two environments whose reads are related, and a relation that passes to what is put together
from related steps, also when a step depends on the world or is taken while things are held. -/
structure SideBySide (e : Env κ σ) (e' : Env κ σ') (S : World κ σ → World κ σ' → Prop)
    (Q : {α : Type} → Run κ σ α → Run κ σ' α → Prop) : Prop extends InTurn Q where
  sight : Sight e e' S
  after_get : ∀ {α : Type} {f : World κ σ → Run κ σ α} {f' : World κ σ' → Run κ σ' α},
    (∀ w w', S w w' → Q (f w) (f' w')) → Q (get >>= f) (get >>= f')
  discard : ∀ {α : Type} {m : Run κ σ α} {m' : Run κ σ' α}, Q m m' →
    Q (Functor.discard m) (Functor.discard m')
  holding : ∀ {α : Type} {m : Run κ σ α} {m' : Run κ σ' α} (hs : List Handle), Q m m' →
    Q (Run.holding hs m) (Run.holding hs m')
  edit : ∀ {change : Document κ → Document κ}, Document.Edit change →
    Q (modify (World.mapDocument change)) (modify (World.mapDocument change))
  read : ∀ o key, Q (read e o key) (read e' o key)

namespace SideBySide

variable {S : World κ σ → World κ σ' → Prop} {Q : {α : Type} → Run κ σ α → Run κ σ' α → Prop}
  {e : Env κ σ} {e' : Env κ σ'}

theorem render (h : SideBySide e e' S Q) (t : Template) (o : ObjectId) :
    Q (t.render e o) (t.render e' o) := by
  refine h.toInTurn.render (fun segment => ?_) t
  cases segment with
  | literal text => exact h.pure _
  | marker key =>
    refine h.bind (h.read o key) fun v => h.after_get fun w w' hS => ?_
    rw [h.sight.text hS]
    exact h.pure _

/-- What is drawn of a value is the text that it has at that moment. -/
theorem showValue (h : SideBySide e e' S Q) (n : NodeId) (v : Value) :
    Q (modify (World.showValue n v)) (modify (World.showValue n v)) := by
  show Q (get >>= fun w => modify (World.mapDocument fun d => d.setValue n (w.heap.text v)))
    (get >>= fun w => modify (World.mapDocument fun d => d.setValue n (w.heap.text v)))
  refine h.after_get fun w w' hS => ?_
  rw [h.sight.text hS]
  exact h.edit (.setValue n _)

theorem showText (h : SideBySide e e' S Q) (n : NodeId) (v : Value) :
    Q (modify (World.showText n v)) (modify (World.showText n v)) := by
  show Q (get >>= fun w => modify (World.mapDocument fun d => d.setText n (w.heap.text v)))
    (get >>= fun w => modify (World.mapDocument fun d => d.setText n (w.heap.text v)))
  refine h.after_get fun w w' hS => ?_
  rw [h.sight.text hS]
  exact h.edit (.setText n _)

/-! ## Updates -/

/-- What a watcher does about a change is told by its reaction, which is the same on both sides. -/
theorem react (h : SideBySide e e' S Q)
    (hcall : ∀ code v, Q (e.call code (.changed v)) (e'.call code (.changed v))) (x : Watcher κ)
    (v : Value) : Q (x.react e v) (x.react e' v) := by
  unfold Watcher.react
  cases x.reaction with
  | setValue n => exact h.showValue n v
  | setText n => exact h.showText n v
  | render n t => exact h.bind (h.render t x.data) fun _ => h.edit (.setText n _)
  | custom code => exact h.discard (hcall code v)

/-- Both sides see the same last value and the same new one, so they react or stop together. -/
theorem update (h : SideBySide e e' S Q)
    (hcall : ∀ code v, Q (e.call code (.changed v)) (e'.call code (.changed v)))
    (hsetLast : ∀ i v, Q (modify (World.setLast i v)) (modify (World.setLast i v)))
    (i : WatcherId) : Q (update e i) (update e' i) := by
  refine h.after_get fun w w' hS => ?_
  rw [h.sight.watcher? hS]
  cases w'.watcher? i with
  | none => exact h.pure ()
  | some x =>
    dsimp only
    rw [h.sight.isAlive hS, h.sight.peek hS]
    split
    · refine h.bind (hsetLast i _) fun _ => ?_
      split
      · exact h.pure ()
      · exact h.holding _ (h.react hcall x _)
    · exact h.pure ()

theorem notify (h : SideBySide e e' S Q) (hupdate : ∀ i, Q (DataBinding.update e i)
    (DataBinding.update e' i)) (o : ObjectId) (key : String) :
    Q (notify e o key) (notify e' o key) := by
  refine h.after_get fun w w' hS => ?_
  rw [h.sight.subscribers hS]
  exact h.updateAll fun i _ => hupdate i

/-! ## Events -/

theorem deliver (h : SideBySide e e' S Q)
    (hcalled : ∀ code o event, Q (e.call code (.called o event)) (e'.call code (.called o event)))
    (hheard : ∀ code event, Q (e.call code (.heard event)) (e'.call code (.heard event)))
    (hwrite : ∀ o key v, Q (write e o key v) (write e' o key v)) (event : Event)
    (l : Listener κ) : Q (l.deliver e event) (l.deliver e' event) := by
  cases l with
  | writeBack o key =>
    unfold Listener.deliver
    cases event.value with
    | none => exact h.pure _
    | some text =>
      refine h.after_get fun w w' hS => ?_
      rw [h.sight.isAlive hS]
      split
      · exact h.bind (hwrite o key (.text text)) fun _ => h.pure _
      · exact h.pure _
  | callMethod o name method =>
    unfold Listener.deliver
    cases method with
    | none => exact h.pure _
    | some code =>
      refine h.after_get fun w w' hS => ?_
      rw [h.sight.isAlive hS]
      split
      · exact h.holding _ (hcalled code o event)
      · exact h.pure _
  | custom code => exact hheard code event

/-- The listeners are those that the node has when the event is dispatched. -/
theorem dispatch (h : SideBySide e e' S Q)
    (hdeliver : ∀ event (l : Listener κ), Q (l.deliver e event) (l.deliver e' event))
    (n : NodeId) (event : Event) : Q (dispatch e n event) (dispatch e' n event) := by
  refine h.after_get fun w w' hS => ?_
  rw [h.sight.document hS]
  exact h.deliverAll (hdeliver _) _

theorem enter (h : SideBySide e e' S Q)
    (hdeliver : ∀ event (l : Listener κ), Q (l.deliver e event) (l.deliver e' event))
    (n : NodeId) (text : String) : Q (enter e n text) (enter e' n text) :=
  h.bind (h.edit (.setValue n text)) fun _ => h.dispatch hdeliver n _

end SideBySide

/-! ## Bindings -/

/-- Two environments in which watchers are built side by side too. Where the first has come to the
end of its depth, the second has so too, unless it is free to go on. -/
structure BuildsSideBySide (e : Env κ σ) (e' : Env κ σ') (S : World κ σ → World κ σ' → Prop)
    (Q : {α : Type} → Run κ σ α → Run κ σ' α → Prop) : Prop extends SideBySide e e' S Q where
  watch : ∀ expression o reaction,
    Q (watch e expression o reaction) (watch e' expression o reaction)
  depth : e.depth ≤ e'.depth
  stuck : ∀ {α : Type} {m' : Run κ σ' α}, (e'.depth = e.depth → m' = failure) → Q failure m'

namespace BuildsSideBySide

variable {S : World κ σ → World κ σ' → Prop} {Q : {α : Type} → Run κ σ α → Run κ σ' α → Prop}
  {e : Env κ σ} {e' : Env κ σ'}

theorem bindModel (h : BuildsSideBySide e e' S Q) (n : NodeId) (expression : String)
    (o : ObjectId) : Q (bindModel e n expression o) (bindModel e' n expression o) :=
  h.bind (h.read o _) fun v => h.bind (h.holding _ (h.discard (h.watch _ o _))) fun _ =>
    h.bind (h.edit (.addListener n _ _)) fun _ => h.showValue n v

/-- One watcher for each marker, on both sides in the same order. -/
theorem watchMarkers (h : BuildsSideBySide e e' S Q) (n : NodeId) (t : Template) (o : ObjectId)
    (keys : List String) : Q (watchMarkers e n t o keys) (watchMarkers e' n t o keys) := by
  induction keys with
  | nil => exact h.pure _
  | cons key rest ih => exact h.bind (h.watch key o _) fun _ => ih

theorem bindText (h : BuildsSideBySide e e' S Q) (n : NodeId) (expression : String) (o : ObjectId)
    (d : Dialect) : Q (bindText e n expression o d) (bindText e' n expression o d) := by
  unfold DataBinding.bindText
  dsimp only
  split
  · exact h.bind (h.watchMarkers n _ o _) fun _ => h.bind (h.render _ o) fun _ =>
      h.edit (.setText n _)
  · refine h.bind (h.watch expression o _) fun i => h.after_get fun w w' hS => ?_
    rw [h.sight.watcher? hS]
    exact h.showText n _

/-- A directive is bound on both sides, whichever it is. -/
theorem directive (h : BuildsSideBySide e e' S Q) (n : NodeId) (expression : String) (kit : Kit κ)
    (d : Directive) : Q (d.bind e n expression kit) (d.bind e' n expression kit) := by
  cases d with
  | model => exact h.holding _ (h.bindModel n expression kit.data)
  | text => exact h.holding _ (h.bindText n expression kit.data kit.dialect)
  | on event => exact h.edit (.addListener n event _)

/-! ## Compiling and mounting -/

variable {kit : Kit κ}

theorem compileAttributes (h : BuildsSideBySide e e' S Q) (n : NodeId)
    (attributes : List (String × String)) :
    Q (compileAttributes e kit n attributes) (compileAttributes e' kit n attributes) := by
  induction attributes with
  | nil => exact h.pure _
  | cons a rest ih =>
    obtain ⟨name, expression⟩ := a
    unfold DataBinding.compileAttributes
    split
    · exact h.pure _
    · exact ih
    · exact h.bind (h.directive n expression kit _) fun _ => ih

theorem compileNode (h : BuildsSideBySide e e' S Q) (n : NodeId) :
    Q (compileNode e kit n) (compileNode e' kit n) := by
  refine h.after_get fun w w' hS => ?_
  rw [h.sight.document hS]
  cases w'.document.content n with
  | element tag attributes value => exact h.compileAttributes n _
  | text text =>
    dsimp only
    split
    · exact h.bind (h.directive n text kit .text) fun _ => h.pure _
    · exact h.pure _
  | comment text => exact h.pure _

/-- The second walk has as many levels more as the second environment has. -/
theorem compileNodes (h : BuildsSideBySide e e' S Q) {depth depth' : Nat}
    (hd : depth' + e.depth = depth + e'.depth) (nodes : List NodeId) :
    Q (compileNodes e kit depth nodes) (compileNodes e' kit depth' nodes) := by
  have hle := h.depth
  -- along the recursion of the walk: the children one level down, then the siblings
  fun_induction DataBinding.compileNodes e kit depth nodes generalizing depth' with
  | case1 depth =>
    rw [DataBinding.compileNodes]
    exact h.pure _
  | case2 n rest =>
    refine h.stuck fun heq => ?_
    obtain rfl : depth' = 0 := by omega
    rw [DataBinding.compileNodes]
  | case3 depth n rest ihDown ihBeside =>
    obtain ⟨depth', rfl⟩ : ∃ k, depth' = k + 1 := ⟨depth' - 1, by omega⟩
    rw [DataBinding.compileNodes]
    refine h.bind (h.compileNode n) fun first => ?_
    cases first with
    | error e => exact h.pure _
    | ok u =>
      refine h.after_get fun w w' hS => ?_
      rw [← h.sight.document hS]
      refine h.bind (ihDown w (by omega)) fun below => ?_
      cases below with
      | error e => exact h.pure _
      | ok u => exact ihBeside hd

/-- The children are detached, compiled and appended again on both sides. -/
theorem compile (h : BuildsSideBySide e e' S Q) (kit : Kit κ) (root : NodeId) :
    Q (compile e kit root) (compile e' kit root) := by
  refine h.after_get fun w w' hS => ?_
  rw [h.sight.document hS]
  exact h.bind (h.edit (.detachChildren root)) fun _ =>
    h.bind (h.holding _ (h.compileNodes (Nat.add_comm _ _) _)) fun _ =>
      h.bind (h.edit (.appendChildren root _)) fun _ => h.pure _

/-- The data may be observed with another hook. -/
theorem mount (h : BuildsSideBySide e e' S Q) (place : Mount) {hook hook' : Hook κ}
    (hobserve : ∀ v, Q (observe hook v) (observe hook' v)) (kit : Kit κ) :
    Q (mount e place hook kit) (mount e' place hook' kit) := by
  refine h.after_get fun w w' hS => ?_
  rw [h.sight.document hS]
  cases place.resolve w'.document with
  | error e => exact h.pure _
  | ok root =>
    refine h.bind (hobserve _) fun _ => h.bind (h.compile kit root) fun compiled => ?_
    cases compiled with
    | error e => exact h.pure _
    | ok u =>
      refine h.after_get fun w w' hS => ?_
      rw [h.sight.keys hS]
      exact h.pure _

end BuildsSideBySide

end DataBinding
