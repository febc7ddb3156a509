import DataBinding.Proofs.Accounts

/-!
# Properties that accounts have from their parts

A property of accounts is `Compositional` if it passes from accounts to whatever is put together
from them. It then passes along all operations: once it is known of the few steps that change the
world, it is known of rendering, of binding, of the walk of a compilation and of mounting, and, by
induction on the program, of user code.
-/

namespace DataBinding

variable {κ σ : Type}

namespace Account

/-- A property that accounts have if their parts have it. -/
structure Compositional (P : {α : Type} → Account κ σ α → Prop) : Prop where
  pure : ∀ {α : Type} (a : α), P (Pure.pure a : Account κ σ α)
  bind : ∀ {α β : Type} {m : Account κ σ α} {f : α → Account κ σ β},
    P m → (∀ a, P (f a)) → P (m >>= f)
  after_get : ∀ {α : Type} {f : World κ σ → Account κ σ α}, (∀ w, P (f w)) → P (get >>= f)
  discard : ∀ {α : Type} {m : Account κ σ α}, P m → P (Functor.discard m)
  holding : ∀ {α : Type} {m : Account κ σ α} (hs : List Handle), P m → P (Run.holding hs m)

variable {P : {α : Type} → Account κ σ α → Prop} {s : Scribe κ σ}

namespace Compositional

/-! ## Reading -/

/-- Hooks that are silent do nothing, and others are a call. -/
theorem tell (h : Compositional P) {occasion : Occasion}
    (hcall : ∀ code, P (s.call code occasion)) (hook : Hook κ) : P (s.tell hook occasion) := by
  cases hook with
  | silent => exact h.pure ()
  | custom code => exact h.discard (hcall code)

/-- A read subscribes and then tells the hook. -/
theorem read (h : Compositional P) {o : ObjectId} {key : String}
    (hsubscribe : P (modify (World.subscribeCurrent o key)))
    (hcall : ∀ code value, P (s.call code (.reading key value))) :
    P (DataBinding.read s o key) := by
  refine h.after_get fun w => ?_
  cases w.heap.slot? o key with
  | none => exact h.pure _
  | some slot =>
    cases slot with
    | plain value => exact h.pure _
    | reactive cell =>
      exact h.bind hsubscribe fun _ =>
        h.bind (h.holding _ (h.tell (fun code => hcall code _) cell.hook)) fun _ => h.pure _

theorem renderSegment (h : Compositional P) {o : ObjectId}
    (hread : ∀ key, P (DataBinding.read s o key)) (segment : Segment) :
    P (segment.render s o) := by
  cases segment with
  | literal text => exact h.pure _
  | marker key => exact h.bind (hread key) fun _ => h.after_get fun _ => h.pure _

/-- By induction on the segments: what is rendered is read key by key. -/
theorem render (h : Compositional P) {o : ObjectId} (hread : ∀ key, P (DataBinding.read s o key))
    (t : Template) : P (t.render s o) := by
  obtain ⟨segments⟩ := t
  show P (renderSegments s o segments)
  induction segments with
  | nil => exact h.pure _
  | cons segment rest ih =>
    exact h.bind (h.renderSegment hread segment) fun _ => h.bind ih fun _ => h.pure _

theorem getProperty (h : Compositional P) {app : App κ}
    (hread : ∀ key, P (DataBinding.read s app.data key)) (key : String) :
    P (app.get s key) := by
  unfold App.get
  split
  · exact h.bind (hread key) fun _ => h.pure _
  · exact h.pure _

/-! ## Events -/

/-- A listener writes what was entered, or calls. -/
theorem deliver (h : Compositional P)
    (hcall : ∀ code occasion, occasion.isAccess = false → P (s.call code occasion))
    {event : Event} {l : Listener κ}
    (hwrite : ∀ o key text, l = .writeBack o key → event.value = some text →
      P (write s o key (.text text))) :
    P (l.deliver s event) := by
  cases l with
  | writeBack o key =>
    unfold Listener.deliver
    cases hvalue : event.value with
    | none => exact h.pure _
    | some text =>
      refine h.after_get fun w => ?_
      split
      · exact h.bind (hwrite o key text rfl hvalue) fun _ => h.pure _
      · exact h.pure _
  | callMethod o name method =>
    cases method with
    | none => exact h.pure _
    | some code =>
      refine h.after_get fun w => ?_
      split
      · exact h.holding _ (hcall _ _ rfl)
      · exact h.pure _
  | custom code => exact hcall _ _ rfl

/-- By induction on the listeners that get the event. -/
theorem deliverAll (h : Compositional P) {event : Event} {ls : List (Listener κ)}
    (hdeliver : ∀ l ∈ ls, P (l.deliver s event)) : P (deliverAll s event ls) := by
  induction ls with
  | nil => exact h.pure _
  | cons l rest ih =>
    refine h.bind (hdeliver l List.mem_cons_self) fun result => ?_
    cases result with
    | error e => exact h.pure _
    | ok u => exact ih fun l hl => hdeliver l (List.mem_cons_of_mem _ hl)

end Compositional

/-! ## Bindings -/

/-- A property that all the steps have which bindings, compiling and mounting are made of. -/
structure Building (s : Scribe κ σ) (P : {α : Type} → Account κ σ α → Prop) : Prop
    extends Compositional P where
  failure : ∀ {α : Type}, P (Alternative.failure : Account κ σ α)
  draw : ∀ {f : World κ σ → World κ σ}, (∀ w, ∃ change, f w = w.mapDocument change) →
    P (modify f)
  observe : ∀ hook v, P (DataBinding.observe hook v)
  read : ∀ o key, P (DataBinding.read s o key)
  watch : ∀ expression o reaction, P (DataBinding.watch s expression o reaction)

namespace Building

theorem mapDocument (h : Building s P) (change : Document κ → Document κ) :
    P (modify (World.mapDocument change)) :=
  h.draw fun _ => ⟨change, rfl⟩

/-- A reaction draws something, after reading what it draws, or is a call. -/
theorem react (h : Building s P) (hcall : ∀ code value, P (s.call code (.changed value)))
    (x : Watcher κ) (value : Value) : P (x.react s value) := by
  unfold Watcher.react
  cases x.reaction with
  | setValue n => exact h.draw fun _ => ⟨_, rfl⟩
  | setText n => exact h.draw fun _ => ⟨_, rfl⟩
  | render n t => exact h.bind (h.render (h.read x.data) t) fun _ => h.mapDocument _
  | custom code => exact h.discard (hcall code value)

/-- A form control reads its key, builds a watcher, listens, and shows the value. -/
theorem bindModel (h : Building s P) (n : NodeId) (expression : String) (o : ObjectId) :
    P (DataBinding.bindModel s n expression o) :=
  h.bind (h.read o _) fun _ => h.bind (h.holding _ (h.discard (h.watch _ o _))) fun _ =>
    h.bind (h.mapDocument _) fun _ => h.draw fun _ => ⟨_, rfl⟩

theorem watchMarkers (h : Building s P) (n : NodeId) (t : Template) (o : ObjectId)
    (keys : List String) : P (DataBinding.watchMarkers s n t o keys) := by
  induction keys with
  | nil => exact h.pure _
  | cons key rest ih => exact h.bind (h.watch key o _) fun _ => ih

/-- A text with markers has a watcher for each and is rendered, any other has one for its key. -/
theorem bindText (h : Building s P) (n : NodeId) (expression : String) (o : ObjectId)
    (d : Dialect) : P (DataBinding.bindText s n expression o d) := by
  unfold DataBinding.bindText
  dsimp only
  split
  · exact h.bind (h.watchMarkers n _ o _) fun _ =>
      h.bind (h.render (h.read o) _) fun _ => h.mapDocument _
  · exact h.bind (h.watch expression o _) fun _ =>
      h.after_get fun _ => h.draw fun _ => ⟨_, rfl⟩

theorem directive (h : Building s P) (n : NodeId) (expression : String) (kit : Kit κ)
    (d : Directive) : P (d.bind s n expression kit) := by
  cases d with
  | model => exact h.holding _ (h.bindModel n expression kit.data)
  | text => exact h.holding _ (h.bindText n expression kit.data kit.dialect)
  | on event => exact h.mapDocument _

/-! ## Compiling and mounting -/

variable {kit : Kit κ}

theorem compileAttributes (h : Building s P) (n : NodeId) (attributes : List (String × String)) :
    P (DataBinding.compileAttributes s kit n attributes) := by
  induction attributes with
  | nil => exact h.pure _
  | cons a rest ih =>
    unfold DataBinding.compileAttributes
    cases Directive.parse a.1 kit.dialect with
    | error e => exact h.pure _
    | ok parsed =>
      cases parsed with
      | none => exact ih
      | some d => exact h.bind (h.directive n a.2 kit d) fun _ => ih

theorem compileNode (h : Building s P) (n : NodeId) : P (DataBinding.compileNode s kit n) := by
  refine h.after_get fun w => ?_
  cases w.document.content n with
  | element tag attributes value => exact h.compileAttributes n _
  | text text =>
    dsimp only
    split
    · exact h.bind (h.directive n text kit .text) fun _ => h.pure _
    · exact h.pure _
  | comment text => exact h.pure _

/-- The walk of a compilation, which goes on until there is an error. -/
theorem compileNodes (h : Building s P) (depth : Nat) (nodes : List NodeId) :
    P (DataBinding.compileNodes s kit depth nodes) := by
  -- along the recursion of the walk: the children one level down, then the siblings
  fun_induction DataBinding.compileNodes s kit depth nodes with
  | case1 depth => exact h.pure _
  | case2 n rest => exact h.failure
  | case3 depth n rest ihDown ihBeside =>
    refine h.bind (h.compileNode n) fun first => ?_
    cases first with
    | error e => exact h.pure _
    | ok u =>
      refine h.after_get fun w => h.bind (ihDown w) fun below => ?_
      cases below with
      | error e => exact h.pure _
      | ok u => exact ihBeside

theorem compile (h : Building s P) (kit : Kit κ) (root : NodeId) :
    P (DataBinding.compile s kit root) :=
  h.after_get fun _ => h.bind (h.mapDocument _) fun _ =>
    h.bind (h.holding _ (h.compileNodes s.depth _)) fun _ =>
      h.bind (h.mapDocument _) fun _ => h.pure _

/-- Mounting observes the data, compiles the page, and looks at the keys. -/
theorem mount (h : Building s P) (place : Mount) (hook : Hook κ) (kit : Kit κ) :
    P (DataBinding.mount s place hook kit) := by
  refine h.after_get fun w => ?_
  cases place.resolve w.document with
  | error e => exact h.pure _
  | ok root =>
    refine h.bind (h.observe hook _) fun _ => h.bind (h.compile kit root) fun compiled => ?_
    cases compiled with
    | error e => exact h.pure _
    | ok u => exact h.after_get fun _ => h.pure _

end Building

/-! ## User code -/

/-- A program has a property that its requests have, and what else changes the world. -/
theorem Compositional.account (h : Compositional P) {c : Conduct κ σ} {on : Option Occasion}
    (hrequest : ∀ {α : Type} (r : Request κ α), P ((Program.request r).execUnder c on s))
    (huser : ∀ f : σ → σ, P (modify fun w => { w with user := f w.user }))
    (hcollecting : ∀ {α : Type} (i : WatcherId) (p : Program κ σ α), P (p.execUnder c on s) →
      P ((Program.collecting i p).execUnder c on s))
    {α : Type} (p : Program κ σ α) : P (p.execUnder c on s) := by
  induction p with
  | done a => exact h.pure _
  | andThen p next ihp ihn => exact h.bind ihp ihn
  | ask q => exact h.after_get fun _ => h.pure _
  | request r => exact hrequest r
  | getUser => exact h.after_get fun _ => h.pure _
  | updateUser f => exact huser f
  | holding hs p ih => exact h.holding hs ih
  | collecting i p ih => exact hcollecting i p ih

end Account

end DataBinding
