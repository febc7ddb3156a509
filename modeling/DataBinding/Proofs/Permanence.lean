import DataBinding.Proofs.Inspection
import DataBinding.Proofs.Recording
import DataBinding.Proofs.Resemblance
import DataBinding.Proofs.Trees
import Mathlib.Data.List.Infix

/-!
# What is never taken back

Keys, reactive fields, subscriptions and listeners are only ever added, each after those that are
there. No rule for user code is needed for that: hooks may write, callbacks may collect, anything
may fail. It is so because each single change to the world is of that kind, and operations are
made of such changes and of each other.

Two things stand in brackets while an operation runs: what is held, and the watcher that collects.
Neither counts for what lasts, and the second is put back, so an operation `Returns` when it comes
to its end. This is proved together with what an inspector sees (`Tracks`): in worlds in which
what was there lasts, checking this makes no difference.
-/

namespace DataBinding

variable {κ σ α β : Type}

/-! ## The heap -/

namespace Heap

/-- A later heap has what an earlier one has. A reactive field is known by its place: it stays
reactive, with the hook it has, and its list goes on. -/
structure LastsIn (h h' : Heap κ) : Prop where
  keys : ∀ o, (h.slots o).keys <+: (h'.slots o).keys
  field : ∀ {o key c}, h.cell? o key = some c →
    ∃ c', h'.cell? o key = some c' ∧ c'.hook = c.hook
  subscribers : ∀ o key, h.subscribers o key <+: h'.subscribers o key

namespace LastsIn

theorem refl (h : Heap κ) : h.LastsIn h :=
  ⟨fun _ => List.prefix_refl _, fun {_ _ c} hc => ⟨c, hc, rfl⟩, fun _ _ => List.prefix_refl _⟩

theorem trans {a b c : Heap κ} (hab : a.LastsIn b) (hbc : b.LastsIn c) : a.LastsIn c := by
  refine ⟨fun o => (hab.keys o).trans (hbc.keys o), fun hc => ?_,
    fun o key => (hab.subscribers o key).trans (hbc.subscribers o key)⟩
  obtain ⟨c₁, hc₁, hhook₁⟩ := hab.field hc
  obtain ⟨c₂, hc₂, hhook₂⟩ := hbc.field hc₁
  exact ⟨c₂, hc₂, hhook₂.trans hhook₁⟩

variable {h h' : Heap κ} {o : ObjectId} {key : String}

/-- A reactive field stays reactive. -/
theorem isReactive (hl : h.LastsIn h') (hr : h.isReactive o key = true) :
    h'.isReactive o key = true := by
  obtain ⟨c, hc⟩ := Option.isSome_iff_exists.mp hr
  obtain ⟨c', hc', _⟩ := hl.field hc
  exact Option.isSome_iff_exists.mpr ⟨c', hc'⟩

/-- A change that leaves the cells alone. -/
theorem of_cells (hkeys : ∀ o, (h.slots o).keys <+: (h'.slots o).keys)
    (hcells : ∀ o key, h'.cell? o key = h.cell? o key) : h.LastsIn h' := by
  refine ⟨hkeys, fun {o key c} hc => ⟨c, (hcells o key).trans hc, rfl⟩, fun o key => ?_⟩
  rw [subscribers_congr (hcells o key)]

/-- A change to one cell that keeps its hook and its subscribers. -/
theorem modifyCell (h : Heap κ) (o : ObjectId) (k : String) {f : Cell κ → Cell κ}
    (hhook : ∀ c, (f c).hook = c.hook) (hlist : ∀ c, c.subscribers <+: (f c).subscribers) :
    h.LastsIn (h.modifyCell o k f) := by
  refine ⟨fun p => ?_, fun {p key c} hc => ?_, fun p key => ?_⟩
  · rw [Heap.modifyCell, keys_slots_modifySlots]
    exact fun slots => OrderedMap.keys_modify slots k _
  · rw [cell?_modifyCell]
    split
    · exact ⟨f c, by rw [hc]; rfl, hhook c⟩
    · exact ⟨c, hc, rfl⟩
  · unfold Heap.subscribers
    rw [cell?_modifyCell]
    split
    · cases h.cell? p key with
      | none => exact List.prefix_refl _
      | some c => exact hlist c
    · exact List.prefix_refl _

/-- Another value, in the same field. -/
theorem store (h : Heap κ) (o : ObjectId) (key : String) (v : Value) :
    h.LastsIn (h.store o key v) :=
  .modifyCell h o key (fun _ => rfl) fun _ => List.prefix_refl _

/-- A subscriber is added at the end. -/
theorem subscribe (h : Heap κ) (o : ObjectId) (key : String) (i : WatcherId) :
    h.LastsIn (h.subscribe o key i) :=
  .modifyCell h o key (fun _ => rfl) fun c => List.prefix_append c.subscribers [i]

/-- Only a field that is not reactive is put as a plain one. -/
theorem putPlain (hc : h.cell? o key = none) (v : Value) : h.LastsIn (h.putPlain o key v) := by
  refine .of_cells (fun p => ?_) fun p k => cell?_putPlain hc v p k
  rw [Heap.putPlain, slots_modifySlots]
  split
  · rw [OrderedMap.keys_insert]
    split
    · exact List.prefix_refl _
    · exact List.prefix_append _ _
  · exact List.prefix_refl _

/-- Observing keeps all keys in place, and the fields that are reactive already. -/
theorem intercept (hook : Hook κ) (h : Heap κ) (values : List Value) :
    h.LastsIn (h.intercept hook values) := by
  refine ⟨fun o => ?_, fun {o key c} hc => ⟨c, cell?_intercept_of_some hc, rfl⟩, fun o key => ?_⟩
  · rw [(mirrors_intercept hook h values).keys o]
  · rw [subscribers_intercept]

/-- A new object takes a number under which nothing was. -/
theorem alloc (h : Heap κ) {slots : Slots κ}
    (hslots : ∀ key, (slots.find? key).bind Slot.cell? = none) : h.LastsIn (h.alloc slots).2 := by
  refine .of_cells (fun o => ?_) (cell?_alloc hslots)
  rw [slots_alloc]
  split
  · next ho =>
    have hnone : h.objects.find? o.index = none := by
      rw [ho]
      exact Table.find?_eq_none_iff.mpr (Nat.le_refl _)
    have hempty : h.slots o = ∅ := by simp [Heap.slots, hnone]
    rw [hempty]
    exact List.nil_prefix
  · exact List.prefix_refl _

theorem allocArray (h : Heap κ) (items : List Value) : h.LastsIn (h.allocArray items).2 :=
  .of_cells (fun _ => List.prefix_refl _) fun _ _ => rfl

/-- Whatever only adds arrays and objects lasts. -/
theorem byAdding : ByAdding (LastsIn (κ := κ)) where
  refl := .refl
  trans := .trans
  array := .allocArray
  object h _ hslots := .alloc h hslots

/-- What is made from JSON stands in new objects. -/
theorem ofJson (h : Heap κ) (j : Json) : h.LastsIn (h.ofJson j).2 := byAdding.ofJson h j

end LastsIn

end Heap

/-! ## The world -/

namespace World

/-- A later world has what an earlier one has: the keys, the reactive fields and their lists, and
the listeners of each node. -/
structure LastsIn (w w' : World κ σ) : Prop where
  heap : w.heap.LastsIn w'.heap
  listeners : ∀ n, (w.document.node n).listeners <+: (w'.document.node n).listeners

/-- What an operation has done when it comes to its end: everything lasts, and the slot for the
collecting watcher holds what it held before. -/
structure Returns (w w' : World κ σ) : Prop where
  lasts : w.LastsIn w'
  current : w'.current = w.current

theorem LastsIn.refl (w : World κ σ) : w.LastsIn w := ⟨.refl _, fun _ => List.prefix_refl _⟩

/-- What lasts, lasts on. -/
theorem LastsIn.trans {a b c : World κ σ} (hab : a.LastsIn b) (hbc : b.LastsIn c) :
    a.LastsIn c :=
  ⟨hab.heap.trans hbc.heap, fun n => (hab.listeners n).trans (hbc.listeners n)⟩

/-- Only the data and the document count. -/
theorem LastsIn.of_same {a b c : World κ σ} (hab : a.LastsIn b) (hheap : c.heap = b.heap)
    (hdocument : c.document = b.document) : a.LastsIn c :=
  ⟨hheap ▸ hab.heap, hdocument ▸ hab.listeners⟩

namespace Returns

theorem refl (w : World κ σ) : w.Returns w := ⟨.refl w, rfl⟩

theorem trans {a b c : World κ σ} (hab : a.Returns b) (hbc : b.Returns c) : a.Returns c :=
  ⟨hab.lasts.trans hbc.lasts, hbc.current.trans hab.current⟩

/-- A change to neither data nor document. -/
theorem of_same {w w' : World κ σ} (hheap : w'.heap = w.heap)
    (hdocument : w'.document = w.document) (hcurrent : w'.current = w.current) : w.Returns w' :=
  ⟨(LastsIn.refl w).of_same hheap hdocument, hcurrent⟩

theorem of_heap {w : World κ σ} {heap : Heap κ} (hheap : w.heap.LastsIn heap) :
    w.Returns { w with heap } :=
  ⟨⟨hheap, fun _ => List.prefix_refl _⟩, rfl⟩

theorem of_document {w : World κ σ} {document : Document κ}
    (hlisteners : ∀ n, (w.document.node n).listeners <+: (document.node n).listeners) :
    w.Returns { w with document } :=
  ⟨⟨.refl _, hlisteners⟩, rfl⟩

/-- A change to the document that leaves the listeners alone. -/
theorem of_listeners {w : World κ σ} {document : Document κ}
    (hlisteners : ∀ n, (document.node n).listeners = (w.document.node n).listeners) :
    w.Returns { w with document } :=
  .of_document fun n => by rw [hlisteners n]

/-- A listener is added at the end. -/
theorem addListener (w : World κ σ) (n : NodeId) (event : String) (l : Listener κ) :
    w.Returns (w.mapDocument fun d => d.addListener n event l) := by
  refine .of_document fun m => ?_
  unfold Document.addListener
  rw [Document.node_modifyNode]
  split
  · exact List.prefix_append _ _
  · exact List.prefix_refl _

end Returns

end World

open World

/-! ## Runs -/

/-- Wherever what was there at the start lasts, two runs do the same, and return. -/
def Run.Tracks (start : World κ σ) (m m' : Run κ σ α) : Prop :=
  ∀ ⦃w⦄, start.LastsIn w → m w = m' w ∧ ∀ ⦃a w'⦄, m' w = some (a, w') → w.Returns w'

namespace Run.Tracks

variable {start : World κ σ} {m m' : Run κ σ α}

theorem pure (a : α) : Tracks start (Pure.pure a) (Pure.pure a) := by
  intro w _
  refine ⟨rfl, fun b w' h => ?_⟩
  rw [(Run.pure_eq_some.mp h).2]
  exact .refl w'

theorem bind {f f' : α → Run κ σ β} (hm : Tracks start m m')
    (hf : ∀ a, Tracks start (f a) (f' a)) : Tracks start (m >>= f) (m' >>= f') := by
  intro w hw
  obtain ⟨heq, hreturns⟩ := hm hw
  refine ⟨Run.bind_congr heq fun h => (hf _ (hw.trans (hreturns h).lasts)).1, fun b w' h => ?_⟩
  obtain ⟨a, w₁, h₁, h₂⟩ := Run.bind_eq_some.mp h
  have h₁ := hreturns h₁
  exact h₁.trans ((hf a (hw.trans h₁.lasts)).2 h₂)

/-- The step that looks at the world is the same on both sides. -/
theorem after_get {f f' : World κ σ → Run κ σ α} (hf : ∀ w, Tracks start (f w) (f' w)) :
    Tracks start (get >>= f) (get >>= f') := by
  intro w hw
  refine ⟨(hf w hw).1, fun a w' h => ?_⟩
  obtain ⟨_, _, hget, h⟩ := Run.bind_eq_some.mp h
  obtain ⟨rfl, rfl⟩ := Run.get_eq_some.mp hget
  exact (hf w hw).2 h

theorem modify {f : World κ σ → World κ σ} (hf : ∀ w : World κ σ, w.Returns (f w)) :
    Tracks start (modify f : Run κ σ Unit) (modify f) := by
  intro w _
  refine ⟨rfl, fun u w' h => ?_⟩
  rw [← Run.modify_eq_some.mp h]
  exact hf w

theorem changing {f : World κ σ → α × World κ σ} (hf : ∀ w : World κ σ, w.Returns (f w).2) :
    Tracks start (Request.changing f) (Request.changing f) := by
  intro w _
  refine ⟨rfl, fun a w' h => ?_⟩
  have hw' : (f w).2 = w' := congrArg Prod.snd (Run.changing_eq_some.mp h)
  rw [← hw']
  exact hf w

theorem failure : Tracks start (failure : Run κ σ α) failure :=
  fun _ _ => ⟨rfl, fun _ _ h => absurd h (by simp)⟩

theorem discard (hm : Tracks start m m') :
    Tracks start (Functor.discard m) (Functor.discard m') := by
  intro w hw
  obtain ⟨heq, hreturns⟩ := hm hw
  refine ⟨Run.discard_congr heq, fun u w' h => ?_⟩
  obtain ⟨a, h⟩ := Run.discard_eq_some.mp h
  exact hreturns h

theorem holding (hs : List Handle) (hm : Tracks start m m') :
    Tracks start (Run.holding hs m) (Run.holding hs m') := by
  intro w hw
  obtain ⟨heq, hreturns⟩ := hm (hw.of_same (c := { w with held := hs ++ w.held }) rfl rfl)
  refine ⟨Run.holding_congr heq, fun a w' h => ?_⟩
  obtain ⟨w₁, h₁, rfl⟩ := Run.holding_eq_some.mp h
  have h₁ := hreturns h₁
  exact ⟨⟨h₁.lasts.heap, h₁.lasts.listeners⟩, h₁.current⟩

/-- Whoever is put into the slot meanwhile, it holds afterwards what it held before. -/
theorem collecting (i : WatcherId) (hm : Tracks start m m') :
    Tracks start (Run.collecting i m) (Run.collecting i m') := by
  intro w hw
  obtain ⟨heq, hreturns⟩ := hm (hw.of_same (c := { w with
    current := some i
    held := w.current.toList.map .watcher ++ w.held }) rfl rfl)
  constructor
  · cases hm' : Run.collecting i m' w with
    | none =>
      rw [Run.collecting_eq_none] at hm' ⊢
      exact heq.trans hm'
    | some r =>
      obtain ⟨w₁, h₁, hr⟩ := Run.collecting_eq_some.mp hm'
      exact Run.collecting_eq_some.mpr ⟨w₁, heq.trans h₁, hr⟩
  · intro a w' h
    obtain ⟨w₁, h₁, rfl⟩ := Run.collecting_eq_some.mp h
    have h₁ := hreturns h₁
    exact ⟨⟨h₁.lasts.heap, h₁.lasts.listeners⟩, rfl⟩

end Run.Tracks

/-- Two environments whose callbacks do the same, hooks included, and return. -/
structure Env.Echoes (start : World κ σ) (e e' : Env κ σ) : Prop where
  handles : e.handles = e'.handles
  depth : e.depth = e'.depth
  call : ∀ code occasion, Run.Tracks start (e.call code occasion) (e'.call code occasion)

namespace Env.Echoes

open Run (Tracks)

variable {start : World κ σ} {e e' : Env κ σ}

/-! ## Reading -/

theorem tell (h : e.Echoes start e') (hook : Hook κ) (occasion : Occasion) :
    Tracks start (e.tell hook occasion) (e'.tell hook occasion) := by
  cases hook with
  | silent => exact .pure _
  | custom code => exact .discard (h.call code occasion)

theorem subscribeCurrent (o : ObjectId) (key : String) :
    Tracks start (modify (World.subscribeCurrent o key) : Run κ σ Unit)
      (modify (World.subscribeCurrent o key)) := by
  refine .modify fun w => ?_
  unfold World.subscribeCurrent
  split
  · exact .refl w
  · next i _ => exact .of_heap (.subscribe w.heap o key i)

theorem read (h : e.Echoes start e') (o : ObjectId) (key : String) :
    Tracks start (read e o key) (read e' o key) := by
  refine .after_get fun w => ?_
  split
  · exact .pure _
  · exact .pure _
  · exact .bind (subscribeCurrent o key) fun _ =>
      .bind (.holding _ (h.tell _ _)) fun _ => .pure _

/-- No change of the document that operations make takes a listener away. -/
theorem edit {change : Document κ → Document κ} (hchange : Document.Edit change) :
    Tracks start (modify (World.mapDocument change) : Run κ σ Unit)
      (modify (World.mapDocument change)) := by
  refine .modify fun w => ?_
  cases hchange with
  | setValue n text => exact .of_listeners (w.document.listeners_setValue n text)
  | setText n text => exact .of_listeners (w.document.listeners_setText n text)
  | addListener n event l => exact .addListener w n event l
  | detachChildren n => exact .of_listeners (w.document.listeners_detachChildren n)
  | appendChildren n ns => exact .of_listeners (w.document.listeners_appendChildren n ns)

/-- The same world is seen by both. -/
theorem sideBySide (h : e.Echoes start e') :
    SideBySide e e' Eq fun m m' : Run κ σ _ => Tracks start m m' where
  pure := .pure
  bind := .bind
  sight := .same h.handles
  after_get hf := .after_get fun w => hf w w rfl
  discard := .discard
  holding := .holding
  edit := edit
  read := h.read

/-! ## Updates and writes -/

theorem update (h : e.Echoes start e') (i : WatcherId) :
    Tracks start (update e i) (update e' i) :=
  h.sideBySide.update (fun code _ => h.call code _)
    (fun _ _ => .modify fun _ => .of_same rfl rfl rfl) i

theorem intercept (hook : Hook κ) (values : List Value) :
    Tracks start (modify (World.mapHeap fun heap => heap.intercept hook values) : Run κ σ Unit)
      (modify (World.mapHeap fun heap => heap.intercept hook values)) :=
  .modify fun w => .of_heap (.intercept hook w.heap values)

theorem overwrite (h : e.Echoes start e') (o : ObjectId) (key : String) (c : Cell κ) (v : Value) :
    Tracks start (overwrite e o key c v) (overwrite e' o key c v) :=
  .bind (intercept c.hook [v]) fun _ => .bind (.holding _ (h.tell _ _)) fun _ =>
    .bind (.modify fun w => .of_heap (.store w.heap o key v)) fun _ =>
    .holding _ (h.sideBySide.notify h.update o key)

/-- A plain slot is put only where there is no reactive field at that moment. -/
theorem write (h : e.Echoes start e') (o : ObjectId) (key : String) (v : Value) :
    Tracks start (write e o key v) (write e' o key v) := by
  intro w hw
  cases hc : w.heap.cell? o key with
  | none =>
    rw [write_eq_putPlain hc, write_eq_putPlain hc]
    refine ⟨rfl, fun u w' hr => ?_⟩
    obtain ⟨_, rfl⟩ := Prod.mk.inj (Option.some.inj hr)
    exact .of_heap (.putPlain hc v)
  | some c =>
    cases heq : c.value.strictEq v with
    | true =>
      rw [write_eq_self hc heq, write_eq_self hc heq]
      refine ⟨rfl, fun u w' hr => ?_⟩
      obtain ⟨_, rfl⟩ := Prod.mk.inj (Option.some.inj hr)
      exact .refl w
    | false =>
      rw [write_eq_overwrite hc heq, write_eq_overwrite hc heq]
      exact h.overwrite o key c v hw

/-- The first read of a new watcher is the one that returns the slot. -/
theorem watch (h : e.Echoes start e') (expression : String) (o : ObjectId)
    (reaction : Reaction κ) :
    Tracks start (watch e expression o reaction) (watch e' expression o reaction) :=
  .after_get fun _ => .bind (.pure ()) fun _ =>
    .bind (.modify fun _ => .of_same rfl rfl rfl) fun _ =>
    .bind (.holding _ (.collecting _ (h.read o _))) fun _ =>
    .bind (.modify fun _ => .of_same rfl rfl rfl) fun _ => .bind (.pure ()) fun _ => .pure _

/-! ## Events and bindings -/

theorem deliver (h : e.Echoes start e') (event : Event) (l : Listener κ) :
    Tracks start (l.deliver e event) (l.deliver e' event) :=
  h.sideBySide.deliver (fun code _ _ => h.call code _) (fun code _ => h.call code _) h.write
    event l

theorem buildsSideBySide (h : e.Echoes start e') :
    BuildsSideBySide e e' Eq fun m m' : Run κ σ _ => Tracks start m m' where
  toSideBySide := h.sideBySide
  watch := h.watch
  depth := h.depth.le
  stuck hm' := by
    rw [hm' h.depth.symm]
    exact .failure

/-! ## Requests and programs -/

theorem perform (h : e.Echoes start e') (r : Request κ α) :
    Tracks start (r.perform e) (r.perform e') := by
  have hside : SideBySide e e' Eq fun m m' : Run κ σ _ => Tracks start m m' := h.sideBySide
  have hbuilds : BuildsSideBySide e e' Eq fun m m' : Run κ σ _ => Tracks start m m' :=
    h.buildsSideBySide
  cases r with
  | newObject => exact .changing fun w => .of_heap (.alloc w.heap fun _ => rfl)
  | newArray items => exact .changing fun w => .of_heap (.allocArray w.heap items)
  | ofJson j => exact .changing fun w => .of_heap (.ofJson w.heap j)
  | read o key => exact h.read o key
  | write o key v => exact h.write o key v
  | observe hook v => exact intercept hook [v]
  | watch expression o code => exact h.watch expression o _
  | update i => exact h.update i
  | render t o => exact hside.render t o
  | newNode content =>
    exact .changing fun w => .of_listeners (w.document.listeners_create content)
  | setAttribute n name value =>
    exact .modify fun w => .of_listeners (w.document.listeners_modifyNode n
      (f := fun node => { node with content := node.content.setAttribute name value })
      fun _ => rfl)
  | setText n text => exact edit (.setText n text)
  | setValue n text => exact edit (.setValue n text)
  | appendChildren n children => exact edit (.appendChildren n children)
  | detachChildren n =>
    exact .changing fun w => .of_listeners (w.document.listeners_detachChildren n)
  | listen n event code => exact edit (.addListener n event _)
  | dispatch n event => exact hside.dispatch h.deliver n event
  | enter n text => exact hside.enter h.deliver n text
  | bind d n expression kit => exact hbuilds.directive n expression kit d
  | compile kit root => exact hbuilds.compile kit root
  | mount place hook kit => exact hbuilds.mount place (fun v => intercept hook [v]) kit
  | getProperty app key => exact hside.getProperty (h.read app.data) key
  | setProperty app key v => exact hside.setProperty (h.write app.data) key v
  | callMethod method o event => exact .holding _ (h.call _ _)

/-- Whatever is put together from requests lasts and returns. -/
theorem exec (h : e.Echoes start e') (p : Program κ σ α) :
    Tracks start (p.exec e) (p.exec e') := by
  induction p with
  | done a => exact .pure a
  | andThen p next ihp ihn => exact .bind ihp ihn
  | ask q =>
    unfold Program.exec
    rw [h.handles]
    exact .after_get fun _ => .pure _
  | request r => exact h.perform r
  | getUser => exact .after_get fun _ => .pure _
  | updateUser f => exact .modify fun _ => .of_same rfl rfl rfl
  | holding hs p ih => exact .holding hs ih
  | collecting i p ih => exact .collecting i ih

/-- An inspector who checks no more than what lasts and what returns is not noticed. -/
theorem inspect (h : e.Echoes start e') (c : Conduct κ σ) {law : Law κ σ}
    (hsight : ∀ on w, start.LastsIn w → law.sight on w)
    (hstep : ∀ {α : Type} (r : Request κ α) (w w' : World κ σ), w.Returns w' → law.step r w w')
    (on : Option Occasion) (p : Program κ σ α) :
    Tracks start (p.inspect c law on e) (p.inspect c .any on e') := by
  have hany : ∀ w : World κ σ, Law.any.sight on w := fun _ => trivial
  -- what lasts from the start is in sight at every step
  induction p with
  | done a => exact .pure _
  | andThen p next ihp ihn =>
    unfold Program.inspect
    refine .bind ihp fun answer => ?_
    cases answer with
    | none => exact .pure _
    | some a => exact ihn a
  | ask q =>
    intro w hw
    rw [Program.inspect_ask q (hsight on w hw), Program.inspect_ask q (hany w), h.handles]
    refine ⟨rfl, fun a w' hr => ?_⟩
    obtain ⟨_, rfl⟩ := Prod.mk.inj (Option.some.inj hr)
    exact .refl w
  | request r =>
    intro w hw
    obtain ⟨heq, hreturns⟩ := h.perform r hw
    refine ⟨Program.inspect_request_congr r (hsight on w hw) (fun _ => heq) fun _ _ w' hp => ?_,
      fun answer w' hr => ?_⟩
    · have hr' := hreturns hp
      exact ⟨hsight on w' (hw.trans hr'.lasts), hstep r w w' hr'⟩
    · rcases Program.of_inspect_request hr with ⟨_, a, hp⟩ | rfl
      · exact hreturns hp
      · exact .refl w'
  | getUser => exact .after_get fun _ => .pure _
  | updateUser f => exact .bind (.modify fun _ => .of_same rfl rfl rfl) fun _ => .pure _
  | holding hs p ih => exact .holding hs ih
  | collecting i p ih =>
    refine .after_get fun w => ?_
    split
    · exact .collecting i ih
    · exact .pure _

end Env.Echoes

namespace Host

/-- By induction on the depth: the callbacks of one level are programs of the level below. -/
theorem env_echoes (host : Host κ σ) (start : World κ σ) (depth : Nat) :
    (host.env depth).Echoes start (host.env depth) := by
  induction depth with
  | zero => exact ⟨rfl, rfl, fun _ _ => .failure⟩
  | succ depth ih => exact ⟨rfl, rfl, fun code occasion => ih.exec (host.body code occasion)⟩

/-- Every run that comes to its end returns. -/
theorem returns_of_run {host : Host κ σ} {depth : Nat} {p : Program κ σ α} {w w' : World κ σ}
    {a : α} (hrun : host.run depth p w = some (a, w')) : w.Returns w' :=
  (((host.env_echoes w depth).exec p) (.refl w)).2 hrun

theorem envInspected_echoes (host : Host κ σ) {start : World κ σ} (c : Conduct κ σ)
    {law : Law κ σ} (hsight : ∀ on w, start.LastsIn w → law.sight on w)
    (hstep : ∀ {α : Type} (r : Request κ α) (w w' : World κ σ), w.Returns w' → law.step r w w')
    (levels depth : Nat) :
    (host.envInspected c law levels depth).Echoes start
      (host.envInspected c .any levels depth) := by
  have hhandles : ∀ depth, (host.envInspected c law levels depth).handles =
      (host.envInspected c .any levels depth).handles := fun depth => by
    rw [handles_envInspected, handles_envInspected]
  have hlevels : ∀ depth, (host.envInspected c law levels depth).depth =
      (host.envInspected c .any levels depth).depth := fun depth => by
    rw [depth_envInspected, depth_envInspected]
  induction depth with
  | zero => exact ⟨hhandles 0, hlevels 0, fun _ _ => .pure (Except.ok ())⟩
  | succ depth ih =>
    refine ⟨hhandles _, hlevels _, fun code occasion => ?_⟩
    have hbody := ih.inspect c hsight hstep (some occasion) (host.body code occasion)
    exact hbody.bind fun answer => .pure (answer.getD (.ok ()))

/-- A law that asks for no more than what lasts and what returns is never broken. -/
theorem upholds_of_returns (host : Host κ σ) {start : World κ σ} (c : Conduct κ σ)
    {law : Law κ σ} (hsight : ∀ on w, start.LastsIn w → law.sight on w)
    (hstep : ∀ {α : Type} (r : Request κ α) (w w' : World κ σ), w.Returns w' → law.step r w w')
    (p : Program κ σ α) : host.Upholds c law p start := fun levels depth =>
  (((host.envInspected_echoes c hsight hstep levels depth).inspect c hsight hstep none p)
    (.refl start)).1

end Host

/-- Whatever there was at the start is there at every moment of a run, and whatever there was when
a request was made is there when it comes to its end. -/
def Law.lasting (start : World κ σ) : Law κ σ where
  sight _ w := start.LastsIn w
  step _ w w' := w.LastsIn w'

/-- **The store only grows.** -/
theorem everything_lasts (host : Host κ σ) (p : Program κ σ α) (w : World κ σ) :
    host.Upholds .free (.lasting w) p w ∧
      ∀ depth a w', host.run depth p w = some (a, w') → w.LastsIn w' :=
  ⟨host.upholds_of_returns .free (fun _ _ h => h) (fun _ _ _ h => h.lasts) p,
    fun _ _ _ hrun => (Host.returns_of_run hrun).lasts⟩

namespace Sprouting

/-- The callback adds a key, watches the key that has changed, listens, and then fails. -/
def host : Host Unit Unit where
  body _ _ :=
    .andThen (.request (.write ⟨0⟩ "b" .null)) fun _ =>
    .andThen (.request (.watch "a" ⟨0⟩ ())) fun _ =>
    .andThen (.request (.listen ⟨0⟩ "click" ())) fun _ =>
    .done (.error (.methodFailed "sprout" "no more"))
  handles _ := []

/-- A watcher with that callback, and a node with a listener. -/
def sow : Program Unit Unit Unit :=
  .andThen (.request .newObject) fun o =>
  .andThen (.request (.write o "a" (.bool false))) fun _ =>
  .andThen (.request (.observe .silent (.object o))) fun _ =>
  .andThen (.request (.watch "a" o ())) fun _ =>
  .andThen (.request (.newNode (.text ""))) fun n =>
  .request (.listen n "click" ())

/-- The callback runs once for the write and once for the event, which it fails. -/
def grow : Program Unit Unit (Except ViewError Unit) :=
  .andThen (.request (.write ⟨0⟩ "a" (.bool true))) fun _ =>
  .request (.dispatch ⟨0⟩ { name := "click" })

end Sprouting

theorem everything_lasts_sprouting :
    ∃ w w' u e, Sprouting.host.run 3 Sprouting.sow { user := () } = some (u, w) ∧
      Sprouting.host.run 3 Sprouting.grow w = some (.error e, w') ∧
      (w'.heap.slots ⟨0⟩).keys = ["a", "b"] ∧ w'.heap.subscribers ⟨0⟩ "a" = [⟨0⟩, ⟨1⟩, ⟨2⟩] ∧
      w.LastsIn w' := by
  have hends : (Sprouting.host.run 3 Sprouting.sow { user := () }).any (fun r =>
      (Sprouting.host.run 3 Sprouting.grow r.2).any fun r' =>
        r'.1.toOption.isNone && ((r'.2.heap.slots ⟨0⟩).keys == ["a", "b"]
          && r'.2.heap.subscribers ⟨0⟩ "a" == [⟨0⟩, ⟨1⟩, ⟨2⟩])) = true := by
    decide +kernel
  obtain ⟨⟨u, w⟩, hsow, hends⟩ := (Option.any_eq_true _ _).mp hends
  obtain ⟨⟨answer, w'⟩, hgrow, hfinal⟩ := (Option.any_eq_true _ _).mp hends
  obtain ⟨herror, hfinal⟩ := (Bool.and_eq_true _ _).mp hfinal
  obtain ⟨hkeys, hlist⟩ := (Bool.and_eq_true _ _).mp hfinal
  cases answer with
  | ok u => cases herror
  | error e =>
    exact ⟨w, w', u, e, hsow, hgrow, by simpa using hkeys, by simpa using hlist,
      (everything_lasts Sprouting.host Sprouting.grow w).2 3 _ w' hgrow⟩

end DataBinding
