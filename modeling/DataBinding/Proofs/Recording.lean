import DataBinding.Proofs.Accesses
import DataBinding.Proofs.Keys
import DataBinding.Proofs.Nodes
import DataBinding.Proofs.Updates

/-!
# Bindings under hooks that only record

A hook that only records changes nothing but the state of the user. Under such hooks reading always
comes to an end, and so does every binding, with subscriptions that can be counted: a new watcher
subscribes once to its key, and a watcher that was collecting before subscribes to every key that
is read in order to be shown.
-/

namespace DataBinding

variable {κ σ : Type}

/-- A hook that learns of a read changes at most the state of the user. -/
def Env.Records (env : Env κ σ) (hook : Hook κ) : Prop :=
  ∀ key value w, ∃ user, env.tell hook (.reading key value) w = some ((), { w with user })

theorem Env.records_silent (env : Env κ σ) : env.Records .silent := fun _ _ w => ⟨w.user, rfl⟩

/-- All hooks of an object only record. -/
def World.RecordedBy (w : World κ σ) (env : Env κ σ) (o : ObjectId) : Prop :=
  ∀ key c, w.heap.cell? o key = some c → env.Records c.hook

namespace World

/-- Nothing has happened to the heap but subscriptions, one for each key of a list. -/
structure Subscribes (o : ObjectId) (keys : List String) (w w' : World κ σ) : Prop where
  current : w'.current = w.current
  fields : ∀ p, w'.heap.fields p = w.heap.fields p
  peek : ∀ p key, w'.heap.peek p key = w.heap.peek p key
  cell : ∀ p key, ∃ late : List WatcherId,
    w'.heap.cell? p key = (w.heap.cell? p key).map (fun c =>
      { c with subscribers := c.subscribers ++ late }) ∧
    late.length = if p = o then keys.count key else 0

variable {env : Env κ σ} {o : ObjectId} {keys keys' : List String} {a b c w w' : World κ σ}

namespace Subscribes

theorem of_heap (hcurrent : w'.current = w.current) (hheap : w'.heap = w.heap) :
    Subscribes o [] w w' := by
  refine ⟨hcurrent, fun p => by rw [hheap], fun p key => by rw [hheap], fun p key => ⟨[], ?_, ?_⟩⟩
  · rw [hheap]
    cases w.heap.cell? p key <;> simp
  · simp

/-- Only the heap and the slot of the collecting watcher count. -/
theorem of_same (h : Subscribes o keys a b) (hcurrent : c.current = b.current)
    (hheap : c.heap = b.heap) : Subscribes o keys a c := by
  refine ⟨hcurrent.trans h.current, ?_, ?_, ?_⟩
  · rw [hheap]
    exact h.fields
  · rw [hheap]
    exact h.peek
  · rw [hheap]
    exact h.cell

theorem of_holding {hs held : List Handle} (h : Subscribes o keys { a with held := hs } b) :
    Subscribes o keys a { b with held } :=
  ⟨h.current, h.fields, h.peek, h.cell⟩

theorem trans (hab : Subscribes o keys a b) (hbc : Subscribes o keys' b c) :
    Subscribes o (keys ++ keys') a c := by
  refine ⟨hbc.current.trans hab.current, fun p => (hbc.fields p).trans (hab.fields p),
    fun p key => (hbc.peek p key).trans (hab.peek p key), fun p key => ?_⟩
  obtain ⟨late, hcell, hlate⟩ := hab.cell p key
  obtain ⟨late', hcell', hlate'⟩ := hbc.cell p key
  refine ⟨late ++ late', ?_, ?_⟩
  · rw [hcell', hcell]
    cases a.heap.cell? p key <;> simp
  · rw [List.length_append, hlate, hlate', List.count_append]
    split <;> rfl

/-- A watcher has subscribed to a key. -/
theorem of_subscribe {key : String} {i : WatcherId} (hcurrent : w'.current = w.current)
    (hheap : w'.heap = w.heap.subscribeAll (some i) [(o, key)]) : Subscribes o [key] w w' := by
  refine ⟨hcurrent, fun p => ?_, fun p k => ?_, fun p k => ?_⟩
  · rw [hheap, Heap.fields_subscribeAll]
  · rw [hheap, Heap.peek_subscribeAll]
  · refine ⟨List.replicate ([(o, key)].count (p, k)) i, ?_, ?_⟩
    · rw [hheap, Heap.cell?_subscribeAll]
    · rw [List.length_replicate]
      by_cases hp : p = o
      · rw [if_pos hp, hp, List.count_singleton, List.count_singleton]
        by_cases hk : key = k <;> simp [hk]
      · have hne : ¬ (p, k) = (o, key) := fun h => hp (Prod.mk.inj h).1
        rw [if_neg hp, List.count_singleton]
        simp [Ne.symm hp]

/-- The watcher that is collecting, if there is one, has subscribed to a key. -/
theorem of_subscribeCurrent {key : String} (hcurrent : w'.current = w.current)
    (hheap : w'.heap = w.heap.subscribeAll w.current [(o, key)]) :
    Subscribes o (if w.current.isSome then [key] else []) w w' := by
  cases hcur : w.current with
  | none =>
    rw [hcur] at hheap
    exact of_heap hcurrent hheap
  | some i =>
    rw [hcur] at hheap
    exact of_subscribe hcurrent hheap

theorem recordedBy (h : Subscribes o keys w w') (hr : w.RecordedBy env o) :
    w'.RecordedBy env o := by
  intro key c hc
  obtain ⟨late, hcell, _⟩ := h.cell o key
  rw [hcell] at hc
  obtain ⟨c₀, hc₀, rfl⟩ := Option.map_eq_some_iff.mp hc
  have hrecords : env.Records c₀.hook := hr _ _ hc₀
  exact hrecords

theorem text (h : Subscribes o keys w w') (v : Value) : w'.heap.text v = w.heap.text v :=
  Heap.text_congr h.fields v

theorem rendering (h : Subscribes o keys w w') (t : Template) (p : ObjectId) :
    t.rendering w'.heap p = t.rendering w.heap p := by
  refine Template.filled_congr fun key _ => ?_
  rw [h.text, h.peek]

/-- A reactive field has as many more subscribers as there are subscriptions to its key. -/
theorem length_subscribers (h : Subscribes o keys w w') {key : String}
    (hreactive : w.heap.isReactive o key = true) :
    (w'.heap.subscribers o key).length =
      (w.heap.subscribers o key).length + keys.count key := by
  obtain ⟨late, hcell, hlate⟩ := h.cell o key
  unfold Heap.subscribers
  rw [hcell]
  cases hc : w.heap.cell? o key with
  | none =>
    rw [Heap.isReactive, hc] at hreactive
    cases hreactive
  | some c =>
    rw [if_pos rfl] at hlate
    simp [hlate]

end Subscribes

end World

open World

/-! ## Accesses -/

variable {env : Env κ σ} {o : ObjectId} {w : World κ σ}

/-- What a read does if the hook of the field, when there is one, comes to an end and records. -/
theorem read_eq_of_tell {key : String} {user : σ}
    (hplain : w.heap.cell? o key = none → user = w.user)
    (htell : ∀ c, w.heap.cell? o key = some c →
      env.tell c.hook (.reading key c.value)
        { w with
          heap := w.heap.subscribeAll w.current [(o, key)]
          held := .object o :: c.value.handles ++ w.held } =
      some ((), { w with
          heap := w.heap.subscribeAll w.current [(o, key)]
          held := .object o :: c.value.handles ++ w.held
          user })) :
    read env o key w = some (w.heap.peek o key,
      { w with heap := w.heap.subscribeAll w.current [(o, key)], user }) := by
  unfold read
  simp only [Run.bind_eq_some, Run.get_eq_some]
  refine ⟨_, _, ⟨rfl, rfl⟩, ?_⟩
  cases hs : w.heap.slot? o key with
  | none =>
    have hc : w.heap.cell? o key = none := by simp [Heap.cell?, hs]
    rw [Heap.subscribeAll_singleton_of_cell?_eq_none hc, hplain hc]
    exact Run.pure_eq_some.mpr ⟨by simp [Heap.peek, hs], rfl⟩
  | some s =>
    cases s with
    | plain value =>
      have hc : w.heap.cell? o key = none := by simp [Heap.cell?, hs, Slot.cell?]
      rw [Heap.subscribeAll_singleton_of_cell?_eq_none hc, hplain hc]
      exact Run.pure_eq_some.mpr ⟨by simp [Heap.peek, hs, Slot.value], rfl⟩
    | reactive cell =>
      have hc : w.heap.cell? o key = some cell := by simp [Heap.cell?, hs, Slot.cell?]
      refine Run.bind_eq_some.mpr ⟨(), _, Run.modify_eq_some.mpr rfl, ?_⟩
      rw [World.subscribeCurrent_eq]
      refine Run.bind_eq_some.mpr ⟨(), _, Run.holding_eq_some.mpr ⟨_, htell cell hc, rfl⟩, ?_⟩
      exact Run.pure_eq_some.mpr ⟨by simp [Heap.peek, hs, Slot.value], rfl⟩

theorem read_eq (hr : w.RecordedBy env o) (key : String) : ∃ user,
    read env o key w = some (w.heap.peek o key,
      { w with heap := w.heap.subscribeAll w.current [(o, key)], user }) := by
  cases hc : w.heap.cell? o key with
  | none =>
    refine ⟨w.user, read_eq_of_tell (fun _ => rfl) fun c hc' => ?_⟩
    rw [hc] at hc'
    cases hc'
  | some c =>
    obtain ⟨user, htell⟩ := hr _ _ hc key c.value
      { w with
        heap := w.heap.subscribeAll w.current [(o, key)]
        held := .object o :: c.value.handles ++ w.held }
    refine ⟨user, read_eq_of_tell (fun hnone => ?_) fun c' hc' => ?_⟩
    · rw [hc] at hnone
      cases hnone
    · obtain rfl := Option.some.inj (hc.symm.trans hc')
      exact htell

/-- A read subscribes the watcher that is collecting. -/
theorem read_recorded (hr : w.RecordedBy env o) (key : String) : ∃ w',
    read env o key w = some (w.heap.peek o key, w') ∧ w'.document = w.document ∧
      w.Subscribes o (if w.current.isSome then [key] else []) w' := by
  obtain ⟨user, hread⟩ := read_eq hr key
  exact ⟨_, hread, rfl, .of_subscribeCurrent rfl rfl⟩

/-- The world after a watcher has been built. -/
theorem watch_eq (hr : w.RecordedBy env o) (expression : String) (reaction : Reaction κ) :
    ∃ user, watch env expression o reaction w = some (⟨w.watchers.size⟩,
      { w with
        watchers := w.watchers.push
          { key := Text.trim expression, data := o,
            last := w.heap.peek o (Text.trim expression), reaction }
        heap := w.heap.subscribeAll (some ⟨w.watchers.size⟩) [(o, Text.trim expression)]
        user }) := by
  have hbegun : (w.begun o (Text.trim expression) reaction).RecordedBy env o := hr
  obtain ⟨user, hread⟩ := read_eq hbegun (Text.trim expression)
  refine ⟨user, watch_eq_some_iff.mpr ⟨rfl, _, _, hread, ?_⟩⟩
  simp only [World.setLast, World.begun, Table.modify_push_size]

/-- A new watcher subscribes once to its key and has seen its value. -/
theorem watch_recorded (hr : w.RecordedBy env o) (expression : String) (reaction : Reaction κ) :
    ∃ i w', watch env expression o reaction w = some (i, w') ∧ w'.document = w.document ∧
      w.Subscribes o [Text.trim expression] w' ∧
      (w'.watcher? i).map Watcher.last = some (w.heap.peek o (Text.trim expression)) := by
  obtain ⟨user, hwatch⟩ := watch_eq hr expression reaction
  refine ⟨_, _, hwatch, rfl, .of_subscribe rfl rfl, ?_⟩
  show ((w.watchers.push _).find? w.watchers.size).map Watcher.last = _
  rw [Table.find?_push, if_pos rfl]
  rfl

theorem renderSegments_recorded (hr : w.RecordedBy env o) (segments : List Segment) : ∃ w',
    renderSegments env o segments w = some ((⟨segments⟩ : Template).rendering w.heap o, w') ∧
      w'.document = w.document ∧
      w.Subscribes o (if w.current.isSome then Template.markers ⟨segments⟩ else []) w' := by
  -- each marker is read in the world that the markers before it have left
  induction segments generalizing w with
  | nil =>
    refine ⟨w, rfl, rfl, ?_⟩
    rw [Template.markers, List.filterMap_nil, ite_self]
    exact .of_heap rfl rfl
  | cons s rest ih =>
    rw [renderSegments]
    cases s with
    | literal text =>
      obtain ⟨w', hrest, hdocument, hsubscribes⟩ := ih hr
      refine ⟨w', ?_, hdocument, hsubscribes⟩
      refine Run.bind_eq_some.mpr ⟨text, w, Run.pure_eq_some.mpr ⟨rfl, rfl⟩, ?_⟩
      exact Run.bind_eq_some.mpr ⟨_, w', hrest, Run.pure_eq_some.mpr ⟨rfl, rfl⟩⟩
    | marker key =>
      obtain ⟨w₁, hread, hdocument₁, hfirst⟩ := read_recorded hr key
      obtain ⟨w', hrest, hdocument, hsubscribes⟩ := ih (hfirst.recordedBy hr)
      refine ⟨w', ?_, hdocument.trans hdocument₁, ?_⟩
      · have hsegment : (Segment.marker key).render env o w =
            some (w.heap.text (w.heap.peek o key), w₁) := by
          refine Run.bind_eq_some.mpr ⟨_, w₁, hread, ?_⟩
          refine Run.bind_eq_some.mpr ⟨w₁, w₁, Run.get_eq_some.mpr ⟨rfl, rfl⟩, ?_⟩
          exact Run.pure_eq_some.mpr ⟨hfirst.text _, rfl⟩
        refine Run.bind_eq_some.mpr ⟨_, w₁, hsegment, ?_⟩
        refine Run.bind_eq_some.mpr ⟨_, w', hrest, Run.pure_eq_some.mpr ⟨?_, rfl⟩⟩
        rw [hfirst.rendering]
        rfl
      · -- without a collector nothing subscribes, whatever is read
        have hboth := hfirst.trans hsubscribes
        rw [hfirst.current] at hboth
        cases hcur : w.current.isSome with
        | true => simpa [hcur, Template.markers, Segment.key?] using hboth
        | false => simpa [hcur] using hboth

/-- A template shows what the heap gives it; its keys count if a watcher is collecting. -/
theorem render_recorded (hr : w.RecordedBy env o) (t : Template) : ∃ w',
    t.render env o w = some (t.rendering w.heap o, w') ∧ w'.document = w.document ∧
      w.Subscribes o (if w.current.isSome then t.markers else []) w' :=
  renderSegments_recorded hr t.segments

theorem watchMarkers_recorded (hr : w.RecordedBy env o) (n : NodeId) (t : Template)
    {keys : List String} (hkeys : ∀ key ∈ keys, Text.trim key = key) : ∃ w',
    watchMarkers env n t o keys w = some ((), w') ∧ w'.document = w.document ∧
      w.Subscribes o keys w' := by
  induction keys generalizing w with
  | nil => exact ⟨w, rfl, rfl, .of_heap rfl rfl⟩
  | cons key rest ih =>
    obtain ⟨i, w₁, hwatch, hdocument₁, hfirst, _⟩ := watch_recorded hr key (.render n t)
    rw [hkeys key List.mem_cons_self] at hfirst
    obtain ⟨w', hrest, hdocument, hsubscribes⟩ := ih (hfirst.recordedBy hr) fun k hk =>
      hkeys k (List.mem_cons_of_mem _ hk)
    refine ⟨w', ?_, hdocument.trans hdocument₁, hfirst.trans hsubscribes⟩
    rw [watchMarkers]
    exact Run.bind_eq_some.mpr ⟨i, w₁, hwatch, hrest⟩

/-! ## Bindings -/

/-- The keys that are subscribed to when each of some keys gets a watcher and is read once more to
be shown: a watcher that was collecting before takes part in that. -/
def readAgain (collecting : Bool) (keys : List String) : List String :=
  if collecting then keys ++ keys else keys

/-- The text that a text directive shows. -/
def Kit.textFor (kit : Kit κ) (h : Heap κ) (expression : String) : String :=
  let template := Template.parse expression kit.dialect
  if template.hasMarkers then template.rendering h kit.data
  else h.text (h.peek kit.data (Text.trim expression))

namespace Directive

/-- The keys that a directive subscribes to. -/
def subscriptions (dialect : Dialect) (collecting : Bool) (expression : String) :
    Directive → List String
  | .model => readAgain collecting [Text.trim expression]
  | .text =>
    let template := Template.parse expression dialect
    if template.hasMarkers then readAgain collecting template.markers
    -- the watcher of a key has seen what is shown
    else [Text.trim expression]
  | .on _ => []

/-- What a directive does to the document. -/
def mark (kit : Kit κ) (h : Heap κ) (n : NodeId) (expression : String) (d : Document κ) :
    Directive → Document κ
  | .model =>
    let key := Text.trim expression
    (d.addListener n "input" (.writeBack kit.data key)).setValue n (h.text (h.peek kit.data key))
  | .text => d.setText n (kit.textFor h expression)
  | .on event =>
    let name := Text.trim expression
    d.addListener n event (.callMethod kit.data name (kit.methods.find? name))

end Directive

theorem bindModel_recorded (hr : w.RecordedBy env o) (n : NodeId) (expression : String) : ∃ w',
    bindModel env n expression o w = some ((), w') ∧
      w'.document = (w.document.addListener n "input"
        (.writeBack o (Text.trim expression))).setValue n
          (w.heap.text (w.heap.peek o (Text.trim expression))) ∧
      w.Subscribes o (readAgain w.current.isSome [Text.trim expression]) w' := by
  let key := Text.trim expression
  obtain ⟨w₁, hread, hdocument₁, hfirst⟩ := read_recorded hr key
  obtain ⟨i, w₂, hwatch, hdocument₂, hsecond, _⟩ := watch_recorded
    (w := { w₁ with held := .object o :: (w.heap.peek o key).handles ++ w₁.held })
    (by exact hfirst.recordedBy hr) key (.setValue n)
  rw [Text.trim_trim] at hsecond
  have hsecond' : w₁.Subscribes o [key] { w₂ with held := w₁.held } := hsecond.of_holding
  have hboth := hfirst.trans hsecond'
  let w₃ : World κ σ :=
    { w₂ with held := w₁.held } |>.mapDocument fun d => d.addListener n "input" (.writeBack o key)
  refine ⟨w₃.showValue n (w.heap.peek o key), ?_, ?_, ?_⟩
  · refine Run.bind_eq_some.mpr ⟨_, w₁, hread, ?_⟩
    refine Run.bind_eq_some.mpr ⟨(), _, Run.holding_eq_some.mpr
      ⟨w₂, Run.discard_eq_some.mpr ⟨i, hwatch⟩, rfl⟩, ?_⟩
    refine Run.bind_eq_some.mpr ⟨(), w₃, Run.modify_eq_some.mpr rfl, ?_⟩
    exact Run.modify_eq_some.mpr rfl
  · show (w₂.document.addListener n "input" _).setValue n (w₂.heap.text _) = _
    rw [hboth.text, hdocument₂]
    show (w₁.document.addListener n "input" _).setValue n _ = _
    rw [hdocument₁]
  · refine Subscribes.of_same (b := { w₂ with held := w₁.held }) ?_ rfl rfl
    unfold readAgain
    cases hcur : w.current.isSome with
    | true =>
      rw [hcur] at hboth
      exact hboth
    | false =>
      rw [hcur] at hboth
      exact hboth

theorem bindText_recorded {kit : Kit κ} (hr : w.RecordedBy env kit.data) (n : NodeId)
    (expression : String) : ∃ w',
    bindText env n expression kit.data kit.dialect w = some ((), w') ∧
      w'.document = w.document.setText n (kit.textFor w.heap expression) ∧
      w.Subscribes kit.data
        (Directive.text.subscriptions kit.dialect w.current.isSome expression) w' := by
  unfold bindText Kit.textFor Directive.subscriptions
  dsimp only
  split
  · -- a template is watched at each marker and then rendered, which reads the markers again
    have hkeys : ∀ key ∈ (Template.parse expression kit.dialect).markers, Text.trim key = key :=
      fun key hkey => Template.trim_of_mem_markers hkey
    obtain ⟨w₁, hwatch, hdocument₁, hfirst⟩ := watchMarkers_recorded hr n
      (Template.parse expression kit.dialect) hkeys
    obtain ⟨w₂, hrender, hdocument₂, hsecond⟩ := render_recorded (hfirst.recordedBy hr)
      (Template.parse expression kit.dialect)
    have hboth := hfirst.trans hsecond
    rw [hfirst.current] at hboth
    refine ⟨w₂.mapDocument fun d => d.setText n
      ((Template.parse expression kit.dialect).rendering w₁.heap kit.data), ?_, ?_, ?_⟩
    · refine Run.bind_eq_some.mpr ⟨(), w₁, hwatch, ?_⟩
      exact Run.bind_eq_some.mpr ⟨_, w₂, hrender, Run.modify_eq_some.mpr rfl⟩
    · show w₂.document.setText n _ = _
      rw [hdocument₂, hdocument₁, hfirst.rendering]
    · refine Subscribes.of_same (b := w₂) ?_ rfl rfl
      unfold readAgain
      cases hcur : w.current.isSome with
      | true =>
        rw [hcur] at hboth
        exact hboth
      | false =>
        rw [hcur, if_neg Bool.false_ne_true, List.append_nil] at hboth
        exact hboth
  · -- a key is watched once, and its watcher knows what to show
    obtain ⟨i, w₁, hwatch, hdocument₁, hfirst, hlast⟩ :=
      watch_recorded hr expression (.setText n)
    refine ⟨w₁.showText n (w.heap.peek kit.data (Text.trim expression)), ?_, ?_, ?_⟩
    · refine Run.bind_eq_some.mpr ⟨i, w₁, hwatch, ?_⟩
      refine Run.bind_eq_some.mpr ⟨w₁, w₁, Run.get_eq_some.mpr ⟨rfl, rfl⟩, ?_⟩
      rw [hlast]
      exact Run.modify_eq_some.mpr rfl
    · show w₁.document.setText n (w₁.heap.text _) = _
      rw [hdocument₁, hfirst.text]
    · exact hfirst.of_same rfl rfl

/-- Every binding comes to an end. -/
theorem bind_recorded {kit : Kit κ} (hr : w.RecordedBy env kit.data) (n : NodeId)
    (directive : Directive) (expression : String) : ∃ w',
    directive.bind env n expression kit w = some ((), w') ∧
      w'.document = directive.mark kit w.heap n expression w.document ∧
      w.Subscribes kit.data
        (directive.subscriptions kit.dialect w.current.isSome expression) w' := by
  cases directive with
  | model =>
    obtain ⟨w₁, hbind, hdocument, hs⟩ := bindModel_recorded
      (w := { w with held := [.object kit.data] ++ w.held }) hr n expression
    exact ⟨_, Run.holding_eq_some.mpr ⟨w₁, hbind, rfl⟩, hdocument, hs.of_holding⟩
  | text =>
    obtain ⟨w₁, hbind, hdocument, hs⟩ := bindText_recorded
      (w := { w with held := [.object kit.data] ++ w.held }) hr n expression
    exact ⟨_, Run.holding_eq_some.mpr ⟨w₁, hbind, rfl⟩, hdocument, hs.of_holding⟩
  | on event => exact ⟨_, Run.modify_eq_some.mpr rfl, rfl, .of_heap rfl rfl⟩

/-! ## Updates and writes -/

variable {i : WatcherId} {x : Watcher κ}

/-- An update of a watcher that renders a template comes to an end. -/
theorem update_renders (hq : env.HooksRead) (hr : w.RecordedBy env x.data)
    (hcur : w.current = none) (hx : w.watcher? i = some x)
    (halive : w.isAlive env.handles x.data = true) {n : NodeId} {t : Template}
    (hreaction : x.reaction = .render n t) : ∃ document user,
    update env i w =
        some ((), { w.setLast i (w.heap.peek x.data x.key) with document, user }) ∧
      document = if x.last.strictEq (w.heap.peek x.data x.key) then w.document
        else w.document.setText n (t.rendering w.heap x.data) := by
  cases heq : x.last.strictEq (w.heap.peek x.data x.key) with
  | true => exact ⟨w.document, w.user, update_eq_setLast hx halive heq, (if_pos rfl).symm⟩
  | false =>
    let w₁ : World κ σ :=
      { w.setLast i (w.heap.peek x.data x.key) with
        held := .watcher i :: .object x.data :: (w.heap.peek x.data x.key).handles ++
          x.last.handles ++ w.held }
    obtain ⟨w₂, hrender, _⟩ := render_recorded (w := w₁) (by exact hr) t
    obtain ⟨user, rfl⟩ := (hq.render_eq_some hrender).2.of_current_eq_none hcur
    refine ⟨w.document.setText n (t.rendering w.heap x.data), user, ?_, ?_⟩
    · have hreact : x.react env (w.heap.peek x.data x.key) w₁ = some ((),
          { w₁ with document := w.document.setText n (t.rendering w.heap x.data), user }) := by
        unfold Watcher.react
        rw [hreaction]
        exact Run.bind_eq_some.mpr ⟨_, _, hrender, Run.modify_eq_some.mpr rfl⟩
      exact update_eq_react hx halive heq hreact
    · rw [if_neg Bool.false_ne_true]

/-- A write comes to an end if the hook of the field records it and the subscribers are updated. -/
theorem write_eq_of_tell {key : String} {c : Cell κ} {v : Value} {user : σ} {w' : World κ σ}
    (hc : w.heap.cell? o key = some c) (hne : c.value.strictEq v = false)
    (htell : env.tell c.hook (.writing key v)
      { w.mapHeap fun h => h.intercept c.hook [v] with
        held := .object o :: v.handles ++ w.held } =
      some ((), { w.mapHeap fun h => h.intercept c.hook [v] with
        held := .object o :: v.handles ++ w.held
        user }))
    (hall : updateAll env c.subscribers (w.stored o key c v user) = some ((), w')) :
    write env o key v w = some ((), { w' with held := w.held }) := by
  rw [write_eq_notifying hc hne htell]
  exact Run.holding_eq_some.mpr ⟨w', hall, rfl⟩

/-- A write that changes a field whose hook is silent comes to an end if the updates do. -/
theorem write_eq_updateAll {key : String} {c : Cell κ} {v : Value} {w' : World κ σ}
    (hc : w.heap.cell? o key = some c) (hsilent : c.hook = .silent)
    (hne : c.value.strictEq v = false)
    (hall : updateAll env c.subscribers (w.stored o key c v w.user) = some ((), w')) :
    write env o key v w = some ((), { w' with held := w.held }) :=
  write_eq_of_tell hc hne (by rw [hsilent]; rfl) hall

/-! ## Passive hooks -/

/-- Whether a program leaves everything but the state of the user alone. -/
def Program.Abstains {α : Type} : Program κ σ α → Prop
  | .done _ => True
  | .andThen p next => p.Abstains ∧ ∀ a, (next a).Abstains
  | .ask _ => True
  | .request _ => False
  | .getUser => True
  | .updateUser _ => True
  | .holding _ p => p.Abstains
  | .collecting _ _ => False

theorem Program.exec_of_abstains {env : Env κ σ} {α : Type} {p : Program κ σ α}
    (h : p.Abstains) (w : World κ σ) : ∃ a user, p.exec env w = some (a, { w with user }) := by
  induction p generalizing w with
  | done a => exact ⟨a, w.user, rfl⟩
  | andThen p next ihp ihn =>
    obtain ⟨a, user₁, hp⟩ := ihp h.1 w
    obtain ⟨b, user, hn⟩ := ihn a (h.2 a) { w with user := user₁ }
    exact ⟨b, user, Run.bind_eq_some.mpr ⟨a, _, hp, hn⟩⟩
  | ask q => exact ⟨_, w.user, rfl⟩
  | request r => exact h.elim
  | getUser => exact ⟨_, w.user, rfl⟩
  | updateUser f => exact ⟨_, f w.user, rfl⟩
  | holding hs p ih =>
    obtain ⟨a, user, hp⟩ := ih h { w with held := hs ++ w.held }
    exact ⟨a, user, Run.holding_eq_some.mpr ⟨_, hp, rfl⟩⟩
  | collecting i p => exact h.elim

/-- Such a program makes no request that could be against a conduct. -/
theorem Program.execUnder_of_abstains (c : Conduct κ σ) (on : Option Occasion) (env : Env κ σ)
    {α : Type} {p : Program κ σ α} (h : p.Abstains) : p.execUnder c on env = p.exec env := by
  induction p with
  | andThen p next ihp ihn =>
    unfold execUnder exec
    rw [ihp h.1]
    exact congrArg _ (funext fun a => ihn a (h.2 a))
  | holding hs p ih =>
    unfold execUnder exec
    rw [ih h]
  | request r => exact h.elim
  | collecting i p => exact h.elim
  | _ => rfl

/-- Whether all hooks are passive: told of an access, they at most record it. -/
def Host.Passive (host : Host κ σ) : Prop :=
  ∀ code occasion, occasion.isAccess = true → (host.body code occasion).Abstains

/-- Whether a hook is passive, whatever others are. -/
def Hook.IsPassive (host : Host κ σ) : Hook κ → Prop
  | .silent => True
  | .custom code => ∀ occasion, occasion.isAccess = true → (host.body code occasion).Abstains

/-- All hooks of an object are passive. -/
def World.PassiveAt (w : World κ σ) (host : Host κ σ) (o : ObjectId) : Prop :=
  ∀ key c, w.heap.cell? o key = some c → c.hook.IsPassive host

/-- A passive hook that is told of an access comes to an end and records it. -/
theorem Hook.IsPassive.tell {host : Host κ σ} {hook : Hook κ} (h : hook.IsPassive host)
    (depth : Nat) {occasion : Occasion} (hon : occasion.isAccess = true) (w : World κ σ) :
    ∃ user, (host.env (depth + 1)).tell hook occasion w = some ((), { w with user }) := by
  cases hook with
  | silent => exact ⟨w.user, rfl⟩
  | custom code =>
    have hbody : ∃ a user, (host.body code occasion).exec (host.env depth) w =
        some (a, { w with user }) := Program.exec_of_abstains (h _ hon) w
    obtain ⟨a, user, hbody⟩ := hbody
    exact ⟨user, Run.discard_eq_some.mpr ⟨a, hbody⟩⟩

theorem World.PassiveAt.recordedBy {host : Host κ σ} {o : ObjectId} {w : World κ σ}
    (h : w.PassiveAt host o) (depth : Nat) : w.RecordedBy (host.env (depth + 1)) o :=
  fun key c hc _ _ w' => (h key c hc).tell depth rfl w'

theorem Host.Passive.isPassive {host : Host κ σ} (h : host.Passive) (hook : Hook κ) :
    hook.IsPassive host := by
  cases hook with
  | silent => trivial
  | custom code => exact h code

theorem Host.Passive.tell {host : Host κ σ} (h : host.Passive) (depth : Nat) (hook : Hook κ)
    {occasion : Occasion} (hon : occasion.isAccess = true) (w : World κ σ) :
    ∃ user, (host.env (depth + 1)).tell hook occasion w = some ((), { w with user }) :=
  (h.isPassive hook).tell depth hon w

theorem Host.Passive.records {host : Host κ σ} (h : host.Passive) (depth : Nat) (hook : Hook κ) :
    (host.env (depth + 1)).Records hook :=
  fun _ _ w => h.tell depth hook rfl w

/-- Passive hooks do not feel the guard of a conduct. -/
theorem Host.Passive.records_under {host : Host κ σ} (h : host.Passive) (c : Conduct κ σ)
    (depth : Nat) (hook : Hook κ) : (host.envUnder c (depth + 1)).Records hook := by
  intro key value w
  cases hook with
  | silent => exact ⟨w.user, rfl⟩
  | custom code =>
    have hbody : ∃ a user, (host.body code (.reading key value)).execUnder c
        (some (.reading key value)) (host.envUnder c depth) w = some (a, { w with user }) := by
      rw [Program.execUnder_of_abstains c _ _ (h code _ rfl)]
      exact Program.exec_of_abstains (h code _ rfl) w
    obtain ⟨a, user, hbody⟩ := hbody
    exact ⟨user, Run.discard_eq_some.mpr ⟨a, hbody⟩⟩

end DataBinding
