import DataBinding.Proofs.Enlisting
import DataBinding.Proofs.Holding
import DataBinding.Proofs.Mounting
import DataBinding.Proofs.Upkeep
import Mathlib.Data.Fintype.EquivFin
import Mathlib.Data.List.Perm.Basic
import Mathlib.Order.WellFounded

/-!
# Data that is released goes silent

Bindings do not hold the data they are made for. So when an app is dropped, and nothing from outside
leads to its data any more, the data is gone, though the nodes and their listeners are still there.
What keeps the data from being held by its own watchers is that each of them has seen last what its
field has: as long as the data is in no circle, this does not lead back to it. A hook that writes
while a watcher is being built can undo just that, as the last section shows.

From then on listeners do nothing but complain of methods that do not exist.
-/

namespace DataBinding

open World

variable {κ σ : Type}

/-! ## Nobody holds the data -/

/-- Nothing from outside leads to an object, neither through fields nor as a watcher, and what leads
there is in no circle. -/
structure World.Dropped (w : World κ σ) (handles : σ → List Handle) (o : ObjectId) : Prop where
  watchers : ∀ i, .watcher i ∉ w.roots handles
  objects : ∀ p, w.heap.Leads p o → .object p ∉ w.roots handles
  acyclic : ∀ p, w.heap.Leads p o → ¬ Relation.TransGen w.heap.Holds p p

/-- Among finitely many things without a circle there is one that none of them leads to. -/
theorem Heap.exists_unheld {h : Heap κ} {o : ObjectId} {P : ObjectId → Prop} {size : Nat}
    (hP : ∀ p, P p → p.index < size ∧ ¬ Relation.TransGen h.Holds p p) (ho : P o) :
    ∃ p, P p ∧ ∀ q, P q → ¬ h.Holds q p := by
  let r : {p // P p} → {p // P p} → Prop := fun p q => Relation.TransGen h.Holds p q
  have hfinite : Finite {p // P p} := by
    refine Finite.of_injective (fun p => (⟨p.1.index, (hP p.1 p.2).1⟩ : Fin size)) ?_
    rintro ⟨⟨i⟩, hi⟩ ⟨⟨j⟩, hj⟩ hij
    obtain rfl : i = j := congrArg Fin.val hij
    rfl
  have htrans : IsTrans {p // P p} r := ⟨fun _ _ _ => Relation.TransGen.trans⟩
  have hirrefl : Std.Irrefl r := ⟨fun p => (hP p.1 p.2).2⟩
  obtain ⟨⟨p, hp⟩, -, hmin⟩ :=
    (Finite.wellFounded_of_trans_of_irrefl r).has_min Set.univ ⟨⟨o, ho⟩, trivial⟩
  exact ⟨p, hp, fun q hq hholds => hmin ⟨q, hq⟩ trivial (.single hholds)⟩

theorem lt_size_of_mem_things {w : World κ σ} {p : ObjectId} (h : .object p ∈ w.things) :
    p.index < w.heap.objects.size := by
  obtain ⟨i, hi, rfl⟩ : ∃ i < w.heap.objects.size, ⟨i⟩ = p := by simpa [things] using h
  exact hi

/-- Objects that only hold objects with smaller numbers are in no circle. -/
theorem Heap.acyclic_of_descending {h : Heap κ}
    (hdown : ∀ i < h.objects.size, ∀ field ∈ h.fields ⟨i⟩, ∀ q ∈ field.2.objects, q.index < i)
    (p : ObjectId) : ¬ Relation.TransGen h.Holds p p := by
  have hholds : ∀ p q, h.Holds p q → q.index < p.index := by
    rintro ⟨i⟩ q ⟨field, hfield, hq⟩
    refine hdown i ?_ field hfield q hq
    by_contra hge
    have hnone : h.objects.find? i = none := Table.find?_eq_none_iff.mpr (Nat.not_lt.mp hge)
    rw [fields, slots, hnone] at hfield
    cases hfield
  have htrans : ∀ {q}, Relation.TransGen h.Holds p q → q.index < p.index := by
    intro q hq
    induction hq with
    | single hpq => exact hholds _ _ hpq
    | tail _ hqr ih => exact Nat.lt_trans (hholds _ _ hqr) ih
  exact fun hp => Nat.lt_irrefl _ (htrans hp)

/-- Data whose watchers have all seen its values goes when it is dropped. -/
theorem isAlive_eq_false_of_dropped {w : World κ σ} {handles : σ → List Handle} {kit : Kit κ}
    {silent : NodeId → Prop} (hd : w.Dropped handles kit.data) (he : w.Enlisted kit silent)
    (hs : w.Settled) : w.isAlive handles kit.data = false := by
  rw [Bool.eq_false_iff, Ne, isAlive_iff]
  rintro (hroot | ⟨K, hK, hdata⟩)
  · exact hd.objects _ .refl hroot
  have hfinite : ∀ p, K (.object p) ∧ w.heap.Leads p kit.data →
      p.index < w.heap.objects.size ∧ ¬ Relation.TransGen w.heap.Holds p p := fun p hp =>
    ⟨lt_size_of_mem_things (hK.exist _ hp.1), hd.acyclic p hp.2⟩
  -- the first of the things that lead to the data is held by a watcher
  obtain ⟨p, ⟨hp, hleads⟩, hfirst⟩ := Heap.exists_unheld hfinite ⟨hdata, .refl⟩
  rcases hK.held _ hp with hroot | ⟨⟨q⟩ | ⟨i⟩, hg, hholds⟩
  · exact hd.objects p hleads hroot
  · rcases mem_holdings_object.mp hholds with ⟨p', hp', hholds⟩ | ⟨i, key, hi, _⟩
    · cases hp'
      exact hfirst q ⟨hg, .head hholds hleads⟩ hholds
    · cases hi
  · obtain ⟨x, p', hx, hp', hlast⟩ := mem_holdings_watcher.mp hholds
    cases hp'
    -- the watcher is one of the data, so the data leads to what the watcher has seen
    rcases hK.held _ hg with hroot | ⟨⟨q⟩ | ⟨j⟩, _, hholds'⟩
    · exact hd.watchers i hroot
    · rcases mem_holdings_object.mp hholds' with ⟨p', hp', _⟩ | ⟨i', key, hi', hsub⟩
      · cases hp'
      · cases hi'
        obtain ⟨y, hy, hdata', hhome⟩ := he.homed hsub
        obtain rfl := Option.some.inj (hx.symm.trans hy)
        obtain ⟨c, hc, hi⟩ := Heap.mem_subscribers.mp hhome
        rw [hs i x c hx hc hi] at hlast
        have hback : w.heap.Holds kit.data p := hdata' ▸ Heap.holds_of_cell? hc hlast
        exact hd.acyclic _ .refl (.head' hback hleads)
    · obtain ⟨_, _, _, hobject, _⟩ := mem_holdings_watcher.mp hholds'
      cases hobject

/-! ## Listeners without data -/

/-- The method that a listener misses. -/
def Listener.missing? : Listener κ → Option String
  | .callMethod _ name none => some name
  | _ => none

/-- What listeners in a row answer when they have no data: the first that misses a method
complains. -/
def complaint (ls : List (Listener κ)) : Except ViewError Unit :=
  match ls.findSome? Listener.missing? with
  | some name => .error (.unknownMethod name)
  | none => .ok ()

theorem World.isAlive_mapDocument (w : World κ σ) (f : Document κ → Document κ)
    (handles : σ → List Handle) (o : ObjectId) :
    (w.mapDocument f).isAlive handles o = w.isAlive handles o := by
  rw [Bool.eq_iff_iff, isAlive_iff, isAlive_iff]
  refine or_congr Iff.rfl ⟨?_, ?_⟩
  · rintro ⟨K, hK, ho⟩
    exact ⟨K, ⟨hK.exist, hK.held⟩, ho⟩
  · rintro ⟨K, hK, ho⟩
    exact ⟨K, ⟨hK.exist, hK.held⟩, ho⟩

variable {env : Env κ σ} {kit : Kit κ} {w : World κ σ}

/-- A listener whose data is gone runs no code and changes nothing. -/
theorem deliver_eq_of_dead (hdead : w.isAlive env.handles kit.data = false) {l : Listener κ}
    (hl : l.IsBound kit) (event : Event) :
    l.deliver env event w = some (complaint [l], w) := by
  cases l with
  | writeBack data key =>
    obtain rfl := hl
    cases hvalue : event.value with
    | none => simp [Listener.deliver, hvalue, complaint, Listener.missing?]
    | some text =>
      unfold Listener.deliver
      rw [hvalue]
      dsimp only
      rw [Run.get_bind, hdead]
      rfl
  | callMethod data name method =>
    obtain ⟨rfl, -⟩ := hl
    cases method with
    | none => rfl
    | some code =>
      unfold Listener.deliver
      dsimp only
      rw [Run.get_bind, hdead]
      rfl
  | custom code => exact hl.elim

theorem deliverAll_eq_of_dead (hdead : w.isAlive env.handles kit.data = false)
    {ls : List (Listener κ)} (hls : ∀ l ∈ ls, l.IsBound kit) (event : Event) :
    deliverAll env event ls w = some (complaint ls, w) := by
  induction ls with
  | nil => rfl
  | cons l rest ih =>
    have hrest := ih fun l' hl' => hls l' (List.mem_cons_of_mem _ hl')
    have hfirst := deliver_eq_of_dead hdead (hls l List.mem_cons_self) event
    unfold deliverAll
    rw [Run.bind_eq_some]
    refine ⟨_, _, hfirst, ?_⟩
    cases hl : l.missing? with
    | none => simpa [complaint, hl] using hrest
    | some name => simp [complaint, hl]

/-- An event that reaches a node from outside. -/
inductive Signal where
  | event (n : NodeId) (e : Event)
  | input (n : NodeId) (text : String)

namespace Signal

/-- The request for a signal. -/
def request : Signal → Request κ (Except ViewError Unit)
  | event n e => .dispatch n e
  | input n text => .enter n text

/-- The node that a signal reaches. -/
def node : Signal → NodeId
  | event n _ => n
  | input n _ => n

/-- The name of the event. -/
def name : Signal → String
  | event _ e => e.name
  | input _ _ => "input"

/-- What a signal does to the document by itself: a text that is entered is in the form control. -/
def mark (d : Document κ) : Signal → Document κ
  | event _ _ => d
  | input n text => d.setValue n text

/-- What a signal is answered when there is no data. -/
def answer (d : Document κ) (s : Signal) : Except ViewError Unit :=
  complaint (d.listenersFor s.node s.name)

theorem answer_mark (d : Document κ) (s t : Signal) : t.answer (s.mark d) = t.answer d := by
  cases s with
  | event n e => rfl
  | input n text => exact congrArg complaint (Document.listenersFor_setValue d n text t.node t.name)

theorem listeners_mark (d : Document κ) (s : Signal) (n : NodeId) :
    ((s.mark d).node n).listeners = (d.node n).listeners := by
  cases s with
  | event m e => rfl
  | input m text => exact Document.listeners_setValue d m text n

/-- A signal at a node of an app whose data is gone. -/
theorem perform_eq_of_dead (hdead : w.isAlive env.handles kit.data = false) {s : Signal}
    (hbound : ∀ entry ∈ (w.document.node s.node).listeners, entry.2.IsBound kit) :
    s.request.perform env w = some (s.answer w.document, w.mapDocument fun d => s.mark d) := by
  have hdispatch : ∀ {w : World κ σ} (n : NodeId) (event : Event),
      w.isAlive env.handles kit.data = false →
      (∀ entry ∈ (w.document.node n).listeners, entry.2.IsBound kit) →
      dispatch env n event w = some (complaint (w.document.listenersFor n event.name), w) := by
    intro w n event hdead hbound
    unfold dispatch
    rw [Run.get_bind]
    refine deliverAll_eq_of_dead hdead (fun l hl => ?_) _
    exact hbound _ (Document.mem_listenersFor.mp hl)
  cases s with
  | event n e => exact hdispatch n e hdead hbound
  | input n text =>
    show enter env n text w = _
    unfold enter
    rw [Run.bind_eq_some]
    refine ⟨(), _, Run.modify_eq_some.mpr rfl, ?_⟩
    rw [hdispatch n _ ((isAlive_mapDocument w _ _ _).trans hdead)]
    · exact congrArg (fun a => some (a, _))
        (congrArg complaint (Document.listenersFor_setValue w.document n text n "input"))
    · intro entry hentry
      refine hbound entry ?_
      show entry ∈ (w.document.node n).listeners
      rw [← Document.listeners_setValue w.document n text n]
      exact hentry

/-- Signals one after the other. -/
theorem requestAll_eq_of_dead (host : Host κ σ) (depth : Nat) {signals : List Signal}
    {w : World κ σ} (hdead : w.isAlive host.handles kit.data = false)
    (hbound : ∀ s ∈ signals, ∀ entry ∈ (w.document.node s.node).listeners, entry.2.IsBound kit) :
    host.run depth (.requestAll (signals.map request)) w =
      some (signals.map (answer w.document), w.mapDocument fun d => signals.foldl mark d) := by
  induction signals generalizing w with
  | nil => rfl
  | cons s rest ih =>
    have hhandles : (host.env depth).handles = host.handles := by cases depth <;> rfl
    have hfirst : s.request.perform (host.env depth) w = _ :=
      perform_eq_of_dead (hhandles ▸ hdead) (hbound s List.mem_cons_self)
    have hrest := ih (w := w.mapDocument fun d => s.mark d)
      ((isAlive_mapDocument w _ _ _).trans hdead) fun t ht entry hentry =>
        hbound t (List.mem_cons_of_mem _ ht) entry (by rwa [← listeners_mark w.document s t.node])
    refine Run.bind_eq_some.mpr ⟨_, _, hfirst, ?_⟩
    refine Run.bind_eq_some.mpr ⟨_, _, hrest, ?_⟩
    refine Run.pure_eq_some.mpr ⟨?_, rfl⟩
    rw [List.map_cons]
    refine congrArg _ (List.map_congr_left fun t _ => ?_)
    exact answer_mark w.document s t

end Signal

/-! ## The life of an app -/

/-- Nobody is subscribed to plain fields. -/
theorem Heap.subscribers_eq_nil_of_plain {h : Heap κ}
    (hplain : ∀ slots ∈ h.objects.entries.toList, ∀ entry ∈ slots.entries, entry.2.isPlain = true)
    (o : ObjectId) (key : String) : h.subscribers o key = [] := by
  have hcell : h.cell? o key = none := by
    unfold cell? slot? slots
    cases hslots : h.objects.find? o.index with
    | none => rfl
    | some slots =>
      rw [Option.bind_eq_none_iff]
      intro s hs
      have hmem : slots ∈ h.objects.entries.toList := Array.mem_toList_iff.mpr
        (Array.mem_of_getElem? hslots)
      exact cell?_eq_none_of_isPlain (hplain slots hmem _ (Entries.mem_of_find? hs))
  rw [subscribers, hcell]
  rfl

/-- Where nobody is subscribed, everybody who is subscribed is settled and enlisted. -/
theorem enlisted_of_subscribers_eq_nil {w : World κ σ} (h : ∀ o key, w.heap.subscribers o key = [])
    (kit : Kit κ) :
    w.Enlisted kit (fun n => (w.document.node n).listeners = []) ∧ w.Settled := by
  have hnobody : ∀ {o key i}, i ∉ w.heap.subscribers o key := by
    intro o key i
    rw [h]
    exact List.not_mem_nil
  refine ⟨⟨fun hi => absurd hi hnobody, fun hn entry hentry => ?_⟩, ?_⟩
  · rw [hn] at hentry
    cases hentry
  · exact fun i x c _ hc hi => absurd (Heap.mem_subscribers.mpr ⟨c, hc, hi⟩) hnobody

/-- **Released data goes silent.** An app is mounted where nobody is subscribed, events happen while
it holds its data, and then it is dropped, and everything else from outside that leads to the data.
Hooks only read and record, and user code makes no watchers and listeners. Then the data is gone,
and every signal at a node without listeners of its own runs no code, not even at depth zero where
none could be run; it changes nothing but the form value that is entered, and is answered `ok` or
with the first method that is missing. -/
theorem silent_of_dropped {host : Host κ σ} {depth : Nat} {place : Mount} {hook : Hook κ}
    {kit : Kit κ} {app : App κ} {deeds : List (Deed κ)} {answers : List (Except ViewError Unit)}
    {w₀ w₁ w₂ : World κ σ} {user : σ} (hcurrent : w₀.current = none)
    (hsubscribers : ∀ o key, w₀.heap.subscribers o key = [])
    (hmount : host.run depth (.request (.mount place hook kit)) w₀ = some (.ok app, w₁))
    (hhooks : host.Obeys (.orderly fun _ _ _ => true) depth (.request (.mount place hook kit)) w₀)
    (hdeeds : host.run depth
      (.holding [.object app.data] (.requestAll (deeds.map Deed.request))) w₁ = some (answers, w₂))
    (hcode : host.Obeys .unbinding depth
      (.holding [.object app.data] (.requestAll (deeds.map Deed.request))) w₁)
    (hdropped : World.Dropped { w₂ with user } host.handles app.data) :
    World.isAlive { w₂ with user } host.handles app.data = false ∧
    ∀ (signals : List Signal), (∀ s ∈ signals, (w₀.document.node s.node).listeners = []) →
      ∀ later, host.run later (.requestAll (signals.map Signal.request)) { w₂ with user } =
        some (signals.map (Signal.answer w₂.document),
          { w₂ with user, document := signals.foldl Signal.mark w₂.document }) := by
  obtain ⟨he₀, hs₀⟩ := enlisted_of_subscribers_eq_nil hsubscribers kit
  -- mounting runs no code but hooks
  have hmount' : mount (host.envUnder (.orderly fun _ _ _ => true) depth) place hook kit w₀ =
      some (.ok app, w₁) := by
    have hguarded := hmount
    rw [Host.run_eq_runUnder hhooks] at hguarded
    obtain ⟨_, _, hget, hguarded⟩ := Run.bind_eq_some.mp hguarded
    obtain ⟨rfl, rfl⟩ := Run.get_eq_some.mp hget
    exact hguarded
  rw [(mount_root hmount').2] at hdropped ⊢
  obtain ⟨hcur₁, he₁⟩ :=
    mount_enlists (host.envUnder_hooksRead _ depth) place hook hmount' hcurrent he₀
  have hs₁ := run_settles hmount hhooks (.nobody hcurrent)
  obtain ⟨hcur₂, he₂⟩ := run_enlists hdeeds hcode hcur₁ he₁
  have hs₂ := run_settles hdeeds hcode (.nobody hcur₁)
  have hsettled : w₂.Settled :=
    settledBut_false.mp (hs₂.settled _ (fun _ _ _ => id)
      (hs₁.settled _ (fun _ _ _ => id) (settledBut_false.mpr hs₀)))
  have hdead := isAlive_eq_false_of_dropped (w := { w₂ with user }) hdropped
    ⟨he₂.homed, he₂.bound⟩ hsettled
  exact ⟨hdead, fun signals hsilent later =>
    Signal.requestAll_eq_of_dead host later hdead fun s hs => he₂.bound (hsilent s hs)⟩

namespace Counter

/-- A method that writes a text, and a hook that does nothing. -/
def host : Host Bool Unit where
  body
    | true, .called data _ =>
      .andThen (.request (.write data "n" (.text "counted"))) fun _ => .done (.ok ())
    | _, _ => .done (.ok ())
  handles _ := []

def control : Content := .element "input" { entries := [("v-model", "n")] } ""

def button (method : String) : Content := .element "button" { entries := [("@click", method)] } ""

/-- A text, a form control and two buttons, of which one has no method. -/
def world : World Bool Unit where
  heap := { objects := ⟨#[{ entries := [("n", .plain (.text "none"))] }]⟩ }
  document := ⟨#[{ content := .element "div" ∅ "", children := [⟨1⟩, ⟨2⟩, ⟨3⟩, ⟨4⟩] },
    { content := .text "{{ n }}" }, { content := control }, { content := button "count" },
    { content := button "missing" }]⟩
  user := ()

def counterKit : Kit Bool := { data := ⟨0⟩, methods := { entries := [("count", true)] } }

def page : Tree :=
  .node ⟨0⟩ (.element "div" ∅ "") 0 [.node ⟨1⟩ (.text "{{ n }}") 0 [], .node ⟨2⟩ control 0 [],
    .node ⟨3⟩ (button "count") 0 [], .node ⟨4⟩ (button "missing") 0 []]

def mounting : Program Bool Unit (Except ViewError (App Bool)) :=
  .request (.mount (.node ⟨0⟩) (.custom false) counterKit)

/-- The page has been mounted. -/
def started : World Bool Unit := world.mounted (.custom false) counterKit page

def app : App Bool where
  root := ⟨0⟩
  data := ⟨0⟩
  keys := ["n"]
  methods := counterKit.methods

theorem host_passive : host.Passive := by
  intro code occasion ho
  cases code with
  | false => trivial
  | true =>
    cases occasion with
    | called o event => cases ho
    | _ => trivial

theorem mount_page {env : Env Bool Unit} (hr : ∀ hook, env.Records hook) (hdepth : 2 ≤ env.depth) :
    mount env (.node ⟨0⟩) (.custom false) counterKit world = some (.ok app, started) := by
  have htree : page.Of world.document :=
    ⟨by decide, rfl, rfl, ⟨by decide, rfl, rfl, trivial⟩, ⟨by decide, rfl, rfl, trivial⟩,
      ⟨by decide, rfl, rfl, trivial⟩, ⟨by decide, rfl, rfl, trivial⟩, trivial⟩
  have hplain : (Plan.ofRoot counterKit.dialect page).Plain counterKit
      (world.heap.intercept (.custom false) [.object counterKit.data]) := by
    have hwires : (Plan.ofRoot counterKit.dialect page).wires =
        [.bind ⟨1⟩ .text "{{ n }}", .bind ⟨2⟩ .model "n", .bind ⟨3⟩ (.on "click") "count",
          .bind ⟨4⟩ (.on "click") "missing"] := by
      decide +kernel
    intro n e hmem
    rw [hwires] at hmem
    simp at hmem
  have hresult : (Plan.ofRoot counterKit.dialect page).result = .ok () := by decide +kernel
  have hkeys : (started.heap.slots ⟨0⟩).keys = ["n"] := by decide +kernel
  have hplace : Mount.resolve world.document (.node ⟨0⟩) = .ok page.id := rfl
  obtain ⟨⟨⟩, hmount⟩ := mount_eq (.custom false) hr hplace htree (by decide)
    (Nat.le_trans (by decide) hdepth) hplain
  rw [hresult] at hmount
  refine hmount.trans ?_
  rw [← started, app, ← hkeys]
  rfl

/-- What happens while the app is there. -/
def session : Program Bool Unit (List (Except ViewError Unit)) :=
  .holding [.object app.data] (.requestAll (List.map Deed.request
    [.set app "n" (.text "one"), .input ⟨2⟩ "two", .dispatch ⟨3⟩ { name := "click" }]))

def signals : List Signal :=
  [.input ⟨2⟩ "late", .event ⟨3⟩ { name := "click" }, .event ⟨4⟩ { name := "click" }]

end Counter

open Counter in
/-- The store of the counter is dropped, and its buttons and its form control are used once
more. -/
theorem silent_of_dropped_counter : ∃ w₂ : World Bool Unit,
    host.run 3 mounting world = some (.ok app, started) ∧
    host.run 3 session started = some ([.ok (), .ok (), .ok ()], w₂) ∧
    w₂.isAlive host.handles app.data = false ∧
    host.run 0 (.requestAll (signals.map Signal.request)) w₂ =
      some ([.ok (), .ok (), .error (.unknownMethod "missing")],
        { w₂ with document := w₂.document.setValue ⟨2⟩ "late" }) := by
  have hmount : host.run 3 mounting world = some (.ok app, started) :=
    mount_page (host_passive.records 2) (by decide)
  have hhooks : host.Obeys (.orderly fun _ _ _ => true) 3 mounting world :=
    Option.isSome_iff_exists.mpr ⟨_, mount_page (host_passive.records_under _ 2) (by decide)⟩
  have hcode : host.Obeys .unbinding 3 session started := by
    unfold Host.Obeys
    decide +kernel
  have hends : (host.run 3 session started).any (fun s =>
      decide (s.1 = [.ok (), .ok (), .ok ()]) && decide (s.2.roots host.handles = []) &&
      decide (∀ i < s.2.heap.objects.size, ∀ field ∈ s.2.heap.fields ⟨i⟩,
        ∀ q ∈ field.2.objects, q.index < i) &&
      decide (signals.map (Signal.answer s.2.document) =
        [.ok (), .ok (), .error (.unknownMethod "missing")])) = true := by
    decide +kernel
  simp only [Option.any_eq_true, Bool.and_eq_true, decide_eq_true_eq] at hends
  obtain ⟨⟨_, w₂⟩, hdeeds, ⟨⟨rfl, hroots⟩, hdown⟩, hsignals⟩ := hends
  have hdropped : World.Dropped { w₂ with user := () } host.handles app.data := by
    refine ⟨fun i hi => ?_, fun p _ hp => ?_, fun p _ => Heap.acyclic_of_descending hdown p⟩
    · rw [hroots] at hi
      cases hi
    · rw [hroots] at hp
      cases hp
  have hcurrent : world.current = none := rfl
  obtain ⟨hdead, hsilent⟩ := silent_of_dropped hcurrent
    (Heap.subscribers_eq_nil_of_plain (by decide)) hmount hhooks hdeeds hcode hdropped
  refine ⟨w₂, hmount, hdeeds, hdead, ?_⟩
  rw [hsilent signals (by decide) 0, hsignals]
  rfl

/-! ## A hook that writes -/

namespace Leaking

/-- A hook that holds no data, but finds some through an object that it is told of: it overwrites
the field that is being read. -/
def host : Host Unit Unit where
  body
    | (), .reading key (.object o) =>
      .andThen (.ask (.peek o "back")) fun
        | .object data => .andThen (.request (.write data key (.bool true))) fun _ => .done (.ok ())
        | _ => .done (.ok ())
    | _, _ => .done (.ok ())
  handles _ := []

/-- Data with an object that leads back to it, and a text to show it. -/
def world : World Unit Unit where
  heap :=
    { objects := ⟨#[{ entries := [("k", .plain (.object ⟨1⟩))] },
        { entries := [("back", .plain (.object ⟨0⟩))] }]⟩ }
  document := ⟨#[{ content := .element "div" ∅ "", children := [⟨1⟩] },
    { content := .text "{{ k }}" }]⟩
  user := ()

def mounting : Program Unit Unit (Except ViewError (App Unit)) :=
  .request (.mount (.node ⟨0⟩) (.custom ()) { data := ⟨0⟩ })

def app : App Unit where
  root := ⟨0⟩
  data := ⟨0⟩
  keys := ["k"]
  methods := ∅

/-- The world in which the text is compiled. -/
def opened : World Unit Unit :=
  { world with
    heap := world.heap.intercept (.custom ()) [.object ⟨0⟩]
    document := world.document.detachChildren ⟨0⟩
    held := [.object ⟨0⟩] }

/-- The world after that, with the text in its place. -/
def closed (w : World Unit Unit) : World Unit Unit :=
  { w with document := w.document.appendChildren ⟨0⟩ [⟨1⟩], held := [] }

/-- Mounting comes down to compiling the text. -/
theorem mount_text {w : World Unit Unit} (hkeys : (w.heap.slots ⟨0⟩).keys = ["k"])
    (hcompile : compileNode (host.env 3) { data := ⟨0⟩ } ⟨1⟩ opened = some (.ok (), w))
    (hleaf : w.document.children ⟨1⟩ = []) :
    host.run 3 mounting world = some (.ok app, closed w) := by
  have hnodes : compileNodes (host.env 3) { data := ⟨0⟩ } 3 [⟨1⟩] opened = some (.ok (), w) := by
    rw [compileNodes]
    refine Run.bind_eq_some.mpr ⟨.ok (), w, hcompile, ?_⟩
    dsimp only
    rw [Run.get_bind, hleaf, compileNodes]
    refine Run.bind_eq_some.mpr ⟨.ok (), w, Run.pure_eq_some.mpr ⟨rfl, rfl⟩, ?_⟩
    dsimp only
    rw [compileNodes]
    exact Run.pure_eq_some.mpr ⟨rfl, rfl⟩
  have hroot : compile (host.env 3) { data := ⟨0⟩ } ⟨0⟩
      (world.mapHeap fun h => h.intercept (.custom ()) [.object ⟨0⟩]) =
      some (.ok (), closed w) := by
    refine Run.bind_eq_some.mpr ⟨_, _, Run.get_eq_some.mpr ⟨rfl, rfl⟩, ?_⟩
    refine Run.bind_eq_some.mpr ⟨(), _, Run.modify_eq_some.mpr rfl, ?_⟩
    refine Run.bind_eq_some.mpr ⟨_, _, Run.holding_eq_some.mpr ⟨w, hnodes, rfl⟩, ?_⟩
    refine Run.bind_eq_some.mpr ⟨(), _, Run.modify_eq_some.mpr rfl, ?_⟩
    exact Run.pure_eq_some.mpr ⟨rfl, rfl⟩
  refine Run.bind_eq_some.mpr ⟨_, _, Run.get_eq_some.mpr ⟨rfl, rfl⟩, ?_⟩
  refine Run.bind_eq_some.mpr ⟨(), _, Run.modify_eq_some.mpr rfl, ?_⟩
  refine Run.bind_eq_some.mpr ⟨_, _, hroot, ?_⟩
  refine Run.bind_eq_some.mpr ⟨_, _, Run.get_eq_some.mpr ⟨rfl, rfl⟩, ?_⟩
  refine Run.pure_eq_some.mpr ⟨?_, rfl⟩
  rw [app, ← hkeys]
  rfl

end Leaking

open Leaking in
/-- While the watcher of the text was being built, the hook put another value into the field. The
watcher still notes the object that was read, which leads back to the data: the data holds its
watcher, the watcher the object, and the object the data. So it stays, though it is dropped, and in
no circle of fields. -/
theorem alive_of_dropped_leaking : ∃ w : World Unit Unit,
    world.current = none ∧ (∀ o key, world.heap.subscribers o key = []) ∧
    (∀ n, (world.document.node n).listeners = []) ∧
    host.run 3 mounting world = some (.ok app, w) ∧
    w.Dropped host.handles app.data ∧
    (w.heap.fields app.data).map (fun field => (field.1, field.2.objects)) = [("k", [])] ∧
    w.isAlive host.handles app.data = true := by
  have hends : (compileNode (host.env 3) { data := ⟨0⟩ } ⟨1⟩ opened).any (fun r =>
      decide (r.1 = .ok ()) && decide ((r.2.heap.slots ⟨0⟩).keys = ["k"]) &&
      decide (r.2.document.children ⟨1⟩ = []) &&
      decide ((closed r.2).roots host.handles = []) &&
      decide (∀ i < r.2.heap.objects.size, ∀ field ∈ r.2.heap.fields ⟨i⟩,
        ∀ q ∈ field.2.objects, q.index < i) &&
      decide ((r.2.heap.fields app.data).map (fun field => (field.1, field.2.objects)) =
        [("k", [])]) &&
      (closed r.2).isAlive host.handles app.data) = true := by
    decide +kernel
  simp only [Option.any_eq_true, Bool.and_eq_true, decide_eq_true_eq] at hends
  obtain ⟨⟨_, w⟩, hcompile, ⟨⟨⟨⟨⟨rfl, hkeys⟩, hleaf⟩, hroots⟩, hdown⟩, hfields⟩, halive⟩ := hends
  have hlisteners : ∀ n : NodeId, (world.document.node n).listeners = []
    | ⟨0⟩ => rfl
    | ⟨1⟩ => rfl
    | ⟨_ + 2⟩ => rfl
  refine ⟨closed w, rfl, Heap.subscribers_eq_nil_of_plain (by decide), hlisteners,
    mount_text hkeys hcompile hleaf, ⟨fun i hi => ?_, fun p _ hp => ?_, fun p _ => ?_⟩, hfields,
    halive⟩
  · rw [hroots] at hi
    cases hi
  · rw [hroots] at hp
    cases hp
  · exact Heap.acyclic_of_descending hdown p

end DataBinding
