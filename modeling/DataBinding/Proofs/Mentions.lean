import DataBinding.Proofs.BindingOrder
import DataBinding.Proofs.Conversion
import DataBinding.Proofs.Mounting

/-!
# Compiling subscribes what a page mentions

A page mentions a key wherever a binding that it asks for follows that key: once for a model or a
bare key, and once for each marker of a template. A binding reads its keys several times, for the
first value, for the watcher and for the first rendering, but nobody is collecting except the
watcher while it is built. So compiling builds one watcher for each mention, numbered in document
order, and each of them stands once in the list of its key, after all that were there before. From
then on lists only grow at their ends: a write at any later time updates the watchers of a key in
the order in which the page mentions it.
-/

namespace DataBinding

variable {κ σ : Type}

/-! ## What a page mentions -/

namespace Item

/-- The keys that an item mentions, each with what is to be done about it. -/
def mentions (kit : Kit κ) : Item → List (String × Reaction κ)
  | .ok b => Fitting.watches ⟨b, kit⟩
  | .error _ => []

/-- The listeners that an item asks for at a node. -/
def listeners (kit : Kit κ) (n : NodeId) : Item → List (String × Listener κ)
  | .ok b => if b.node = n then b.directive.listeners kit b.expression else []
  | .error _ => []

/-- Without an error, all items are bindings that are made. -/
theorem map_ok_beforeError {items : List Item} (h : outcome items = .ok ()) :
    (beforeError items).map .ok = items := by
  induction items with
  | nil => rfl
  | cons item rest ih =>
    cases item with
    | error e => cases h
    | ok b => exact congrArg (.ok b :: ·) (ih h)

end Item

namespace Tree

/-- What a page mentions below its root, in document order. -/
def mentions (kit : Kit κ) (t : Tree) : List (String × Reaction κ) :=
  (Item.ofRoot kit.dialect t).flatMap (Item.mentions kit)

/-- The listeners that a page asks for at a node, in the order of its attributes. -/
def listenersAt (kit : Kit κ) (t : Tree) (n : NodeId) : List (String × Listener κ) :=
  (Item.ofRoot kit.dialect t).flatMap (Item.listeners kit n)

end Tree

/-- Without an error, what is collected along a plan can be collected along the items. -/
theorem Plan.Makes.flatMap_eq {α : Type} {p : Plan} {items : List Item} (hmakes : p.Makes items)
    (hok : Item.outcome items = .ok ()) {f : Wire → List α} {g : Item → List α}
    (hbind : ∀ n directive expression,
      f (.bind n directive expression) = g (.ok ⟨n, directive, expression⟩))
    (hshown : ∀ n expression, f (.shown n expression) = []) :
    p.wires.flatMap f = items.flatMap g := by
  have hwires : p.wires.flatMap f =
      (p.wires.filterMap Wire.binding?).flatMap fun b => g (.ok b) := by
    induction p.wires with
    | nil => rfl
    | cons wire rest ih =>
      rw [List.flatMap_cons, ih]
      cases wire with
      | shown n expression =>
        rw [hshown]
        rfl
      | bind n directive expression =>
        rw [hbind]
        rfl
  rw [hwires, hmakes.bindings, ← Item.map_ok_beforeError hok, List.flatMap_map,
    Item.map_ok_beforeError hok]

/-! ## One watcher for each mention -/

namespace World

theorem length_newcomers (key : String) (first : Nat) (watches : List (String × Reaction κ)) :
    (newcomers key first watches).length = (watches.map Prod.fst).count key := by
  induction watches generalizing first with
  | nil => rfl
  | cons watch rest ih =>
    rw [newcomers, List.map_cons, List.count_cons, ← ih (first + 1)]
    by_cases hkey : watch.1 = key <;> simp [hkey]

/-- One world is the other after watchers have been built for mentions of keys of an object, one for
each mention and in order. They are numbered on from those that are there, know the values that the
keys have, and stand at the end of the lists of their keys. A key that is not reactive has no
list. -/
structure Attends (o : ObjectId) (mentions : List (String × Reaction κ)) (w w' : World κ σ) :
    Prop where
  size : w'.watchers.size = w.watchers.size + mentions.length
  watcher : ∀ i, w'.watcher? i =
    if i.index < w.watchers.size then w.watcher? i
    else mentions[i.index - w.watchers.size]?.map fun mention =>
      { key := mention.1, data := o, last := w.heap.peek o mention.1, reaction := mention.2 }
  listed : ∀ key, w.heap.isReactive o key = true →
    w'.heap.subscribers o key =
      w.heap.subscribers o key ++ newcomers key w.watchers.size mentions
  others : ∀ p key, ¬ (p = o ∧ w.heap.isReactive o key = true) →
    w'.heap.subscribers p key = w.heap.subscribers p key

variable {w : World κ σ}

theorem attends_watchingAll (o : ObjectId) (mentions : List (String × Reaction κ)) :
    w.Attends o mentions (w.watchingAll o mentions) where
  size := w.size_watchingAll o mentions
  watcher i := watcher?_watchingAll o w mentions i
  listed key hreactive := by
    rw [subscribers_watchingAll, if_pos ⟨rfl, hreactive⟩]
  others p key hother := by
    rw [subscribers_watchingAll, if_neg, List.append_nil]
    rintro ⟨rfl, hreactive⟩
    exact hother ⟨rfl, hreactive⟩

end World

/-- What compiling comes to while nobody is collecting: the watchers and listeners that the page
asks for, if it is without an error. -/
theorem compile_attends {env : Env κ σ} (kit : Kit κ) {t : Tree} {w : World κ σ}
    (ht : t.Of w.document) (hnodup : t.ids.Nodup) (hdepth : t.height ≤ env.depth)
    (hr : w.RecordedBy env kit.data) (hcur : w.current = none)
    (hplain : ∀ b, .ok b ∈ Item.ofRoot kit.dialect t → b.directive = .text →
      (w.document.content b.node).isElement = true →
        Template.detect (kit.textFor w.heap b.expression) kit.dialect = false) : ∃ w₁,
    compile env kit t.id w = some (Item.outcome (Item.ofRoot kit.dialect t), w₁) ∧
      (Item.outcome (Item.ofRoot kit.dialect t) = .ok () →
        w.Attends kit.data (t.mentions kit) w₁ ∧
        ∀ n, (w₁.document.node n).listeners =
          (w.document.node n).listeners ++ t.listenersAt kit n) := by
  have hmakes := Plan.makes_ofRoot kit.dialect t
  obtain ⟨user, hrun⟩ := compile_eq kit hr ht hnodup hdepth (Plan.plain_ofRoot ht hplain)
  obtain ⟨w₁, hrun', hfollows⟩ := compile_follows kit hr ht hnodup hdepth
  obtain rfl := (Prod.mk.inj (Option.some.inj (hrun.symm.trans hrun'))).2
  rw [hmakes.result] at hrun
  refine ⟨_, hrun, fun hok => ⟨?_, fun n => ?_⟩⟩
  · have hmentions : (Plan.ofRoot kit.dialect t).wires.flatMap (Wire.watches kit) =
        t.mentions kit :=
      hmakes.flatMap_eq hok (fun _ _ _ => rfl) fun _ _ => rfl
    rw [World.following_of_current_eq_none hcur, hmentions]
    obtain ⟨hsize, hwatcher, hlisted, hothers⟩ := w.attends_watchingAll kit.data (t.mentions kit)
    exact ⟨hsize, hwatcher, hlisted, hothers⟩
  · have hlisteners : (Plan.ofRoot kit.dialect t).wires.flatMap (Wire.listeners kit n) =
        t.listenersAt kit n :=
      hmakes.flatMap_eq hok (fun _ _ _ => rfl) fun _ _ => rfl
    rw [← hlisteners]
    exact hfollows.listeners n

/-! ## Writes later on -/

/-- A field with a passive hook stays one: whenever it is written, its subscribers are updated in
the order of their list. -/
theorem World.LastsIn.write_eq {host : Host κ σ} {w w₂ : World κ σ} {o : ObjectId} {key : String}
    {v : Value} (hlasts : w.LastsIn w₂) (hpassive : w.PassiveAt host o)
    (hreactive : w.heap.isReactive o key = true)
    (hne : (w₂.heap.peek o key).strictEq v = false) (depth : Nat) : ∃ h' user,
    h'.peek o key = v ∧
      host.run (depth + 1) (.request (.write o key v)) w₂ =
        Run.holding [.object o]
          (updateAll (host.env (depth + 1)) (w₂.heap.subscribers o key))
          { w₂ with heap := h', user } := by
  obtain ⟨c, hc⟩ := Option.isSome_iff_exists.mp hreactive
  obtain ⟨c₂, hc₂, hhook⟩ := hlasts.heap.field hc
  have hpassive₂ : c₂.hook.IsPassive host := hhook ▸ hpassive key c hc
  obtain ⟨user, htell⟩ := hpassive₂.tell depth
    (show (Occasion.writing key v).isAccess = true from rfl)
    { w₂.mapHeap fun h => h.intercept c₂.hook [v] with
      held := .object o :: v.handles ++ w₂.held }
  rw [Heap.peek_of_cell? hc₂] at hne
  refine ⟨(w₂.heap.intercept c₂.hook [v]).store o key v, user, ?_, ?_⟩
  · exact (Heap.peek_store (Heap.cell?_intercept_of_some hc₂) v o key).trans (if_pos ⟨rfl, rfl⟩)
  · rw [Heap.subscribers_of_cell? hc₂]
    exact write_eq_notifying hc₂ hne htell

/-- **Compiling subscribes what the page mentions.** Compiling comes to an end, and succeeds if
nothing that the page asks for is in error. Then a watcher has been built for each mention of a key
below the root, in document order, with what is below a text directive left out. The list of a
reactive key goes on with the watchers of its mentions, no other list changes, and each node has its
listeners, in the order of its attributes. Whatever is run afterwards, a write of another value
updates the watchers of the key in that order, after those that were there and before those that
came later. -/
theorem compile_subscribes_mentions {host : Host κ σ} {depth : Nat} (kit : Kit κ) {t : Tree}
    {w : World κ σ} (ht : t.Of w.document) (hnodup : t.ids.Nodup) (hdepth : t.height ≤ depth + 1)
    (hpassive : w.PassiveAt host kit.data) (hcur : w.current = none)
    (hplain : ∀ b, .ok b ∈ Item.ofRoot kit.dialect t → b.directive = .text →
      (w.document.content b.node).isElement = true →
        Template.detect (kit.textFor w.heap b.expression) kit.dialect = false) :
    ∃ result w₁,
      host.run (depth + 1) (.request (.compile kit t.id)) w = some (result, w₁) ∧
      (result = .ok () ↔ ∀ item ∈ Item.ofRoot kit.dialect t, ∃ b, item = .ok b) ∧
      (result = .ok () →
        w.Attends kit.data (t.mentions kit) w₁ ∧
        (∀ n, (w₁.document.node n).listeners =
          (w.document.node n).listeners ++ t.listenersAt kit n) ∧
        ∀ key, w.heap.isReactive kit.data key = true →
          (Query.subscriberCount kit.data key).answer host.handles w₁ =
              (Query.subscriberCount kit.data key).answer host.handles w +
                ((t.mentions kit).map Prod.fst).count key ∧
          ∀ {α : Type} (p : Program κ σ α) (a : α) (depth₂ : Nat) (w₂ : World κ σ),
            host.run depth₂ p w₁ = some (a, w₂) →
              ∃ late, ∀ v, (w₂.heap.peek kit.data key).strictEq v = false → ∀ depth₃,
                ∃ h' user, h'.peek kit.data key = v ∧
                  host.run (depth₃ + 1) (.request (.write kit.data key v)) w₂ =
                    Run.holding [.object kit.data]
                      (updateAll (host.env (depth₃ + 1))
                        (w.heap.subscribers kit.data key ++
                          World.newcomers key w.watchers.size (t.mentions kit) ++ late))
                      { w₂ with heap := h', user }) := by
  obtain ⟨w₁, hrun, hattends⟩ := compile_attends kit ht hnodup hdepth
    (hpassive.recordedBy depth) hcur hplain
  refine ⟨_, w₁, hrun, Item.outcome_eq_ok, fun hok => ?_⟩
  obtain ⟨hattends, hlisteners⟩ := hattends hok
  refine ⟨hattends, hlisteners, fun key hreactive => ⟨?_, fun {α} p a depth₂ w₂ hrun₂ => ?_⟩⟩
  · show (w₁.heap.subscribers kit.data key).length = _
    rw [hattends.listed key hreactive, List.length_append, World.length_newcomers]
    rfl
  · have hcompile : host.run (depth + 1) (.request (.compile kit t.id)) w =
        some (Item.outcome (Item.ofRoot kit.dialect t), w₁) := hrun
    have hlasts₁ : w.LastsIn w₁ := (Host.returns_of_run hcompile).lasts
    have hlasts₂ : w₁.LastsIn w₂ := (Host.returns_of_run hrun₂).lasts
    obtain ⟨late, hlate⟩ := hlasts₂.heap.subscribers kit.data key
    refine ⟨late, fun v hne depth₃ => ?_⟩
    rw [← hattends.listed key hreactive, hlate]
    exact (hlasts₁.trans hlasts₂).write_eq hpassive hreactive hne depth₃

/-! A page with every kind of mention, where the key is watched already and another field is plain.
The one mention of the third field is in a text below a text directive. -/

namespace Bulletin

def host : Host Unit Unit where
  body _ _ := .done (.ok ())
  handles _ := []

def kit : Kit Unit := { data := ⟨0⟩ }

def field : Content :=
  .element "input" { entries := [("v-model", " k "), ("type", "text"), ("@change", "save")] } ""

def source : String := "{{ k }}, {{ other }} and {{ k }}"

def shown : Content := .element "p" { entries := [("v-text", "k ")] } ""

def page : Tree :=
  .node ⟨0⟩ (.element "div" ∅ "") 0
    [.node ⟨1⟩ field 0 [], .node ⟨2⟩ (.text source) 0 [],
      .node ⟨3⟩ shown 0 [.node ⟨4⟩ (.text "{{ free }}") 0 []]]

def fields : Slots Unit where
  entries := [("k", .reactive { value := .text "plain", subscribers := [⟨0⟩], hook := .silent }),
    ("other", .plain .null), ("free", .reactive { value := .null, hook := .silent })]

def world : World Unit Unit where
  heap := { objects := ⟨#[fields]⟩ }
  watchers := ⟨#[{ key := "k", data := ⟨0⟩, last := .text "plain", reaction := .custom () }]⟩
  document := ⟨#[{ content := .element "div" ∅ "", children := [⟨1⟩, ⟨2⟩, ⟨3⟩] },
    { content := field }, { content := .text source }, { content := shown, children := [⟨4⟩] },
    { content := .text "{{ free }}" }]⟩
  user := ()

theorem page_of : page.Of world.document :=
  ⟨by decide, rfl, rfl, ⟨by decide, rfl, rfl, trivial⟩, ⟨by decide, rfl, rfl, trivial⟩,
    ⟨by decide, rfl, rfl, ⟨by decide, rfl, rfl, trivial⟩, trivial⟩, trivial⟩

theorem passiveAt_world : world.PassiveAt host ⟨0⟩ := by
  have hpassive : host.Passive := fun _ _ _ => trivial
  exact fun _ c _ => hpassive.isPassive c.hook

theorem items_page : Item.ofRoot kit.dialect page =
    [.ok ⟨⟨1⟩, .model, " k "⟩, .ok ⟨⟨1⟩, .on "change", "save"⟩, .ok ⟨⟨2⟩, .text, source⟩,
      .ok ⟨⟨3⟩, .text, "k "⟩] := by
  decide +kernel

theorem plain_page : ∀ b, .ok b ∈ Item.ofRoot kit.dialect page → b.directive = .text →
    (world.document.content b.node).isElement = true →
      Template.detect (kit.textFor world.heap b.expression) kit.dialect = false := by
  rw [items_page]
  intro b hb htext helement
  simp only [List.mem_cons, Except.ok.injEq, List.not_mem_nil, or_false] at hb
  rcases hb with rfl | rfl | rfl | rfl
  · cases htext
  · cases htext
  · cases helement
  · decide +kernel

theorem mentions_page : page.mentions kit =
    [("k", .setValue ⟨1⟩), ("k", .render ⟨2⟩ (.parse source .standard)),
      ("other", .render ⟨2⟩ (.parse source .standard)),
      ("k", .render ⟨2⟩ (.parse source .standard)), ("k", .setText ⟨3⟩)] := by
  decide +kernel

end Bulletin

open Bulletin in
theorem compile_subscribes_mentions_bulletin : ∃ w₁,
    host.run 3 (.request (.compile kit page.id)) world = some (.ok (), w₁) ∧
      w₁.heap.subscribers ⟨0⟩ "k" = [⟨0⟩, ⟨1⟩, ⟨2⟩, ⟨4⟩, ⟨5⟩] ∧
      (w₁.document.node ⟨1⟩).listeners =
        [("input", .writeBack ⟨0⟩ "k"), ("change", .callMethod ⟨0⟩ "save" none)] := by
  obtain ⟨result, w₁, hrun, hsucceeds, hresult⟩ := compile_subscribes_mentions kit page_of
    (by decide) (show page.height ≤ 2 + 1 by decide) passiveAt_world rfl plain_page
  obtain rfl : result = .ok () := hsucceeds.mpr (by simp [items_page])
  obtain ⟨hattends, hlisteners, _⟩ := hresult rfl
  have hasked : page.listenersAt kit ⟨1⟩ =
      [("input", .writeBack ⟨0⟩ "k"), ("change", .callMethod ⟨0⟩ "save" none)] := by
    unfold Tree.listenersAt
    rw [items_page]
    rfl
  rw [mentions_page] at hattends
  refine ⟨w₁, hrun, ?_, ?_⟩
  · exact (hattends.listed "k" (by decide +kernel)).trans (by decide +kernel)
  · rw [hlisteners, hasked]
    rfl

open Bulletin in
/-- What is mentioned below an element with a text directive does not count: with every node taken
by itself the field `free` is mentioned once, and nobody subscribes to it. -/
theorem covered_mention_not_subscribed :
    page.Of world.document ∧ page.ids.Nodup ∧ world.PassiveAt host kit.data ∧
      world.current = none ∧
      (∀ b, .ok b ∈ Item.ofRoot kit.dialect page → b.directive = .text →
        (world.document.content b.node).isElement = true →
          Template.detect (kit.textFor world.heap b.expression) kit.dialect = false) ∧
      world.heap.isReactive kit.data "free" = true ∧
      (((page.ids.flatMap fun n =>
        Item.ofTree kit.dialect (.node n (world.document.content n) 0 [])).flatMap
          (Item.mentions kit)).map Prod.fst).count "free" = 1 ∧
      ∃ w₁, host.run 3 (.request (.compile kit page.id)) world = some (.ok (), w₁) ∧
        w₁.heap.subscribers kit.data "free" = world.heap.subscribers kit.data "free" := by
  refine ⟨page_of, by decide, passiveAt_world, rfl, plain_page, by decide +kernel,
    by decide +kernel, ?_⟩
  have hok : Item.outcome (Item.ofRoot kit.dialect page) = .ok () := by
    rw [items_page]
    rfl
  obtain ⟨w₁, hrun, hattends⟩ := compile_attends kit page_of (by decide)
    (show page.height ≤ (host.env 3).depth by decide) (passiveAt_world.recordedBy 2) rfl plain_page
  obtain ⟨hattends, _⟩ := hattends hok
  rw [mentions_page] at hattends
  rw [hok] at hrun
  exact ⟨w₁, hrun, (hattends.listed "free" (by decide +kernel)).trans (by decide +kernel)⟩

end DataBinding
