import DataBinding.Proofs.Growth
import DataBinding.Proofs.Keys

/-!
# What bindings leave

Binding a node builds watchers that have seen what their keys have now, and shows it. A form control
gets a listener besides. None of this touches watchers that are there already, nor any value.
-/

namespace DataBinding

variable {κ σ : Type} {env : Env κ σ} {E : WatcherId → Prop}

open World

/-! ## Form controls -/

/-- The world after a form control is bound: there is a watcher that has seen what is shown, and a
listener. -/
def World.modelled (w : World κ σ) (n : NodeId) (o : ObjectId) (key : String)
    (places : List (ObjectId × String)) (user : σ) : World κ σ :=
  { w with
    watchers := w.watchers.push
      { key, data := o, last := w.heap.peek o key, reaction := .setValue n }
    heap := w.heap.subscribeAll (some ⟨w.watchers.size⟩) places
    document := (w.document.addListener n "input" (.writeBack o key)).setValue n
      (w.heap.text (w.heap.peek o key))
    user }

/-- Binding a form control reads its key, with whoever collects, and builds the watcher. -/
theorem Env.HooksRead.bindModel_reads (hq : env.HooksRead) {n : NodeId} {expression : String}
    {o : ObjectId} {w w' : World κ σ} {u : Unit}
    (h : bindModel env n expression o w = some (u, w')) :
    ∃ w₁ places user, w.Reads w₁ ∧ w' = w₁.modelled n o (Text.trim expression) places user := by
  obtain ⟨initial, w₁, hread, h⟩ := Run.bind_eq_some.mp h
  have hreads := hq.read_reads _ _ hread
  obtain ⟨rfl, _⟩ := hq.read_eq_some hread
  obtain ⟨_, w₂, hhold, h⟩ := Run.bind_eq_some.mp h
  obtain ⟨w₃, hdiscard, rfl⟩ := Run.holding_eq_some.mp hhold
  obtain ⟨i, hwatch⟩ := Run.discard_eq_some.mp hdiscard
  obtain ⟨rfl, places, user, rfl⟩ := hq.watch_eq_some hwatch
  obtain ⟨_, w₄, hlisten, h⟩ := Run.bind_eq_some.mp h
  obtain rfl := Run.modify_eq_some.mp hlisten
  obtain rfl := Run.modify_eq_some.mp h
  refine ⟨w₁, (o, Text.trim expression) :: places, user, hreads, ?_⟩
  obtain ⟨_, _, rfl⟩ := hreads
  simp only [World.modelled, World.showValue, World.mapDocument, Text.trim_trim,
    Heap.text_subscribeAll, Heap.peek_subscribeAll]

/-- While nobody collects, nothing else happens. -/
theorem Env.HooksRead.bindModel_eq_some (hq : env.HooksRead) {n : NodeId} {expression : String}
    {o : ObjectId} {w w' : World κ σ} {u : Unit} (hcur : w.current = none)
    (h : bindModel env n expression o w = some (u, w')) :
    ∃ places user, w' = w.modelled n o (Text.trim expression) places user := by
  obtain ⟨w₁, places, user, hreads, rfl⟩ := hq.bindModel_reads h
  obtain ⟨_, rfl⟩ := hreads.of_current_eq_none hcur
  exact ⟨places, user, rfl⟩

/-- Binding a form control keeps the world sound: the listener comes with the watcher. -/
theorem bindModel_advances (hq : env.HooksRead) {n : NodeId} {expression : String} {o : ObjectId}
    {w w' : World κ σ} {u : Unit} (hn : w.document.has n)
    (h : bindModel env n expression o w = some (u, w')) : w.AdvancesFrom E w' := by
  obtain ⟨w₁, places, user, hreads, rfl⟩ := hq.bindModel_reads h
  have hn₁ : w₁.document.has n := by
    obtain ⟨_, _, rfl⟩ := hreads
    exact hn
  refine carried_advancesFrom.trans _ _ _ (.of_reads hreads) (.of_tidy rfl rfl fun hs => ?_)
  have hlisten := Document.Evolves.addListener w₁.document n "input"
    (.writeBack o (Text.trim expression))
  have hshow := Document.Evolves.setValue
    (w₁.document.addListener n "input" (.writeBack o (Text.trim expression))) n
    (w₁.heap.text (w₁.heap.peek o (Text.trim expression)))
  refine tidy_watched hs rfl places user (hlisten.document.trans hshow.document)
    (hshow.closed (hlisten.closed hs.tidy.closed)) fun m hm => ?_
  obtain rfl := Reaction.setValue.inj hm
  exact (Document.Extends.setValue _ n _).listeners
    (Document.mem_listenersFor_addListener hn₁ "input" _)

/-! ## Texts -/

/-- Watchers of some kind have been built, and nothing else has happened but subscriptions. -/
structure World.Watches (w w' : World κ σ) (P : Watcher κ → Prop) : Prop where
  document : w'.document = w.document
  current : w'.current = w.current
  held : w'.held = w.held
  peek : ∀ o key, w'.heap.peek o key = w.heap.peek o key
  old : ∀ {i x}, w.watcher? i = some x → w'.watcher? i = some x
  new : ∀ {i x}, w'.watcher? i = some x →
    w.watcher? i = some x ∨ (P x ∧ x.last = w.heap.peek x.data x.key)

theorem World.Watches.refl (w : World κ σ) (P : Watcher κ → Prop) : w.Watches w P :=
  ⟨rfl, rfl, rfl, fun _ _ => rfl, id, .inl⟩

theorem World.Watches.trans {a b c : World κ σ} {P : Watcher κ → Prop} (hab : a.Watches b P)
    (hbc : b.Watches c P) : a.Watches c P := by
  refine ⟨hbc.document.trans hab.document, hbc.current.trans hab.current,
    hbc.held.trans hab.held, fun o key => (hbc.peek o key).trans (hab.peek o key),
    fun hx => hbc.old (hab.old hx), fun {i x} hx => ?_⟩
  rcases hbc.new hx with hx | ⟨hP, hlast⟩
  · exact hab.new hx
  · exact .inr ⟨hP, hlast.trans (hab.peek _ _)⟩

/-- Building a watcher. -/
theorem Env.HooksRead.watch_watches (hq : env.HooksRead) {expression : String} {o : ObjectId}
    {reaction : Reaction κ} {w w' : World κ σ} {i : WatcherId}
    (h : watch env expression o reaction w = some (i, w')) :
    w.Watches w' (fun x => x.data = o ∧ x.reaction = reaction) ∧
      w'.watcher? i = some
        { key := Text.trim expression, data := o,
          last := w.heap.peek o (Text.trim expression), reaction } := by
  obtain ⟨rfl, places, user, rfl⟩ := hq.watch_eq_some h
  have hpush := watcher?_push w
    { key := Text.trim expression, data := o,
      last := w.heap.peek o (Text.trim expression), reaction }
  refine ⟨⟨rfl, rfl, rfl, fun p key => Heap.peek_subscribeAll _ _ _ p key, ?_, ?_⟩, ?_⟩
  · intro j x hx
    exact watcher?_push_of_some hx _
  · intro j x hx
    have hx' := (hpush j).symm.trans hx
    split at hx'
    · obtain rfl := Option.some.inj hx'
      exact .inr ⟨⟨rfl, rfl⟩, rfl⟩
    · exact .inl hx'
  · exact (hpush _).trans (if_pos rfl)

/-- Building the watchers of a template: there is one for each marker afterwards. -/
theorem Env.HooksRead.watchMarkers_watches (hq : env.HooksRead) {n : NodeId} {t : Template}
    {o : ObjectId} {keys : List String} {w w' : World κ σ} {u : Unit}
    (h : watchMarkers env n t o keys w = some (u, w')) :
    w.Watches w' (fun x => x.data = o ∧ x.reaction = .render n t) ∧
      ∀ key ∈ keys, ∃ i, w'.watcher? i = some
        { key := Text.trim key, data := o,
          last := w.heap.peek o (Text.trim key), reaction := .render n t } := by
  induction keys generalizing w with
  | nil =>
    obtain ⟨rfl, rfl⟩ := Run.pure_eq_some.mp h
    exact ⟨.refl w _, fun key hkey => absurd hkey (by simp)⟩
  | cons key rest ih =>
    obtain ⟨i, w₁, h₁, h₂⟩ := Run.bind_eq_some.mp h
    obtain ⟨hfirst, hi⟩ := hq.watch_watches h₁
    obtain ⟨hrest, hevery⟩ := ih h₂
    refine ⟨hfirst.trans hrest, fun k hk => ?_⟩
    rcases List.mem_cons.mp hk with rfl | hk
    · exact ⟨i, hrest.old hi⟩
    · obtain ⟨j, hj⟩ := hevery k hk
      rw [hfirst.peek] at hj
      exact ⟨j, hj⟩

/-- Binding the text of a node to a template builds the watchers and renders, with whoever
collects. -/
theorem Env.HooksRead.bindText_reads (hq : env.HooksRead) {n : NodeId} {expression : String}
    {o : ObjectId} {d : Dialect} {w w' : World κ σ} {u : Unit}
    (hmarkers : (Template.parse expression d).hasMarkers = true)
    (h : bindText env n expression o d w = some (u, w')) :
    ∃ w₁ w₂, w.Watches w₁ (fun x => x.data = o ∧
        x.reaction = .render n (Template.parse expression d)) ∧
      (∀ key ∈ (Template.parse expression d).markers, ∃ i, w₁.watcher? i = some
        { key, data := o, last := w.heap.peek o key,
          reaction := .render n (Template.parse expression d) }) ∧
      w₁.Reads w₂ ∧
      w' = { w₂ with
        document := w₁.document.setText n
          ((Template.parse expression d).rendering w₁.heap o) } := by
  rw [bindText, if_pos hmarkers] at h
  obtain ⟨_, w₁, h₁, h⟩ := Run.bind_eq_some.mp h
  obtain ⟨hwatches, hevery⟩ := hq.watchMarkers_watches h₁
  obtain ⟨text, w₂, hrender, h⟩ := Run.bind_eq_some.mp h
  obtain ⟨rfl, hreads⟩ := hq.render_eq_some hrender
  refine ⟨w₁, w₂, hwatches, fun key hkey => ?_, hreads, ?_⟩
  · obtain ⟨i, hi⟩ := hevery key hkey
    rw [Template.trim_of_mem_markers hkey] at hi
    exact ⟨i, hi⟩
  · obtain ⟨_, _, rfl⟩ := hreads
    exact (Run.modify_eq_some.mp h).symm

/-- While nobody collects, the template is rendered without a trace. -/
theorem Env.HooksRead.bindText_template (hq : env.HooksRead) {n : NodeId} {expression : String}
    {o : ObjectId} {d : Dialect} {w w' : World κ σ} {u : Unit} (hcur : w.current = none)
    (hmarkers : (Template.parse expression d).hasMarkers = true)
    (h : bindText env n expression o d w = some (u, w')) :
    ∃ w₁ user, w.Watches w₁ (fun x => x.data = o ∧
        x.reaction = .render n (Template.parse expression d)) ∧
      (∀ key ∈ (Template.parse expression d).markers, ∃ i, w₁.watcher? i = some
        { key, data := o, last := w.heap.peek o key,
          reaction := .render n (Template.parse expression d) }) ∧
      w' = { w₁ with
        document := w₁.document.setText n ((Template.parse expression d).rendering w₁.heap o)
        user } := by
  obtain ⟨w₁, w₂, hwatches, hevery, hreads, rfl⟩ := hq.bindText_reads hmarkers h
  obtain ⟨user, rfl⟩ := hreads.of_current_eq_none (hwatches.current.trans hcur)
  exact ⟨w₁, user, hwatches, hevery, rfl⟩

/-- What binding the text of a node to a key leaves. -/
theorem Env.HooksRead.bindText_key (hq : env.HooksRead) {n : NodeId} {expression : String}
    {o : ObjectId} {d : Dialect} {w w' : World κ σ} {u : Unit}
    (hmarkers : (Template.parse expression d).hasMarkers = false)
    (h : bindText env n expression o d w = some (u, w')) :
    ∃ w₁ i, w.Watches w₁ (fun x => x.data = o ∧ x.reaction = .setText n) ∧
      w₁.watcher? i = some
        { key := Text.trim expression, data := o,
          last := w.heap.peek o (Text.trim expression), reaction := .setText n } ∧
      w' = w₁.showText n (w.heap.peek o (Text.trim expression)) := by
  rw [bindText, if_neg (by simp [hmarkers])] at h
  obtain ⟨i, w₁, h₁, h⟩ := Run.bind_eq_some.mp h
  obtain ⟨hwatches, hi⟩ := hq.watch_watches h₁
  obtain ⟨_, _, hget, h⟩ := Run.bind_eq_some.mp h
  obtain ⟨rfl, rfl⟩ := Run.get_eq_some.mp hget
  refine ⟨w₁, i, hwatches, hi, ?_⟩
  rw [← Run.modify_eq_some.mp h, hi]
  rfl

/-! ## All bindings -/

theorem bind_advances (hq : env.HooksRead) (n : NodeId) (d : Directive) (expression : String)
    (kit : Kit κ) {w w' : World κ σ} {u : Unit} (hn : w.document.has n)
    (h : d.bind env n expression kit w = some (u, w')) : w.AdvancesFrom E w' := by
  cases d with
  | model =>
    obtain ⟨w₁, h₁, rfl⟩ := Run.holding_eq_some.mp h
    have hn' : World.document { w with held := [.object kit.data] ++ w.held } |>.has n := hn
    exact carried_advancesFrom.hold (bindModel_advances hq hn' h₁)
  | text =>
    refine carried_advancesFrom.holding _ (carried_advancesFrom.bindText ?_ ?_ ?_ ?_ _ _) h
    · exact fun e t => watch_advances hq e _ fun m => by simp
    · exact fun e => watch_advances hq e _ fun m => by simp
    · exact fun t _ _ _ h => .of_reads (hq.render_eq_some h).2
    · exact fun w text => .setText w n text
  | on event =>
    obtain rfl := Run.modify_eq_some.mp h
    exact .mapDocument w (.addListener _ n event _)

end DataBinding
