import DataBinding.Proofs.Recording

/-!
# What a binding leaves behind

Under hooks that only record, a binding changes the world in a way that can be written down. It
builds watchers, each of which subscribes to its key and has seen the value there; a watcher that
was collecting before subscribes to what is read in order to be shown; and the document is marked.
The state of the user is the one thing that is left open.
-/

namespace DataBinding

variable {κ σ : Type}

namespace World

/-- The watcher that is collecting, if there is one, has read keys. -/
def readings (w : World κ σ) (o : ObjectId) (keys : List String) : World κ σ :=
  { w with heap := w.heap.subscribeAll w.current (keys.map fun key => (o, key)) }

/-- A watcher has been built: it is subscribed to its key and has seen the value there. -/
def watching (o : ObjectId) (w : World κ σ) (watch : String × Reaction κ) : World κ σ :=
  { w with
    watchers := w.watchers.push
      { key := watch.1, data := o, last := w.heap.peek o watch.1, reaction := watch.2 }
    heap := w.heap.subscribeAll (some ⟨w.watchers.size⟩) [(o, watch.1)] }

/-- Watchers have been built one after the other. -/
def watchingAll (w : World κ σ) (o : ObjectId) (watches : List (String × Reaction κ)) :
    World κ σ :=
  watches.foldl (watching o) w

/-- Reading leaves no trace if nobody is collecting. -/
theorem readings_of_current_eq_none {w : World κ σ} (hcur : w.current = none) (o : ObjectId)
    (keys : List String) : w.readings o keys = w := by
  obtain ⟨heap, watchers, document, current, held, user⟩ := w
  obtain rfl : current = none := hcur
  rfl

theorem watchingAll_append (w : World κ σ) (o : ObjectId)
    (watches watches' : List (String × Reaction κ)) :
    (w.watchingAll o watches).watchingAll o watches' = w.watchingAll o (watches ++ watches') :=
  List.foldl_append.symm

/-- What building a watcher commutes with, building several does. -/
theorem watchingAll_comm {o : ObjectId} {f : World κ σ → World κ σ}
    (hf : ∀ w watch, watching o (f w) watch = f (watching o w watch)) (w : World κ σ)
    (watches : List (String × Reaction κ)) :
    (f w).watchingAll o watches = f (w.watchingAll o watches) :=
  List.foldl_hom f hf

theorem watchingAll_user (w : World κ σ) (o : ObjectId) (watches : List (String × Reaction κ))
    (user : σ) :
    World.watchingAll { w with user } o watches = { w.watchingAll o watches with user } :=
  watchingAll_comm (f := fun w => { w with user }) (fun _ _ => rfl) w watches

theorem watchingAll_held (w : World κ σ) (o : ObjectId) (watches : List (String × Reaction κ))
    (held : List Handle) :
    World.watchingAll { w with held } o watches = { w.watchingAll o watches with held } :=
  watchingAll_comm (f := fun w => { w with held }) (fun _ _ => rfl) w watches

theorem watchingAll_document (w : World κ σ) (o : ObjectId) (watches : List (String × Reaction κ))
    (document : Document κ) :
    World.watchingAll { w with document } o watches =
      { w.watchingAll o watches with document } :=
  watchingAll_comm (f := fun w => { w with document }) (fun _ _ => rfl) w watches

/-- What a new watcher leaves as it was, several do. -/
theorem watchingAll_same {α : Type} {o : ObjectId} {f : World κ σ → α}
    (hf : ∀ w watch, f (watching o w watch) = f w) (w : World κ σ)
    (watches : List (String × Reaction κ)) : f (w.watchingAll o watches) = f w := by
  induction watches generalizing w with
  | nil => rfl
  | cons watch rest ih => exact (ih (watching o w watch)).trans (hf w watch)

@[simp] theorem current_watchingAll (w : World κ σ) (o : ObjectId)
    (watches : List (String × Reaction κ)) : (w.watchingAll o watches).current = w.current :=
  watchingAll_same (f := World.current) (fun _ _ => rfl) w watches

@[simp] theorem document_watchingAll (w : World κ σ) (o : ObjectId)
    (watches : List (String × Reaction κ)) : (w.watchingAll o watches).document = w.document :=
  watchingAll_same (f := World.document) (fun _ _ => rfl) w watches

@[simp] theorem held_watchingAll (w : World κ σ) (o : ObjectId)
    (watches : List (String × Reaction κ)) : (w.watchingAll o watches).held = w.held :=
  watchingAll_same (f := World.held) (fun _ _ => rfl) w watches

/-- New watchers change no value. -/
@[simp] theorem peek_watchingAll (w : World κ σ) (o : ObjectId)
    (watches : List (String × Reaction κ)) (p : ObjectId) (key : String) :
    (w.watchingAll o watches).heap.peek p key = w.heap.peek p key :=
  watchingAll_same (f := fun w => w.heap.peek p key)
    (fun _ _ => Heap.peek_subscribeAll _ _ _ p key) w watches

@[simp] theorem fields_watchingAll (w : World κ σ) (o : ObjectId)
    (watches : List (String × Reaction κ)) (p : ObjectId) :
    (w.watchingAll o watches).heap.fields p = w.heap.fields p :=
  watchingAll_same (f := fun w => w.heap.fields p)
    (fun _ _ => Heap.fields_subscribeAll _ _ _ p) w watches

/-- What values look like does not depend on who is subscribed. -/
theorem text_watchingAll (w : World κ σ) (o : ObjectId) (watches : List (String × Reaction κ))
    (v : Value) : (w.watchingAll o watches).heap.text v = w.heap.text v :=
  Heap.text_congr (fields_watchingAll w o watches) v

theorem rendering_watchingAll (w : World κ σ) (o : ObjectId)
    (watches : List (String × Reaction κ)) (t : Template) (p : ObjectId) :
    t.rendering (w.watchingAll o watches).heap p = t.rendering w.heap p := by
  refine Template.filled_congr fun key _ => ?_
  rw [text_watchingAll, peek_watchingAll]

end World

/-! ## Reading and watching -/

variable {env : Env κ σ} {o : ObjectId} {w : World κ σ}

/-- Hooks do not depend on who is subscribed. -/
theorem World.RecordedBy.subscribeAll (hr : w.RecordedBy env o) (current : Option WatcherId)
    (places : List (ObjectId × String)) {w' : World κ σ}
    (hheap : w'.heap = w.heap.subscribeAll current places) : w'.RecordedBy env o := by
  intro key c hc
  rw [hheap] at hc
  cases current with
  | none => exact hr key c hc
  | some i =>
    rw [Heap.cell?_subscribeAll] at hc
    obtain ⟨c₀, hc₀, rfl⟩ := Option.map_eq_some_iff.mp hc
    have hrecords : env.Records c₀.hook := hr key c₀ hc₀
    exact hrecords

/-- New watchers leave the hooks as they were. -/
theorem World.RecordedBy.watchingAll (hr : w.RecordedBy env o) (p : ObjectId)
    (watches : List (String × Reaction κ)) : (w.watchingAll p watches).RecordedBy env o := by
  induction watches generalizing w with
  | nil => exact hr
  | cons watch rest ih => exact ih (hr.subscribeAll (some ⟨w.watchers.size⟩) _ rfl)

/-- The world after a template has been rendered. -/
theorem render_eq (hr : w.RecordedBy env o) (t : Template) : ∃ user,
    t.render env o w = some (t.rendering w.heap o, { w.readings o t.markers with user }) := by
  obtain ⟨segments⟩ := t
  show ∃ user, renderSegments env o segments w = _
  induction segments generalizing w with
  | nil =>
    refine ⟨w.user, Run.pure_eq_some.mpr ⟨rfl, ?_⟩⟩
    simp [World.readings, Template.markers]
  | cons s rest ih =>
    cases s with
    | literal text =>
      obtain ⟨user, hrest⟩ := ih hr
      refine ⟨user, Run.bind_eq_some.mpr ⟨text, w, Run.pure_eq_some.mpr ⟨rfl, rfl⟩, ?_⟩⟩
      exact Run.bind_eq_some.mpr ⟨_, _, hrest, Run.pure_eq_some.mpr ⟨rfl, rfl⟩⟩
    | marker key =>
      obtain ⟨user₁, hread⟩ := read_eq hr key
      let w₁ : World κ σ := { w.readings o [key] with user := user₁ }
      have hr₁ : w₁.RecordedBy env o := hr.subscribeAll w.current [(o, key)] rfl
      obtain ⟨user, hrest⟩ := ih hr₁
      have hsegment : (Segment.marker key).render env o w =
          some (w.heap.text (w.heap.peek o key), w₁) := by
        refine Run.bind_eq_some.mpr ⟨_, w₁, hread, ?_⟩
        refine Run.bind_eq_some.mpr ⟨w₁, w₁, Run.get_eq_some.mpr ⟨rfl, rfl⟩, ?_⟩
        exact Run.pure_eq_some.mpr ⟨Heap.text_subscribeAll _ _ _ _, rfl⟩
      refine ⟨user, Run.bind_eq_some.mpr ⟨_, w₁, hsegment, ?_⟩⟩
      refine Run.bind_eq_some.mpr ⟨_, _, hrest, Run.pure_eq_some.mpr ⟨?_, ?_⟩⟩
      · -- what is read subscribes and changes no text
        rw [show Template.rendering w₁.heap o ⟨rest⟩ = Template.rendering w.heap o ⟨rest⟩ from
          Template.rendering_subscribeAll _ _ _ _ _]
        rfl
      · simp [World.readings, w₁, Heap.subscribeAll_append, Template.markers, Segment.key?]

/-- A watcher is built at each marker, in order. -/
theorem watchMarkers_eq (hr : w.RecordedBy env o) (n : NodeId) (t : Template)
    {keys : List String} (hkeys : ∀ key ∈ keys, Text.trim key = key) : ∃ user,
    watchMarkers env n t o keys w =
      some ((), { w.watchingAll o (keys.map fun key => (key, .render n t)) with user }) := by
  induction keys generalizing w with
  | nil => exact ⟨w.user, rfl⟩
  | cons key rest ih =>
    obtain ⟨user₁, hwatch⟩ := watch_eq hr key (.render n t)
    rw [hkeys key List.mem_cons_self] at hwatch
    let w₁ : World κ σ := { World.watching o w (key, .render n t) with user := user₁ }
    have hr₁ : w₁.RecordedBy env o :=
      hr.subscribeAll (some ⟨w.watchers.size⟩) [(o, key)] rfl
    obtain ⟨user, hrest⟩ := ih hr₁ fun k hk => hkeys k (List.mem_cons_of_mem _ hk)
    refine ⟨user, Run.bind_eq_some.mpr ⟨_, w₁, hwatch, ?_⟩⟩
    rw [World.watchingAll_user] at hrest
    exact hrest

/-! ## Bindings -/

namespace Directive

/-- The watchers that a directive builds: their keys and what they do. -/
def watches (kit : Kit κ) (n : NodeId) (expression : String) :
    Directive → List (String × Reaction κ)
  | .model => [(Text.trim expression, .setValue n)]
  | .text =>
    let template := Template.parse expression kit.dialect
    if template.hasMarkers then template.markers.map fun key => (key, .render n template)
    else [(Text.trim expression, .setText n)]
  | .on _ => []

/-- What a directive does to the watchers and to the lists of subscribers. -/
def wired (kit : Kit κ) (n : NodeId) (expression : String) (w : World κ σ) (d : Directive) :
    World κ σ :=
  match d with
  | .model =>
    (w.readings kit.data [Text.trim expression]).watchingAll kit.data (d.watches kit n expression)
  | .text =>
    let template := Template.parse expression kit.dialect
    let wired := w.watchingAll kit.data (d.watches kit n expression)
    if template.hasMarkers then wired.readings kit.data template.markers else wired
  | .on _ => w

/-- What a directive does to the world. -/
def effect (kit : Kit κ) (n : NodeId) (expression : String) (w : World κ σ) (d : Directive) :
    World κ σ :=
  { d.wired kit n expression w with document := d.mark kit w.heap n expression w.document }

variable {kit : Kit κ} {n : NodeId} {expression : String} (w : World κ σ) (d : Directive)

/-- What reading and building a watcher commute with, a directive does. -/
theorem wired_comm {f : World κ σ → World κ σ}
    (hreadings : ∀ w keys, (f w).readings kit.data keys = f (w.readings kit.data keys))
    (hwatching : ∀ w watch,
      World.watching kit.data (f w) watch = f (World.watching kit.data w watch)) :
    d.wired kit n expression (f w) = f (d.wired kit n expression w) := by
  cases d with
  | model =>
    unfold wired
    dsimp only
    rw [hreadings, World.watchingAll_comm hwatching]
  | text =>
    unfold wired
    dsimp only
    rw [World.watchingAll_comm hwatching]
    split
    · exact hreadings _ _
    · rfl
  | on event => rfl

theorem wired_user (user : σ) : d.wired kit n expression { w with user } =
    { d.wired kit n expression w with user } :=
  wired_comm w d (f := fun w => { w with user }) (fun _ _ => rfl) fun _ _ => rfl

theorem wired_held (held : List Handle) : d.wired kit n expression { w with held } =
    { d.wired kit n expression w with held } :=
  wired_comm w d (f := fun w => { w with held }) (fun _ _ => rfl) fun _ _ => rfl

theorem wired_document (document : Document κ) : d.wired kit n expression { w with document } =
    { d.wired kit n expression w with document } :=
  wired_comm w d (f := fun w => { w with document }) (fun _ _ => rfl) fun _ _ => rfl

/-- What is read in order to be shown leaves no trace if nobody is collecting. -/
theorem wired_of_current_eq_none {w : World κ σ} (hcur : w.current = none) (n : NodeId)
    (expression : String) (d : Directive) :
    d.wired kit n expression w = w.watchingAll kit.data (d.watches kit n expression) := by
  have hcur' : (w.watchingAll kit.data (d.watches kit n expression)).current = none :=
    (World.current_watchingAll _ _ _).trans hcur
  cases d with
  | model =>
    unfold wired
    dsimp only
    rw [World.readings_of_current_eq_none hcur]
  | text =>
    unfold wired
    dsimp only
    split
    · rw [World.readings_of_current_eq_none hcur']
    · rfl
  | on event => rfl

/-- A directive neither reads nor changes the state of the user. -/
theorem effect_user (user : σ) : d.effect kit n expression { w with user } =
    { d.effect kit n expression w with user } := by
  unfold effect
  rw [wired_user]

theorem effect_held (held : List Handle) : d.effect kit n expression { w with held } =
    { d.effect kit n expression w with held } := by
  unfold effect
  rw [wired_held]

theorem held_effect : (d.effect kit n expression w).held = w.held := by
  show (d.wired kit n expression w).held = w.held
  cases d with
  | model => exact World.held_watchingAll (w.readings kit.data [Text.trim expression]) kit.data _
  | text =>
    unfold wired
    dsimp only
    split
    · exact World.held_watchingAll w kit.data _
    · exact World.held_watchingAll w kit.data _
  | on event => rfl

end Directive

/-- A form control shows its value at once, and writes back what is entered. -/
theorem bindModel_eq {kit : Kit κ} (hr : w.RecordedBy env kit.data) (n : NodeId)
    (expression : String) : ∃ user,
    bindModel env n expression kit.data w =
      some ((), { Directive.model.effect kit n expression w with user }) := by
  let key := Text.trim expression
  obtain ⟨user₁, hread⟩ := read_eq hr key
  let w₁ : World κ σ := { w.readings kit.data [key] with user := user₁ }
  let held := .object kit.data :: (w.heap.peek kit.data key).handles ++ w₁.held
  have hr₁ : World.RecordedBy { w₁ with held } env kit.data :=
    hr.subscribeAll w.current [(kit.data, key)] rfl
  obtain ⟨user, hwatch⟩ := watch_eq hr₁ key (.setValue n)
  rw [Text.trim_trim] at hwatch
  let w₂ : World κ σ :=
    { World.watching kit.data (w.readings kit.data [key]) (key, .setValue n) with user }
  have htext : ∀ v, w₂.heap.text v = w.heap.text v := fun v => by
    simp [w₂, World.watching, World.readings]
  let w₃ : World κ σ := w₂.mapDocument fun d => d.addListener n "input" (.writeBack kit.data key)
  refine ⟨user, Run.bind_eq_some.mpr ⟨_, w₁, hread, ?_⟩⟩
  refine Run.bind_eq_some.mpr ⟨(), w₂, Run.holding_eq_some.mpr
    ⟨_, Run.discard_eq_some.mpr ⟨_, hwatch⟩, rfl⟩, ?_⟩
  refine Run.bind_eq_some.mpr ⟨(), w₃, Run.modify_eq_some.mpr rfl, Run.modify_eq_some.mpr ?_⟩
  show w₃.mapDocument (fun d => d.setValue n (w₂.heap.text (w.heap.peek kit.data key))) = _
  rw [htext]
  rfl

/-- A text shows its key or its template at once. -/
theorem bindText_eq {kit : Kit κ} (hr : w.RecordedBy env kit.data) (n : NodeId)
    (expression : String) : ∃ user,
    bindText env n expression kit.data kit.dialect w =
      some ((), { Directive.text.effect kit n expression w with user }) := by
  unfold bindText Directive.effect Directive.wired Directive.watches Directive.mark Kit.textFor
  dsimp only
  split
  · -- a template is watched at each marker and then rendered, which reads the markers again
    have hkeys : ∀ key ∈ (Template.parse expression kit.dialect).markers, Text.trim key = key :=
      fun key hkey => Template.trim_of_mem_markers hkey
    obtain ⟨user₁, hwatch⟩ := watchMarkers_eq hr n (Template.parse expression kit.dialect) hkeys
    let watches := (Template.parse expression kit.dialect).markers.map fun key =>
      (key, Reaction.render (κ := κ) n (Template.parse expression kit.dialect))
    let w₁ : World κ σ := { w.watchingAll kit.data watches with user := user₁ }
    have hr₁ : w₁.RecordedBy env kit.data := hr.watchingAll kit.data watches
    obtain ⟨user, hrender⟩ := render_eq hr₁ (Template.parse expression kit.dialect)
    have hsame : Template.rendering w₁.heap kit.data (Template.parse expression kit.dialect) =
        Template.rendering w.heap kit.data (Template.parse expression kit.dialect) :=
      World.rendering_watchingAll w kit.data watches _ _
    rw [hsame] at hrender
    refine ⟨user, Run.bind_eq_some.mpr ⟨(), w₁, hwatch, ?_⟩⟩
    refine Run.bind_eq_some.mpr ⟨_, _, hrender, Run.modify_eq_some.mpr ?_⟩
    show World.mapDocument _ _ = _
    unfold World.mapDocument World.readings
    rw [show w₁.document = w.document from World.document_watchingAll w kit.data watches]
  · -- a key is watched once, and its watcher knows what to show
    obtain ⟨user, hwatch⟩ := watch_eq hr expression (.setText n)
    let w₁ : World κ σ :=
      { World.watching kit.data w (Text.trim expression, .setText n) with user }
    have hlast : w₁.watcher? ⟨w.watchers.size⟩ = some
        { key := Text.trim expression, data := kit.data,
          last := w.heap.peek kit.data (Text.trim expression), reaction := .setText n } :=
      (World.watcher?_push w _ _).trans (if_pos rfl)
    refine ⟨user, Run.bind_eq_some.mpr ⟨_, w₁, hwatch, ?_⟩⟩
    refine Run.bind_eq_some.mpr ⟨w₁, w₁, Run.get_eq_some.mpr ⟨rfl, rfl⟩, ?_⟩
    rw [hlast]
    refine Run.modify_eq_some.mpr ?_
    show w₁.mapDocument (fun d => d.setText n (w₁.heap.text _)) = _
    have htext : ∀ v, w₁.heap.text v = w.heap.text v := fun v => by
      simp [w₁, World.watching]
    rw [htext]
    rfl

/-- Every binding comes to an end, and this is what it leaves behind. -/
theorem bind_eq {kit : Kit κ} (hr : w.RecordedBy env kit.data) (n : NodeId)
    (directive : Directive) (expression : String) : ∃ user,
    directive.bind env n expression kit w =
      some ((), { directive.effect kit n expression w with user }) := by
  have hr' : World.RecordedBy { w with held := [.object kit.data] ++ w.held } env kit.data := hr
  -- what is held meanwhile makes no difference
  have hheld : ∀ (user : σ), { directive.effect kit n expression w with user } =
      { { directive.effect kit n expression { w with held := [.object kit.data] ++ w.held } with
          user } with held := w.held } := by
    intro user
    rw [Directive.effect_held w directive ([Handle.object kit.data] ++ w.held)]
    show _ = { directive.effect kit n expression w with held := w.held, user }
    have hsame : (directive.effect kit n expression w).held = w.held := directive.held_effect w
    rw [← hsame]
  cases directive with
  | model =>
    obtain ⟨user, hbind⟩ := bindModel_eq hr' n expression
    exact ⟨user, Run.holding_eq_some.mpr ⟨_, hbind, hheld user⟩⟩
  | text =>
    obtain ⟨user, hbind⟩ := bindText_eq hr' n expression
    exact ⟨user, Run.holding_eq_some.mpr ⟨_, hbind, hheld user⟩⟩
  | on event => exact ⟨w.user, Run.modify_eq_some.mpr rfl⟩

end DataBinding
