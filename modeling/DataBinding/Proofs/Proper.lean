import DataBinding.Proofs.Bindings

/-!
# Proper requests

A request is proper if it names nodes that exist and writes scalars. In a run of proper requests
every step advances the world: it stays sound, and has afterwards what it had before.

`AdvancesWith E S` says that besides a relation `S` holds between the worlds before and after. To
know it of whole runs it is enough to know `S` of bindings and of the requests that are not made of
others, as long as `S` composes along steps that advance.
-/

namespace DataBinding

variable {κ σ : Type}

/-- Whether a request names nodes that exist and writes scalars only. -/
def Request.isProper {α : Type} (w : World κ σ) : Request κ α → Bool
  | .ofJson j => j.isFlat
  | .write _ _ value => value.isScalar
  | .setProperty _ _ value => value.isScalar
  | .appendChildren _ children => children.all fun n => decide (w.document.has n)
  | .bind _ n _ _ => decide (w.document.has n)
  | .compile _ root => decide (w.document.has root)
  | .mount (.node n) _ _ => decide (w.document.has n)
  | .mount (.selector document _) _ _ => decide (w.document.has document)
  | _ => true

open World

variable {env : Env κ σ} {E : WatcherId → Prop}

/-! ## Requests -/

/-- A proper request that is not made of others advances the world. -/
theorem simple_advances (hq : env.HooksRead) (hcall : env.CallsMove (AdvancesFrom E))
    {α : Type} (r : Request κ α) {w w' : World κ σ} {a : α} (hr : r.isCompound = false)
    (hproper : r.isProper w = true) (h : r.perform env w = some (a, w')) :
    w.AdvancesFrom E w' := by
  -- new objects and arrays have no subscribers, and nodes that are changed are still there
  cases r with
  | newObject =>
    obtain ⟨rfl, rfl⟩ := Prod.mk.inj (Run.changing_eq_some.mp h)
    have hcell : ∀ o key, (w.heap.alloc ∅).2.cell? o key = w.heap.cell? o key :=
      Heap.cell?_alloc fun _ => rfl
    refine .of_lists rfl rfl rfl ?_ ?_ (.refl _)
    · exact fun o key => Heap.subscribers_congr (hcell o key)
    · exact fun hflat => hflat.alloc fun key s hs => by simp at hs
  | newArray items =>
    obtain ⟨rfl, rfl⟩ := Prod.mk.inj (Run.changing_eq_some.mp h)
    exact .of_lists rfl rfl rfl (fun _ _ => rfl) id (.refl _)
  | ofJson j =>
    obtain ⟨rfl, rfl⟩ := Prod.mk.inj (Run.changing_eq_some.mp h)
    have hcell := Heap.cell?_ofJson w.heap j
    refine .of_lists rfl rfl rfl ?_ ?_ (.refl _)
    · exact fun o key => Heap.subscribers_congr (hcell o key)
    · exact fun hflat => hflat.ofJson hproper
  | write o key v => exact write_advances hq hcall o key hproper h
  | observe hook v => exact observe_advances hook v h
  | watch expression o code => exact watch_advances hq expression o (fun n => by simp) h
  | update i => exact update_advances hq hcall i h
  | newNode content =>
    obtain ⟨rfl, rfl⟩ := Prod.mk.inj (Run.changing_eq_some.mp h)
    exact .of_lists rfl rfl rfl (fun _ _ => rfl) id (.create _ content)
  | setAttribute n name value =>
    obtain rfl := Run.modify_eq_some.mp h
    exact .mapDocument w (.setAttribute _ n name value)
  | setText n text =>
    obtain rfl := Run.modify_eq_some.mp h
    exact .setText w n text
  | setValue n text =>
    obtain rfl := Run.modify_eq_some.mp h
    exact .setValue w n text
  | appendChildren n children =>
    obtain rfl := Run.modify_eq_some.mp h
    refine .mapDocument w (.appendChildren _ n fun c hc => ?_)
    simpa using List.all_eq_true.mp hproper c hc
  | detachChildren n =>
    obtain ⟨rfl, rfl⟩ := Prod.mk.inj (Run.changing_eq_some.mp h)
    exact .mapDocument w (.detachChildren _ n)
  | listen n event code =>
    obtain rfl := Run.modify_eq_some.mp h
    exact .mapDocument w (.addListener _ n event _)
  | _ => cases hr

/-- A node of a sound world that exists. -/
def World.Bindable (w : World κ σ) (n : NodeId) (E : WatcherId → Prop := Nobody) : Prop :=
  w.Sound E ∧ w.document.has n

theorem walk_bindable {R : World κ σ → World κ σ → Prop}
    (hR : ∀ w w', R w w' → w.AdvancesFrom E w') :
    Carried.Walk R fun w n => w.Bindable n E where
  stays w w' _ h hn := ⟨(hR w w' h hn.1).sound, (hR w w' h hn.1).grows.document.has hn.2⟩
  down _ n c hn hc := ⟨hn.1, hn.1.tidy.closed n c hc⟩
  held _ _ held hn := ⟨hn.1.hold held, hn.2⟩

theorem bindable_of_bind {w : World κ σ} {d : Directive} {n : NodeId} {expression : String}
    {kit : Kit κ} (hs : w.Sound E)
    (h : (Request.bind d n expression kit).isProper w = true) : w.Bindable n E :=
  ⟨hs, by simpa [Request.isProper] using h⟩

theorem bindable_of_compile {w : World κ σ} {kit : Kit κ} {root : NodeId} (hs : w.Sound E)
    (h : (Request.compile kit root).isProper w = true) : w.Bindable root E :=
  ⟨hs, by simpa [Request.isProper] using h⟩

/-- A mount point that is found in a closed document exists, as the node does that it names or
below which it is looked for. -/
theorem Mount.has_of_resolve {d : Document κ} (hclosed : d.Closed) {place : Mount} {root : NodeId}
    (hroot : place.resolve d = .ok root)
    (hplace : match place with
      | .node n => d.has n
      | .selector document _ => d.has document) : d.has root := by
  cases place with
  | node n =>
    obtain rfl : n = root := by simpa [Mount.resolve] using hroot
    exact hplace
  | selector document text =>
    simp only [Mount.resolve] at hroot
    split at hroot
    · next n hquery =>
      obtain rfl : n = root := by simpa using hroot
      exact hclosed.has_query hplace hquery
    · simp at hroot

theorem bindable_of_mount {w : World κ σ} {place : Mount} {hook : Hook κ} {kit : Kit κ}
    (hs : w.Sound E) (h : (Request.mount place hook kit).isProper w = true) {root : NodeId}
    (hroot : place.resolve w.document = .ok root) : w.Bindable root E := by
  refine ⟨hs, Mount.has_of_resolve hs.tidy.closed hroot ?_⟩
  cases place <;> simpa [Request.isProper] using h

theorem steps_advance {host : Host κ σ} (henv : env.Orderly host (AdvancesFrom E)) :
    Steps env (AdvancesFrom E) (fun w => w.Sound E) (fun w n => w.Bindable n E)
      fun w r => r.isProper w where
  carried := carried_advancesFrom
  hooks := henv.hooks
  calls := henv.calls
  guard h hs := h hs hs
  walk := walk_bindable fun _ _ h => h
  reads := .of_reads
  simple r _ _ _ hr hproper h := simple_advances henv.hooks henv.calls r hr hproper h
  observe := observe_advances
  writeText o key _ := write_advances henv.hooks henv.calls o key rfl
  setProperty hproper h := write_advances henv.hooks henv.calls _ _ hproper h
  enter _ := .setValue _ _ _
  bind n d expression kit _ _ _ hn h := bind_advances henv.hooks n d expression kit hn.2 h
  detach w n := .mapDocument w (.detachChildren _ n)
  append w n _ _ hns := .mapDocument w (.appendChildren _ n fun m hm => (hns m hm).2)
  okBind := bindable_of_bind
  okCompile := bindable_of_compile
  okMount hs hproper _ hroot := bindable_of_mount hs hproper hroot

/-- Whether a request only makes things or moves nodes. -/
def Request.isQuiet {α : Type} : Request κ α → Bool
  | .newObject => true
  | .newArray _ => true
  | .ofJson _ => true
  | .observe _ _ => true
  | .newNode _ => true
  | .appendChildren _ _ => true
  | .detachChildren _ => true
  | .listen _ _ _ => true
  | _ => false

/-- Such a request changes no watcher, no cell, and nothing that a node holds itself. -/
theorem quiet_eq_some {α : Type} {r : Request κ α} {w w' : World κ σ} {a : α}
    (hr : r.isQuiet = true) (h : r.perform env w = some (a, w')) :
    w'.watchers = w.watchers ∧
      (∀ o key c, w.heap.cell? o key = some c → w'.heap.cell? o key = some c) ∧
      ∀ m, w.document.has m → w'.document.content m = w.document.content m := by
  cases r with
  | newObject =>
    obtain ⟨rfl, rfl⟩ := Prod.mk.inj (Run.changing_eq_some.mp h)
    exact ⟨rfl, fun o key c hc => (Heap.cell?_alloc (fun _ => rfl) o key).trans hc, fun _ _ => rfl⟩
  | newArray items =>
    obtain ⟨rfl, rfl⟩ := Prod.mk.inj (Run.changing_eq_some.mp h)
    exact ⟨rfl, fun _ _ _ hc => hc, fun _ _ => rfl⟩
  | ofJson j =>
    obtain ⟨rfl, rfl⟩ := Prod.mk.inj (Run.changing_eq_some.mp h)
    exact ⟨rfl, fun o key c hc => (Heap.cell?_ofJson w.heap j o key).trans hc, fun _ _ => rfl⟩
  | observe hook v =>
    obtain rfl := Run.modify_eq_some.mp h
    exact ⟨rfl, fun o key c hc => Heap.cell?_intercept_of_some hc, fun _ _ => rfl⟩
  | newNode content =>
    obtain ⟨rfl, rfl⟩ := Prod.mk.inj (Run.changing_eq_some.mp h)
    exact ⟨rfl, fun _ _ _ hc => hc, fun m hm => Document.content_create w.document content hm⟩
  | appendChildren n children =>
    obtain rfl := Run.modify_eq_some.mp h
    exact ⟨rfl, fun _ _ _ hc => hc, fun m _ => Document.content_appendChildren _ n children m⟩
  | detachChildren n =>
    obtain ⟨rfl, rfl⟩ := Prod.mk.inj (Run.changing_eq_some.mp h)
    exact ⟨rfl, fun _ _ _ hc => hc, fun m _ => Document.content_detachChildren _ n m⟩
  | listen n event code =>
    obtain rfl := Run.modify_eq_some.mp h
    exact ⟨rfl, fun _ _ _ hc => hc, fun m _ => Document.content_addListener _ n event _ m⟩
  | _ => cases hr

/-! ## Laws besides -/

/-- A step that advances the world, and of which a relation holds besides. -/
def World.AdvancesWith (E : WatcherId → Prop) (S : World κ σ → World κ σ → Prop)
    (w w' : World κ σ) : Prop :=
  w.Sound E → w.Advances w' E ∧ S w w'

/-- A relation that composes along steps that advance the world. -/
structure Composes (S : World κ σ → World κ σ → Prop) (E : WatcherId → Prop := Nobody) : Prop where
  refl : ∀ w, S w w
  trans : ∀ {a b c}, a.Sound E → a.Advances b E → b.Advances c E → S a b → S b c → S a c
  held : ∀ (w w' : World κ σ) held held', S { w with held } { w' with held := held' } ↔ S w w'

variable {S : World κ σ → World κ σ → Prop}

theorem Composes.carried (hS : Composes S E) : Carried (AdvancesWith E S) where
  refl w hs := ⟨carried_advancesFrom.refl w hs, hS.refl w⟩
  trans a b c hab hbc := by
    intro hs
    obtain ⟨h₁, hS₁⟩ := hab hs
    obtain ⟨h₂, hS₂⟩ := hbc h₁.sound
    exact ⟨carried_advancesFrom.trans a b c (fun _ => h₁) (fun _ => h₂) hs,
      hS.trans hs h₁ h₂ hS₁ hS₂⟩
  hold := by
    intro w w' held h hs
    obtain ⟨h', hS'⟩ := h (hs.hold held)
    have hmid : S w w' := (hS.held w w' held w'.held).mp hS'
    exact ⟨carried_advancesFrom.hold (fun _ => h') hs, (hS.held w w' w.held w.held).mpr hmid⟩

/-- What is done while a watcher collects that may be let collect, where it does not count for the
relation who collects. -/
theorem advancesWith_enters {mayEnter : World κ σ → WatcherId → Bool}
    (hE : ∀ w i, mayEnter w i = true → E i)
    (hcurrent : ∀ (w w' : World κ σ) current current',
      S { w with current } { w' with current := current' } → S w w') :
    Carried.EntersAlong (AdvancesWith E S) mayEnter := by
  intro w w' i henter h hs
  have hcollect : ∀ j, some i = some j → E j := fun j hj => Option.some.inj hj ▸ hE w i henter
  have hadvance := advancesFrom_enters hE henter (fun hs => (h hs).1) hs
  exact ⟨hadvance, hcurrent w _ (some i) w'.current (h (hs.collect hcollect)).2⟩

theorem callsMove_advancesFrom (hcall : env.CallsMove (AdvancesWith E S)) :
    env.CallsMove (AdvancesFrom E) :=
  fun code occasion ho _ _ _ h hs => (hcall code occasion ho h hs).1

/-- What a run does that holds some handles meanwhile is what it does while they are held. -/
theorem Composes.holding (hS : Composes S E) {α : Type} {handles : List Handle} {m : Run κ σ α}
    {w w' : World κ σ} {a : α} (h : Run.holding handles m w = some (a, w')) (hs : w.Sound E)
    (hgrows : w.Grows w' E)
    (hm : ∀ {w₀ w₁}, m w₀ = some (a, w₁) → w₀.Sound E → w₀.document = w.document →
      w₀.Grows w₁ E → S w₀ w₁) : S w w' := by
  obtain ⟨w₁, h₁, rfl⟩ := Run.holding_eq_some.mp h
  have hheld : S { w with held := handles ++ w.held } w₁ :=
    hm h₁ (hs.hold _) rfl (hgrows.holding _ w₁.held)
  have hmid : S w w₁ := (hS.held w w₁ _ w₁.held).mp hheld
  exact (hS.held w w₁ w.held w.held).mpr hmid

/-- An update does what it does to the world, and advances it. -/
theorem update_advancesWith (hq : env.HooksRead)
    (hcall : env.CallsMove (AdvancesWith E S)) {i : WatcherId}
    (hupdate : ∀ {w u w'}, update env i w = some (u, w') → w.Sound E → w.Grows w' E → S w w') :
    Run.Moves (AdvancesWith E S) (update env i) := by
  intro w u w' h hs
  have hadvance := update_advances hq (callsMove_advancesFrom hcall) i h hs
  exact ⟨hadvance, hupdate h hs hadvance.grows⟩

/-- A write of a scalar does what it does to the world, and advances it. -/
theorem write_advancesWith (hq : env.HooksRead)
    (hcall : env.CallsMove (AdvancesWith E S)) {o : ObjectId} {key : String} {v : Value}
    (hv : v.isScalar = true)
    (hwrite : ∀ {w u w'}, write env o key v w = some (u, w') → w.Sound E → w.Grows w' E →
      S w w') :
    Run.Moves (AdvancesWith E S) (write env o key v) := by
  intro w u w' h hs
  have hadvance := write_advances hq (callsMove_advancesFrom hcall) o key hv h hs
  exact ⟨hadvance, hwrite h hs hadvance.grows⟩

/-- Requests of proper user code that is kept from some more. What an event or a mounted app does by
itself is never kept from it. -/
structure Manners (may : {α : Type} → World κ σ → Request κ α → Bool) : Prop where
  proper : ∀ {α : Type} {w} {r : Request κ α}, may w r = true → r.isProper w = true
  observe : ∀ w hook v, may w (.observe hook v) = true
  writeText : ∀ w o key text, may w (.write o key (.text text)) = true
  setProperty : ∀ {w app key v}, may w (.setProperty app key v) = true →
    may w (.write app.data key v) = true
  enter : ∀ {w n text}, may w (.enter n text) = true → may w (.setValue n text) = true
  detachChildren : ∀ w n, may w (.detachChildren n) = true
  appendChildren : ∀ {w n ns}, (∀ m ∈ ns, w.document.has m) → may w (.appendChildren n ns) = true

theorem steps_advanceWith {host : Host κ σ}
    {may : {α : Type} → World κ σ → Request κ α → Bool}
    (henv : env.Orderly host (AdvancesWith Nobody S)) (hS : Composes S) (hmay : Manners may)
    (huser : ∀ (w : World κ σ) user, S w { w with user })
    (hsimple : ∀ {α : Type} (r : Request κ α) {w a w'}, r.isCompound = false → may w r = true →
      r.perform env w = some (a, w') → w.Sound → w.Advances w' → S w w')
    (hbind : ∀ (d : Directive) n expression kit {w u w'}, w.document.has n →
      d.bind env n expression kit w = some (u, w') → w.Sound → w.Advances w' → S w w') :
    Steps env (AdvancesWith Nobody S) World.Sound World.Bindable may := by
  have hcalls : env.CallsMove (AdvancesFrom Nobody) := fun code occasion ho _ _ _ h hs =>
    (henv.calls code occasion ho h hs).1
  have hdo : ∀ {α : Type} (r : Request κ α) {w a w'}, r.isCompound = false → may w r = true →
      r.perform env w = some (a, w') → w.AdvancesWith Nobody S w' := by
    intro α r w a w' hr hm h hs
    have hadvance := simple_advances henv.hooks hcalls r hr (hmay.proper hm) h hs
    exact ⟨hadvance, hsimple r hr hm h hs hadvance⟩
  -- each part of a compound request does what a simple request would do
  exact {
    carried := hS.carried
    hooks := henv.hooks
    calls := henv.calls
    guard := fun h hs => h hs hs
    walk := walk_bindable fun w w' h hs => (h hs).1
    reads := by
      intro w w' h hs
      obtain ⟨user, rfl⟩ := h.of_current_eq_none hs.current
      exact ⟨AdvancesFrom.user w user hs, huser w user⟩
    simple := hdo
    observe := fun hook v w u w' h => hdo (.observe hook v) rfl (hmay.observe w hook v) h
    writeText := fun o key text w u w' h =>
      hdo (.write o key (.text text)) rfl (hmay.writeText w o key text) h
    setProperty := fun hm h => hdo (.write _ _ _) rfl (hmay.setProperty hm) h
    enter := fun hm =>
      hdo (.setValue _ _) rfl (hmay.enter hm) (Run.modify_eq_some (u := ()).mpr rfl)
    bind := by
      intro n d expression kit w u w' hn h hs
      have hadvance := bind_advances henv.hooks n d expression kit hn.2 h hs
      exact ⟨hadvance, hbind d n expression kit hn.2 h hs hadvance⟩
    detach := fun w n => hdo (.detachChildren n) rfl (hmay.detachChildren w n)
      (Run.changing_eq_some.mpr rfl)
    append := fun w n ns _ hns => hdo (.appendChildren n ns) rfl
      (hmay.appendChildren fun m hm => (hns m hm).2) (Run.modify_eq_some (u := ()).mpr rfl)
    okBind := fun hs hm => bindable_of_bind hs (hmay.proper hm)
    okCompile := fun hs hm => bindable_of_compile hs (hmay.proper hm)
    okMount := fun hs hm _ hroot => bindable_of_mount hs (hmay.proper hm) hroot }

/-- Such a relation holds between the fresh world and the end of every orderly run. -/
theorem Host.run_advances {host : Host κ σ} (hS : Composes S)
    {may : {α : Type} → World κ σ → Request κ α → Bool}
    (hsteps : ∀ {env : Env κ σ}, env.Orderly host (AdvancesWith Nobody S) →
      Steps env (AdvancesWith Nobody S) World.Sound World.Bindable may)
    (huser : ∀ (w : World κ σ) user, S w { w with user }) {depth : Nat} {α : Type}
    {p : Program κ σ α} {w w' : World κ σ} {a : α} (hs : w.Sound)
    (hrun : host.run depth p w = some (a, w'))
    (hob : host.Obeys (.orderly fun _ => may) depth p w) : w.Advances w' ∧ S w w' :=
  Host.runUnder_moves hS.carried
    (fun w f hs => ⟨AdvancesFrom.user w (f w.user) hs, huser w (f w.user)⟩)
    (fun henv _ => hsteps henv) hrun hob hs

theorem World.sound_fresh (user : σ) : (World.fresh user : World κ σ).Sound E := by
  refine ⟨?_, ?_, ?_, fun _ _ => rfl, ?_, ?_⟩
  · intro i hi
    cases hi
  · intro o key c i hc hi
    cases hc
  · intro n c hc
    cases hc
  · intro i x hx
    cases hx
  · intro i x n hx
    cases hx

/-- A run of proper requests ends in a sound world. -/
theorem Host.sound_of_run {host : Host κ σ} {depth : Nat} {α : Type} {p : Program κ σ α} {user : σ}
    {a : α} {w : World κ σ} (hrun : host.run depth p (.fresh user) = some (a, w))
    (hob : host.Obeys (.orderly fun _ w r => r.isProper w) depth p (.fresh user)) : w.Sound :=
  (Host.runUnder_moves carried_advancesFrom (fun w f => .user w (f w.user))
    (fun henv _ => steps_advance henv) hrun hob (World.sound_fresh user)).sound

end DataBinding
