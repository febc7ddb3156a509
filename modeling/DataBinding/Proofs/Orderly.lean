import DataBinding.Proofs.Accesses

/-!
# Laws of orderly runs

How a relation between the world before and the world after is carried from the requests of user
code to whole runs. A relation that is `Carried` is reflexive, transitive and does not mind what is
held meanwhile. If in addition every request that is within the rules moves the world along it, as
long as the callbacks it runs do, then so does every run: by induction on the depth of callbacks,
and at each depth along the program.

Requests that are made of others (an event, a binding, a compilation) move the world along a
carried relation if their parts do.
-/

namespace DataBinding

variable {κ σ : Type}

/-- A relation that steps in a row and steps under held handles are in if the steps are. -/
structure Carried (R : World κ σ → World κ σ → Prop) : Prop where
  refl : ∀ w, R w w
  trans : ∀ a b c, R a b → R b c → R a c
  hold : ∀ {w w' held}, R { w with held := held } w' → R w { w' with held := w.held }

/-- The calls of an environment move the world along a relation, those of hooks apart. -/
def Env.CallsMove (env : Env κ σ) (R : World κ σ → World κ σ → Prop) : Prop :=
  ∀ code occasion, occasion.isAccess = false → Run.Moves R (env.call code occasion)

namespace Carried

variable {R : World κ σ → World κ σ → Prop} {α β : Type} {env : Env κ σ}

theorem pure (h : Carried R) (a : α) : Run.Moves R (Pure.pure a : Run κ σ α) :=
  .pure h.refl a

theorem bind (h : Carried R) {m : Run κ σ α} {f : α → Run κ σ β} (hm : Run.Moves R m)
    (hf : ∀ a, Run.Moves R (f a)) : Run.Moves R (m >>= f) :=
  .bind h.trans hm hf

theorem holding (h : Carried R) (hs : List Handle) {m : Run κ σ α} (hm : Run.Moves R m) :
    Run.Moves R (.holding hs m) := by
  intro w a w' hw
  obtain ⟨w₁, h₁, rfl⟩ := Run.holding_eq_some.mp hw
  exact h.hold (hm h₁)

/-! ## Requests made of others -/

theorem updateAll (h : Carried R) (hupdate : ∀ i, Run.Moves R (update env i))
    (is : List WatcherId) : Run.Moves R (updateAll env is) := by
  induction is with
  | nil => exact h.pure ()
  | cons i rest ih => exact h.bind (hupdate i) fun _ => ih

theorem deliver (h : Carried R) (hcall : env.CallsMove R)
    (hwrite : ∀ o key text, Run.Moves R (write env o key (.text text))) (event : Event)
    (l : Listener κ) : Run.Moves R (l.deliver env event) := by
  cases l with
  | writeBack o key =>
    unfold Listener.deliver
    cases event.value with
    | none => exact h.pure _
    | some text =>
      refine .after_get fun w => ?_
      split
      · exact h.bind (hwrite o key text) fun _ => h.pure _
      · exact h.pure _
  | callMethod o name method =>
    unfold Listener.deliver
    cases method with
    | none => exact h.pure _
    | some code =>
      refine .after_get fun w => ?_
      split
      · exact h.holding _ (hcall _ _ rfl)
      · exact h.pure _
  | custom code => exact hcall _ _ rfl

theorem deliverAll (h : Carried R) (hcall : env.CallsMove R)
    (hwrite : ∀ o key text, Run.Moves R (write env o key (.text text))) (event : Event)
    (ls : List (Listener κ)) : Run.Moves R (deliverAll env event ls) := by
  induction ls with
  | nil => exact h.pure _
  | cons l rest ih =>
    refine h.bind (h.deliver hcall hwrite event l) fun result => ?_
    cases result with
    | error e => exact h.pure _
    | ok u => exact ih

theorem dispatch (h : Carried R) (hcall : env.CallsMove R)
    (hwrite : ∀ o key text, Run.Moves R (write env o key (.text text))) (n : NodeId)
    (event : Event) : Run.Moves R (dispatch env n event) :=
  .after_get fun _ => h.deliverAll hcall hwrite _ _

theorem bindModel (h : Carried R) {n : NodeId} {o : ObjectId}
    (hread : ∀ key, Run.Moves R (read env o key))
    (hwatch : ∀ e, Run.Moves R (watch env e o (.setValue n)))
    (hlisten : ∀ w key, R w (w.mapDocument fun d => d.addListener n "input" (.writeBack o key)))
    (hshow : ∀ w v, R w (w.showValue n v)) (expression : String) :
    Run.Moves R (bindModel env n expression o) :=
  h.bind (hread _) fun _ => h.bind (h.holding _ (.discard (hwatch _))) fun _ =>
    h.bind (.modify fun w => hlisten w _) fun _ => .modify fun w => hshow w _

theorem watchMarkers (h : Carried R) {n : NodeId} {t : Template} {o : ObjectId}
    (hwatch : ∀ e, Run.Moves R (watch env e o (.render n t))) (keys : List String) :
    Run.Moves R (watchMarkers env n t o keys) := by
  induction keys with
  | nil => exact h.pure _
  | cons key rest ih => exact h.bind (hwatch key) fun _ => ih

theorem bindText (h : Carried R) {n : NodeId} {o : ObjectId}
    (hwatch : ∀ e t, Run.Moves R (watch env e o (.render n t)))
    (hwatch' : ∀ e, Run.Moves R (watch env e o (.setText n)))
    (hrender : ∀ t : Template, Run.Moves R (t.render env o))
    (hset : ∀ w text, R w (w.mapDocument fun d => d.setText n text)) (expression : String)
    (d : Dialect) : Run.Moves R (bindText env n expression o d) := by
  unfold DataBinding.bindText
  dsimp only
  split
  · exact h.bind (h.watchMarkers (fun e => hwatch e _) _) fun _ =>
      h.bind (hrender _) fun _ => .modify fun w => hset w _
  · exact h.bind (hwatch' _) fun _ => .after_get fun _ => .modify fun w => hset w _

/-! ## Compiling -/

/-- The nodes that a walk may visit: what is below such a node is one too, and a relation leaves
them what they are. -/
structure Walk (R : World κ σ → World κ σ → Prop) (Ok : World κ σ → NodeId → Prop) : Prop where
  stays : ∀ w w' n, R w w' → Ok w n → Ok w' n
  down : ∀ w n c, Ok w n → c ∈ w.document.children n → Ok w c
  held : ∀ w n held, Ok w n → Ok { w with held := held } n

variable {Ok : World κ σ → NodeId → Prop} {kit : Kit κ}

theorem compileAttributes (h : Carried R) (hwalk : Walk R Ok) {n : NodeId}
    (hbind : ∀ (d : Directive) expression {w u w'}, Ok w n →
      d.bind env n expression kit w = some (u, w') → R w w')
    {attributes : List (String × String)} {w w' : World κ σ} {result : Except ViewError Unit}
    (hn : Ok w n) (hc : compileAttributes env kit n attributes w = some (result, w')) :
    R w w' := by
  induction attributes generalizing w with
  | nil =>
    rw [(Run.pure_eq_some.mp hc).2]
    exact h.refl w'
  | cons a rest ih =>
    obtain ⟨name, expression⟩ := a
    rw [DataBinding.compileAttributes] at hc
    cases hparse : Directive.parse name kit.dialect with
    | error e =>
      rw [hparse] at hc
      rw [(Run.pure_eq_some.mp hc).2]
      exact h.refl w'
    | ok parsed =>
      rw [hparse] at hc
      cases parsed with
      | none => exact ih hn hc
      | some directive =>
        obtain ⟨_, w₁, h₁, h₂⟩ := Run.bind_eq_some.mp hc
        have hr₁ := hbind directive expression hn h₁
        exact h.trans _ _ _ hr₁ (ih (hwalk.stays _ _ n hr₁ hn) h₂)

theorem compileNode (h : Carried R) (hwalk : Walk R Ok)
    (hbind : ∀ n (d : Directive) expression {w u w'}, Ok w n →
      d.bind env n expression kit w = some (u, w') → R w w')
    {n : NodeId} {w w' : World κ σ} {result : Except ViewError Unit} (hn : Ok w n)
    (hc : compileNode env kit n w = some (result, w')) : R w w' := by
  obtain ⟨_, _, hget, hc⟩ := Run.bind_eq_some.mp hc
  obtain ⟨rfl, rfl⟩ := Run.get_eq_some.mp hget
  cases hcontent : w.document.content n with
  | element tag attributes value =>
    rw [hcontent] at hc
    exact h.compileAttributes hwalk (hbind n) hn hc
  | text text =>
    rw [hcontent] at hc
    dsimp only at hc
    split at hc
    · obtain ⟨_, w₁, h₁, h₂⟩ := Run.bind_eq_some.mp hc
      rw [← (Run.pure_eq_some.mp h₂).2]
      exact hbind n _ _ hn h₁
    · rw [(Run.pure_eq_some.mp hc).2]
      exact h.refl w'
  | comment text =>
    rw [hcontent] at hc
    rw [(Run.pure_eq_some.mp hc).2]
    exact h.refl w'

theorem compileNodes (h : Carried R) (hwalk : Walk R Ok)
    (hbind : ∀ n (d : Directive) expression {w u w'}, Ok w n →
      d.bind env n expression kit w = some (u, w') → R w w')
    {depth : Nat} {nodes : List NodeId} {w w' : World κ σ} {result : Except ViewError Unit}
    (hnodes : ∀ n ∈ nodes, Ok w n)
    (hc : compileNodes env kit depth nodes w = some (result, w')) : R w w' := by
  -- along the recursion of the walk: the children one level down, then the siblings
  fun_induction DataBinding.compileNodes env kit depth nodes generalizing w w' result with
  | case1 depth =>
    rw [(Run.pure_eq_some.mp hc).2]
    exact h.refl w'
  | case2 n rest => exact absurd hc (by simp)
  | case3 depth n rest ihDown ihBeside =>
    obtain ⟨first, w₁, h₁, hc⟩ := Run.bind_eq_some.mp hc
    have hr₁ := h.compileNode hwalk hbind (hnodes n List.mem_cons_self) h₁
    have hok₁ : ∀ m ∈ n :: rest, Ok w₁ m := fun m hm => hwalk.stays _ _ m hr₁ (hnodes m hm)
    cases first with
    | error e =>
      rw [← (Run.pure_eq_some.mp hc).2]
      exact hr₁
    | ok u =>
      obtain ⟨_, _, hget, hc⟩ := Run.bind_eq_some.mp hc
      obtain ⟨rfl, rfl⟩ := Run.get_eq_some.mp hget
      obtain ⟨below, w₂, h₂, hc⟩ := Run.bind_eq_some.mp hc
      have hr₂ := ihDown w₁ (fun c hc => hwalk.down _ n c (hok₁ n List.mem_cons_self) hc) h₂
      have hr₁₂ := h.trans _ _ _ hr₁ hr₂
      cases below with
      | error e =>
        rw [← (Run.pure_eq_some.mp hc).2]
        exact hr₁₂
      | ok u =>
        refine h.trans _ _ _ hr₁₂ (ihBeside (fun m hm => ?_) hc)
        exact hwalk.stays _ _ m hr₂ (hok₁ m (List.mem_cons_of_mem _ hm))

theorem compile (h : Carried R) (hwalk : Walk R Ok)
    (hbind : ∀ n (d : Directive) expression {w u w'}, Ok w n →
      d.bind env n expression kit w = some (u, w') → R w w')
    {root : NodeId} (hdetach : ∀ w, R w (w.mapDocument fun d => d.detachChildren root))
    (happend : ∀ w ns, Ok w root → (∀ m ∈ ns, Ok w m) →
      R w (w.mapDocument fun d => d.appendChildren root ns))
    {w w' : World κ σ} {result : Except ViewError Unit} (hroot : Ok w root)
    (hc : compile env kit root w = some (result, w')) : R w w' := by
  simp only [DataBinding.compile, Run.bind_eq_some, Run.get_eq_some, Run.modify_eq_some,
    Run.pure_eq_some, Run.holding_eq_some] at hc
  obtain ⟨_, _, ⟨rfl, rfl⟩, _, _, rfl, _, _, ⟨w₂, hc, rfl⟩, _, _, rfl, rfl, rfl⟩ := hc
  have hr₁ := hdetach w
  have hnodes : ∀ n ∈ w.document.children root, Ok w n := fun n => hwalk.down w root n hroot
  have hr₂ := h.hold (h.compileNodes hwalk hbind
    (fun n hn => hwalk.held _ n _ (hwalk.stays _ _ n hr₁ (hnodes n hn))) hc)
  have hr₁₂ := h.trans _ _ _ hr₁ hr₂
  refine h.trans _ _ _ hr₁₂ (happend _ _ (hwalk.stays _ _ root hr₁₂ hroot) fun n hn => ?_)
  exact hwalk.stays _ _ n hr₁₂ (hnodes n hn)

theorem mount (h : Carried R) (hwalk : Walk R Ok)
    (hbind : ∀ n (d : Directive) expression {w u w'}, Ok w n →
      d.bind env n expression kit w = some (u, w') → R w w')
    {place : Mount} {w : World κ σ}
    (hdetach : ∀ root, place.resolve w.document = .ok root →
      ∀ w, R w (w.mapDocument fun d => d.detachChildren root))
    (happend : ∀ root, place.resolve w.document = .ok root → ∀ w ns, Ok w root →
      (∀ m ∈ ns, Ok w m) → R w (w.mapDocument fun d => d.appendChildren root ns))
    (hobserve : ∀ hook v, Run.Moves R (observe hook v)) {hook : Hook κ}
    {w' : World κ σ} {result : Except ViewError (App κ)}
    (hplace : ∀ root, place.resolve w.document = .ok root → Ok w root)
    (hm : mount env place hook kit w = some (result, w')) : R w w' := by
  obtain ⟨_, _, hget, hm⟩ := Run.bind_eq_some.mp hm
  obtain ⟨rfl, rfl⟩ := Run.get_eq_some.mp hget
  cases hresolve : place.resolve w.document with
  | error e =>
    rw [hresolve] at hm
    rw [(Run.pure_eq_some.mp hm).2]
    exact h.refl w'
  | ok root =>
    rw [hresolve] at hm
    obtain ⟨_, w₁, hobs, hm⟩ := Run.bind_eq_some.mp hm
    obtain ⟨compiled, w₂, hc, hm⟩ := Run.bind_eq_some.mp hm
    have hr₁ := hobserve hook _ hobs
    have hroot := hwalk.stays _ _ root hr₁ (hplace root hresolve)
    have hr₂ := h.trans _ _ _ hr₁ (h.compile hwalk hbind (hdetach root hresolve)
      (happend root hresolve) hroot hc)
    cases compiled with
    | error e =>
      rw [← (Run.pure_eq_some.mp hm).2]
      exact hr₂
    | ok u =>
      obtain ⟨_, _, hget, hm⟩ := Run.bind_eq_some.mp hm
      obtain ⟨rfl, rfl⟩ := Run.get_eq_some.mp hget
      rw [← (Run.pure_eq_some.mp hm).2]
      exact hr₂

end Carried

/-! ## Requests -/

/-- Whether a request is made of others: of accesses, of events or of bindings. -/
def Request.isCompound {κ α : Type} : Request κ α → Bool
  | .read _ _ => true
  | .render _ _ => true
  | .dispatch _ _ => true
  | .enter _ _ => true
  | .bind _ _ _ _ => true
  | .compile _ _ => true
  | .mount _ _ _ => true
  | .getProperty _ _ => true
  | .setProperty _ _ _ => true
  | .callMethod _ _ _ => true
  | _ => false

/-- What has to be known of a relation to know it of every request that may be made. `Good` are
the worlds that the relation says something of, `Ok` the nodes that may be bound. -/
structure Steps (env : Env κ σ) (R : World κ σ → World κ σ → Prop) (Good : World κ σ → Prop)
    (Ok : World κ σ → NodeId → Prop) (may : {α : Type} → World κ σ → Request κ α → Bool) :
    Prop where
  carried : Carried R
  hooks : env.HooksRead
  calls : env.CallsMove R
  guard : ∀ {w w'}, (Good w → R w w') → R w w'
  walk : Carried.Walk R Ok
  reads : ∀ {w w'}, w.Reads w' → R w w'
  simple : ∀ {α : Type} (r : Request κ α) {w a w'}, r.isCompound = false → may w r = true →
    r.perform env w = some (a, w') → R w w'
  observe : ∀ hook v, Run.Moves R (observe hook v)
  writeText : ∀ o key text, Run.Moves R (write env o key (.text text))
  setProperty : ∀ {app key v w u w'}, may w (.setProperty app key v) = true →
    write env app.data key v w = some (u, w') → R w w'
  enter : ∀ {n text w}, may w (.enter n text) = true →
    R w (w.mapDocument fun d => d.setValue n text)
  bind : ∀ n (d : Directive) expression kit {w u w'}, Ok w n →
    d.bind env n expression kit w = some (u, w') → R w w'
  detach : ∀ w n, R w (w.mapDocument fun d => d.detachChildren n)
  append : ∀ w n ns, Ok w n → (∀ m ∈ ns, Ok w m) →
    R w (w.mapDocument fun d => d.appendChildren n ns)
  okBind : ∀ {d n expression kit w}, Good w → may w (.bind d n expression kit) = true → Ok w n
  okCompile : ∀ {kit root w}, Good w → may w (.compile kit root) = true → Ok w root
  okMount : ∀ {place hook kit w}, Good w → may w (.mount place hook kit) = true →
    ∀ root, place.resolve w.document = .ok root → Ok w root

/-- A property is set by a write to its field. Where there is none, nothing happens. -/
theorem App.set_cases {env : Env κ σ} {app : App κ} {key : String} {v : Value} {w w' : World κ σ}
    {result : Except ViewError Unit} (h : app.set env key v w = some (result, w')) :
    (app.exposes key = true ∧ result = .ok () ∧ write env app.data key v w = some ((), w')) ∨
      (app.exposes key = false ∧ result = .error (.unknownProperty key) ∧ w' = w) := by
  unfold App.set at h
  split at h
  · next hkey =>
    obtain ⟨_, w₁, hwrite, hpure⟩ := Run.bind_eq_some.mp h
    obtain ⟨rfl, rfl⟩ := Run.pure_eq_some.mp hpure
    exact .inl ⟨hkey, rfl, hwrite⟩
  · next hkey =>
    obtain ⟨rfl, rfl⟩ := Run.pure_eq_some.mp h
    exact .inr ⟨by simpa using hkey, rfl, rfl⟩

/-- Every request that may be made moves the world along the relation. -/
theorem Steps.request {env : Env κ σ} {R : World κ σ → World κ σ → Prop} {Good : World κ σ → Prop}
    {Ok : World κ σ → NodeId → Prop} {may : {α : Type} → World κ σ → Request κ α → Bool}
    (h : Steps env R Good Ok may) {α : Type} (r : Request κ α) {w w' : World κ σ} {a : α}
    (hmay : may w r = true) (hr : r.perform env w = some (a, w')) : R w w' := by
  have hevent : ∀ n event, Run.Moves R (dispatch env n event) :=
    h.carried.dispatch h.calls h.writeText
  have hbind : ∀ (kit : Kit κ) n (d : Directive) expression {w u w'}, Ok w n →
      d.bind env n expression kit w = some (u, w') → R w w' :=
    fun kit n d expression _ _ _ => h.bind n d expression kit
  -- compound requests are taken apart into steps; all others are steps themselves
  cases r with
  | read | render | getProperty => exact h.reads (h.hooks.perform_reads rfl hr)
  | dispatch n event => exact hevent n event hr
  | enter n text =>
    obtain ⟨_, w₁, hset, hr⟩ := Run.bind_eq_some.mp hr
    obtain rfl := Run.modify_eq_some.mp hset
    exact h.carried.trans _ _ _ (h.enter hmay) (hevent n _ hr)
  | bind d n expression kit =>
    exact h.guard fun hw => h.bind n d expression kit (h.okBind hw hmay) hr
  | compile kit root =>
    exact h.guard fun hw => h.carried.compile h.walk (hbind kit) (fun w => h.detach w root)
      (fun w => h.append w root) (h.okCompile hw hmay) hr
  | mount place hook kit =>
    exact h.guard fun hw => h.carried.mount h.walk (hbind kit) (fun root _ w => h.detach w root)
      (fun root _ w => h.append w root) h.observe (h.okMount hw hmay) hr
  | setProperty app key v =>
    rcases App.set_cases hr with ⟨_, _, hwrite⟩ | ⟨_, _, rfl⟩
    · exact h.setProperty hmay hwrite
    · exact h.carried.refl _
  | callMethod method o event => exact h.carried.holding _ (h.calls _ _ rfl) hr
  | _ => exact h.simple _ rfl hmay hr

/-! ## Whole runs -/

namespace Carried

variable {R : World κ σ → World κ σ → Prop} {env : Env κ σ}

/-- A step that is along a relation while a watcher collects that may be entered is along it from
the world before the watcher was entered to the world after it was left. -/
def EntersAlong (R : World κ σ → World κ σ → Prop) (mayEnter : World κ σ → WatcherId → Bool) :
    Prop :=
  ∀ ⦃w w' i⦄, mayEnter w i = true → R { w with current := some i } w' →
    R w { w' with current := w.current }

theorem EntersAlong.nobody : EntersAlong R fun _ _ => false :=
  fun _ _ _ h => absurd h Bool.false_ne_true

/-- Every program moves the world as its requests do, if it does so while a watcher is let
collect that may be entered. -/
theorem execUnder (h : Carried R)
    {rule : {α : Type} → Option Occasion → World κ σ → Request κ α → Bool}
    {mayEnter : World κ σ → WatcherId → Bool} {on : Option Occasion}
    (hon : on.any Occasion.isAccess = false)
    (huser : ∀ w (f : σ → σ), R w { w with user := f w.user })
    (hslot : EntersAlong R mayEnter)
    (hrequest : ∀ {α : Type} (r : Request κ α) {w a w'}, rule on w r = true →
      r.perform env w = some (a, w') → R w w')
    {α : Type} (p : Program κ σ α) :
    Run.Moves R (p.execUnder (.orderly rule mayEnter) on env) := by
  induction p with
  | done a => exact h.pure a
  | andThen p next ihp ihn => exact h.bind ihp ihn
  | ask q => exact .after_get fun w => h.pure _
  | request r =>
    intro w a w' hw
    obtain ⟨_, _, hget, hw⟩ := Run.bind_eq_some.mp hw
    obtain ⟨rfl, rfl⟩ := Run.get_eq_some.mp hget
    have hmay : (Conduct.orderly rule mayEnter).mayRequest on w r = rule on w r := by
      simp [Conduct.orderly, hon]
    rw [hmay] at hw
    split at hw
    · next hrule => exact hrequest r hrule hw
    · exact absurd hw (by simp)
  | getUser => exact .after_get fun w => h.pure _
  | updateUser f => exact .modify fun w => huser w f
  | holding hs p ih => exact h.holding hs ih
  | collecting i p ih =>
    intro w a w' hw
    obtain ⟨_, _, hget, hw⟩ := Run.bind_eq_some.mp hw
    obtain ⟨rfl, rfl⟩ := Run.get_eq_some.mp hget
    have hmay : (Conduct.orderly rule mayEnter).mayCollect on w i = mayEnter w i := by
      simp [Conduct.orderly, hon]
    rw [hmay] at hw
    split at hw
    · next henter =>
      obtain ⟨w₁, h₁, rfl⟩ := Run.collecting_eq_some.mp hw
      exact hslot henter (h.hold (w := { w with current := some i }) (ih h₁))
    · exact absurd hw (by simp)

end Carried

/-- What is known of the environment of callbacks when a request is made. -/
structure Env.Orderly (env : Env κ σ) (host : Host κ σ) (R : World κ σ → World κ σ → Prop) :
    Prop where
  handles : env.handles = host.handles
  hooks : env.HooksRead
  calls : env.CallsMove R

/-- A carried relation along which all requests within the rules move the world, if the callbacks
they run do, is kept by all callbacks at every depth. -/
theorem Host.envUnder_orderly_of_requests {host : Host κ σ} {R : World κ σ → World κ σ → Prop}
    (h : Carried R) {rule : {α : Type} → Option Occasion → World κ σ → Request κ α → Bool}
    {mayEnter : World κ σ → WatcherId → Bool}
    (huser : ∀ w (f : σ → σ), R w { w with user := f w.user })
    (hslot : Carried.EntersAlong R mayEnter)
    (hrequest : ∀ {env : Env κ σ} {occasion : Occasion}, env.Orderly host R →
      occasion.isAccess = false → ∀ {α : Type} (r : Request κ α) {w a w'},
        rule (some occasion) w r = true → r.perform env w = some (a, w') → R w w')
    (depth : Nat) : (host.envUnder (.orderly rule mayEnter) depth).Orderly host R := by
  induction depth with
  | zero => exact ⟨rfl, fun _ _ _ => .failure, fun _ _ _ => .failure⟩
  | succ depth ih =>
    refine ⟨rfl, host.envUnder_hooksRead rule (depth + 1), fun code occasion ho => ?_⟩
    have hon : (some occasion).any Occasion.isAccess = false := by simpa using ho
    exact h.execUnder hon huser hslot (fun r => hrequest ih ho r) (host.body code occasion)

/-- Such a relation holds between the worlds before and after every orderly run. -/
theorem Host.runUnder_moves_of_requests {host : Host κ σ} {R : World κ σ → World κ σ → Prop}
    (h : Carried R) {rule : {α : Type} → Option Occasion → World κ σ → Request κ α → Bool}
    {mayEnter : World κ σ → WatcherId → Bool}
    (huser : ∀ w (f : σ → σ), R w { w with user := f w.user })
    (hslot : Carried.EntersAlong R mayEnter)
    (hrequest : ∀ {env : Env κ σ} {on : Option Occasion}, env.Orderly host R →
      on.any Occasion.isAccess = false → ∀ {α : Type} (r : Request κ α) {w a w'},
        rule on w r = true → r.perform env w = some (a, w') → R w w')
    {depth : Nat} {α : Type} {p : Program κ σ α} {w w' : World κ σ} {a : α}
    (hrun : host.run depth p w = some (a, w'))
    (hob : host.Obeys (.orderly rule mayEnter) depth p w) : R w w' := by
  rw [Host.run_eq_runUnder hob] at hrun
  have henv := Host.envUnder_orderly_of_requests h huser hslot
    (fun henv ho => hrequest henv (by simpa using ho)) depth
  exact h.execUnder rfl huser hslot (fun r => hrequest henv rfl r) p hrun

/-- A carried relation that the steps within the rules keep to, if the callbacks they run do, is
kept by all callbacks at every depth. -/
theorem Host.envUnder_orderly {host : Host κ σ} {R : World κ σ → World κ σ → Prop}
    (h : Carried R) {rule : {α : Type} → Option Occasion → World κ σ → Request κ α → Bool}
    (huser : ∀ w (f : σ → σ), R w { w with user := f w.user })
    {Good : World κ σ → Prop} {Ok : World κ σ → NodeId → Prop}
    (hsteps : ∀ {env : Env κ σ} {occasion : Occasion}, env.Orderly host R →
      occasion.isAccess = false → Steps env R Good Ok (rule (some occasion))) (depth : Nat) :
    (host.envUnder (.orderly rule) depth).Orderly host R :=
  Host.envUnder_orderly_of_requests h huser .nobody
    (fun henv ho _ r => (hsteps henv ho).request r) depth

/-- Such a relation holds between the worlds before and after every orderly run. -/
theorem Host.runUnder_moves {host : Host κ σ} {R : World κ σ → World κ σ → Prop}
    (h : Carried R) {rule : {α : Type} → Option Occasion → World κ σ → Request κ α → Bool}
    (huser : ∀ w (f : σ → σ), R w { w with user := f w.user })
    {Good : World κ σ → Prop} {Ok : World κ σ → NodeId → Prop}
    (hsteps : ∀ {env : Env κ σ} {on : Option Occasion}, env.Orderly host R →
      on.any Occasion.isAccess = false → Steps env R Good Ok (rule on))
    {depth : Nat} {α : Type} {p : Program κ σ α} {w w' : World κ σ} {a : α}
    (hrun : host.run depth p w = some (a, w')) (hob : host.Obeys (.orderly rule) depth p w) :
    R w w' :=
  Host.runUnder_moves_of_requests h huser .nobody
    (fun henv ho _ r => (hsteps henv ho).request r) hrun hob

end DataBinding
