import DataBinding.Proofs.Conduct

/-!
# Accounts of runs

A run tells nothing but its end. An `Account` is a run together with what happens to watchers
meanwhile: when one is begun and when it is built, and when one fires, each with the world of that
moment. A run that has no answer has an account all the same, of what happened before it got stuck.

Operations are written for any monad that takes notes, so they have accounts as they are. `watch`
takes a note before its first step and after its last, and `update` right before the reaction, which
nothing else calls. `run_account` says that the run of the account of a program is the run of the
program.
-/

namespace DataBinding

open Noting (note)

/-- The watcher that something happens to. -/
def Happening.watcher : Happening → WatcherId
  | begun i => i
  | built i _ => i
  | fired i _ => i

/-- What happens to watchers in a row, each with the world of that moment. -/
abbrev Chronicle (κ σ : Type) := List (Happening × World κ σ)

/-- A run, and what happens in it. -/
structure Account (κ σ α : Type) where
  run : Run κ σ α
  events : World κ σ → Chronicle κ σ

variable {κ σ : Type}

namespace Account

variable {α β : Type}

/-- A run in which nothing happens. -/
def ofRun (m : Run κ σ α) : Account κ σ α := ⟨m, fun _ => []⟩

/-- One run after the other. What would happen in the second is left out if the first gets stuck. -/
def andThen (m : Account κ σ α) (f : α → Account κ σ β) : Account κ σ β where
  run := m.run >>= fun a => (f a).run
  events w := m.events w ++
    match m.run w with
    | none => []
    | some (a, w') => (f a).events w'

/-- One run, and another one if it gets stuck. What has happened by then stays in the account. -/
def orElse (m : Account κ σ α) (m' : Unit → Account κ σ α) : Account κ σ α where
  run := m.run <|> (m' ()).run
  events w := m.events w ++
    match m.run w with
    | none => (m' ()).events w
    | some _ => []

instance : Monad (Account κ σ) where
  pure a := ofRun (pure a)
  bind := andThen
  map f m := ⟨f <$> m.run, m.events⟩

instance : Alternative (Account κ σ) where
  failure := ofRun failure
  orElse := orElse

instance : MonadState (World κ σ) (Account κ σ) where
  get := ofRun get
  set w := ofRun (set w)
  modifyGet f := ofRun (modifyGet f)

/-- A note is taken with the world of the moment. -/
instance : Noting (Account κ σ) := ⟨fun h => ⟨pure (), fun w => [(h, w)]⟩⟩

/-! ## The runs of accounts -/

section Run

variable (m : Account κ σ α)

/-- Putting accounts together puts their runs together, so the run of an operation that is written
for any monad is that operation, written for runs. -/
@[simp] theorem run_pure (a : α) : (pure a : Account κ σ α).run = pure a := rfl

@[simp] theorem run_bind (f : α → Account κ σ β) :
    (m >>= f).run = m.run >>= fun a => (f a).run := rfl

@[simp] theorem run_map (f : α → β) : (f <$> m).run = f <$> m.run := rfl

@[simp] theorem run_discard : (discard m).run = discard m.run := rfl

@[simp] theorem run_failure : (failure : Account κ σ α).run = failure := rfl

@[simp] theorem run_get : (get : Account κ σ (World κ σ)).run = get := rfl

@[simp] theorem run_modify (f : World κ σ → World κ σ) :
    (modify f : Account κ σ Unit).run = modify f := rfl

@[simp] theorem run_changing (f : World κ σ → α × World κ σ) :
    (Request.changing f : Account κ σ α).run = Request.changing f := rfl

/-- Taking a note changes nothing. -/
@[simp] theorem run_note (h : Happening) : (note h : Account κ σ Unit).run = pure () := rfl

@[simp] theorem run_holding (hs : List Handle) :
    (Run.holding hs m).run = Run.holding hs m.run := rfl

@[simp] theorem run_collecting (i : WatcherId) :
    (Run.collecting i m).run = Run.collecting i m.run := rfl

/-- The choice between two accounts is the one between their runs. -/
@[simp] theorem run_ite (P : Prop) [Decidable P] (m' : Account κ σ α) :
    (if P then m else m').run = if P then m.run else m'.run :=
  apply_ite run P m m'

end Run

/-- When it is known how a first run ends, the rest is the run of what follows. -/
theorem run_bind_of_some {m : Account κ σ α} {f : α → Account κ σ β} {w w' : World κ σ} {a : α}
    (hm : m.run w = some (a, w')) : (m >>= f).run w = (f a).run w' :=
  Run.bind_eq_of_eq_some hm

/-! ## What happens in accounts -/

/-- A second account has no part in what happens if the first run gets stuck. -/
theorem events_bind (m : Account κ σ α) (f : α → Account κ σ β) (w : World κ σ) :
    (m >>= f).events w = m.events w ++
      match m.run w with
      | none => []
      | some (a, w') => (f a).events w' := rfl

/-- What happens in the second of two runs happens from where the first has led. -/
theorem events_bind_of_some {m : Account κ σ α} {f : α → Account κ σ β} {w w' : World κ σ} {a : α}
    (hm : m.run w = some (a, w')) :
    (m >>= f).events w = m.events w ++ (f a).events w' := by
  rw [events_bind, hm]

/-- Looking at the world is nothing that happens. -/
theorem events_get (f : World κ σ → Account κ σ α) (w : World κ σ) :
    (get >>= f).events w = (f w).events w := rfl

/-- A change of the world is nothing that happens, but what happens later happens from there. -/
theorem events_modify (f : World κ σ → World κ σ) (m : Account κ σ α) (w : World κ σ) :
    (modify f >>= fun _ => m).events w = m.events (f w) := rfl

/-- Answering is nothing that happens. -/
theorem events_bind_pure (m : Account κ σ α) (f : α → β) (w : World κ σ) :
    (m >>= fun a => pure (f a)).events w = m.events w := by
  rw [events_bind, List.append_right_eq_self]
  cases m.run w <;> rfl

/-- While things are held, what happens is what happens from the world in which they are. -/
theorem events_holding (hs : List Handle) (m : Account κ σ α) (w : World κ σ) :
    (Run.holding hs m).events w = m.events { w with held := hs ++ w.held } := by
  unfold Run.holding
  rw [events_get, events_modify, events_bind, List.append_right_eq_self]
  cases m.run { w with held := hs ++ w.held } <;> rfl

/-- So it is while a watcher collects. -/
theorem events_collecting (i : WatcherId) (m : Account κ σ α) (w : World κ σ) :
    (Run.collecting i m).events w = m.events { w with
      current := some i
      held := w.current.toList.map .watcher ++ w.held } := by
  unfold Run.collecting
  rw [events_get, events_modify, events_bind, events_holding, List.append_right_eq_self]
  cases Account.run (Run.holding (w.current.toList.map .watcher) m) { w with current := some i }
  · rfl
  · rfl

end Account

/-- The world in which a watcher reacts. It has noted the value of its key, and is held together
with its data. -/
def World.reacting (w : World κ σ) (i : WatcherId) (x : Watcher κ) : World κ σ :=
  let value := w.heap.peek x.data x.key
  { w.setLast i value with
    held := (.watcher i :: .object x.data :: value.handles ++ x.last.handles) ++ w.held }

/-- An environment in which there are accounts of all calls. -/
abbrev Scribe (κ σ : Type) := Env κ σ (Account κ σ)

/-- The environment without the accounts. -/
def Scribe.plain (s : Scribe κ σ) : Env κ σ where
  call code occasion := (s.call code occasion).run
  handles := s.handles
  depth := s.depth

namespace Host

/-- The environment in which there are accounts of all callbacks, to a depth. -/
abbrev scribe (host : Host κ σ) (c : Conduct κ σ) (depth : Nat) : Scribe κ σ :=
  host.guarded c depth

/-- The account of a run under a conduct. -/
def account (host : Host κ σ) (c : Conduct κ σ) (depth : Nat) {α : Type} (p : Program κ σ α) :
    Account κ σ α :=
  p.execUnder c none (host.scribe c depth)

end Host

/-! ## Operations with accounts -/

/-- A call without its account is the run of the call. -/
@[simp] theorem Scribe.call_plain (s : Scribe κ σ) (code : κ) (occasion : Occasion) :
    s.plain.call code occasion = (s.call code occasion).run := rfl

@[simp] theorem Scribe.handles_plain (s : Scribe κ σ) : s.plain.handles = s.handles := rfl

namespace Account

variable (s : Scribe κ σ)

/-- A hook is told the same with and without an account. -/
@[simp] theorem run_tell (hook : Hook κ) (occasion : Occasion) :
    (s.tell hook occasion).run = s.plain.tell hook occasion := by
  cases hook <;> rfl

/-- Reads, and everything below, keep their runs: an account can be had of any operation without
writing the operation a second time. -/
@[simp] theorem run_read (o : ObjectId) (key : String) :
    (read s o key).run = read s.plain o key := by
  unfold read
  rw [run_bind, run_get]
  congr 1
  funext w
  cases w.heap.slot? o key with
  | none => rfl
  | some slot =>
    cases slot with
    | plain value => rfl
    | reactive cell => simp

@[simp] theorem run_renderSegment (o : ObjectId) (segment : Segment) :
    (segment.render s o).run = segment.render s.plain o := by
  cases segment <;> simp [Segment.render]

/-- By induction on the segments, each of which is read in turn. -/
@[simp] theorem run_renderSegments (o : ObjectId) (segments : List Segment) :
    (renderSegments s o segments).run = renderSegments s.plain o segments := by
  induction segments with
  | nil => rfl
  | cons segment rest ih => simp [renderSegments, ih]

@[simp] theorem run_render (t : Template) (o : ObjectId) :
    (t.render s o).run = t.render s.plain o :=
  run_renderSegments s o t.segments

/-- What a watcher does with a new value, up to the note that was taken before. -/
@[simp] theorem run_react (x : Watcher κ) (value : Value) :
    (x.react s value).run = x.react s.plain value := by
  unfold Watcher.react
  cases x.reaction <;> simp

/-- The note that a watcher fires leaves the update what it was. -/
@[simp] theorem run_update (i : WatcherId) : (update s i).run = update s.plain i := by
  unfold update
  rw [run_bind, run_get]
  congr 1
  funext w
  cases w.watcher? i <;> simp

/-- By induction on the watchers that are updated. -/
@[simp] theorem run_updateAll (is : List WatcherId) :
    (updateAll s is).run = updateAll s.plain is := by
  induction is with
  | nil => rfl
  | cons i rest ih => simp [updateAll, ih]

@[simp] theorem run_notify (o : ObjectId) (key : String) :
    (notify s o key).run = notify s.plain o key := by
  simp [notify]

/-- The steps of a write in their order: observing, telling, storing, notifying. -/
@[simp] theorem run_overwrite (o : ObjectId) (key : String) (cell : Cell κ) (value : Value) :
    (overwrite s o key cell value).run = overwrite s.plain o key cell value := by
  simp [overwrite]

/-- A write looks for a cell first, and both look into the same heap. -/
@[simp] theorem run_write (o : ObjectId) (key : String) (value : Value) :
    (write s o key value).run = write s.plain o key value := by
  unfold write
  rw [run_bind, run_get]
  congr 1
  funext w
  cases w.heap.cell? o key <;> simp

/-- The notes that a watcher is begun and built leave the building what it was. -/
@[simp] theorem run_watch (expression : String) (o : ObjectId) (reaction : Reaction κ) :
    (watch s expression o reaction).run = watch s.plain expression o reaction := by
  simp [watch]

/-- A listener writes back, calls a method, or runs code of the user's. -/
@[simp] theorem run_deliver (event : Event) (l : Listener κ) :
    (l.deliver s event).run = l.deliver s.plain event := by
  cases l with
  | writeBack o key =>
    unfold Listener.deliver
    cases event.value <;> simp
  | callMethod o name method =>
    cases method with
    | none => rfl
    | some code =>
      unfold Listener.deliver
      rw [run_bind, run_get]
      congr 1
      funext w
      rw [run_ite]
      rfl
  | custom code => rfl

/-- By induction on the listeners. An error stops both deliveries at the same listener. -/
@[simp] theorem run_deliverAll (event : Event) (ls : List (Listener κ)) :
    (deliverAll s event ls).run = deliverAll s.plain event ls := by
  induction ls with
  | nil => rfl
  | cons l rest ih =>
    unfold deliverAll
    rw [run_bind, run_deliver]
    congr 1
    funext result
    cases result with
    | error e => rfl
    | ok u => exact ih

@[simp] theorem run_dispatch (n : NodeId) (event : Event) :
    (dispatch s n event).run = dispatch s.plain n event := by
  simp [dispatch]

@[simp] theorem run_enter (n : NodeId) (text : String) :
    (enter s n text).run = enter s.plain n text := by
  simp [enter]

/-- Bindings are made of reads, watchers and changes to the document. -/
@[simp] theorem run_bindModel (n : NodeId) (expression : String) (o : ObjectId) :
    (bindModel s n expression o).run = bindModel s.plain n expression o := by
  simp [bindModel]

@[simp] theorem run_watchMarkers (n : NodeId) (t : Template) (o : ObjectId)
    (keys : List String) :
    (watchMarkers s n t o keys).run = watchMarkers s.plain n t o keys := by
  induction keys with
  | nil => rfl
  | cons key rest ih => simp [watchMarkers, ih]

@[simp] theorem run_bindText (n : NodeId) (expression : String) (o : ObjectId) (d : Dialect) :
    (bindText s n expression o d).run = bindText s.plain n expression o d := by
  simp [bindText]

/-- Whatever a directive binds, it binds the same with an account. -/
@[simp] theorem run_directive (n : NodeId) (expression : String) (kit : Kit κ)
    (directive : Directive) :
    (directive.bind s n expression kit).run = directive.bind s.plain n expression kit := by
  cases directive <;> simp [Directive.bind, bindEvent]

@[simp] theorem run_compileAttributes (kit : Kit κ) (n : NodeId)
    (attributes : List (String × String)) :
    (compileAttributes s kit n attributes).run = compileAttributes s.plain kit n attributes := by
  induction attributes with
  | nil => rfl
  | cons a rest ih =>
    unfold compileAttributes
    cases Directive.parse a.1 kit.dialect with
    | error e => rfl
    | ok parsed =>
      cases parsed with
      | none => exact ih
      | some directive => simp [ih]

@[simp] theorem run_compileNode (kit : Kit κ) (n : NodeId) :
    (compileNode s kit n).run = compileNode s.plain kit n := by
  unfold compileNode
  rw [run_bind, run_get]
  congr 1
  funext w
  cases w.document.content n <;> simp

/-- Along the recursion of the walk: the children one level down, then the siblings. -/
@[simp] theorem run_compileNodes (kit : Kit κ) (depth : Nat) (nodes : List NodeId) :
    (compileNodes s kit depth nodes).run = compileNodes s.plain kit depth nodes := by
  fun_induction compileNodes s.plain kit depth nodes with
  | case1 depth => simp [compileNodes]
  | case2 n rest => simp [compileNodes]
  | case3 depth n rest ihDown ihBeside =>
    rw [compileNodes, run_bind, run_compileNode]
    congr 1
    funext first
    cases first with
    | error e => rfl
    | ok u =>
      dsimp only
      rw [run_bind, run_get]
      congr 1
      funext w
      rw [run_bind, ihDown w]
      congr 1
      funext below
      cases below with
      | error e => rfl
      | ok u => exact ihBeside

@[simp] theorem run_compile (kit : Kit κ) (root : NodeId) :
    (compile s kit root).run = compile s.plain kit root := by
  simp [compile, Scribe.plain]

@[simp] theorem run_observe (hook : Hook κ) (value : Value) :
    (observe hook value : Account κ σ Unit).run = observe hook value := rfl

/-- Mounting resolves its place in the same document, and then observes and compiles. -/
@[simp] theorem run_mount (place : Mount) (hook : Hook κ) (kit : Kit κ) :
    (mount s place hook kit).run = mount s.plain place hook kit := by
  unfold mount
  rw [run_bind, run_get]
  congr 1
  funext w
  cases place.resolve w.document with
  | error e => rfl
  | ok root =>
    simp only [run_bind, run_observe, run_compile]
    congr 1
    funext u
    congr 1
    funext compiled
    cases compiled <;> simp

@[simp] theorem run_getProperty (app : App κ) (key : String) :
    (app.get s key).run = app.get s.plain key := by
  simp [App.get]

@[simp] theorem run_setProperty (app : App κ) (key : String) (value : Value) :
    (app.set s key value).run = app.set s.plain key value := by
  simp [App.set]

/-- What a request does is what the account of it has for a run. -/
@[simp] theorem run_perform {α : Type} (r : Request κ α) :
    (r.perform s).run = r.perform s.plain := by
  cases r <;> simp [Request.perform]

/-! ## Updates and writes -/

/-- An update that finds a new value tells of it, and then of what happens in the reaction. -/
theorem events_update_of_ne {i : WatcherId} {x : Watcher κ} {w : World κ σ}
    (hx : w.watcher? i = some x) (halive : w.isAlive s.handles x.data = true)
    (hne : x.last.strictEq (w.heap.peek x.data x.key) = false) :
    (update s i).events w = (.fired i (w.heap.peek x.data x.key), w.reacting i x) ::
      (x.react s (w.heap.peek x.data x.key)).events (w.reacting i x) := by
  unfold update
  rw [events_get, hx]
  dsimp only
  rw [if_pos halive, events_modify, hne, if_neg Bool.false_ne_true, events_holding]
  rfl

/-- In any other update nothing happens: no reaction goes without being told. -/
theorem events_update_eq_nil {i : WatcherId} {w : World κ σ}
    (h : ∀ x, w.watcher? i = some x → w.isAlive s.handles x.data = true →
      x.last.strictEq (w.heap.peek x.data x.key) = true) :
    (update s i).events w = [] := by
  unfold update
  rw [events_get]
  cases hx : w.watcher? i with
  | none => rfl
  | some x =>
    dsimp only
    by_cases halive : w.isAlive s.handles x.data = true
    · rw [if_pos halive, events_modify, h x hx halive, if_pos rfl]
      rfl
    · rw [if_neg halive]
      rfl

/-- What happens in a write that changes a field. -/
theorem events_write_of_ne {o : ObjectId} {key : String} {c : Cell κ} {v : Value} {w : World κ σ}
    (hc : w.heap.cell? o key = some c) (hne : c.value.strictEq v = false) :
    (write s o key v).events w = (overwrite s o key c v).events w := by
  unfold write
  rw [events_get, hc]
  dsimp only
  rw [if_neg (Bool.eq_false_iff.mp hne)]

end Account

/-- The account of user code, with its guard, is an account of the guarded run. -/
theorem Program.run_account (c : Conduct κ σ) (on : Option Occasion) (s : Scribe κ σ) {α : Type}
    (p : Program κ σ α) : (p.execUnder c on s).run = p.execUnder c on s.plain := by
  induction p with
  | andThen p next ihp ihn => simp [execUnder, ihp, ihn]
  | holding hs p ih => simp [execUnder, ih]
  | collecting i p ih => simp [execUnder, ih]
  | done | ask | request | getUser | updateUser => simp [execUnder]

/-- Callbacks at every depth have the runs that they have without accounts. -/
theorem Host.plain_scribe (host : Host κ σ) (c : Conduct κ σ) (depth : Nat) :
    (host.scribe c depth).plain = host.envUnder c depth := by
  induction depth with
  | zero => rfl
  | succ depth ih =>
    have hcall : ∀ code occasion, ((host.scribe c (depth + 1)).call code occasion).run =
        (host.envUnder c (depth + 1)).call code occasion := by
      intro code occasion
      show ((host.body code occasion).execUnder c (some occasion) (host.scribe c depth)).run = _
      rw [Program.run_account, ih]
      rfl
    show Env.mk _ _ _ = Env.mk _ _ _
    congr 1
    exact funext fun code => funext fun occasion => hcall code occasion

/-- The account of a program is an account of its run. -/
theorem Host.run_account (host : Host κ σ) (c : Conduct κ σ) (depth : Nat) {α : Type}
    (p : Program κ σ α) : (host.account c depth p).run = host.runUnder c depth p := by
  rw [account, Program.run_account, plain_scribe]
  rfl

end DataBinding
