import DataBinding.Proofs.Depth
import DataBinding.Proofs.Hushing
import DataBinding.Proofs.Notes

/-!
# Runs in silence

Hooks that take notes come to an end, change nothing but their notes and answer nothing, and nobody
else reads the notes. So whatever is done under such hooks is what is done in silence, with notes
taken beside it: the one ends when the other does, with the same answer, and leaves the same world
but for the hooks and their notes.

This is an equation for each operation, and for user code by induction on the program.
-/

namespace DataBinding

variable {κ σ ρ α β : Type}

/-! ## Runs in silence -/

/-- Under hooks the run does what another one does in silence. -/
def Run.Hushes (m : Run κ (σ × ρ) α) (m₀ : Run κ σ α) : Prop :=
  ∀ w, (m w).map (Prod.map id World.hushed) = m₀ w.hushed

namespace Run.Hushes

variable {m : Run κ (σ × ρ) α} {m₀ : Run κ σ α}

/-- The run in silence ends exactly when the one with notes does, in the same world hushed. -/
theorem eq_some_iff (h : Hushes m m₀) {w : World κ (σ × ρ)} {a : α} {v : World κ σ} :
    m₀ w.hushed = some (a, v) ↔ ∃ w₁, m w = some (a, w₁) ∧ w₁.hushed = v := by
  rw [← h w, Option.map_eq_some_iff]
  constructor
  · rintro ⟨⟨b, w₁⟩, hm, heq⟩
    obtain ⟨rfl, rfl⟩ := Prod.mk.inj heq
    exact ⟨w₁, hm, rfl⟩
  · rintro ⟨w₁, hm, rfl⟩
    exact ⟨(a, w₁), hm, rfl⟩

theorem pure (a : α) : Hushes (κ := κ) (σ := σ) (ρ := ρ) (Pure.pure a) (Pure.pure a) := fun _ => rfl

theorem failure : Hushes (κ := κ) (σ := σ) (ρ := ρ) (α := α) failure failure := fun _ => rfl

theorem bind {f : α → Run κ (σ × ρ) β} {f₀ : α → Run κ σ β} (hm : Hushes m m₀)
    (hf : ∀ a, Hushes (f a) (f₀ a)) : Hushes (m >>= f) (m₀ >>= f₀) := by
  intro w
  show ((m w).bind fun r => f r.1 r.2).map _ = (m₀ w.hushed).bind fun r => f₀ r.1 r.2
  rw [← hm w]
  cases m w with
  | none => rfl
  | some r => exact hf r.1 r.2

/-- What is seen in silence is the world hushed. -/
theorem after_get {f : World κ (σ × ρ) → Run κ (σ × ρ) α} {f₀ : World κ σ → Run κ σ α}
    (hf : ∀ w, Hushes (f w) (f₀ w.hushed)) : Hushes (get >>= f) (get >>= f₀) :=
  fun w => hf w w

theorem modify {f : World κ (σ × ρ) → World κ (σ × ρ)} {f₀ : World κ σ → World κ σ}
    (hf : ∀ w, (f w).hushed = f₀ w.hushed) : Hushes (modify f) (modify f₀) :=
  fun w => congrArg (fun v => some ((), v)) (hf w)

theorem changing {f : World κ (σ × ρ) → α × World κ (σ × ρ)} {f₀ : World κ σ → α × World κ σ}
    (hf : ∀ w, ((f w).1, (f w).2.hushed) = f₀ w.hushed) :
    Hushes (Request.changing f) (Request.changing f₀) :=
  fun w => congrArg some (hf w)

theorem discard (hm : Hushes m m₀) : Hushes (Functor.discard m) (Functor.discard m₀) :=
  bind hm fun _ => pure _

theorem holding (hs : List Handle) (hm : Hushes m m₀) :
    Hushes (Run.holding hs m) (Run.holding hs m₀) :=
  after_get fun _ => bind (modify fun _ => rfl) fun _ => bind hm fun _ =>
    bind (modify fun _ => rfl) fun _ => pure _

theorem collecting (i : WatcherId) (hm : Hushes m m₀) :
    Hushes (Run.collecting i m) (Run.collecting i m₀) :=
  after_get fun _ => bind (modify fun _ => rfl) fun _ => bind (holding _ hm) fun _ =>
    bind (modify fun _ => rfl) fun _ => pure _

end Run.Hushes

/-- Hooks take notes in the first environment, and all else that is called does what it does in the
second one in silence. -/
structure Env.Hushes (env : Env κ (σ × ρ)) (env₀ : Env κ σ) : Prop where
  notes : env.HooksTakeNotes
  calls : ∀ code occasion, occasion.isAccess = false →
    Run.Hushes (env.call code occasion) (env₀.call code occasion)
  handles : ∀ u, env.handles u = env₀.handles u.1
  depth : env.depth = env₀.depth

namespace Env.Hushes

variable {env : Env κ (σ × ρ)} {env₀ : Env κ σ}

/-- Who is told of an access goes unheard. -/
theorem tell (h : env.Hushes env₀) (hook : Hook κ) {occasion : Occasion}
    (hon : occasion.isAccess = true) :
    Run.Hushes (env.tell hook occasion) (env₀.tell .silent occasion) := by
  intro w
  obtain ⟨user, hsame, htell⟩ := h.notes hook occasion hon w
  rw [htell]
  exact congrArg (fun user => some ((), { w.hushed with user })) hsame

/-! ## Reading -/

/-- Who reads is subscribed, whether the hook is told or not. -/
theorem read (h : env.Hushes env₀) (o : ObjectId) (key : String) :
    Run.Hushes (read env o key) (read env₀ o key) := by
  refine .after_get fun w => ?_
  rw [World.heap_hushed, Heap.slot?_hushed]
  cases w.heap.slot? o key with
  | none => exact .pure _
  | some s =>
    cases s with
    | plain v => exact .pure _
    | reactive c =>
      exact .bind (.modify fun w => w.hushed_subscribeCurrent o key) fun _ =>
        .bind (.holding _ (h.tell c.hook rfl)) fun _ => .pure _

/-- What is seen in silence is the world hushed. -/
theorem sideBySide (h : env.Hushes env₀) :
    SideBySide env env₀ (fun w v => w.hushed = v) (@Run.Hushes κ σ ρ) where
  pure := .pure
  bind := .bind
  sight :=
    { isAlive := fun {w _} hv o => by rw [← hv, w.isAlive_hushed h.handles]
      watcher? := fun hv i => by rw [← hv, World.watcher?_hushed]
      document := fun hv => by rw [← hv, World.document_hushed]
      peek := fun hv o key => by rw [← hv, World.heap_hushed, Heap.peek_hushed]
      text := fun hv v => by rw [← hv, World.heap_hushed, Heap.text_hushed]
      subscribers := fun hv o key => by rw [← hv, World.heap_hushed, Heap.subscribers_hushed]
      keys := fun hv o => by rw [← hv, World.heap_hushed, Heap.keys_slots_hushed] }
  after_get hf := .after_get fun w => hf w w.hushed rfl
  discard := .discard
  holding := .holding
  edit _ := .modify fun _ => rfl
  read := h.read

/-- A new watcher has seen what it would have seen in silence. -/
theorem watch (h : env.Hushes env₀) (expression : String) (o : ObjectId) (reaction : Reaction κ) :
    Run.Hushes (watch env expression o reaction) (watch env₀ expression o reaction) :=
  .after_get fun _ => .bind (.pure ()) fun _ => .bind (.modify fun _ => rfl) fun _ =>
    .bind (.holding _ (.collecting _ (h.read o _))) fun _ =>
      .bind (.modify fun _ => rfl) fun _ => .bind (.pure ()) fun _ => .pure _

/-! ## Writing -/

/-- What a watcher does about a change is no access, so no hook has a part in it. -/
theorem update (h : env.Hushes env₀) (i : WatcherId) :
    Run.Hushes (update env i) (update env₀ i) :=
  h.sideBySide.update (fun code _ => h.calls code _ rfl) (fun _ _ => .modify fun _ => rfl) i

/-- Whichever hook is chosen for what is observed, it is not heard. -/
theorem observe (hook : Hook κ) (v : Value) :
    Run.Hushes (σ := σ) (ρ := ρ) (observe hook v) (observe .silent v) :=
  .modify fun w => w.hushed_mapHeap fun h => h.hushed_intercept hook [v]

/-- The hook stands between observing the new value and storing it, and is not heard there. -/
theorem write (h : env.Hushes env₀) (o : ObjectId) (key : String) (v : Value) :
    Run.Hushes (write env o key v) (write env₀ o key v) := by
  refine .after_get fun w => ?_
  rw [World.heap_hushed, Heap.cell?_hushed]
  cases w.heap.cell? o key with
  | none => exact .modify fun w => w.hushed_mapHeap fun h => h.hushed_putPlain o key v
  | some c =>
    dsimp only [Option.map_some]
    show Run.Hushes _ (if c.value.strictEq v then _ else _)
    split
    · exact .pure ()
    · exact .bind (observe c.hook v) fun _ => .bind (.holding _ (h.tell c.hook rfl)) fun _ =>
        .bind (.modify fun w => w.hushed_mapHeap fun h => h.hushed_store o key v) fun _ =>
          .holding _ (h.sideBySide.notify h.update o key)

/-! ## Events and bindings -/

theorem deliver (h : env.Hushes env₀) (event : Event) (l : Listener κ) :
    Run.Hushes (l.deliver env event) (l.deliver env₀ event) :=
  h.sideBySide.deliver (fun code _ _ => h.calls code _ rfl) (fun code _ => h.calls code _ rfl)
    h.write event l

/-- The walks of compilations are as deep on both sides. -/
theorem buildsSideBySide (h : env.Hushes env₀) :
    BuildsSideBySide env env₀ (fun w v => w.hushed = v) (@Run.Hushes κ σ ρ) where
  toSideBySide := h.sideBySide
  watch := h.watch
  depth := h.depth.le
  stuck hm' := by
    rw [hm' h.depth.symm]
    exact .failure

/-! ## User code -/

/-- Every request is hushed by choosing no hook in it. -/
theorem perform (h : env.Hushes env₀) (r : Request κ α) :
    Run.Hushes (r.perform env) (r.hushed.perform env₀) := by
  have hside : SideBySide env env₀ (fun w v => w.hushed = v) (@Run.Hushes κ σ ρ) := h.sideBySide
  have hbuilds : BuildsSideBySide env env₀ (fun w v => w.hushed = v) (@Run.Hushes κ σ ρ) :=
    h.buildsSideBySide
  cases r with
  | newObject =>
    refine .changing fun w => ?_
    dsimp only
    rw [World.heap_hushed, Heap.hushed_alloc]
    rfl
  | newArray items => exact .changing fun _ => rfl
  | ofJson j =>
    refine .changing fun w => ?_
    dsimp only
    rw [World.heap_hushed, Heap.hushed_ofJson]
    rfl
  | read o key => exact h.read o key
  | write o key v => exact h.write o key v
  | observe hook v => exact observe hook v
  | watch expression o code => exact h.watch expression o _
  | update i => exact h.update i
  | render t o => exact hside.render t o
  | dispatch n event => exact hside.dispatch h.deliver n event
  | enter n text => exact hside.enter h.deliver n text
  | bind d n expression kit => exact hbuilds.directive n expression kit d
  | compile kit root => exact hbuilds.compile kit root
  | mount place hook kit => exact hbuilds.mount place (observe hook) kit
  | getProperty app key => exact hside.getProperty (h.read app.data) key
  | setProperty app key v => exact hside.setProperty (h.write app.data) key v
  | callMethod method data event => exact .holding _ (h.calls method _ rfl)
  | newNode content | detachChildren n => exact .changing fun _ => rfl
  | setAttribute | setText | setValue | appendChildren | listen => exact .modify fun _ => rfl

/-- User code under hooks does what it does in silence. -/
theorem exec (h : env.Hushes env₀) (p : Program κ σ α) :
    Run.Hushes (p.beside.exec env) (p.hushed.exec env₀) := by
  induction p with
  | done a => exact .pure a
  | andThen p next ihp ihn => exact .bind ihp ihn
  | ask q =>
    refine .after_get fun w => ?_
    rw [Query.answer_hushed h.handles]
    exact .pure _
  | request r => exact h.perform r
  | getUser => exact fun w => rfl
  | updateUser f => exact .modify fun _ => rfl
  | holding handles p ih => exact .holding handles ih
  | collecting i p ih => exact .collecting i ih

end Env.Hushes

end DataBinding
