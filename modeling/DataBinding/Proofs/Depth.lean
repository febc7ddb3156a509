import DataBinding.Proofs.SideBySide

/-!
# More depth gives the same answers

All operations are monotone in what they call: an environment that answers more often makes them
answer more often, and never otherwise. So a run that comes to its end at one depth comes to the
same end at every greater depth, and "the run ends" does not depend on the depth that shows it.
-/

namespace DataBinding

/-- Whatever the first run gives, the second gives too. -/
def Run.Below {κ σ α : Type} (m m' : Run κ σ α) : Prop := ∀ ⦃w r⦄, m w = some r → m' w = some r

/-- Whatever the first environment answers, the second answers too. -/
structure Env.Below {κ σ : Type} (e e' : Env κ σ) : Prop where
  call : ∀ code occasion, (e.call code occasion).Below (e'.call code occasion)
  handles : e.handles = e'.handles
  depth : e.depth ≤ e'.depth

variable {κ σ α β : Type}

namespace Run.Below

theorem refl (m : Run κ σ α) : m.Below m := fun _ _ h => h

theorem of_eq {m m' : Run κ σ α} (h : m = m') : m.Below m' := h ▸ refl m

/-- The second step starts where the first one ended, on both sides. -/
theorem bind {m m' : Run κ σ α} {f f' : α → Run κ σ β} (hm : m.Below m')
    (hf : ∀ a, (f a).Below (f' a)) : (m >>= f).Below (m' >>= f') := by
  intro w r h
  obtain ⟨a, w₁, h₁, h₂⟩ := bind_eq_some.mp h
  exact bind_eq_some.mpr ⟨a, w₁, hm h₁, hf a h₂⟩

/-- The step that looks at the world is the same on both sides. -/
theorem after_get {f f' : World κ σ → Run κ σ α} (hf : ∀ w, (f w).Below (f' w)) :
    (get >>= f).Below (get >>= f') :=
  bind (refl get) hf

theorem discard {m m' : Run κ σ α} (hm : m.Below m') :
    (Functor.discard m).Below (Functor.discard m') := by
  rintro w ⟨u, w'⟩ h
  obtain ⟨a, h₁⟩ := discard_eq_some.mp h
  exact discard_eq_some.mpr ⟨a, hm h₁⟩

theorem holding {m m' : Run κ σ α} (hs : List Handle) (hm : m.Below m') :
    (Run.holding hs m).Below (Run.holding hs m') := by
  rintro w ⟨a, w'⟩ h
  obtain ⟨w₁, h₁, rfl⟩ := holding_eq_some.mp h
  exact holding_eq_some.mpr ⟨w₁, hm h₁, rfl⟩

theorem collecting {m m' : Run κ σ α} (i : WatcherId) (hm : m.Below m') :
    (Run.collecting i m).Below (Run.collecting i m') := by
  rintro w ⟨a, w'⟩ h
  obtain ⟨w₁, h₁, rfl⟩ := collecting_eq_some.mp h
  exact collecting_eq_some.mpr ⟨w₁, hm h₁, rfl⟩

end Run.Below

namespace Env.Below

variable {e e' : Env κ σ}

/-- A hook answers nothing, so only whether it comes to an end can differ. -/
theorem tell (h : e.Below e') (hook : Hook κ) (occasion : Occasion) :
    (e.tell hook occasion).Below (e'.tell hook occasion) := by
  cases hook with
  | silent => exact .refl _
  | custom code => exact .discard (h.call code occasion)

theorem read (h : e.Below e') (o : ObjectId) (key : String) :
    (read e o key).Below (read e' o key) := by
  refine .after_get fun w => ?_
  split
  · exact .refl _
  · exact .refl _
  · exact .bind (.refl _) fun _ => .bind (.holding _ (h.tell _ _)) fun _ => .refl _

/-- The same world is seen by both. -/
theorem sideBySide (h : e.Below e') : SideBySide e e' Eq (@Run.Below κ σ) where
  pure a := .refl (Pure.pure a)
  bind := .bind
  sight := .same h.handles
  after_get hf := .after_get fun w => hf w w rfl
  discard := .discard
  holding := .holding
  edit _ := .refl _
  read := h.read

/-- What a watcher does about a change comes to an end on the second side too. -/
theorem update (h : e.Below e') (i : WatcherId) : (update e i).Below (update e' i) :=
  h.sideBySide.update (fun code _ => h.call code _) (fun _ _ => .refl _) i

theorem updateAll (h : e.Below e') (is : List WatcherId) :
    (updateAll e is).Below (updateAll e' is) :=
  h.sideBySide.updateAll fun i _ => h.update i

/-- The hook and everybody who is told come to their ends. -/
theorem write (h : e.Below e') (o : ObjectId) (key : String) (v : Value) :
    (write e o key v).Below (write e' o key v) := by
  refine .after_get fun w => ?_
  split
  · exact .refl _
  · split
    · exact .refl _
    · exact .bind (.refl _) fun _ => .bind (.holding _ (h.tell _ _)) fun _ =>
        .bind (.refl _) fun _ => .holding _ (h.sideBySide.notify h.update o key)

theorem watch (h : e.Below e') (expression : String) (o : ObjectId) (reaction : Reaction κ) :
    (watch e expression o reaction).Below (watch e' expression o reaction) :=
  .after_get fun _ => .bind (.refl _) fun _ => .bind (.refl _) fun _ =>
    .bind (.holding _ (.collecting _ (h.read o _))) fun _ => .refl _

theorem deliver (h : e.Below e') (event : Event) (l : Listener κ) :
    (l.deliver e event).Below (l.deliver e' event) :=
  h.sideBySide.deliver (fun code _ _ => h.call code _) (fun code _ => h.call code _) h.write
    event l

/-- A walk that has more levels goes on where the other gets stuck. -/
theorem buildsSideBySide (h : e.Below e') : BuildsSideBySide e e' Eq (@Run.Below κ σ) where
  toSideBySide := h.sideBySide
  watch := h.watch
  depth := h.depth
  stuck _ := fun _ _ hrun => absurd hrun (by simp)

/-- Every request is monotone in what it calls. -/
theorem perform (h : e.Below e') (r : Request κ α) : (r.perform e).Below (r.perform e') := by
  have hside : SideBySide e e' Eq (@Run.Below κ σ) := h.sideBySide
  have hbuilds : BuildsSideBySide e e' Eq (@Run.Below κ σ) := h.buildsSideBySide
  cases r with
  | read o key => exact h.read o key
  | write o key v => exact h.write o key v
  | watch expression o code => exact h.watch expression o _
  | update i => exact h.update i
  | render t o => exact hside.render t o
  | dispatch n event => exact hside.dispatch h.deliver n event
  | enter n text => exact hside.enter h.deliver n text
  | bind d n expression kit => exact hbuilds.directive n expression kit d
  | compile kit root => exact hbuilds.compile kit root
  | mount place hook kit => exact hbuilds.mount place (fun _ => .refl _) kit
  | getProperty app key => exact hside.getProperty (h.read app.data) key
  | setProperty app key v => exact hside.setProperty (h.write app.data) key v
  | callMethod method o event => exact .holding _ (h.call _ _)
  | _ => exact .refl _

/-- And so is every program. -/
theorem exec (h : e.Below e') (p : Program κ σ α) : (p.exec e).Below (p.exec e') := by
  induction p with
  | done a => exact .refl _
  | andThen p next ihp ihn => exact .bind ihp ihn
  | ask q => exact .of_eq (by simp only [Program.exec, h.handles])
  | request r => exact h.perform r
  | getUser => exact .refl _
  | updateUser f => exact .refl _
  | holding hs p ih => exact .holding hs ih
  | collecting i p ih => exact .collecting i ih

end Env.Below

/-- One more level of callbacks only adds answers. -/
theorem Host.env_below_succ (host : Host κ σ) (depth : Nat) :
    (host.env depth).Below (host.env (depth + 1)) := by
  induction depth with
  | zero => exact ⟨fun _ _ _ _ h => by simp [Host.env] at h, rfl, Nat.le_succ _⟩
  | succ depth ih => exact ⟨fun code occasion => ih.exec _, rfl, Nat.le_succ _⟩

/-- A run that has an answer has it at every greater depth. -/
theorem Host.run_of_le {host : Host κ σ} {depth depth' : Nat} (hle : depth ≤ depth') {α : Type}
    {p : Program κ σ α} {w w' : World κ σ} {a : α} (hrun : host.run depth p w = some (a, w')) :
    host.run depth' p w = some (a, w') := by
  induction hle with
  | refl => exact hrun
  | step _ ih => exact (host.env_below_succ _).exec p ih

/-- The answer of a run does not depend on the depth that shows it. -/
theorem Host.run_unique {host : Host κ σ} {depth depth' : Nat} {α : Type} {p : Program κ σ α}
    {w w₁ w₂ : World κ σ} {a b : α} (h₁ : host.run depth p w = some (a, w₁))
    (h₂ : host.run depth' p w = some (b, w₂)) : a = b ∧ w₁ = w₂ := by
  have hdeep₁ := Host.run_of_le (Nat.le_max_left depth depth') h₁
  have hdeep₂ := Host.run_of_le (Nat.le_max_right depth depth') h₂
  exact Prod.mk.inj (Option.some.inj (hdeep₁.symm.trans hdeep₂))

end DataBinding
