import DataBinding.Proofs.Effects
import DataBinding.Proofs.Orderly

/-!
# Hooks that take notes

Passive hooks may record what they are told, and what they have recorded may depend on the order of
things that nobody else can tell apart. Here the state of the user is in two parts: user code goes
by the first, and hooks take their notes in the second. So hooks are not heard by anybody.
-/

namespace DataBinding

variable {κ σ ρ : Type}

/-! ## User code and hooks side by side -/

/-- A program next to notes that it neither reads nor writes. -/
def Program.beside {α : Type} : Program κ σ α → Program κ (σ × ρ) α
  | .done a => .done a
  | .andThen p next => .andThen p.beside fun a => (next a).beside
  | .ask q => .ask q
  | .request r => .request r
  | .getUser => .andThen .getUser fun u => .done u.1
  | .updateUser f => .updateUser fun u => (f u.1, u.2)
  | .holding handles p => .holding handles p.beside
  | .collecting i p => .collecting i p.beside

/-- Whether a program takes notes and does nothing else. -/
def Program.TakesNotes {α : Type} : Program κ (σ × ρ) α → Prop
  | .done _ => True
  | .andThen p next => p.TakesNotes ∧ ∀ a, (next a).TakesNotes
  | .ask _ => True
  | .request _ => False
  | .getUser => True
  | .updateUser f => ∀ u, (f u).1 = u.1
  | .holding _ p => p.TakesNotes
  | .collecting _ _ => False

/-- User code with hooks beside it: told of an access, a hook does what `hooks` says. -/
def Host.beside (host : Host κ σ)
    (hooks : κ → Occasion → Program κ (σ × ρ) (Except ViewError Unit)) : Host κ (σ × ρ) where
  body code occasion :=
    if occasion.isAccess then hooks code occasion else (host.body code occasion).beside
  handles u := host.handles u.1

/-- What user code goes by is the same. -/
def World.SameUser (w w' : World κ (σ × ρ)) : Prop := w'.user.1 = w.user.1

theorem carried_sameUser : Carried (World.SameUser (κ := κ) (σ := σ) (ρ := ρ)) :=
  ⟨fun _ => rfl, fun _ _ _ hab hbc => hbc.trans hab, id⟩

/-- Hooks that are told of an access come to an end and have at most taken notes. -/
def Env.HooksTakeNotes (env : Env κ (σ × ρ)) : Prop :=
  ∀ hook occasion, occasion.isAccess = true → ∀ w, ∃ user : σ × ρ, user.1 = w.user.1 ∧
    env.tell hook occasion w = some ((), { w with user })

/-- A program that takes notes comes to an end, and nobody but its notes knows. -/
theorem Program.exec_of_takesNotes {env : Env κ (σ × ρ)} {α : Type} {p : Program κ (σ × ρ) α}
    (h : p.TakesNotes) (w : World κ (σ × ρ)) : ∃ a, ∃ user : σ × ρ, user.1 = w.user.1 ∧
    p.exec env w = some (a, { w with user }) := by
  induction p generalizing w with
  | done a => exact ⟨a, w.user, rfl, rfl⟩
  | andThen p next ihp ihn =>
    obtain ⟨a, user₁, hsame₁, hp⟩ := ihp h.1 w
    obtain ⟨b, user, hsame, hn⟩ := ihn a (h.2 a) { w with user := user₁ }
    exact ⟨b, user, hsame.trans hsame₁, Run.bind_eq_some.mpr ⟨a, _, hp, hn⟩⟩
  | ask q => exact ⟨_, w.user, rfl, rfl⟩
  | request r => exact h.elim
  | getUser => exact ⟨_, w.user, rfl, rfl⟩
  | updateUser f => exact ⟨_, f w.user, h w.user, rfl⟩
  | holding hs p ih =>
    obtain ⟨a, user, hsame, hp⟩ := ih h { w with held := hs ++ w.held }
    exact ⟨a, user, hsame, Run.holding_eq_some.mpr ⟨_, hp, rfl⟩⟩
  | collecting i p => exact h.elim

/-- Hooks that take notes are told to take them, however deep their programs can call. -/
theorem Env.hooksTakeNotes_of_call {env : Env κ (σ × ρ)}
    {hooks : κ → Occasion → Program κ (σ × ρ) (Except ViewError Unit)}
    (hhooks : ∀ code occasion, occasion.isAccess = true → (hooks code occasion).TakesNotes)
    (hcall : ∀ code occasion, occasion.isAccess = true →
      ∃ inner, env.call code occasion = (hooks code occasion).exec inner) :
    env.HooksTakeNotes := by
  intro hook occasion hon w
  cases hook with
  | silent => exact ⟨w.user, rfl, rfl⟩
  | custom code =>
    obtain ⟨inner, hbody⟩ := hcall code occasion hon
    obtain ⟨a, user, hsame, hexec⟩ : ∃ a, ∃ user : σ × ρ, user.1 = w.user.1 ∧
        env.call code occasion w = some (a, { w with user }) := by
      rw [hbody]
      exact Program.exec_of_takesNotes (hhooks code occasion hon) w
    exact ⟨user, hsame, Run.discard_eq_some.mpr ⟨a, hexec⟩⟩

/-- One level of callbacks is enough for hooks that only take notes. -/
theorem Host.hooksTakeNotes {host : Host κ σ}
    {hooks : κ → Occasion → Program κ (σ × ρ) (Except ViewError Unit)}
    (hhooks : ∀ code occasion, occasion.isAccess = true → (hooks code occasion).TakesNotes)
    (depth : Nat) : ((host.beside hooks).env (depth + 1)).HooksTakeNotes := by
  refine Env.hooksTakeNotes_of_call hhooks fun code occasion hon =>
    ⟨(host.beside hooks).env depth, ?_⟩
  have hbody : (host.beside hooks).body code occasion = hooks code occasion := if_pos hon
  rw [← hbody]
  rfl

/-! ## What is left of operations when only hooks are told -/

namespace Env.HooksTakeNotes

variable {env : Env κ (σ × ρ)} {o : ObjectId} {w : World κ (σ × ρ)}

/-- Taking notes leaves what user code goes by. -/
theorem tell (h : env.HooksTakeNotes) (hook : Hook κ) {occasion : Occasion}
    (hon : occasion.isAccess = true) : Run.Moves World.SameUser (env.tell hook occasion) := by
  intro w u w' htell
  obtain ⟨user, hsame, heq⟩ := h hook occasion hon w
  obtain rfl := (Prod.mk.inj (Option.some.inj (heq.symm.trans htell))).2
  exact hsame

/-- Hooks that take notes only record. -/
theorem recordedBy (h : env.HooksTakeNotes) (w : World κ (σ × ρ)) (o : ObjectId) :
    w.RecordedBy env o := by
  intro _ c _ key value w
  obtain ⟨user, _, htell⟩ := h c.hook (.reading key value) rfl w
  exact ⟨user, htell⟩

theorem read (h : env.HooksTakeNotes) (o : ObjectId) (key : String) :
    Run.Moves World.SameUser (read env o key) := by
  refine .after_get fun w => ?_
  split
  · exact carried_sameUser.pure _
  · exact carried_sameUser.pure _
  · refine carried_sameUser.bind (.modify fun w => ?_) fun _ =>
      carried_sameUser.bind (carried_sameUser.holding _ (h.tell _ rfl)) fun _ =>
        carried_sameUser.pure _
    unfold World.subscribeCurrent
    split <;> rfl

theorem render (h : env.HooksTakeNotes) (t : Template) (o : ObjectId) :
    Run.Moves World.SameUser (t.render env o) := by
  have hsegment : ∀ segment : Segment, Run.Moves World.SameUser (segment.render env o) := by
    intro segment
    cases segment with
    | literal text => exact carried_sameUser.pure _
    | marker key =>
      exact carried_sameUser.bind (h.read o key) fun _ =>
        .after_get fun _ => carried_sameUser.pure _
  show Run.Moves World.SameUser (renderSegments env o t.segments)
  induction t.segments with
  | nil => exact carried_sameUser.pure _
  | cons segment rest ih =>
    exact carried_sameUser.bind (hsegment segment) fun _ =>
      carried_sameUser.bind ih fun _ => carried_sameUser.pure _

/-- The first read of a new watcher is told to a hook, which takes a note of it. -/
theorem watch (h : env.HooksTakeNotes) (expression : String) (o : ObjectId)
    (reaction : Reaction κ) : Run.Moves World.SameUser (watch env expression o reaction) := by
  refine .after_get fun w => carried_sameUser.bind (carried_sameUser.pure ()) fun _ =>
    carried_sameUser.bind (.modify fun _ => rfl) fun _ =>
      carried_sameUser.bind (carried_sameUser.holding _ ?_) fun _ =>
        carried_sameUser.bind (.modify fun _ => rfl) fun _ =>
          carried_sameUser.bind (carried_sameUser.pure ()) fun _ => carried_sameUser.pure _
  intro w a w' hw
  obtain ⟨w₁, hread, rfl⟩ := Run.collecting_eq_some.mp hw
  have hsame := h.read o _ hread
  exact hsame

theorem bind (h : env.HooksTakeNotes) (n : NodeId) (expression : String) (kit : Kit κ)
    (directive : Directive) :
    Run.Moves World.SameUser (directive.bind env n expression kit) := by
  cases directive with
  | model =>
    exact carried_sameUser.holding _ (carried_sameUser.bindModel (fun key => h.read _ key)
      (fun e => h.watch e _ _) (fun _ _ => rfl) (fun _ _ => rfl) expression)
  | text =>
    exact carried_sameUser.holding _ (carried_sameUser.bindText (fun e _ => h.watch e _ _)
      (fun e => h.watch e _ _) (fun t => h.render t _) (fun _ _ => rfl) expression kit.dialect)
  | on event => exact .modify fun _ => rfl

theorem read_eq (h : env.HooksTakeNotes) (w : World κ (σ × ρ)) (o : ObjectId) (key : String) :
    ∃ user : σ × ρ, user.1 = w.user.1 ∧ DataBinding.read env o key w = some (w.heap.peek o key,
      { w with heap := w.heap.subscribeAll w.current [(o, key)], user }) := by
  obtain ⟨user, hread⟩ := DataBinding.read_eq (h.recordedBy w o) key
  exact ⟨user, h.read o key hread, hread⟩

theorem render_eq (h : env.HooksTakeNotes) (w : World κ (σ × ρ)) (t : Template) (o : ObjectId) :
    ∃ user : σ × ρ, user.1 = w.user.1 ∧
      t.render env o w = some (t.rendering w.heap o, { w.readings o t.markers with user }) := by
  obtain ⟨user, hrender⟩ := DataBinding.render_eq (h.recordedBy w o) t
  exact ⟨user, h.render t o hrender, hrender⟩

theorem watch_eq (h : env.HooksTakeNotes) (w : World κ (σ × ρ)) (expression : String)
    (o : ObjectId) (reaction : Reaction κ) : ∃ user : σ × ρ, user.1 = w.user.1 ∧
    DataBinding.watch env expression o reaction w = some (⟨w.watchers.size⟩,
      { World.watching o w (Text.trim expression, reaction) with user }) := by
  obtain ⟨user, hwatch⟩ := DataBinding.watch_eq (h.recordedBy w o) expression reaction
  exact ⟨user, h.watch expression o reaction hwatch, hwatch⟩

/-- A binding leaves behind what it always does, and notes. -/
theorem bind_eq (h : env.HooksTakeNotes) (w : World κ (σ × ρ)) (n : NodeId) (expression : String)
    (kit : Kit κ) (directive : Directive) : ∃ user : σ × ρ, user.1 = w.user.1 ∧
    directive.bind env n expression kit w =
      some ((), { directive.effect kit n expression w with user }) := by
  obtain ⟨user, hbind⟩ := DataBinding.bind_eq (h.recordedBy w kit.data) n directive expression
  exact ⟨user, h.bind n expression kit directive hbind, hbind⟩

/-- The reaction of a binding. -/
theorem react_eq (h : env.HooksTakeNotes) {x : Watcher κ} (hcur : w.current = none)
    (hx : ¬ x.reaction.IsCustom) (v : Value) : ∃ user : σ × ρ, user.1 = w.user.1 ∧
    x.react env v w = some ((), { w with document := x.shown w.heap v w.document, user }) := by
  unfold Watcher.react Watcher.shown
  cases hr : x.reaction with
  | setValue n => exact ⟨w.user, rfl, rfl⟩
  | setText n => exact ⟨w.user, rfl, rfl⟩
  | render n t =>
    obtain ⟨user, hsame, hrender⟩ := h.render_eq w t x.data
    rw [World.readings_of_current_eq_none hcur] at hrender
    exact ⟨user, hsame, Run.bind_eq_some.mpr ⟨_, _, hrender, Run.modify_eq_some.mpr rfl⟩⟩
  | custom code => exact absurd (by rw [hr]; trivial) hx

end Env.HooksTakeNotes

end DataBinding
