import DataBinding.Proofs.Permanence

/-!
# What a dispatch runs

A dispatch settles its listeners and its event before the first listener runs. Listeners may do what
they like meanwhile: register others at the node, dispatch further events on it, change its value,
replace its children, fail. `Env.Heard` says which of them have run, and from which world to which;
a row of listeners that is handed to `deliverAll` is heard up to the first that fails.

What a listener registers is there afterwards, behind all that was there before, since listeners are
never taken off. So it comes too late for this dispatch, and is there for the next.
-/

namespace DataBinding

variable {κ σ : Type}

/-- The value that an event has for the listeners of a node: its own, or the form value of an
element where it has none. -/
def Event.valueOn (event : Event) (content : Content) : Option String :=
  match event.value, content with
  | some value, _ => some value
  | none, .element _ _ value => some value
  | none, .text _ => none
  | none, .comment _ => none

theorem Event.name_targeted (event : Event) (content : Content) :
    (event.targeted content).name = event.name := by
  unfold Event.targeted
  split <;> rfl

theorem Event.value_targeted (event : Event) (content : Content) :
    (event.targeted content).value = event.valueOn content := by
  obtain ⟨name, value⟩ := event
  cases value with
  | some value => rfl
  | none => cases content <;> rfl

/-- Listeners that heard an event one after the other, each in the world that the one before it left
behind. None of them failed, or only the last, and with that error the row ends. -/
inductive Env.Heard (env : Env κ σ) (event : Event) :
    World κ σ → List (Listener κ) → Except ViewError Unit → World κ σ → Prop where
  | nil (w : World κ σ) : Heard env event w [] (.ok ()) w
  | ok {w w₁ w' : World κ σ} {l : Listener κ} {rest : List (Listener κ)}
      {result : Except ViewError Unit} (h : l.deliver env event w = some (.ok (), w₁))
      (hrest : Heard env event w₁ rest result w') : Heard env event w (l :: rest) result w'
  | error {w w' : World κ σ} {l : Listener κ} {e : ViewError}
      (h : l.deliver env event w = some (.error e, w')) :
      Heard env event w [l] (.error e) w'

section Rows

variable {env : Env κ σ} {event : Event} {w w' : World κ σ} {result : Except ViewError Unit}

theorem deliverAll_cons_ok {l : Listener κ} {rest : List (Listener κ)} {w₁ : World κ σ}
    (h : l.deliver env event w = some (.ok (), w₁)) :
    deliverAll env event (l :: rest) w = deliverAll env event rest w₁ := by
  rw [deliverAll, Run.bind_eq_of_eq_some h]

theorem deliverAll_cons_error {l : Listener κ} {rest : List (Listener κ)} {w₁ : World κ σ}
    {e : ViewError} (h : l.deliver env event w = some (.error e, w₁)) :
    deliverAll env event (l :: rest) w = some (.error e, w₁) := by
  rw [deliverAll, Run.bind_eq_of_eq_some h]
  rfl

theorem deliverAll_cons_none {l : Listener κ} {rest : List (Listener κ)}
    (h : l.deliver env event w = none) : deliverAll env event (l :: rest) w = none := by
  show (l.deliver env event w).bind _ = none
  rw [h]
  rfl

/-- A row that comes to its end was heard up to the first listener that failed. -/
theorem deliverAll_eq_some_iff (ls : List (Listener κ)) :
    deliverAll env event ls w = some (result, w') ↔
      ∃ ran rest, ls = ran ++ rest ∧ env.Heard event w ran result w' ∧
        (result = .ok () → rest = []) := by
  constructor
  · intro h
    induction ls generalizing w with
    | nil =>
      obtain ⟨rfl, rfl⟩ := Run.pure_eq_some.mp h
      exact ⟨[], [], rfl, .nil w, fun _ => rfl⟩
    | cons l rest ih =>
      cases hl : l.deliver env event w with
      | none =>
        rw [deliverAll_cons_none hl] at h
        cases h
      | some r =>
        obtain ⟨answer, w₁⟩ := r
        cases answer with
        | error e =>
          rw [deliverAll_cons_error hl] at h
          obtain ⟨rfl, rfl⟩ := Prod.mk.inj (Option.some.inj h)
          exact ⟨[l], rest, rfl, .error hl, nofun⟩
        | ok u =>
          rw [deliverAll_cons_ok hl] at h
          obtain ⟨ran, late, rfl, hheard, hlate⟩ := ih h
          exact ⟨l :: ran, late, rfl, .ok hl hheard, hlate⟩
  · rintro ⟨ran, rest, rfl, hheard, hrest⟩
    induction hheard with
    | nil w =>
      rw [hrest rfl]
      rfl
    | ok h _ ih =>
      rw [List.cons_append, deliverAll_cons_ok h]
      exact ih hrest
    | error h => exact deliverAll_cons_error h

/-- A row gets stuck in the first listener that does. -/
theorem deliverAll_eq_none_iff (ls : List (Listener κ)) :
    deliverAll env event ls w = none ↔
      ∃ ran l rest w₁, ls = ran ++ l :: rest ∧ env.Heard event w ran (.ok ()) w₁ ∧
        l.deliver env event w₁ = none := by
  constructor
  · intro h
    induction ls generalizing w with
    | nil => cases h
    | cons l rest ih =>
      cases hl : l.deliver env event w with
      | none => exact ⟨[], l, rest, w, rfl, .nil w, hl⟩
      | some r =>
        obtain ⟨answer, w₁⟩ := r
        cases answer with
        | error e =>
          rw [deliverAll_cons_error hl] at h
          cases h
        | ok u =>
          rw [deliverAll_cons_ok hl] at h
          obtain ⟨ran, stuck, late, w₂, rfl, hheard, hstuck⟩ := ih h
          exact ⟨l :: ran, stuck, late, w₂, rfl, .ok hl hheard, hstuck⟩
  · rintro ⟨ran, l, rest, w₁, rfl, hheard, hstuck⟩
    generalize hresult : (Except.ok () : Except ViewError Unit) = result at hheard
    induction hheard with
    | nil w => exact deliverAll_cons_none hstuck
    | ok h _ ih =>
      rw [List.cons_append, deliverAll_cons_ok h]
      exact ih hstuck hresult
    | error h => cases hresult

/-- What was there when the first listener ran is there when the last has run. -/
theorem Env.Heard.lasts (h : env.Echoes w env) {ran : List (Listener κ)}
    (hheard : env.Heard event w ran result w') : w.LastsIn w' := by
  have hrun : deliverAll env event ran w = some (result, w') :=
    (deliverAll_eq_some_iff ran).mpr ⟨ran, [], (List.append_nil ran).symm, hheard, fun _ => rfl⟩
  exact ((h.sideBySide.deliverAll (h.deliver event) ran (.refl w)).2 hrun).lasts

end Rows

/-- **A dispatch runs the listeners that were registered for the event when it was called, in order
of registration, up to the first that fails, and gives its error.** All of them get one event,
with the value that the node had then if it brings none. It gets stuck only in a listener that does.
After any number of listeners the node has its former listeners, followed by those registered
meanwhile. -/
theorem dispatch_runs_registered (host : Host κ σ) (depth : Nat) (n : NodeId) (event : Event)
    (w : World κ σ) :
    ∃ heard : Event, heard.name = event.name ∧
      heard.value = event.valueOn (w.document.content n) ∧
      (∀ result w', dispatch (host.env depth) n event w = some (result, w') ↔
        ∃ ran rest, w.document.listenersFor n event.name = ran ++ rest ∧
          (host.env depth).Heard heard w ran result w' ∧ (result = .ok () → rest = [])) ∧
      (dispatch (host.env depth) n event w = none ↔
        ∃ ran l rest w₁, w.document.listenersFor n event.name = ran ++ l :: rest ∧
          (host.env depth).Heard heard w ran (.ok ()) w₁ ∧
          l.deliver (host.env depth) heard w₁ = none) ∧
      ∀ ran result w', (host.env depth).Heard heard w ran result w' →
        ∃ added, (w'.document.node n).listeners = (w.document.node n).listeners ++ added := by
  refine ⟨event.targeted (w.document.content n), event.name_targeted _, event.value_targeted _,
    ?_, ?_, ?_⟩
  · intro result w'
    exact deliverAll_eq_some_iff _
  · exact deliverAll_eq_none_iff _
  · intro ran result w' hheard
    obtain ⟨added, hadded⟩ := (hheard.lasts (host.env_echoes w depth)).listeners n
    exact ⟨added, hadded.symm⟩

namespace Reentrant

/-- Which listener it is. -/
inductive Code where
  | first
  | second
  | third
  | other
  | late
deriving DecidableEq

/-- The first listener registers another, changes the value and dispatches a further event. The
second replaces the children and fails. All of them note the value that they are given. -/
def answers : Code → Program Code (List (Code × Option String)) (Except ViewError Unit)
  | .first =>
    .andThen (.request (.listen ⟨0⟩ "go" .late)) fun _ =>
    .andThen (.request (.setValue ⟨0⟩ "changed")) fun _ =>
    .request (.dispatch ⟨0⟩ { name := "other" })
  | .second =>
    .andThen (.request (.setText ⟨0⟩ "replaced")) fun _ =>
    .done (.error (.methodFailed "second" "enough"))
  | _ => .done (.ok ())

def host : Host Code (List (Code × Option String)) where
  body
    | code, .heard event =>
      .andThen (.updateUser fun notes => notes ++ [(code, event.value)]) fun _ => answers code
    | _, _ => .done (.ok ())
  handles _ := []

/-- An input with a child and four listeners, three of them for the same event. -/
def world : World Code (List (Code × Option String)) where
  document := ⟨#[{
    content := .element "input" ∅ "typed"
    children := [⟨1⟩]
    listeners := [("go", .custom .first), ("other", .custom .other), ("go", .custom .second),
      ("go", .custom .third)] }, { content := .text "child" }]⟩
  user := []

end Reentrant

open Reentrant in
/-- The listener that came late is registered and has not run, and the value that was changed is
heard by the further event alone. -/
theorem dispatch_runs_registered_reentrant :
    ∃ e w' heard ran rest added, dispatch (host.env 3) ⟨0⟩ { name := "go" } world =
        some (.error e, w') ∧
      w'.user = [(.first, some "typed"), (.other, some "changed"), (.second, some "typed")] ∧
      heard.value = some "typed" ∧ world.document.listenersFor ⟨0⟩ "go" = ran ++ rest ∧
      (host.env 3).Heard heard world ran (.error e) w' ∧ added.length = 1 ∧
      (w'.document.node ⟨0⟩).listeners = (world.document.node ⟨0⟩).listeners ++ added := by
  have hends : (dispatch (host.env 3) ⟨0⟩ { name := "go" } world).any (fun r =>
      r.1.toOption.isNone && (r.2.user == [(.first, some "typed"), (.other, some "changed"),
        (.second, some "typed")] && (r.2.document.node ⟨0⟩).listeners.length == 5)) = true := by
    decide +kernel
  obtain ⟨⟨result, w'⟩, hrun, hfinal⟩ := (Option.any_eq_true _ _).mp hends
  obtain ⟨hfails, hfinal⟩ := (Bool.and_eq_true _ _).mp hfinal
  obtain ⟨hnotes, hcount⟩ := (Bool.and_eq_true _ _).mp hfinal
  obtain ⟨heard, -, hvalue, hsome, -, hkept⟩ :=
    dispatch_runs_registered host 3 ⟨0⟩ { name := "go" } world
  obtain ⟨ran, rest, hregistered, hheard, -⟩ := (hsome result w').mp hrun
  obtain ⟨added, hadded⟩ := hkept ran result w' hheard
  cases result with
  | ok u => cases hfails
  | error e =>
    refine ⟨e, w', heard, ran, rest, added, hrun, by simpa using hnotes, hvalue, hregistered,
      hheard, ?_, hadded⟩
    have hlength : (w'.document.node ⟨0⟩).listeners.length = 5 := by simpa using hcount
    rw [hadded, List.length_append] at hlength
    have hfour : (world.document.node ⟨0⟩).listeners.length = 4 := rfl
    omega

end DataBinding
