import DataBinding.Program

/-!
# Reasoning about runs

A run either gives an answer and a world, or gives nothing. The lemmas here take a run that gave
something apart into its steps.

`Moves R m` says that whenever `m` comes to an end, `R` relates the world before to the world
after. A transitive relation is passed on from the steps of a run to the whole run.
-/

namespace DataBinding

namespace Run

variable {κ σ α β : Type}

@[simp] theorem pure_eq_some {a b : α} {w w' : World κ σ} :
    (pure a : Run κ σ α) w = some (b, w') ↔ a = b ∧ w = w' := by
  show some (a, w) = some (b, w') ↔ _
  simp

/-- A run of two steps has a world in between. -/
@[simp] theorem bind_eq_some {m : Run κ σ α} {f : α → Run κ σ β} {w : World κ σ}
    {r : β × World κ σ} :
    (m >>= f) w = some r ↔ ∃ a w₁, m w = some (a, w₁) ∧ f a w₁ = some r := by
  show (m w).bind (fun p => f p.1 p.2) = some r ↔ _
  rw [Option.bind_eq_some_iff]
  constructor
  · rintro ⟨⟨a, w₁⟩, hm, hf⟩
    exact ⟨a, w₁, hm, hf⟩
  · rintro ⟨a, w₁, hm, hf⟩
    exact ⟨(a, w₁), hm, hf⟩

theorem bind_eq_of_eq_some {m : Run κ σ α} {f : α → Run κ σ β} {w w₁ : World κ σ} {a : α}
    (h : m w = some (a, w₁)) : (m >>= f) w = f a w₁ := by
  show (m w).bind (fun p => f p.1 p.2) = f a w₁
  rw [h]
  rfl

@[simp] theorem get_eq_some {w v w' : World κ σ} :
    (get : Run κ σ (World κ σ)) w = some (v, w') ↔ w = v ∧ w = w' := by
  show some (w, w) = some (v, w') ↔ _
  simp

/-- The step that looks at the world goes on with the world. -/
theorem get_bind (f : World κ σ → Run κ σ β) (w : World κ σ) : (get >>= f) w = f w w := rfl

@[simp] theorem modify_eq_some {f : World κ σ → World κ σ} {w w' : World κ σ} {u : Unit} :
    (modify f : Run κ σ Unit) w = some (u, w') ↔ f w = w' := by
  show some ((), f w) = some (u, w') ↔ _
  simp

/-- Nobody reads what a run notes. -/
@[simp] theorem note_eq_pure (h : Happening) : (Noting.note h : Run κ σ Unit) = pure () := rfl

/-- A run that fails gives no answer. -/
@[simp] theorem failure_eq_some {w : World κ σ} {r : α × World κ σ} :
    (failure : Run κ σ α) w = some r ↔ False := by
  show (none : Option (α × World κ σ)) = some r ↔ _
  simp

@[simp] theorem changing_eq_some {f : World κ σ → α × World κ σ} {w : World κ σ}
    {r : α × World κ σ} : (Request.changing f : Run κ σ α) w = some r ↔ f w = r := by
  show some (f w) = some r ↔ _
  simp

/-- Dropping the answer leaves the world as the run left it. -/
@[simp] theorem discard_eq_some {m : Run κ σ α} {w w' : World κ σ} {u : Unit} :
    (discard m : Run κ σ Unit) w = some (u, w') ↔ ∃ a, m w = some (a, w') := by
  show (m w).bind (fun p => some ((), p.2)) = some (u, w') ↔ _
  rw [Option.bind_eq_some_iff]
  constructor
  · rintro ⟨⟨a, w₁⟩, hm, hw⟩
    obtain rfl : w₁ = w' := (Prod.mk.inj (Option.some.inj hw)).2
    exact ⟨a, hm⟩
  · rintro ⟨a, hm⟩
    exact ⟨(a, w'), hm, rfl⟩

/-- What was held before is held again afterwards. -/
theorem holding_eq_some {hs : List Handle} {m : Run κ σ α} {w w' : World κ σ} {a : α} :
    holding hs m w = some (a, w') ↔
      ∃ w₁, m { w with held := hs ++ w.held } = some (a, w₁) ∧
        w' = { w₁ with held := w.held } := by
  simp only [holding, bind_eq_some, get_eq_some, modify_eq_some, pure_eq_some]
  constructor
  · rintro ⟨_, _, ⟨rfl, rfl⟩, _, _, rfl, b, w₁, hm, _, _, rfl, rfl, rfl⟩
    exact ⟨w₁, hm, rfl⟩
  · rintro ⟨w₁, hm, rfl⟩
    exact ⟨_, _, ⟨rfl, rfl⟩, (), _, rfl, a, w₁, hm, (), _, rfl, rfl, rfl⟩

/-- Of what is run next, only what it does after the first run counts. -/
theorem bind_congr {m m' : Run κ σ α} {f f' : α → Run κ σ β} {w : World κ σ} (hm : m w = m' w)
    (hf : ∀ {a w₁}, m' w = some (a, w₁) → f a w₁ = f' a w₁) : (m >>= f) w = (m' >>= f') w := by
  show (m w).bind (fun p => f p.1 p.2) = (m' w).bind fun p => f' p.1 p.2
  rw [hm]
  cases h : m' w with
  | none => rfl
  | some p => exact hf h

/-- Runs that agree still do when their answers are dropped. -/
theorem discard_congr {m m' : Run κ σ α} {w : World κ σ} (h : m w = m' w) :
    discard m w = discard m' w := by
  show (m w).bind (fun p => some ((), p.2)) = (m' w).bind fun p => some ((), p.2)
  rw [h]

/-- Of what is run while handles are held, only what it does then counts. -/
theorem holding_congr {hs : List Handle} {m m' : Run κ σ α} {w : World κ σ}
    (h : m { w with held := hs ++ w.held } = m' { w with held := hs ++ w.held }) :
    holding hs m w = holding hs m' w := by
  refine Option.ext fun r => ?_
  obtain ⟨a, w₁⟩ := r
  rw [holding_eq_some, holding_eq_some, h]

/-- What was in the slot before is there again afterwards, and so is what was held. -/
theorem collecting_eq_some {i : WatcherId} {m : Run κ σ α} {w w' : World κ σ} {a : α} :
    collecting i m w = some (a, w') ↔
      ∃ w₁, m { w with current := some i,
                       held := w.current.toList.map .watcher ++ w.held } = some (a, w₁) ∧
        w' = { w₁ with current := w.current, held := w.held } := by
  simp only [collecting, bind_eq_some, get_eq_some, modify_eq_some, pure_eq_some, holding_eq_some]
  constructor
  · rintro ⟨_, _, ⟨rfl, rfl⟩, _, _, rfl, b, _, ⟨w₁, hm, rfl⟩, _, _, rfl, rfl, rfl⟩
    exact ⟨w₁, hm, rfl⟩
  · rintro ⟨w₁, hm, rfl⟩
    exact ⟨_, _, ⟨rfl, rfl⟩, (), _, rfl, a, _, ⟨w₁, hm, rfl⟩, (), _, rfl, rfl, rfl⟩

/-- What is held while a run goes on does not help it come to an end. -/
theorem holding_eq_none {hs : List Handle} {m : Run κ σ α} {w : World κ σ} :
    holding hs m w = none ↔ m { w with held := hs ++ w.held } = none := by
  rw [Option.eq_none_iff_forall_ne_some, Option.eq_none_iff_forall_ne_some]
  constructor
  · rintro h ⟨a, w₁⟩ hm
    exact h _ (holding_eq_some.mpr ⟨w₁, hm, rfl⟩)
  · rintro h ⟨a, w'⟩ hw
    obtain ⟨w₁, hm, _⟩ := holding_eq_some.mp hw
    exact h _ hm

theorem collecting_eq_none {i : WatcherId} {m : Run κ σ α} {w : World κ σ} :
    collecting i m w = none ↔
      m { w with current := some i,
                 held := w.current.toList.map .watcher ++ w.held } = none := by
  rw [Option.eq_none_iff_forall_ne_some, Option.eq_none_iff_forall_ne_some]
  constructor
  · rintro h ⟨a, w₁⟩ hm
    exact h _ (collecting_eq_some.mpr ⟨w₁, hm, rfl⟩)
  · rintro h ⟨a, w'⟩ hw
    obtain ⟨w₁, hm, _⟩ := collecting_eq_some.mp hw
    exact h _ hm

/-- Whenever the run comes to an end, the worlds before and after are related. -/
def Moves (R : World κ σ → World κ σ → Prop) (m : Run κ σ α) : Prop :=
  ∀ ⦃w a w'⦄, m w = some (a, w') → R w w'

namespace Moves

variable {R : World κ σ → World κ σ → Prop}

theorem pure (hrefl : ∀ w, R w w) (a : α) : Moves R (pure a : Run κ σ α) := by
  intro w b w' h
  rw [(pure_eq_some.mp h).2]
  exact hrefl w'

/-- A transitive relation passes on from the steps to the run. -/
theorem bind (htrans : ∀ a b c, R a b → R b c → R a c) {m : Run κ σ α} {f : α → Run κ σ β}
    (hm : Moves R m) (hf : ∀ a, Moves R (f a)) : Moves R (m >>= f) := by
  intro w b w' h
  obtain ⟨a, w₁, h₁, h₂⟩ := bind_eq_some.mp h
  exact htrans _ _ _ (hm h₁) (hf a h₂)

/-- Looking at the world is no step. -/
theorem after_get {f : World κ σ → Run κ σ α} (hf : ∀ w, Moves R (f w)) :
    Moves R (get >>= f) := by
  intro w b w' h
  obtain ⟨v, w₁, h₁, h₂⟩ := bind_eq_some.mp h
  obtain ⟨rfl, rfl⟩ := get_eq_some.mp h₁
  exact hf w h₂

theorem modify {f : World κ σ → World κ σ} (hf : ∀ w, R w (f w)) :
    Moves R (modify f : Run κ σ Unit) := by
  intro w u w' h
  rw [← modify_eq_some.mp h]
  exact hf w

/-- A run that fails relates no worlds. -/
theorem failure : Moves R (failure : Run κ σ α) := by
  intro w a w' h
  exact absurd h (by simp)

theorem discard {m : Run κ σ α} (hm : Moves R m) : Moves R (Functor.discard m) := by
  intro w u w' h
  obtain ⟨a, h₁⟩ := discard_eq_some.mp h
  exact hm h₁

end Moves

end Run

end DataBinding
