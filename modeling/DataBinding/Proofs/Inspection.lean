import DataBinding.Proofs.Conduct

/-!
# Looking at every moment of a run

What holds at the end of a run need not hold in the middle of it, where callbacks see the world.
An inspector looks at the world whenever user code does, there and in every callback, and at what
each single request has done. `Host.Upholds` says that he finds nothing against a law.

Runs that never end are inspected too. Callbacks below some depth are cut off: they do nothing. Up
to the first such callback the run is the run of the user's program, and since the depth is
arbitrary, every moment of every run is seen. For the same reason a program that is about to act
against the conduct is only stopped there, and keeps what it has done.
-/

namespace DataBinding

variable {κ σ : Type}

/-- What an inspector checks: the world that user code sees on an occasion, and the worlds before
and after a request. -/
structure Law (κ σ : Type) where
  sight : Option Occasion → World κ σ → Prop
  step : {α : Type} → Request κ α → World κ σ → World κ σ → Prop

/-- The law that nothing is against. -/
def Law.any : Law κ σ where
  sight _ _ := True
  step _ _ _ := True

open Classical in
/-- Goes on if the world is as it should be. -/
noncomputable def Run.insist (P : World κ σ → Prop) : Run κ σ Unit := do
  if P (← get) then return else failure

theorem Run.insist_of {P : World κ σ → Prop} {w : World κ σ} (h : P w) :
    Run.insist P w = some ((), w) :=
  Run.bind_eq_some.mpr ⟨w, w, Run.get_eq_some.mpr ⟨rfl, rfl⟩, by rw [if_pos h]; rfl⟩

open Classical in
theorem Run.insist_eq_none {P : World κ σ → Prop} {w : World κ σ} (h : ¬ P w) :
    Run.insist P w = none := by
  show (if P w then (return : Run κ σ Unit) else failure) w = none
  rw [if_neg h]
  rfl

/-- Runs a program under inspection. It is stopped, without an answer, when it is about to do
something against the conduct. If the law is broken, there is no such run. -/
noncomputable def Program.inspect (c : Conduct κ σ) (law : Law κ σ) (on : Option Occasion)
    (env : Env κ σ) {α : Type} : Program κ σ α → Run κ σ (Option α)
  | done a => return some a
  | andThen p next => do
    match ← p.inspect c law on env with
    | none => return none
    | some a => (next a).inspect c law on env
  | ask q => do
    Run.insist (law.sight on)
    return some (q.answer env.handles (← get))
  | request r => do
    Run.insist (law.sight on)
    let w ← get
    if c.mayRequest on w r then
      let a ← r.perform env
      Run.insist fun w' => law.sight on w' ∧ law.step r w w'
      return some a
    else return none
  | getUser => do
    return some (← get).user
  | updateUser f => do
    modify fun w => { w with user := f w.user }
    return some ()
  | holding handles p => .holding handles (p.inspect c law on env)
  | collecting i p => do
    if c.mayCollect on (← get) i then .collecting i (p.inspect c law on env) else return none

theorem Program.inspect_ask {c : Conduct κ σ} {law : Law κ σ} {on : Option Occasion}
    {env : Env κ σ} {α : Type} (q : Query α) {w : World κ σ} (hsight : law.sight on w) :
    (Program.ask q).inspect c law on env w = some (some (q.answer env.handles w), w) :=
  Run.bind_eq_some.mpr ⟨(), w, Run.insist_of hsight, rfl⟩

open Classical in
/-- What an inspected request does, where the world is as it should be. -/
theorem Program.inspect_request {c : Conduct κ σ} {law : Law κ σ} {on : Option Occasion}
    {env : Env κ σ} {α : Type} (r : Request κ α) {w : World κ σ} (hsight : law.sight on w) :
    (Program.request r).inspect c law on env w =
      if c.mayRequest on w r then
        (r.perform env w).bind fun p =>
          if law.sight on p.2 ∧ law.step r w p.2 then some (some p.1, p.2) else none
      else some (none, w) := by
  have hinsist : (Program.request r).inspect c law on env w =
      (if c.mayRequest on w r then do
        let a ← r.perform env
        Run.insist fun w' => law.sight on w' ∧ law.step r w w'
        return some a
      else return none : Run κ σ (Option α)) w := by
    show (Run.insist (law.sight on) w).bind _ = _
    rw [Run.insist_of hsight]
    rfl
  rw [hinsist]
  split
  · show (r.perform env w).bind _ = _
    congr 1
    funext p
    by_cases hlaw : law.sight on p.2 ∧ law.step r w p.2
    · rw [if_pos hlaw]
      exact Run.bind_eq_some.mpr ⟨(), p.2, Run.insist_of hlaw, rfl⟩
    · rw [if_neg hlaw]
      show (Run.insist _ p.2).bind _ = none
      rw [Run.insist_eq_none hlaw]
      rfl
  · rfl

/-- An inspector who has nothing to find at a request is not noticed there. -/
theorem Program.inspect_request_congr {c : Conduct κ σ} {law : Law κ σ} {on : Option Occasion}
    {env env' : Env κ σ} {α : Type} (r : Request κ α) {w : World κ σ} (hsight : law.sight on w)
    (hsame : c.mayRequest on w r = true → r.perform env w = r.perform env' w)
    (hafter : c.mayRequest on w r = true → ∀ {a w'}, r.perform env' w = some (a, w') →
      law.sight on w' ∧ law.step r w w') :
    (Program.request r).inspect c law on env w =
      (Program.request r).inspect c .any on env' w := by
  have hany : Law.any.sight on w := trivial
  rw [inspect_request r hsight, inspect_request r hany]
  split
  · next hmay =>
    rw [hsame hmay]
    cases hp : r.perform env' w with
    | none => rfl
    | some p =>
      rw [Option.bind_some, Option.bind_some, if_pos (hafter hmay hp), if_pos ⟨trivial, trivial⟩]
  · rfl

/-- A request that is inspected to its end is made, or stopped. -/
theorem Program.of_inspect_request {c : Conduct κ σ} {on : Option Occasion} {env : Env κ σ}
    {α : Type} {r : Request κ α} {w w' : World κ σ} {answer : Option α}
    (h : (Program.request r).inspect c .any on env w = some (answer, w')) :
    (c.mayRequest on w r = true ∧ ∃ a, r.perform env w = some (a, w')) ∨ w' = w := by
  have hany : Law.any.sight on w := trivial
  rw [inspect_request r hany] at h
  split at h
  · next hmay =>
    obtain ⟨⟨a, w₁⟩, hperform, h⟩ := Option.bind_eq_some_iff.mp h
    rw [if_pos ⟨trivial, trivial⟩] at h
    obtain ⟨_, rfl⟩ := Prod.mk.inj (Option.some.inj h)
    exact .inl ⟨hmay, a, hperform⟩
  · exact .inr (Prod.mk.inj (Option.some.inj h)).2.symm

namespace Host

/-- The environment in which all callbacks are inspected, down to a depth. Callbacks below it do
nothing; trees are compiled down to `levels`. -/
noncomputable def envInspected (host : Host κ σ) (c : Conduct κ σ) (law : Law κ σ)
    (levels : Nat) : Nat → Env κ σ
  | 0 => { call := fun _ _ => return .ok (), handles := host.handles, depth := levels }
  | depth + 1 =>
    { call := fun code occasion => do
        let answer ← (host.body code occasion).inspect c law (some occasion)
          (host.envInspected c law levels depth)
        return answer.getD (.ok ())
      handles := host.handles
      depth := levels }

theorem handles_envInspected (host : Host κ σ) (c : Conduct κ σ) (law : Law κ σ)
    (levels depth : Nat) : (host.envInspected c law levels depth).handles = host.handles := by
  cases depth <;> rfl

theorem depth_envInspected (host : Host κ σ) (c : Conduct κ σ) (law : Law κ σ)
    (levels depth : Nat) : (host.envInspected c law levels depth).depth = levels := by
  cases depth <;> rfl

/-- Runs a program under inspection, there and in its callbacks. -/
noncomputable def inspect (host : Host κ σ) (c : Conduct κ σ) (law : Law κ σ)
    (levels depth : Nat) {α : Type} (p : Program κ σ α) : Run κ σ (Option α) :=
  p.inspect c law none (host.envInspected c law levels depth)

/-- However deep callbacks are followed, a run that is held to the conduct never breaks the law:
checking it makes no difference. -/
def Upholds (host : Host κ σ) (c : Conduct κ σ) (law : Law κ σ) {α : Type} (p : Program κ σ α)
    (w : World κ σ) : Prop :=
  ∀ levels depth, host.inspect c law levels depth p w = host.inspect c .any levels depth p w

end Host

/-! ## Runs that end -/

/-- A program that gets to its end under the conduct gets there under inspection. -/
theorem Program.inspect_of_execUnder {c : Conduct κ σ} {on : Option Occasion} {env env' : Env κ σ}
    (h : env.Below env') {α : Type} (p : Program κ σ α) {w w' : World κ σ} {a : α}
    (hrun : p.execUnder c on env w = some (a, w')) :
    p.inspect c .any on env' w = some (some a, w') := by
  -- the law `.any` is never broken, so only the conduct can stop a run, and it did not
  induction p generalizing w w' with
  | done b =>
    obtain ⟨rfl, rfl⟩ := Run.pure_eq_some.mp hrun
    rfl
  | andThen p next ihp ihn =>
    obtain ⟨b, w₁, h₁, h₂⟩ := Run.bind_eq_some.mp hrun
    unfold inspect
    exact Run.bind_eq_some.mpr ⟨some b, w₁, ihp h₁, ihn b h₂⟩
  | ask q =>
    obtain ⟨_, _, hget, hrun⟩ := Run.bind_eq_some.mp hrun
    obtain ⟨rfl, rfl⟩ := Run.get_eq_some.mp hget
    obtain ⟨rfl, rfl⟩ := Run.pure_eq_some.mp hrun
    rw [h.handles]
    exact Run.bind_eq_some.mpr ⟨(), w, Run.insist_of trivial, rfl⟩
  | request r =>
    obtain ⟨_, _, hget, hrun⟩ := Run.bind_eq_some.mp hrun
    obtain ⟨rfl, rfl⟩ := Run.get_eq_some.mp hget
    split at hrun
    · next hmay =>
      refine Run.bind_eq_some.mpr ⟨(), w, Run.insist_of trivial, ?_⟩
      refine Run.bind_eq_some.mpr ⟨w, w, Run.get_eq_some.mpr ⟨rfl, rfl⟩, ?_⟩
      rw [if_pos hmay]
      refine Run.bind_eq_some.mpr ⟨a, w', h.perform r hrun, ?_⟩
      exact Run.bind_eq_some.mpr ⟨(), w', Run.insist_of ⟨trivial, trivial⟩, rfl⟩
    · exact absurd hrun (by simp)
  | getUser =>
    obtain ⟨_, _, hget, hrun⟩ := Run.bind_eq_some.mp hrun
    obtain ⟨rfl, rfl⟩ := Run.get_eq_some.mp hget
    obtain ⟨rfl, rfl⟩ := Run.pure_eq_some.mp hrun
    rfl
  | updateUser f =>
    obtain rfl := Run.modify_eq_some.mp hrun
    rfl
  | holding hs p ih =>
    obtain ⟨w₁, h₁, rfl⟩ := Run.holding_eq_some.mp hrun
    exact Run.holding_eq_some.mpr ⟨w₁, ih h₁, rfl⟩
  | collecting i p ih =>
    obtain ⟨_, _, hget, hrun⟩ := Run.bind_eq_some.mp hrun
    obtain ⟨rfl, rfl⟩ := Run.get_eq_some.mp hget
    refine Run.bind_eq_some.mpr ⟨w, w, Run.get_eq_some.mpr ⟨rfl, rfl⟩, ?_⟩
    split at hrun
    · next hmay =>
      rw [if_pos hmay]
      obtain ⟨w₁, h₁, rfl⟩ := Run.collecting_eq_some.mp hrun
      exact Run.collecting_eq_some.mpr ⟨w₁, ih h₁, rfl⟩
    · exact absurd hrun (by simp)

theorem Host.envUnder_below_envInspected (host : Host κ σ) (c : Conduct κ σ) {levels depth : Nat}
    (hdepth : depth ≤ levels) :
    (host.envUnder c depth).Below (host.envInspected c .any levels depth) := by
  induction depth with
  | zero => exact ⟨fun _ _ _ _ h => absurd h (by simp [Host.guarded]), rfl, hdepth⟩
  | succ depth ih =>
    refine ⟨fun code occasion w r hcall => ?_, rfl, hdepth⟩
    have hbody := (host.body code occasion).inspect_of_execUnder (ih (Nat.le_of_succ_le hdepth))
      hcall
    exact Run.bind_eq_some.mpr ⟨_, _, hbody, rfl⟩

/-- A run that obeys the conduct is one of those that are inspected. -/
theorem Host.inspect_of_run {host : Host κ σ} {c : Conduct κ σ} {depth : Nat} {α : Type}
    {p : Program κ σ α} {w w' : World κ σ} {a : α} (hrun : host.run depth p w = some (a, w'))
    (hob : host.Obeys c depth p w) :
    host.inspect c .any depth depth p w = some (some a, w') := by
  rw [Host.run_eq_runUnder hob] at hrun
  exact p.inspect_of_execUnder (host.envUnder_below_envInspected c (Nat.le_refl depth)) hrun

end DataBinding
