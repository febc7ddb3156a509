import DataBinding.Proofs.Depth

/-!
# The conduct of user code

Most laws of a view hold for user code that keeps to some rule: hooks only read, a node is written
by its binding alone. A `Conduct` is such a rule, about the requests that a piece of user code
makes, and is judged when a request is made: it may depend on the world as it is then.

`Host.runUnder` runs a program and stops it, without an answer, at the first request that is
against the conduct. A run obeys a conduct if it gets to its end that way too. `run_eq_runUnder`
says that the guard is not felt by a run that obeys: it is the run without the guard.
-/

namespace DataBinding

/-- Whether a hook is told of an access on this occasion. -/
def Occasion.isAccess : Occasion → Bool
  | .reading _ _ => true
  | .writing _ _ => true
  | _ => false

/-- Whether a request only reads. -/
def Request.onlyReads {κ α : Type} : Request κ α → Bool
  | .read _ _ => true
  | .render _ _ => true
  | .getProperty _ _ => true
  | _ => false

/-- What user code may do. The occasion is the one on which the code is called; the program that is
run by itself has none. -/
structure Conduct (κ σ : Type) where
  /-- Whether a request may be made. -/
  mayRequest : {α : Type} → Option Occasion → World κ σ → Request κ α → Bool
  /-- Whether the code may let a watcher collect dependencies. -/
  mayCollect : Option Occasion → World κ σ → WatcherId → Bool

namespace Conduct

variable {κ σ : Type}

/-- Nothing is against the rules. -/
def free : Conduct κ σ where
  mayRequest _ _ _ := true
  mayCollect _ _ _ := true

/-- Hooks only read or record, and all other code keeps a rule. That code lets watchers collect that
may be entered: none, if nothing is said about it. -/
def orderly (rule : {α : Type} → Option Occasion → World κ σ → Request κ α → Bool)
    (mayEnter : World κ σ → WatcherId → Bool := fun _ _ => false) : Conduct κ σ where
  mayRequest on w r :=
    if on.any Occasion.isAccess then r.onlyReads else rule on w r
  mayCollect on w i := !on.any Occasion.isAccess && mayEnter w i

end Conduct

variable {κ σ : Type}

section

variable {m : Type → Type} [Alternative m] [Monad m] [MonadState (World κ σ) m] [Noting m]

/-- Runs a program that is stopped at the first request against the conduct. -/
def Program.execUnder (c : Conduct κ σ) (on : Option Occasion) (env : Env κ σ m) {α : Type} :
    Program κ σ α → m α
  | done a => return a
  | andThen p next => do
    let a ← p.execUnder c on env
    (next a).execUnder c on env
  | ask q => do
    return q.answer env.handles (← get)
  | request r => do
    if c.mayRequest on (← get) r then r.perform env else failure
  | getUser => do
    return (← get).user
  | updateUser f => modify fun w => { w with user := f w.user }
  | holding handles p => Run.holding handles (p.execUnder c on env)
  | collecting i p => do
    if c.mayCollect on (← get) i then Run.collecting i (p.execUnder c on env) else failure

/-- The environment in which all callbacks are stopped at requests against the conduct. -/
def Host.guarded (host : Host κ σ) (c : Conduct κ σ) : Nat → Env κ σ m
  | 0 => { call := fun _ _ => failure, handles := host.handles, depth := 0 }
  | depth + 1 =>
    { call := fun code occasion =>
        (host.body code occasion).execUnder c (some occasion) (host.guarded c depth)
      handles := host.handles
      depth := depth + 1 }

end

namespace Program

/-- Requests one after the other, with what each is answered. -/
def requestAll {α : Type} : List (Request κ α) → Program κ σ (List α)
  | [] => .done []
  | r :: rest =>
    .andThen (.request r) fun answer =>
      .andThen (requestAll rest) fun answers => .done (answer :: answers)

/-- Stopping a program changes nothing about what it does until then. -/
theorem execUnder_below {env env' : Env κ σ} (h : env.Below env') (c : Conduct κ σ)
    (on : Option Occasion) {α : Type} (p : Program κ σ α) :
    (p.execUnder c on env).Below (p.exec env') := by
  induction p with
  | done a => exact .refl _
  | andThen p next ihp ihn => exact .bind ihp ihn
  | ask q => exact .of_eq (by simp only [execUnder, exec, h.handles])
  | request r =>
    intro w res hres
    obtain ⟨v, w₁, h₁, h₂⟩ := Run.bind_eq_some.mp hres
    obtain ⟨rfl, rfl⟩ := Run.get_eq_some.mp h₁
    split at h₂
    · exact h.perform r h₂
    · simp at h₂
  | getUser => exact .refl _
  | updateUser f => exact .refl _
  | holding hs p ih => exact .holding hs ih
  | collecting i p ih =>
    intro w res hres
    obtain ⟨v, w₁, h₁, h₂⟩ := Run.bind_eq_some.mp hres
    obtain ⟨rfl, rfl⟩ := Run.get_eq_some.mp h₁
    split at h₂
    · exact Run.Below.collecting i ih h₂
    · simp at h₂

end Program

namespace Host

/-- That environment for runs. -/
abbrev envUnder (host : Host κ σ) (c : Conduct κ σ) (depth : Nat) : Env κ σ := host.guarded c depth

/-- Runs a program, stopped at the first request against the conduct, there or in a callback. -/
def runUnder (host : Host κ σ) (c : Conduct κ σ) (depth : Nat) {α : Type} (p : Program κ σ α)
    (w : World κ σ) : Option (α × World κ σ) :=
  p.execUnder c none (host.envUnder c depth) w

/-- In this run no request is against the conduct: with the guard on, it still gets to its end. -/
def Obeys (host : Host κ σ) (c : Conduct κ σ) (depth : Nat) {α : Type} (p : Program κ σ α)
    (w : World κ σ) : Prop :=
  (host.runUnder c depth p w).isSome = true

theorem envUnder_below (host : Host κ σ) (c : Conduct κ σ) (depth : Nat) :
    (host.envUnder c depth).Below (host.env depth) := by
  induction depth with
  | zero => exact ⟨fun _ _ => .refl _, rfl, Nat.le_refl _⟩
  | succ depth ih =>
    exact ⟨fun code occasion => Program.execUnder_below ih c _ _, rfl, Nat.le_refl _⟩

/-- A run that obeys does not feel the guard. -/
theorem run_eq_runUnder {host : Host κ σ} {c : Conduct κ σ} {depth : Nat} {α : Type}
    {p : Program κ σ α} {w : World κ σ} (h : host.Obeys c depth p w) :
    host.run depth p w = host.runUnder c depth p w := by
  obtain ⟨r, hr⟩ := Option.isSome_iff_exists.mp h
  rw [hr]
  exact Program.execUnder_below (envUnder_below host c depth) c none p hr

end Host

end DataBinding
