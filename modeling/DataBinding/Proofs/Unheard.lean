import DataBinding.Proofs.Settled
import DataBinding.Proofs.Silence

/-!
# Hooks that nobody hears

Two runs of the same code under different hooks, which take notes of whatever they like, cannot be
told apart: both are what the code does in silence. They give the same answers, make the same calls
in the same order, and leave the same data, subscribers, watchers and nodes.

The notes must not hold anything. An object that is found only in the notes of a hook would be dead
without the hook, and that can be seen: asking tells it, and the bindings of dead data do nothing.
-/

namespace DataBinding

variable {κ σ ρ ρ' α : Type}

/-! ## User code and its hooks -/

/-- What hooks do when they are told of an access, and what their notes hold. -/
structure Hooks (κ σ ρ : Type) where
  body : κ → Occasion → Program κ (σ × ρ) (Except ViewError Unit)
  handles : ρ → List Handle

/-- Told of an access, the hooks take notes and do nothing else. -/
def Hooks.TakeNotes (hooks : Hooks κ σ ρ) : Prop :=
  ∀ code occasion, occasion.isAccess = true → (hooks.body code occasion).TakesNotes

/-- The notes keep nothing alive. -/
def Hooks.HoldNothing (hooks : Hooks κ σ ρ) : Prop := ∀ notes, hooks.handles notes = []

/-- User code with hooks, whose notes may hold something. -/
def Host.under (host : Host κ σ) (hooks : Hooks κ σ ρ) : Host κ (σ × ρ) where
  body := (host.beside hooks.body).body
  handles u := host.handles u.1 ++ hooks.handles u.2

theorem Host.under_eq_beside {hooks : Hooks κ σ ρ} (h : hooks.HoldNothing) (host : Host κ σ) :
    host.under hooks = host.beside hooks.body := by
  have hhandles : (host.under hooks).handles = (host.beside hooks.body).handles := by
    funext u
    show host.handles u.1 ++ hooks.handles u.2 = host.handles u.1
    rw [h u.2, List.append_nil]
  exact congrArg (Host.mk (host.beside hooks.body).body) hhandles

/-- The same user code, but for the hooks that it chooses for what it observes. -/
structure Host.SameButHooks (host host' : Host κ σ) : Prop where
  body : ∀ code occasion, occasion.isAccess = false →
    (host'.body code occasion).hushed = (host.body code occasion).hushed
  handles : host'.handles = host.handles

theorem Host.SameButHooks.refl (host : Host κ σ) : host.SameButHooks host :=
  ⟨fun _ _ _ => rfl, rfl⟩

/-- User code that puts on record which of it is called, and on which occasion, before it does what
it does. -/
def Host.logged (host : Host κ σ) : Host κ (σ × List (κ × Occasion)) where
  body code occasion :=
    .andThen (.updateUser fun u => (u.1, u.2 ++ [(code, occasion)])) fun _ =>
      (host.body code occasion).beside
  handles u := host.handles u.1

theorem Program.hushed_beside (p : Program κ σ α) :
    (p.beside (ρ := ρ)).hushed = p.hushed.beside := by
  induction p with
  | done a | ask q | request r | getUser | updateUser f => rfl
  | andThen p next ihp ihn => exact congr (congrArg Program.andThen ihp) (funext ihn)
  | holding hs p ih => exact congrArg (Program.holding hs) ih
  | collecting i p ih => exact congrArg (Program.collecting i) ih

theorem Host.SameButHooks.logged {host host' : Host κ σ} (h : host.SameButHooks host') :
    host.logged.SameButHooks host'.logged := by
  refine ⟨fun code occasion hon => ?_, ?_⟩
  · have hbody : (host'.body code occasion).beside.hushed =
        ((host.body code occasion).beside (ρ := List (κ × Occasion))).hushed := by
      rw [Program.hushed_beside, Program.hushed_beside, h.body code occasion hon]
    exact congrArg (fun p => Program.andThen _ fun _ => p) hbody
  · funext u
    show host'.handles u.1 = host.handles u.1
    rw [h.handles]

/-! ## Depth -/

/-- The environment of a depth in which hooks are heard on the last level too. -/
def Host.envHearing (host : Host κ σ) : Nat → Env κ σ
  | 0 =>
    { call := fun code occasion =>
        if occasion.isAccess then (host.body code occasion).exec (host.env 0) else failure
      handles := host.handles
      depth := 0 }
  | depth + 1 =>
    { call := fun code occasion => (host.body code occasion).exec (host.envHearing depth)
      handles := host.handles
      depth := depth + 1 }

theorem Host.env_below_envHearing (host : Host κ σ) (depth : Nat) :
    (host.env depth).Below (host.envHearing depth) := by
  induction depth with
  | zero => exact ⟨fun _ _ _ _ h => by simp [Host.env] at h, rfl, Nat.le_refl 0⟩
  | succ depth ih => exact ⟨fun code occasion => ih.exec _, rfl, Nat.le_refl _⟩

/-- One level more is enough for all hooks. -/
theorem Host.envHearing_below_env (host : Host κ σ) (depth : Nat) :
    (host.envHearing depth).Below (host.env (depth + 1)) := by
  induction depth with
  | zero =>
    refine ⟨fun code occasion => ?_, rfl, Nat.zero_le 1⟩
    show (if occasion.isAccess then _ else _ : Run _ _ _).Below _
    split
    · exact .refl _
    · exact fun w r h => by simp at h
  | succ depth ih => exact ⟨fun code occasion => ih.exec _, rfl, Nat.le_succ _⟩

theorem Host.hooksTakeNotes_envHearing {host : Host κ σ}
    {hooks : κ → Occasion → Program κ (σ × ρ) (Except ViewError Unit)}
    (hhooks : ∀ code occasion, occasion.isAccess = true → (hooks code occasion).TakesNotes)
    (depth : Nat) : ((host.beside hooks).envHearing depth).HooksTakeNotes := by
  refine Env.hooksTakeNotes_of_call hhooks fun code occasion hon => ?_
  have hbody : (host.beside hooks).body code occasion = hooks code occasion := if_pos hon
  rw [← hbody]
  cases depth with
  | zero => exact ⟨(host.beside hooks).env 0, if_pos hon⟩
  | succ depth => exact ⟨(host.beside hooks).envHearing depth, rfl⟩

section

variable {host host' : Host κ σ} {hooks : κ → Occasion → Program κ (σ × ρ) (Except ViewError Unit)}
  (hhooks : ∀ code occasion, occasion.isAccess = true → (hooks code occasion).TakesNotes)
  (hhosts : host.SameButHooks host')

include hhooks hhosts

/-- Under hooks, callbacks to any depth do what they do in silence. -/
theorem Host.hushes_envHearing (depth : Nat) :
    ((host'.beside hooks).envHearing depth).Hushes (host.hushed.env depth) := by
  have hheld : ∀ u : σ × ρ, host'.handles u.1 = host.handles u.1 := fun u => by
    rw [hhosts.handles]
  induction depth with
  | zero =>
    refine ⟨Host.hooksTakeNotes_envHearing hhooks 0, fun code occasion hon => ?_, hheld, rfl⟩
    have hcall : ((host'.beside hooks).envHearing 0).call code occasion = failure :=
      if_neg (by simp [hon])
    rw [hcall]
    exact .failure
  | succ depth ih =>
    refine ⟨Host.hooksTakeNotes_envHearing hhooks (depth + 1), fun code occasion hon => ?_, hheld,
      rfl⟩
    have hbody : (host'.beside hooks).body code occasion = (host'.body code occasion).beside :=
      if_neg (by simp [hon])
    show Run.Hushes (((host'.beside hooks).body code occasion).exec _)
      ((host.body code occasion).hushed.exec _)
    rw [hbody, ← hhosts.body code occasion hon]
    exact ih.exec _

variable {depth : Nat} {p : Program κ σ α} {w : World κ (σ × ρ)} {a : α}

/-- What ends under hooks ends in silence. -/
theorem Host.run_in_silence {w₁ : World κ (σ × ρ)}
    (hrun : (host'.beside hooks).run depth p.beside w = some (a, w₁)) :
    host.hushed.run depth p.hushed w.hushed = some (a, w₁.hushed) :=
  ((Host.hushes_envHearing hhooks hhosts depth).exec p).eq_some_iff.mpr
    ⟨w₁, (Host.env_below_envHearing _ depth).exec _ hrun, rfl⟩

/-- What ends in silence ends under hooks, which need one level more. -/
theorem Host.run_of_silence {v : World κ σ}
    (hrun : host.hushed.run depth p.hushed w.hushed = some (a, v)) :
    ∃ w₁, (host'.beside hooks).run (depth + 1) p.beside w = some (a, w₁) ∧ w₁.hushed = v := by
  obtain ⟨w₁, hhearing, hv⟩ :=
    ((Host.hushes_envHearing hhooks hhosts depth).exec p).eq_some_iff.mp hrun
  exact ⟨w₁, (Host.envHearing_below_env _ depth).exec _ hhearing, hv⟩

end

/-! ## Two runs -/

/-- **Hooks that take notes are not heard.** The same code runs in the same world under two kinds of
hooks, chosen for whatever is observed before and during the run. When the one run comes to an end,
so does the other, with the same answer; the same calls were made of user code, in the same order
and on the same occasions; and data, subscribers, watchers and nodes are the same. -/
theorem hooks_unheard {host host' : Host κ σ} (hhosts : host.SameButHooks host')
    {hooks : Hooks κ (σ × List (κ × Occasion)) ρ} {hooks' : Hooks κ (σ × List (κ × Occasion)) ρ'}
    (hnotes : hooks.TakeNotes) (hnotes' : hooks'.TakeNotes) (hnothing : hooks.HoldNothing)
    (hnothing' : hooks'.HoldNothing) {p p' : Program κ σ α} (hp : p'.hushed = p.hushed)
    {w : World κ ((σ × List (κ × Occasion)) × ρ)} {w' : World κ ((σ × List (κ × Occasion)) × ρ')}
    (hw : w'.hushed = w.hushed) {depth : Nat} {a : α} {w₁ : World κ ((σ × List (κ × Occasion)) × ρ)}
    (hrun : (host.logged.under hooks).run depth p.beside.beside w = some (a, w₁)) :
    ∃ w₁', (host'.logged.under hooks').run (depth + 1) p'.beside.beside w' = some (a, w₁') ∧
      w₁'.hushed = w₁.hushed := by
  rw [Host.under_eq_beside hnothing] at hrun
  rw [Host.under_eq_beside hnothing']
  have hsilence : host.logged.hushed.run depth p.beside.hushed w.hushed = some (a, w₁.hushed) :=
    Host.run_in_silence hnotes (.refl host.logged) hrun
  rw [Program.hushed_beside, ← hp, ← Program.hushed_beside, ← hw] at hsilence
  exact Host.run_of_silence hnotes' hhosts.logged hsilence

/-- A run starts in a silent world. -/
theorem World.hushed_fresh (user : σ × ρ) :
    (World.fresh user : World κ (σ × ρ)).hushed = .fresh user.1 := by
  have hheap : ({} : Heap κ).hushed = {} :=
    congrArg (fun entries => ({ objects := ⟨entries⟩ } : Heap κ)) Array.map_empty
  exact congrArg (fun heap => ({ heap, user := user.1 } : World κ σ)) hheap

/-! A callback that observes and writes, nodes and their events, under a hook that counts and under
one that lists keys. -/

namespace Eavesdropping

inductive Code where
  /-- Observes an object and puts it where the changed value goes. -/
  | refile
  /-- Collects what was filed. -/
  | collect
  /-- A method. -/
  | press
  /-- Hooks. -/
  | counter
  | lister
deriving DecidableEq

/-- What the code does, with a choice of hook for what it observes. -/
def host (ear : Code) : Host Code (List String) where
  body
    | .refile, .changed v =>
      .andThen (.request .newObject) fun o =>
      .andThen (.request (.write o "was" v)) fun _ =>
      .andThen (.request (.observe (.custom ear) (.object o))) fun _ =>
      .andThen (.request (.write ⟨0⟩ "file" (.object o))) fun _ =>
      .andThen (.request (.read o "was")) fun _ => .done (.ok ())
    | .collect, .changed (.object o) =>
      .andThen (.ask (.peek o "was")) fun v =>
      .andThen (.ask (.text v)) fun text =>
      .andThen (.updateUser fun seen => seen ++ [text]) fun _ => .done (.ok ())
    | .press, .called data _ =>
      .andThen (.request (.write data "x" (.text "pressed"))) fun _ => .done (.ok ())
    | _, _ => .done (.ok ())
  handles _ := []

/-- Two nodes are bound, a text is entered and a button pressed. The answer is what is shown. -/
def program (ear : Code) : Program Code (List String) String :=
  .andThen (.request .newObject) fun o =>
  .andThen (.request (.write o "x" (.text "a"))) fun _ =>
  .andThen (.request (.write o "file" .null)) fun _ =>
  .andThen (.request (.observe (.custom ear) (.object o))) fun _ =>
  .andThen (.request (.newNode (.text ""))) fun text =>
  .andThen (.request (.newNode (.ofTag "input"))) fun control =>
  let kit : Kit Code := { data := o, methods := .ofList [("press", .press)] }
  .holding [.object o] <|
  .andThen (.request (.bind .text text "x: \x7b\x7b x \x7d\x7d" kit)) fun _ =>
  .andThen (.request (.bind .model control "x" kit)) fun _ =>
  .andThen (.request (.bind (.on "click") control "press" kit)) fun _ =>
  .andThen (.request (.watch "x" o .refile)) fun _ =>
  .andThen (.request (.watch "file" o .collect)) fun _ =>
  .andThen (.request (.enter control "typed")) fun _ =>
  .andThen (.request (.dispatch control { name := "click" })) fun _ =>
  .andThen (.ask (.tree text)) fun tree => .done tree.text

/-- A hook that counts the accesses it is told of. -/
def counting : Hooks Code (List String × List (Code × Occasion)) Nat where
  body _ _ := .andThen (.updateUser fun u => (u.1, u.2 + 1)) fun _ => .done (.ok ())
  handles _ := []

/-- A hook that lists the keys that are read. -/
def listing : Hooks Code (List String × List (Code × Occasion)) (List String) where
  body
    | _, .reading key _ =>
      .andThen (.updateUser fun u => (u.1, u.2 ++ [key])) fun _ => .done (.ok ())
    | _, _ => .done (.ok ())
  handles _ := []

theorem sameButHooks : (host .counter).SameButHooks (host .lister) := by
  refine ⟨fun code occasion _ => ?_, rfl⟩
  unfold host
  dsimp only
  split <;> rfl

theorem hushed_program : (program .lister).hushed = (program .counter).hushed := rfl

theorem counting_takeNotes : counting.TakeNotes :=
  fun _ _ _ => ⟨fun _ => rfl, fun _ => trivial⟩

theorem listing_takeNotes : listing.TakeNotes := by
  intro code occasion _
  cases occasion with
  | reading key v => exact ⟨fun _ => rfl, fun _ => trivial⟩
  | _ => trivial

end Eavesdropping

open Eavesdropping in
/-- The two hooks took different notes of a run that answers, shows and calls the same. -/
theorem hooks_unheard_eavesdropping : ∃ a w w',
    ((host .counter).logged.under counting).run 4 (program .counter).beside.beside
      (.fresh (([], []), 0)) = some (a, w) ∧
    ((host .lister).logged.under listing).run 5 (program .lister).beside.beside
      (.fresh (([], []), [])) = some (a, w') ∧
    w'.hushed = w.hushed ∧ a = "x: pressed" ∧ w'.user.1.2.length = 5 ∧ w.user.2 = 14 := by
  have hends : (((host .counter).logged.under counting).run 4 (program .counter).beside.beside
      (.fresh (([], []), 0))).any (fun r =>
        decide (r.1 = "x: pressed" ∧ r.2.user.1.2.length = 5 ∧ r.2.user.2 = 14)) = true := by
    decide +kernel
  obtain ⟨⟨a, w⟩, hrun, hw⟩ := (Option.any_eq_true _ _).mp hends
  obtain ⟨ha, hcalls, hnotes⟩ := of_decide_eq_true hw
  obtain ⟨w', hrun', hsame⟩ := hooks_unheard sameButHooks counting_takeNotes listing_takeNotes
    (fun _ => rfl) (fun _ => rfl) hushed_program
    ((World.hushed_fresh (([], []), [])).trans (World.hushed_fresh (([], []), 0)).symm) hrun
  refine ⟨a, w, w', hrun, hrun', hsame, ha, ?_, hnotes⟩
  have huser : w'.user.1 = w.user.1 := congrArg World.user hsame
  rw [huser]
  exact hcalls

/-! A hook that keeps the objects it is told of. -/

namespace Hoarding

/-- A hook that writes down the values that are read. -/
def body : Unit → Occasion →
    Program Unit ((Unit × List (Unit × Occasion)) × List Value) (Except ViewError Unit)
  | _, .reading _ v => .andThen (.updateUser fun u => (u.1, v :: u.2)) fun _ => .done (.ok ())
  | _, _ => .done (.ok ())

/-- The values are written down as they are. -/
def keeping : Hooks Unit (Unit × List (Unit × Occasion)) (List Value) where
  body := body
  handles notes := notes.flatMap Value.handles

/-- The same, but weakly. -/
def letting : Hooks Unit (Unit × List (Unit × Occasion)) (List Value) where
  body := body
  handles _ := []

/-- User code that only listens. -/
def host : Host Unit Unit where
  body _ _ := .done (.ok ())
  handles _ := []

/-- An object is read out of another one and then taken out of it; meanwhile a form control is bound
to it. Is it still alive, and is anybody called when a text is entered? -/
def program : Program Unit Unit Bool :=
  .andThen (.request .newObject) fun inner =>
  .andThen (.request (.write inner "x" (.text "a"))) fun _ =>
  .andThen (.request .newObject) fun data =>
  .andThen (.request (.write data "in" (.object inner))) fun _ =>
  .andThen (.request (.observe (.custom ()) (.object data))) fun _ =>
  .andThen (.request (.newNode (.ofTag "input"))) fun control =>
  .holding [.object data] <|
  .andThen (.request (.watch "x" inner ())) fun _ =>
  .andThen (.request (.bind .model control "x" { data := inner })) fun _ =>
  .andThen (.request (.read data "in")) fun _ =>
  .andThen (.request (.write data "in" .null)) fun _ =>
  .andThen (.ask (.isAlive inner)) fun alive =>
  .andThen (.request (.enter control "typed")) fun _ => .done alive

theorem takeNotes (code : Unit) (occasion : Occasion) : (body code occasion).TakesNotes := by
  cases occasion with
  | reading key v => exact ⟨fun _ => rfl, fun _ => trivial⟩
  | _ => trivial

end Hoarding

open Hoarding in
/-- Hooks that take notes are heard if the notes keep something alive: with the one hook an object
is alive and a callback is run, with the other it is dead and no callback is run. -/
theorem hooks_unheard_not_if_kept :
    keeping.TakeNotes ∧ letting.TakeNotes ∧
    (∃ w, (host.logged.under keeping).run 3 program.beside.beside (.fresh (((), []), [])) =
      some (true, w) ∧ w.user.1.2.length = 1) ∧
    (∃ w, (host.logged.under letting).run 3 program.beside.beside (.fresh (((), []), [])) =
      some (false, w) ∧ w.user.1.2.length = 0) ∧
    ∀ depth w, (host.logged.under letting).run depth program.beside.beside
      (.fresh (((), []), [])) ≠ some (true, w) := by
  have hkept : ((host.logged.under keeping).run 3 program.beside.beside
      (.fresh (((), []), []))).any (fun r => r.1 = true ∧ r.2.user.1.2.length = 1) = true := by
    decide +kernel
  have hlost : ((host.logged.under letting).run 3 program.beside.beside
      (.fresh (((), []), []))).any (fun r => r.1 = false ∧ r.2.user.1.2.length = 0) = true := by
    decide +kernel
  obtain ⟨⟨alive, w⟩, hrun, hw⟩ := (Option.any_eq_true _ _).mp hkept
  obtain ⟨rfl, hcalls⟩ := of_decide_eq_true hw
  obtain ⟨⟨alive', w'⟩, hrun', hw'⟩ := (Option.any_eq_true _ _).mp hlost
  obtain ⟨rfl, hcalls'⟩ := of_decide_eq_true hw'
  refine ⟨fun code occasion _ => takeNotes code occasion, fun code occasion _ =>
    takeNotes code occasion, ⟨w, hrun, hcalls⟩, ⟨w', hrun', hcalls'⟩, fun depth v hv => ?_⟩
  cases (Host.run_unique hv hrun').1

end DataBinding
