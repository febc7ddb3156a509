import DataBinding.Proofs.Permanence

/-!
# The slot of the collecting watcher is bracketed

Every operation gives the slot back as it found it, whatever its callbacks build, write, dispatch
or put into the slot themselves, and also if it ends in an error. So what is built in the midst of
other contexts collects for itself alone: a new watcher is in the slot while it reads its key, and
those around it are not.
-/

namespace DataBinding

variable {κ σ α : Type}

/-- What is in the slot when a request comes to its end is what was there when it was made. -/
def Law.bracketed : Law κ σ where
  sight _ _ := True
  step _ w w' := w'.current = w.current

/-- Runs an operation inside the contexts of watchers, the first outermost. -/
def Run.within : List WatcherId → Run κ σ α → Run κ σ α
  | [], m => m
  | i :: rest, m => .collecting i (within rest m)

namespace World

variable {env : Env κ σ} {o : ObjectId} {w : World κ σ}

/-- However many watchers are collecting around it, building a watcher subscribes that one alone,
to its key. -/
theorem watch_within (hr : w.RecordedBy env o) (is : List WatcherId) (expression : String)
    (reaction : Reaction κ) :
    ∃ w', Run.within is (watch env expression o reaction) w = some (⟨w.watchers.size⟩, w') ∧
      w'.current = w.current ∧
      w'.heap = w.heap.subscribeAll (some ⟨w.watchers.size⟩) [(o, Text.trim expression)] := by
  induction is generalizing w with
  | nil =>
    obtain ⟨user, hwatch⟩ := watch_eq hr expression reaction
    exact ⟨_, hwatch, rfl, rfl⟩
  | cons i rest ih =>
    let inside : World κ σ :=
      { w with current := some i, held := w.current.toList.map .watcher ++ w.held }
    have hinside : inside.RecordedBy env o := hr
    obtain ⟨w₁, hwatch, _, hheap⟩ := ih hinside
    exact ⟨{ w₁ with current := w.current, held := w.held },
      Run.collecting_eq_some.mpr ⟨w₁, hwatch, rfl⟩, rfl, hheap⟩

end World

/-- The lists after one subscription: the watcher is appended once, where there is a list. -/
theorem Heap.subscribers_subscribeAll_singleton (h : Heap κ) (i : WatcherId) (o : ObjectId)
    (k : String) (p : ObjectId) (key : String) :
    (h.subscribeAll (some i) [(o, k)]).subscribers p key =
      h.subscribers p key ++
        if p = o ∧ key = k ∧ h.isReactive p key = true then [i] else [] := by
  unfold Heap.subscribers Heap.isReactive
  rw [Heap.cell?_subscribeAll]
  cases h.cell? p key with
  | none => simp
  | some c =>
    by_cases hplace : p = o ∧ key = k
    · obtain ⟨rfl, rfl⟩ := hplace
      simp
    · have hcount : [(o, k)].count (p, key) = 0 := by
        refine List.count_eq_zero.mpr fun hmem => hplace ?_
        obtain ⟨hp, hkey⟩ := Prod.mk.inj (List.mem_singleton.mp hmem)
        exact ⟨hp, hkey⟩
      have hno : ¬ (p = o ∧ key = k ∧ (some c).isSome = true) := fun h => hplace ⟨h.1, h.2.1⟩
      rw [if_neg hno, hcount]
      simp

/-- **The slot is well bracketed.** In every run, from every world, each request gives the slot
back as it found it, those in callbacks too, and so does the run. If the hooks of the data are
passive, building a watcher comes to an end within any contexts; it appends the new watcher, which
nobody was before, once to the field it reads, and appends nobody anywhere else. -/
theorem slot_bracketed (host : Host κ σ) :
    (∀ {α : Type} (p : Program κ σ α) (w : World κ σ),
      host.Upholds .free .bracketed p w ∧
        ∀ depth a w', host.run depth p w = some (a, w') → w'.current = w.current) ∧
    ∀ (w : World κ σ) o, w.PassiveAt host o → ∀ depth is expression reaction, ∃ i w',
      Run.within is (watch (host.env (depth + 1)) expression o reaction) w = some (i, w') ∧
        w.watcher? i = none ∧ w'.current = w.current ∧
        ∀ p key, w'.heap.subscribers p key = w.heap.subscribers p key ++
          if p = o ∧ key = Text.trim expression ∧ w.heap.isReactive p key = true
          then [i] else [] := by
  constructor
  · intro α p w
    exact ⟨host.upholds_of_returns .free (fun _ _ _ => trivial) (fun _ _ _ h => h.current) p,
      fun _ _ _ hrun => (Host.returns_of_run hrun).current⟩
  · intro w o hpassive depth is expression reaction
    obtain ⟨w', hwatch, hcurrent, hheap⟩ :=
      World.watch_within (hpassive.recordedBy depth) is expression reaction
    refine ⟨_, w', hwatch, Table.find?_eq_none_iff.mpr (Nat.le_refl _), hcurrent, fun p key => ?_⟩
    rw [hheap]
    exact Heap.subscribers_subscribeAll_singleton w.heap _ o _ p key

namespace Interleaving

/-- Told of an access, the code counts. Told of a change, it lets another watcher collect, and
there it builds one and fails. -/
def host : Host Unit Nat where
  body
    | _, .changed _ =>
      .collecting ⟨7⟩ (.andThen (.request (.watch "a" ⟨0⟩ ())) fun _ =>
        .done (.error (.methodFailed "build" "enough")))
    | _, _ => .andThen (.updateUser (· + 1)) fun _ => .done (.ok ())
  handles _ := []

theorem host_passive : host.Passive := by
  intro code occasion hon
  cases occasion with
  | reading | writing => exact ⟨trivial, fun _ => trivial⟩
  | changed | heard | called => cases hon

/-- One watcher with that code, and a write that updates it. -/
def program : Program Unit Nat Unit :=
  .andThen (.request .newObject) fun o =>
  .andThen (.request (.write o "a" (.bool false))) fun _ =>
  .andThen (.request (.observe (.custom ()) (.object o))) fun _ =>
  .andThen (.request (.watch "a" o ())) fun _ =>
  .request (.write o "a" (.bool true))

end Interleaving

/-- With watcher 9 in the slot from the start, and watchers 7 and 8 around the last one built. -/
theorem slot_bracketed_interleaving :
    ∃ w i w', Interleaving.host.run 3 Interleaving.program { user := 0, current := some ⟨9⟩ } =
        some ((), w) ∧ w.current = some ⟨9⟩ ∧ w.heap.subscribers ⟨0⟩ "a" = [⟨0⟩, ⟨1⟩] ∧
      Run.within [⟨7⟩, ⟨8⟩] (watch (Interleaving.host.env 1) " a " ⟨0⟩ (.custom ())) w =
        some (i, w') ∧ w'.current = some ⟨9⟩ ∧
      w'.heap.subscribers ⟨0⟩ "a" = [⟨0⟩, ⟨1⟩, i] := by
  have hends : (Interleaving.host.run 3 Interleaving.program
      { user := 0, current := some ⟨9⟩ }).any (fun r =>
        r.2.heap.subscribers ⟨0⟩ "a" == [⟨0⟩, ⟨1⟩] && r.2.heap.isReactive ⟨0⟩ "a") = true := by
    decide +kernel
  have hkey : Text.trim " a " = "a" := by decide +kernel
  obtain ⟨⟨_, w⟩, hrun, hfinal⟩ := (Option.any_eq_true _ _).mp hends
  obtain ⟨hlist, hreactive⟩ := (Bool.and_eq_true _ _).mp hfinal
  have hlist : w.heap.subscribers ⟨0⟩ "a" = [⟨0⟩, ⟨1⟩] := by simpa using hlist
  obtain ⟨hbrackets, hwatch⟩ := slot_bracketed Interleaving.host
  have hpassive : w.PassiveAt Interleaving.host ⟨0⟩ :=
    fun _ c _ => Interleaving.host_passive.isPassive c.hook
  have hcurrent := (hbrackets Interleaving.program _).2 3 _ w hrun
  obtain ⟨i, w', hwithin, _, hcurrent', hlists⟩ :=
    hwatch w ⟨0⟩ hpassive 0 [⟨7⟩, ⟨8⟩] " a " (.custom ())
  refine ⟨w, i, w', hrun, hcurrent, hlist, hwithin, hcurrent'.trans hcurrent, ?_⟩
  rw [hlists, hlist, hkey, if_pos ⟨rfl, rfl, hreactive⟩]
  rfl

end DataBinding
