import DataBinding.Proofs.Inspection
import DataBinding.Proofs.Settled
import DataBinding.Proofs.Twins

/-!
# Exact dependencies

A watcher gets into a list by collecting while it is built, through the one slot for the watcher
that collects. If hooks touch nothing and nobody lets a watcher collect, then whenever user code
runs the slot is empty, hooks apart, which see the watcher that is being built. So everybody in a
list belongs there, watchers of reactive fields are all there, and nothing else that user code does
adds an entry.

This is so at every moment of every run, whether the run ends or not: an inspector who looks at all
of them finds nothing.
-/

namespace DataBinding

variable {κ σ : Type}

/-- Hooks touch nothing, and nobody lets a watcher collect. -/
def Conduct.handsOff : Conduct κ σ where
  mayRequest on _ _ := !on.any Occasion.isAccess
  mayCollect _ _ _ := false

/-- New watchers of reactive fields are in their lists. -/
def World.EnrollsNew (w w' : World κ σ) : Prop :=
  ∀ i x, w'.watcher? i = some x → w.watchers.size ≤ i.index →
    w'.heap.isReactive x.data x.key = true → i ∈ w'.heap.subscribers x.data x.key

/-- What a request does about watchers: reading builds none and adds nobody to a list; building one
binds it to the trimmed key; and whoever is built for a reactive field is in its list. -/
def Request.Enrolls {α : Type} (w w' : World κ σ) : Request κ α → Prop
  | .read _ _ | .render _ _ | .getProperty _ _ =>
    w'.watchers.size = w.watchers.size ∧
      ∀ o key, w'.heap.subscribers o key = w.heap.subscribers o key
  | .watch expression o _ =>
    w'.watchers.size = w.watchers.size + 1 ∧
      (w'.watcher? ⟨w.watchers.size⟩).map (fun x => (x.data, x.key)) =
        some (o, Text.trim expression) ∧
      w.EnrollsNew w'
  | .bind _ _ _ _ | .compile _ _ | .mount _ _ _ => w.EnrollsNew w'
  | _ => True

/-- The lists are exact and nobody collects, except while a watcher reads its key for the first
time. A request adds only watchers to the lists that are built meanwhile. -/
def Law.dependencies : Law κ σ where
  sight on w := w.Exact ∧ (on.any Occasion.isAccess = false → w.current = none)
  step r w w' := w.Enrolls w' ∧ r.Enrolls w w'

open World

theorem World.Builds.enrollsNew {w w' : World κ σ} (h : w.Builds w') : w.EnrollsNew w' :=
  fun _ _ hx hnew hreactive => h.enrolls.enrolled hx hnew ((h.reactive _ _).symm.trans hreactive)

/-! ## Requests -/

namespace Env.Twins

open Run (Alike)

variable {e e' : Env κ σ} {α : Type}

/-- A change that touches no list, with its answer. -/
theorem changing {f : World κ σ → α × World κ σ} (hkeeps : ∀ w : World κ σ, w.Keeps (f w).2)
    (hcurrent : ∀ w, (f w).2.current = w.current) :
    Alike Enrolls (Request.changing f) (Request.changing f) := by
  intro w hw
  refine ⟨rfl, fun a w' h => ?_⟩
  have hw' : (f w).2 = w' := (Prod.ext_iff.mp (Run.changing_eq_some.mp h)).2
  rw [← hw']
  exact ⟨hw.of_lists (hkeeps w).lists (hcurrent w), (hkeeps w).builds.enrolls⟩

theorem keeps_of_cells {w w' : World κ σ} (hwatchers : w'.watchers = w.watchers)
    (hcells : ∀ o key, w'.heap.cell? o key = w.heap.cell? o key) : w.Keeps w' :=
  ⟨.of_watchers hwatchers fun o key => Heap.subscribers_congr (hcells o key),
    fun o key => congrArg Option.isSome (hcells o key)⟩

theorem watch_enrolls (h : e.Twins e') (expression : String) (o : ObjectId) (code : κ) :
    Alike (fun w w' => w.Enrolls w' ∧ (Request.watch expression o code).Enrolls w w')
      (DataBinding.watch e expression o (.custom code))
      (DataBinding.watch e' expression o (.custom code)) := by
  intro w hw
  obtain ⟨heq, hmoves⟩ := h.watch building_builds expression o (.custom code) hw
  obtain ⟨user, _, hwatch'⟩ := h.watch_eq expression o (.custom code) hw
  refine ⟨heq, fun i w' hr => ?_⟩
  obtain ⟨hw', hbuilds⟩ := hmoves hr
  rw [hwatch'] at hr
  obtain ⟨_, rfl⟩ := Prod.mk.inj (Option.some.inj hr)
  refine ⟨hw', hbuilds.enrolls, by simp [World.watching], ?_, hbuilds.enrollsNew⟩
  have hnew := World.watcher?_watching o w (Text.trim expression, .custom code) ⟨w.watchers.size⟩
  rw [if_pos rfl] at hnew
  show ((World.watching o w (Text.trim expression, .custom code)).watcher? _).map _ = _
  rw [hnew]
  rfl

/-- What is observed before a tree is compiled is reactive for the watchers that are built. -/
theorem mount (h : e.Twins e') (place : Mount) (hook : Hook κ) (kit : Kit κ) :
    Alike (fun w w' => w.Enrolls w' ∧ w.EnrollsNew w') (mount e place hook kit)
      (mount e' place hook kit) := by
  have hbuilds : ∀ {w w' : World κ σ}, w.Builds w' → w.Enrolls w' ∧ w.EnrollsNew w' :=
    fun hb => ⟨hb.enrolls, hb.enrollsNew⟩
  refine .after_get fun w _ => ?_
  split
  · exact Alike.mono (R := Builds) (.pure carried_builds _) hbuilds
  · next root _ =>
    refine .andThen (S := Builds) ?_ (observing hook [.object kit.data]) fun _ => ?_
    · intro a b c hab hbc
      refine ⟨hab.2.trans hbc.enrolls, fun i x hx hnew hreactive => ?_⟩
      have := hab.1.size
      exact hbc.enrollsNew i x hx (by omega) hreactive
    · refine .bind carried_builds ((h.buildsSideBySide building_builds).compile kit root)
        fun result => ?_
      split
      · exact .pure carried_builds _
      · exact .after_get fun _ _ => .pure carried_builds _

/-- Every request keeps the lists in order. -/
theorem request (h : e.Twins e') (r : Request κ α) :
    Alike Enrolls (r.perform e) (r.perform e') := by
  have hdocument : ∀ (f : Document κ → Document κ), Alike Enrolls
      (modify (World.mapDocument f) : Run κ σ Unit) (modify (World.mapDocument f)) :=
    fun f => .marking building_enrolls.toTolerant fun _ => ⟨_, rfl⟩
  have hside : SideBySide e e' Eq fun m m' : Run κ σ _ => Alike Enrolls m m' :=
    h.sideBySide building_enrolls.toTolerant
  have hbuilds : BuildsSideBySide e e' Eq fun m m' : Run κ σ _ => Alike Enrolls m m' :=
    h.buildsSideBySide building_enrolls
  cases r with
  | newObject =>
    exact changing (fun w => keeps_of_cells rfl fun o key => Heap.cell?_alloc (fun _ => rfl) o key)
      fun _ => rfl
  | newArray items => exact changing (fun w => keeps_of_cells rfl fun o key => rfl) fun _ => rfl
  | ofJson j =>
    exact changing (fun w => keeps_of_cells rfl fun o key => Heap.cell?_ofJson w.heap j o key)
      fun _ => rfl
  | read o key => exact hside.read o key
  | write o key v => exact h.write o key v
  | observe hook v => exact .mono (observing hook [v]) And.right
  | watch expression o code => exact hbuilds.watch expression o _
  | update i => exact h.update i
  | render t o => exact hside.render t o
  | newNode content => exact changing (fun w => .of_heap rfl rfl) fun _ => rfl
  | setAttribute n name value => exact hdocument _
  | setText n text => exact hdocument _
  | setValue n text => exact hdocument _
  | appendChildren n children => exact hdocument _
  | detachChildren n => exact changing (fun w => .of_heap rfl rfl) fun _ => rfl
  | listen n event code => exact hdocument _
  | dispatch n event => exact hside.dispatch h.deliver n event
  | enter n text => exact hside.enter h.deliver n text
  | bind d n expression kit => exact hbuilds.directive n expression kit d
  | compile kit root => exact hbuilds.compile kit root
  | mount place hook kit => exact .mono (h.mount place hook kit) And.left
  | getProperty app key => exact hside.getProperty (hside.read app.data) key
  | setProperty app key v => exact hside.setProperty (h.write app.data) key v
  | callMethod method o event => exact .holding carried_enrolls _ (h.calls _ _ rfl)

/-- Every request does about watchers what it has to do. -/
theorem perform (h : e.Twins e') (r : Request κ α) :
    Alike (fun w w' => w.Enrolls w' ∧ r.Enrolls w w') (r.perform e) (r.perform e') := by
  have hreads : ∀ {w w' : World κ σ}, w.Keeps w' → w.Enrolls w' ∧
      w'.watchers.size = w.watchers.size ∧
        ∀ o key, w'.heap.subscribers o key = w.heap.subscribers o key :=
    fun hk => ⟨hk.builds.enrolls, hk.lists.size, hk.lists.subscribers⟩
  have hbuilds : ∀ {w w' : World κ σ}, w.Builds w' → w.Enrolls w' ∧ w.EnrollsNew w' :=
    fun hb => ⟨hb.enrolls, hb.enrollsNew⟩
  have hside : SideBySide e e' Eq fun m m' : Run κ σ _ => Alike Keeps m m' :=
    h.sideBySide tolerant_keeps
  -- of all requests but those that read, build or mount no more is said
  cases r with
  | read o key => exact .mono (hside.read o key) hreads
  | render t o => exact .mono (hside.render t o) hreads
  | getProperty app key =>
    exact .mono (hside.getProperty (hside.read app.data) key) hreads
  | watch expression o code => exact h.watch_enrolls expression o code
  | bind d n expression kit =>
    exact .mono ((h.buildsSideBySide building_builds).directive n expression kit d) hbuilds
  | compile kit root =>
    exact .mono ((h.buildsSideBySide building_builds).compile kit root) hbuilds
  | mount place hook kit => exact h.mount place hook kit
  | _ => exact .mono (h.request _) fun he => ⟨he, trivial⟩

end Env.Twins

/-! ## Programs -/

/-- A hook that is kept from all requests touches nothing but the state of the user, inspected or
not. -/
theorem Program.inspect_record {e e' : Env κ σ} (hhandles : e.handles = e'.handles)
    {on : Option Occasion} (hon : on.any Occasion.isAccess = true) {α : Type}
    (p : Program κ σ α) :
    Run.Record (p.inspect .handsOff .dependencies on e) (p.inspect .handsOff .any on e') := by
  have hsight : ∀ w : World κ σ, w.Exact → Law.dependencies.sight on w := fun w hw =>
    ⟨hw, fun hnot => by rw [hon] at hnot; cases hnot⟩
  have huser : ∀ (w : World κ σ) (user : σ), w.Exact → Exact { w with user } := fun w user =>
    SameLists.exact (.of_watchers rfl fun _ _ => rfl)
  have hany : ∀ w : World κ σ, Law.any.sight on w := fun _ => trivial
  -- a hook is refused every request, so all that is left of it is what it records
  induction p with
  | done a => exact fun w _ => ⟨some a, w.user, rfl, rfl⟩
  | andThen p next ihp ihn =>
    intro w hw
    obtain ⟨answer, user, hp, hp'⟩ := ihp hw
    unfold inspect
    cases answer with
    | none =>
      exact ⟨none, user, Run.bind_eq_some.mpr ⟨none, _, hp, rfl⟩,
        Run.bind_eq_some.mpr ⟨none, _, hp', rfl⟩⟩
    | some a =>
      obtain ⟨answer, user', hnext, hnext'⟩ := ihn a (huser w user hw)
      exact ⟨answer, user', Run.bind_eq_some.mpr ⟨some a, _, hp, hnext⟩,
        Run.bind_eq_some.mpr ⟨some a, _, hp', hnext'⟩⟩
  | ask q =>
    intro w hw
    refine ⟨_, w.user, inspect_ask q (hsight w hw), ?_⟩
    rw [hhandles]
    exact inspect_ask q (hany w)
  | request r =>
    intro w hw
    have hmay : Conduct.handsOff.mayRequest on w r = false := by
      simp [Conduct.handsOff, hon]
    refine ⟨none, w.user, ?_, ?_⟩
    · rw [inspect_request r (hsight w hw), if_neg (by simp [hmay])]
    · rw [inspect_request r (hany w), if_neg (by simp [hmay])]
  | getUser => exact fun w _ => ⟨some w.user, w.user, rfl, rfl⟩
  | updateUser f => exact fun w _ => ⟨some (), f w.user, rfl, rfl⟩
  | holding hs p ih =>
    intro w hw
    have hlists : w.SameLists { w with held := hs ++ w.held } := .of_watchers rfl fun _ _ => rfl
    obtain ⟨answer, user, hp, hp'⟩ := ih (hlists.exact hw)
    exact ⟨answer, user, Run.holding_eq_some.mpr ⟨_, hp, rfl⟩,
      Run.holding_eq_some.mpr ⟨_, hp', rfl⟩⟩
  | collecting i p ih => exact fun w _ => ⟨none, w.user, rfl, rfl⟩

/-- All other code, inspected or not, does the same and keeps the lists in order. -/
theorem Program.inspect_alike {e e' : Env κ σ} (h : e.Twins e') {on : Option Occasion}
    (hon : on.any Occasion.isAccess = false) {α : Type} (p : Program κ σ α) :
    Run.Alike Enrolls (p.inspect .handsOff .dependencies on e)
      (p.inspect .handsOff .any on e') := by
  have hsight : ∀ w : World κ σ, w.InOrder → Law.dependencies.sight on w := fun w hw =>
    ⟨hw.exact, fun _ => hw.current⟩
  have hany : ∀ w : World κ σ, Law.any.sight on w := fun _ => trivial
  induction p with
  | done a => exact .pure carried_enrolls _
  | andThen p next ihp ihn =>
    unfold inspect
    refine .bind carried_enrolls ihp fun answer => ?_
    cases answer with
    | none => exact .pure carried_enrolls _
    | some a => exact ihn a
  | ask q =>
    intro w hw
    rw [inspect_ask q (hsight w hw), inspect_ask q (hany w), h.handles]
    refine ⟨rfl, fun a w' hr => ?_⟩
    obtain ⟨_, rfl⟩ := Prod.mk.inj (Option.some.inj hr)
    exact ⟨hw, carried_enrolls.refl w⟩
  | request r =>
    intro w hw
    have hmay : Conduct.handsOff.mayRequest on w r = true := by
      simp [Conduct.handsOff, hon]
    obtain ⟨heq, hmoves⟩ := h.perform r hw
    refine ⟨inspect_request_congr r (hsight w hw) (fun _ => heq) fun _ _ w' hp => ?_,
      fun answer w' hr => ?_⟩
    · obtain ⟨hw', hstep⟩ := hmoves hp
      exact ⟨hsight w' hw', hstep⟩
    · rcases of_inspect_request hr with ⟨_, a, hp⟩ | rfl
      · obtain ⟨hw', hstep⟩ := hmoves hp
        exact ⟨hw', hstep.1⟩
      · exact ⟨hw, carried_enrolls.refl w'⟩
  | getUser => exact .after_get fun _ _ => .pure carried_enrolls _
  | updateUser f =>
    refine .bind carried_enrolls (.changing (fun w => ?_) (fun _ => rfl) fun w => ?_) fun _ =>
      .pure carried_enrolls _
    · exact .of_watchers rfl fun _ _ => rfl
    · exact building_enrolls.keeps (.of_heap rfl rfl)
  | holding hs p ih => exact .holding carried_enrolls hs ih
  | collecting i p ih => exact .pure carried_enrolls _

/-- At every depth callbacks do the same whether the lists are inspected or not. -/
theorem Host.envInspected_twins (host : Host κ σ) (levels depth : Nat) :
    (host.envInspected .handsOff .dependencies levels depth).Twins
      (host.envInspected .handsOff .any levels depth) := by
  have hhandles : ∀ depth, (host.envInspected .handsOff .dependencies levels depth).handles =
      (host.envInspected .handsOff .any levels depth).handles := fun depth => by
    rw [handles_envInspected, handles_envInspected]
  have hlevels : ∀ depth, (host.envInspected .handsOff .dependencies levels depth).depth =
      (host.envInspected .handsOff .any levels depth).depth := fun depth => by
    rw [depth_envInspected, depth_envInspected]
  induction depth with
  | zero =>
    refine ⟨hhandles 0, hlevels 0, fun _ _ _ w _ => ⟨.ok (), w.user, rfl, rfl⟩, ?_⟩
    exact fun _ _ _ => .pure carried_enrolls _
  | succ depth ih =>
    refine ⟨hhandles _, hlevels _, fun code occasion ho w hw => ?_, fun code occasion ho => ?_⟩
    · have hon : (some occasion).any Occasion.isAccess = true := by simpa using ho
      obtain ⟨answer, user, hp, hp'⟩ :=
        (host.body code occasion).inspect_record ih.handles hon hw
      exact ⟨_, user, Run.bind_eq_some.mpr ⟨_, _, hp, rfl⟩, Run.bind_eq_some.mpr ⟨_, _, hp', rfl⟩⟩
    · exact .bind carried_enrolls ((host.body code occasion).inspect_alike ih (by simpa using ho))
        fun _ => .pure carried_enrolls _

theorem World.fresh_inOrder (user : σ) : (World.fresh user : World κ σ).InOrder :=
  ⟨rfl, .of_bound (fun hi => by cases hi) fun _ _ => .nil⟩

/-- **Exact dependencies.** In a run in which hooks touch nothing and nobody lets a watcher
collect, whatever user code sees, in callbacks too, the lists are exact, nobody collects except
under a hook, and requests have added only watchers that were built meanwhile, each to the list of
its own field. A run that ends has been inspected to its end. -/
theorem exact_dependencies (host : Host κ σ) {α : Type} (p : Program κ σ α) (user : σ) :
    host.Upholds .handsOff .dependencies p (.fresh user) ∧
      ∀ depth a w, host.run depth p (.fresh user) = some (a, w) →
        host.Obeys .handsOff depth p (.fresh user) →
        host.inspect .handsOff .dependencies depth depth p (.fresh user) = some (some a, w) ∧
          w.Exact ∧ w.current = none := by
  have halike : ∀ levels depth, Run.Alike Enrolls
      (host.inspect .handsOff .dependencies levels depth p)
      (host.inspect .handsOff .any levels depth p) := fun levels depth =>
    p.inspect_alike (host.envInspected_twins levels depth) rfl
  refine ⟨fun levels depth => (halike levels depth (fresh_inOrder user)).1, ?_⟩
  intro depth a w hrun hob
  obtain ⟨heq, hmoves⟩ := halike depth depth (fresh_inOrder user)
  have hany := Host.inspect_of_run hrun hob
  have hw := (hmoves hany).1
  exact ⟨heq.trans hany, hw.exact, hw.current⟩

namespace Nesting

/-- The hook `false` counts what it is told of. The callback `true` reads the key that has changed
and watches it once more. -/
def host : Host Bool Nat where
  body
    | false, _ => .andThen (.updateUser (· + 1)) fun _ => .done (.ok ())
    | true, _ =>
      .andThen (.request (.read ⟨0⟩ "a")) fun _ =>
      .andThen (.request (.watch " a " ⟨0⟩ false)) fun _ => .done (.ok ())
  handles _ := []

/-- A watcher with that callback on a field with that hook, and a write. -/
def program : Program Bool Nat Unit :=
  .andThen (.request .newObject) fun o =>
  .andThen (.request (.write o "a" (.bool false))) fun _ =>
  .andThen (.request (.observe (.custom false) (.object o))) fun _ =>
  .andThen (.request (.watch "a" o true)) fun _ =>
  .request (.write o "a" (.bool true))

end Nesting

theorem exact_dependencies_nested :
    ∃ u w, Nesting.host.run 3 Nesting.program (.fresh 0) = some (u, w) ∧
      Nesting.host.Obeys .handsOff 3 Nesting.program (.fresh 0) ∧ w.user = 4 ∧
      w.heap.subscribers ⟨0⟩ "a" = [⟨0⟩, ⟨1⟩] ∧
      Nesting.host.inspect .handsOff .dependencies 3 3 Nesting.program (.fresh 0) =
        some (some u, w) ∧ w.Exact := by
  have hends : (Nesting.host.run 3 Nesting.program (.fresh 0)).any
      (fun r => r.2.user == 4 && r.2.heap.subscribers ⟨0⟩ "a" == [⟨0⟩, ⟨1⟩]) = true := by
    decide +kernel
  have hob : Nesting.host.Obeys .handsOff 3 Nesting.program (.fresh 0) := by
    unfold Host.Obeys
    decide +kernel
  obtain ⟨⟨u, w⟩, hrun, hfinal⟩ := (Option.any_eq_true _ _).mp hends
  obtain ⟨huser, hlist⟩ := (Bool.and_eq_true _ _).mp hfinal
  obtain ⟨hinspect, hexact, _⟩ :=
    (exact_dependencies Nesting.host Nesting.program 0).2 3 u w hrun hob
  exact ⟨u, w, hrun, hob, by simpa using huser, by simpa using hlist, hinspect, hexact⟩

end DataBinding
