import DataBinding.Proofs.Firing
import DataBinding.Proofs.Observation

/-!
# What a hook sees when it is told of a write

A hook is told of a write between two of its steps: the new value has been observed, and it has not
been stored. So what the hook reads, by whatever path, is what there was before the write; what can
be reached from the new value is reactive; and the subscribers are still to be updated. This is the
other way round than it is documented, where the value is stored before the hook is told.

A hook that only reads leaves it at that: reads subscribe whoever is collecting and tell further
hooks, and neither shows. So it is seen at every moment while the hook runs, in the hooks of nested
reads too.
-/

namespace DataBinding

variable {κ σ α β : Type}

/-! ## Reading leaves nothing that can be read -/

/-- Nothing has changed since an earlier world but subscriptions of the collecting watcher, what is
held and the state of the user. -/
structure World.Untouched (w u : World κ σ) : Prop where
  heap : ∃ places, u.heap = w.heap.subscribeAll w.current places
  current : u.current = w.current
  watchers : u.watchers = w.watchers
  document : u.document = w.document

namespace World.Untouched

variable {w u u' : World κ σ}

theorem refl (w : World κ σ) : w.Untouched w :=
  ⟨⟨[], (w.heap.subscribeAll_nil _).symm⟩, rfl, rfl, rfl⟩

/-- Only what is held and the state of the user has changed. -/
theorem of_same (h : w.Untouched u) (hheap : u'.heap = u.heap) (hcurrent : u'.current = u.current)
    (hwatchers : u'.watchers = u.watchers) (hdocument : u'.document = u.document) :
    w.Untouched u' := by
  obtain ⟨places, hplaces⟩ := h.heap
  exact ⟨⟨places, hheap.trans hplaces⟩, hcurrent.trans h.current, hwatchers.trans h.watchers,
    hdocument.trans h.document⟩

theorem subscribeCurrent (h : w.Untouched u) (o : ObjectId) (key : String) :
    w.Untouched (u.subscribeCurrent o key) := by
  obtain ⟨places, hplaces⟩ := h.heap
  rw [World.subscribeCurrent_eq]
  refine ⟨⟨places ++ [(o, key)], ?_⟩, h.current, h.watchers, h.document⟩
  show u.heap.subscribeAll u.current [(o, key)] = _
  rw [hplaces, h.current, Heap.subscribeAll_append]

end World.Untouched

/-- In worlds of a kind, two runs do the same and do not leave them. -/
def Run.StaysIn (P : World κ σ → Prop) (m m' : Run κ σ α) : Prop :=
  ∀ ⦃w⦄, P w → m w = m' w ∧ ∀ ⦃a w'⦄, m' w = some (a, w') → P w'

namespace Run.StaysIn

variable {P : World κ σ → Prop} {m m' : Run κ σ α}

theorem pure (a : α) : StaysIn P (Pure.pure a) (Pure.pure a) := by
  refine fun w hw => ⟨rfl, fun b w' h => ?_⟩
  rwa [← (Run.pure_eq_some.mp h).2]

theorem bind {f f' : α → Run κ σ β} (hm : StaysIn P m m') (hf : ∀ a, StaysIn P (f a) (f' a)) :
    StaysIn P (m >>= f) (m' >>= f') := by
  intro w hw
  obtain ⟨heq, hstays⟩ := hm hw
  refine ⟨Run.bind_congr heq fun h => (hf _ (hstays h)).1, fun b w' h => ?_⟩
  obtain ⟨a, w₁, h₁, h₂⟩ := Run.bind_eq_some.mp h
  exact (hf a (hstays h₁)).2 h₂

theorem after_get {f f' : World κ σ → Run κ σ α} (hf : ∀ w, StaysIn P (f w) (f' w)) :
    StaysIn P (get >>= f) (get >>= f') := by
  intro w hw
  rw [Run.get_bind, Run.get_bind]
  exact hf w hw

theorem modify {f : World κ σ → World κ σ} (hf : ∀ w, P w → P (f w)) :
    StaysIn P (modify f : Run κ σ Unit) (modify f) := by
  refine fun w hw => ⟨rfl, fun u w' h => ?_⟩
  rw [← Run.modify_eq_some.mp h]
  exact hf w hw

theorem discard (hm : StaysIn P m m') :
    StaysIn P (Functor.discard m) (Functor.discard m') := by
  intro w hw
  obtain ⟨heq, hstays⟩ := hm hw
  refine ⟨Run.discard_congr heq, fun u w' h => ?_⟩
  obtain ⟨a, h⟩ := Run.discard_eq_some.mp h
  exact hstays h

theorem holding (hP : ∀ (w : World κ σ) held, P w → P { w with held }) (hs : List Handle)
    (hm : StaysIn P m m') : StaysIn P (Run.holding hs m) (Run.holding hs m') := by
  intro w hw
  obtain ⟨heq, hstays⟩ := hm (hP w (hs ++ w.held) hw)
  refine ⟨Run.holding_congr heq, fun a w' h => ?_⟩
  obtain ⟨w₁, h₁, rfl⟩ := Run.holding_eq_some.mp h
  exact hP w₁ w.held (hstays h₁)

end Run.StaysIn

/-- Two environments whose hooks do the same and only read. -/
structure Env.GazesAlike (start : World κ σ) (e e' : Env κ σ) : Prop where
  handles : e.handles = e'.handles
  call : ∀ code occasion, occasion.isAccess = true →
    Run.StaysIn start.Untouched (e.call code occasion) (e'.call code occasion)

theorem Run.StaysIn.held {start : World κ σ} {m m' : Run κ σ α} (hs : List Handle)
    (hm : StaysIn start.Untouched m m') :
    StaysIn start.Untouched (Run.holding hs m) (Run.holding hs m') :=
  .holding (fun _ _ hw => hw.of_same rfl rfl rfl rfl) hs hm

namespace Env.GazesAlike

open Run (StaysIn)

variable {start : World κ σ} {e e' : Env κ σ}

theorem tell (h : e.GazesAlike start e') (hook : Hook κ) {occasion : Occasion}
    (ho : occasion.isAccess = true) :
    StaysIn start.Untouched (e.tell hook occasion) (e'.tell hook occasion) := by
  cases hook with
  | silent => exact .pure ()
  | custom code => exact .discard (h.call code occasion ho)

theorem read (h : e.GazesAlike start e') (o : ObjectId) (key : String) :
    StaysIn start.Untouched (read e o key) (read e' o key) := by
  refine .after_get fun w => ?_
  split
  · exact .pure _
  · exact .pure _
  · exact .bind (.modify fun _ hw => hw.subscribeCurrent o key) fun _ =>
      .bind (.held _ (h.tell _ rfl)) fun _ => .pure _

theorem renderSegments (h : e.GazesAlike start e') (o : ObjectId) (segments : List Segment) :
    StaysIn start.Untouched (renderSegments e o segments) (renderSegments e' o segments) := by
  induction segments with
  | nil => exact .pure _
  | cons s rest ih =>
    refine .bind ?_ fun _ => .bind ih fun _ => .pure _
    cases s with
    | literal text => exact .pure _
    | marker key => exact .bind (h.read o key) fun _ => .after_get fun _ => .pure _

/-- A request that only reads. -/
theorem perform (h : e.GazesAlike start e') {r : Request κ α} (hr : r.onlyReads = true) :
    StaysIn start.Untouched (r.perform e) (r.perform e') := by
  cases r with
  | read o key => exact h.read o key
  | render t o => exact h.renderSegments o t.segments
  | getProperty app key =>
    show StaysIn _ (app.get e key) (app.get e' key)
    unfold App.get
    split
    · exact .bind (h.read _ _) fun _ => .pure _
    · exact .pure _
  | _ => cases hr

end Env.GazesAlike

/-! ## Hooks under inspection -/

/-- An inspector who checks no more than what reading leaves alone is not noticed in a hook that
only reads. -/
theorem Program.inspect_gazes {start : World κ σ} {e e' : Env κ σ} (h : e.GazesAlike start e')
    {law : Law κ σ} (hsight : ∀ on u, start.Untouched u → law.sight on u)
    (hstep : ∀ {α : Type} (r : Request κ α) (u u' : World κ σ), law.step r u u')
    {occasion : Occasion} (ho : occasion.isAccess = true) (p : Program κ σ α) :
    Run.StaysIn start.Untouched (p.inspect .hooksRead law (some occasion) e)
      (p.inspect .hooksRead .any (some occasion) e') := by
  have hany : ∀ w : World κ σ, Law.any.sight (some occasion) w := fun _ => trivial
  induction p with
  | done a => exact .pure _
  | andThen p next ihp ihn =>
    unfold inspect
    refine .bind ihp fun answer => ?_
    cases answer with
    | none => exact .pure _
    | some a => exact ihn a
  | ask q =>
    intro w hw
    rw [inspect_ask q (hsight _ w hw), inspect_ask q (hany w), h.handles]
    refine ⟨rfl, fun a w' hr => ?_⟩
    obtain ⟨_, rfl⟩ := Prod.mk.inj (Option.some.inj hr)
    exact hw
  | request r =>
    intro w hw
    -- a hook is stopped at every request that does not only read
    have hreads : (Conduct.hooksRead : Conduct κ σ).mayRequest (some occasion) w r = true →
        r.onlyReads = true := fun hmay => by simpa [Conduct.hooksRead, ho] using hmay
    refine ⟨inspect_request_congr r (hsight _ w hw) (fun hmay => (h.perform (hreads hmay) hw).1)
      fun hmay _ w' hp => ?_, fun answer w' hr => ?_⟩
    · exact ⟨hsight _ w' ((h.perform (hreads hmay) hw).2 hp), hstep r w w'⟩
    · rcases of_inspect_request hr with ⟨hmay, a, hp⟩ | rfl
      · exact (h.perform (hreads hmay) hw).2 hp
      · exact hw
  | getUser => exact .after_get fun _ => .pure _
  | updateUser f =>
    exact .bind (.modify fun _ hw => hw.of_same rfl rfl rfl rfl) fun _ => .pure _
  | holding hs p ih => exact .held hs ih
  | collecting i p ih =>
    refine .after_get fun w => ?_
    have hmay : Conduct.hooksRead.mayCollect (some occasion) w i = false := by
      simp [Conduct.hooksRead, ho]
    rw [hmay]
    exact .pure _

/-- At every depth hooks do the same whether they are inspected or not. -/
theorem Host.envInspected_gazes (host : Host κ σ) {start : World κ σ} {law : Law κ σ}
    (hsight : ∀ on u, start.Untouched u → law.sight on u)
    (hstep : ∀ {α : Type} (r : Request κ α) (u u' : World κ σ), law.step r u u')
    (levels depth : Nat) :
    (host.envInspected .hooksRead law levels depth).GazesAlike start
      (host.envInspected .hooksRead .any levels depth) := by
  induction depth with
  | zero => exact ⟨by simp only [handles_envInspected], fun _ _ _ => .pure (Except.ok ())⟩
  | succ depth ih =>
    refine ⟨by simp only [handles_envInspected], fun code occasion ho => ?_⟩
    have hbody := (host.body code occasion).inspect_gazes ih hsight hstep ho
    exact hbody.bind fun answer => .pure (answer.getD (.ok ()))

/-! ## Between observing and storing -/

/-- The world in which the hook of a field is told of a write: the value has been observed. -/
def World.telling (w : World κ σ) (o : ObjectId) (hook : Hook κ) (v : Value) : World κ σ :=
  { w with heap := w.heap.intercept hook [v], held := .object o :: v.handles ++ w.held }

/-- While a value is being written, the data reads as before the write, by all paths; what can be
reached from the value is reactive; and no watcher and no node has changed. -/
structure World.BeforeStore (w : World κ σ) (v : Value) (u : World κ σ) : Prop where
  peek : ∀ o key, u.heap.peek o key = w.heap.peek o key
  read : ∀ (env : Env κ σ) o key x u', DataBinding.read env o key u = some (x, u') →
    x = w.heap.peek o key
  toJson : ∀ x, u.heap.toJson x = w.heap.toJson x
  text : ∀ x, u.heap.text x = w.heap.text x
  observed : ∀ p, w.heap.ReachedFrom [v] p → u.heap.AllReactive p
  watchers : u.watchers = w.watchers
  document : u.document = w.document

/-- The law that it is so at every moment. -/
def Law.beforeStore (w : World κ σ) (v : Value) : Law κ σ where
  sight _ u := w.BeforeStore v u
  step _ _ _ := True

/-- A read answers with the value that the field had at its start, whatever its hook does. -/
theorem eq_peek_of_read {env : Env κ σ} {o : ObjectId} {key : String} {w w' : World κ σ}
    {x : Value} (hread : read env o key w = some (x, w')) : x = w.heap.peek o key := by
  unfold read at hread
  rw [Run.get_bind] at hread
  cases hs : w.heap.slot? o key with
  | none =>
    rw [hs] at hread
    rw [← (Run.pure_eq_some.mp hread).1]
    simp [Heap.peek, hs]
  | some s =>
    rw [hs] at hread
    cases s with
    | plain value =>
      rw [← (Run.pure_eq_some.mp hread).1]
      simp [Heap.peek, hs, Slot.value]
    | reactive cell =>
      obtain ⟨_, _, _, hread⟩ := Run.bind_eq_some.mp hread
      obtain ⟨_, _, _, hread⟩ := Run.bind_eq_some.mp hread
      rw [← (Run.pure_eq_some.mp hread).1]
      simp [Heap.peek, hs, Slot.value]

/-- Subscriptions make no field plain. -/
theorem Heap.AllReactive.subscribeAll {h : Heap κ} {p : ObjectId} (hp : h.AllReactive p)
    (current : Option WatcherId) (places : List (ObjectId × String)) :
    (h.subscribeAll current places).AllReactive p := by
  have hkeys : ((h.subscribeAll current places).slots p).keys = (h.slots p).keys := by
    have hfields := h.fields_subscribeAll current places p
    rw [fields_eq_map_keys, fields_eq_map_keys] at hfields
    simpa [List.map_map, Function.comp_def] using congrArg (List.map Prod.fst) hfields
  intro key hkey
  have hreactive := hp key (hkeys ▸ hkey)
  cases current with
  | none => exact hreactive
  | some i => rwa [isReactive, cell?_subscribeAll, Option.isSome_map]

/-- As long as nothing is touched, it is as it was when the hook was told. -/
theorem World.Untouched.beforeStore {w u : World κ σ} {o : ObjectId} {hook : Hook κ} {v : Value}
    (h : (w.telling o hook v).Untouched u) : w.BeforeStore v u := by
  obtain ⟨places, hheap⟩ := h.heap
  have hpeek : ∀ p key, u.heap.peek p key = w.heap.peek p key := by
    intro p key
    rw [hheap, Heap.peek_subscribeAll]
    exact Heap.peek_intercept _ _ _ _ _
  have hfields : ∀ p, u.heap.fields p = (w.heap.intercept hook [v]).fields p := by
    intro p
    rw [hheap, Heap.fields_subscribeAll]
    rfl
  have hmirrors := Heap.mirrors_intercept hook w.heap [v]
  refine ⟨hpeek, fun env p key x u' hread => ?_, fun x => ?_, fun x => ?_, fun p hr => ?_,
    h.watchers, h.document⟩
  · rw [eq_peek_of_read hread, hpeek]
  · exact (Heap.toJson_snapshotBelow_congr hfields [] x).trans (hmirrors.toJson (.refl x)).symm
  · exact (Heap.text_congr hfields x).trans (hmirrors.text (.refl x)).symm
  · rw [hheap]
    exact ((Heap.allReactive_intercept hook w.heap [v] p).mpr (.inr hr)).subscribeAll _ _

/-- **A hook is told of a write before the value is stored.** A write of another value to a reactive
field observes the value, tells the hook, stores the value and then updates the subscribers. While a
hook runs that only reads, it and the hooks of its reads see the data as it was before the write, so
never the new value in the field. What can be reached from the new value is reactive then, and no
watcher has seen a change. If the hook keeps to reading up to its end, all of its run has been
inspected. -/
theorem hook_told_before_store (host : Host κ σ) {w : World κ σ} {o : ObjectId} {key : String}
    {c : Cell κ} {v : Value} (hc : w.heap.cell? o key = some c)
    (hne : c.value.strictEq v = false) :
    let told (env : Env κ σ) := env.tell c.hook (.writing key v) (w.telling o c.hook v)
    (∀ depth, write (host.env depth) o key v w = (told (host.env depth)).bind fun r =>
        (do
          modify (World.mapHeap fun h => h.store o key v)
          .holding [.object o] (notify (host.env depth) o key) : Run κ σ Unit)
          { r.2 with held := w.held }) ∧
      (∀ levels depth, told (host.envInspected .hooksRead (.beforeStore w v) levels depth) =
        told (host.envInspected .hooksRead .any levels depth)) ∧
      (∀ depth u, told (host.envUnder .hooksRead depth) = some ((), u) →
        told (host.env depth) = some ((), u) ∧
          told (host.envInspected .hooksRead (.beforeStore w v) depth depth) = some ((), u) ∧
          w.BeforeStore v u) ∧
      ∀ u, w.BeforeStore v u → (u.heap.peek o key).strictEq v = false := by
  intro told
  have hgazes : ∀ levels depth, Run.StaysIn (w.telling o c.hook v).Untouched
      ((host.envInspected .hooksRead (.beforeStore w v) levels depth).tell c.hook
        (.writing key v))
      ((host.envInspected .hooksRead .any levels depth).tell c.hook (.writing key v)) :=
    fun levels depth => (host.envInspected_gazes (fun _ _ hu => hu.beforeStore)
      (fun _ _ _ => trivial) levels depth).tell c.hook rfl
  refine ⟨fun depth => ?_, fun levels depth => (hgazes levels depth (.refl _)).1,
    fun depth u htold => ?_, fun u hu => ?_⟩
  · rw [write_eq_overwrite hc hne]
    exact Option.bind_assoc _ _ _
  · obtain ⟨heq, hstays⟩ := hgazes depth depth (.refl _)
    have hany := (host.envUnder_below_envInspected .hooksRead (Nat.le_refl depth)).tell c.hook
      (.writing key v) htold
    exact ⟨(host.envUnder_below .hooksRead depth).tell c.hook (.writing key v) htold,
      heq.trans hany, (hstays hany).beforeStore⟩
  · rw [hu.peek, Heap.peek_of_cell? hc]
    exact hne

namespace Peeking

/-- The hook looks at the field it is told of, and notes whether it has the new value. -/
def host : Host Unit (List Bool) where
  body
    | (), .writing key v =>
      .andThen (.ask (.peek ⟨0⟩ key)) fun seen =>
      .andThen (.updateUser (· ++ [seen.strictEq v])) fun _ => .done (.ok ())
    | (), _ => .done (.ok ())
  handles _ := []

/-- An object with a reactive field `a`, and one with a plain field `b`. -/
def start : World Unit (List Bool) where
  heap.objects.entries := #[
    { entries := [("a", .reactive { value := .bool false, hook := .custom () })] },
    { entries := [("b", .plain (.bool false))] }]
  user := []

end Peeking

theorem hook_told_before_store_peeking : ∃ c u,
    Peeking.start.heap.cell? ⟨0⟩ "a" = some c ∧ c.value.strictEq (.object ⟨1⟩) = false ∧
      (Peeking.host.envUnder .hooksRead 1).tell c.hook (.writing "a" (.object ⟨1⟩))
        (Peeking.start.telling ⟨0⟩ c.hook (.object ⟨1⟩)) = some ((), u) ∧
      (Peeking.host.env 1).tell c.hook (.writing "a" (.object ⟨1⟩))
        (Peeking.start.telling ⟨0⟩ c.hook (.object ⟨1⟩)) = some ((), u) ∧
      u.heap.peek ⟨0⟩ "a" = .bool false ∧ u.heap.AllReactive ⟨1⟩ := by
  have hc : Peeking.start.heap.cell? ⟨0⟩ "a" =
      some { value := .bool false, hook := .custom () } := rfl
  obtain ⟨_, _, htold, _⟩ :=
    hook_told_before_store Peeking.host (v := .object ⟨1⟩) hc (by decide)
  obtain ⟨hcall, _, hbefore⟩ := htold 1 _ rfl
  have hreached : Peeking.start.heap.ReachedFrom [.object ⟨1⟩] ⟨1⟩ :=
    ⟨⟨1⟩, List.mem_singleton_self _, .refl⟩
  exact ⟨_, _, hc, by decide, rfl, hcall, hbefore.peek ⟨0⟩ "a", hbefore.observed ⟨1⟩ hreached⟩

/-- So a hook does not find the new value in the field, where it is when the write is over. -/
theorem hook_not_told_after_store :
    ∃ u w, write (Peeking.host.env 1) ⟨0⟩ "a" (.object ⟨1⟩) Peeking.start = some (u, w) ∧
      w.user = [false] ∧ (w.heap.peek ⟨0⟩ "a").strictEq (.object ⟨1⟩) = true := by
  have hends : (write (Peeking.host.env 1) ⟨0⟩ "a" (.object ⟨1⟩) Peeking.start).any
      (fun r => r.2.user == [false] && (r.2.heap.peek ⟨0⟩ "a").strictEq (.object ⟨1⟩)) = true := by
    decide +kernel
  obtain ⟨⟨u, w⟩, hwrite, hfinal⟩ := (Option.any_eq_true _ _).mp hends
  obtain ⟨huser, hvalue⟩ := (Bool.and_eq_true _ _).mp hfinal
  exact ⟨u, w, hwrite, by simpa using huser, hvalue⟩

end DataBinding
