import DataBinding.Proofs.FormValue
import DataBinding.Proofs.Outlets
import DataBinding.Proofs.TemplateText

/-!
# Nodes that mirror a key

What a binding to a bare key shows is at every moment the text of the value that its watcher saw
last: the watcher notes the value and shows it in one step, and between two such steps nobody else
sets what it shows. The watcher need not have seen what the key has now, as long as a fan-out is in
progress. When none is, no update has been lost, so the node shows the key.

This is an invariant of every single step, so it does not matter where writes are nested, whether a
key is taken back while its watchers are being updated, or whether the node is bound in the middle
of that.
-/

namespace DataBinding

variable {κ σ : Type}

/-! ## Bound outlets -/

namespace Outlet

/-- Whether a reaction sets an outlet of a node, in whatever way. -/
def FilledBy (n : NodeId) (r : Reaction κ) : Outlet → Prop
  | .text => r.ShowsText n
  | .value => r = .setValue n

instance (n : NodeId) (r : Reaction κ) (out : Outlet) : Decidable (r = out.reaction n) :=
  match out, r with
  | .text, .setText m => decidable_of_iff (m = n) (by simp [reaction])
  | .value, .setValue m => decidable_of_iff (m = n) (by simp [reaction])
  | .text, .setValue _ | .text, .render _ _ | .text, .custom _ => .isFalse (by simp [reaction])
  | .value, .setText _ | .value, .render _ _ | .value, .custom _ => .isFalse (by simp [reaction])

instance (n : NodeId) (r : Reaction κ) (out : Outlet) : Decidable (out.FilledBy n r) :=
  match out with
  | .text => inferInstanceAs (Decidable (r.ShowsText n))
  | .value => inferInstanceAs (Decidable (r = Outlet.value.reaction n))

end Outlet

namespace World

/-- No watcher but one sets an outlet of a node. -/
def FilledOnlyBy (w : World κ σ) (out : Outlet) (n : NodeId) (i : WatcherId) : Prop :=
  ∀ {j x}, w.watcher? j = some x → out.FilledBy n x.reaction → j = i

/-- What is needed of a node for an outlet of it to show a key: only elements have a form value, and
in the text of a node no other node is bound. -/
def Fits (w : World κ σ) (n : NodeId) : Outlet → Prop
  | .text => ∀ m ∈ w.document.children n, ∀ j, ¬ w.ShowsText m j
  | .value => (w.document.content n).isElement = true

/-- Whether a watcher shows a bare key in an outlet. -/
def Feeds (w : World κ σ) (out : Outlet) (n : NodeId) (i : WatcherId) : Prop :=
  ∃ x, w.watcher? i = some x ∧ x.reaction = out.reaction n

/-- What a watcher shows of a bare key is the text of what it saw last. -/
def ShowsSeen (w : World κ σ) (out : Outlet) (n : NodeId) (i : WatcherId) : Prop :=
  ∀ x, w.watcher? i = some x → x.reaction = out.reaction n →
    w.document.has n ∧ (w.Fits n out → out.Holds w.document n (w.heap.text x.last))

/-- A step keeps to that, if nobody else sets the outlet after it. -/
def KeepsMirror (out : Outlet) (n : NodeId) (i : WatcherId) (w w' : World κ σ) : Prop :=
  w'.FilledOnlyBy out n i → w.ShowsSeen out n i → w'.ShowsSeen out n i

instance (w : World κ σ) (out : Outlet) (n : NodeId) (i : WatcherId) :
    Decidable (w.FilledOnlyBy out n i) :=
  decidable_of_iff (∀ k < w.watchers.size, ∀ x ∈ w.watcher? ⟨k⟩,
      out.FilledBy n x.reaction → ⟨k⟩ = i) <| by
    rw [forall_watcher_iff (P := fun j x => out.FilledBy n x.reaction → j = i)]
    exact ⟨fun h j x hx => h j x hx, fun h j x hx => h hx⟩

instance (w : World κ σ) (out : Outlet) (n : NodeId) (i : WatcherId) :
    Decidable (w.Feeds out n i) :=
  inferInstanceAs (Decidable (∃ x ∈ w.watcher? i, x.reaction = out.reaction n))

instance (w : World κ σ) (n : NodeId) (out : Outlet) : Decidable (w.Fits n out) :=
  match out with
  | .text => decidable_of_iff (∀ m ∈ w.document.children n, ∀ k < w.watchers.size,
      ∀ x ∈ w.watcher? ⟨k⟩, ¬ x.reaction.ShowsText m) <| by
    refine forall_congr' fun m => imp_congr_right fun _ => ?_
    rw [forall_watcher_iff (P := fun _ x => ¬ x.reaction.ShowsText m)]
    exact ⟨fun h j ⟨x, hx, hshows⟩ => h j x hx hshows,
      fun h j x hx hshows => h j ⟨x, hx, hshows⟩⟩
  | .value => inferInstanceAs (Decidable ((w.document.content n).isElement = true))

variable {out : Outlet} {n : NodeId} {i : WatcherId} {w w' : World κ σ} {E : WatcherId → Prop}

theorem FilledOnlyBy.of_grows (ho : w'.FilledOnlyBy out n i) (h : w.Grows w' E) :
    w.FilledOnlyBy out n i := by
  intro j x hx hfilled
  obtain ⟨last, hx'⟩ := h.watcher hx
  exact ho hx' hfilled

theorem ShowsText.of_grows {m : NodeId} {j : WatcherId} (hj : w.ShowsText m j) (h : w.Grows w' E) :
    w'.ShowsText m j := by
  obtain ⟨x, hx, hshows⟩ := hj
  obtain ⟨last, hx'⟩ := h.watcher hx
  exact ⟨_, hx', hshows⟩

/-- A node was as fit before, if its children have not changed. -/
theorem Fits.of_grows (hfits : w'.Fits n out) (h : w.Grows w' E) (hn : w.document.has n)
    (hspares : out.Spares n w.document w'.document) : w.Fits n out := by
  cases out with
  | text =>
    intro m hm j hj
    refine hfits m ?_ j (hj.of_grows h)
    rw [Document.SparesText.children hspares]
    exact hm
  | value =>
    have hkind := (h.document.kind hn).1
    exact hkind.symm.trans hfits

/-! ## Steps that leave the outlet alone -/

/-- A step after which no bare key is shown in the outlet, or which is not about its watcher. -/
theorem ShowsSeen.of_spares (hm : w.ShowsSeen out n i) (hs : w.Sound E) (hgrows : w.Grows w' E)
    (hwatcher : ∀ {x}, w'.watcher? i = some x → x.reaction = out.reaction n →
      w.watcher? i = some x)
    (hspares : w.document.has n → out.Spares n w.document w'.document) : w'.ShowsSeen out n i := by
  intro x hx hreaction
  have hx₀ := hwatcher hx hreaction
  obtain ⟨hn, hshown⟩ := hm x hx₀ hreaction
  refine ⟨hgrows.document.has hn, fun hfits => ?_⟩
  rw [Heap.text_of_isScalar _ w.heap (hs.tidy.seen hx₀)]
  exact (hshown (hfits.of_grows hgrows hn (hspares hn))).of_spares (hspares hn)

/-- A step that touches neither watchers nor the document. -/
theorem KeepsMirror.of_same (hs : w.Sound E) (hgrows : w.Grows w' E)
    (hwatchers : w'.watchers = w.watchers) (hdocument : w'.document = w.document) :
    KeepsMirror out n i w w' := by
  intro _ hm
  refine hm.of_spares hs hgrows (fun hx _ => ?_) fun _ => .of_eq hdocument
  rw [← watcher?_of_watchers hwatchers]
  exact hx

/-- A change of the document that leaves the outlet alone once a bare key is shown there. -/
theorem KeepsMirror.mapDocument {f : Document κ → Document κ} (hs : w.Sound E)
    (hgrows : w.Grows (w.mapDocument f) E)
    (hspares : w.Feeds out n i → w.document.has n → out.Spares n w.document (f w.document)) :
    KeepsMirror out n i w (w.mapDocument f) := by
  intro _ hm x hx hreaction
  have hkept := hm.of_spares hs hgrows (fun hx _ => hx) (hspares ⟨x, hx, hreaction⟩)
  exact hkept x hx hreaction

/-- A watcher that sets the text of another node leaves the outlet alone, or else the text that it
sets stands in the node. -/
theorem ShowsSeen.of_setText {m : NodeId} {text : String} (hm : w.ShowsSeen out n i)
    (hs : w.Sound E) (hgrows : w.Grows w' E)
    (hwatcher : ∀ {x}, w'.watcher? i = some x → x.reaction = out.reaction n →
      w.watcher? i = some x)
    (hdocument : w'.document = w.document.setText m text) (hne : out = .text → ¬ m = n)
    (hshows : ∃ j, w'.ShowsText m j) : w'.ShowsSeen out n i := by
  by_cases hin : out = .text ∧ m ∈ w.document.children n
  · obtain ⟨rfl, hin⟩ := hin
    intro x hx hreaction
    obtain ⟨hn, _⟩ := hm x (hwatcher hx hreaction) hreaction
    refine ⟨hgrows.document.has hn, fun hfits => ?_⟩
    -- the node is not fit any more
    obtain ⟨j, hj⟩ := hshows
    refine absurd hj (hfits m ?_ j)
    have hnode := Document.node_setText_of_ne text hn (hne rfl)
    rw [hdocument, Document.children, hnode]
    exact hin
  · refine hm.of_spares hs hgrows hwatcher fun hn => ?_
    rw [hdocument]
    refine Outlet.spares_setText hn hs.tidy.closed (fun htext hmem => ?_) text
    rcases List.mem_cons.mp hmem with heq | hmem
    · exact hne htext heq
    · exact hin ⟨htext, hmem⟩

theorem keepsMirror_composes : Composes (KeepsMirror (κ := κ) (σ := σ) out n i) E where
  refl _ _ hm := hm
  trans _ _ hbc hSab hSbc ho hm := hSbc ho (hSab (ho.of_grows hbc.grows) hm)
  held _ _ _ _ := Iff.rfl

end World

open World

variable {env : Env κ σ} {out : Outlet} {n : NodeId} {i : WatcherId} {w w' : World κ σ}
  {E : WatcherId → Prop}

/-! ## Updates and writes -/

/-- What a binding does to the outlets that it does not fill. -/
theorem World.ShowsSeen.of_shown {j : WatcherId} {x : Watcher κ} (hm : w.ShowsSeen out n i)
    (hs : w.Sound E) (hgrows : w.Grows w' E)
    (hwatcher : ∀ {x}, w'.watcher? i = some x → x.reaction = out.reaction n →
      w.watcher? i = some x)
    (hx : w.watcher? j = some x) (hfilled : ¬ out.FilledBy n x.reaction) {h : Heap κ} {v : Value}
    (hdocument : w'.document = x.shown h v w.document) : w'.ShowsSeen out n i := by
  have hshows : ∀ {m}, x.reaction.ShowsText m → ∃ j, w'.ShowsText m j := by
    intro m hshows
    exact ⟨j, ShowsText.of_grows ⟨x, hx, hshows⟩ hgrows⟩
  unfold Watcher.shown at hdocument
  cases hr : x.reaction with
  | setValue m =>
    rw [hr] at hfilled hdocument
    refine hm.of_spares hs hgrows hwatcher fun _ => ?_
    rw [hdocument]
    refine Outlet.spares_setValue (fun hvalue heq => hfilled ?_) _
    subst hvalue heq
    exact rfl
  | setText m | render m t =>
    rw [hr] at hfilled hdocument
    refine hm.of_setText hs hgrows hwatcher hdocument (fun htext heq => hfilled ?_)
      (hshows (by rw [hr]; exact rfl))
    subst htext heq
    exact rfl
  | custom code =>
    rw [hr] at hdocument
    exact hm.of_spares hs hgrows hwatcher fun _ => .of_eq hdocument

/-- What a binding to a bare key does to its outlet. -/
theorem holds_shown {x : Watcher κ} {d : Document κ} (hx : x.reaction = out.reaction n)
    (hn : d.has n) (helement : out = .value → (d.content n).isElement = true) (h : Heap κ)
    (v : Value) : out.Holds (x.shown h v d) n (h.text v) := by
  cases out with
  | text =>
    unfold Watcher.shown
    rw [hx]
    exact Document.holdsText_setText hn _
  | value => exact value_shown_self hx h v hn (helement rfl)

/-- Noting a value, with or without showing it in another place, does not concern a watcher that
is not the one that notes. -/
theorem watcher?_of_setLast {j : WatcherId} (hji : ¬ j = i) {v : Value}
    (hwatchers : w'.watchers = (w.setLast j v).watchers) : w'.watcher? i = w.watcher? i := by
  rw [watcher?_of_watchers hwatchers]
  exact watcher?_setLast_of_ne w hji v

/-- A watcher that finds nothing new goes on showing what it shows: strictly equal scalars have the
same text. -/
theorem keepsMirror_setLast {j : WatcherId} {x : Watcher κ} (hs : w.Sound E)
    (hx : w.watcher? j = some x)
    (heq : x.last.strictEq (w.heap.peek x.data x.key) = true) :
    KeepsMirror out n i w (w.setLast j (w.heap.peek x.data x.key)) := by
  intro _ hm
  have hgrows := (advancesFrom_setLast w j x.data x.key hs).grows
  by_cases hji : j = i
  · subst hji
    intro y hy hreaction
    obtain rfl := Option.some.inj ((watcher?_setLast_self hx _).symm.trans hy)
    obtain ⟨hn, hshown⟩ := hm x hx hreaction
    refine ⟨hn, fun hfits => ?_⟩
    have htext := Heap.text_of_alike w.heap w.heap (hs.tidy.seen hx) (.inr heq)
    show out.Holds w.document n (w.heap.text (w.heap.peek x.data x.key))
    rw [← htext]
    exact hshown (hfits.of_grows hgrows hn (.of_eq rfl))
  · refine hm.of_spares hs hgrows (fun hy _ => ?_) fun _ => .of_eq rfl
    rw [← watcher?_of_setLast hji rfl]
    exact hy

theorem update_keepsMirror (hq : env.HooksRead)
    (hcall : env.CallsMove (AdvancesWith E (KeepsMirror out n i))) {j : WatcherId} {u : Unit}
    (h : update env j w = some (u, w')) (hs : w.Sound E) (hgrows : w.Grows w' E) :
    KeepsMirror out n i w w' := by
  rcases hq.update_reads h with ⟨rfl, _⟩ | ⟨x, hx, ⟨heq, rfl⟩ | ⟨_, hreacts⟩⟩
  · exact fun _ hm => hm
  · exact keepsMirror_setLast hs hx heq
  · intro ho hm
    rcases hreacts with ⟨_, _, ⟨places, user, rfl⟩, rfl⟩ | ⟨code, held, hcode, hreact⟩
    · by_cases hji : j = i
      · -- the watcher shows what it notes
        subst hji
        intro y hy hreaction
        obtain rfl := Option.some.inj ((watcher?_setLast_self hx _).symm.trans hy)
        obtain ⟨hn, _⟩ := hm x hx hreaction
        refine ⟨hgrows.document.has hn, fun hfits => ?_⟩
        show out.Holds _ n ((w.heap.subscribeAll _ places).text (w.heap.peek x.data x.key))
        rw [Heap.text_subscribeAll]
        refine holds_shown hreaction hn ?_ _ _
        rintro rfl
        have hkind := (hgrows.document.kind hn).1
        exact hkind.symm.trans hfits
      · refine hm.of_shown hs hgrows (fun hy _ => ?_) hx ?_ rfl
        · rw [← watcher?_of_setLast hji rfl]
          exact hy
        · exact fun hfilled => hji (ho.of_grows hgrows hx hfilled)
    · -- code of the user's runs when the value has been noted, and keeps to the invariant
      have hset := advancesFrom_setLast w j x.data x.key hs
      have hcalled := keepsMirror_composes.carried.holding held (.discard (hcall _ _ rfl)) hreact
        hset.sound
      refine hcalled.2 ho ?_
      by_cases hji : j = i
      · subst hji
        intro y hy hreaction
        obtain rfl := Option.some.inj ((watcher?_setLast_self hx _).symm.trans hy)
        rw [hcode] at hreaction
        cases out <;> cases hreaction
      · refine hm.of_spares hs hset.grows (fun hy _ => ?_) fun _ => .of_eq rfl
        rw [← watcher?_of_setLast hji rfl]
        exact hy

theorem update_advancesKeepingMirror (hq : env.HooksRead)
    (hcall : env.CallsMove (AdvancesWith E (KeepsMirror out n i))) (j : WatcherId) :
    Run.Moves (AdvancesWith E (KeepsMirror out n i)) (update env j) :=
  update_advancesWith hq hcall (update_keepsMirror hq hcall)

theorem write_advancesKeepingMirror (hq : env.HooksRead)
    (hcall : env.CallsMove (AdvancesWith E (KeepsMirror out n i))) (o : ObjectId)
    (key : String) {v : Value} (hv : v.isScalar = true) :
    Run.Moves (AdvancesWith E (KeepsMirror out n i)) (write env o key v) := by
  refine write_advancesWith hq hcall hv fun {w u w'} h hs hgrows => ?_
  rcases hq.write_reads h with
    ⟨_, rfl⟩ | ⟨c, hc, ⟨_, rfl⟩ | ⟨_, w₁, w₂, hreads, hall, rfl⟩⟩
  · exact .of_same hs hgrows rfl rfl
  · exact fun _ hm => hm
  · -- storing the value touches no outlet yet; the subscribers are updated one after the other
    have htold := carried_advancesFrom.trans _ _ _ (.intercept w c.hook [v]) (.of_reads hreads) hs
    obtain ⟨hstored, hgrows₀⟩ := sound_storing htold.sound o key hv
    have hrest := keepsMirror_composes.carried.updateAll (update_advancesKeepingMirror hq hcall) _
      hall hstored
    have hstore : KeepsMirror out n i w (w₁.storing o key v) := by
      obtain ⟨_, _, rfl⟩ := hreads
      exact .of_same hs (htold.grows.trans hgrows₀) rfl rfl
    intro ho hm
    have ho₂ : w₂.FilledOnlyBy out n i := ho
    exact hrest.2 ho₂ (hstore (ho₂.of_grows hrest.1.grows) hm)

/-! ## Bindings -/

/-- Binding a form control shows its value, which is what the new watcher has seen. -/
theorem bindModel_keepsMirror (hq : env.HooksRead) {m : NodeId} {expression : String}
    {o : ObjectId} {u : Unit} (h : bindModel env m expression o w = some (u, w'))
    (hs : w.Sound E) (hbound : w.document.has m) (hgrows : w.Grows w' E) :
    KeepsMirror out n i w w' := by
  intro ho hm
  obtain ⟨_, places, user, ⟨read, user₁, rfl⟩, rfl⟩ := hq.bindModel_reads h
  simp only [World.modelled, Heap.peek_subscribeAll, Heap.text_subscribeAll] at ho hgrows ⊢
  have hpush := watcher?_push w
    { key := Text.trim expression, data := o, last := w.heap.peek o (Text.trim expression),
      reaction := .setValue m }
  by_cases hhere : out = .value ∧ m = n
  · obtain ⟨rfl, rfl⟩ := hhere
    have hnew := (hpush ⟨w.watchers.size⟩).trans (if_pos rfl)
    obtain rfl : ⟨w.watchers.size⟩ = i := ho hnew rfl
    intro x hx _
    obtain rfl := Option.some.inj (hnew.symm.trans hx)
    refine ⟨hgrows.document.has hbound, fun hfits => ?_⟩
    have helement : ((w.document.addListener m "input" (.writeBack o
        (Text.trim expression))).content m).isElement = true := by
      rw [Document.content_addListener, ← (hgrows.document.kind hbound).1]
      exact hfits
    have hhas := (Document.Extends.addListener w.document m "input"
      (.writeBack o (Text.trim expression))).has hbound
    show (((w.document.addListener m "input" _).setValue m _).content m).value = _
    rw [Document.content_setValue, if_pos ⟨rfl, hhas⟩, Content.value_setValue, if_pos helement]
    exact Heap.text_of_isScalar _ _ (hs.tidy.flat _ _)
  · refine hm.of_spares hs hgrows (fun {x} hx hreaction => ?_) fun _ => ?_
    · have hx' := (hpush i).symm.trans hx
      split at hx'
      · -- the new watcher is not of this outlet
        obtain rfl := Option.some.inj hx'
        cases out with
        | text => cases hreaction
        | value => exact absurd ⟨rfl, Reaction.setValue.inj hreaction⟩ hhere
      · exact hx'
    · exact (Outlet.spares_addListener "input" _).trans
        (Outlet.spares_setValue (fun hvalue heq => hhere ⟨hvalue, heq⟩) _)

/-- A text that follows its key, or the binding of another node. -/
theorem bindText_keepsMirror (hq : env.HooksRead) {m : NodeId} {expression : String}
    {o : ObjectId} {d : Dialect} {u : Unit} (h : bindText env m expression o d w = some (u, w'))
    (hs : w.Sound E) (hbound : w.document.has m) (hgrows : w.Grows w' E) :
    KeepsMirror out n i w w' := by
  intro ho hm
  -- in both cases watchers are built that show a text in the node, and the text is set
  have hother : ∀ {P : Watcher κ → Prop} {w₁ : World κ σ} {text : String} {j : WatcherId},
      w.Watches w₁ P → (∀ x, P x → x.reaction.ShowsText m) →
      w'.watchers = w₁.watchers → w'.document = w.document.setText m text →
      w'.ShowsText m j → (out = .text → ¬ m = n) → w'.ShowsSeen out n i := by
    intro P w₁ text j hwatches hP hwatchers hdocument hshows hne
    refine hm.of_setText hs hgrows (fun {x} hx hreaction => ?_) hdocument hne ⟨j, hshows⟩
    rw [watcher?_of_watchers hwatchers] at hx
    rcases hwatches.new hx with hold | ⟨hnew, _⟩
    · exact hold
    · have hshown := hP x hnew
      rw [hreaction] at hshown
      cases out with
      | text => exact absurd hshown.symm (hne rfl)
      | value => exact hshown.elim
  cases hmarkers : (Template.parse expression d).hasMarkers with
  | true =>
    obtain ⟨w₁, _, hwatches, hevery, ⟨_, _, rfl⟩, rfl⟩ := hq.bindText_reads hmarkers h
    obtain ⟨key, hkey⟩ : ∃ key, key ∈ (Template.parse expression d).markers := by
      refine List.exists_mem_of_ne_nil _ fun hnil => ?_
      rw [Template.hasMarkers, hnil] at hmarkers
      cases hmarkers
    obtain ⟨j, hj⟩ := hevery key hkey
    by_cases hhere : out = .text ∧ m = n
    · -- the watcher of the node would be one that renders a template
      obtain ⟨rfl, rfl⟩ := hhere
      obtain rfl : j = i := ho hj rfl
      intro x hx hreaction
      obtain rfl := Option.some.inj (hj.symm.trans hx)
      cases hreaction
    · have hdocument := congrArg (fun d' => d'.setText m
        ((Template.parse expression d).rendering w₁.heap o)) hwatches.document
      refine hother hwatches (fun x hx => ?_) rfl hdocument ⟨_, hj, rfl⟩
        fun htext heq => hhere ⟨htext, heq⟩
      rw [hx.2]
      exact rfl
  | false =>
    obtain ⟨w₁, j, hwatches, hj, rfl⟩ := hq.bindText_key hmarkers h
    by_cases hhere : out = .text ∧ m = n
    · obtain ⟨rfl, rfl⟩ := hhere
      obtain rfl : j = i := ho hj rfl
      intro x hx _
      obtain rfl := Option.some.inj (hj.symm.trans hx)
      refine ⟨hgrows.document.has hbound, fun _ => ?_⟩
      show (w₁.document.setText m _).HoldsText m _
      rw [hwatches.document]
      exact Document.holdsText_setText hbound _
    · have hdocument := congrArg (fun d' => d'.setText m
        (w₁.heap.text (w.heap.peek o (Text.trim expression)))) hwatches.document
      refine hother hwatches (fun x hx => ?_) rfl hdocument ⟨_, hj, rfl⟩
        fun htext heq => hhere ⟨htext, heq⟩
      rw [hx.2]
      exact rfl

theorem bind_advancesKeepingMirror (hq : env.HooksRead) {d : Directive} {m : NodeId}
    {expression : String} {kit : Kit κ} {u : Unit} (hbound : w.Bindable m E)
    (h : d.bind env m expression kit w = some (u, w')) :
    w.AdvancesWith E (KeepsMirror out n i) w' := by
  intro hs
  have hadvance := bind_advances hq m d expression kit hbound.2 h hs
  refine ⟨hadvance, ?_⟩
  have hgrows := hadvance.grows
  cases d with
  | model =>
    refine keepsMirror_composes.holding h hs hgrows fun h₁ hs₁ hdocument hgrows₁ => ?_
    exact bindModel_keepsMirror hq h₁ hs₁ (hdocument ▸ hbound.2) hgrows₁
  | text =>
    refine keepsMirror_composes.holding h hs hgrows fun h₁ hs₁ hdocument hgrows₁ => ?_
    exact bindText_keepsMirror hq h₁ hs₁ (hdocument ▸ hbound.2) hgrows₁
  | on event =>
    obtain rfl := Run.modify_eq_some.mp h
    exact .mapDocument hs hgrows fun _ _ => Outlet.spares_addListener event _

/-! ## Requests -/

/-- Whether a request sets an outlet of a node by itself, or what stands in it. -/
def Request.overwrites {α : Type} (d : Document κ) (n : NodeId) : Outlet → Request κ α → Bool
  | .text, .setText m _ => m ∈ n :: d.children n
  | .text, .appendChildren m _ => m = n
  | .text, .detachChildren m => m = n
  | .value, .setValue m _ => m = n
  | .value, .enter m _ => m = n
  | _, _ => false

/-- Whether a request compiles what is below a node, which takes the children off it meanwhile. -/
def Request.compilesBelow {α : Type} (d : Document κ) (n : NodeId) : Request κ α → Bool
  | .compile _ root => root = n
  | .mount place _ _ => (place.resolve d).toOption = some n
  | _ => false

/-- Proper user code that leaves an outlet to its watcher once that one shows a key there. The
children of a node that shows its key as a text are not compiled at all. -/
def Request.leavesOutlet {α : Type} (out : Outlet) (n : NodeId) (i : WatcherId) (w : World κ σ)
    (r : Request κ α) : Bool :=
  r.isProper w && !(decide (w.Feeds out n i) && r.overwrites w.document n out) &&
    !(decide (out = .text) && r.compilesBelow w.document n)

theorem simple_keepsMirror (hq : env.HooksRead)
    (hcall : env.CallsMove (AdvancesWith E (KeepsMirror out n i))) {α : Type}
    (r : Request κ α) {a : α} (hr : r.isCompound = false) (hproper : r.isProper w = true)
    (hsets : w.Feeds out n i → r.overwrites w.document n out = false)
    (h : r.perform env w = some (a, w')) (hs : w.Sound E) (hgrows : w.Grows w' E) :
    KeepsMirror out n i w w' := by
  have hshow : ∀ f : Document κ → Document κ, w' = w.mapDocument f →
      (w.Feeds out n i → w.document.has n → out.Spares n w.document (f w.document)) →
      KeepsMirror out n i w w' := by
    rintro f rfl hspares
    exact .mapDocument hs hgrows hspares
  -- only what sets a text or a value can overwrite the outlet; all else spares it
  cases r with
  | newObject | newArray items | ofJson j =>
    obtain ⟨rfl, rfl⟩ := Prod.mk.inj (Run.changing_eq_some.mp h)
    exact .of_same hs hgrows rfl rfl
  | observe hook v =>
    obtain rfl := Run.modify_eq_some.mp h
    exact .of_same hs hgrows rfl rfl
  | write o key v => exact (write_advancesKeepingMirror hq hcall o key hproper h hs).2
  | update j => exact update_keepsMirror hq hcall h hs hgrows
  | watch expression o code =>
    obtain ⟨hwatches, _⟩ := hq.watch_watches h
    intro _ hm
    refine hm.of_spares hs hgrows (fun hx hreaction => ?_) fun _ => .of_eq hwatches.document
    rcases hwatches.new hx with hold | ⟨⟨_, hcode⟩, _⟩
    · exact hold
    · rw [hcode] at hreaction
      cases out <;> cases hreaction
  | newNode content =>
    obtain ⟨rfl, rfl⟩ := Prod.mk.inj (Run.changing_eq_some.mp h)
    exact hshow (fun d => (d.create content).2) rfl fun _ hn =>
      Outlet.spares_create hn hs.tidy.closed content
  | setAttribute m name value =>
    exact hshow _ (Run.modify_eq_some.mp h).symm fun _ _ => Outlet.spares_setAttribute name value
  | setText m text =>
    refine hshow _ (Run.modify_eq_some.mp h).symm fun hfeeds hn => ?_
    refine Outlet.spares_setText hn hs.tidy.closed (fun htext hmem => ?_) text
    subst htext
    simp [Request.overwrites, List.mem_cons.mp hmem] at hsets
    exact hsets hfeeds
  | setValue m text =>
    refine hshow _ (Run.modify_eq_some.mp h).symm fun hfeeds _ => ?_
    refine Outlet.spares_setValue (fun hvalue heq => ?_) text
    subst hvalue heq
    simp [Request.overwrites] at hsets
    exact hsets hfeeds
  | appendChildren m children =>
    refine hshow _ (Run.modify_eq_some.mp h).symm fun hfeeds _ => ?_
    refine Outlet.spares_appendChildren (fun htext heq => ?_) children
    subst htext heq
    simp [Request.overwrites] at hsets
    exact hsets hfeeds
  | detachChildren m =>
    obtain ⟨rfl, rfl⟩ := Prod.mk.inj (Run.changing_eq_some.mp h)
    refine hshow _ rfl fun hfeeds _ => ?_
    refine Outlet.spares_detachChildren fun htext heq => ?_
    subst htext heq
    simp [Request.overwrites] at hsets
    exact hsets hfeeds
  | listen m event code =>
    exact hshow _ (Run.modify_eq_some.mp h).symm fun _ _ => Outlet.spares_addListener event _
  | _ => cases hr

/-- Taking the children off another node and putting children there. -/
theorem keepsMirror_detachChildren {root : NodeId} (hne : out = .text → ¬ root = n)
    (w : World κ σ) :
    w.AdvancesWith E (KeepsMirror out n i) (w.mapDocument fun d => d.detachChildren root) := by
  intro hs
  have hadvance := AdvancesFrom.mapDocument w (f := fun d => d.detachChildren root)
    (.detachChildren _ root) hs
  exact ⟨hadvance, .mapDocument hs hadvance.grows fun _ _ => Outlet.spares_detachChildren hne⟩

theorem keepsMirror_appendChildren {root : NodeId} (hne : out = .text → ¬ root = n)
    (w : World κ σ) (ns : List NodeId) (hns : ∀ m ∈ ns, w.Bindable m E) :
    w.AdvancesWith E (KeepsMirror out n i) (w.mapDocument fun d => d.appendChildren root ns) := by
  intro hs
  have hadvance := AdvancesFrom.mapDocument w (f := fun d => d.appendChildren root ns)
    (.appendChildren _ root fun m hm => (hns m hm).2) hs
  exact ⟨hadvance, .mapDocument hs hadvance.grows fun _ _ => Outlet.spares_appendChildren hne ns⟩

/-- A key is entered into another form control, or into one that is not bound yet. -/
theorem keepsMirror_setValue {m : NodeId} {text : String}
    (hsets : w.Feeds out n i →
      (.enter m text : Request κ _).overwrites w.document n out = false) :
    w.AdvancesWith E (KeepsMirror out n i) (w.mapDocument fun d => d.setValue m text) := by
  intro hs
  have hadvance := AdvancesFrom.setValue w m text hs
  refine ⟨hadvance, .mapDocument hs hadvance.grows fun hfeeds _ => ?_⟩
  refine Outlet.spares_setValue (fun hvalue heq => ?_) text
  subst hvalue heq
  simp [Request.overwrites] at hsets
  exact hsets hfeeds

theorem leavesOutlet_iff {α : Type} {r : Request κ α} :
    r.leavesOutlet out n i w = true ↔ r.isProper w = true ∧
      (w.Feeds out n i → r.overwrites w.document n out = false) ∧
      (out = .text → r.compilesBelow w.document n = false) := by
  simp [Request.leavesOutlet, and_assoc, imp_iff_not_or]

/-- Every request that leaves the outlet to its watcher keeps to the invariant. -/
theorem request_advancesKeepingMirror {host : Host κ σ}
    (henv : env.Orderly host (AdvancesWith E (KeepsMirror out n i))) {α : Type}
    (r : Request κ α) {a : α} (hmay : r.leavesOutlet out n i w = true)
    (h : r.perform env w = some (a, w')) : w.AdvancesWith E (KeepsMirror out n i) w' := by
  intro hs
  obtain ⟨hproper, hsets, hbelow⟩ := leavesOutlet_iff.mp hmay
  have hq := henv.hooks
  have hproperly : env.Orderly host (AdvancesFrom E) :=
    ⟨henv.handles, hq, callsMove_advancesFrom henv.calls⟩
  have hadvance := (steps_advance hproperly).request r hproper h hs
  have hcarried : Carried (AdvancesWith (κ := κ) (σ := σ) E (KeepsMirror out n i)) :=
    keepsMirror_composes.carried
  have hwalk : Carried.Walk (AdvancesWith E (KeepsMirror out n i))
      fun (w : World κ σ) m => w.Bindable m E := walk_bindable fun _ _ h hs => (h hs).1
  have hreads : w.Reads w' → w.Advances w' E ∧ KeepsMirror out n i w w' := by
    rintro ⟨_, _, rfl⟩
    exact ⟨hadvance, .of_same hs hadvance.grows rfl rfl⟩
  have hevent : ∀ m event,
      Run.Moves (AdvancesWith E (KeepsMirror out n i)) (dispatch env m event) :=
    hcarried.dispatch henv.calls fun o key _ => write_advancesKeepingMirror hq henv.calls o key rfl
  -- requests that are made of others keep the mirror because their steps do
  cases r with
  | read | render | getProperty => exact hreads (hq.perform_reads rfl h)
  | dispatch m event => exact hevent m event h hs
  | enter m text =>
    obtain ⟨_, w₁, hset, h⟩ := Run.bind_eq_some.mp h
    obtain rfl := Run.modify_eq_some.mp hset
    exact hcarried.trans _ _ _ (keepsMirror_setValue hsets) (hevent m _ h) hs
  | bind d m expression kit =>
    exact bind_advancesKeepingMirror hq (bindable_of_bind hs hproper) h hs
  | compile kit root =>
    have hne : out = .text → ¬ root = n := fun htext heq => by
      simpa [Request.compilesBelow, heq] using hbelow htext
    exact hcarried.compile hwalk
      (fun m d expression _ _ _ hm hbind => bind_advancesKeepingMirror hq hm hbind)
      (keepsMirror_detachChildren hne) (fun w ns _ hns => keepsMirror_appendChildren hne w ns hns)
      (bindable_of_compile hs hproper) h hs
  | mount place hook kit =>
    have hne : ∀ root, place.resolve w.document = .ok root → out = .text → ¬ root = n := by
      intro root hroot htext heq
      simpa [Request.compilesBelow, hroot, heq, Except.toOption] using hbelow htext
    refine hcarried.mount hwalk
      (fun m d expression _ _ _ hm hbind => bind_advancesKeepingMirror hq hm hbind)
      (fun root hroot => keepsMirror_detachChildren (hne root hroot))
      (fun root hroot w ns _ hns => keepsMirror_appendChildren (hne root hroot) w ns hns)
      (fun hook v => ?_) (fun root hroot => bindable_of_mount hs hproper hroot) h hs
    intro w u w' h hs
    have hadvance := observe_advances hook v h hs
    obtain rfl := Run.modify_eq_some.mp h
    exact ⟨hadvance, .of_same hs hadvance.grows rfl rfl⟩
  | setProperty app key v =>
    rcases App.set_cases h with ⟨_, _, hwrite⟩ | ⟨_, _, rfl⟩
    · exact write_advancesKeepingMirror hq henv.calls _ _ hproper hwrite hs
    · exact hcarried.refl _ hs
  | callMethod method o event => exact hcarried.holding _ (henv.calls _ _ rfl) h hs
  | _ =>
    exact ⟨hadvance, simple_keepsMirror hq henv.calls _ rfl hproper hsets h hs hadvance.grows⟩

/-! ## Whole runs -/

/-- Hooks only read or record, and all other code leaves an outlet to its watcher. Any watcher may
be let collect, that one when it is in the list of its key. It is there from the start if the key
was reactive when it was built. -/
def Conduct.mirroring (out : Outlet) (n : NodeId) (i : WatcherId) : Conduct κ σ :=
  .orderly (fun _ w r => r.leavesOutlet out n i w) fun w j => decide (j ≠ i ∨ w.Enrolled i)

/-- **Nodes follow their keys.** When a run is over in which hooks only read or record and values
are scalars, a node that is bound once to a bare key, as a text or as a form control, and left to
that binding, shows the text of the value that the key has. -/
theorem shown_eq_text {host : Host κ σ} {depth : Nat} {α : Type} {p : Program κ σ α} {user : σ}
    {a : α} {x : Watcher κ} (hrun : host.run depth p (.fresh user) = some (a, w))
    (hob : host.Obeys (.mirroring out n i) depth p (.fresh user))
    (hx : w.watcher? i = some x) (hreaction : x.reaction = out.reaction n)
    (hreactive : i ∈ w.heap.subscribers x.data x.key) (honce : w.FilledOnlyBy out n i)
    (hfits : w.Fits n out) :
    out.shown w.document n = w.heap.text (w.heap.peek x.data x.key) := by
  have hmoves : World.AdvancesWith (fun _ => True) (KeepsMirror out n i) (.fresh user) w :=
    Host.runUnder_moves_of_requests keepsMirror_composes.carried
      (fun w f hs => ⟨AdvancesFrom.user w (f w.user) hs,
        .of_same hs (AdvancesFrom.user w (f w.user) hs).grows rfl rfl⟩)
      (advancesWith_enters (fun _ _ _ => trivial) fun _ _ _ _ => id)
      (fun henv _ _ r _ _ _ hmay h => request_advancesKeepingMirror henv r hmay h) hrun hob
  have hseen : w.ShowsSeen out n i := by
    refine (hmoves (sound_fresh user)).2 honce fun x hx => ?_
    cases hx
  obtain ⟨hn, hshown⟩ := hseen x hx hreaction
  -- no operation is in progress, so the watcher has seen what the key has
  have hsettled : w.SettledBut fun _ _ j => j ≠ i := by
    refine settledBut_of_orderly (fun v j henter => ?_) hrun hob
    have hj : j ≠ i ∨ v.Enrolled i := of_decide_eq_true henter
    by_cases hji : j = i
    · exact .inr (hji ▸ hj.resolve_left (not_not.mpr hji))
    · exact .inl hji
  rw [← hsettled.last_eq_peek hx hreactive (not_not.mpr rfl)]
  exact (hshown hfits).shown hn

namespace Wavering

/-- A callback that answers `b` by reading the key, binding a text to it and then writing `c`, and
`c` by taking the key back to `a`. -/
def host : Host Unit Unit where
  body
    | _, .changed (.text "b") =>
      .andThen (.request (.read ⟨0⟩ "k")) fun _ =>
      .andThen (.request (.bind .text ⟨0⟩ "k" { data := ⟨0⟩ })) fun _ =>
      .andThen (.request (.write ⟨0⟩ "k" (.text "c"))) fun _ => .done (.ok ())
    | _, .changed (.text "c") =>
      .andThen (.request (.write ⟨0⟩ "k" (.text "a"))) fun _ => .done (.ok ())
    | _, _ => .done (.ok ())
  handles _ := []

/-- A field, a form control that is bound after the callback and while its watcher collects, and a
write while the watcher of the form control does. -/
def program : Program Unit Unit Unit :=
  .andThen (.request .newObject) fun o =>
  .andThen (.request (.write o "k" (.text "a"))) fun _ =>
  .andThen (.request (.observe .silent (.object o))) fun _ =>
  .andThen (.request (.newNode (.ofTag "p"))) fun _ =>
  .andThen (.request (.newNode (.ofTag "input"))) fun control =>
  .andThen (.request (.watch "k" o ())) fun _ =>
  .andThen (.collecting ⟨0⟩ (.request (.bind .model control " k " { data := o }))) fun _ =>
  .collecting ⟨1⟩ (.request (.write o "k" (.text "b")))

end Wavering

open Wavering in
/-- A text that is bound in the middle of a fan-out, and a form control that the fan-out comes to
when its key is back at what it was. Two watchers that collect meanwhile join the list again. -/
theorem shown_eq_text_wavering : ∃ u w,
    host.run 6 program (.fresh ()) = some (u, w) ∧
      w.heap.subscribers ⟨0⟩ "k" = [⟨0⟩, ⟨0⟩, ⟨1⟩, ⟨1⟩, ⟨2⟩] ∧
      w.heap.text (w.heap.peek ⟨0⟩ "k") = "a" ∧
      Outlet.text.shown w.document ⟨0⟩ = w.heap.text (w.heap.peek ⟨0⟩ "k") ∧
      Outlet.value.shown w.document ⟨1⟩ = w.heap.text (w.heap.peek ⟨0⟩ "k") := by
  have hends : (host.run 6 program (.fresh ())).any (fun r => decide (
      (∃ x ∈ r.2.watcher? ⟨2⟩,
        x.data = ⟨0⟩ ∧ x.key = "k" ∧ x.reaction = Outlet.text.reaction ⟨0⟩) ∧
      (∃ x ∈ r.2.watcher? ⟨1⟩,
        x.data = ⟨0⟩ ∧ x.key = "k" ∧ x.reaction = Outlet.value.reaction ⟨1⟩) ∧
      r.2.heap.subscribers ⟨0⟩ "k" = [⟨0⟩, ⟨0⟩, ⟨1⟩, ⟨1⟩, ⟨2⟩] ∧
      r.2.FilledOnlyBy .text ⟨0⟩ ⟨2⟩ ∧ r.2.FilledOnlyBy .value ⟨1⟩ ⟨1⟩ ∧
      r.2.Fits ⟨0⟩ .text ∧ r.2.Fits ⟨1⟩ .value ∧
      r.2.heap.text (r.2.heap.peek ⟨0⟩ "k") = "a")) = true := by decide +kernel
  have hobText : host.Obeys (.mirroring .text ⟨0⟩ ⟨2⟩) 6 program (.fresh ()) := by
    unfold Host.Obeys
    decide +kernel
  have hobValue : host.Obeys (.mirroring .value ⟨1⟩ ⟨1⟩) 6 program (.fresh ()) := by
    unfold Host.Obeys
    decide +kernel
  obtain ⟨⟨u, w⟩, hrun, hw⟩ := (Option.any_eq_true _ _).mp hends
  obtain ⟨⟨⟨_, _, lastText, _⟩, hxText, rfl, rfl, rfl⟩,
    ⟨⟨_, _, lastValue, _⟩, hxValue, rfl, rfl, rfl⟩, hlist, honceText, honceValue, hfitsText,
    hfitsValue, hpeek⟩ := of_decide_eq_true hw
  have htext := shown_eq_text hrun hobText hxText rfl (by simp [hlist]) honceText hfitsText
  have hvalue := shown_eq_text hrun hobValue hxValue rfl (by simp [hlist]) honceValue hfitsValue
  exact ⟨u, w, hrun, hlist, hpeek, htext, hvalue⟩

end DataBinding
