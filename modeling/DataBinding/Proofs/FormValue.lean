import DataBinding.Proofs.Proper

/-!
# What a form control shows after input

Entering a text sets the value of a form control first and writes the key afterwards. The watcher
that shows the key again reacts only if the key has another value than the watcher saw last. So when
code of the user's restores the old value before the watcher has been updated, the control goes on
showing what was entered.

That is the only way to disagree: otherwise the control shows the text of the key. And it cannot
happen where the binding was made before any code of the user's subscribed to the key.
-/

namespace DataBinding

variable {κ σ : Type}

/-- Whether nothing but the sign of a zero distinguishes two values. -/
def Value.Alike (a b : Value) : Prop := a = b ∨ a.strictEq b = true

theorem Value.Alike.trans {a b c : Value} (hab : a.Alike b) (hbc : b.Alike c) : a.Alike c := by
  rcases hab with rfl | hab
  · exact hbc
  · rcases hbc with rfl | hbc
    · exact .inr hab
    · exact .inr (Value.strictEq_trans hab hbc)

/-- What is alike has the same text. -/
theorem Heap.text_of_alike (h h' : Heap κ) {a b : Value} (ha : a.isScalar = true)
    (hab : a.Alike b) : h.text a = h'.text b := by
  rw [h.text_of_isScalar h' ha]
  rcases hab with rfl | hab
  · rfl
  · exact h'.text_of_strictEq ha hab

theorem value_setText {d : Document κ} {n : NodeId} (hn : d.has n) (m : NodeId) (text : String) :
    ((d.setText m text).content n).value = (d.content n).value := by
  rw [Document.content_setText _ _ _ hn]
  split
  · exact Content.value_withText _ _
  · rfl

/-- A binding to another form control leaves the value of this one alone. -/
theorem value_shown {x : Watcher κ} {n : NodeId} (hx : x.reaction ≠ .setValue n) (h : Heap κ)
    (v : Value) {d : Document κ} (hn : d.has n) :
    ((x.shown h v d).content n).value = (d.content n).value := by
  unfold Watcher.shown
  cases hr : x.reaction with
  | setValue m =>
    have hne : ¬ m = n := fun heq => hx (by rw [hr, heq])
    dsimp only
    rw [Document.content_setValue, if_neg fun hm => hne hm.1]
  | setText m => exact value_setText hn m _
  | render m t => exact value_setText hn m _
  | custom code => rfl

/-- A binding to this form control shows the text of the value in it. -/
theorem value_shown_self {x : Watcher κ} {n : NodeId} (hx : x.reaction = .setValue n) (h : Heap κ)
    (v : Value) {d : Document κ} (hn : d.has n) (helement : (d.content n).isElement = true) :
    ((x.shown h v d).content n).value = h.text v := by
  unfold Watcher.shown
  rw [hx]
  dsimp only
  rw [Document.content_setValue, if_pos ⟨rfl, hn⟩, Content.value_setValue, if_pos helement]

namespace World

/-- The form value of a node. -/
def formValue (w : World κ σ) (n : NodeId) : String := (w.document.content n).value

/-- No watcher but one shows a value in a form control. -/
def ShownOnlyBy (w : World κ σ) (n : NodeId) (i : WatcherId) : Prop :=
  ∀ {j x}, w.watcher? j = some x → x.reaction = .setValue n → j = i

/-- A step either leaves the form value and what its watcher saw last alone, or afterwards the form
value is the text of what the watcher saw last. -/
def KeepsValue (n : NodeId) (i : WatcherId) (w w' : World κ σ) : Prop :=
  w'.ShownOnlyBy n i → w.document.has n → (w.document.content n).isElement = true →
    ∀ {x}, w.watcher? i = some x → x.reaction = .setValue n →
      ∃ last, w'.watcher? i = some { x with last } ∧
        ((w'.formValue n = w.formValue n ∧ x.last.Alike last) ∨
          w'.formValue n = w'.heap.text last)

instance [DecidableEq κ] (w : World κ σ) (n : NodeId) (i : WatcherId) :
    Decidable (w.ShownOnlyBy n i) :=
  decidable_of_iff (∀ k < w.watchers.size, ∀ x ∈ w.watcher? ⟨k⟩,
      x.reaction = .setValue n → ⟨k⟩ = i) <| by
    rw [forall_watcher_iff (P := fun j x => x.reaction = .setValue n → j = i)]
    exact ⟨fun h j x hx => h j x hx, fun h j x hx => h hx⟩

variable {n : NodeId} {i : WatcherId} {w w' : World κ σ}

theorem ShownOnlyBy.of_grows (ho : w'.ShownOnlyBy n i) (h : w.Grows w') : w.ShownOnlyBy n i := by
  intro j x hx hreaction
  obtain ⟨last, hx'⟩ := h.watcher hx
  exact ho hx' hreaction

theorem KeepsValue.of_same (hwatcher : ∀ {x}, w.watcher? i = some x → w'.watcher? i = some x)
    (hvalue : w.document.has n → w'.formValue n = w.formValue n) : KeepsValue n i w w' := by
  intro _ hn _ x hx _
  exact ⟨x.last, hwatcher hx, .inl ⟨hvalue hn, .inl rfl⟩⟩

theorem keepsValue_composes : Composes (KeepsValue (κ := κ) (σ := σ) n i) where
  refl w := .of_same id fun _ => rfl
  trans := by
    intro a b c hsa hab hbc hSab hSbc ho hn helement x hx hreaction
    obtain ⟨last, hxb, hb⟩ := hSab (ho.of_grows hbc.grows) hn helement hx hreaction
    have helement' := hab.grows.document.isElement hn helement
    obtain ⟨last', hxc, hc⟩ := hSbc ho (hab.grows.document.has hn) helement' hxb hreaction
    refine ⟨last', hxc, ?_⟩
    rcases hc with ⟨hvalue, halike⟩ | hc
    · rcases hb with ⟨hvalue', halike'⟩ | hb
      · exact .inl ⟨hvalue.trans hvalue', halike'.trans halike⟩
      · refine .inr ?_
        rw [hvalue, hb]
        exact Heap.text_of_alike _ _ (hab.sound.tidy.seen hxb) halike
    · exact .inr hc
  held w w' held held' := Iff.rfl

end World

open World

variable {env : Env κ σ} {n : NodeId} {i : WatcherId} {w w' : World κ σ}

/-! ## Steps -/

theorem update_keepsValue (hq : env.HooksRead)
    (hcall : env.CallsMove (AdvancesWith Nobody (KeepsValue n i))) {j : WatcherId} {u : Unit}
    (h : update env j w = some (u, w')) (hs : w.Sound) (hgrows : w.Grows w') :
    KeepsValue n i w w' := by
  rcases hq.update_cases hs.current h with ⟨rfl, _⟩ | ⟨x, hx, hupdate⟩
  · exact keepsValue_composes.refl _
  · have hother : ¬ j = i → ∀ {y v}, w.watcher? i = some y → (w.setLast j v).watcher? i = some y :=
      fun hji _ v hy => (watcher?_setLast_of_ne w hji v).trans hy
    rcases hupdate with ⟨heq, rfl⟩ | ⟨_, ⟨_, user, rfl⟩ | ⟨code, held, hcode, hreact⟩⟩
    · by_cases hji : j = i
      · -- the watcher notes a value that is alike, and the form value stays
        subst hji
        intro _ _ _ y hy _
        obtain rfl := Option.some.inj (hx.symm.trans hy)
        exact ⟨_, watcher?_setLast_self hx _, .inl ⟨rfl, .inr heq⟩⟩
      · exact .of_same (hother hji) fun _ => rfl
    · -- a reaction that draws: at this node, or elsewhere
      by_cases hji : j = i
      · subst hji
        intro _ hn helement y hy hreaction
        obtain rfl := Option.some.inj (hx.symm.trans hy)
        exact ⟨_, watcher?_setLast_self hx _, .inr (value_shown_self hreaction _ _ hn helement)⟩
      · intro ho
        have hne : x.reaction ≠ .setValue n := fun heq => hji (ho.of_grows hgrows hx heq)
        have hkeeps : KeepsValue n i w { w.setLast j (w.heap.peek x.data x.key) with
            document := x.shown w.heap (w.heap.peek x.data x.key) w.document, user } :=
          .of_same (hother hji) fun hn => value_shown hne _ _ hn
        exact hkeeps ho
    · -- a callback, so not the watcher of the form value: what it calls keeps the value
      intro ho hn helement y hy hreaction
      have hji : ¬ j = i := by
        rintro rfl
        obtain rfl := Option.some.inj (hx.symm.trans hy)
        rw [hcode] at hreaction
        cases hreaction
      have hset := advancesFrom_setLast w j x.data x.key hs
      have hcalled := keepsValue_composes.carried.holding held (.discard (hcall _ _ rfl)) hreact
        hset.sound
      exact hcalled.2 ho hn helement (hother hji hy) hreaction

theorem update_advancesKeepingValue (hq : env.HooksRead)
    (hcall : env.CallsMove (AdvancesWith Nobody (KeepsValue n i))) (j : WatcherId) :
    Run.Moves (AdvancesWith Nobody (KeepsValue n i)) (update env j) :=
  update_advancesWith hq hcall (update_keepsValue hq hcall)

theorem write_keepsValue (hq : env.HooksRead)
    (hcall : env.CallsMove (AdvancesWith Nobody (KeepsValue n i))) {p : ObjectId} {key : String}
    {v : Value} {u : Unit} (h : write env p key v w = some (u, w')) (hv : v.isScalar = true)
    (hs : w.Sound) : KeepsValue n i w w' := by
  rcases hq.write_eq_some hs.current h with
    ⟨_, rfl⟩ | ⟨c, hc, ⟨_, rfl⟩ | ⟨_, user, w₁, hall, rfl⟩⟩
  · exact .of_same id fun _ => rfl
  · exact keepsValue_composes.refl _
  · exact (keepsValue_composes.carried.updateAll (update_advancesKeepingValue hq hcall) _ hall
      (sound_stored hs p key c hv user).1).2

/-- A binding of another watcher, or of another node, leaves the value alone. -/
theorem keepsValue_of_watches {P : Watcher κ → Prop} {w₁ : World κ σ}
    (hwatches : w.Watches w₁ P) (hwatchers : w'.watchers = w₁.watchers)
    (hvalue : w.document.has n → w'.formValue n = w.formValue n) : KeepsValue n i w w' := by
  refine .of_same (fun hx => ?_) hvalue
  rw [watcher?_of_watchers hwatchers]
  exact hwatches.old hx

theorem bind_keepsValue (hq : env.HooksRead) {d : Directive} {m : NodeId} {expression : String}
    {kit : Kit κ} {u : Unit} (h : d.bind env m expression kit w = some (u, w'))
    (hs : w.Sound) : KeepsValue n i w w' := by
  cases d with
  | model =>
    obtain ⟨w₁, h₁, rfl⟩ := Run.holding_eq_some.mp h
    obtain ⟨places, user, rfl⟩ := hq.bindModel_eq_some (by exact hs.current) h₁
    intro ho hn helement x hx hreaction
    have hpush := watcher?_push w
      { key := Text.trim expression, data := kit.data,
        last := w.heap.peek kit.data (Text.trim expression), reaction := .setValue m }
    have hold := ne_next_of_watcher? hx
    -- a second control bound to the node would have a watcher of its own
    have hne : ¬ m = n := by
      rintro rfl
      have hnew := (hpush ⟨w.watchers.size⟩).trans (if_pos rfl)
      exact hold (ho hnew rfl).symm
    refine ⟨x.last, ((hpush i).trans (if_neg hold)).trans hx, .inl ⟨?_, .inl rfl⟩⟩
    show ((Document.setValue _ _ _).content n).value = _
    rw [Document.content_setValue, if_neg fun hm => hne hm.1, Document.content_addListener]
    rfl
  | text =>
    obtain ⟨w₁, h₁, rfl⟩ := Run.holding_eq_some.mp h
    have hkeeps : KeepsValue n i { w with held := [.object kit.data] ++ w.held } w₁ := by
      cases hmarkers : (Template.parse expression kit.dialect).hasMarkers with
      | true =>
        obtain ⟨w₂, user, hwatches, _, rfl⟩ :=
          hq.bindText_template (by exact hs.current) hmarkers h₁
        refine keepsValue_of_watches hwatches rfl fun hn => ?_
        show ((w₂.document.setText m _).content n).value = _
        rw [hwatches.document]
        exact value_setText hn m _
      | false =>
        obtain ⟨w₂, j, hwatches, _, rfl⟩ := hq.bindText_key hmarkers h₁
        refine keepsValue_of_watches hwatches rfl fun hn => ?_
        show ((w₂.document.setText m _).content n).value = _
        rw [hwatches.document]
        exact value_setText hn m _
    exact hkeeps
  | on event =>
    obtain rfl := Run.modify_eq_some.mp h
    refine .of_same id fun _ => ?_
    exact congrArg Content.value (Document.content_addListener _ m event _ n)

/-- Whether a request sets the form value of a node directly. -/
def Request.setsValue {α : Type} (n : NodeId) : Request κ α → Bool
  | .setValue m _ => m = n
  | .enter m _ => m = n
  | _ => false

theorem simple_keepsValue (hq : env.HooksRead)
    (hcall : env.CallsMove (AdvancesWith Nobody (KeepsValue n i))) {α : Type} (r : Request κ α)
    {a : α} (hr : r.isCompound = false) (hproper : r.isProper w = true)
    (hsets : r.setsValue n = false) (h : r.perform env w = some (a, w')) (hs : w.Sound)
    (hgrows : w.Grows w') :
    KeepsValue n i w w' := by
  cases hquiet : r.isQuiet with
  | true =>
    obtain ⟨hwatchers, _, hcontent⟩ := quiet_eq_some hquiet h
    refine .of_same (fun hx => ?_) fun hn => congrArg Content.value (hcontent n hn)
    rw [watcher?_of_watchers hwatchers]
    exact hx
  | false =>
    cases r with
    | write p key v => exact write_keepsValue hq hcall h hproper hs
    | update j => exact update_keepsValue hq hcall h hs hgrows
    | watch expression p code =>
      obtain ⟨hwatches, _⟩ := hq.watch_watches h
      refine keepsValue_of_watches hwatches rfl fun _ => ?_
      rw [formValue, formValue, hwatches.document]
    | setAttribute m name value =>
      obtain rfl := Run.modify_eq_some.mp h
      refine .of_same id fun _ => ?_
      show ((Document.setAttribute _ _ _ _).content n).value = _
      rw [Document.content_setAttribute]
      split
      · exact Content.value_setAttribute name value _
      · rfl
    | setText m text =>
      obtain rfl := Run.modify_eq_some.mp h
      exact .of_same id fun hn => value_setText hn m text
    | setValue m text =>
      have hne : ¬ m = n := by simpa [Request.setsValue] using hsets
      obtain rfl := Run.modify_eq_some.mp h
      refine .of_same id fun _ => ?_
      show ((Document.setValue _ _ _).content n).value = _
      rw [Document.content_setValue, if_neg fun hm => hne hm.1]
      rfl
    | newObject | newArray | ofJson | observe | newNode | appendChildren | detachChildren
    | listen => cases hquiet
    | _ => cases hr

/-- Proper user code that does not set the form value of a node directly. -/
def Request.leavesValue {α : Type} (n : NodeId) (w : World κ σ) (r : Request κ α) : Bool :=
  r.isProper w && !r.setsValue n

theorem manners_leavesValue :
    Manners fun {α} (w : World κ σ) (r : Request κ α) => r.leavesValue n w := by
  refine ⟨?_, ?_, ?_, ?_, ?_, ?_, ?_⟩
  · intro α w r h
    simp only [Request.leavesValue, Bool.and_eq_true] at h
    exact h.1
  all_goals intros
  all_goals simp_all [Request.leavesValue, Request.isProper, Request.setsValue, Value.isScalar]

theorem steps_keepValue {host : Host κ σ}
    (henv : env.Orderly host (AdvancesWith Nobody (KeepsValue n i))) :
    Steps env (AdvancesWith Nobody (KeepsValue n i)) World.Sound World.Bindable
      fun w r => r.leavesValue n w := by
  refine steps_advanceWith henv keepsValue_composes manners_leavesValue ?_ ?_ ?_
  · exact fun w user => .of_same id fun _ => rfl
  · intro α r w a w' hr hmay h hs hadvance
    simp only [Request.leavesValue, Bool.and_eq_true, Bool.not_eq_true'] at hmay
    exact simple_keepsValue henv.hooks henv.calls r hr hmay.1 hmay.2 h hs hadvance.grows
  · intro d m expression kit w u w' _ h hs _
    exact bind_keepsValue henv.hooks h hs

/-! ## Input -/

/-- Whether a watcher is updated at a key before any code of the user's runs. -/
def World.UpdatedFirst (w : World κ σ) (i : WatcherId) (o : ObjectId) (key : String) : Prop :=
  ∀ j ∈ (w.heap.subscribers o key).takeWhile (· ≠ i), ¬ w.RunsCode j

instance (w : World κ σ) (i : WatcherId) (o : ObjectId) (key : String) :
    Decidable (w.UpdatedFirst i o key) :=
  inferInstanceAs (Decidable (∀ j ∈ (w.heap.subscribers o key).takeWhile (· ≠ i), ¬ w.RunsCode j))

/-- Who subscribes later is updated later. -/
theorem World.UpdatedFirst.of_grows {o : ObjectId} {key : String} (hf : w.UpdatedFirst i o key)
    (h : w.Grows w') (hw : w.Wired) (hi : i ∈ w.heap.subscribers o key) :
    w'.UpdatedFirst i o key := by
  obtain ⟨late, hlate, _⟩ := h.subscribers o key
  have hstop : ((w.heap.subscribers o key).takeWhile (· ≠ i)).length ≠
      (w.heap.subscribers o key).length := by
    intro hlen
    have hall := (List.takeWhile_prefix _).eq_of_length hlen
    have := List.mem_takeWhile_imp (hall ▸ hi)
    simp at this
  unfold UpdatedFirst
  rw [hlate, List.takeWhile_append, if_neg hstop]
  intro j hj hcode
  obtain ⟨x, hx, hcustom⟩ := hcode
  obtain ⟨last, hx'⟩ := h.watcher_of_lt hx (hw.lt_size ((List.takeWhile_prefix _).subset hj))
  exact hf j hj ⟨_, hx', hcustom⟩

theorem runsCode_of_setLast {j k : WatcherId} {v : Value} (h : (w.setLast j v).RunsCode k) :
    w.RunsCode k := by
  obtain ⟨x, hx, hcustom⟩ := h
  rw [watcher?_setLast] at hx
  split at hx
  · obtain ⟨y, hy, rfl⟩ := Option.map_eq_some_iff.mp hx
    exact ⟨y, hy, hcustom⟩
  · exact ⟨x, hx, hcustom⟩

/-- The form value shows what its watcher saw last. -/
def World.Shows (w : World κ σ) (n : NodeId) (i : WatcherId) : Prop :=
  ∃ x, w.watcher? i = some x ∧ x.reaction = .setValue n ∧ w.formValue n = w.heap.text x.last

/-- From there on it goes on showing that. -/
theorem World.KeepsValue.shows (h : KeepsValue n i w w') (hs : w.Sound) (hn : w.document.has n)
    (helement : (w.document.content n).isElement = true) (ho : w'.ShownOnlyBy n i)
    (hshows : w.Shows n i) : w'.Shows n i := by
  obtain ⟨x, hx, hreaction, hvalue⟩ := hshows
  obtain ⟨last, hx', hkept⟩ := h ho hn helement hx hreaction
  refine ⟨_, hx', hreaction, ?_⟩
  rcases hkept with ⟨hsame, halike⟩ | hshown
  · rw [hsame, hvalue]
    exact Heap.text_of_alike _ _ (hs.tidy.seen hx) halike
  · exact hshown

/-- A watcher to which the value is new shows it. -/
theorem shows_of_update (hq : env.HooksRead) {u : Unit} (h : update env i w = some (u, w'))
    (hcurrent : w.current = none) (hn : w.document.has n)
    (helement : (w.document.content n).isElement = true) {x : Watcher κ}
    (hx : w.watcher? i = some x) (hreaction : x.reaction = .setValue n)
    (hheld : .object x.data ∈ w.held)
    (hne : x.last.strictEq (w.heap.peek x.data x.key) = false) : w'.Shows n i := by
  have hcustom : ¬ x.reaction.IsCustom := by
    rw [hreaction]
    exact id
  obtain ⟨user, rfl⟩ := hq.update_shown hcurrent h hx hcustom hheld hne
  exact ⟨_, watcher?_setLast_self hx _, hreaction, value_shown_self hreaction _ _ hn helement⟩

/-- A watcher without code of the user's leaves all values and the other watchers alone. -/
theorem update_spares (hq : env.HooksRead) {j : WatcherId} {u : Unit}
    (h : update env j w = some (u, w')) (hcurrent : w.current = none) (hcode : ¬ w.RunsCode j)
    (hji : ¬ j = i) :
    w'.watcher? i = w.watcher? i ∧ w'.heap = w.heap ∧ ∀ k, w'.RunsCode k → w.RunsCode k := by
  rcases hq.update_plain hcurrent h hcode with rfl | ⟨x, _, hheap, hwatchers⟩
  · exact ⟨rfl, rfl, fun _ => id⟩
  · refine ⟨?_, hheap, ?_⟩
    · rw [watcher?_of_watchers hwatchers]
      exact watcher?_setLast_of_ne w hji _
    · rintro k ⟨y, hy, hcustom⟩
      rw [watcher?_of_watchers hwatchers] at hy
      exact runsCode_of_setLast ⟨y, hy, hcustom⟩

/-- Updating the subscribers of its key makes the form value show what its watcher saw last, if the
watcher comes before any code of the user's. -/
theorem shows_of_updateAll (hq : env.HooksRead)
    (hcall : env.CallsMove (AdvancesWith Nobody (KeepsValue n i))) {is : List WatcherId} {u : Unit}
    (h : updateAll env is w = some (u, w')) (hs : w.Sound) (hn : w.document.has n)
    (helement : (w.document.content n).isElement = true) (ho : w'.ShownOnlyBy n i)
    {x : Watcher κ} (hx : w.watcher? i = some x) (hreaction : x.reaction = .setValue n)
    (hheld : .object x.data ∈ w.held) (hmem : i ∈ is)
    (hfirst : ∀ j ∈ is.takeWhile (· ≠ i), ¬ w.RunsCode j)
    (hne : x.last.strictEq (w.heap.peek x.data x.key) = false) : w'.Shows n i := by
  induction is generalizing w with
  | nil => cases hmem
  | cons j rest ih =>
    obtain ⟨_, w₁, h₁, h₂⟩ := Run.bind_eq_some.mp h
    have hadvance := update_advances hq (callsMove_advancesFrom hcall) j h₁ hs
    have hn₁ := hadvance.grows.document.has hn
    have helement₁ := hadvance.grows.document.isElement hn helement
    by_cases hji : j = i
    · -- the watcher shows the value, and all that follows keeps what is shown
      subst hji
      have hrest := keepsValue_composes.carried.updateAll (update_advancesKeepingValue hq hcall)
        rest h₂ hadvance.sound
      exact hrest.2.shows hadvance.sound hn₁ helement₁ ho
        (shows_of_update hq h₁ hs.current hn helement hx hreaction hheld hne)
    · -- an earlier watcher runs no code, so it leaves value and watcher alone
      have hmem' : i ∈ rest := (List.mem_cons.mp hmem).resolve_left fun h => hji h.symm
      have htake : (j :: rest).takeWhile (· ≠ i) = j :: rest.takeWhile (· ≠ i) := by
        simp [hji]
      rw [htake] at hfirst
      obtain ⟨hwatcher, hheap, hcode⟩ :=
        update_spares hq h₁ hs.current (hfirst j List.mem_cons_self) hji
      have hheld₁ : .object x.data ∈ w₁.held := by
        rw [hadvance.held]
        exact hheld
      have hne₁ : x.last.strictEq (w₁.heap.peek x.data x.key) = false := by
        rw [hheap]
        exact hne
      exact ih h₂ hadvance.sound hn₁ helement₁ (hwatcher.trans hx) hheld₁ hmem'
        (fun k hk h => hfirst k (List.mem_cons_of_mem _ hk) (hcode k h)) hne₁

/-- Listeners that all answer without an error have been called one after the other. -/
theorem deliverAll_append {event : Event} {ls ls' : List (Listener κ)}
    (h : deliverAll env event (ls ++ ls') w = some (.ok (), w')) :
    ∃ w₁, deliverAll env event ls w = some (.ok (), w₁) ∧
      deliverAll env event ls' w₁ = some (.ok (), w') := by
  induction ls generalizing w with
  | nil => exact ⟨w, Run.pure_eq_some.mpr ⟨rfl, rfl⟩, h⟩
  | cons l rest ih =>
    obtain ⟨result, w₁, h₁, h₂⟩ := Run.bind_eq_some.mp h
    cases result with
    | error e => cases (Run.pure_eq_some.mp h₂).1
    | ok u =>
      obtain ⟨w₂, hrest, hafter⟩ := ih h₂
      exact ⟨w₂, Run.bind_eq_some.mpr ⟨_, w₁, h₁, hrest⟩, hafter⟩

/-- Writing back what was entered makes the form value show what its watcher saw last. If the key
has the value already, so has the watcher seen it. -/
theorem shows_of_writeBack (hq : env.HooksRead)
    (hcall : env.CallsMove (AdvancesWith Nobody (KeepsValue n i))) {text : String} {x : Watcher κ}
    {u : Unit} (h : write env x.data x.key (.text text) w = some (u, w')) (hs : w.Sound)
    (hn : w.document.has n) (helement : (w.document.content n).isElement = true)
    (ho : w'.ShownOnlyBy n i) (hx : w.watcher? i = some x) (hreaction : x.reaction = .setValue n)
    (hreactive : i ∈ w.heap.subscribers x.data x.key)
    (hlast : x.last = w.heap.peek x.data x.key) (hvalue : w.formValue n = text ∨ w.Shows n i)
    (hfirst : w.UpdatedFirst i x.data x.key) : w'.Shows n i := by
  obtain ⟨c, hc, hi⟩ := Heap.mem_subscribers.mp hreactive
  have hpeek := Heap.peek_of_cell? hc
  rcases hq.write_eq_some hs.current h with
    ⟨hnone, _⟩ | ⟨c', hc', ⟨heq, rfl⟩ | ⟨hne, user, w₁, hall, rfl⟩⟩
  · rw [hc] at hnone
    cases hnone
  · obtain rfl := Option.some.inj (hc.symm.trans hc')
    rcases hvalue with htext | hshows
    · -- what was entered is the value of the key, and its watcher has seen that
      have hvalue : c.value = .text text := by
        cases hv : c.value <;> rw [hv] at heq <;> simp_all [Value.strictEq]
      refine ⟨x, hx, hreaction, ?_⟩
      rw [htext, hlast, hpeek, hvalue]
      rfl
    · exact hshows
  · obtain rfl := Option.some.inj (hc.symm.trans hc')
    obtain ⟨hstored, _⟩ := sound_stored (v := .text text) hs x.data x.key c rfl user
    -- the write goes through, and the watcher is updated with what was entered
    have hnew : (w.stored x.data x.key c (.text text) user).heap.peek x.data x.key =
        .text text := by
      rw [peek_stored hc, if_pos ⟨rfl, rfl⟩]
    unfold UpdatedFirst at hfirst
    rw [Heap.subscribers_of_cell? hc] at hfirst
    have hshows : w₁.Shows n i := by
      refine shows_of_updateAll hq hcall hall hstored hn helement ho hx hreaction
        List.mem_cons_self hi hfirst ?_
      rw [hnew, hlast, hpeek]
      exact hne
    exact hshows

/-- Conduct while a text is entered: nobody else sets the form value of the node. -/
def Request.leavesValueToInput {α : Type} (n : NodeId) (on : Option Occasion) (w : World κ σ)
    (r : Request κ α) : Bool :=
  if on.isNone then r.isProper w else r.leavesValue n w

/-- What is known of the callbacks while a text is entered. -/
theorem Host.envUnder_input (host : Host κ σ) (depth : Nat) :
    (host.envUnder (.orderly (Request.leavesValueToInput n)) depth).Orderly host
        (AdvancesWith Nobody (KeepsValue n i)) ∧
      (host.envUnder (.orderly (Request.leavesValueToInput n)) depth).CallsMove
        (SettlesFrom Nobody) := by
  refine ⟨?_, ?_⟩
  · exact Host.envUnder_orderly keepsValue_composes.carried
      (fun w f hs => ⟨AdvancesFrom.user w (f w.user) hs, .of_same id fun _ => rfl⟩)
      (fun henv _ => steps_keepValue henv) depth
  · exact (Host.envUnder_orderly carried_settlesFrom (fun w f => .user w (f w.user))
      (fun henv _ => steps_settle henv.hooks henv.calls) depth).calls

/-- A text that is entered is dispatched to the listeners in an environment that leaves the form
value alone. -/
theorem Host.input_eq_some {host : Host κ σ} {depth : Nat} {o : ObjectId} {text : String}
    {result : Except ViewError Unit}
    (h : host.run depth (.holding [.object o] (.request (.enter n text))) w = some (result, w'))
    (hob : host.Obeys (.orderly (Request.leavesValueToInput n)) depth
      (.holding [.object o] (.request (.enter n text))) w) :
    ∃ w₁, deliverAll (host.envUnder (.orderly (Request.leavesValueToInput n)) depth)
        { name := "input", value := some text }
        (w.document.listenersFor n "input")
        { w with
          document := w.document.setValue n text
          held := .object o :: w.held } = some (result, w₁) ∧
      w' = { w₁ with held := w.held } := by
  rw [Host.run_eq_runUnder hob] at h
  obtain ⟨w₁, hrequest, rfl⟩ := Run.holding_eq_some.mp h
  refine ⟨w₁, ?_, rfl⟩
  obtain ⟨_, _, hget, hguard⟩ := Run.bind_eq_some.mp hrequest
  obtain ⟨rfl, rfl⟩ := Run.get_eq_some.mp hget
  split at hguard
  · obtain ⟨_, w₂, hset, hdispatch⟩ := Run.bind_eq_some.mp hguard
    obtain rfl := Run.modify_eq_some.mp hset
    obtain ⟨_, _, hget, hdeliver⟩ := Run.bind_eq_some.mp hdispatch
    obtain ⟨rfl, rfl⟩ := Run.get_eq_some.mp hget
    rw [← Document.listenersFor_setValue w.document n text]
    exact hdeliver
  · simp at hguard

/-- A form control writes what was entered to its key, if the data is alive. -/
theorem writeBack_eq_some {o : ObjectId} {key text : String} {event : Event}
    {result : Except ViewError Unit} (halive : w.isAlive env.handles o = true)
    (hevent : event.value = some text)
    (h : (Listener.writeBack o key).deliver env event w = some (result, w')) :
    result = .ok () ∧ write env o key (.text text) w = some ((), w') := by
  unfold Listener.deliver at h
  rw [hevent] at h
  obtain ⟨_, _, hget, hguard⟩ := Run.bind_eq_some.mp h
  obtain ⟨rfl, rfl⟩ := Run.get_eq_some.mp hget
  rw [if_pos halive] at hguard
  obtain ⟨_, w₁, hwrite, hpure⟩ := Run.bind_eq_some.mp hguard
  obtain ⟨rfl, rfl⟩ := Run.pure_eq_some.mp hpure
  exact ⟨rfl, hwrite⟩

/-- Delivering an event keeps the form value in the sense of a step. -/
theorem deliverAll_advancesKeepingValue
    (hcall : env.CallsMove (AdvancesWith Nobody (KeepsValue n i))) (hq : env.HooksRead)
    {event : Event} {ls : List (Listener κ)} {result : Except ViewError Unit}
    (h : deliverAll env event ls w = some (result, w')) :
    w.AdvancesWith Nobody (KeepsValue n i) w' := by
  refine keepsValue_composes.carried.deliverAll hcall ?_ event ls h
  intro o key text
  exact write_advancesWith hq hcall rfl fun h hs _ => write_keepsValue hq hcall h rfl hs

theorem settled_of_deliverAll (hcall : env.CallsMove (SettlesFrom Nobody)) (hq : env.HooksRead)
    {event : Event} {ls : List (Listener κ)} {result : Except ViewError Unit}
    (h : deliverAll env event ls w = some (result, w')) (hs : w.Sound) (hsettled : w.Settled) :
    w'.Settled := by
  have hsettles := carried_settlesFrom.deliverAll hcall
    (fun o key text => write_settles hq hcall o key (.text text)) event ls h (.nobody hs.current)
  exact settledBut_false.mp
    (hsettles.settled _ (fun _ _ _ => id) (settledBut_false.mpr hsettled))

/-- Once all listeners have had what was entered, the form value shows what its watcher saw last, if
that one is updated before any code of the user's. -/
theorem shows_of_deliverAll (hcall : env.CallsMove (AdvancesWith Nobody (KeepsValue n i)))
    (hsettle : env.CallsMove (SettlesFrom Nobody)) (hq : env.HooksRead) {event : Event}
    {text : String} (hevent : event.value = some text) {ls : List (Listener κ)} {x : Watcher κ}
    (h : deliverAll env event ls w = some (.ok (), w')) (hs : w.Sound) (hsettled : w.Settled)
    (hn : w.document.has n) (helement : (w.document.content n).isElement = true)
    (hentered : w.formValue n = text) (ho : w'.ShownOnlyBy n i) (hx : w.watcher? i = some x)
    (hreaction : x.reaction = .setValue n) (hreactive : i ∈ w.heap.subscribers x.data x.key)
    (hheld : .object x.data ∈ w.held) (hheard : .writeBack x.data x.key ∈ ls)
    (hfirst : w.UpdatedFirst i x.data x.key) : w'.Shows n i := by
  obtain ⟨before, after, rfl⟩ := List.append_of_mem hheard
  obtain ⟨w₁, hbefore, hdeliver⟩ := deliverAll_append h
  obtain ⟨result, w₂, hwriteBack, hafter⟩ := Run.bind_eq_some.mp hdeliver
  obtain ⟨hadvance₁, hkeeps₁⟩ := deliverAll_advancesKeepingValue hcall hq hbefore hs
  have hsettled₁ := settled_of_deliverAll hsettle hq hbefore hs hsettled
  have hn₁ := hadvance₁.grows.document.has hn
  have helement₁ := hadvance₁.grows.document.isElement hn helement
  have hheld₁ : .object x.data ∈ w₁.held := by
    rw [hadvance₁.held]
    exact hheld
  obtain ⟨rfl, hwrite⟩ := writeBack_eq_some (isAlive_of_mem_held hheld₁) hevent hwriteBack
  have hadvance₂ := write_advances hq (callsMove_advancesFrom hcall) x.data x.key
    (v := .text text) rfl hwrite hadvance₁.sound
  obtain ⟨hadvance₃, hkeeps₃⟩ := deliverAll_advancesKeepingValue hcall hq hafter hadvance₂.sound
  have ho₂ : w₂.ShownOnlyBy n i := ho.of_grows hadvance₃.grows
  have ho₁ : w₁.ShownOnlyBy n i := ho₂.of_grows hadvance₂.grows
  -- the listeners called before may have written to the key, but then its text is shown already
  obtain ⟨last, hx₁, hkept⟩ := hkeeps₁ ho₁ hn helement hx hreaction
  have hvalue : w₁.formValue n = text ∨ w₁.Shows n i := by
    rcases hkept with ⟨hsame, _⟩ | hshown
    · exact .inl (hsame.trans hentered)
    · exact .inr ⟨_, hx₁, hreaction, hshown⟩
  have hreactive₁ := hadvance₁.grows.mem_subscribers hreactive
  have hshows₂ : w₂.Shows n i :=
    shows_of_writeBack (x := { x with last }) hq hcall hwrite hadvance₁.sound hn₁ helement₁ ho₂
      hx₁ hreaction hreactive₁ (hsettled₁.last_eq_peek hx₁ hreactive₁) hvalue
      (hfirst.of_grows hadvance₁.grows hs.wired hreactive)
  exact hkeeps₃.shows hadvance₂.sound (hadvance₂.grows.document.has hn₁)
    (hadvance₂.grows.document.isElement hn₁ helement₁) ho hshows₂

/-- **What a form control shows after input.** It shows the text of its key, or else it shows what
was entered although the key has the value it had before. The latter does not happen if the binding
is updated before any code of the user's. -/
theorem formValue_after_input {host : Host κ σ} {depth depth' : Nat} {α : Type}
    {p : Program κ σ α} {user : σ} {a : α} {text : String} {x : Watcher κ}
    (hrun : host.run depth p (.fresh user) = some (a, w))
    (hob : host.Obeys (.orderly fun _ w r => r.isProper w) depth p (.fresh user))
    (hinput : host.run depth' (.holding [.object x.data] (.request (.enter n text))) w =
      some (.ok (), w'))
    (hob' : host.Obeys (.orderly (Request.leavesValueToInput n)) depth'
      (.holding [.object x.data] (.request (.enter n text))) w)
    (hn : w.document.has n) (helement : (w.document.content n).isElement = true)
    (hx : w.watcher? i = some x) (hreaction : x.reaction = .setValue n)
    (hreactive : i ∈ w.heap.subscribers x.data x.key) (honly : w'.ShownOnlyBy n i) :
    (w'.formValue n = w'.heap.text (w'.heap.peek x.data x.key) ↔
      ¬ (w'.formValue n = text ∧
        (w.heap.peek x.data x.key).Alike (w'.heap.peek x.data x.key) ∧
        text ≠ w'.heap.text (w'.heap.peek x.data x.key))) ∧
    (w.UpdatedFirst i x.data x.key →
      w'.formValue n = w'.heap.text (w'.heap.peek x.data x.key)) := by
  have hs := Host.sound_of_run hrun hob
  obtain ⟨w₁, hdeliver, rfl⟩ := Host.input_eq_some hinput hob'
  have honly₁ : w₁.ShownOnlyBy n i := honly
  obtain ⟨henv, hsettle⟩ := Host.envUnder_input (n := n) (i := i) host depth'
  -- the world in which the listeners are called
  have hs₀ := (AdvancesFrom.setValue w n text hs).sound.hold (.object x.data :: w.held)
  have hn₀ : (w.document.setValue n text).has n := (Document.Extends.setValue _ n text).has hn
  have helement₀ := (Document.Extends.setValue w.document n text).isElement hn helement
  have hentered : ((w.document.setValue n text).content n).value = text := by
    rw [Document.content_setValue, if_pos ⟨rfl, hn⟩, Content.value_setValue, if_pos helement]
  have hsettled : w.Settled := settled_of_orderly hrun hob
  have hsettled₁ := settled_of_deliverAll hsettle henv.hooks hdeliver hs₀ hsettled
  obtain ⟨hadvance, hkeeps⟩ := deliverAll_advancesKeepingValue henv.calls henv.hooks hdeliver hs₀
  refine ⟨?_, ?_⟩
  · obtain ⟨last, hx₁, hkept⟩ := hkeeps honly₁ hn₀ helement₀ hx hreaction
    have hlast : last = w₁.heap.peek x.data x.key :=
      hsettled₁.last_eq_peek hx₁ (hadvance.grows.mem_subscribers hreactive)
    rw [hsettled.last_eq_peek hx hreactive, hlast] at hkept
    constructor
    · intro hagrees hdiffers
      exact hdiffers.2.2 (hdiffers.1.symm.trans hagrees)
    · intro hnot
      rcases hkept with ⟨hsame, halike⟩ | hshown
      · by_contra hne
        have hvalue := hsame.trans hentered
        exact hnot ⟨hvalue, halike, fun heq => hne (hvalue.trans heq)⟩
      · exact hshown
  · intro hfirst
    obtain ⟨x₁, hx₁, _, hshown⟩ := shows_of_deliverAll henv.calls hsettle henv.hooks rfl hdeliver
      hs₀ hsettled hn₀ helement₀ hentered honly₁ hx hreaction hreactive List.mem_cons_self
      (hs.tidy.heard hx hreaction) hfirst
    obtain ⟨last, hx₁'⟩ := hadvance.grows.watcher hx
    obtain rfl := Option.some.inj (hx₁.symm.trans hx₁')
    rw [← hsettled₁.last_eq_peek hx₁ (hadvance.grows.mem_subscribers hreactive)]
    exact hshown

namespace Restoring

/-- A callback that answers a text by writing the former one. -/
def host : Host Unit Unit where
  body
    | _, .changed (.text "bad") =>
      .andThen (.request (.write ⟨0⟩ "k" (.text "ok"))) fun _ => .done (.ok ())
    | _, _ => .done (.ok ())
  handles _ := []

/-- A field and a form control. -/
def setUp : Program Unit Unit Unit :=
  .andThen (.request .newObject) fun o =>
  .andThen (.request (.write o "k" (.text "ok"))) fun _ =>
  .andThen (.request (.observe .silent (.object o))) fun _ =>
  .andThen (.request (.newNode (.ofTag "input"))) fun _ => .done ()

def bindControl : Program Unit Unit Unit :=
  .request (.bind .model ⟨0⟩ "k" { data := ⟨0⟩ })

def watchKey : Program Unit Unit Unit :=
  .andThen (.request (.watch "k" ⟨0⟩ ())) fun _ => .done ()

def program (first second : Program Unit Unit Unit) : Program Unit Unit Unit :=
  .andThen setUp fun _ => .andThen first fun _ => second

def input : Program Unit Unit (Except ViewError Unit) :=
  .holding [.object ⟨0⟩] (.request (.enter ⟨0⟩ "bad"))

def proper {α : Type} (_ : Option Occasion) (w : World Unit Unit) (r : Request Unit α) : Bool :=
  r.isProper w

end Restoring

open Restoring in
theorem formValue_after_input_bound_first : ∃ u w w',
    host.run 5 (program bindControl watchKey) (.fresh ()) = some (u, w) ∧
      host.run 5 input w = some (.ok (), w') ∧
      w.UpdatedFirst ⟨0⟩ ⟨0⟩ "k" ∧
      w'.formValue ⟨0⟩ = w'.heap.text (w'.heap.peek ⟨0⟩ "k") := by
  have hends : (host.run 5 (program bindControl watchKey) (.fresh ())).any (fun r =>
      decide (r.2.document.has ⟨0⟩ ∧ (r.2.document.content ⟨0⟩).isElement = true ∧
        (∃ x ∈ r.2.watcher? ⟨0⟩, x.data = ⟨0⟩ ∧ x.key = "k" ∧ x.reaction = .setValue ⟨0⟩) ∧
        (⟨0⟩ : WatcherId) ∈ r.2.heap.subscribers ⟨0⟩ "k" ∧ r.2.UpdatedFirst ⟨0⟩ ⟨0⟩ "k" ∧
        (host.runUnder (.orderly (Request.leavesValueToInput ⟨0⟩)) 5 input r.2).isSome = true) &&
      (host.run 5 input r.2).any fun r' =>
        decide (r'.1 = .ok () ∧ r'.2.ShownOnlyBy ⟨0⟩ ⟨0⟩)) = true := by decide +kernel
  have hob : host.Obeys (.orderly proper) 5 (program bindControl watchKey) (.fresh ()) := by
    unfold Host.Obeys
    decide +kernel
  obtain ⟨⟨u, w⟩, hrun, hw⟩ := (Option.any_eq_true _ _).mp hends
  obtain ⟨hw, hends'⟩ := Bool.and_eq_true_iff.mp hw
  obtain ⟨hn, helement, ⟨⟨_, _, last, _⟩, hx, rfl, rfl, rfl⟩, hreactive, hfirst, hob'⟩ :=
    of_decide_eq_true hw
  obtain ⟨⟨result, w'⟩, hinput, hw'⟩ := (Option.any_eq_true _ _).mp hends'
  obtain ⟨rfl, honly⟩ := of_decide_eq_true hw'
  have hagrees := (formValue_after_input (x := ⟨"k", ⟨0⟩, last, .setValue ⟨0⟩⟩) hrun hob hinput hob'
    hn helement hx rfl hreactive honly).2 hfirst
  exact ⟨u, w, w', hrun, hinput, hfirst, hagrees⟩

open Restoring in
/-- With the callback registered first, the control goes on showing what was entered. -/
theorem formValue_stale_watched_first : ∃ u w w',
    host.run 5 (program watchKey bindControl) (.fresh ()) = some (u, w) ∧
      host.Obeys (.orderly proper) 5 (program watchKey bindControl) (.fresh ()) ∧
      host.run 5 input w = some (.ok (), w') ∧
      host.Obeys (.orderly (Request.leavesValueToInput ⟨0⟩)) 5 input w ∧
      w'.ShownOnlyBy ⟨0⟩ ⟨1⟩ ∧ w'.formValue ⟨0⟩ = "bad" ∧
      w'.heap.text (w'.heap.peek ⟨0⟩ "k") = "ok" := by
  have hends : (host.run 5 (program watchKey bindControl) (.fresh ())).any (fun r =>
      (host.runUnder (.orderly (Request.leavesValueToInput ⟨0⟩)) 5 input r.2).isSome &&
      (host.run 5 input r.2).any fun r' =>
        decide (r'.1 = .ok () ∧ r'.2.ShownOnlyBy ⟨0⟩ ⟨1⟩ ∧ r'.2.formValue ⟨0⟩ = "bad" ∧
          r'.2.heap.text (r'.2.heap.peek ⟨0⟩ "k") = "ok")) = true := by decide +kernel
  have hob : host.Obeys (.orderly proper) 5 (program watchKey bindControl) (.fresh ()) := by
    unfold Host.Obeys
    decide +kernel
  obtain ⟨⟨u, w⟩, hrun, hw⟩ := (Option.any_eq_true _ _).mp hends
  obtain ⟨hob', hends'⟩ := Bool.and_eq_true_iff.mp hw
  obtain ⟨⟨result, w'⟩, hinput, hw'⟩ := (Option.any_eq_true _ _).mp hends'
  obtain ⟨rfl, honly, hvalue, htext⟩ := of_decide_eq_true hw'
  exact ⟨u, w, w', hrun, hob, hinput, hob', honly, hvalue, htext⟩

end DataBinding
