import DataBinding.Proofs.Calm
import DataBinding.Proofs.Effects
import DataBinding.Proofs.FormValue

/-!
# The order of a fan-out

A write of another value to a reactive field updates those who are subscribed to it at that moment,
in order of registration. Who is subscribed several times is updated several times, but reacts only
once: the second update finds the value that the watcher has just noted.

This needs that nobody else writes or updates a watcher meanwhile. Then what is left of the list is
settled by two things, the value of the field and who has been told of it already, and both are
kept by all other things that callbacks do.
-/

namespace DataBinding

variable {κ σ : Type}

/-! ## Who is left -/

/-- Those of a list who have not been told, each once, by when they come first. -/
def untold (told is : List WatcherId) : List WatcherId :=
  (is.filter fun i => !told.contains i).eraseDups

section

variable {told is : List WatcherId} {i : WatcherId}

theorem untold_nil (is : List WatcherId) : untold [] is = is.eraseDups := by
  simp [untold]

theorem untold_cons_of_mem (hi : i ∈ told) : untold told (i :: is) = untold (i :: told) is := by
  unfold untold
  rw [List.filter_cons_of_neg (by simpa using hi)]
  congr 1
  refine List.filter_congr fun j _ => ?_
  by_cases hj : j = i
  · simp [hj, hi]
  · simp [hj]

theorem untold_cons_of_not_mem (hi : i ∉ told) :
    untold told (i :: is) = i :: untold (i :: told) is := by
  unfold untold
  rw [List.filter_cons_of_pos (by simpa using hi), List.eraseDups_cons, List.filter_filter]
  congr 2
  refine List.filter_congr fun j _ => ?_
  by_cases hj : j = i
  · simp [hj]
  · simp [hj]

end

/-! ## Updates in a row -/

/-- In the middle of a fan-out: the field has the new value, and of the watchers that are to be
updated just those who have been told see no difference to it. -/
structure World.Fanning (o : ObjectId) (key : String) (v : Value) (told is : List WatcherId)
    (w : World κ σ) : Prop where
  held : .object o ∈ w.held
  peek : w.heap.peek o key = v
  reactive : w.heap.isReactive o key = true
  bound : ∀ i ∈ is, ∃ x, w.watcher? i = some x ∧ x.data = o ∧ x.key = key ∧
    x.last.strictEq v = decide (i ∈ told)

/-- What updating some watchers of a field leaves, as far as the field is concerned. -/
structure World.Refreshed (o : ObjectId) (key : String) (is : List WatcherId) (w w' : World κ σ) :
    Prop where
  watcher : ∀ {i x}, i ∉ is → w.watcher? i = some x → w'.watcher? i = some x
  cell : ∀ {c}, w.heap.cell? o key = some c →
    ∃ late, w'.heap.cell? o key = some { c with subscribers := c.subscribers ++ late } ∧
      ∀ i x, w.watcher? i = none → w'.watcher? i = some x → x.data = o → x.key = key →
        i ∈ late ∧ x.last = c.value

namespace World

variable {o : ObjectId} {key : String} {v : Value} {told is : List WatcherId} {i : WatcherId}
  {w w' : World κ σ}

/-- A watcher notes the value and then everybody is calm. -/
theorem Undisturbed.refreshed (h : (w.setLast i v).Undisturbed o key w') :
    w.Refreshed o key [i] w' := by
  have hset : ∀ j, w.watcher? j = none → (w.setLast i v).watcher? j = none := by
    intro j hj
    rw [watcher?_setLast, hj]
    split <;> rfl
  refine ⟨fun {j x} hj hx => ?_, fun {c} hc => ?_⟩
  · refine h.watcher ?_
    have hij : ¬ i = j := fun hij => hj (List.mem_singleton.mpr hij.symm)
    rw [watcher?_setLast_of_ne _ hij]
    exact hx
  · obtain ⟨late, hcell, hlate⟩ := h.cell (c := c) hc
    exact ⟨late, hcell, fun j x hnew => hlate j x (hset j hnew)⟩

theorem Refreshed.refl (w : World κ σ) : w.Refreshed o key [] w :=
  ⟨fun _ hx => hx, (Undisturbed.refl w).cell⟩

/-- Watchers that were there before are left alone by the updates of others, and so are those that
have been built meanwhile. -/
theorem Refreshed.trans {w₁ : World κ σ} {is' : List WatcherId} (h : w.Refreshed o key is w₁)
    (h' : w₁.Refreshed o key is' w') (hold : ∀ j ∈ is', w.watcher? j ≠ none) :
    w.Refreshed o key (is ++ is') w' := by
  refine ⟨fun {j x} hj hx => ?_, fun {c} hc => ?_⟩
  · have hj := not_or.mp (List.mem_append.not.mp hj)
    exact h'.watcher hj.2 (h.watcher hj.1 hx)
  · obtain ⟨late, hcell, hlate⟩ := h.cell hc
    obtain ⟨late', hcell', hlate'⟩ := h'.cell hcell
    refine ⟨late ++ late', by rw [hcell', List.append_assoc], fun j x hnew hx hdata hkey => ?_⟩
    cases hj : w₁.watcher? j with
    | none =>
      obtain ⟨hmem, hlast⟩ := hlate' j x hj hx hdata hkey
      exact ⟨List.mem_append_right _ hmem, hlast⟩
    | some y =>
      have hkept := h'.watcher (fun hmem => hold j hmem hnew) hj
      obtain rfl := Option.some.inj (hkept.symm.trans hx)
      obtain ⟨hmem, hlast⟩ := hlate j y hnew hj hdata hkey
      exact ⟨List.mem_append_left _ hmem, hlast⟩

/-- The first watcher of those that are left has noted the value, and then everybody was calm. -/
theorem Fanning.next (h : w.Fanning o key v told (i :: is)) (hself : i ∈ is → v.strictEq v = true)
    (hmoves : (w.setLast i v).Undisturbed o key w') : w'.Fanning o key v (i :: told) is := by
  obtain ⟨c, hc⟩ := Option.isSome_iff_exists.mp h.reactive
  obtain ⟨late, hcell, _⟩ := hmoves.cell (c := c) hc
  refine ⟨hmoves.held ▸ h.held, ?_, ?_, fun j hj => ?_⟩
  · rw [Heap.peek_of_cell? hcell, ← h.peek, Heap.peek_of_cell? hc]
  · rw [Heap.isReactive, hcell]
    rfl
  · obtain ⟨x, hx, hdata, hkey, hlast⟩ := h.bound j (List.mem_cons_of_mem _ hj)
    by_cases hij : i = j
    · subst hij
      refine ⟨_, hmoves.watcher (watcher?_setLast_self hx v), hdata, hkey, ?_⟩
      rw [decide_eq_true List.mem_cons_self]
      exact hself hj
    · refine ⟨x, hmoves.watcher ((watcher?_setLast_of_ne _ hij v).trans hx), hdata, hkey, ?_⟩
      rw [hlast]
      simp [Ne.symm hij]

end World

namespace Account

variable {s : Scribe κ σ} {o : ObjectId} {key : String} {v : Value} {told is : List WatcherId}
  {i : WatcherId} {w w' : World κ σ}

/-- Who has been told notes the value once more and does nothing. -/
theorem update_told (h : w.Fanning o key v told (i :: is)) (hi : i ∈ told) :
    (update s i).run w = some ((), w.setLast i v) ∧ (update s i).events w = [] := by
  obtain ⟨x, hx, rfl, rfl, hlast⟩ := h.bound i List.mem_cons_self
  have halive : w.isAlive s.handles x.data = true := World.isAlive_of_mem_held h.held
  rw [decide_eq_true hi, ← h.peek] at hlast
  constructor
  · rw [run_update, ← h.peek]
    exact update_eq_setLast hx halive hlast
  · refine events_update_eq_nil s fun y hy _ => ?_
    obtain rfl := Option.some.inj (hx.symm.trans hy)
    exact hlast

/-- Who has not been told notes the value and reacts to it. -/
theorem update_untold (h : w.Fanning o key v told (i :: is)) (hi : i ∉ told) :
    ∃ x held, w.watcher? i = some x ∧
      (update s i).run w = Run.holding held (x.react s v).run (w.setLast i v) ∧
      ((update s i).events w).calls =
        (i, v) :: ((x.react s v).events { w.setLast i v with held := held ++ w.held }).calls := by
  obtain ⟨x, hx, rfl, rfl, hlast⟩ := h.bound i List.mem_cons_self
  have halive : w.isAlive s.handles x.data = true := World.isAlive_of_mem_held h.held
  rw [decide_eq_false hi, ← h.peek] at hlast
  refine ⟨x, .watcher i :: .object x.data :: v.handles ++ x.last.handles, hx, ?_⟩
  rw [← h.peek]
  constructor
  · rw [run_update, run_react]
    exact update_eq_holding hx halive hlast
  · rw [events_update_of_ne s hx halive hlast]
    rfl

/-- What comes of updating the watchers that are left: who has not been told reacts, in order and
once. -/
structure TellsRest (o : ObjectId) (key : String) (v : Value) (told is : List WatcherId)
    (s : Scribe κ σ) (w w' : World κ σ) : Prop where
  calls : ((updateAll s is).events w).calls = (untold told is).map fun i => (i, v)
  refreshed : w.Refreshed o key is w'

theorem updateAll_tells (hs : s.Calm o key) (h : w.Fanning o key v told is)
    (hself : v.strictEq v = true ∨ is.Nodup) (hrun : (updateAll s is).run w = some ((), w')) :
    TellsRest o key v told is s w w' := by
  -- along the list: the first watcher is told, and is then one of those who have been
  induction is generalizing w told with
  | nil =>
    obtain ⟨_, rfl⟩ := Run.pure_eq_some.mp hrun
    exact ⟨rfl, .refl w⟩
  | cons i rest ih =>
    have hself' : v.strictEq v = true ∨ rest.Nodup := hself.imp_right fun h => h.of_cons
    have hagain : i ∈ rest → v.strictEq v = true := fun hi =>
      hself.resolve_right fun hnodup => (List.nodup_cons.mp hnodup).1 hi
    obtain ⟨_, w₁, hfirst, hrest⟩ := Run.bind_eq_some.mp hrun
    have hevents : (updateAll s (i :: rest)).events w =
        (update s i).events w ++ (updateAll s rest).events w₁ := events_bind_of_some hfirst
    have hold : ∀ j ∈ rest, w.watcher? j ≠ none := by
      intro j hj hnone
      obtain ⟨x, hx, _⟩ := h.bound j (List.mem_cons_of_mem _ hj)
      rw [hnone] at hx
      cases hx
    by_cases hi : i ∈ told
    · obtain ⟨hdone, hnothing⟩ := update_told (s := s) h hi
      obtain ⟨_, rfl⟩ := Prod.mk.inj (Option.some.inj (hdone.symm.trans hfirst))
      have hnext := ih (h.next hagain (.refl _)) hself' hrest
      refine ⟨?_, (World.Undisturbed.refl _).refreshed.trans hnext.refreshed hold⟩
      rw [hevents, hnothing, List.nil_append, hnext.calls, untold_cons_of_mem hi]
    · obtain ⟨x, held, hx, hreacts, hcalls⟩ := update_untold (s := s) h hi
      rw [hreacts] at hfirst
      have hmoves := (Calm.holding held (calm_react hs x v) _).moves hfirst
      have hnext := ih (h.next hagain hmoves) hself' hrest
      refine ⟨?_, hmoves.refreshed.trans hnext.refreshed hold⟩
      rw [hevents, Chronicle.calls_append, hcalls, (calm_react hs x v _).calls, hnext.calls,
        untold_cons_of_not_mem hi]
      rfl

end Account

/-! ## Writes -/

/-- Whatever guard there is, a passive hook that is told of an access at most records it. -/
theorem Hook.IsPassive.tell_under {host : Host κ σ} {hook : Hook κ} (h : hook.IsPassive host)
    (c : Conduct κ σ) (depth : Nat) {occasion : Occasion} (hon : occasion.isAccess = true)
    (w : World κ σ) :
    ∃ user, (host.envUnder c (depth + 1)).tell hook occasion w = some ((), { w with user }) := by
  cases hook with
  | silent => exact ⟨w.user, rfl⟩
  | custom code =>
    have habstains := h occasion hon
    obtain ⟨a, user, hbody⟩ : ∃ a user, (host.body code occasion).exec (host.envUnder c depth) w =
        some (a, { w with user }) := Program.exec_of_abstains habstains w
    rw [← Program.execUnder_of_abstains c (some occasion) _ habstains] at hbody
    exact ⟨user, Run.discard_eq_some.mpr ⟨a, hbody⟩⟩

theorem Hook.IsPassive.user_of_tell {host : Host κ σ} {hook : Hook κ} (h : hook.IsPassive host)
    {c : Conduct κ σ} {depth : Nat} {occasion : Occasion} (hon : occasion.isAccess = true)
    {w w' : World κ σ} {u : Unit}
    (htell : (host.envUnder c depth).tell hook occasion w = some (u, w')) :
    ∃ user, w' = { w with user } := by
  cases depth with
  | zero =>
    cases hook with
    | silent => exact ⟨w.user, (Run.pure_eq_some.mp htell).2.symm⟩
    | custom code =>
      obtain ⟨a, hcall⟩ := Run.discard_eq_some.mp htell
      simp [Host.guarded] at hcall
  | succ depth =>
    obtain ⟨user, hsome⟩ := h.tell_under c depth hon w
    exact ⟨user, (Prod.mk.inj (Option.some.inj (htell.symm.trans hsome))).2⟩

/-- Some watchers are bound to a field and have seen the value that it has. -/
def World.UpToDate (w : World κ σ) (o : ObjectId) (key : String) (c : Cell κ) : Prop :=
  ∀ i ∈ c.subscribers, ∃ x, w.watcher? i = some x ∧ x.data = o ∧ x.key = key ∧
    x.last.Alike c.value

/-- What a write has done that changed a field: those who were subscribed have reacted to the new
value, in order of registration and each once. Who has been built on the field meanwhile stands
behind them, has seen the new value, and has not reacted. -/
structure World.FansOut (o : ObjectId) (key : String) (c : Cell κ) (v : Value) (es : Chronicle κ σ)
    (w w' : World κ σ) : Prop where
  calls : es.calls = c.subscribers.eraseDups.map fun i => (i, v)
  late : ∃ late,
    w'.heap.cell? o key = some { c with value := v, subscribers := c.subscribers ++ late } ∧
      ∀ i x, w.watcher? i = none → w'.watcher? i = some x → x.data = o → x.key = key →
        i ∈ late ∧ x.last = v ∧ ∀ u, (i, u) ∉ es.calls

section

variable {host : Host κ σ} {depth : Nat} {o : ObjectId} {key : String} {c : Cell κ} {v : Value}
  {w w' : World κ σ}

theorem World.UpToDate.fanning (h : w.UpToDate o key c) (hc : w.heap.cell? o key = some c)
    (hne : c.value.strictEq v = false) (user : σ) :
    (w.stored o key c v user).Fanning o key v [] c.subscribers := by
  have hcell : ((w.heap.intercept c.hook [v]).store o key v).cell? o key =
      some { c with value := v } := by
    rw [Heap.cell?_store, if_pos ⟨rfl, rfl⟩, Heap.cell?_intercept_of_some hc]
    rfl
  refine ⟨List.mem_cons_self, Heap.peek_of_cell? hcell, ?_, fun i hi => ?_⟩
  · exact Option.isSome_iff_exists.mpr ⟨_, hcell⟩
  · obtain ⟨x, hx, hdata, hkey, hlast⟩ := h i hi
    refine ⟨x, hx, hdata, hkey, ?_⟩
    rw [decide_eq_false (List.not_mem_nil)]
    rcases hlast with hsame | heq
    · rw [hsame]
      exact hne
    · cases hv : x.last.strictEq v with
      | false => rfl
      | true =>
        rw [Value.strictEq_trans (Value.strictEq_symm heq) hv] at hne
        cases hne

/-- The account of a write up to the updates, and of these. -/
theorem write_account (hc : w.heap.cell? o key = some c) (hne : c.value.strictEq v = false)
    (hhook : c.hook.IsPassive host)
    (hrun : (write (host.scribe .sparing depth) o key v).run w = some ((), w')) :
    ∃ user w₁,
      (updateAll (host.scribe .sparing depth) c.subscribers).run (w.stored o key c v user) =
        some ((), w₁) ∧ w' = { w₁ with held := w.held } ∧
      ((write (host.scribe .sparing depth) o key v).events w).calls =
        ((updateAll (host.scribe .sparing depth) c.subscribers).events
          (w.stored o key c v user)).calls := by
  have hs : (host.scribe .sparing depth).Calm o key := host.scribe_calm o key depth
  rw [Account.run_write, write_eq_overwrite hc hne, ← Account.run_overwrite] at hrun
  rw [Account.events_write_of_ne _ hc hne]
  obtain ⟨_, w₁, hintercept, hrun⟩ := Run.bind_eq_some.mp hrun
  obtain rfl := Run.modify_eq_some.mp hintercept
  obtain ⟨_, w₂, htell, hrun⟩ := Run.bind_eq_some.mp hrun
  have hcalm := Account.Calm.holding (.object o :: v.handles)
    (Account.calm_tell hs c.hook (.writing key v)) (w.mapHeap fun h => h.intercept c.hook [v])
  obtain ⟨w₃, htold, rfl⟩ := Run.holding_eq_some.mp htell
  rw [Account.run_tell, Host.plain_scribe] at htold
  obtain ⟨user, rfl⟩ := hhook.user_of_tell rfl htold
  obtain ⟨_, w₃, hstore, hnotify⟩ := Run.bind_eq_some.mp hrun
  obtain rfl := Run.modify_eq_some.mp hstore
  obtain ⟨w₁, hall, rfl⟩ := Run.holding_eq_some.mp hnotify
  have hsubs : (w.stored o key c v user).heap.subscribers o key = c.subscribers :=
    (World.subscribers_stored w o key c v user o key).trans (Heap.subscribers_of_cell? hc)
  refine ⟨user, w₁, ?_, rfl, ?_⟩
  · rw [← hsubs]
    exact hall
  · unfold overwrite
    rw [Account.events_modify, Account.events_bind_of_some htell, Account.events_modify,
      Chronicle.calls_append, hcalm.calls, List.nil_append, Account.events_holding, ← hsubs]
    rfl

/-- A write that comes to an end while nobody else writes is an ordered fan-out. -/
theorem fansOut_of_write (hc : w.heap.cell? o key = some c) (hne : c.value.strictEq v = false)
    (hbound : w.UpToDate o key c) (hself : v.strictEq v = true ∨ c.subscribers.Nodup)
    (hhook : c.hook.IsPassive host)
    (hrun : (write (host.scribe .sparing depth) o key v).run w = some ((), w')) :
    w.FansOut o key c v ((write (host.scribe .sparing depth) o key v).events w) w' := by
  obtain ⟨user, w₁, hall, rfl, hcalls⟩ := write_account hc hne hhook hrun
  have hfanning := hbound.fanning hc hne user
  have htells := Account.updateAll_tells (host.scribe_calm o key depth) hfanning hself hall
  have hstored : (w.stored o key c v user).heap.cell? o key = some { c with value := v } := by
    show ((w.heap.intercept c.hook [v]).store o key v).cell? o key = _
    rw [Heap.cell?_store, if_pos ⟨rfl, rfl⟩, Heap.cell?_intercept_of_some hc]
    rfl
  rw [htells.calls, untold_nil] at hcalls
  obtain ⟨late, hcell, hlate⟩ := htells.refreshed.cell hstored
  refine ⟨hcalls, late, hcell, fun i x hnew hx hdata hkey => ?_⟩
  obtain ⟨hmem, hlast⟩ := hlate i x hnew hx hdata hkey
  refine ⟨hmem, hlast, fun u hcall => ?_⟩
  -- who reacts was subscribed before, and so is no new watcher
  rw [hcalls] at hcall
  obtain ⟨j, hj, heq⟩ := List.mem_map.mp hcall
  obtain rfl := (Prod.mk.inj heq).1
  obtain ⟨y, hy, _⟩ := hbound j (List.mem_eraseDups.mp hj)
  rw [hnew] at hy
  cases hy

end

/-! ## Writes that come to an end -/

/-- Whether a request only looks at the data, builds watchers, or draws. -/
def Request.looksOrBuilds {α : Type} : Request κ α → Bool
  | .write _ _ _ | .update _ | .dispatch _ _ | .enter _ _ | .compile _ _ | .mount _ _ _
  | .setProperty _ _ _ | .callMethod _ _ _ => false
  | _ => true

/-- Whether all requests of a program do so. -/
def Program.LooksOrBuilds {α : Type} : Program κ σ α → Prop
  | .done _ | .ask _ | .getUser | .updateUser _ => True
  | .andThen p next => p.LooksOrBuilds ∧ ∀ a, (next a).LooksOrBuilds
  | .request r => r.looksOrBuilds = true
  | .holding _ p | .collecting _ p => p.LooksOrBuilds

section

variable {host : Host κ σ}

/-- Under hooks that only record, such a request is answered at once. -/
theorem Host.Passive.answers (hp : host.Passive) (depth : Nat) {α : Type} {r : Request κ α}
    (hr : r.looksOrBuilds = true) (w : World κ σ) :
    ∃ a w', r.perform (host.envUnder .sparing (depth + 1)) w = some (a, w') := by
  have hrecorded : ∀ (w : World κ σ) o,
      w.RecordedBy (host.envUnder .sparing (depth + 1)) o :=
    fun _ _ _ c _ => hp.records_under .sparing depth c.hook
  cases r with
  | read o key =>
    obtain ⟨user, hread⟩ := read_eq (hrecorded w o) key
    exact ⟨_, _, hread⟩
  | watch expression o code =>
    obtain ⟨user, hwatch⟩ := watch_eq (hrecorded w o) expression (.custom code)
    exact ⟨_, _, hwatch⟩
  | render t o =>
    obtain ⟨user, hrender⟩ := render_eq (hrecorded w o) t
    exact ⟨_, _, hrender⟩
  | bind directive n expression kit =>
    obtain ⟨user, hbind⟩ := bind_eq (hrecorded w kit.data) n directive expression
    exact ⟨_, _, hbind⟩
  | getProperty app key =>
    show ∃ a w', app.get (host.envUnder .sparing (depth + 1)) key w = some (a, w')
    unfold App.get
    split
    · obtain ⟨user, hread⟩ := read_eq (hrecorded w app.data) key
      exact ⟨_, _, Run.bind_eq_some.mpr ⟨_, _, hread, rfl⟩⟩
    · exact ⟨_, _, rfl⟩
  | write | update | dispatch | enter | compile | mount | setProperty | callMethod => cases hr
  | newObject | newArray | ofJson | newNode | detachChildren | observe | setAttribute | setText
  | setValue | appendChildren | listen => exact ⟨_, _, rfl⟩

/-- And so a program that makes no others comes to an end. -/
theorem Host.Passive.ends (hp : host.Passive) (depth : Nat) (on : Option Occasion) {α : Type}
    {p : Program κ σ α} (h : p.LooksOrBuilds) (w : World κ σ) :
    ∃ a w', p.execUnder .sparing on (host.envUnder .sparing (depth + 1)) w = some (a, w') := by
  induction p generalizing w with
  | done a => exact ⟨a, w, rfl⟩
  | andThen p next ihp ihn =>
    obtain ⟨a, w₁, hp₁⟩ := ihp h.1 w
    obtain ⟨b, w', hn⟩ := ihn a (h.2 a) w₁
    exact ⟨b, w', Run.bind_eq_some.mpr ⟨a, w₁, hp₁, hn⟩⟩
  | ask q => exact ⟨_, w, rfl⟩
  | request r =>
    have hspares : r.spares w = true := by
      cases r with
      | write | update | dispatch | enter | setProperty => cases h
      | _ => rfl
    obtain ⟨a, w', hr⟩ := hp.answers depth h w
    refine ⟨a, w', Run.bind_eq_some.mpr ⟨w, w, Run.get_eq_some.mpr ⟨rfl, rfl⟩, ?_⟩⟩
    have hmay : Conduct.sparing.mayRequest on w r = true := hspares
    rw [if_pos hmay]
    exact hr
  | getUser => exact ⟨_, w, rfl⟩
  | updateUser f => exact ⟨(), _, rfl⟩
  | holding hs p ih =>
    obtain ⟨a, w₁, hp₁⟩ := ih h { w with held := hs ++ w.held }
    exact ⟨a, _, Run.holding_eq_some.mpr ⟨w₁, hp₁, rfl⟩⟩
  | collecting i p ih =>
    obtain ⟨a, w₁, hp₁⟩ := ih h { w with
      current := some i
      held := w.current.toList.map .watcher ++ w.held }
    exact ⟨a, _, Run.collecting_eq_some.mpr ⟨w₁, hp₁, rfl⟩⟩

/-- What a watcher does with a value makes no request but to look, to build and to draw. -/
def Watcher.LooksOrBuilds (host : Host κ σ) (v : Value) (x : Watcher κ) : Prop :=
  ∀ code, x.reaction = .custom code → (host.body code (.changed v)).LooksOrBuilds

theorem Host.Passive.reacts (hp : host.Passive) (depth : Nat) {x : Watcher κ} {v : Value}
    (hx : x.LooksOrBuilds host v) (w : World κ σ) :
    ∃ w', x.react (host.envUnder .sparing (depth + 2)) v w = some ((), w') := by
  unfold Watcher.react
  cases hr : x.reaction with
  | setValue n => exact ⟨_, rfl⟩
  | setText n => exact ⟨_, rfl⟩
  | render n t =>
    have hrecorded : w.RecordedBy (host.envUnder .sparing (depth + 2)) x.data :=
      fun _ c _ => hp.records_under .sparing (depth + 1) c.hook
    obtain ⟨user, hrender⟩ := render_eq hrecorded t
    exact ⟨_, Run.bind_eq_some.mpr ⟨_, _, hrender, rfl⟩⟩
  | custom code =>
    obtain ⟨a, w', hcall⟩ := hp.ends depth (some (.changed v)) (hx code hr) w
    exact ⟨w', Run.discard_eq_some.mpr ⟨a, hcall⟩⟩

/-- All updates of a fan-out come to an end. -/
theorem Host.Passive.updateAll_ends (hp : host.Passive) (depth : Nat) {o : ObjectId}
    {key : String} {v : Value} {told is : List WatcherId} {w : World κ σ}
    (h : w.Fanning o key v told is)
    (hself : v.strictEq v = true ∨ is.Nodup)
    (hlooks : ∀ i ∈ is, ∀ x, w.watcher? i = some x → x.LooksOrBuilds host v) :
    ∃ w', (updateAll (host.scribe .sparing (depth + 2)) is).run w = some ((), w') := by
  have hs := host.scribe_calm o key (depth + 2)
  induction is generalizing w told with
  | nil => exact ⟨w, rfl⟩
  | cons i rest ih =>
    have hagain : i ∈ rest → v.strictEq v = true := fun hi =>
      hself.resolve_right fun hnodup => (List.nodup_cons.mp hnodup).1 hi
    -- the first update comes to an end, and afterwards everybody is calm
    obtain ⟨w₁, hfirst, hmoves⟩ : ∃ w₁,
        (update (host.scribe .sparing (depth + 2)) i).run w = some ((), w₁) ∧
          (w.setLast i v).Undisturbed o key w₁ := by
      by_cases hi : i ∈ told
      · exact ⟨_, (Account.update_told h hi).1, .refl _⟩
      · obtain ⟨x, held, hx, hreacts, _⟩ :=
          Account.update_untold (s := host.scribe .sparing (depth + 2)) h hi
        obtain ⟨w₂, hreact⟩ := hp.reacts depth (hlooks i List.mem_cons_self x hx)
          { w.setLast i v with held := held ++ (w.setLast i v).held }
        have hrun : Run.holding held (x.react (host.scribe .sparing (depth + 2)) v).run
            (w.setLast i v) = some ((), { w₂ with held := (w.setLast i v).held }) := by
          rw [Account.run_react, Host.plain_scribe]
          exact Run.holding_eq_some.mpr ⟨w₂, hreact, rfl⟩
        exact ⟨_, hreacts.trans hrun,
          (Account.Calm.holding held (Account.calm_react hs x v) _).moves hrun⟩
    have hnext := h.next hagain hmoves
    obtain ⟨w', hrest⟩ := ih hnext (hself.imp_right fun h => h.of_cons) fun j hj y hy => by
      obtain ⟨x, hx, _⟩ := h.bound j (List.mem_cons_of_mem _ hj)
      have hlooksx := hlooks j (List.mem_cons_of_mem _ hj) x hx
      have hx₁ : (w.setLast i v).watcher? j =
          some { x with last := if i = j then v else x.last } := by
        rw [World.watcher?_setLast, hx]
        split <;> rfl
      obtain rfl := Option.some.inj ((hmoves.watcher hx₁).symm.trans hy)
      exact hlooksx
    exact ⟨w', Run.bind_eq_some.mpr ⟨(), w₁, hfirst, hrest⟩⟩

end

/-- **A write fans out in order, to each watcher once.** The watchers that are subscribed to a
reactive field are bound to it and have seen its value; another value is written. If the hook of
the field only records, and code that is called meanwhile neither writes nor updates a watcher
itself, all who are subscribed react to the new value, in order of registration and each once.
Watchers that are built on the field meanwhile stand behind the others, have seen the new value and
do not react. The write comes to an end if hooks only record and all that callbacks request is to
look at data, to build watchers or to draw. -/
theorem write_fans_out (host : Host κ σ) (depth : Nat) (w : World κ σ) (o : ObjectId)
    (key : String) (c : Cell κ) (v : Value) (hc : w.heap.cell? o key = some c)
    (hne : c.value.strictEq v = false) (hbound : w.UpToDate o key c)
    (hself : v.strictEq v = true ∨ c.subscribers.Nodup) (hhook : c.hook.IsPassive host) :
    let account := write (host.scribe .sparing depth) o key v
    (∀ w', account.run w = some ((), w') →
      write (host.env depth) o key v w = some ((), w') ∧
        w.FansOut o key c v (account.events w) w') ∧
    (host.Passive → 2 ≤ depth →
      (∀ i ∈ c.subscribers, ∀ x, w.watcher? i = some x → x.LooksOrBuilds host v) →
        ∃ w', account.run w = some ((), w')) := by
  refine ⟨fun w' hrun => ⟨?_, fansOut_of_write hc hne hbound hself hhook hrun⟩,
    fun hp hdepth hlooks => ?_⟩
  · rw [Account.run_write, Host.plain_scribe] at hrun
    exact (host.envUnder_below .sparing depth).write o key v hrun
  · obtain ⟨d, rfl⟩ : ∃ d, depth = d + 2 := ⟨depth - 2, by omega⟩
    obtain ⟨user, htell⟩ := hhook.tell_under .sparing (d + 1)
      (show (Occasion.writing key v).isAccess = true from rfl)
      { w.mapHeap fun h => h.intercept c.hook [v] with
        held := .object o :: v.handles ++ w.held }
    obtain ⟨w₁, hall⟩ := hp.updateAll_ends d (hbound.fanning hc hne user) hself hlooks
    rw [Account.run_updateAll, Host.plain_scribe] at hall
    rw [Account.run_write, Host.plain_scribe]
    exact ⟨_, write_eq_of_tell hc hne htell hall⟩

namespace Parade

/-- The callback `true` builds a watcher on the field that it is told of. -/
def host : Host Bool Unit where
  body
    | true, .changed _ =>
      .andThen (.request (.watch "n" ⟨0⟩ false)) fun _ => .done (.ok ())
    | _, _ => .done (.ok ())
  handles _ := []

/-- The first watcher is subscribed twice. -/
def cell : Cell Bool where
  value := .text "a"
  subscribers := [⟨0⟩, ⟨1⟩, ⟨0⟩]
  hook := .silent

def watcher (code : Bool) : Watcher Bool where
  key := "n"
  data := ⟨0⟩
  last := .text "a"
  reaction := .custom code

def world : World Bool Unit where
  heap := { objects := ⟨#[{ entries := [("n", .reactive cell)] }]⟩ }
  watchers := ⟨#[watcher true, watcher false]⟩
  user := ()

theorem upToDate : world.UpToDate ⟨0⟩ "n" cell := by
  intro i hi
  simp only [cell, List.mem_cons, List.not_mem_nil, or_false] at hi
  rcases hi with rfl | rfl | rfl
  · exact ⟨watcher true, rfl, rfl, rfl, .inl rfl⟩
  · exact ⟨watcher false, rfl, rfl, rfl, .inl rfl⟩
  · exact ⟨watcher true, rfl, rfl, rfl, .inl rfl⟩

theorem passive : host.Passive := by
  intro code occasion hon
  cases occasion with
  | reading key value => cases code <;> exact trivial
  | writing key value => cases code <;> exact trivial
  | changed value | heard event | called data event => cases hon

theorem looksOrBuilds (x : Watcher Bool) (v : Value) : x.LooksOrBuilds host v := by
  intro code _
  cases code with
  | true => exact ⟨rfl, fun _ => trivial⟩
  | false => trivial

end Parade

open Parade in
/-- The two watchers are told once each, although the first is subscribed twice and its callback
builds a third on the field. -/
theorem write_fans_out_parade :
    world.heap.cell? ⟨0⟩ "n" = some cell ∧ cell.value.strictEq (.text "b") = false ∧
    world.UpToDate ⟨0⟩ "n" cell ∧ (Value.text "b").strictEq (.text "b") = true ∧
    cell.hook.IsPassive host ∧
    ∃ w', write (host.env 2) ⟨0⟩ "n" (.text "b") world = some ((), w') ∧
      ((write (host.scribe .sparing 2) ⟨0⟩ "n" (.text "b")).events world).calls =
        [(⟨0⟩, .text "b"), (⟨1⟩, .text "b")] ∧
      ∃ late, w'.heap.subscribers ⟨0⟩ "n" = [⟨0⟩, ⟨1⟩, ⟨0⟩] ++ late := by
  have hc : world.heap.cell? ⟨0⟩ "n" = some cell := rfl
  have hne : cell.value.strictEq (.text "b") = false := by decide
  have hself : (Value.text "b").strictEq (.text "b") = true := by decide
  obtain ⟨hordered, hends⟩ := write_fans_out host 2 world ⟨0⟩ "n" cell (.text "b") hc hne upToDate
    (.inl hself) trivial
  obtain ⟨w', hrun⟩ := hends passive (Nat.le_refl 2) fun _ _ x _ => looksOrBuilds x _
  obtain ⟨hwrite, hfans⟩ := hordered w' hrun
  obtain ⟨late, hcell, _⟩ := hfans.late
  refine ⟨hc, hne, upToDate, hself, trivial, w', hwrite, hfans.calls, late, ?_⟩
  exact Heap.subscribers_of_cell? hcell

/-! ## Updates and hooks that interfere -/

/-- Whether a request writes, code apart that it calls. -/
def Request.writes {α : Type} (w : World κ σ) : Request κ α → Bool
  | .update _ => false
  | r => !r.spares w

/-- Nobody but hooks writes. -/
def Conduct.hooksWrite : Conduct κ σ where
  mayRequest on w r := on.any Occasion.isAccess || !r.writes w
  mayCollect _ _ _ := true

/-- The reactions in a chronicle, with the texts of the values. -/
def Chronicle.texts (es : Chronicle κ σ) : List (Nat × String) :=
  es.calls.map fun call => (call.1.index, ({} : Heap κ).text call.2)

namespace Interference

/-- A callback that updates the third watcher, one that does nothing, and a hook that writes "c"
when it is told of "b". -/
def host : Host Bool Unit where
  body
    | true, .changed _ => .andThen (.request (.update ⟨2⟩)) fun _ => .done (.ok ())
    | true, .writing _ (.text "b") =>
      .andThen (.request (.write ⟨0⟩ "n" (.text "c"))) fun _ => .done (.ok ())
    | _, _ => .done (.ok ())
  handles _ := []

def watcher (code : Bool) : Watcher Bool where
  key := "n"
  data := ⟨0⟩
  last := .text "a"
  reaction := .custom code

def world (cell : Cell Bool) : World Bool Unit where
  heap := { objects := ⟨#[{ entries := [("n", .reactive cell)] }]⟩ }
  watchers := ⟨#[watcher true, watcher false, watcher false]⟩
  user := ()

/-- All three watchers are subscribed, and the first will update the last. -/
def hasty : Cell Bool where
  value := .text "a"
  subscribers := [⟨0⟩, ⟨1⟩, ⟨2⟩]
  hook := .silent

/-- A watcher that does nothing is subscribed, and the hook will write. -/
def hooked : Cell Bool where
  value := .text "a"
  subscribers := [⟨1⟩]
  hook := .custom true

def account : Account Bool Unit Unit :=
  write (host.scribe .hooksWrite 3) ⟨0⟩ "n" (.text "b")

end Interference

open Interference in
/-- That callbacks do not write is not enough: one that updates a watcher itself changes the order,
and a hook that writes makes a watcher react twice. -/
theorem write_fans_out_not_if_interfered :
    ((world hasty).heap.cell? ⟨0⟩ "n" = some hasty ∧ (world hasty).UpToDate ⟨0⟩ "n" hasty ∧
      hasty.value.strictEq (.text "b") = false ∧ (Value.text "b").strictEq (.text "b") = true ∧
      (account.run (world hasty)).isSome = true ∧
      (account.events (world hasty)).calls ≠
        hasty.subscribers.eraseDups.map fun i => (i, .text "b")) ∧
    ((world hooked).heap.cell? ⟨0⟩ "n" = some hooked ∧ (world hooked).UpToDate ⟨0⟩ "n" hooked ∧
      hooked.value.strictEq (.text "b") = false ∧
      (account.run (world hooked)).isSome = true ∧
      (account.events (world hooked)).calls ≠
        hooked.subscribers.eraseDups.map fun i => (i, .text "b")) := by
  have hbound : ∀ cell : Cell Bool, cell.value = .text "a" →
      (∀ i ∈ cell.subscribers, i = ⟨0⟩ ∨ i = ⟨1⟩ ∨ i = ⟨2⟩) →
        (world cell).UpToDate ⟨0⟩ "n" cell := by
    intro cell hvalue hthree i hi
    rcases hthree i hi with rfl | rfl | rfl
    · exact ⟨watcher true, rfl, rfl, rfl, .inl hvalue.symm⟩
    · exact ⟨watcher false, rfl, rfl, rfl, .inl hvalue.symm⟩
    · exact ⟨watcher false, rfl, rfl, rfl, .inl hvalue.symm⟩
  have hhasty : Chronicle.texts (account.events (world hasty)) =
      [(0, "b"), (2, "b"), (1, "b")] := by decide +kernel
  have hhooked : Chronicle.texts (account.events (world hooked)) =
      [(1, "c"), (1, "b")] := by decide +kernel
  refine ⟨⟨rfl, hbound hasty rfl (by decide), by decide, by decide, by decide +kernel, ?_⟩,
    rfl, hbound hooked rfl (by decide), by decide, by decide +kernel, ?_⟩
  · intro h
    rw [Chronicle.texts, h] at hhasty
    exact absurd hhasty (by decide +kernel)
  · intro h
    rw [Chronicle.texts, h] at hhooked
    exact absurd hhooked (by decide +kernel)

end DataBinding
