import DataBinding.Proofs.Cells
import DataBinding.Proofs.Firing
import DataBinding.Proofs.Nodes

/-!
# Runs in which nobody writes

Code that neither writes nor updates a watcher, by itself or through what it calls, makes no watcher
react, whatever else it does: read, build watchers, bind, compile, mount, dispatch events. A field
keeps its value meanwhile and those who are subscribed to it stay so, in their order. Whoever is
built on it joins the list behind them and has seen the value that the field has.

All this is said of the account of a run, and shown along the operations, as the discipline of
firing is: a watcher that is being built subscribes before the hook is told, so whatever the hook
does finds it in the list.
-/

namespace DataBinding

open Noting (note)

variable {κ σ : Type}

/-- Who reacts in a chronicle and to what, in the order in which they start to. -/
def Chronicle.calls (es : Chronicle κ σ) : List (WatcherId × Value) :=
  es.filterMap fun e =>
    match e.1 with
    | .fired i value => some (i, value)
    | _ => none

theorem Chronicle.calls_append (es es' : Chronicle κ σ) :
    Chronicle.calls (es ++ es') = es.calls ++ es'.calls :=
  List.filterMap_append

/-! ## The conduct -/

/-- Whether a listener writes when it gets an event. -/
def Listener.writesFor (event : Event) : Listener κ → Bool
  | .writeBack _ _ => event.value.isSome
  | _ => false

/-- Whether a request writes nothing and updates no watcher, code apart that it calls. -/
def Request.spares {α : Type} (w : World κ σ) : Request κ α → Bool
  | .write _ _ _ => false
  | .update _ => false
  | .setProperty app key _ => !app.exposes key
  | .dispatch n event =>
    let d := w.document
    (d.listenersFor n event.name).all fun l => !l.writesFor (event.targeted (d.content n))
  | .enter n text =>
    (w.document.listenersFor n "input").all fun l =>
      !l.writesFor { name := "input", value := some text }
  | _ => true

/-- Nobody writes and nobody updates a watcher. -/
def Conduct.sparing : Conduct κ σ where
  mayRequest _ w r := r.spares w
  mayCollect _ _ _ := true

/-! ## What is left alone -/

/-- As far as a field is concerned, nothing has happened but subscriptions: watchers are what they
were, and if the field is reactive it has its value and hook, and its list goes on behind those who
were in it. Who has been built on it since is in the list and has seen the value. -/
structure World.Undisturbed (o : ObjectId) (key : String) (w w' : World κ σ) : Prop where
  held : w'.held = w.held
  watcher : ∀ {i x}, w.watcher? i = some x → w'.watcher? i = some x
  cell : ∀ {c}, w.heap.cell? o key = some c →
    ∃ late, w'.heap.cell? o key = some { c with subscribers := c.subscribers ++ late } ∧
      ∀ i x, w.watcher? i = none → w'.watcher? i = some x → x.data = o → x.key = key →
        i ∈ late ∧ x.last = c.value

namespace World.Undisturbed

variable {o : ObjectId} {key : String} {a b c w w' : World κ σ}

/-- Nobody has been built, and whoever has subscribed stands behind the others. -/
theorem of_watchers (hheld : w'.held = w.held) (hwatchers : w'.watchers = w.watchers)
    (hcell : ∀ c, w.heap.cell? o key = some c → ∃ late,
      w'.heap.cell? o key = some { c with subscribers := c.subscribers ++ late }) :
    w.Undisturbed o key w' := by
  refine ⟨hheld, fun {i x} hx => ?_, fun {c} hc => ?_⟩
  · rwa [watcher?_of_watchers hwatchers]
  · obtain ⟨late, hlate⟩ := hcell c hc
    refine ⟨late, hlate, fun i x hnew hx => ?_⟩
    rw [watcher?_of_watchers hwatchers, hnew] at hx
    cases hx

/-- Nothing that counts has changed. -/
theorem of_same (hheld : w'.held = w.held) (hwatchers : w'.watchers = w.watchers)
    (hcell : ∀ c, w.heap.cell? o key = some c → w'.heap.cell? o key = some c) :
    w.Undisturbed o key w' :=
  .of_watchers hheld hwatchers fun c hc => ⟨[], by rw [List.append_nil]; exact hcell c hc⟩

theorem refl (w : World κ σ) : w.Undisturbed o key w := .of_same rfl rfl fun _ hc => hc

theorem trans (hab : a.Undisturbed o key b) (hbc : b.Undisturbed o key c) :
    a.Undisturbed o key c := by
  refine ⟨hbc.held.trans hab.held, fun hx => hbc.watcher (hab.watcher hx), fun {cell} hc => ?_⟩
  obtain ⟨late, hcell, hlate⟩ := hab.cell hc
  obtain ⟨late', hcell', hlate'⟩ := hbc.cell hcell
  refine ⟨late ++ late', by rw [hcell', List.append_assoc], fun i x hnew hx hdata hkey => ?_⟩
  -- a watcher that is new was built in the first part or in the second
  cases hb : b.watcher? i with
  | none =>
    obtain ⟨hmem, hlast⟩ := hlate' i x hb hx hdata hkey
    exact ⟨List.mem_append_right _ hmem, hlast⟩
  | some y =>
    obtain rfl := Option.some.inj ((hbc.watcher hb).symm.trans hx)
    obtain ⟨hmem, hlast⟩ := hlate i y hnew hb hdata hkey
    exact ⟨List.mem_append_left _ hmem, hlast⟩

/-- What is held and who collects does not count. -/
theorem of_set {current current' : Option WatcherId} {held : List Handle}
    (h : World.Undisturbed o key { w with current := current, held := held } w') :
    w.Undisturbed o key { w' with current := current', held := w.held } :=
  ⟨rfl, h.watcher, h.cell⟩

theorem observe (hook : Hook κ) (v : Value) :
    Run.Moves (σ := σ) (World.Undisturbed o key) (DataBinding.observe hook v) :=
  .modify fun _ => .of_same rfl rfl fun _ hc => Heap.cell?_intercept_of_some hc

theorem mapDocument (w : World κ σ) (f : Document κ → Document κ) :
    w.Undisturbed o key (w.mapDocument f) :=
  .of_same rfl rfl fun _ hc => hc

theorem subscribe (w : World κ σ) (p : ObjectId) (k : String) (i : WatcherId) :
    w.Undisturbed o key { w with heap := w.heap.subscribe p k i } := by
  refine .of_watchers rfl rfl fun c hc => ?_
  show ∃ late, (w.heap.subscribe p k i).cell? o key = _
  rw [Heap.cell?_subscribe, hc]
  split
  · exact ⟨[i], rfl⟩
  · exact ⟨[], by rw [List.append_nil]⟩

theorem subscribeCurrent (w : World κ σ) (p : ObjectId) (k : String) :
    w.Undisturbed o key (w.subscribeCurrent p k) := by
  unfold World.subscribeCurrent
  split
  · exact .refl w
  · exact .subscribe w p k _

/-- A watcher has been built: it is put at the end, something is read, and it has seen that. If it
is built on the field, it has joined the list and has seen the value. -/
theorem built {x : Watcher κ} {initial : Value}
    (h : World.Undisturbed o key { w with watchers := w.watchers.push x } w')
    (hx : x.data = o → x.key = key → ∀ c, w.heap.cell? o key = some c →
      initial = c.value ∧ ∃ late, ⟨w.watchers.size⟩ ∈ late ∧
        w'.heap.cell? o key = some { c with subscribers := c.subscribers ++ late }) :
    w.Undisturbed o key (w'.setLast ⟨w.watchers.size⟩ initial) := by
  have hpush := watcher?_push w x
  refine ⟨h.held, fun {j y} hy => ?_, fun {c} hc => ?_⟩
  · rw [watcher?_setLast_of_ne _ (Ne.symm (ne_next_of_watcher? hy))]
    exact h.watcher (watcher?_push_of_some hy x)
  · obtain ⟨late, hcell, hlate⟩ := h.cell (c := c) hc
    refine ⟨late, hcell, fun j y hnew hy hdata hkey => ?_⟩
    by_cases hj : ⟨w.watchers.size⟩ = j
    · -- the new watcher itself
      subst hj
      rw [watcher?_setLast_self (h.watcher ((hpush _).trans (if_pos rfl)))] at hy
      obtain rfl := Option.some.inj hy
      obtain ⟨rfl, late', hmem, hcell'⟩ := hx hdata hkey c hc
      have hsame : late = late' :=
        List.append_cancel_left (Cell.mk.inj (Option.some.inj (hcell.symm.trans hcell'))).2.1
      exact ⟨hsame ▸ hmem, rfl⟩
    · rw [watcher?_setLast_of_ne _ hj] at hy
      exact hlate j y (by rw [hpush, if_neg (Ne.symm hj)]; exact hnew) hy hdata hkey

end World.Undisturbed

/-! ## Calm accounts -/

namespace Account

variable {α β : Type} {o : ObjectId} {key : String} {w : World κ σ}

/-- From a world on, no watcher reacts and a field is left undisturbed. -/
structure CalmAt (o : ObjectId) (key : String) (m : Account κ σ α) (w : World κ σ) : Prop where
  calls : (m.events w).calls = []
  moves : ∀ {a w'}, m.run w = some (a, w') → w.Undisturbed o key w'

/-- So it is from every world on. -/
def Calm (o : ObjectId) (key : String) (m : Account κ σ α) : Prop := ∀ w, m.CalmAt o key w

theorem CalmAt.bind {m : Account κ σ α} {f : α → Account κ σ β} (hm : m.CalmAt o key w)
    (hf : ∀ a w', m.run w = some (a, w') → (f a).CalmAt o key w') :
    (m >>= f).CalmAt o key w := by
  constructor
  · rw [events_bind, Chronicle.calls_append]
    refine List.append_eq_nil_iff.mpr ⟨hm.calls, ?_⟩
    cases hrun : m.run w with
    | none => rfl
    | some p => exact (hf p.1 p.2 hrun).calls
  · intro b w' h
    obtain ⟨a, w₁, h₁, h₂⟩ := Run.bind_eq_some.mp h
    exact (hm.moves h₁).trans ((hf a w₁ h₁).moves h₂)

/-- Looking at the world is no step, and what follows counts at that world alone. -/
theorem CalmAt.get {f : World κ σ → Account κ σ α} (hf : (f w).CalmAt o key w) :
    (get >>= f).CalmAt o key w :=
  ⟨hf.calls, fun h => hf.moves h⟩

namespace Calm

theorem ofRun {m : Run κ σ α} (hm : Run.Moves (World.Undisturbed o key) m) :
    Calm o key (ofRun m) :=
  fun _ => ⟨rfl, fun h => hm h⟩

theorem pure (a : α) : Calm o key (pure a : Account κ σ α) := ofRun (.pure .refl a)

theorem modify {f : World κ σ → World κ σ}
    (hf : ∀ w : World κ σ, w.Undisturbed o key (f w)) :
    Calm o key (modify f : Account κ σ Unit) :=
  ofRun (.modify hf)

theorem changing {f : World κ σ → α × World κ σ}
    (hf : ∀ w : World κ σ, w.Undisturbed o key (f w).2) :
    Calm o key (Request.changing f : Account κ σ α) := by
  refine ofRun fun w a w' h => ?_
  rw [show w' = (f w).2 from (congrArg Prod.snd (Run.changing_eq_some.mp h)).symm]
  exact hf w

theorem failure : Calm o key (Alternative.failure : Account κ σ α) := ofRun .failure

theorem bind {m : Account κ σ α} {f : α → Account κ σ β} (hm : m.Calm o key)
    (hf : ∀ a, (f a).Calm o key) : (m >>= f).Calm o key :=
  fun w => (hm w).bind fun a w' _ => hf a w'

theorem after_get {f : World κ σ → Account κ σ α} (hf : ∀ w, (f w).Calm o key) :
    Calm o key (get >>= f) :=
  fun w => .get (hf w w)

theorem discard {m : Account κ σ α} (hm : m.Calm o key) : (Functor.discard m).Calm o key := by
  refine fun w => ⟨(hm w).calls, fun h => ?_⟩
  obtain ⟨a, h₁⟩ := Run.discard_eq_some.mp h
  exact (hm w).moves h₁

theorem holding {m : Account κ σ α} (hs : List Handle) (hm : m.Calm o key) :
    (Run.holding hs m).Calm o key := by
  refine fun w => ⟨?_, fun h => ?_⟩
  · rw [events_holding]
    exact (hm _).calls
  · obtain ⟨w₁, h₁, rfl⟩ := Run.holding_eq_some.mp h
    exact ((hm _).moves h₁).of_set

theorem collecting {m : Account κ σ α} (i : WatcherId) (hm : m.Calm o key) :
    (Run.collecting i m).Calm o key := by
  refine fun w => ⟨?_, fun h => ?_⟩
  · rw [events_collecting]
    exact (hm _).calls
  · obtain ⟨w₁, h₁, rfl⟩ := Run.collecting_eq_some.mp h
    exact ((hm _).moves h₁).of_set

theorem compositional : Compositional fun m : Account κ σ _ => m.Calm o key :=
  ⟨pure, bind, after_get, discard, holding⟩

end Calm

end Account

/-! ## Reading -/

/-- All calls are calm. -/
def Scribe.Calm (s : Scribe κ σ) (o : ObjectId) (key : String) : Prop :=
  ∀ code occasion, (s.call code occasion).Calm o key

namespace Account

variable {s : Scribe κ σ} {o : ObjectId} {key : String}

theorem calm_tell (hs : s.Calm o key) (hook : Hook κ) (occasion : Occasion) :
    (s.tell hook occasion).Calm o key :=
  Calm.compositional.tell (fun code => hs code occasion) hook

theorem calm_read (hs : s.Calm o key) (p : ObjectId) (k : String) : (read s p k).Calm o key :=
  Calm.compositional.read (.modify fun w => .subscribeCurrent w p k) fun code _ => hs code _

/-- Whoever collects while a reactive field is read is in its list afterwards, and what is read is
its value. -/
theorem mem_of_read (hs : s.Calm o key) {w w' : World κ σ} {v : Value} {c : Cell κ} {i : WatcherId}
    (hcurrent : w.current = some i) (hc : w.heap.cell? o key = some c)
    (h : (read s o key).run w = some (v, w')) :
    v = c.value ∧ ∃ late, i ∈ late ∧
      w'.heap.cell? o key = some { c with subscribers := c.subscribers ++ late } := by
  obtain ⟨slot, hslot, hcell⟩ := Option.bind_eq_some_iff.mp hc
  cases slot with
  | plain u => cases hcell
  | reactive c' =>
    obtain rfl := Option.some.inj hcell
    obtain ⟨_, _, hget, h⟩ := Run.bind_eq_some.mp h
    obtain ⟨rfl, rfl⟩ := Run.get_eq_some.mp hget
    dsimp only at h
    rw [hslot] at h
    obtain ⟨_, w₁, hsub, h⟩ := Run.bind_eq_some.mp h
    obtain rfl := Run.modify_eq_some.mp hsub
    obtain ⟨_, w₂, htell, h⟩ := Run.bind_eq_some.mp h
    obtain ⟨rfl, rfl⟩ := Run.pure_eq_some.mp h
    -- it is subscribed before the hook is told
    have hsubscribed : (w.subscribeCurrent o key).heap.cell? o key =
        some { c' with subscribers := c'.subscribers ++ [i] } := by
      rw [World.subscribeCurrent, hcurrent]
      show (w.heap.subscribe o key i).cell? o key = _
      rw [Heap.cell?_subscribe, if_pos ⟨rfl, rfl⟩, hc]
      rfl
    have htold := (Calm.holding _ (calm_tell hs c'.hook _) _).moves htell
    obtain ⟨late, hlate, _⟩ := htold.cell hsubscribed
    exact ⟨rfl, i :: late, List.mem_cons_self, by rw [hlate, List.append_assoc]; rfl⟩

/-! ## Watchers and bindings -/

/-- A new watcher has seen the value of its key, and has joined the list. -/
theorem calm_watch (hs : s.Calm o key) (expression : String) (p : ObjectId)
    (reaction : Reaction κ) : (watch s expression p reaction).Calm o key := by
  intro w
  let i : WatcherId := ⟨w.watchers.size⟩
  let x : Watcher κ := { key := Text.trim expression, data := p, last := .null, reaction }
  let w₁ : World κ σ := { w with watchers := w.watchers.push x }
  let reading : Account κ σ Value :=
    Run.holding [.object p] (Run.collecting i (read s p (Text.trim expression)))
  have hreading : reading.Calm o key := .holding _ (.collecting i (calm_read hs p _))
  let finish (initial : Value) : Account κ σ WatcherId := do
    modify (World.setLast i initial)
    note (.built i initial)
    return i
  have hevents : (watch s expression p reaction).events w =
      (.begun i, w) :: (reading >>= finish).events w₁ := rfl
  constructor
  · rw [hevents, events_bind]
    show Chronicle.calls (reading.events w₁ ++ _) = []
    rw [Chronicle.calls_append]
    refine List.append_eq_nil_iff.mpr ⟨(hreading w₁).calls, ?_⟩
    cases reading.run w₁ <;> rfl
  · intro a w' h
    obtain ⟨initial, w₂, hread, h⟩ := Run.bind_eq_some.mp
      (show (reading.run >>= fun a => (finish a).run) w₁ = some (a, w') from h)
    obtain rfl : w₂.setLast i initial = w' := (Prod.mk.inj (Option.some.inj h)).2
    refine ((hreading w₁).moves hread).built fun hdata hkey c hc => ?_
    obtain rfl : p = o := hdata
    obtain rfl : Text.trim expression = key := hkey
    obtain ⟨w₃, hcollect, rfl⟩ := Run.holding_eq_some.mp hread
    obtain ⟨w₄, hinner, rfl⟩ := Run.collecting_eq_some.mp hcollect
    obtain ⟨hvalue, hlate⟩ := mem_of_read hs (by rfl) (by exact hc) hinner
    exact ⟨hvalue, hlate⟩

/-- Whatever is built, compiled or mounted leaves the field alone. -/
theorem calm_building (hs : s.Calm o key) : Building s fun m : Account κ σ _ => m.Calm o key where
  toCompositional := Calm.compositional
  failure := .failure
  draw hf := .modify fun w => by
    obtain ⟨change, heq⟩ := hf w
    rw [heq]
    exact .mapDocument w change
  observe hook v := .ofRun (.observe hook v)
  read := calm_read hs
  watch := calm_watch hs

/-- A reaction is calm; that it takes place is not part of it. -/
theorem calm_react (hs : s.Calm o key) (x : Watcher κ) (value : Value) :
    (x.react s value).Calm o key :=
  (calm_building hs).react (fun code _ => hs code _) x value

theorem calm_deliverAll (hs : s.Calm o key) {event : Event} {ls : List (Listener κ)}
    (hls : (ls.all fun l => !l.writesFor event) = true) :
    (deliverAll s event ls).Calm o key := by
  refine Calm.compositional.deliverAll fun l hl => ?_
  refine Calm.compositional.deliver (fun code occasion _ => hs code occasion) fun p k text hback
    hvalue => ?_
  have hwrites := List.all_eq_true.mp hls l hl
  rw [hback, Listener.writesFor, hvalue] at hwrites
  cases hwrites

/-! ## User code -/

/-- Whatever is requested, if the request spares the data in the world in which it is made. -/
theorem calm_perform (hs : s.Calm o key) {α : Type} (r : Request κ α) {w : World κ σ}
    (hr : r.spares w = true) : (r.perform s).CalmAt o key w := by
  have hbuilding : Building s fun m : Account κ σ _ => m.Calm o key := calm_building hs
  cases r with
  | write p k value => cases hr
  | update i => cases hr
  | setProperty app k value =>
    have hexposes : ¬ app.exposes k = true := by simpa [Request.spares] using hr
    show (app.set s k value).CalmAt o key w
    rw [App.set, if_neg hexposes]
    exact Calm.pure _ w
  | dispatch n event => exact .get (calm_deliverAll hs hr w)
  | enter n text =>
    refine .bind (Calm.modify (fun w => .mapDocument w _) w) fun _ w' h => .get ?_
    obtain rfl := Run.modify_eq_some.mp h
    refine calm_deliverAll hs ?_ _
    show ((w.document.setValue n text).listenersFor n "input").all _ = true
    rw [Document.listenersFor_setValue]
    exact hr
  | read p k => exact hbuilding.read p k w
  | watch expression p code => exact hbuilding.watch expression p _ w
  | render t p => exact hbuilding.render (hbuilding.read p) t w
  | bind directive n expression kit => exact hbuilding.directive n expression kit directive w
  | compile kit root => exact hbuilding.compile kit root w
  | mount place hook kit => exact hbuilding.mount place hook kit w
  | getProperty app k => exact hbuilding.getProperty (hbuilding.read app.data) k w
  | callMethod method p event => exact Calm.holding _ (hs method _) w
  | observe hook v => exact hbuilding.observe hook v w
  | newObject =>
    refine Calm.changing (fun w => .of_same rfl rfl fun c hc => ?_) w
    show (w.heap.alloc ∅).2.cell? o key = some c
    rw [Heap.cell?_alloc (fun key => by rw [OrderedMap.find?_empty]; rfl), hc]
  | newArray items =>
    refine Calm.changing (fun w => ?_) w
    exact .of_same rfl rfl fun _ hc => hc
  | ofJson j =>
    refine Calm.changing (fun w => .of_same rfl rfl fun c hc => ?_) w
    show (w.heap.ofJson j).2.cell? o key = some c
    rw [Heap.cell?_ofJson, hc]
  | newNode | detachChildren =>
    refine Calm.changing (fun w => ?_) w
    exact .of_same rfl rfl fun _ hc => hc
  | setAttribute | setText | setValue | appendChildren | listen =>
    exact Calm.ofRun (.modify fun w => .mapDocument w _) w

end Account

theorem Program.calm_account {s : Scribe κ σ} {o : ObjectId} {key : String} (hs : s.Calm o key)
    (on : Option Occasion) {α : Type} (p : Program κ σ α) :
    (p.execUnder .sparing on s).Calm o key := by
  refine Account.Calm.compositional.account (fun r w => ?request)
    (fun f => .modify fun w => .of_same rfl rfl fun _ hc => hc) (fun i p ih w => ?collecting) p
  case collecting => exact .get (Account.Calm.collecting i ih w)
  case request =>
    refine .get ?_
    have hmay : Conduct.sparing.mayRequest on w r = r.spares w := rfl
    rw [hmay]
    by_cases hr : r.spares w = true
    · rw [if_pos hr]
      exact Account.calm_perform hs r hr
    · rw [if_neg hr]
      exact Account.Calm.failure w

/-- While nobody writes, all code is calm, to every depth. -/
theorem Host.scribe_calm (host : Host κ σ) (o : ObjectId) (key : String) (depth : Nat) :
    (host.scribe .sparing depth).Calm o key := by
  induction depth with
  | zero => exact fun _ _ => .failure
  | succ depth ih => exact fun code occasion => (host.body code occasion).calm_account ih _

end DataBinding
