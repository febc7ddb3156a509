import DataBinding.Proofs.Composition
import DataBinding.Proofs.Equality
import DataBinding.Proofs.Updates
import Mathlib.Data.List.Chain

/-!
# When watchers fire

A watcher reacts to a value that it finds under its key and has noted as the one it saw last, and
never twice in a row to values that are strictly equal, the one it was built with included.

What it saw last need not be what it was last told: an update that finds a strictly equal value
notes it without a reaction, so zero may have become minus zero in between. But whatever equals
what it was told then equals what it saw last, so no reaction is due. This is what every step
keeps, however callbacks, fan-outs and direct updates are nested.
-/

namespace DataBinding

open Noting (note)

variable {κ σ : Type}

/-- Hooks only read or record, and all other code does as it likes. -/
def Conduct.hooksRead : Conduct κ σ where
  mayRequest on _ r := !on.any Occasion.isAccess || r.onlyReads
  mayCollect on _ _ := !on.any Occasion.isAccess

/-! ## Chronicles -/

/-- What each watcher was told last, if it has been built. -/
abbrev Told := WatcherId → Option Value

/-- From now on a watcher was told a value. -/
def Told.tell (told : Told) (i : WatcherId) (value : Value) : Told :=
  fun j => if j = i then some value else told j

/-- The chronicles that keep the discipline, by what watchers were told before and after. Nothing
happens while a watcher is being built. -/
inductive Follows : Told → Chronicle κ σ → Told → Prop
  | nil (told : Told) : Follows told [] told
  | built {told told' : Told} {i : WatcherId} {x : Watcher κ} {w w' : World κ σ}
      {rest : Chronicle κ σ} (hnew : told i = none) (hw : w.watcher? i = none)
      (hx : w'.watcher? i = some x) (hrest : Follows (told.tell i x.last) rest told') :
      Follows told ((.begun i, w) :: (.built i x.last, w') :: rest) told'
  | fired {told told' : Told} {i : WatcherId} {d : Value} {x : Watcher κ} {w : World κ σ}
      {rest : Chronicle κ σ} (hold : told i = some d) (hne : d.strictEq x.last = false)
      (hx : w.watcher? i = some x) (hpeek : x.last = w.heap.peek x.data x.key)
      (hrest : Follows (told.tell i x.last) rest told') :
      Follows told ((.fired i x.last, w) :: rest) told'

theorem Follows.append {told told' told'' : Told} {es es' : Chronicle κ σ}
    (h : Follows told es told') (h' : Follows told' es' told'') :
    Follows told (es ++ es') told'' := by
  induction h with
  | nil => exact h'
  | built hnew hw hx _ ih => exact .built hnew hw hx (ih h')
  | fired hold hne hx hpeek _ ih => exact .fired hold hne hx hpeek (ih h')

/-- A chronicle that keeps the discipline up to where it was cut short, maybe while a watcher was
being built. -/
def CutShort (told : Told) (es : Chronicle κ σ) : Prop :=
  ∃ whole told', Follows told whole told' ∧
    (es = whole ∨ ∃ i w, told' i = none ∧ w.watcher? i = none ∧ es = whole ++ [(.begun i, w)])

theorem CutShort.of_follows {told told' : Told} {es : Chronicle κ σ} (h : Follows told es told') :
    CutShort told es :=
  ⟨es, told', h, .inl rfl⟩

theorem CutShort.append {told told' : Told} {es es' : Chronicle κ σ} (h : Follows told es told')
    (h' : CutShort told' es') : CutShort told (es ++ es') := by
  obtain ⟨whole, told'', hwhole, rfl | ⟨i, w, hi, hw, rfl⟩⟩ := h'
  · exact ⟨_, told'', h.append hwhole, .inl rfl⟩
  · exact ⟨_, told'', h.append hwhole, .inr ⟨i, w, hi, hw, (List.append_assoc _ _ _).symm⟩⟩

/-- Whatever a watcher was told last, it sees no difference to what it saw last. -/
structure World.Recorded (told : Told) (w : World κ σ) : Prop where
  seen : ∀ {i x}, w.watcher? i = some x →
    ∃ d, told i = some d ∧ ∀ u, d.strictEq u = true → x.last.strictEq u = true
  unborn : ∀ {i}, w.watcher? i = none → told i = none

namespace World.Recorded

variable {told : Told} {w w' : World κ σ}

theorem of_watchers (h : w.Recorded told) (hwatchers : w'.watchers = w.watchers) :
    w'.Recorded told := by
  constructor
  · intro i x hx
    exact h.seen (by rwa [watcher?_of_watchers hwatchers] at hx)
  · intro i hi
    exact h.unborn (by rwa [watcher?_of_watchers hwatchers] at hi)

/-- A watcher that has just been told what it saw last. -/
theorem tell (h : w.Recorded told) {i : WatcherId} {x : Watcher κ} (value : Value)
    (hi : w'.watcher? i = some { x with last := value })
    (hothers : ∀ j, j ≠ i → w'.watcher? j = w.watcher? j) :
    w'.Recorded (told.tell i value) := by
  constructor
  · intro j y hy
    by_cases hj : j = i
    · subst hj
      obtain rfl := Option.some.inj (hi.symm.trans hy)
      exact ⟨value, if_pos rfl, fun _ hu => hu⟩
    · rw [hothers j hj] at hy
      obtain ⟨d, hd, hsame⟩ := h.seen hy
      exact ⟨d, (if_neg hj).trans hd, hsame⟩
  · intro j hj
    have hne : j ≠ i := by
      rintro rfl
      rw [hi] at hj
      cases hj
    rw [hothers j hne] at hj
    exact (if_neg hne).trans (h.unborn hj)

/-- Noting a value that is strictly equal to the one seen last makes no difference. -/
theorem setLast (h : w.Recorded told) {i : WatcherId} {x : Watcher κ} {value : Value}
    (hx : w.watcher? i = some x) (heq : x.last.strictEq value = true) :
    (w.setLast i value).Recorded told := by
  constructor
  · intro j y hy
    rw [watcher?_setLast] at hy
    split at hy
    · next hj =>
      subst hj
      rw [hx] at hy
      obtain rfl := Option.some.inj hy
      obtain ⟨d, hd, hsame⟩ := h.seen hx
      exact ⟨d, hd, fun u hu => Value.strictEq_trans (Value.strictEq_symm heq) (hsame u hu)⟩
    · exact h.seen hy
  · intro j hj
    rw [watcher?_setLast] at hj
    split at hj
    · exact h.unborn (Option.map_eq_none_iff.mp hj)
    · exact h.unborn hj

end World.Recorded

/-! ## Accounts that keep the discipline -/

namespace Account

variable {α β : Type}

/-- Nothing happens to watchers, and they are left alone. -/
structure Quiet (m : Account κ σ α) : Prop where
  events : ∀ w, m.events w = []
  watchers : Run.Moves (fun w w' : World κ σ => w'.watchers = w.watchers) m.run

/-- What happens keeps the discipline, and the world afterwards is recorded. -/
structure KeepsFrom (m : Account κ σ α) (told : Told) (w : World κ σ) : Prop where
  ends : ∀ {a w'}, m.run w = some (a, w') →
    ∃ told', Follows told (m.events w) told' ∧ w'.Recorded told'
  stuck : m.run w = none → CutShort told (m.events w)

/-- So it is from every recorded world. -/
structure Keeps (m : Account κ σ α) : Prop where
  at_recorded : ∀ {told : Told} {w : World κ σ}, w.Recorded told → m.KeepsFrom told w

namespace Quiet

theorem ofRun {m : Run κ σ α} (hm : Run.Moves (fun w w' => w'.watchers = w.watchers) m) :
    (ofRun m).Quiet :=
  ⟨fun _ => rfl, hm⟩

theorem pure (a : α) : (pure a : Account κ σ α).Quiet :=
  ofRun (.pure (R := fun w w' => w'.watchers = w.watchers) (fun _ => rfl) a)

theorem modify {f : World κ σ → World κ σ} (hf : ∀ w, (f w).watchers = w.watchers) :
    (modify f : Account κ σ Unit).Quiet :=
  ofRun (.modify hf)

theorem bind {m : Account κ σ α} {f : α → Account κ σ β} (hm : m.Quiet) (hf : ∀ a, (f a).Quiet) :
    (m >>= f).Quiet := by
  constructor
  · intro w
    rw [events_bind, hm.events]
    cases m.run w with
    | none => rfl
    | some p => exact (hf p.1).events p.2
  · exact .bind (fun a b c hab hbc => hbc.trans hab) hm.watchers fun a => (hf a).watchers

theorem after_get {f : World κ σ → Account κ σ α} (hf : ∀ w, (f w).Quiet) :
    (get >>= f).Quiet :=
  bind (ofRun fun _ _ _ h => by rw [(Run.get_eq_some.mp h).2]) hf

theorem discard {m : Account κ σ α} (hm : m.Quiet) : (Functor.discard m).Quiet :=
  ⟨hm.events, .discard hm.watchers⟩

theorem holding {m : Account κ σ α} (hs : List Handle) (hm : m.Quiet) :
    (Run.holding hs m).Quiet := by
  refine ⟨fun w => (events_holding hs m w).trans (hm.events _), fun w a w' h => ?_⟩
  obtain ⟨w₁, h₁, rfl⟩ := Run.holding_eq_some.mp h
  have hwatchers := hm.watchers h₁
  exact hwatchers

theorem collecting {m : Account κ σ α} (i : WatcherId) (hm : m.Quiet) :
    (Run.collecting i m).Quiet := by
  refine ⟨fun w => (events_collecting i m w).trans (hm.events _), fun w a w' h => ?_⟩
  obtain ⟨w₁, h₁, rfl⟩ := Run.collecting_eq_some.mp h
  have hwatchers := hm.watchers h₁
  exact hwatchers

theorem compositional : Compositional (@Quiet κ σ) := ⟨pure, bind, after_get, discard, holding⟩

theorem keeps {m : Account κ σ α} (hm : m.Quiet) : m.Keeps := by
  refine ⟨fun {told w} hw => ?_⟩
  constructor
  · intro a w' h
    rw [hm.events]
    exact ⟨told, .nil told, hw.of_watchers (hm.watchers h)⟩
  · intro _
    rw [hm.events]
    exact .of_follows (.nil told)

end Quiet

namespace KeepsFrom

variable {told : Told} {w w' : World κ σ}

/-- A step at which nothing happens. -/
theorem after_run {m : Run κ σ α} {f : α → Account κ σ β} {a : α} (hm : m w = some (a, w'))
    (hf : (f a).KeepsFrom told w') : (ofRun m >>= f).KeepsFrom told w := by
  have hrun : (Account.ofRun m >>= f).run w = (f a).run w' := run_bind_of_some hm
  have hevents : (Account.ofRun m >>= f).events w = (f a).events w' := events_bind_of_some hm
  constructor
  · rw [hrun, hevents]
    exact hf.ends
  · rw [hrun, hevents]
    exact hf.stuck

theorem holding {m : Account κ σ α} {hs : List Handle}
    (hm : m.KeepsFrom told { w with held := hs ++ w.held }) :
    (Run.holding hs m).KeepsFrom told w := by
  constructor
  · intro a w' h
    obtain ⟨w₁, h₁, rfl⟩ := Run.holding_eq_some.mp h
    obtain ⟨told', hfollows, hrecorded⟩ := hm.ends h₁
    rw [events_holding]
    exact ⟨told', hfollows, hrecorded.of_watchers rfl⟩
  · intro h
    rw [events_holding]
    exact hm.stuck (Run.holding_eq_none.mp h)

theorem collecting {m : Account κ σ α} {i : WatcherId}
    (hm : m.KeepsFrom told { w with
      current := some i
      held := w.current.toList.map .watcher ++ w.held }) :
    (Run.collecting i m).KeepsFrom told w := by
  constructor
  · intro a w' h
    obtain ⟨w₁, h₁, rfl⟩ := Run.collecting_eq_some.mp h
    obtain ⟨told', hfollows, hrecorded⟩ := hm.ends h₁
    rw [events_collecting]
    exact ⟨told', hfollows, hrecorded.of_watchers rfl⟩
  · intro h
    rw [events_collecting]
    exact hm.stuck (Run.collecting_eq_none.mp h)

/-- A watcher fires. -/
theorem after_fired {f : Unit → Account κ σ β} {i : WatcherId} {d : Value} {x : Watcher κ}
    (hold : told i = some d) (hne : d.strictEq x.last = false) (hx : w.watcher? i = some x)
    (hpeek : x.last = w.heap.peek x.data x.key)
    (hf : (f ()).KeepsFrom (told.tell i x.last) w) :
    (note (.fired i x.last) >>= f).KeepsFrom told w := by
  constructor
  · intro a w' h
    obtain ⟨told', hfollows, hrecorded⟩ := hf.ends h
    exact ⟨told', .fired hold hne hx hpeek hfollows, hrecorded⟩
  · intro h
    have hone : Follows told [(.fired i x.last, w)] (told.tell i x.last) :=
      .fired hold hne hx hpeek (.nil _)
    exact .append hone (hf.stuck h)

/-- A watcher is built by a step at which nothing happens, and notes what that step gives. -/
theorem building {m : Account κ σ Value} (hm : m.Quiet) {i : WatcherId} {x : Watcher κ}
    {g : World κ σ → World κ σ} (hw : w.Recorded told) (hnew : w.watcher? i = none)
    (hx : (g w).watcher? i = some x)
    (hothers : ∀ j, j ≠ i → (g w).watcher? j = w.watcher? j) :
    KeepsFrom (do
      note (.begun i)
      modify g
      let value ← m
      modify (World.setLast i value)
      note (.built i value)
      return i) told w := by
  -- what happens before the value is read is one step of the world and one note
  let finish (value : Value) : Account κ σ WatcherId := do
    modify (World.setLast i value)
    note (.built i value)
    return i
  let act : Account κ σ WatcherId := do
    note (.begun i)
    modify g
    m >>= finish
  show act.KeepsFrom told w
  have hrun : act.run w = (m >>= finish).run (g w) := rfl
  have hevents : act.events w = (.begun i, w) :: (m >>= finish).events (g w) := rfl
  cases hm₁ : m.run (g w) with
  -- stuck in its first read: the watcher was begun and has noted nothing
  | none =>
    have hnone : (m >>= finish).run (g w) = none := by
      show (m.run (g w)).bind _ = none
      rw [hm₁]
      rfl
    constructor
    · intro a w' h
      rw [hrun, hnone] at h
      cases h
    · intro _
      refine ⟨[], told, .nil told, .inr ⟨i, w, hw.unborn hnew, hnew, ?_⟩⟩
      rw [hevents, events_bind, hm₁, hm.events]
      rfl
  | some p =>
    obtain ⟨value, w₁⟩ := p
    have hlast : (w₁.setLast i value).watcher? i = some { x with last := value } := by
      refine World.watcher?_setLast_self ?_ value
      rw [World.watcher?_of_watchers (hm.watchers hm₁)]
      exact hx
    have hrecorded : (w₁.setLast i value).Recorded (told.tell i value) := by
      refine hw.tell value hlast fun j hj => ?_
      rw [World.watcher?_setLast_of_ne _ (fun h => hj h.symm),
        World.watcher?_of_watchers (hm.watchers hm₁)]
      exact hothers j hj
    have hsome : (m >>= finish).run (g w) = some (i, w₁.setLast i value) :=
      run_bind_of_some hm₁
    constructor
    · intro a w' h
      rw [hrun, hsome] at h
      obtain ⟨rfl, rfl⟩ := Prod.mk.inj (Option.some.inj h)
      refine ⟨_, ?_, hrecorded⟩
      rw [hevents, events_bind_of_some hm₁, hm.events]
      exact .built (hw.unborn hnew) hnew hlast (.nil _)
    · intro h
      rw [hrun, hsome] at h
      cases h

end KeepsFrom

namespace Keeps

theorem pure (a : α) : (pure a : Account κ σ α).Keeps := (Quiet.pure a).keeps

theorem modify {f : World κ σ → World κ σ} (hf : ∀ w, (f w).watchers = w.watchers) :
    (modify f : Account κ σ Unit).Keeps :=
  (Quiet.modify hf).keeps

theorem failure : (Alternative.failure : Account κ σ α).Keeps :=
  (Quiet.ofRun .failure).keeps

theorem bind {m : Account κ σ α} {f : α → Account κ σ β} (hm : m.Keeps) (hf : ∀ a, (f a).Keeps) :
    (m >>= f).Keeps := by
  refine ⟨fun {told w} hw => ?_⟩
  have hfirst := hm.at_recorded hw
  cases hrun : m.run w with
  | none =>
    have hnone : (m >>= f).run w = none := by
      show (m.run w).bind _ = none
      rw [hrun]
      rfl
    constructor
    · intro b w' h
      rw [hnone] at h
      cases h
    · intro _
      rw [events_bind, hrun, List.append_nil]
      exact hfirst.stuck hrun
  | some p =>
    obtain ⟨a, w₁⟩ := p
    obtain ⟨told₁, hfollows, hrecorded⟩ := hfirst.ends hrun
    have hsecond := (hf a).at_recorded hrecorded
    constructor
    · intro b w' h
      rw [run_bind_of_some hrun] at h
      obtain ⟨told', hfollows', hrecorded'⟩ := hsecond.ends h
      rw [events_bind_of_some hrun]
      exact ⟨told', hfollows.append hfollows', hrecorded'⟩
    · intro h
      rw [run_bind_of_some hrun] at h
      rw [events_bind_of_some hrun]
      exact .append hfollows (hsecond.stuck h)

theorem after_get {f : World κ σ → Account κ σ α} (hf : ∀ w, (f w).Keeps) :
    (get >>= f).Keeps :=
  ⟨fun hw => .after_run (Run.get_eq_some.mpr ⟨rfl, rfl⟩) ((hf _).at_recorded hw)⟩

theorem discard {m : Account κ σ α} (hm : m.Keeps) : (Functor.discard m).Keeps := by
  refine ⟨fun {told w} hw => ?_⟩
  constructor
  · intro a w' h
    obtain ⟨b, h₁⟩ := Run.discard_eq_some.mp h
    exact (hm.at_recorded hw).ends h₁
  · intro h
    refine (hm.at_recorded hw).stuck ?_
    cases h₁ : m.run w with
    | none => rfl
    | some p =>
      have hsome : Functor.discard m.run w = some ((), p.2) := Run.discard_eq_some.mpr ⟨p.1, h₁⟩
      rw [run_discard, hsome] at h
      cases h

theorem holding {m : Account κ σ α} (hs : List Handle) (hm : m.Keeps) :
    (Run.holding hs m).Keeps :=
  ⟨fun hw => .holding (hm.at_recorded (hw.of_watchers rfl))⟩

theorem collecting {m : Account κ σ α} (i : WatcherId) (hm : m.Keeps) :
    (Run.collecting i m).Keeps :=
  ⟨fun hw => .collecting (hm.at_recorded (hw.of_watchers rfl))⟩

theorem compositional : Compositional (@Keeps κ σ) := ⟨pure, bind, after_get, discard, holding⟩

end Keeps

end Account

/-! ## Reading -/

/-- Nothing happens to watchers when hooks are told of an access. -/
def Scribe.HooksQuiet (s : Scribe κ σ) : Prop :=
  ∀ code occasion, occasion.isAccess = true → (s.call code occasion).Quiet

/-- All other code keeps the discipline. -/
def Scribe.CallsKeep (s : Scribe κ σ) : Prop :=
  ∀ code occasion, occasion.isAccess = false → (s.call code occasion).Keeps

namespace Account

variable {s : Scribe κ σ} {o : ObjectId}

theorem quiet_read (hq : s.HooksQuiet) (o : ObjectId) (key : String) : (read s o key).Quiet := by
  refine Quiet.compositional.read (.modify fun w => ?_) fun code value => hq code _ rfl
  unfold World.subscribeCurrent
  split <;> rfl

theorem quiet_perform (hq : s.HooksQuiet) {α : Type} {r : Request κ α}
    (hr : r.onlyReads = true) : (r.perform s).Quiet := by
  cases r with
  | read o key => exact quiet_read hq o key
  | render t o => exact Quiet.compositional.render (quiet_read hq o) t
  | getProperty app key => exact Quiet.compositional.getProperty (quiet_read hq app.data) key
  | _ => cases hr

/-! ## Watchers and writes -/

/-- Nothing happens while a watcher is being built, and then it has been told what it has read. -/
theorem keeps_watch (hq : s.HooksQuiet) (expression : String) (o : ObjectId)
    (reaction : Reaction κ) : (watch s expression o reaction).Keeps := by
  refine ⟨fun {told w} hw => ?_⟩
  refine .after_run (Run.get_eq_some.mpr ⟨rfl, rfl⟩) ?_
  have hpush := World.watcher?_push w
    { key := Text.trim expression, data := o, last := .null, reaction }
  refine .building (.holding _ (.collecting _ (quiet_read hq o _))) hw
    (Table.find?_eq_none_iff.mpr (Nat.le_refl _)) ((hpush _).trans (if_pos rfl)) fun j hj => ?_
  exact (hpush j).trans (if_neg hj)

/-- Bindings are built, nodes compiled and templates mounted with discipline. -/
theorem keeps_building (hq : s.HooksQuiet) : Building s (@Keeps κ σ) where
  toCompositional := Keeps.compositional
  failure := .failure
  draw hf := .modify fun w => by
    obtain ⟨change, heq⟩ := hf w
    rw [heq]
    rfl
  observe _ _ := .modify fun _ => rfl
  read o key := (quiet_read hq o key).keeps
  watch := keeps_watch hq

theorem keeps_update (hq : s.HooksQuiet) (hc : s.CallsKeep) (i : WatcherId) :
    (update s i).Keeps := by
  refine ⟨fun {told w} hw => ?_⟩
  refine .after_run (Run.get_eq_some.mpr ⟨rfl, rfl⟩) ?_
  cases hx : w.watcher? i with
  | none => exact (Keeps.pure _).at_recorded hw
  | some x =>
    dsimp only
    by_cases halive : w.isAlive s.handles x.data = true
    · rw [if_pos halive]
      refine .after_run (a := ()) (Run.modify_eq_some.mpr rfl) ?_
      cases heq : x.last.strictEq (w.heap.peek x.data x.key) with
      | true => exact (Keeps.pure _).at_recorded (hw.setLast hx heq)
      | false =>
        -- noted before the reaction, so it is what the watcher saw last when it fires
        rw [if_neg Bool.false_ne_true]
        have hnow := World.watcher?_setLast_self hx (w.heap.peek x.data x.key)
        obtain ⟨d, hold, hsame⟩ := hw.seen hx
        have hne : d.strictEq (w.heap.peek x.data x.key) = false := by
          cases hd : d.strictEq (w.heap.peek x.data x.key) with
          | false => rfl
          | true => exact absurd (heq.symm.trans (hsame _ hd)) Bool.false_ne_true
        have hreact : (x.react s (w.heap.peek x.data x.key)).Keeps :=
          (keeps_building hq).react (fun code value => hc code _ rfl) x _
        refine .holding (.after_fired (x := { x with last := w.heap.peek x.data x.key })
          hold hne hnow rfl (hreact.at_recorded ?_))
        refine World.Recorded.tell hw _ hnow fun j hj => ?_
        exact World.watcher?_setLast_of_ne w (fun h => hj h.symm) _
    · rw [if_neg halive]
      exact (Keeps.pure _).at_recorded hw

theorem keeps_updateAll (hq : s.HooksQuiet) (hc : s.CallsKeep) (is : List WatcherId) :
    (updateAll s is).Keeps := by
  induction is with
  | nil => exact .pure _
  | cons i rest ih => exact .bind (keeps_update hq hc i) fun _ => ih

theorem keeps_write (hq : s.HooksQuiet) (hc : s.CallsKeep) (o : ObjectId) (key : String)
    (value : Value) : (write s o key value).Keeps := by
  refine .after_get fun w => ?_
  cases w.heap.cell? o key with
  | none => exact .modify fun _ => rfl
  | some cell =>
    dsimp only
    split
    · exact .pure _
    · refine .bind (.modify fun _ => rfl) fun _ => ?_
      have htell : (s.tell cell.hook (.writing key value)).Quiet :=
        Quiet.compositional.tell (fun code => hq code _ rfl) cell.hook
      refine .bind (htell.holding _).keeps fun _ => ?_
      refine .bind (.modify fun _ => rfl) fun _ => .holding _ ?_
      exact .after_get fun _ => keeps_updateAll hq hc _

/-! ## Events -/

theorem keeps_dispatch (hq : s.HooksQuiet) (hc : s.CallsKeep) (n : NodeId) (event : Event) :
    (dispatch s n event).Keeps :=
  .after_get fun _ => Keeps.compositional.deliverAll fun _ _ =>
    Keeps.compositional.deliver hc fun o key _ _ _ => keeps_write hq hc o key _

theorem keeps_setProperty (hq : s.HooksQuiet) (hc : s.CallsKeep) (app : App κ) (key : String)
    (value : Value) : (app.set s key value).Keeps := by
  unfold App.set
  split
  · exact .bind (keeps_write hq hc app.data key value) fun _ => .pure _
  · exact .pure _

/-! ## User code -/

theorem keeps_perform (hq : s.HooksQuiet) (hc : s.CallsKeep) {α : Type} (r : Request κ α) :
    (r.perform s).Keeps := by
  have hbuilding : Building s (@Keeps κ σ) := keeps_building hq
  cases r with
  | read o key => exact (quiet_read hq o key).keeps
  | write o key value => exact keeps_write hq hc o key value
  | watch expression o code => exact keeps_watch hq expression o _
  | update i => exact keeps_update hq hc i
  | render t o => exact hbuilding.render (hbuilding.read o) t
  | dispatch n event => exact keeps_dispatch hq hc n event
  | enter n text => exact .bind (.modify fun _ => rfl) fun _ => keeps_dispatch hq hc n _
  | bind directive n expression kit => exact hbuilding.directive n expression kit directive
  | compile kit root => exact hbuilding.compile kit root
  | mount place hook kit => exact hbuilding.mount place hook kit
  | getProperty app key => exact hbuilding.getProperty (hbuilding.read app.data) key
  | setProperty app key value => exact keeps_setProperty hq hc app key value
  | callMethod method o event => exact .holding _ (hc _ _ rfl)
  | newObject | newArray | ofJson | newNode | detachChildren | observe | setAttribute | setText
  | setValue | appendChildren | listen =>
    refine (Quiet.ofRun fun w a w' h => ?_).keeps
    cases h
    rfl

end Account

/-- Code that hooks run makes no request but to read. -/
theorem Program.quiet_account {s : Scribe κ σ} (hq : s.HooksQuiet) {occasion : Occasion}
    (hon : occasion.isAccess = true) {α : Type} (p : Program κ σ α) :
    (p.execUnder .hooksRead (some occasion) s).Quiet := by
  have hmay : ∀ {β : Type} (w : World κ σ) (r : Request κ β),
      Conduct.hooksRead.mayRequest (some occasion) w r = r.onlyReads := by
    intro β w r
    show (!occasion.isAccess || r.onlyReads) = r.onlyReads
    rw [hon]
    rfl
  refine Account.Quiet.compositional.account (fun r => ?request) (fun f => .modify fun _ => rfl)
    (fun i p _ => ?collecting) p
  case request =>
    refine .after_get fun w => ?_
    rw [hmay w r]
    split
    · next hr => exact Account.quiet_perform hq hr
    · exact .ofRun .failure
  case collecting =>
    refine .after_get fun w => ?_
    have hnot : Conduct.hooksRead.mayCollect (some occasion) w i = false := by
      show (!occasion.isAccess) = false
      rw [hon]
      rfl
    rw [hnot]
    exact .ofRun .failure

theorem Program.keeps_account {s : Scribe κ σ} (hq : s.HooksQuiet) (hc : s.CallsKeep)
    (c : Conduct κ σ) (on : Option Occasion) {α : Type} (p : Program κ σ α) :
    (p.execUnder c on s).Keeps := by
  refine Account.Keeps.compositional.account (fun r => ?request) (fun f => .modify fun _ => rfl)
    (fun i p ih => ?collecting) p
  case request =>
    refine .after_get fun w => ?_
    split
    · exact Account.keeps_perform hq hc r
    · exact .failure
  case collecting =>
    refine .after_get fun w => ?_
    split
    · exact .collecting i ih
    · exact .failure

/-- At every depth hooks are quiet and all other code keeps the discipline. -/
theorem Host.scribe_keeps (host : Host κ σ) (depth : Nat) :
    (host.scribe .hooksRead depth).HooksQuiet ∧ (host.scribe .hooksRead depth).CallsKeep := by
  induction depth with
  | zero => exact ⟨fun _ _ _ => .ofRun .failure, fun _ _ _ => .failure⟩
  | succ depth ih =>
    obtain ⟨hq, hc⟩ := ih
    exact ⟨fun code occasion hon => (host.body code occasion).quiet_account hq hon,
      fun code occasion _ => (host.body code occasion).keeps_account hq hc _ _⟩

/-! ## The discipline -/

/-- The values that a watcher has fired with, in the order in which it started to. -/
def Chronicle.fires (es : Chronicle κ σ) (i : WatcherId) : List Value :=
  es.filterMap fun e =>
    match e.1 with
    | .fired j value => if j = i then some value else none
    | _ => none

/-- No two values that stand next to each other are strictly equal. -/
def Alternating (values : List Value) : Prop :=
  values.IsChain fun a b => a.strictEq b = false

namespace Follows

variable {told told' : Told} {es : Chronicle κ σ}

/-- What a watcher fires with is each time another value than before. -/
theorem alternating (h : Follows told es told') {i : WatcherId} {d : Value}
    (hd : told i = some d) : Alternating (d :: es.fires i) := by
  induction h generalizing d with
  | nil told => exact List.IsChain.singleton d
  | @built told told' j x w w' rest hnew _ _ _ ih =>
    have hne : i ≠ j := by
      rintro rfl
      rw [hd] at hnew
      cases hnew
    exact ih ((if_neg hne).trans hd)
  | @fired told told' j d' x w rest hold hne _ _ _ ih =>
    by_cases hj : j = i
    · subst hj
      obtain rfl := Option.some.inj (hd.symm.trans hold)
      have hfires : Chronicle.fires ((.fired j x.last, w) :: rest) j =
          x.last :: rest.fires j := by
        simp [Chronicle.fires]
      rw [hfires]
      exact List.IsChain.cons_cons hne (ih (if_pos rfl))
    · have hfires : Chronicle.fires ((.fired j x.last, w) :: rest) i = rest.fires i := by
        simp [Chronicle.fires, hj]
      rw [hfires]
      exact ih ((if_neg (Ne.symm hj)).trans hd)

/-- Nothing has happened to whoever has been told nothing. -/
theorem watcher_ne (h : Follows told es told') {i : WatcherId} (hi : told' i = none) :
    told i = none ∧ ∀ e ∈ es, e.1.watcher ≠ i := by
  have htell : ∀ {told : Told} {j v}, told.tell j v i = none → j ≠ i ∧ told i = none := by
    intro told j v hnone
    by_cases hij : i = j
    · rw [Told.tell, if_pos hij] at hnone
      cases hnone
    · exact ⟨Ne.symm hij, (if_neg hij).symm.trans hnone⟩
  induction h with
  | nil told => exact ⟨hi, by simp⟩
  | built hnew _ _ _ ih =>
    obtain ⟨hfirst, hrest⟩ := ih hi
    obtain ⟨hne, hnone⟩ := htell hfirst
    exact ⟨hnone, List.forall_mem_cons.mpr ⟨hne, List.forall_mem_cons.mpr ⟨hne, hrest⟩⟩⟩
  | fired hold _ _ _ _ ih =>
    obtain ⟨hfirst, hrest⟩ := ih hi
    obtain ⟨hne, hnone⟩ := htell hfirst
    exact ⟨hnone, List.forall_mem_cons.mpr ⟨hne, hrest⟩⟩

/-- A watcher that is begun is new, and the next thing that happens is that it has been built. -/
theorem of_begun (h : Follows told es told') {pre post : Chronicle κ σ} {i : WatcherId}
    {w : World κ σ} (hes : es = pre ++ (.begun i, w) :: post) :
    ∃ mid x w' rest, Follows told pre mid ∧ mid i = none ∧ w.watcher? i = none ∧
      post = (.built i x.last, w') :: rest ∧ w'.watcher? i = some x ∧
      Follows (mid.tell i x.last) rest told' := by
  induction h generalizing pre with
  | nil told => simp at hes
  | @built told told' j x w₁ w₂ rest hnew hw hx hrest ih =>
    match pre with
    | [] =>
      obtain ⟨hhead, rfl⟩ := List.cons.inj hes
      obtain ⟨hj, rfl⟩ := Prod.mk.inj hhead
      obtain rfl := Happening.begun.inj hj
      exact ⟨told, x, w₂, rest, .nil told, hnew, hw, rfl, hx, hrest⟩
    | [_] =>
      simp only [List.cons_append, List.nil_append, List.cons.injEq, Prod.mk.injEq,
        reduceCtorEq, false_and, and_false] at hes
    | _ :: _ :: pre =>
      simp only [List.cons_append, List.cons.injEq] at hes
      obtain ⟨rfl, rfl, hes⟩ := hes
      obtain ⟨mid, y, w', rest', hpre, hrest'⟩ := ih hes
      exact ⟨mid, y, w', rest', .built hnew hw hx hpre, hrest'⟩
  | @fired told told' j d x w₁ rest hold hne hx hpeek hrest ih =>
    match pre with
    | [] => simp at hes
    | _ :: pre =>
      simp only [List.cons_append, List.cons.injEq] at hes
      obtain ⟨rfl, hes⟩ := hes
      obtain ⟨mid, y, w', rest', hpre, hrest'⟩ := ih hes
      exact ⟨mid, y, w', rest', .fired hold hne hx hpeek hpre, hrest'⟩

/-- A watcher fires with the value that it saw last and that its key has at that moment. -/
theorem of_fired (h : Follows told es told') {i : WatcherId} {value : Value} {w : World κ σ}
    (hmem : (.fired i value, w) ∈ es) :
    (told i ≠ none ∨ ∃ u, (.begun i, u) ∈ es) ∧
      ∃ x, w.watcher? i = some x ∧ x.last = value ∧ w.heap.peek x.data x.key = value := by
  induction h with
  | nil told => cases hmem
  | @built told told' j x w₁ w₂ rest hnew hw hx hrest ih =>
    simp only [List.mem_cons, Prod.mk.injEq, reduceCtorEq, false_and, false_or] at hmem
    obtain ⟨hthere, hfired⟩ := ih hmem
    refine ⟨?_, hfired⟩
    by_cases hij : i = j
    · exact .inr ⟨w₁, hij ▸ List.mem_cons_self⟩
    · rcases hthere with htold | ⟨u, hu⟩
      · rw [Told.tell, if_neg hij] at htold
        exact .inl htold
      · exact .inr ⟨u, List.mem_cons_of_mem _ (List.mem_cons_of_mem _ hu)⟩
  | @fired told told' j d x w₁ rest hold hne hx hpeek hrest ih =>
    rcases List.mem_cons.mp hmem with heq | hmem
    · obtain ⟨hhappening, rfl⟩ := Prod.mk.inj heq
      obtain ⟨rfl, rfl⟩ := Happening.fired.inj hhappening
      exact ⟨.inl (by rw [hold]; simp), x, hx, rfl, hpeek.symm⟩
    · obtain ⟨hthere, hfired⟩ := ih hmem
      refine ⟨?_, hfired⟩
      rcases hthere with htold | ⟨u, hu⟩
      · by_cases hij : i = j
        · exact .inl (by rw [hij, hold]; simp)
        · rw [Told.tell, if_neg hij] at htold
          exact .inl htold
      · exact .inr ⟨u, List.mem_cons_of_mem _ hu⟩

/-- A watcher that is begun is a new one, is built at once and fires in turns from then on. -/
theorem begun (h : Follows told es told') {pre post : Chronicle κ σ} {i : WatcherId}
    {w : World κ σ} (hes : es = pre ++ (.begun i, w) :: post) :
    w.watcher? i = none ∧ (∀ e ∈ pre, e.1.watcher ≠ i) ∧
      ∃ value v, ∃ rest : Chronicle κ σ, post = (.built i value, v) :: rest ∧
        (v.watcher? i).map Watcher.last = some value ∧ Alternating (value :: rest.fires i) := by
  obtain ⟨mid, x, v, rest, hpre, hmid, hw, hpost, hx, hrest⟩ := h.of_begun hes
  refine ⟨hw, (hpre.watcher_ne hmid).2, x.last, v, rest, hpost, by rw [hx]; rfl, ?_⟩
  exact hrest.alternating (if_pos rfl)

end Follows

/-- The discipline of all watchers, in what happens from some world on. -/
structure World.Disciplined (w : World κ σ) (es : Chronicle κ σ) : Prop where
  /-- A watcher that is begun is a new one, and nothing happens until it has been built, if it comes
  to that. From then on it fires with another value each time, first of all with another one than
  it has read. -/
  built : ∀ {pre post i u}, es = pre ++ (.begun i, u) :: post →
    u.watcher? i = none ∧ (∀ e ∈ pre, e.1.watcher ≠ i) ∧
      (post = [] ∨ ∃ value v, ∃ rest : Chronicle κ σ, post = (.built i value, v) :: rest ∧
        (v.watcher? i).map Watcher.last = some value ∧ Alternating (value :: rest.fires i))
  /-- A watcher that was there before goes on from what it saw last. -/
  old : ∀ {i x}, w.watcher? i = some x → Alternating (x.last :: es.fires i)
  /-- Whoever fires was there before or has been begun, and does so with the value that it saw last
  and that its key has at that moment. -/
  fired : ∀ {i value u}, (.fired i value, u) ∈ es →
    (w.watcher? i ≠ none ∨ ∃ v, (.begun i, v) ∈ es) ∧
      ∃ x, u.watcher? i = some x ∧ x.last = value ∧ u.heap.peek x.data x.key = value

theorem Chronicle.fires_append_begun (es : Chronicle κ σ) (i j : WatcherId) (w : World κ σ) :
    Chronicle.fires (es ++ [(.begun j, w)]) i = es.fires i := by
  simp [fires]

/-- What all watchers saw last. -/
def World.lasts (w : World κ σ) : Told := fun i => (w.watcher? i).map Watcher.last

theorem World.recorded_lasts (w : World κ σ) : w.Recorded w.lasts := by
  constructor
  · intro i x hx
    exact ⟨x.last, by rw [lasts, hx]; rfl, fun _ hu => hu⟩
  · intro i hi
    rw [lasts, hi]
    rfl

theorem World.Disciplined.of_cutShort {w : World κ σ} {es : Chronicle κ σ}
    (h : CutShort w.lasts es) : w.Disciplined es := by
  obtain ⟨whole, told', hfollows, hes⟩ := h
  have hfires : ∀ i, es.fires i = whole.fires i := by
    intro i
    rcases hes with rfl | ⟨j, u, _, _, rfl⟩
    · rfl
    · exact whole.fires_append_begun i j u
  have hmem : ∀ {i value u}, (.fired i value, u) ∈ es → (.fired i value, u) ∈ whole := by
    intro i value u hmem
    rcases hes with rfl | ⟨j, v, _, _, rfl⟩
    · exact hmem
    · simpa using hmem
  constructor
  · intro pre post i u hsplit
    -- within the whole chronicle, or at its end, where the run got stuck
    rcases hes with rfl | ⟨j, v, hj, hv, rfl⟩
    · obtain ⟨hu, hpre, hpost⟩ := hfollows.begun hsplit
      exact ⟨hu, hpre, .inr hpost⟩
    · rcases List.eq_nil_or_concat post with rfl | ⟨init, last, rfl⟩
      · obtain ⟨rfl, hlast⟩ := List.append_inj' hsplit rfl
        obtain ⟨hi, rfl⟩ := Prod.mk.inj (List.cons.inj hlast).1
        obtain rfl := Happening.begun.inj hi
        exact ⟨hv, (hfollows.watcher_ne hj).2, .inl rfl⟩
      · rw [List.concat_eq_append, ← List.cons_append, ← List.append_assoc] at hsplit
        obtain ⟨hwhole, hlast⟩ := List.append_inj' hsplit rfl
        obtain ⟨hu, hpre, value, v', rest, rfl, hbuilt, hchain⟩ := hfollows.begun hwhole
        refine ⟨hu, hpre, .inr ⟨value, v', rest ++ [last], ?_, hbuilt, ?_⟩⟩
        · rw [List.concat_eq_append]
          rfl
        · rw [← hlast, Chronicle.fires_append_begun]
          exact hchain
  · intro i x hx
    rw [hfires]
    exact hfollows.alternating (by rw [World.lasts, hx]; rfl)
  · intro i value u hfired
    obtain ⟨hthere, hnow⟩ := hfollows.of_fired (hmem hfired)
    refine ⟨?_, hnow⟩
    rcases hthere with htold | ⟨v, hv⟩
    · refine .inl fun hnone => htold ?_
      rw [World.lasts, hnone]
      rfl
    · refine .inr ⟨v, ?_⟩
      rcases hes with rfl | ⟨j, v', _, _, rfl⟩
      · exact hv
      · exact List.mem_append_left _ hv

/-- Watchers fire with discipline in every run in which hooks only read or record, whatever else
user code does, however deep callbacks go, and also if the run does not come to an end. -/
theorem firing_disciplined (host : Host κ σ) (depth : Nat) {α : Type} (p : Program κ σ α)
    (w : World κ σ) :
    (host.account .hooksRead depth p).run w = host.runUnder .hooksRead depth p w ∧
      w.Disciplined ((host.account .hooksRead depth p).events w) := by
  refine ⟨by rw [host.run_account], .of_cutShort ?_⟩
  obtain ⟨hq, hc⟩ := host.scribe_keeps depth
  have hkeeps := (p.keeps_account hq hc .hooksRead none).at_recorded w.recorded_lasts
  cases hrun : (host.account .hooksRead depth p).run w with
  | none => exact hkeeps.stuck hrun
  | some r =>
    obtain ⟨told', hfollows, _⟩ := hkeeps.ends hrun
    exact .of_follows hfollows

/-! Two watchers of one key; the first writes in the middle of the fan-out that told it. -/

namespace Relay

def host : Host Bool Unit where
  body code occasion :=
    match code, occasion with
    | true, .changed (.text "b") => do
      Program.request (.write ⟨0⟩ "n" (.text "c"))
      return .ok ()
    | _, _ => return .ok ()
  handles _ := [.object ⟨0⟩]

def program : Program Bool Unit Unit := do
  let o ← Program.request .newObject
  Program.request (.write o "n" (.text "a"))
  Program.request (.observe .silent (.object o))
  let _ ← Program.request (.watch "n" o true)
  let _ ← Program.request (.watch "n" o false)
  Program.request (.write o "n" (.text "b"))

/-- The texts that a watcher fires with. -/
def fires (i : Nat) : List String :=
  (Chronicle.fires ((host.account .hooksRead 2 program).events { user := () }) ⟨i⟩).map
    ({} : Heap Bool).text

/-- The second watcher hears only of what the first has written, and only once. -/
example : fires 0 = ["b", "c"] ∧ fires 1 = ["c"] := by decide +kernel

end Relay

end DataBinding
