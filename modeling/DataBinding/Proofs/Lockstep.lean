import DataBinding.Proofs.Depth
import DataBinding.Proofs.Notes
import DataBinding.Proofs.Shuffling
import Mathlib.Data.List.Nodup

/-!
# Shuffled worlds in step

Two runs start in worlds whose bindings are shuffled. Whatever is done in the one and comes to an
end does so in the other, with the same answer, and leaves the worlds shuffled.

The runs go side by side operation by operation. They part in one place only: when a field is
written, the watchers of its bindings are updated in different orders. No user code runs in
between, the heap does not change, and each watcher notes what it saw by itself; so all that is
left of the order is the order of what is drawn, and that does not show. Before and after this the
watchers with user code are updated, in the same order in both worlds. What these do is in step by
induction on the depth of callbacks.

A hook is not heard in either run, but it may stop the first one for want of depth. So the second
run gets one level more.
-/

namespace DataBinding

variable {κ σ ρ α β : Type}

/-! ## Updating the watchers of bindings -/

/-- A watcher that has seen what its key is in a heap. -/
def Watcher.refreshed (h : Heap κ) (x : Watcher κ) : Watcher κ :=
  { x with last := h.peek x.data x.key }

namespace World

/-- What a watcher of a binding draws when it is updated. -/
def due (w : World κ σ) (i : WatcherId) : Option (Drawing κ) :=
  (w.watcher? i).bind fun x =>
    if x.last.strictEq (w.heap.peek x.data x.key) then none else x.drawing? w.heap

theorem drawing?_of_due {w : World κ σ} {i : WatcherId} {a : Drawing κ} (ha : w.due i = some a) :
    ∃ x, w.watcher? i = some x ∧ x.drawing? w.heap = some a := by
  obtain ⟨x, hx, hdue⟩ := Option.bind_eq_some_iff.mp ha
  split at hdue
  · cases hdue
  · exact ⟨x, hx, hdue⟩

/-- The watchers after some have been updated. -/
def refresh (w : World κ σ) (is : List WatcherId) : Table (Watcher κ) :=
  is.foldl (fun t i => t.modify i.index (Watcher.refreshed w.heap)) w.watchers

theorem find?_refresh (w : World κ σ) (is : List WatcherId) (k : Nat) :
    (w.refresh is).find? k =
      if ⟨k⟩ ∈ is then (w.watchers.find? k).map (Watcher.refreshed w.heap)
      else w.watchers.find? k := by
  have hfold : ∀ t : Table (Watcher κ),
      (is.foldl (fun t i => t.modify i.index (Watcher.refreshed w.heap)) t).find? k =
        if ⟨k⟩ ∈ is then (t.find? k).map (Watcher.refreshed w.heap) else t.find? k := by
    induction is with
    | nil => exact fun t => rfl
    | cons i rest ih =>
      intro t
      rw [List.foldl_cons, ih, Table.find?_modify]
      by_cases hi : i.index = k
      · obtain rfl : i = ⟨k⟩ := congrArg WatcherId.mk hi
        -- who has seen it once sees nothing else
        cases t.find? k <;> simp [Watcher.refreshed]
      · have hne : ¬ (⟨k⟩ : WatcherId) = i := fun h => hi (congrArg WatcherId.index h.symm)
        simp [hi, hne]
  exact hfold w.watchers

theorem size_refresh (w : World κ σ) (is : List WatcherId) :
    (w.refresh is).size = w.watchers.size := by
  have hfold : ∀ t : Table (Watcher κ),
      (is.foldl (fun t i => t.modify i.index (Watcher.refreshed w.heap)) t).size = t.size := by
    induction is with
    | nil => exact fun t => rfl
    | cons i rest ih =>
      intro t
      rw [List.foldl_cons, ih, Table.size_modify]
  exact hfold w.watchers

/-- Whether a watcher belongs to a binding whose data is held. -/
def ShowsHeld (w : World κ σ) (i : WatcherId) : Prop :=
  ∃ x, w.watcher? i = some x ∧ ¬ x.reaction.IsCustom ∧ .object x.data ∈ w.held

end World

namespace Env.HooksTakeNotes

variable {env : Env κ (σ × ρ)} {w : World κ (σ × ρ)}

/-- The world after the update of a binding. -/
theorem update_eq (h : env.HooksTakeNotes) (hcur : w.current = none) {i : WatcherId}
    (hi : w.ShowsHeld i) : ∃ user : σ × ρ, user.1 = w.user.1 ∧
    update env i w = some ((), { w with
      watchers := w.watchers.modify i.index (Watcher.refreshed w.heap)
      document := Drawing.drawAll (w.due i).toList w.document
      user }) := by
  obtain ⟨x, hx, hcustom, hheld⟩ := hi
  have halive : w.isAlive env.handles x.data = true := World.isAlive_of_mem_held hheld
  let v := w.heap.peek x.data x.key
  have hlast : w.watchers.modify i.index (Watcher.refreshed w.heap) =
      w.watchers.modify i.index fun y => { y with last := v } := by
    refine Table.modify_congr fun y hy => ?_
    obtain rfl := Option.some.inj (hx.symm.trans hy)
    rfl
  have hdue : w.due i = if x.last.strictEq v then none else x.drawing? w.heap := by
    unfold World.due
    rw [hx]
    rfl
  rw [hlast, hdue]
  cases hv : x.last.strictEq v with
  | true => exact ⟨w.user, rfl, update_eq_setLast hx halive hv⟩
  | false =>
    let w₁ : World κ (σ × ρ) :=
      { w.setLast i v with
        held := .watcher i :: .object x.data :: v.handles ++ x.last.handles ++ w.held }
    obtain ⟨user, hsame, hreact⟩ := h.react_eq (w := w₁) hcur hcustom v
    refine ⟨user, hsame, ?_⟩
    rw [if_neg Bool.false_ne_true, ← Watcher.shown_eq]
    exact update_eq_react hx halive hv hreact

/-- The world after the updates of bindings, each watcher once. -/
theorem updateAll_eq (h : env.HooksTakeNotes) (hcur : w.current = none) {is : List WatcherId}
    (hnodup : is.Nodup) (his : ∀ i ∈ is, w.ShowsHeld i) : ∃ user : σ × ρ, user.1 = w.user.1 ∧
    updateAll env is w = some ((), { w with
      watchers := w.refresh is
      document := Drawing.drawAll (is.filterMap w.due) w.document
      user }) := by
  induction is generalizing w with
  | nil => exact ⟨w.user, rfl, rfl⟩
  | cons i rest ih =>
    obtain ⟨hi, hnodup⟩ := List.nodup_cons.mp hnodup
    obtain ⟨user₁, hsame₁, hupdate⟩ := h.update_eq hcur (his i List.mem_cons_self)
    let w₁ : World κ (σ × ρ) :=
      { w with
        watchers := w.watchers.modify i.index (Watcher.refreshed w.heap)
        document := Drawing.drawAll (w.due i).toList w.document
        user := user₁ }
    -- the update of one watcher leaves the others what they are
    have hother : ∀ j ∈ rest, w₁.watcher? j = w.watcher? j := by
      intro j hj
      have hne : ¬ i.index = j.index := by
        intro hij
        obtain rfl : i = j := congrArg WatcherId.mk hij
        exact hi hj
      exact (Table.find?_modify _ _ _ _).trans (if_neg hne)
    have hdue : rest.filterMap w₁.due = rest.filterMap w.due := by
      refine List.filterMap_congr fun j hj => ?_
      unfold World.due
      rw [hother j hj]
    obtain ⟨user, hsame, hrest⟩ := ih (w := w₁) hcur hnodup fun j hj => by
      obtain ⟨x, hx, hcustom, hheld⟩ := his j (List.mem_cons_of_mem _ hj)
      exact ⟨x, (hother j hj).trans hx, hcustom, hheld⟩
    refine ⟨user, hsame.trans hsame₁, Run.bind_eq_some.mpr ⟨(), w₁, hupdate, ?_⟩⟩
    rw [hrest, hdue]
    cases hd : w.due i <;> simp [w₁, hd, World.refresh, Drawing.drawAll]

end Env.HooksTakeNotes

theorem updateAll_append (env : Env κ σ) (is js : List WatcherId) :
    updateAll env (is ++ js) = updateAll env is >>= fun _ => updateAll env js := by
  induction is with
  | nil => rfl
  | cons i rest ih =>
    rw [List.cons_append, updateAll, updateAll, ih, bind_assoc]

namespace World.Shuffled

variable {s : Shuffle} {ok : σ → Prop} {w w' : World κ (σ × ρ)}

/-- Only what user code goes by counts of the state of the user. -/
theorem of_user (h : Shuffled s ok w w') {user user' : σ × ρ} (hsame : user.1 = w.user.1)
    (hsame' : user'.1 = w'.user.1) : Shuffled s ok { w with user } { w' with user := user' } :=
  { h with user := by rw [hsame, hsame', h.user], ok := hsame ▸ h.ok }

theorem setLast (h : Shuffled s ok w w') {i : WatcherId} (hi : ¬ s.Owns i) (v : Value) :
    Shuffled s ok (w.setLast i v) (w'.setLast i v) := by
  have hwatchers := h.watchers.setLast i.index v
  rw [s.fixed i.index hi] at hwatchers
  exact { h with watchers := hwatchers }

theorem draw (h : Shuffled s ok w w') {a : Drawing κ} (ha : a.Proper s.size) :
    Shuffled s ok (w.mapDocument a.draw) (w'.mapDocument a.draw) :=
  { h with documents := h.documents.draw ha }

/-- What bindings draw does not depend on the order in which they are updated. -/
theorem due_eq (h : Shuffled s ok w w') (i : WatcherId) : w'.due (s.rename i) = w.due i := by
  unfold due
  rw [h.watcher? i]
  simp only [h.heaps.peek, h.heaps.drawing?]

/-- The watchers of bindings can be updated in both worlds. -/
theorem showsHeld (h : Shuffled s ok w w') (hheld : .object s.data ∈ w.held) {i : WatcherId}
    (hi : s.Owns i) : w.ShowsHeld i ∧ w'.ShowsHeld (s.rename i) := by
  have hlt := Nat.lt_of_lt_of_le hi.2 h.watchers.past_le
  cases hx : w.watcher? i with
  | none => exact absurd hlt (Nat.not_lt.mpr (Table.find?_eq_none_iff.mp hx))
  | some x =>
    obtain ⟨hdata, hcustom⟩ := h.watchers.data i x hi hx
    rw [← hdata] at hheld
    exact ⟨⟨x, hx, hcustom, hheld⟩, ⟨x, (h.watcher? i).trans hx, hcustom, h.held ▸ hheld⟩⟩

/-- The watchers of bindings have seen the same, in whatever order. -/
theorem watchers_refresh (h : Shuffled s ok w w') {ours ours' : List WatcherId}
    (hperm : ours'.Perm (ours.map s.rename)) :
    s.Watchers (w.refresh ours) (w'.refresh ours') := by
  refine h.watchers.of_last (size_refresh w ours) (size_refresh w' ours') (fun k x hx => ?_)
    fun k => ?_
  · rw [find?_refresh] at hx
    split at hx
    · obtain ⟨y, hy, rfl⟩ := Option.map_eq_some_iff.mp hx
      exact ⟨y.last, hy⟩
    · exact ⟨x.last, hx⟩
  · have hmem : (⟨s.perm k⟩ : WatcherId) ∈ ours' ↔ (⟨k⟩ : WatcherId) ∈ ours := by
      rw [hperm.mem_iff, List.mem_map]
      constructor
      · rintro ⟨j, hj, hjk⟩
        obtain rfl : j = ⟨k⟩ := Shuffle.rename_injective (s := s) hjk
        exact hj
      · exact fun hk => ⟨_, hk, rfl⟩
    have hsee : Watcher.refreshed w'.heap = Watcher.refreshed w.heap := by
      funext x
      unfold Watcher.refreshed
      rw [h.heaps.peek]
    rw [find?_refresh, find?_refresh, h.watchers.renamed, hsee]
    simp only [hmem]

/-- The watchers of bindings have drawn the same, in whatever order. -/
theorem documents_drawn (h : Shuffled s ok w w') {ours ours' : List WatcherId}
    (hours : ∀ i ∈ ours, s.Owns i) (hperm : ours'.Perm (ours.map s.rename)) :
    Document.Alike s.size (Drawing.drawAll (ours.filterMap w.due) w.document)
      (Drawing.drawAll (ours'.filterMap w'.due) w'.document) := by
  have hdrawn : (ours.filterMap w.due).Perm (ours'.filterMap w'.due) := by
    have hmap := hperm.filterMap w'.due
    rw [List.filterMap_map, show w'.due ∘ s.rename = w.due from funext h.due_eq] at hmap
    exact hmap.symm
  refine Drawing.alike_of_perm hdrawn (fun a ha => ?_) (fun a ha b hb hab => ?_) h.documents
  · obtain ⟨i, _, hdue⟩ := List.mem_filterMap.mp ha
    obtain ⟨x, hx, hdraw⟩ := drawing?_of_due hdue
    exact Watcher.proper_drawing? (h.watchers.nodes i.index x hx) hdraw
  · obtain ⟨i, hi, hdue⟩ := List.mem_filterMap.mp ha
    obtain ⟨j, hj, hdue'⟩ := List.mem_filterMap.mp hb
    obtain ⟨x, hx, hdraw⟩ := drawing?_of_due hdue
    obtain ⟨y, hy, hdraw'⟩ := drawing?_of_due hdue'
    exact h.watchers.agree i j x y (hours i hi) (hours j hj) hx hy w.heap a hdraw b hdraw' hab

/-- The watchers of bindings that stand in a list are updated in both worlds. -/
theorem updateAll_ours {env : Env κ (σ × ρ)} (h : Shuffled s ok w w') (he : env.HooksTakeNotes)
    {ours ours' : List WatcherId} (hours : ∀ i ∈ ours, s.Owns i) (hnodup : ours.Nodup)
    (hperm : ours'.Perm (ours.map s.rename)) (hheld : .object s.data ∈ w.held) :
    ∃ w₁ w₁', updateAll env ours w = some ((), w₁) ∧ updateAll env ours' w' = some ((), w₁') ∧
      Shuffled s ok w₁ w₁' := by
  have hnodup' : ours'.Nodup := by
    rw [hperm.nodup_iff]
    exact hnodup.map fun _ _ => Shuffle.rename_injective
  have hshows' : ∀ i ∈ ours', w'.ShowsHeld i := by
    intro i hi
    obtain ⟨j, hj, rfl⟩ := List.mem_map.mp (hperm.mem_iff.mp hi)
    exact (h.showsHeld hheld (hours j hj)).2
  obtain ⟨user, hsame, hall⟩ := he.updateAll_eq h.current hnodup fun i hi =>
    (h.showsHeld hheld (hours i hi)).1
  obtain ⟨user', hsame', hall'⟩ := he.updateAll_eq h.current' hnodup' hshows'
  refine ⟨_, _, hall, hall', ?_⟩
  exact { h with
    watchers := h.watchers_refresh hperm
    documents := h.documents_drawn hours hperm
    user := by rw [hsame, hsame', h.user]
    ok := hsame ▸ h.ok }

end World.Shuffled

/-! ## In step -/

open World

/-- When the first run comes to an end in one of two shuffled worlds, the second does so in the
other, with the same answer, and the worlds are shuffled again. -/
def Run.InStep (s : Shuffle) (ok : σ → Prop) (m m' : Run κ (σ × ρ) α) : Prop :=
  ∀ ⦃w w' a w₁⦄, Shuffled s ok w w' → m w = some (a, w₁) →
    ∃ w₁', m' w' = some (a, w₁') ∧ Shuffled s ok w₁ w₁'

namespace Run.InStep

variable {s : Shuffle} {ok : σ → Prop} {m m' : Run κ (σ × ρ) α}

theorem pure (a : α) : InStep (κ := κ) (ρ := ρ) s ok (Pure.pure a) (Pure.pure a) := by
  intro w w' b w₁ h hm
  obtain ⟨rfl, rfl⟩ := pure_eq_some.mp hm
  exact ⟨w', rfl, h⟩

theorem bind {f f' : α → Run κ (σ × ρ) β} (hm : InStep s ok m m')
    (hf : ∀ a, InStep s ok (f a) (f' a)) : InStep s ok (m >>= f) (m' >>= f') := by
  intro w w' b w₁ h hrun
  obtain ⟨a, w₂, hfirst, hrest⟩ := bind_eq_some.mp hrun
  obtain ⟨w₂', hfirst', h₂⟩ := hm h hfirst
  obtain ⟨w₁', hrest', h₁⟩ := hf a h₂ hrest
  exact ⟨w₁', bind_eq_some.mpr ⟨a, w₂', hfirst', hrest'⟩, h₁⟩

theorem modify {f f' : World κ (σ × ρ) → World κ (σ × ρ)}
    (hf : ∀ w w', Shuffled s ok w w' → Shuffled s ok (f w) (f' w')) :
    InStep s ok (modify f) (modify f') := by
  intro w w' u w₁ h hm
  obtain rfl := modify_eq_some.mp hm
  exact ⟨f' w', rfl, hf w w' h⟩

theorem changing {f : World κ (σ × ρ) → α × World κ (σ × ρ)}
    (hf : ∀ w w', Shuffled s ok w w' → (f w').1 = (f w).1 ∧ Shuffled s ok (f w).2 (f w').2) :
    InStep s ok (Request.changing f) (Request.changing f) := by
  intro w w' a w₁ h hm
  have hfw := changing_eq_some.mp hm
  obtain ⟨hanswer, h₁⟩ := hf w w' h
  rw [hfw] at hanswer h₁
  exact ⟨(f w').2, changing_eq_some.mpr (Prod.ext hanswer rfl), h₁⟩

theorem discard (hm : InStep s ok m m') :
    InStep s ok (Functor.discard m) (Functor.discard m') := by
  intro w w' u w₁ h hrun
  obtain ⟨a, hfirst⟩ := discard_eq_some.mp hrun
  obtain ⟨w₁', hfirst', h₁⟩ := hm h hfirst
  exact ⟨w₁', discard_eq_some.mpr ⟨a, hfirst'⟩, h₁⟩

theorem holding {hs : List Handle} (hs_free : ∀ i, .watcher i ∈ hs → ¬ s.Owns i)
    (hm : InStep s ok m m') : InStep s ok (.holding hs m) (.holding hs m') := by
  intro w w' a w₁ h hrun
  obtain ⟨w₂, hfirst, rfl⟩ := holding_eq_some.mp hrun
  have hheld : Shuffled s ok { w with held := hs ++ w.held } { w' with held := hs ++ w'.held } :=
    { h with
      held := congrArg (hs ++ ·) h.held
      free := fun i hi => (List.mem_append.mp hi).elim (hs_free i) (h.free i) }
  obtain ⟨w₂', hfirst', h₂⟩ := hm hheld hfirst
  refine ⟨_, holding_eq_some.mpr ⟨w₂', hfirst', rfl⟩, ?_⟩
  exact { h₂ with held := h.held, free := h.free }

theorem inTurn : InTurn fun m m' : Run κ (σ × ρ) _ => InStep s ok m m' := ⟨pure, bind⟩

/-- A run with less depth than one that is in step. -/
theorem of_below {m₂ : Run κ (σ × ρ) α} (hbelow : m.Below m₂) (hm : InStep s ok m₂ m') :
    InStep s ok m m' :=
  fun _ _ _ _ h hrun => hm h (hbelow hrun)

end Run.InStep

/-- Two environments of user code in step. Hooks only take notes in the second, which has more
depth. -/
structure Env.InStep (s : Shuffle) (ok : σ → Prop) (env env' : Env κ (σ × ρ)) : Prop where
  below : env.Below env'
  notes : env'.HooksTakeNotes
  handles : s.Handles ok env.handles
  calls : ∀ code occasion, occasion.isAccess = false →
    Run.InStep s ok (env.call code occasion) (env'.call code occasion)

theorem Value.watcher_not_mem_handles (v : Value) (i : WatcherId) : .watcher i ∉ v.handles := by
  simp [Value.handles]

namespace Env.InStep

variable {s : Shuffle} {ok : σ → Prop} {env env' : Env κ (σ × ρ)}

theorem isAlive (he : env.InStep s ok env') {w w' : World κ (σ × ρ)} (h : Shuffled s ok w w')
    (o : ObjectId) : w'.isAlive env'.handles o = w.isAlive env.handles o := by
  rw [← he.below.handles]
  exact h.isAlive he.handles o

theorem tell (he : env.InStep s ok env') (hook : Hook κ) {occasion : Occasion}
    (hon : occasion.isAccess = true) :
    Run.InStep s ok (env.tell hook occasion) (env'.tell hook occasion) := by
  refine .of_below (he.below.tell hook occasion) fun w w' u w₁ h hrun => ?_
  obtain ⟨user, hsame, htell⟩ := he.notes hook occasion hon w
  obtain ⟨user', hsame', htell'⟩ := he.notes hook occasion hon w'
  obtain ⟨rfl, rfl⟩ := Prod.mk.inj (Option.some.inj (htell.symm.trans hrun))
  exact ⟨_, htell', h.of_user hsame hsame'⟩

theorem read (he : env.InStep s ok env') (o : ObjectId) (key : String) :
    Run.InStep s ok (read env o key) (read env' o key) := by
  refine .of_below (he.below.read o key) fun w w' v w₁ h hrun => ?_
  obtain ⟨user, hsame, hread⟩ := he.notes.read_eq w o key
  obtain ⟨user', hsame', hread'⟩ := he.notes.read_eq w' o key
  obtain ⟨rfl, rfl⟩ := Prod.mk.inj (Option.some.inj (hread.symm.trans hrun))
  rw [h.heaps.peek] at hread'
  refine ⟨_, hread', ?_⟩
  -- nobody is collecting, so nobody subscribes
  have hheap : w.heap.subscribeAll w.current [(o, key)] = w.heap := by rw [h.current]; rfl
  have hheap' : w'.heap.subscribeAll w'.current [(o, key)] = w'.heap := by rw [h.current']; rfl
  rw [hheap, hheap']
  exact h.of_user hsame hsame'

theorem render (he : env.InStep s ok env') (t : Template) (o : ObjectId) :
    Run.InStep s ok (t.render env o) (t.render env' o) := by
  refine Run.InStep.inTurn.render (fun segment => ?_) t
  cases segment with
  | literal text => exact .pure _
  | marker key =>
    refine .bind (he.read o key) fun v w w' text w₁ h hrun => ?_
    obtain ⟨rfl, rfl⟩ := Run.pure_eq_some.mp hrun
    exact ⟨w', Run.pure_eq_some.mpr ⟨h.heaps.text v, rfl⟩, h⟩

/-- A watcher with user code is built after those of bindings. -/
theorem watch (he : env.InStep s ok env') (expression : String) (o : ObjectId) (code : κ) :
    Run.InStep s ok (watch env expression o (.custom code))
      (watch env' expression o (.custom code)) := by
  refine .of_below (he.below.watch expression o _) fun w w' i w₁ h hrun => ?_
  obtain ⟨user, hsame, hwatch⟩ := he.notes.watch_eq w expression o (.custom code)
  obtain ⟨user', hsame', hwatch'⟩ := he.notes.watch_eq w' expression o (.custom code)
  obtain ⟨rfl, rfl⟩ := Prod.mk.inj (Option.some.inj (hwatch.symm.trans hrun))
  unfold World.watching at hwatch'
  rw [h.watchers.size, h.heaps.peek] at hwatch'
  refine ⟨_, hwatch', ?_⟩
  have hpast := h.watchers.past_le
  have hi : ¬ s.Owns ⟨w.watchers.size⟩ := fun hi => Nat.not_lt.mpr hpast hi.2
  exact { h with
    heaps := h.heaps.subscribe hi o (Text.trim expression)
    watchers := h.watchers.push trivial
    user := by rw [hsame, hsame', h.user]
    ok := hsame ▸ h.ok }

/-- A watcher reacts that belongs to no binding that was shuffled. -/
theorem react (he : env.InStep s ok env') {x : Watcher κ}
    (hx : ∀ n, x.reaction.node? = some n → n.index < s.size) (v : Value) :
    Run.InStep s ok (x.react env v) (x.react env' v) := by
  have htext : ∀ {n : NodeId}, x.reaction.node? = some n → ∀ text : String,
      Run.InStep (κ := κ) (ρ := ρ) s ok (modify (World.mapDocument fun d => d.setText n text))
        (modify (World.mapDocument fun d => d.setText n text)) := fun hn text =>
    .modify fun w w' h => h.draw (Drawing.proper_text (hx _ hn) text)
  unfold Watcher.react
  cases hr : x.reaction with
  | setValue n =>
    refine .modify fun w w' h => ?_
    unfold World.showValue
    rw [h.heaps.text]
    exact h.draw (Drawing.proper_value (hx n (by rw [hr]; rfl)) _)
  | setText n =>
    refine .modify fun w w' h => ?_
    unfold World.showText
    rw [h.heaps.text]
    exact h.draw (Drawing.proper_text (hx n (by rw [hr]; rfl)) _)
  | render n t => exact .bind (he.render t x.data) fun text => htext (by rw [hr]; rfl) text
  | custom code => exact .discard (he.calls code _ rfl)

/-- The update of a watcher that belongs to no binding that was shuffled. -/
theorem update (he : env.InStep s ok env') {i : WatcherId} (hi : ¬ s.Owns i) :
    Run.InStep s ok (update env i) (update env' i) := by
  intro w w' u w₁ h hrun
  have hx : w'.watcher? i = w.watcher? i := by
    have hname := h.watcher? i
    rwa [Shuffle.rename_of_not_owns hi] at hname
  unfold DataBinding.update at hrun ⊢
  rw [Run.get_bind] at hrun ⊢
  rw [hx]
  cases hwatcher : w.watcher? i with
  | none =>
    rw [hwatcher] at hrun
    exact Run.InStep.pure () h hrun
  | some x =>
    rw [hwatcher] at hrun
    dsimp only at hrun ⊢
    rw [he.isAlive h, h.heaps.peek]
    split
    · next halive =>
      rw [if_pos halive] at hrun
      have hfree : ∀ j, .watcher j ∈ .watcher i :: .object x.data ::
          (w.heap.peek x.data x.key).handles ++ x.last.handles → ¬ s.Owns j := by
        intro j hj
        simp only [List.cons_append, List.mem_cons, List.mem_append, reduceCtorEq,
          Value.watcher_not_mem_handles, or_false, Handle.watcher.injEq] at hj
        exact hj ▸ hi
      refine Run.InStep.bind (.modify fun w w' h => h.setLast hi _) (fun _ => ?_) h hrun
      split
      · exact .pure ()
      · exact .holding hfree (he.react (h.watchers.nodes i.index x hwatcher) _)
    · next halive =>
      rw [if_neg halive] at hrun
      exact Run.InStep.pure () h hrun

theorem updateAll (he : env.InStep s ok env') {is : List WatcherId} (his : ∀ i ∈ is, ¬ s.Owns i) :
    Run.InStep s ok (updateAll env is) (updateAll env' is) :=
  Run.InStep.inTurn.updateAll fun i hi => he.update (his i hi)

end Env.InStep

/-- Whatever is held during updates is held after them. -/
theorem held_updateAll {env : Env κ σ} {is : List WatcherId} {w w' : World κ σ} {u : Unit}
    (h : updateAll env is w = some (u, w')) : w'.held = w.held := by
  have hcarried : Carried fun w w' : World κ σ => w'.held = w.held :=
    ⟨fun _ => rfl, fun _ _ _ hab hbc => hbc.trans hab, fun _ => rfl⟩
  refine hcarried.updateAll (fun i w u w' hupdate => ?_) is h
  rcases update_eq_some hupdate with ⟨rfl, _⟩ | ⟨x, _, ⟨_, rfl⟩ | ⟨_, held, w₁, hreact, rfl⟩⟩
  · rfl
  · rfl
  · obtain ⟨w₂, _, rfl⟩ := Run.holding_eq_some.mp hreact
    rfl

namespace Env.InStep

variable {s : Shuffle} {ok : σ → Prop} {env env' : Env κ (σ × ρ)}

/-- The subscribers of a field are updated while its object is held. -/
theorem notify (he : env.InStep s ok env') (o : ObjectId) (key : String) :
    Run.InStep s ok (.holding [.object o] (notify env o key))
      (.holding [.object o] (notify env' o key)) := by
  intro w w' u w₁ h hrun
  obtain ⟨w₂, hnotify, rfl⟩ := Run.holding_eq_some.mp hrun
  have hfree : ∀ i, .watcher i ∈ [Handle.object o] ++ w.held → ¬ s.Owns i := fun i hi =>
    h.free i ((List.mem_append.mp hi).resolve_left (by simp))
  have hheld : Shuffled s ok { w with held := [.object o] ++ w.held }
      { w' with held := [.object o] ++ w'.held } :=
    { h with held := congrArg ([Handle.object o] ++ ·) h.held, free := hfree }
  -- before, at and after the watchers of bindings
  obtain ⟨early, ours, ours', late, hlist, hlist', hearly, hlate, hours, hnodup, hperm⟩ :=
    h.heaps.lists o key
  have hsplit : DataBinding.updateAll env (early ++ ours ++ late)
      { w with held := [.object o] ++ w.held } = some (u, w₂) := hlist ▸ hnotify
  rw [updateAll_append, updateAll_append] at hsplit
  obtain ⟨_, w₄, hfirst, hlast⟩ := Run.bind_eq_some.mp hsplit
  obtain ⟨_, w₃, hbefore, hmiddle⟩ := Run.bind_eq_some.mp hfirst
  obtain ⟨w₃', hbefore', h₃⟩ := he.updateAll hearly hheld hbefore
  obtain ⟨w₄', hmiddle', h₄⟩ : ∃ w₄', DataBinding.updateAll env' ours' w₃' = some ((), w₄') ∧
      Shuffled s ok w₄ w₄' := by
    have hmiddle := he.below.updateAll ours hmiddle
    cases ours with
    | nil =>
      obtain rfl := hperm.eq_nil
      obtain ⟨_, rfl⟩ := Run.pure_eq_some.mp hmiddle
      exact ⟨w₃', rfl, h₃⟩
    | cons i rest =>
      obtain rfl : o = s.data := by
        refine h.heaps.data o key i ?_ (hours i List.mem_cons_self)
        rw [hlist]
        simp
      have hdata : .object s.data ∈ w₃.held := by
        rw [held_updateAll hbefore]
        simp
      obtain ⟨w₅, w₄', hall, hall', h₄⟩ := h₃.updateAll_ours he.notes hours hnodup hperm hdata
      obtain ⟨_, rfl⟩ := Prod.mk.inj (Option.some.inj (hall.symm.trans hmiddle))
      exact ⟨w₄', hall', h₄⟩
  obtain ⟨w₂', hlast', h₂⟩ := he.updateAll hlate h₄ hlast
  refine ⟨_, Run.holding_eq_some.mpr ⟨w₂', ?_, rfl⟩,
    { h₂ with held := h.held, free := h.free }⟩
  show DataBinding.updateAll env' (w'.heap.subscribers o key) _ = _
  rw [hlist', updateAll_append, updateAll_append]
  exact Run.bind_eq_some.mpr ⟨(), w₄', Run.bind_eq_some.mpr ⟨(), w₃', hbefore', hmiddle'⟩, hlast'⟩

theorem write (he : env.InStep s ok env') (o : ObjectId) (key : String) (v : Value) :
    Run.InStep s ok (write env o key v) (write env' o key v) := by
  intro w w' u w₁ h hrun
  unfold DataBinding.write at hrun ⊢
  rw [Run.get_bind] at hrun ⊢
  rcases h.heaps.cell? o key with ⟨hc, hc'⟩ | ⟨c, hc, hc'⟩
  · rw [hc] at hrun
    rw [hc']
    obtain rfl := Run.modify_eq_some.mp hrun
    exact ⟨_, rfl, { h with heaps := h.heaps.putPlain hc hc' v }⟩
  · rw [hc] at hrun
    rw [hc']
    dsimp only at hrun ⊢
    split
    · next heq =>
      rw [if_pos heq] at hrun
      exact Run.InStep.pure () h hrun
    · next hne =>
      rw [if_neg hne] at hrun
      have hfree : ∀ i, .watcher i ∈ .object o :: v.handles → ¬ s.Owns i := by
        intro i hi
        simp [Value.watcher_not_mem_handles] at hi
      have hobserve : Run.InStep (ρ := ρ) s ok
          (modify (World.mapHeap fun h : Heap κ => h.intercept c.hook [v]))
          (modify (World.mapHeap fun h => h.intercept c.hook [v])) :=
        .modify fun w w' h => { h with heaps := h.heaps.intercept c.hook [v] }
      have hstore : Run.InStep (ρ := ρ) s ok
          (modify (World.mapHeap fun h : Heap κ => h.store o key v))
          (modify (World.mapHeap fun h => h.store o key v)) :=
        .modify fun w w' h => { h with heaps := h.heaps.store o key v }
      exact hobserve.bind (fun _ => .bind (.holding hfree (he.tell c.hook rfl)) fun _ =>
        hstore.bind fun _ => he.notify o key) h hrun

/-! ## Events -/

theorem deliver (he : env.InStep s ok env') (event : Event) (l : Listener κ) :
    Run.InStep s ok (l.deliver env event) (l.deliver env' event) := by
  cases l with
  | writeBack data key =>
    unfold Listener.deliver
    cases event.value with
    | none => exact .pure _
    | some text =>
      dsimp only
      intro w w' r w₁ h hrun
      rw [Run.get_bind] at hrun ⊢
      rw [he.isAlive h]
      split
      · next halive =>
        rw [if_pos halive] at hrun
        exact Run.InStep.bind (he.write data key (.text text)) (fun _ => .pure _) h hrun
      · next halive =>
        rw [if_neg halive] at hrun
        exact Run.InStep.pure _ h hrun
  | callMethod data name method =>
    unfold Listener.deliver
    cases method with
    | none => exact .pure _
    | some code =>
      dsimp only
      intro w w' r w₁ h hrun
      rw [Run.get_bind] at hrun ⊢
      rw [he.isAlive h]
      split
      · next halive =>
        rw [if_pos halive] at hrun
        exact Run.InStep.holding (by simp) (he.calls code _ rfl) h hrun
      · next halive =>
        rw [if_neg halive] at hrun
        exact Run.InStep.pure _ h hrun
  | custom code => exact he.calls code _ rfl

theorem dispatch (he : env.InStep s ok env') (n : NodeId) (event : Event) :
    Run.InStep s ok (dispatch env n event) (dispatch env' n event) := by
  intro w w' r w₁ h hrun
  have hlisteners : w'.document.listenersFor n event.name =
      w.document.listenersFor n event.name := by
    unfold Document.listenersFor
    rw [h.documents.listeners n]
  show ∃ w₁', DataBinding.deliverAll env' (event.targeted (w'.document.content n))
    (w'.document.listenersFor n event.name) w' = some (r, w₁') ∧ _
  rw [hlisteners]
  by_cases hn : n.index < s.size
  · rw [← h.documents.content hn]
    exact Run.InStep.inTurn.deliverAll (he.deliver _) _ h hrun
  · -- a new node has no listeners that could hear what it holds
    have hnone : w.document.listenersFor n event.name = [] := by
      unfold Document.listenersFor
      rw [h.documents.left.listeners n (Nat.le_of_not_lt hn)]
      rfl
    have hrun : DataBinding.deliverAll env (event.targeted (w.document.content n))
      (w.document.listenersFor n event.name) w = some (r, w₁) := hrun
    rw [hnone] at hrun ⊢
    exact Run.InStep.pure _ h hrun

theorem enter (he : env.InStep s ok env') (n : NodeId) (text : String) :
    Run.InStep s ok (enter env n text) (enter env' n text) :=
  .bind (.modify fun _ _ h => { h with documents := h.documents.setValue n text })
    fun _ => he.dispatch n _

end Env.InStep

/-! ## User code -/

/-- Whether a request can be made without naming watchers of bindings, and leaves it to bindings
and inputs to change the document. -/
def Request.Discreet (mine : WatcherId → Prop) : Request κ α → Prop
  | .newObject | .newArray _ | .ofJson _ | .read _ _ | .write _ _ _ | .observe _ _
  | .watch _ _ _ | .render _ _ | .dispatch _ _ | .enter _ _ | .getProperty _ _
  | .setProperty _ _ _ | .callMethod _ _ _ => True
  | .update i => mine i
  | .newNode _ | .setAttribute _ _ _ | .setText _ _ | .setValue _ _ | .appendChildren _ _
  | .detachChildren _ | .listen _ _ _ | .bind _ _ _ _ | .compile _ _ | .mount _ _ _ => False

/-- What is known of the answer to a request: a watcher that one builds is one's own. -/
def Request.Gives (mine : WatcherId → Prop) : Request κ α → α → Prop
  | .watch _ _ _, i => mine i
  | _, _ => True

/-- Whether user code names only watchers that are its own, leaves it to bindings and inputs to
change the document, and never lets a watcher collect. It is judged for all states with `ok`, and
keeps to such states; its answers have `post`. -/
def Program.Discreet (mine : WatcherId → Prop) (ok : σ → Prop) {α : Type} :
    Program κ σ α → (α → Prop) → Prop
  | .done a, post => post a
  | .andThen p next, post => p.Discreet mine ok fun a => (next a).Discreet mine ok post
  | .ask q, post => q.Discreet mine ∧ ∀ a, post a
  | .request r, post => r.Discreet mine ∧ ∀ a, r.Gives mine a → post a
  | .getUser, post => ∀ u, ok u → post u
  | .updateUser f, post => (∀ u, ok u → ok (f u)) ∧ post ()
  | .holding handles p, post => (∀ i, .watcher i ∈ handles → mine i) ∧ p.Discreet mine ok post
  | .collecting _ _, _ => False

namespace Env.InStep

variable {s : Shuffle} {ok : σ → Prop} {env env' : Env κ (σ × ρ)}

theorem perform (he : env.InStep s ok env') {r : Request κ α}
    (hr : r.Discreet fun i => ¬ s.Owns i) : Run.InStep s ok (r.perform env) (r.perform env') := by
  cases r with
  | newObject =>
    refine .changing fun w w' h => ⟨?_, { h with heaps := h.heaps.alloc }⟩
    exact congrArg ObjectId.mk h.heaps.size_objects
  | newArray items =>
    refine .changing fun w w' h => ⟨?_, { h with heaps := h.heaps.allocArray items }⟩
    have harrays : w'.heap.arrays = w.heap.arrays := h.heaps.congr (f := Heap.arrays) fun _ => rfl
    exact congrArg (fun n => Value.array ⟨n⟩ items) harrays
  | ofJson j =>
    refine .changing fun w w' h => ⟨?_, { h with heaps := h.heaps.ofJson j }⟩
    exact h.heaps.congr (f := fun h => (h.ofJson j).1) fun h => by rw [Heap.nameless_ofJson]
  | read o key => exact he.read o key
  | write o key v => exact he.write o key v
  | observe hook v =>
    exact .modify fun w w' h => { h with heaps := h.heaps.intercept hook [v] }
  | watch expression o code => exact he.watch expression o code
  | update i => exact he.update hr
  | render t o => exact he.render t o
  | dispatch n event => exact he.dispatch n event
  | enter n text => exact he.enter n text
  | getProperty app key => exact Run.InStep.inTurn.getProperty (he.read app.data) key
  | setProperty app key v => exact Run.InStep.inTurn.setProperty (he.write app.data) key v
  | callMethod method data event => exact .holding (by simp) (he.calls method _ rfl)
  | _ => exact hr.elim

/-- A watcher that is built has a number that no watcher of a binding has. -/
theorem gives {r : Request κ α} {w w' w₁ : World κ (σ × ρ)} (h : Shuffled s ok w w') {a : α}
    (hrun : r.perform env w = some (a, w₁)) : r.Gives (fun i => ¬ s.Owns i) a := by
  cases r with
  | watch expression o code =>
    obtain ⟨_, _, hget, hrest⟩ := Run.bind_eq_some.mp hrun
    obtain ⟨rfl, rfl⟩ := Run.get_eq_some.mp hget
    obtain ⟨_, _, _, hrest⟩ := Run.bind_eq_some.mp hrest
    obtain ⟨_, _, _, hrest⟩ := Run.bind_eq_some.mp hrest
    obtain ⟨_, _, _, hrest⟩ := Run.bind_eq_some.mp hrest
    obtain ⟨rfl, _⟩ := Run.pure_eq_some.mp hrest
    exact fun hi => Nat.not_lt.mpr h.watchers.past_le hi.2
  | _ => trivial

/-- User code in step, with what is known of its answer. -/
theorem exec (he : env.InStep s ok env') {p : Program κ σ α} {post : α → Prop}
    (hp : p.Discreet (fun i => ¬ s.Owns i) ok post) :
    ∀ ⦃w w' a w₁⦄, Shuffled s ok w w' → (p.beside (ρ := ρ)).exec env w = some (a, w₁) →
      post a ∧ ∃ w₁', p.beside.exec env' w' = some (a, w₁') ∧ Shuffled s ok w₁ w₁' := by
  -- by induction on the program; what is known of an answer is what the rest may rely on
  induction p with
  | done a =>
    intro w w' b w₁ h hrun
    obtain ⟨rfl, rfl⟩ := Run.pure_eq_some.mp hrun
    exact ⟨hp, w', rfl, h⟩
  | andThen p next ihp ihn =>
    intro w w' b w₁ h hrun
    obtain ⟨a, w₂, hfirst, hrest⟩ := Run.bind_eq_some.mp hrun
    obtain ⟨ha, w₂', hfirst', h₂⟩ := ihp hp h hfirst
    obtain ⟨hb, w₁', hrest', h₁⟩ := ihn a ha h₂ hrest
    exact ⟨hb, w₁', Run.bind_eq_some.mpr ⟨a, w₂', hfirst', hrest'⟩, h₁⟩
  | ask q =>
    intro w w' a w₁ h hrun
    obtain ⟨rfl, rfl⟩ := Run.pure_eq_some.mp hrun
    refine ⟨hp.2 _, w', Run.pure_eq_some.mpr ⟨?_, rfl⟩, h⟩
    rw [← he.below.handles]
    exact h.answer_eq he.handles hp.1
  | request r =>
    intro w w' a w₁ h hrun
    exact ⟨hp.2 a (gives h hrun), he.perform hp.1 h hrun⟩
  | getUser =>
    intro w w' u w₁ h hrun
    obtain ⟨_, _, hget, hrest⟩ := Run.bind_eq_some.mp hrun
    obtain ⟨rfl, rfl⟩ := Run.pure_eq_some.mp hget
    obtain ⟨rfl, rfl⟩ := Run.pure_eq_some.mp hrest
    refine ⟨hp _ h.ok, w', ?_, h⟩
    exact Run.bind_eq_some.mpr ⟨w'.user, w', rfl, Run.pure_eq_some.mpr ⟨h.user, rfl⟩⟩
  | updateUser f =>
    intro w w' u w₁ h hrun
    obtain rfl := Run.modify_eq_some.mp hrun
    exact ⟨hp.2, _, rfl, { h with user := congrArg f h.user, ok := hp.1 _ h.ok }⟩
  | holding handles p ih =>
    intro w w' a w₁ h hrun
    have hstep : Run.InStep s ok (p.beside.exec env) (p.beside.exec env') :=
      fun _ _ _ _ h hrun => (ih hp.2 h hrun).2
    obtain ⟨w₂, hfirst, _⟩ := Run.holding_eq_some.mp hrun
    have hheld : Shuffled s ok { w with held := handles ++ w.held }
        { w' with held := handles ++ w'.held } :=
      { h with
        held := congrArg (handles ++ ·) h.held
        free := fun i hi => (List.mem_append.mp hi).elim (hp.1 i) (h.free i) }
    exact ⟨(ih hp.2 hheld hfirst).1, Run.InStep.holding hp.1 hstep h hrun⟩
  | collecting i p => exact hp.elim

end Env.InStep

/-- User code that is discreet is in step with itself at one level more, under hooks that take
notes. -/
theorem Host.inStep_env {host : Host κ σ}
    {hooks : κ → Occasion → Program κ (σ × ρ) (Except ViewError Unit)} {s : Shuffle}
    {ok : σ → Prop}
    (hhooks : ∀ code occasion, occasion.isAccess = true → (hooks code occasion).TakesNotes)
    (hbody : ∀ code occasion, occasion.isAccess = false →
      (host.body code occasion).Discreet (fun i => ¬ s.Owns i) ok fun _ => True)
    (hhandles : ∀ u, ok u → ∀ i, .watcher i ∈ host.handles u → ¬ s.Owns i) (depth : Nat) :
    ((host.beside hooks).env depth).InStep s ok ((host.beside hooks).env (depth + 1)) := by
  have hheld : s.Handles ok fun u : σ × ρ => host.handles u.1 :=
    ⟨fun _ _ h => congrArg host.handles h, fun u hu => hhandles u.1 hu⟩
  induction depth with
  | zero =>
    exact ⟨Host.env_below_succ _ 0, Host.hooksTakeNotes hhooks 0, hheld,
      fun code occasion _ _ _ _ _ _ hrun => absurd hrun (by simp [Host.env])⟩
  | succ depth ih =>
    refine ⟨Host.env_below_succ _ (depth + 1), Host.hooksTakeNotes hhooks (depth + 1), hheld,
      fun code occasion hon => ?_⟩
    have hbeside : (host.beside hooks).body code occasion = (host.body code occasion).beside :=
      if_neg (by simp [hon])
    show Run.InStep s ok (((host.beside hooks).body code occasion).exec _)
      (((host.beside hooks).body code occasion).exec _)
    rw [hbeside]
    exact fun _ _ _ _ h hrun => (ih.exec (hbody code occasion hon) h hrun).2

end DataBinding
