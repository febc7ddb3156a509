import DataBinding.Proofs.Effects
import DataBinding.Proofs.Orderly
import DataBinding.Proofs.Updates

/-!
# The lists of subscribers

In an exact world everybody in the list of a field is bound to that field and stands there once.
What a run does to the lists is said by `Enrolls`: they grow at their ends, by watchers that are
new, and a new watcher of a field that was reactive is in its list. A step in which no field
becomes reactive `Builds`; then it is the same whether a field was reactive before or is afterwards.
-/

namespace DataBinding

variable {κ σ : Type}

namespace World

/-- Everybody in the list of a field is bound to that field, stands there once, and nowhere else. -/
structure Exact (w : World κ σ) : Prop where
  bound : ∀ {o key i}, i ∈ w.heap.subscribers o key →
    ∃ x, w.watcher? i = some x ∧ x.data = o ∧ x.key = key
  once : ∀ o key, (w.heap.subscribers o key).Nodup
  alone : ∀ {o key p k i}, i ∈ w.heap.subscribers o key → i ∈ w.heap.subscribers p k →
    o = p ∧ key = k

/-- A watcher is bound to one field only. -/
theorem Exact.of_bound {w : World κ σ}
    (hbound : ∀ {o key i}, i ∈ w.heap.subscribers o key →
      ∃ x, w.watcher? i = some x ∧ x.data = o ∧ x.key = key)
    (honce : ∀ o key, (w.heap.subscribers o key).Nodup) : w.Exact := by
  refine ⟨hbound, honce, fun {o key p k i} hi hi' => ?_⟩
  obtain ⟨x, hx, hdata, hkey⟩ := hbound hi
  obtain ⟨y, hy, hdata', hkey'⟩ := hbound hi'
  obtain rfl := Option.some.inj (hx.symm.trans hy)
  exact ⟨hdata.symm.trans hdata', hkey.symm.trans hkey'⟩

/-- An exact world in which nobody collects. -/
structure InOrder (w : World κ σ) : Prop where
  current : w.current = none
  exact : w.Exact

/-- Nothing has happened to the lists, nor to what watchers are bound to. -/
structure SameLists (w w' : World κ σ) : Prop where
  size : w'.watchers.size = w.watchers.size
  bound : ∀ i, (w'.watcher? i).map (fun x => (x.data, x.key)) =
    (w.watcher? i).map fun x => (x.data, x.key)
  subscribers : ∀ o key, w'.heap.subscribers o key = w.heap.subscribers o key

/-- The lists have grown by new watchers, and those of reactive fields are in their lists. -/
structure Enrolls (w w' : World κ σ) : Prop where
  size : w.watchers.size ≤ w'.watchers.size
  watcher : ∀ {i x}, w.watcher? i = some x →
    ∃ y, w'.watcher? i = some y ∧ y.data = x.data ∧ y.key = x.key
  added : ∀ o key, ∃ late, w'.heap.subscribers o key = w.heap.subscribers o key ++ late ∧
    ∀ i ∈ late, w.watchers.size ≤ i.index
  reactive : ∀ {o key}, w.heap.isReactive o key = true → w'.heap.isReactive o key = true
  enrolled : ∀ {i x}, w'.watcher? i = some x → w.watchers.size ≤ i.index →
    w.heap.isReactive x.data x.key = true → i ∈ w'.heap.subscribers x.data x.key

/-- A step that enrolls and makes no field reactive. -/
structure Builds (w w' : World κ σ) : Prop where
  enrolls : w.Enrolls w'
  reactive : ∀ o key, w'.heap.isReactive o key = w.heap.isReactive o key

/-- A step that touches no list and makes no field reactive. -/
structure Keeps (w w' : World κ σ) : Prop where
  lists : w.SameLists w'
  reactive : ∀ o key, w'.heap.isReactive o key = w.heap.isReactive o key

variable {w w' : World κ σ}

namespace SameLists

theorem of_watchers (hwatchers : w'.watchers = w.watchers)
    (hsubscribers : ∀ o key, w'.heap.subscribers o key = w.heap.subscribers o key) :
    w.SameLists w' :=
  ⟨congrArg Table.size hwatchers, fun i => by rw [watcher?_of_watchers hwatchers], hsubscribers⟩

theorem trans {a b c : World κ σ} (hab : a.SameLists b) (hbc : b.SameLists c) : a.SameLists c :=
  ⟨hbc.size.trans hab.size, fun i => (hbc.bound i).trans (hab.bound i),
    fun o key => (hbc.subscribers o key).trans (hab.subscribers o key)⟩

theorem setLast (w : World κ σ) (i : WatcherId) (v : Value) : w.SameLists (w.setLast i v) := by
  refine ⟨by simp [World.setLast], fun j => ?_, fun _ _ => rfl⟩
  rw [watcher?_setLast]
  split
  · cases w.watcher? j <;> rfl
  · rfl

theorem watcher (h : w.SameLists w') {i : WatcherId} {x : Watcher κ} (hx : w.watcher? i = some x) :
    ∃ y, w'.watcher? i = some y ∧ y.data = x.data ∧ y.key = x.key := by
  have hbound := h.bound i
  rw [hx] at hbound
  obtain ⟨y, hy, heq⟩ := Option.map_eq_some_iff.mp hbound
  exact ⟨y, hy, (Prod.mk.inj heq).1, (Prod.mk.inj heq).2⟩

/-- Being exact is about the lists and what watchers are bound to, and nothing else. -/
theorem exact (h : w.SameLists w') (hw : w.Exact) : w'.Exact := by
  refine .of_bound (fun {o key i} hi => ?_) fun o key => ?_
  · rw [h.subscribers] at hi
    obtain ⟨x, hx, rfl, rfl⟩ := hw.bound hi
    exact h.watcher hx
  · rw [h.subscribers]
    exact hw.once o key

/-- Where no list changes, there are no new watchers either. -/
theorem enrolls (h : w.SameLists w')
    (hreactive : ∀ {o key}, w.heap.isReactive o key = true → w'.heap.isReactive o key = true) :
    w.Enrolls w' where
  size := Nat.le_of_eq h.size.symm
  watcher := h.watcher
  added o key := ⟨[], by rw [h.subscribers, List.append_nil], fun i hi => absurd hi (by simp)⟩
  reactive := hreactive
  enrolled hx hsize _ := by
    have := lt_size_of_watcher? hx
    have := h.size
    omega

end SameLists

theorem Exact.of_watchers (h : w.Exact) (hwatchers : w'.watchers = w.watchers)
    (hsubscribers : ∀ o key, w'.heap.subscribers o key = w.heap.subscribers o key) : w'.Exact :=
  (SameLists.of_watchers hwatchers hsubscribers).exact h

/-- New watchers stay new, and stay in their lists, through later steps. -/
theorem Enrolls.trans {a b c : World κ σ} (hab : a.Enrolls b) (hbc : b.Enrolls c) :
    a.Enrolls c := by
  have hsize := hab.size
  refine ⟨Nat.le_trans hsize hbc.size, ?_, ?_, fun h => hbc.reactive (hab.reactive h), ?_⟩
  · intro i x hx
    obtain ⟨y, hy, hdata, hkey⟩ := hab.watcher hx
    obtain ⟨z, hz, hdata', hkey'⟩ := hbc.watcher hy
    exact ⟨z, hz, hdata'.trans hdata, hkey'.trans hkey⟩
  · intro o key
    obtain ⟨late, hlate, hnew⟩ := hab.added o key
    obtain ⟨late', hlate', hnew'⟩ := hbc.added o key
    refine ⟨late ++ late', by rw [hlate', hlate, List.append_assoc], fun i hi => ?_⟩
    rcases List.mem_append.mp hi with hi | hi
    · exact hnew i hi
    · exact Nat.le_trans hsize (hnew' i hi)
  · intro i z hz hnew hreactive
    cases hy : b.watcher? i with
    | none =>
      -- built in the second step
      have := Table.find?_eq_none_iff.mp hy
      exact hbc.enrolled hz (by omega) (hab.reactive hreactive)
    | some y =>
      -- built in the first step, and the list has only grown since
      obtain ⟨z', hz', hdata, hkey⟩ := hbc.watcher hy
      obtain rfl := Option.some.inj (hz.symm.trans hz')
      rw [hdata, hkey] at hreactive ⊢
      obtain ⟨late, hlate, _⟩ := hbc.added y.data y.key
      rw [hlate]
      exact List.mem_append_left _ (hab.enrolled hy hnew hreactive)

theorem carried_enrolls : Carried (Enrolls (κ := κ) (σ := σ)) where
  refl _ := (SameLists.of_watchers rfl fun _ _ => rfl).enrolls id
  trans _ _ _ := .trans
  hold h := ⟨h.size, h.watcher, h.added, h.reactive, h.enrolled⟩

theorem carried_builds : Carried (Builds (κ := κ) (σ := σ)) where
  refl w := ⟨carried_enrolls.refl w, fun _ _ => rfl⟩
  trans _ _ _ hab hbc := ⟨hab.enrolls.trans hbc.enrolls,
    fun o key => (hbc.reactive o key).trans (hab.reactive o key)⟩
  hold h := ⟨carried_enrolls.hold h.enrolls, h.reactive⟩

theorem carried_keeps : Carried (Keeps (κ := κ) (σ := σ)) where
  refl _ := ⟨.of_watchers rfl fun _ _ => rfl, fun _ _ => rfl⟩
  trans _ _ _ hab hbc := ⟨hab.lists.trans hbc.lists,
    fun o key => (hbc.reactive o key).trans (hab.reactive o key)⟩
  hold h := ⟨⟨h.lists.size, h.lists.bound, h.lists.subscribers⟩, h.reactive⟩

/-- A step that keeps everything builds nothing, which is the least a step can build. -/
theorem Keeps.builds (h : w.Keeps w') : w.Builds w' :=
  ⟨h.lists.enrolls fun hreactive => (h.reactive _ _).trans hreactive, h.reactive⟩

/-! ## A new watcher -/

/-- A new watcher joins the list of its own field, if that one is reactive. -/
theorem cell?_watching (o : ObjectId) (w : World κ σ) (watch : String × Reaction κ)
    (p : ObjectId) (key : String) :
    (watching o w watch).heap.cell? p key = (w.heap.cell? p key).map fun c =>
      { c with subscribers :=
        c.subscribers ++ if p = o ∧ key = watch.1 then [⟨w.watchers.size⟩] else [] } := by
  show ((w.heap.subscribe o watch.1 ⟨w.watchers.size⟩).cell? p key) = _
  rw [Heap.cell?_subscribe]
  split
  · rfl
  · cases w.heap.cell? p key <;> simp

theorem isReactive_watching (o : ObjectId) (w : World κ σ) (watch : String × Reaction κ)
    (p : ObjectId) (key : String) :
    (watching o w watch).heap.isReactive p key = w.heap.isReactive p key := by
  unfold Heap.isReactive
  rw [cell?_watching, Option.isSome_map]

/-- A list has at most the new watcher more, and that if it is the list of its own field. -/
theorem subscribers_watching (o : ObjectId) (w : World κ σ) (watch : String × Reaction κ)
    (p : ObjectId) (key : String) :
    (watching o w watch).heap.subscribers p key = w.heap.subscribers p key ++
      if w.heap.isReactive p key = true ∧ p = o ∧ key = watch.1 then [⟨w.watchers.size⟩]
      else [] := by
  unfold Heap.subscribers Heap.isReactive
  rw [cell?_watching]
  cases w.heap.cell? p key <;> simp

/-- The new watcher comes after all others and has seen the value at its key. -/
theorem watcher?_watching (o : ObjectId) (w : World κ σ) (watch : String × Reaction κ)
    (i : WatcherId) :
    (watching o w watch).watcher? i =
      if i = ⟨w.watchers.size⟩ then
        some { key := watch.1, data := o, last := w.heap.peek o watch.1, reaction := watch.2 }
      else w.watcher? i :=
  watcher?_push w _ i

theorem watcher?_watching_of_lt (o : ObjectId) (watch : String × Reaction κ) {i : WatcherId}
    (hi : i.index < w.watchers.size) : (watching o w watch).watcher? i = w.watcher? i := by
  rw [watcher?_watching, if_neg]
  rintro rfl
  exact Nat.lt_irrefl _ hi

/-- Building one watcher. -/
theorem builds_watching (o : ObjectId) (w : World κ σ) (watch : String × Reaction κ) :
    w.Builds (watching o w watch) := by
  refine ⟨⟨?_, ?_, ?_, ?_, ?_⟩, isReactive_watching o w watch⟩
  · show _ ≤ (w.watchers.push _).size
    rw [Table.size_push]
    omega
  · intro i x hx
    exact ⟨x, (watcher?_watching_of_lt o watch (lt_size_of_watcher? hx)).trans hx, rfl, rfl⟩
  · intro p key
    refine ⟨_, subscribers_watching o w watch p key, fun i hi => ?_⟩
    split at hi
    · rw [List.mem_singleton.mp hi]
    · cases hi
  · intro p key hreactive
    rw [isReactive_watching]
    exact hreactive
  · intro i x hx hnew hreactive
    rw [watcher?_watching] at hx
    split at hx
    · next hi =>
      obtain rfl := Option.some.inj hx
      rw [subscribers_watching, if_pos ⟨hreactive, rfl, rfl⟩, hi]
      exact List.mem_append_right _ List.mem_cons_self
    · have := lt_size_of_watcher? hx
      omega

/-- A new watcher joins only the list of the field that it is bound to. -/
theorem Exact.watching (h : w.Exact) (o : ObjectId) (watch : String × Reaction κ) :
    (World.watching o w watch).Exact := by
  have hold : ∀ {p key i}, i ∈ w.heap.subscribers p key → i.index < w.watchers.size :=
    fun hi => by
      obtain ⟨x, hx, _⟩ := h.bound hi
      exact lt_size_of_watcher? hx
  refine .of_bound (fun {p key i} hi => ?_) fun p key => ?_
  · rw [subscribers_watching] at hi
    rcases List.mem_append.mp hi with hi | hi
    · rw [watcher?_watching_of_lt o watch (hold hi)]
      exact h.bound hi
    · split at hi
      · next hfield =>
        rw [List.mem_singleton.mp hi, watcher?_watching, if_pos rfl]
        exact ⟨_, rfl, hfield.2.1.symm, hfield.2.2.symm⟩
      · cases hi
  · rw [subscribers_watching]
    refine List.nodup_append.mpr ⟨h.once p key, ?_, ?_⟩
    · split <;> simp
    · intro i hi j hj hij
      split at hj
      · have hlt := hold hi
        rw [hij, List.mem_singleton.mp hj] at hlt
        exact Nat.lt_irrefl _ hlt
      · cases hj

/-! ## New watchers in a row -/

theorem size_watching (o : ObjectId) (w : World κ σ) (watch : String × Reaction κ) :
    (watching o w watch).watchers.size = w.watchers.size + 1 :=
  Table.size_push _ _

/-- Building several watchers. -/
theorem builds_watchingAll (o : ObjectId) (w : World κ σ) (watches : List (String × Reaction κ)) :
    w.Builds (w.watchingAll o watches) := by
  induction watches generalizing w with
  | nil => exact carried_builds.refl w
  | cons watch rest ih =>
    exact carried_builds.trans _ _ _ (builds_watching o w watch) (ih (watching o w watch))

theorem Exact.watchingAll (h : w.Exact) (o : ObjectId) (watches : List (String × Reaction κ)) :
    (w.watchingAll o watches).Exact := by
  induction watches generalizing w with
  | nil => exact h
  | cons watch rest ih => exact ih (h.watching o watch)

/-- The new watchers come after the old ones, in order. -/
theorem watcher?_watchingAll (o : ObjectId) (w : World κ σ) (watches : List (String × Reaction κ))
    (i : WatcherId) :
    (w.watchingAll o watches).watcher? i =
      if i.index < w.watchers.size then w.watcher? i
      else watches[i.index - w.watchers.size]?.map fun watch =>
        { key := watch.1, data := o, last := w.heap.peek o watch.1, reaction := watch.2 } := by
  induction watches generalizing w with
  | nil =>
    split
    · rfl
    · next hlate => exact Table.find?_eq_none_iff.mpr (Nat.le_of_not_lt hlate)
  | cons watch rest ih =>
    have hpeek : ∀ key, (watching o w watch).heap.peek o key = w.heap.peek o key := fun key =>
      peek_watchingAll w o [watch] o key
    refine (ih (watching o w watch)).trans ?_
    rw [size_watching]
    by_cases hold : i.index < w.watchers.size
    · rw [if_pos hold, if_pos (by omega), watcher?_watching_of_lt o watch hold]
    · rw [if_neg hold]
      by_cases hnew : i = ⟨w.watchers.size⟩
      · subst hnew
        rw [if_pos (Nat.lt_succ_self _), watcher?_watching, if_pos rfl, Nat.sub_self]
        rfl
      · have hlate : w.watchers.size + 1 ≤ i.index := by
          have : i.index ≠ w.watchers.size := fun heq => hnew (congrArg WatcherId.mk heq)
          omega
        obtain ⟨k, hk⟩ : ∃ k, i.index - w.watchers.size = k + 1 :=
          ⟨i.index - w.watchers.size - 1, by omega⟩
        have hk' : i.index - (w.watchers.size + 1) = k := by omega
        rw [if_neg (by omega), hk, hk', List.getElem?_cons_succ]
        simp only [hpeek]

/-- A watcher that is there afterwards was there before or is one of the new ones. -/
theorem of_watcher?_watchingAll {o : ObjectId} {watches : List (String × Reaction κ)}
    {i : WatcherId} {x : Watcher κ} (hx : (w.watchingAll o watches).watcher? i = some x) :
    w.watcher? i = some x ∨ w.watchers.size ≤ i.index ∧ (x.key, x.reaction) ∈ watches ∧
      x.data = o ∧ x.last = w.heap.peek o x.key := by
  rw [watcher?_watchingAll] at hx
  split at hx
  · exact .inl hx
  · next hlate =>
    obtain ⟨watch, hwatch, rfl⟩ := Option.map_eq_some_iff.mp hx
    exact .inr ⟨Nat.le_of_not_lt hlate, List.mem_of_getElem? hwatch, rfl, rfl⟩

theorem watcher?_watchingAll_of_some {o : ObjectId} {i : WatcherId} {x : Watcher κ}
    (hx : w.watcher? i = some x) (watches : List (String × Reaction κ)) :
    (w.watchingAll o watches).watcher? i = some x := by
  rw [watcher?_watchingAll, if_pos (lt_size_of_watcher? hx), hx]

/-- Everybody who was asked for is there. -/
theorem exists_watcher?_watchingAll (o : ObjectId) (w : World κ σ)
    {watches : List (String × Reaction κ)} {watch : String × Reaction κ} (h : watch ∈ watches) :
    ∃ i x, (w.watchingAll o watches).watcher? i = some x ∧ (x.key, x.reaction) = watch := by
  obtain ⟨k, hk⟩ := List.getElem?_of_mem h
  refine ⟨⟨w.watchers.size + k⟩,
    { key := watch.1, data := o, last := w.heap.peek o watch.1, reaction := watch.2 }, ?_, rfl⟩
  rw [watcher?_watchingAll, if_neg (by simp), Nat.add_sub_cancel_left, hk]
  rfl

end World

end DataBinding
