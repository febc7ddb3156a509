import DataBinding.Proofs.DocumentOrder
import DataBinding.Proofs.Enrolling
import DataBinding.Proofs.Grounding
import DataBinding.Proofs.Lockstep
import Mathlib.Data.List.Nodup
import Mathlib.Data.List.Perm.Basic
import Mathlib.Logic.Equiv.Basic

/-!
# The order of bindings

Bindings of different nodes to the same data can be made in any order. Whatever is done afterwards
goes the same way: the same answers, the same data, the same nodes, and the same callbacks and
methods in the same order. User code may have been watching before and may go on to watch, and its
callbacks may do as they like with the data.

Right after the bindings are made, the worlds of two orders are shuffled: there is a permutation of
the bindings' watchers that takes what one order has built to what the other one has. From there on
the two runs are in step.
-/

namespace DataBinding

variable {κ σ ρ : Type}

/-! ## Numbers of what has changed places -/

/-- A permutation moved up above the numbers below `n`, which stay where they are. -/
def movedUp (n : Nat) (π : Equiv.Perm Nat) : Equiv.Perm Nat where
  toFun k := if k < n then k else n + π (k - n)
  invFun k := if k < n then k else n + π.symm (k - n)
  left_inv k := by
    dsimp only
    by_cases hk : k < n
    · simp [hk]
    · rw [if_neg hk, if_neg (by omega), Nat.add_sub_cancel_left, Equiv.symm_apply_apply]
      omega
  right_inv k := by
    dsimp only
    by_cases hk : k < n
    · simp [hk]
    · rw [if_neg hk, if_neg (by omega), Nat.add_sub_cancel_left, Equiv.apply_symm_apply]
      omega

theorem movedUp_of_lt {n k : Nat} (π : Equiv.Perm Nat) (hk : k < n) : movedUp n π k = k :=
  if_pos hk

theorem movedUp_add (n : Nat) (π : Equiv.Perm Nat) (j : Nat) : movedUp n π (n + j) = n + π j := by
  show (if n + j < n then n + j else n + π (n + j - n)) = _
  rw [if_neg (by omega), Nat.add_sub_cancel_left]

/-- The entries of a list that is put in another order get other numbers. -/
theorem exists_numbering {α : Type} {l l' : List α} (h : l.Perm l') :
    ∃ π : Equiv.Perm Nat, (∀ j, l'[π j]? = l[j]?) ∧ ∀ j, l.length ≤ j → π j = j := by
  induction h with
  | nil => exact ⟨Equiv.refl _, fun _ => rfl, fun _ _ => rfl⟩
  | cons a _ ih =>
    obtain ⟨π, hget, hfix⟩ := ih
    refine ⟨movedUp 1 π, fun j => ?_, fun j hj => ?_⟩
    · cases j with
      | zero => rw [movedUp_of_lt π Nat.one_pos]; rfl
      | succ j =>
        rw [Nat.add_comm j 1, movedUp_add, Nat.add_comm, Nat.add_comm 1 j,
          List.getElem?_cons_succ, List.getElem?_cons_succ, hget]
    · cases j with
      | zero => exact absurd hj (by simp)
      | succ j =>
        rw [Nat.add_comm j 1, movedUp_add, hfix j (by simpa using hj)]
  | swap a b l =>
    refine ⟨Equiv.swap 0 1, fun j => ?_, fun j hj => ?_⟩
    · match j with
      | 0 => rw [Equiv.swap_apply_left]; rfl
      | 1 => rw [Equiv.swap_apply_right]; rfl
      | j + 2 => rw [Equiv.swap_apply_of_ne_of_ne (by omega) (by omega)]; rfl
    · simp only [List.length_cons] at hj
      exact Equiv.swap_apply_of_ne_of_ne (by omega) (by omega)
  | trans h₁ h₂ ih₁ ih₂ =>
    obtain ⟨π₁, hget₁, hfix₁⟩ := ih₁
    obtain ⟨π₂, hget₂, hfix₂⟩ := ih₂
    refine ⟨π₁.trans π₂, fun j => ?_, fun j hj => ?_⟩
    · rw [Equiv.trans_apply, hget₂, hget₁]
    · rw [Equiv.trans_apply, hfix₁ j hj, hfix₂ j (h₁.length_eq ▸ hj)]

/-! ## Bindings -/

/-- A binding with what it is made with. -/
structure Fitting (κ : Type) extends Binding where
  kit : Kit κ

namespace Fitting

/-- The request for a binding. -/
def request (b : Fitting κ) : Request κ Unit := .bind b.directive b.node b.expression b.kit

/-- The watchers that a binding builds. -/
def watches (b : Fitting κ) : List (String × Reaction κ) :=
  b.directive.watches b.kit b.node b.expression

/-- What a binding draws when it is made. -/
def drawing (h : Heap κ) (b : Fitting κ) : Drawing κ :=
  match b.directive with
  | .model =>
    let key := Text.trim b.expression
    (Drawing.listen b.node "input" (.writeBack b.kit.data key)).andThen
      (.value b.node (h.text (h.peek b.kit.data key)))
  | .text => .text b.node (b.kit.textFor h b.expression)
  | .on event =>
    let name := Text.trim b.expression
    .listen b.node event (.callMethod b.kit.data name (b.kit.methods.find? name))

theorem draw_drawing (h : Heap κ) (b : Fitting κ) (d : Document κ) :
    (b.drawing h).draw d = b.directive.mark b.kit h b.node b.expression d := by
  obtain ⟨⟨n, directive, expression⟩, kit⟩ := b
  cases directive <;> rfl

@[simp] theorem node_drawing (h : Heap κ) (b : Fitting κ) : (b.drawing h).node = b.node := by
  obtain ⟨⟨n, directive, expression⟩, kit⟩ := b
  cases directive <;> rfl

theorem drawing_congr {h h' : Heap κ} (hh : h.Agrees h') (b : Fitting κ) :
    b.drawing h = b.drawing h' := by
  obtain ⟨⟨n, directive, expression⟩, kit⟩ := b
  cases directive with
  | model => simp only [drawing, hh.1, hh.2]
  | text => simp only [drawing, hh.textFor]
  | on event => rfl

theorem proper_drawing {b : Fitting κ} {size : Nat} (hb : b.node.index < size) (h : Heap κ) :
    (b.drawing h).Proper size := by
  obtain ⟨⟨n, directive, expression⟩, kit⟩ := b
  cases directive with
  | model => exact (Drawing.proper_listen hb _ _).andThen (Drawing.proper_value hb _) rfl
  | text => exact Drawing.proper_text hb _
  | on event => exact Drawing.proper_listen hb _ _

/-- The watchers of a binding show something at its node. -/
theorem node?_of_mem_watches {b : Fitting κ} {watch : String × Reaction κ}
    (hwatch : watch ∈ b.watches) : watch.2.node? = some b.node := by
  obtain ⟨⟨n, directive, expression⟩, kit⟩ := b
  unfold watches Directive.watches at hwatch
  cases directive with
  | model =>
    rw [List.mem_singleton.mp hwatch]
    rfl
  | text =>
    dsimp only at hwatch
    split at hwatch
    · obtain ⟨key, _, rfl⟩ := List.mem_map.mp hwatch
      rfl
    · rw [List.mem_singleton.mp hwatch]
      rfl
  | on event => cases hwatch

/-- The watchers of a binding all draw the same. -/
theorem drawing?_of_mem_watches {b : Fitting κ} {watch watch' : String × Reaction κ}
    (hwatch : watch ∈ b.watches) (hwatch' : watch' ∈ b.watches) (h : Heap κ) (o : ObjectId)
    (last last' : Value) :
    Watcher.drawing? h { key := watch.1, data := o, last, reaction := watch.2 } =
      Watcher.drawing? h { key := watch'.1, data := o, last := last', reaction := watch'.2 } := by
  obtain ⟨⟨n, directive, expression⟩, kit⟩ := b
  unfold watches Directive.watches at hwatch hwatch'
  cases directive with
  | model =>
    rw [List.mem_singleton.mp hwatch, List.mem_singleton.mp hwatch']
    rfl
  | text =>
    dsimp only at hwatch hwatch'
    split at hwatch
    · next hmarkers =>
      -- a template is rendered anew whichever of its keys has changed
      rw [if_pos hmarkers] at hwatch'
      obtain ⟨key, _, rfl⟩ := List.mem_map.mp hwatch
      obtain ⟨key', _, rfl⟩ := List.mem_map.mp hwatch'
      rfl
    · next hmarkers =>
      rw [if_neg hmarkers] at hwatch'
      rw [List.mem_singleton.mp hwatch, List.mem_singleton.mp hwatch']
      rfl
  | on event => cases hwatch

end Fitting

/-! ## What bindings leave behind -/

/-- What a binding does if nobody is collecting. -/
theorem Directive.effect_of_current_eq_none {w : World κ σ} (hcur : w.current = none)
    (kit : Kit κ) (n : NodeId) (expression : String) (d : Directive) :
    d.effect kit n expression w =
      { w.watchingAll kit.data (d.watches kit n expression) with
        document := d.mark kit w.heap n expression w.document } := by
  unfold Directive.effect
  rw [Directive.wired_of_current_eq_none hcur]

/-- Bindings have been made one after the other. -/
def World.bound (w : World κ σ) (o : ObjectId) (bs : List (Fitting κ)) : World κ σ :=
  { w.watchingAll o (bs.flatMap Fitting.watches) with
    document := Drawing.drawAll (bs.map (Fitting.drawing w.heap)) w.document }

theorem Env.HooksTakeNotes.requestAll_eq {env : Env κ (σ × ρ)} (h : env.HooksTakeNotes)
    {o : ObjectId} (bs : List (Fitting κ)) (hdata : ∀ b ∈ bs, b.kit.data = o)
    {w : World κ (σ × ρ)} (hcur : w.current = none) : ∃ answers, ∃ user : σ × ρ,
    user.1 = w.user.1 ∧
    (Program.requestAll (bs.map Fitting.request)).exec env w =
      some (answers, { w.bound o bs with user }) := by
  induction bs generalizing w with
  | nil => exact ⟨[], w.user, rfl, rfl⟩
  | cons b rest ih =>
    obtain rfl := hdata b List.mem_cons_self
    obtain ⟨user₁, hsame₁, hbind⟩ := h.bind_eq w b.node b.expression b.kit b.directive
    rw [Directive.effect_of_current_eq_none hcur, ← b.draw_drawing] at hbind
    let w₁ : World κ (σ × ρ) :=
      { w.watchingAll b.kit.data b.watches with
        document := (b.drawing w.heap).draw w.document
        user := user₁ }
    have hagrees : w₁.heap.Agrees w.heap := w.agrees_watchingAll b.kit.data b.watches
    obtain ⟨answers, user, hsame, hrest⟩ := ih (w := w₁)
      (fun b' hb' => hdata b' (List.mem_cons_of_mem _ hb'))
      ((World.current_watchingAll _ _ _).trans hcur)
    refine ⟨() :: answers, user, hsame.trans hsame₁, Run.bind_eq_some.mpr ⟨(), w₁, hbind, ?_⟩⟩
    refine Run.bind_eq_some.mpr ⟨answers, _, hrest, ?_⟩
    -- the later bindings draw what they would have drawn before the first one
    have hdrawings : rest.map (Fitting.drawing w₁.heap) = rest.map (Fitting.drawing w.heap) :=
      List.map_congr_left fun b' _ => b'.drawing_congr hagrees
    have hwatching : w₁.watchingAll b.kit.data (rest.flatMap Fitting.watches) =
        { w.watchingAll b.kit.data ((b :: rest).flatMap Fitting.watches) with
          document := (b.drawing w.heap).draw w.document
          user := user₁ } := by
      rw [List.flatMap_cons, ← World.watchingAll_append]
      refine (World.watchingAll_user { w.watchingAll b.kit.data b.watches with
        document := (b.drawing w.heap).draw w.document } _ _ user₁).trans ?_
      rw [World.watchingAll_document]
    have hbound : w₁.bound b.kit.data rest =
        { w.bound b.kit.data (b :: rest) with user := user₁ } := by
      unfold World.bound
      rw [hdrawings, hwatching]
      rfl
    rw [hbound]
    rfl

namespace World

variable {w : World κ σ} {o : ObjectId}

/-- The watchers among those to be built, numbered from `first` on, that subscribe to a key. -/
def newcomers (key : String) : Nat → List (String × Reaction κ) → List WatcherId
  | _, [] => []
  | first, watch :: rest =>
    if watch.1 = key then ⟨first⟩ :: newcomers key (first + 1) rest
    else newcomers key (first + 1) rest

theorem mem_newcomers {key : String} {i : WatcherId} {first : Nat}
    {watches : List (String × Reaction κ)} : i ∈ newcomers key first watches ↔
      first ≤ i.index ∧ (watches[i.index - first]?).map Prod.fst = some key := by
  induction watches generalizing first with
  | nil => simp [newcomers]
  | cons watch rest ih =>
    obtain ⟨k⟩ := i
    unfold newcomers
    have hhead : (⟨k⟩ : WatcherId) ∈ (if watch.1 = key then
        ⟨first⟩ :: newcomers key (first + 1) rest else newcomers key (first + 1) rest) ↔
          (k = first ∧ watch.1 = key) ∨ ⟨k⟩ ∈ newcomers key (first + 1) rest := by
      split <;> simp_all
    rw [hhead, ih]
    dsimp only
    rcases Nat.lt_trichotomy k first with hk | rfl | hk
    · omega
    · simp
    · have hsub : k - first = (k - (first + 1)) + 1 := by omega
      rw [hsub, List.getElem?_cons_succ]
      constructor
      · rintro (⟨rfl, _⟩ | ⟨_, hget⟩)
        · exact absurd hk (Nat.lt_irrefl _)
        · exact ⟨Nat.le_of_lt hk, hget⟩
      · exact fun h => .inr ⟨hk, h.2⟩

theorem nodup_newcomers (key : String) (first : Nat) (watches : List (String × Reaction κ)) :
    (newcomers key first watches).Nodup := by
  induction watches generalizing first with
  | nil => exact .nil
  | cons watch rest ih =>
    unfold newcomers
    split
    · refine List.nodup_cons.mpr ⟨fun hmem => ?_, ih (first + 1)⟩
      exact Nat.not_succ_le_self first (mem_newcomers.mp hmem).1
    · exact ih (first + 1)

/-- In another order, the same watchers subscribe to a key under their other numbers. -/
theorem perm_newcomers {watches watches' : List (String × Reaction κ)} {π : Equiv.Perm Nat}
    (hget : ∀ j, watches'[π j]? = watches[j]?) (first : Nat) (key : String) :
    (newcomers key first watches').Perm
      ((newcomers key first watches).map fun i => ⟨movedUp first π i.index⟩) := by
  have hnumber : ∀ j, ⟨first + π j⟩ ∈ newcomers key first watches' ↔
      ⟨first + j⟩ ∈ newcomers key first watches := by
    intro j
    rw [mem_newcomers, mem_newcomers]
    simp [hget]
  have hinjective : Function.Injective
      fun i : WatcherId => (⟨movedUp first π i.index⟩ : WatcherId) := fun i j hij =>
    congrArg WatcherId.mk ((movedUp first π).injective (WatcherId.mk.inj hij))
  -- both lists have the same watchers, each of them once
  refine (List.perm_ext_iff_of_nodup (nodup_newcomers _ _ _)
    ((nodup_newcomers _ _ _).map hinjective)).mpr fun i => ?_
  rw [List.mem_map]
  constructor
  · intro hi
    obtain ⟨j, hj⟩ := Nat.exists_eq_add_of_le (mem_newcomers.mp hi).1
    obtain rfl : i = ⟨first + j⟩ := congrArg WatcherId.mk hj
    refine ⟨⟨first + π.symm j⟩, (hnumber _).mp ?_, ?_⟩
    · rwa [Equiv.apply_symm_apply]
    · refine congrArg WatcherId.mk ((movedUp_add _ _ _).trans ?_)
      rw [Equiv.apply_symm_apply]
  · rintro ⟨k, hk, rfl⟩
    obtain ⟨j, hj⟩ := Nat.exists_eq_add_of_le (mem_newcomers.mp hk).1
    obtain rfl : k = ⟨first + j⟩ := congrArg WatcherId.mk hj
    dsimp only
    rw [movedUp_add]
    exact (hnumber j).mpr hk

theorem subscribers_watchingAll (w : World κ σ) (o : ObjectId)
    (watches : List (String × Reaction κ)) (p : ObjectId) (key : String) :
    (w.watchingAll o watches).heap.subscribers p key = w.heap.subscribers p key ++
      if p = o ∧ w.heap.isReactive p key = true then newcomers key w.watchers.size watches
      else [] := by
  induction watches generalizing w with
  | nil => simp [watchingAll, newcomers]
  | cons watch rest ih =>
    refine (ih (watching o w watch)).trans ?_
    rw [size_watching, isReactive_watching, subscribers_watching, List.append_assoc]
    congr 1
    by_cases hp : p = o ∧ w.heap.isReactive p key = true
    · rw [if_pos hp, if_pos hp, newcomers]
      by_cases hk : watch.1 = key
      · rw [if_pos ⟨hp.2, hp.1, hk.symm⟩, if_pos hk]
        rfl
      · rw [if_neg fun h => hk h.2.2.symm, if_neg hk]
        rfl
    · rw [if_neg hp, if_neg hp, if_neg fun h => hp ⟨h.2.1, h.1⟩]
      rfl

theorem size_watchingAll (w : World κ σ) (o : ObjectId) (watches : List (String × Reaction κ)) :
    (w.watchingAll o watches).watchers.size = w.watchers.size + watches.length := by
  induction watches generalizing w with
  | nil => rfl
  | cons watch rest ih =>
    refine (ih (watching o w watch)).trans ?_
    rw [size_watching, List.length_cons]
    omega

theorem find?_watchingAll (w : World κ σ) (o : ObjectId) (watches : List (String × Reaction κ))
    (k : Nat) : (w.watchingAll o watches).watchers.find? k =
      if k < w.watchers.size then w.watchers.find? k
      else (watches[k - w.watchers.size]?).map fun watch =>
        { key := watch.1, data := o, last := w.heap.peek o watch.1, reaction := watch.2 } :=
  watcher?_watchingAll o w watches ⟨k⟩

/-- Without names, it is all the same in which order watchers subscribe. -/
theorem nameless_watchingAll (w : World κ σ) (o : ObjectId)
    (watches : List (String × Reaction κ)) : (w.watchingAll o watches).heap.nameless =
      watches.foldl (fun h watch => h.subscribe o watch.1 ⟨0⟩) w.heap.nameless := by
  induction watches generalizing w with
  | nil => rfl
  | cons watch rest ih =>
    refine (ih (watching o w watch)).trans ?_
    rw [List.foldl_cons]
    congr 1
    exact w.heap.nameless_subscribe o watch.1 _

end World

theorem Heap.subscribe_comm (h : Heap κ) (o : ObjectId) (key key' : String) (i : WatcherId) :
    (h.subscribe o key i).subscribe o key' i = (h.subscribe o key' i).subscribe o key i := by
  by_cases hkeys : key = key'
  · rw [hkeys]
  have hobjects : ((h.subscribe o key i).subscribe o key' i).objects =
      ((h.subscribe o key' i).subscribe o key i).objects := by
    unfold subscribe modifyCell modifySlots
    dsimp only
    rw [Table.modify_modify, Table.modify_modify]
    congr 1
    funext slots
    apply OrderedMap.ext
    simp only [Function.comp_apply, OrderedMap.modify, OrderedMap.mapValues, Entries.mapValues,
      List.map_map]
    refine List.map_congr_left fun entry _ => ?_
    simp only [Function.comp_apply]
    by_cases hk : entry.1 = key
    · simp [hk, hkeys]
    · simp [hk]
  exact congrArg (fun objects => ({ objects, arrays := h.arrays } : Heap κ)) hobjects

/-! ## Two orders -/

/-- Whether a watcher is none of those that bindings will build. -/
def World.Spares (w : World κ σ) (bs : List (Fitting κ)) (i : WatcherId) : Prop :=
  ¬ (w.watchers.size ≤ i.index ∧
    i.index < w.watchers.size + (bs.flatMap Fitting.watches).length)

section

variable {w : World κ (σ × ρ)} {o : ObjectId} {bs bs' : List (Fitting κ)}

/-- How the watchers of bindings are numbered in two orders. -/
def shuffleOf (w : World κ (σ × ρ)) (o : ObjectId) (bs : List (Fitting κ)) (π : Equiv.Perm Nat)
    (hπ : ∀ j, (bs.flatMap Fitting.watches).length ≤ j → π j = j) : Shuffle where
  first := w.watchers.size
  past := w.watchers.size + (bs.flatMap Fitting.watches).length
  perm := movedUp w.watchers.size π
  fixed k hk := by
    by_cases hlt : k < w.watchers.size
    · exact movedUp_of_lt π hlt
    · obtain ⟨j, rfl⟩ := Nat.exists_eq_add_of_le (Nat.le_of_not_lt hlt)
      rw [movedUp_add, hπ j (by omega)]
  data := o
  size := w.document.size

variable {π : Equiv.Perm Nat} {hπ : ∀ j, (bs.flatMap Fitting.watches).length ≤ j → π j = j}

theorem not_owns_of_lt {i : WatcherId} (hi : i.index < w.watchers.size) :
    ¬ (shuffleOf w o bs π hπ).Owns i :=
  fun hown => Nat.not_lt.mpr hown.1 hi

/-- The watchers of bindings have subscribed in two orders. -/
theorem heaps_bound (hw : w.Grounded) (hperm : bs.Perm bs')
    (hget : ∀ j, (bs'.flatMap Fitting.watches)[π j]? = (bs.flatMap Fitting.watches)[j]?) :
    (shuffleOf w o bs π hπ).Heaps (w.bound o bs).heap (w.bound o bs').heap := by
  have hwatches : (bs.flatMap Fitting.watches).Perm (bs'.flatMap Fitting.watches) :=
    hperm.flatMap fun _ _ => .refl _
  have hold : ∀ p key i, i ∈ w.heap.subscribers p key → ¬ (shuffleOf w o bs π hπ).Owns i := by
    intro p key i hi
    exact not_owns_of_lt (hw.wired.lt_size hi)
  have hown : ∀ key i, i ∈ World.newcomers key w.watchers.size (bs.flatMap Fitting.watches) →
      (shuffleOf w o bs π hπ).Owns i := by
    intro key i hi
    obtain ⟨hle, hget⟩ := World.mem_newcomers.mp hi
    obtain ⟨watch, hwatch, _⟩ := Option.map_eq_some_iff.mp hget
    have hlt := (List.getElem?_eq_some_iff.mp hwatch).1
    exact ⟨hle, by show i.index < w.watchers.size + _; omega⟩
  have hsubs := fun (bs : List (Fitting κ)) p key =>
    w.subscribers_watchingAll o (bs.flatMap Fitting.watches) p key
  -- subscriptions commute; in each list the new watchers stand behind the old ones
  refine ⟨?_, fun p key => ?_, fun p key i hi hi' => ?_⟩
  · show (w.watchingAll o _).heap.nameless = (w.watchingAll o _).heap.nameless
    rw [World.nameless_watchingAll, World.nameless_watchingAll]
    exact (hwatches.foldl_eq' (fun _ _ _ _ h => Heap.subscribe_comm h o _ _ _) _).symm
  · show Shuffle.Lists _ ((w.watchingAll o _).heap.subscribers p key)
      ((w.watchingAll o _).heap.subscribers p key)
    rw [hsubs, hsubs]
    split
    · exact ⟨w.heap.subscribers p key, _, _, [], (List.append_nil _).symm,
        (List.append_nil _).symm, hold p key, by simp, hown key, World.nodup_newcomers _ _ _,
        World.perm_newcomers hget w.watchers.size key⟩
    · rw [List.append_nil]
      exact .of_not_owns (hold p key)
  · have hmem : i ∈ (w.watchingAll o (bs.flatMap Fitting.watches)).heap.subscribers p key := hi
    rw [hsubs] at hmem
    rcases List.mem_append.mp hmem with hmem | hmem
    · exact absurd hi' (hold p key i hmem)
    · split at hmem
      · next hp => exact hp.1
      · cases hmem

/-- A watcher that has come with bindings is one that a binding builds. -/
theorem of_find?_bound {k : Nat} {x : Watcher κ} (hk : w.watchers.size ≤ k)
    (hx : (w.bound o bs).watchers.find? k = some x) : ∃ b ∈ bs, ∃ watch ∈ b.watches,
      x = { key := watch.1, data := o, last := w.heap.peek o watch.1, reaction := watch.2 } := by
  have hfind := w.find?_watchingAll o (bs.flatMap Fitting.watches) k
  rw [if_neg (Nat.not_lt.mpr hk)] at hfind
  obtain ⟨watch, hwatch, rfl⟩ := Option.map_eq_some_iff.mp (hfind.symm.trans hx)
  obtain ⟨b, hb, hwatch⟩ := List.mem_flatMap.mp (List.mem_of_getElem? hwatch)
  exact ⟨b, hb, watch, hwatch, rfl⟩

/-- The watchers of bindings have been built in two orders. -/
theorem watchers_bound (hw : w.Grounded) (hperm : bs.Perm bs')
    (hnodes : ∀ b ∈ bs, w.document.has b.node) (hnodup : (bs.map fun b => b.node).Nodup)
    (hget : ∀ j, (bs'.flatMap Fitting.watches)[π j]? = (bs.flatMap Fitting.watches)[j]?) :
    (shuffleOf w o bs π hπ).Watchers (w.bound o bs).watchers (w.bound o bs').watchers := by
  have hlength : (bs'.flatMap Fitting.watches).length = (bs.flatMap Fitting.watches).length :=
    ((hperm.flatMap fun _ _ => .refl _).length_eq).symm
  have hsize := fun bs : List (Fitting κ) => w.size_watchingAll o (bs.flatMap Fitting.watches)
  have hfind := fun bs : List (Fitting κ) => w.find?_watchingAll o (bs.flatMap Fitting.watches)
  refine ⟨?_, Nat.le_of_eq (hsize bs).symm, fun k => ?_, fun i x hi hx => ?_,
    fun k x hx n hn => ?_, fun i j x y hi hj hx hy h a ha c hc hac => ?_⟩
  · exact (hsize bs').trans ((congrArg _ hlength).trans (hsize bs).symm)
  · by_cases hk : k < w.watchers.size
    · have hname : (shuffleOf w o bs π hπ).perm k = k := movedUp_of_lt π hk
      rw [hname]
      refine (hfind bs' k).trans (.trans ?_ (hfind bs k).symm)
      rw [if_pos hk, if_pos hk]
    · obtain ⟨j, rfl⟩ := Nat.exists_eq_add_of_le (Nat.le_of_not_lt hk)
      have hname : (shuffleOf w o bs π hπ).perm (w.watchers.size + j) = w.watchers.size + π j :=
        movedUp_add _ _ _
      rw [hname]
      refine (hfind bs' _).trans (.trans ?_ (hfind bs _).symm)
      rw [if_neg (by omega), if_neg (by omega), Nat.add_sub_cancel_left, Nat.add_sub_cancel_left,
        hget]
  · obtain ⟨b, _, watch, hwatch, rfl⟩ := of_find?_bound hi.1 hx
    refine ⟨rfl, fun hcustom => ?_⟩
    have hnode := Fitting.node?_of_mem_watches hwatch
    dsimp only at hcustom
    cases hr : watch.2 with
    | custom code =>
      rw [hr] at hnode
      cases hnode
    | _ =>
      rw [hr] at hcustom
      exact hcustom
  · by_cases hk : k < w.watchers.size
    · have hx := (hfind bs k).symm.trans hx
      rw [if_pos hk] at hx
      exact hw.nodes ⟨k⟩ x hx n hn
    · obtain ⟨b, hb, watch, hwatch, rfl⟩ := of_find?_bound (Nat.le_of_not_lt hk) hx
      obtain rfl := Option.some.inj ((Fitting.node?_of_mem_watches hwatch).symm.trans hn)
      exact hnodes b hb
  · obtain ⟨b, hb, watch, hwatch, rfl⟩ := of_find?_bound hi.1 hx
    obtain ⟨b', hb', watch', hwatch', rfl⟩ := of_find?_bound hj.1 hy
    have hnode : b.node = b'.node := by
      have hnode := Watcher.node_drawing? ha
      have hnode' := Watcher.node_drawing? hc
      rw [← hac] at hnode'
      exact Option.some.inj ((Fitting.node?_of_mem_watches hwatch).symm.trans
        ((hnode.trans hnode'.symm).trans (Fitting.node?_of_mem_watches hwatch')))
    -- no node has two bindings
    obtain rfl := List.inj_on_of_nodup_map hnodup hb hb' hnode
    rw [Option.mem_def, Fitting.drawing?_of_mem_watches hwatch hwatch'] at ha
    exact congrArg Drawing.redraw (Option.some.inj (ha.symm.trans hc))

/-- The documents that two orders of bindings leave look the same. -/
theorem documents_bound (hw : w.Grounded) (hperm : bs.Perm bs')
    (hnodes : ∀ b ∈ bs, w.document.has b.node) (hnodup : (bs.map fun b => b.node).Nodup) :
    Document.Alike (shuffleOf w o bs π hπ).size (w.bound o bs).document
      (w.bound o bs').document := by
  refine Drawing.alike_of_perm (hperm.map _) (fun a ha => ?_) (fun a ha c hc hac => ?_)
    (.refl hw.closed.grownByTexts)
  · obtain ⟨b, hb, rfl⟩ := List.mem_map.mp ha
    exact b.proper_drawing (hnodes b hb) w.heap
  · obtain ⟨b, hb, rfl⟩ := List.mem_map.mp ha
    obtain ⟨b', hb', rfl⟩ := List.mem_map.mp hc
    rw [Fitting.node_drawing, Fitting.node_drawing] at hac
    rw [List.inj_on_of_nodup_map hnodup hb hb' hac]

end

/-- Right after bindings have been made in two orders, the worlds are shuffled. -/
theorem World.Grounded.shuffled {w : World κ (σ × ρ)} (hw : w.Grounded) {ok : σ → Prop}
    (hok : ok w.user.1) {o : ObjectId} {bs bs' : List (Fitting κ)} (hperm : bs.Perm bs')
    (hnodes : ∀ b ∈ bs, w.document.has b.node) (hnodup : (bs.map fun b => b.node).Nodup)
    {user user' : σ × ρ} (hsame : user.1 = w.user.1) (hsame' : user'.1 = w.user.1) :
    ∃ s : Shuffle, s.size = w.document.size ∧ (w.Spares bs = fun i => ¬ s.Owns i) ∧
      Shuffled s ok { w.bound o bs with user } { w.bound o bs' with user := user' } := by
  obtain ⟨π, hget, hπ⟩ := exists_numbering (hperm.flatMap fun b _ => .refl b.watches)
  have hcurrent : ∀ bs, (w.bound o bs).current = none := fun bs =>
    (w.current_watchingAll o _).trans hw.current
  have hheld : ∀ bs, (w.bound o bs).held = w.held := fun bs => w.held_watchingAll o _
  exact ⟨shuffleOf w o bs π hπ, rfl, rfl, {
    heaps := heaps_bound hw hperm hget
    watchers := watchers_bound hw hperm hnodes hnodup hget
    documents := documents_bound hw hperm hnodes hnodup
    current := hcurrent bs
    current' := hcurrent bs'
    held := (hheld bs').trans (hheld bs).symm
    free := fun i hi => not_owns_of_lt (hw.held i ((hheld bs) ▸ hi))
    user := hsame'.trans hsame.symm
    ok := hsame.symm ▸ hok }⟩

/-! ## Two runs -/

/-- Two worlds in which the data is the same, the nodes look the same, and what user code goes by is
the same. The nodes from `size` on are new. -/
structure World.LooksLike (size : Nat) (w w' : World κ (σ × ρ)) : Prop where
  peek : ∀ o key, w'.heap.peek o key = w.heap.peek o key
  snapshot : ∀ v, w'.heap.snapshot v = w.heap.snapshot v
  document : Document.Alike size w.document w'.document
  user : w'.user.1 = w.user.1

theorem World.Shuffled.looksLike {s : Shuffle} {ok : σ → Prop} {w w' : World κ (σ × ρ)}
    (h : Shuffled s ok w w') : w.LooksLike s.size w' where
  peek := h.heaps.peek
  snapshot v := h.heaps.congr (f := fun h => h.snapshot v) fun h => h.snapshot_nameless v
  document := h.documents
  user := h.user

/-- Makes bindings and goes on with user code. -/
def Program.afterBinding {α : Type} (bs : List (Fitting κ)) (p : Program κ σ α) :
    Program κ (σ × ρ) α :=
  .andThen (.requestAll (bs.map Fitting.request)) fun _ => p.beside

section

variable {host : Host κ σ} {hooks : κ → Occasion → Program κ (σ × ρ) (Except ViewError Unit)}

/-- **The order of bindings does not matter.** Bindings of different nodes to the same data are made
in two orders, and then user code does the same, with the watchers it built before and those it
builds later, whose callbacks may do so too. If the one run comes to an end, so does the other, with
the same answer, the same data and the same state of user code, and the nodes look the same. -/
theorem binding_order_irrelevant {w : World κ (σ × ρ)} {o : ObjectId} {bs bs' : List (Fitting κ)}
    {ok : σ → Prop} {α : Type} {p : Program κ σ α} {depth : Nat} {a : α} {w₁ : World κ (σ × ρ)}
    (hhooks : ∀ code occasion, occasion.isAccess = true → (hooks code occasion).TakesNotes)
    (hw : w.Grounded) (hok : ok w.user.1) (hperm : bs.Perm bs')
    (hdata : ∀ b ∈ bs, b.kit.data = o) (hnodes : ∀ b ∈ bs, w.document.has b.node)
    (hnodup : (bs.map fun b => b.node).Nodup)
    (hbody : ∀ code occasion, occasion.isAccess = false →
      (host.body code occasion).Discreet (w.Spares bs) ok fun _ => True)
    (hhandles : ∀ u, ok u → ∀ i, .watcher i ∈ host.handles u → w.Spares bs i)
    (hp : p.Discreet (w.Spares bs) ok fun _ => True)
    (hrun : (host.beside hooks).run depth (p.afterBinding bs) w = some (a, w₁)) :
    ∃ w₂, (host.beside hooks).run (depth + 1) (p.afterBinding bs') w = some (a, w₂) ∧
      w₁.LooksLike w.document.size w₂ := by
  obtain ⟨answers, wb, hbinding, hrest⟩ := Run.bind_eq_some.mp hrun
  have hnotes : ((host.beside hooks).env (depth + 1)).HooksTakeNotes :=
    Host.hooksTakeNotes hhooks depth
  obtain ⟨answers₁, user, hsame, hall⟩ := hnotes.requestAll_eq bs hdata hw.current
  obtain ⟨answers₂, user', hsame', hall'⟩ := hnotes.requestAll_eq bs'
    (fun b hb => hdata b (hperm.mem_iff.mpr hb)) hw.current
  obtain ⟨rfl, rfl⟩ := Prod.mk.inj (Option.some.inj
    (hall.symm.trans ((Host.env_below_succ _ depth).exec _ hbinding)))
  obtain ⟨s, hsize, hspares, hshuffled⟩ :=
    hw.shuffled (o := o) hok hperm hnodes hnodup hsame hsame'
  rw [hspares] at hbody hhandles hp
  obtain ⟨_, w₂, hrest', h₁⟩ :=
    (Host.inStep_env hhooks hbody hhandles depth).exec hp hshuffled hrest
  exact ⟨w₂, Run.bind_eq_some.mpr ⟨answers₂, _, hall', hrest'⟩, hsize ▸ h₁.looksLike⟩

end

/-! One callback copies what is written and was there before the bindings, another comes after
them, and a method clears the data. -/

namespace Errands

inductive Code where
  | copy
  | clear
  | log

def host : Host Code (List String) where
  body code occasion :=
    match code, occasion with
    | .copy, .changed (.text s) => do
      Program.updateUser (s :: ·)
      Program.request (.write ⟨0⟩ "b" (.text (s ++ "!")))
      return .ok ()
    | .clear, .called o _ => do
      Program.updateUser ("clear" :: ·)
      Program.request (.write o "a" (.text ""))
      return .ok ()
    | .log, .changed (.text s) => do
      Program.updateUser (s :: ·)
      return .ok ()
    | _, _ => return .ok ()
  handles _ := [.object ⟨0⟩]

/-- A hook counts what it is told. -/
def hooks (_ : Code) (_ : Occasion) :
    Program Code (List String × Nat) (Except ViewError Unit) := do
  Program.updateUser fun u => (u.1, u.2 + 1)
  return .ok ()

def setUp : Program Code (List String × Nat) Unit := do
  let o ← Program.request .newObject
  Program.request (.write o "a" (.text "1"))
  Program.request (.write o "b" (.text "?"))
  Program.request (.observe (.custom .log) (.object o))
  let _ ← Program.request (.watch "a" o .copy)
  let _ ← Program.request (.newNode (.ofTag "input"))
  let _ ← Program.request (.newNode (.text ""))
  let _ ← Program.request (.newNode (.ofTag "button"))

def kit : Kit Code := { data := ⟨0⟩, methods := .ofList [("clear", .clear)] }

def bindings : List (Fitting Code) :=
  [⟨⟨⟨0⟩, .model, "a"⟩, kit⟩, ⟨⟨⟨1⟩, .text, "\x7b\x7ba\x7d\x7d \x7b\x7bb\x7d\x7d"⟩, kit⟩,
    ⟨⟨⟨2⟩, .on "click", "clear"⟩, kit⟩]

def errands : Program Code (List String) (List (Except ViewError Unit)) := do
  let _ ← Program.request (.watch "b" ⟨0⟩ .log)
  Program.request (.write ⟨0⟩ "a" (.text "2"))
  let entered ← Program.request (.enter ⟨0⟩ "3")
  let clicked ← Program.request (.dispatch ⟨2⟩ { name := "click" })
  return [entered, clicked]

theorem takesNotes_hooks (code : Code) (occasion : Occasion) :
    (hooks code occasion).TakesNotes :=
  ⟨fun _ => rfl, fun _ => trivial⟩

theorem discreet_body (mine : WatcherId → Prop) (code : Code) (occasion : Occasion) :
    (host.body code occasion).Discreet mine (fun _ => True) fun _ => True := by
  unfold host
  dsimp only
  split
  · exact ⟨fun _ _ => trivial, trivial, fun _ _ => trivial⟩
  · exact ⟨fun _ _ => trivial, trivial, fun _ _ => trivial⟩
  · exact ⟨fun _ _ => trivial, trivial⟩
  · trivial

theorem discreet_errands (mine : WatcherId → Prop) :
    errands.Discreet mine (fun _ => True) fun _ => True :=
  ⟨trivial, fun _ _ => ⟨trivial, fun _ _ => ⟨trivial, fun _ _ => ⟨trivial, fun _ _ => trivial⟩⟩⟩⟩

end Errands

open Errands in
theorem binding_order_irrelevant_errands : ∃ u w w₁ w₂,
    (host.beside hooks).run 4 setUp (.fresh ([], 0)) = some (u, w) ∧
      (host.beside hooks).run 4 (errands.afterBinding bindings) w =
        some ([.ok (), .ok ()], w₁) ∧
      (host.beside hooks).run 5 (errands.afterBinding bindings.reverse) w =
        some ([.ok (), .ok ()], w₂) ∧
      w₁.LooksLike 3 w₂ ∧ w₁.document.content ⟨1⟩ = .text " !" ∧
      w₁.user.1 = ["!", "", "clear", "3!", "3", "2!", "2"] := by
  have hends : ((host.beside hooks).run 4 setUp (.fresh ([], 0))).any (fun r =>
      decide (r.2.document.size = 3 ∧ ∀ b ∈ bindings, r.2.document.has b.node) &&
      ((host.beside hooks).run 4 (errands.afterBinding bindings) r.2).any fun r' =>
        decide (r'.1 = [.ok (), .ok ()] ∧ r'.2.document.content ⟨1⟩ = .text " !" ∧
          r'.2.user.1 = ["!", "", "clear", "3!", "3", "2!", "2"])) = true := by decide +kernel
  have hob : (host.beside hooks).Obeys (.orderly fun _ w r => r.namesNodes w) 4 setUp
      (.fresh ([], 0)) := by
    unfold Host.Obeys
    decide +kernel
  obtain ⟨⟨u, w⟩, hsetUp, hw⟩ := (Option.any_eq_true _ _).mp hends
  obtain ⟨hw, hends'⟩ := Bool.and_eq_true_iff.mp hw
  obtain ⟨hsize, hnodes⟩ := of_decide_eq_true hw
  obtain ⟨⟨answers, w₁⟩, hrun, hw₁⟩ := (Option.any_eq_true _ _).mp hends'
  obtain ⟨rfl, htext, huser⟩ := of_decide_eq_true hw₁
  have hgrounded : w.Grounded := (World.grounded_fresh _).of_run hsetUp hob
  obtain ⟨w₂, hrun', halike⟩ := binding_order_irrelevant (o := ⟨0⟩)
    (fun code occasion _ => takesNotes_hooks code occasion) hgrounded trivial
    (List.reverse_perm bindings).symm (by decide) hnodes (by decide)
    (fun code occasion _ => discreet_body _ code occasion)
    (fun _ _ i hi => by simp [host] at hi) (discreet_errands _) hrun
  exact ⟨u, w, w₁, w₂, hsetUp, hrun, hrun', hsize ▸ halike, htext, huser⟩

end DataBinding
