import DataBinding.Proofs.Faces
import DataBinding.Proofs.Holding
import DataBinding.Proofs.Nameless
import Mathlib.Logic.Equiv.Defs

/-!
# Worlds with their bindings shuffled

Bindings that are made in another order get their watchers under other numbers, and stand in
another order in the lists of subscribers. Two worlds that differ in nothing else are said to be
shuffled. The watchers that bindings own are numbered without a gap, and in each list they stand
together: who watched before stands before them, and who watches later stands behind.

Whoever does not name a watcher of a binding cannot tell such worlds apart: the same fields have
the same values and equally many subscribers, the same objects are alive, and the nodes have the
same faces.

The state of the user comes in two parts here. The first is what user code goes by; the second is
what hooks have noted, and nobody else looks at that.
-/

namespace DataBinding

variable {κ σ ρ : Type}

/-! ## What watchers of bindings draw -/

/-- The node that a binding shows something at. -/
def Reaction.node? : Reaction κ → Option NodeId
  | .setValue n | .setText n | .render n _ => some n
  | .custom _ => none

/-- What a watcher of a binding draws when its value is as it is in a heap. -/
def Watcher.drawing? (h : Heap κ) (x : Watcher κ) : Option (Drawing κ) :=
  match x.reaction with
  | .setValue n => some (.value n (h.text (h.peek x.data x.key)))
  | .setText n => some (.text n (h.text (h.peek x.data x.key)))
  | .render n t => some (.text n (t.rendering h x.data))
  | .custom _ => none

namespace Watcher

variable {h : Heap κ} {x : Watcher κ} {a : Drawing κ}

theorem shown_eq (h : Heap κ) (x : Watcher κ) (d : Document κ) :
    x.shown h (h.peek x.data x.key) d = Drawing.drawAll (x.drawing? h).toList d := by
  unfold shown drawing?
  cases x.reaction <;> rfl

/-- A binding draws at its own node. -/
theorem node_drawing? (ha : x.drawing? h = some a) : x.reaction.node? = some a.node := by
  unfold drawing? at ha
  cases hr : x.reaction with
  | custom code => simp [hr] at ha
  | _ =>
    simp only [hr, Option.some.injEq] at ha
    subst ha
    rfl

theorem proper_drawing? {size : Nat}
    (hx : ∀ n, x.reaction.node? = some n → n.index < size) (ha : x.drawing? h = some a) :
    a.Proper size := by
  have hn := hx _ (node_drawing? ha)
  unfold drawing? at ha
  cases hr : x.reaction with
  | custom code => simp [hr] at ha
  | setValue n =>
    simp only [hr, Option.some.injEq] at ha
    subst ha
    exact Drawing.proper_value hn _
  | setText n | render n t =>
    simp only [hr, Option.some.injEq] at ha
    subst ha
    exact Drawing.proper_text hn _

end Watcher

/-! ## Numbers -/

/-- How the watchers of bindings to some data are numbered in two worlds: in both they have the
numbers from `first` up to `past`. The nodes from `size` on are those that texts have made. -/
structure Shuffle where
  first : Nat
  past : Nat
  perm : Equiv.Perm Nat
  fixed : ∀ k, ¬ (first ≤ k ∧ k < past) → perm k = k
  data : ObjectId
  size : Nat

namespace Shuffle

variable (s : Shuffle)

/-- Whether a watcher belongs to a binding. -/
def Owns (i : WatcherId) : Prop := s.first ≤ i.index ∧ i.index < s.past

/-- The name that a watcher of the first world has in the second. -/
def rename (i : WatcherId) : WatcherId := ⟨s.perm i.index⟩

/-- The name that a watcher of the second world has in the first. -/
def restore (i : WatcherId) : WatcherId := ⟨s.perm.symm i.index⟩

variable {s} {i j : WatcherId}

@[simp] theorem rename_restore : s.rename (s.restore i) = i := by
  simp [rename, restore]

@[simp] theorem restore_rename : s.restore (s.rename i) = i := by
  simp [rename, restore]

/-- No two watchers get the same name. -/
theorem rename_injective (h : s.rename i = s.rename j) : i = j := by
  rw [← restore_rename (s := s) (i := i), h, restore_rename]

/-- Only watchers of bindings are renamed. -/
theorem rename_of_not_owns (hi : ¬ s.Owns i) : s.rename i = i :=
  congrArg WatcherId.mk (s.fixed i.index hi)

theorem restore_of_not_owns (hi : ¬ s.Owns i) : s.restore i = i := by
  rw [← rename_of_not_owns hi, restore_rename, rename_of_not_owns hi]

/-- A list of subscribers in two worlds. -/
def Lists (s : Shuffle) (l l' : List WatcherId) : Prop :=
  ∃ early ours ours' late, l = early ++ ours ++ late ∧ l' = early ++ ours' ++ late ∧
    (∀ i ∈ early, ¬ s.Owns i) ∧ (∀ i ∈ late, ¬ s.Owns i) ∧ (∀ i ∈ ours, s.Owns i) ∧
    ours.Nodup ∧ ours'.Perm (ours.map s.rename)

namespace Lists

variable {l l' : List WatcherId}

/-- A list without watchers of bindings is the same in both worlds. -/
theorem of_not_owns (h : ∀ i ∈ l, ¬ s.Owns i) : s.Lists l l :=
  ⟨l, [], [], [], by simp, by simp, h, by simp, by simp, .nil, .nil⟩

/-- Equally many are subscribed. -/
theorem length (h : s.Lists l l') : l'.length = l.length := by
  obtain ⟨early, ours, ours', late, rfl, rfl, _, _, _, _, hperm⟩ := h
  simp [hperm.length_eq]

/-- Whoever subscribes later stands behind the bindings in both worlds. -/
theorem append (h : s.Lists l l') (hi : ¬ s.Owns i) : s.Lists (l ++ [i]) (l' ++ [i]) := by
  obtain ⟨early, ours, ours', late, rfl, rfl, hearly, hlate, hours, hnodup, hperm⟩ := h
  refine ⟨early, ours, ours', late ++ [i], by simp, by simp, hearly, ?_, hours, hnodup, hperm⟩
  intro j hj
  rcases List.mem_append.mp hj with hj | hj
  · exact hlate j hj
  · rw [List.mem_singleton.mp hj]
    exact hi

/-- Whoever is subscribed in one world is subscribed in the other, by another name. -/
theorem mem_iff (h : s.Lists l l') : i ∈ l ↔ s.rename i ∈ l' := by
  obtain ⟨early, ours, ours', late, rfl, rfl, hearly, hlate, hours, _, hperm⟩ := h
  have hsame : ∀ {part : List WatcherId}, (∀ j ∈ part, ¬ s.Owns j) →
      (i ∈ part ↔ s.rename i ∈ part) := by
    intro part hpart
    constructor
    · intro hi
      rw [rename_of_not_owns (hpart i hi)]
      exact hi
    · intro hi
      rwa [rename_injective (rename_of_not_owns (hpart _ hi))] at hi
  have hmiddle : i ∈ ours ↔ s.rename i ∈ ours' := by
    rw [hperm.mem_iff, List.mem_map]
    constructor
    · exact fun hi => ⟨i, hi, rfl⟩
    · rintro ⟨j, hj, hij⟩
      rwa [← rename_injective hij]
  simp only [List.mem_append]
  rw [hsame hearly, hsame hlate, hmiddle]

end Lists

/-! ## Worlds -/

/-- Two heaps in which the bindings subscribed in different orders. -/
structure Heaps (s : Shuffle) (h h' : Heap κ) : Prop where
  nameless : h'.nameless = h.nameless
  lists : ∀ o key, s.Lists (h.subscribers o key) (h'.subscribers o key)
  data : ∀ o key i, i ∈ h.subscribers o key → s.Owns i → o = s.data

namespace Heaps

variable {h h' : Heap κ}

/-- What does not depend on names is the same. -/
theorem congr {α : Type} (hh : s.Heaps h h') {f : Heap κ → α}
    (hf : ∀ h, f h.nameless = f h) : f h' = f h := by
  rw [← hf h, ← hh.nameless, hf h']

theorem peek (hh : s.Heaps h h') (o : ObjectId) (key : String) : h'.peek o key = h.peek o key :=
  hh.congr (f := fun h => h.peek o key) fun h => h.peek_nameless o key

theorem fields (hh : s.Heaps h h') (o : ObjectId) : h'.fields o = h.fields o :=
  hh.congr (f := fun h => h.fields o) fun h => h.fields_nameless o

theorem text (hh : s.Heaps h h') (v : Value) : h'.text v = h.text v :=
  hh.congr (f := fun h => h.text v) fun h => h.text_nameless v

theorem keys (hh : s.Heaps h h') (o : ObjectId) : (h'.slots o).keys = (h.slots o).keys :=
  hh.congr (f := fun h => (h.slots o).keys) fun h => by
    rw [h.slots_nameless, Slots.keys_nameless]

theorem size_objects (hh : s.Heaps h h') : h'.objects.size = h.objects.size :=
  hh.congr (f := fun h => h.objects.size) fun h => h.size_objects_nameless

theorem rendering (hh : s.Heaps h h') (t : Template) (o : ObjectId) :
    t.rendering h' o = t.rendering h o := by
  refine Template.filled_congr fun key _ => ?_
  rw [hh.text, hh.peek]

theorem drawing? (hh : s.Heaps h h') (x : Watcher κ) : x.drawing? h' = x.drawing? h := by
  unfold Watcher.drawing?
  simp only [hh.text, hh.peek, hh.rendering]

/-- A field is reactive in both worlds or in none, with the same value and the same hook. -/
theorem cell? (hh : s.Heaps h h') (o : ObjectId) (key : String) :
    (h.cell? o key = none ∧ h'.cell? o key = none) ∨
      ∃ c, h.cell? o key = some c ∧ h'.cell? o key =
        some { c with subscribers := h'.subscribers o key } := by
  have hcell := congrArg (fun h : Heap κ => h.cell? o key) hh.nameless
  simp only [Heap.cell?_nameless] at hcell
  cases hc : h.cell? o key with
  | none =>
    rw [hc] at hcell
    exact .inl ⟨rfl, Option.map_eq_none_iff.mp hcell⟩
  | some c =>
    rw [hc] at hcell
    obtain ⟨c', hc', hname⟩ := Option.map_eq_some_iff.mp hcell
    refine .inr ⟨c, rfl, ?_⟩
    rw [hc', Heap.subscribers_of_cell? hc']
    obtain ⟨value, subscribers, hook⟩ := c
    obtain ⟨value', subscribers', hook'⟩ := c'
    simp only [Cell.nameless, Cell.mk.injEq] at hname
    obtain ⟨rfl, _, rfl⟩ := hname
    rfl

/-- Something is done to both heaps that can be done without names and changes no list. -/
theorem change (hh : s.Heaps h h') {f : Heap κ → Heap κ}
    (hname : ∀ h : Heap κ, (f h).nameless = f h.nameless)
    (hlist : ∀ o key, (f h).subscribers o key = h.subscribers o key)
    (hlist' : ∀ o key, (f h').subscribers o key = h'.subscribers o key) :
    s.Heaps (f h) (f h') where
  nameless := by rw [hname, hname, hh.nameless]
  lists o key := by
    rw [hlist, hlist']
    exact hh.lists o key
  data o key i hi := hh.data o key i (hlist o key ▸ hi)

theorem intercept (hh : s.Heaps h h') (hook : Hook κ) (values : List Value) :
    s.Heaps (Heap.intercept hook h values) (Heap.intercept hook h' values) :=
  hh.change (f := fun h => Heap.intercept hook h values)
    (fun h => h.nameless_intercept hook values) (Heap.subscribers_intercept hook h values)
    (Heap.subscribers_intercept hook h' values)

theorem store (hh : s.Heaps h h') (o : ObjectId) (key : String) (v : Value) :
    s.Heaps (h.store o key v) (h'.store o key v) :=
  hh.change (f := fun h => h.store o key v) (fun h => h.nameless_store o key v)
    (Heap.subscribers_store h o key v) (Heap.subscribers_store h' o key v)

/-- Where no field is reactive, a plain slot is put in both worlds. -/
theorem putPlain (hh : s.Heaps h h') {o : ObjectId} {key : String} (hc : h.cell? o key = none)
    (hc' : h'.cell? o key = none) (v : Value) :
    s.Heaps (h.putPlain o key v) (h'.putPlain o key v) :=
  hh.change (f := fun h => h.putPlain o key v) (fun h => h.nameless_putPlain o key v)
    (fun p k => Heap.subscribers_congr (Heap.cell?_putPlain hc v p k))
    (fun p k => Heap.subscribers_congr (Heap.cell?_putPlain hc' v p k))

theorem alloc (hh : s.Heaps h h') : s.Heaps (h.alloc ∅).2 (h'.alloc ∅).2 :=
  hh.change (f := fun h => (h.alloc ∅).2) (fun h => h.nameless_alloc ∅)
    (fun p k => Heap.subscribers_congr (Heap.cell?_alloc (fun _ => rfl) p k))
    (fun p k => Heap.subscribers_congr (Heap.cell?_alloc (fun _ => rfl) p k))

theorem allocArray (hh : s.Heaps h h') (items : List Value) :
    s.Heaps (h.allocArray items).2 (h'.allocArray items).2 :=
  hh.change (f := fun h => (h.allocArray items).2) (fun _ => rfl) (fun _ _ => rfl) fun _ _ => rfl

theorem ofJson (hh : s.Heaps h h') (j : Json) : s.Heaps (h.ofJson j).2 (h'.ofJson j).2 :=
  hh.change (f := fun h => (h.ofJson j).2) (fun h => by rw [Heap.nameless_ofJson])
    (fun p k => Heap.subscribers_congr (Heap.cell?_ofJson h j p k))
    (fun p k => Heap.subscribers_congr (Heap.cell?_ofJson h' j p k))

/-- A watcher subscribes that belongs to no binding. -/
theorem subscribe (hh : s.Heaps h h') (hi : ¬ s.Owns i) (o : ObjectId) (key : String) :
    s.Heaps (h.subscribe o key i) (h'.subscribe o key i) := by
  rcases hh.cell? o key with ⟨hc, hc'⟩ | ⟨c, hc, hc'⟩
  · rw [Heap.subscribe_of_cell?_eq_none hc, Heap.subscribe_of_cell?_eq_none hc']
    exact hh
  · have hlist : ∀ {h : Heap κ} {c : Cell κ}, h.cell? o key = some c → ∀ p k,
        (h.subscribe o key i).subscribers p k =
          if p = o ∧ k = key then h.subscribers p k ++ [i] else h.subscribers p k := by
      intro h c hc p k
      unfold Heap.subscribers
      rw [Heap.cell?_subscribe]
      split
      · next hp =>
        rw [hp.1, hp.2, hc]
        rfl
      · rfl
    refine ⟨?_, fun p k => ?_, fun p k j hj hown => ?_⟩
    · rw [Heap.nameless_subscribe, Heap.nameless_subscribe, hh.nameless]
    · rw [hlist hc, hlist hc']
      split
      · exact (hh.lists p k).append hi
      · exact hh.lists p k
    · rw [hlist hc] at hj
      split at hj
      · rcases List.mem_append.mp hj with hj | hj
        · exact hh.data p k j hj hown
        · exact absurd (List.mem_singleton.mp hj ▸ hown) hi
      · exact hh.data p k j hj hown

end Heaps

/-- Two tables of watchers in which the watchers of bindings are numbered differently. These draw
at the old nodes, and those that draw at the same node draw the same. -/
structure Watchers (s : Shuffle) (t t' : Table (Watcher κ)) : Prop where
  size : t'.size = t.size
  past_le : s.past ≤ t.size
  renamed : ∀ k, t'.find? (s.perm k) = t.find? k
  data : ∀ i x, s.Owns i → t.find? i.index = some x → x.data = s.data ∧ ¬ x.reaction.IsCustom
  nodes : ∀ k x, t.find? k = some x → ∀ n, x.reaction.node? = some n → n.index < s.size
  agree : ∀ i j x y, s.Owns i → s.Owns j → t.find? i.index = some x → t.find? j.index = some y →
    ∀ h : Heap κ, ∀ a ∈ x.drawing? h, ∀ b ∈ y.drawing? h, a.node = b.node → a.redraw = b.redraw

namespace Watchers

variable {t t' : Table (Watcher κ)}

/-- Watchers have seen values. -/
theorem of_last (ht : s.Watchers t t') {u u' : Table (Watcher κ)} (hsize : u.size = t.size)
    (hsize' : u'.size = t'.size)
    (hlast : ∀ k x, u.find? k = some x → ∃ last, t.find? k = some { x with last })
    (hrenamed : ∀ k, u'.find? (s.perm k) = u.find? k) : s.Watchers u u' where
  size := by rw [hsize, hsize', ht.size]
  past_le := hsize ▸ ht.past_le
  renamed := hrenamed
  data i x hi hx := by
    obtain ⟨last, hx⟩ := hlast _ _ hx
    exact ht.data i { x with last } hi hx
  nodes k x hx := by
    obtain ⟨last, hx⟩ := hlast _ _ hx
    exact ht.nodes k { x with last } hx
  agree i j x y hi hj hx hy := by
    obtain ⟨last, hx⟩ := hlast _ _ hx
    obtain ⟨last', hy⟩ := hlast _ _ hy
    exact ht.agree i j { x with last } { y with last := last' } hi hj hx hy

/-- The watcher that has seen a value is the same by another name. -/
theorem setLast (ht : s.Watchers t t') (k : Nat) (v : Value) :
    s.Watchers (t.modify k fun x => { x with last := v })
      (t'.modify (s.perm k) fun x => { x with last := v }) := by
  refine ht.of_last (Table.size_modify _ _ _) (Table.size_modify _ _ _) (fun l x hx => ?_)
    fun l => ?_
  · rw [Table.find?_modify] at hx
    split at hx
    · obtain ⟨y, hy, rfl⟩ := Option.map_eq_some_iff.mp hx
      exact ⟨y.last, hy⟩
    · exact ⟨x.last, hx⟩
  · rw [Table.find?_modify, Table.find?_modify, ht.renamed]
    simp only [s.perm.injective.eq_iff]

/-- A watcher with user code comes last. -/
theorem push (ht : s.Watchers t t') {x : Watcher κ} (hx : x.reaction.IsCustom) :
    s.Watchers (t.push x) (t'.push x) := by
  have hpast := ht.past_le
  have hlast : s.perm t.size = t.size := s.fixed t.size (by omega)
  have hold : ∀ {i : WatcherId} {y : Watcher κ}, s.Owns i → (t.push x).find? i.index = some y →
      t.find? i.index = some y := by
    intro i y hi hy
    have hlt := hi.2
    rw [Table.find?_push, if_neg (by omega)] at hy
    exact hy
  refine ⟨?_, ?_, fun l => ?_, fun i y hi hy => ht.data i y hi (hold hi hy), fun l y hy n hn => ?_,
    fun i j y z hi hj hy hz => ht.agree i j y z hi hj (hold hi hy) (hold hj hz)⟩
  · rw [Table.size_push, Table.size_push, ht.size]
  · rw [Table.size_push]
    omega
  · rw [Table.find?_push, Table.find?_push, ht.renamed, ht.size]
    have hiff : s.perm l = t.size ↔ l = t.size := by
      constructor
      · intro hl
        exact s.perm.injective (hl.trans hlast.symm)
      · rintro rfl
        exact hlast
    simp only [hiff]
  · rw [Table.find?_push] at hy
    split at hy
    · rw [← Option.some.inj hy] at hn
      cases hr : x.reaction with
      | custom code =>
        rw [hr] at hn
        cases hn
      | _ =>
        rw [hr] at hx
        exact hx.elim
    · exact ht.nodes l y hy n hn

end Watchers

end Shuffle

/-- Two worlds that differ in the order in which bindings were made, and in what hooks noted. -/
structure World.Shuffled (s : Shuffle) (ok : σ → Prop) (w w' : World κ (σ × ρ)) : Prop where
  heaps : s.Heaps w.heap w'.heap
  watchers : s.Watchers w.watchers w'.watchers
  documents : Document.Alike s.size w.document w'.document
  current : w.current = none
  current' : w'.current = none
  held : w'.held = w.held
  free : ∀ i, .watcher i ∈ w.held → ¬ s.Owns i
  user : w'.user.1 = w.user.1
  ok : ok w.user.1

/-! ## What is alive -/

/-- A handle after watchers have got other names. -/
def Handle.rename (f : WatcherId → WatcherId) : Handle → Handle
  | .object o => .object o
  | .watcher i => .watcher (f i)

/-- Names make no difference to what is alive. -/
theorem World.isAlive_of_rename {w w' : World κ σ} {handles : σ → List Handle}
    (f : WatcherId → WatcherId) (hobjects : w.heap.objects.size ≤ w'.heap.objects.size)
    (hfields : ∀ p, w'.heap.fields p = w.heap.fields p)
    (hlists : ∀ p key i, i ∈ w.heap.subscribers p key → f i ∈ w'.heap.subscribers p key)
    (hwatchers : ∀ i x, w.watcher? i = some x → w'.watcher? (f i) = some x)
    (hroots : ∀ h ∈ w.roots handles, h.rename f ∈ w'.roots handles) {o : ObjectId}
    (halive : w.isAlive handles o = true) : w'.isAlive handles o = true := by
  have hholdings : ∀ g h, h ∈ w.holdings g → h.rename f ∈ w'.holdings (g.rename f) := by
    intro g h hh
    cases g with
    | object p =>
      rcases mem_holdings_object.mp hh with ⟨q, rfl, hq⟩ | ⟨i, key, rfl, hi⟩
      · refine mem_holdings_object.mpr (.inl ⟨q, rfl, ?_⟩)
        unfold Heap.Holds
        rw [hfields]
        exact hq
      · exact mem_holdings_object.mpr (.inr ⟨f i, key, rfl, hlists p key i hi⟩)
    | watcher i =>
      obtain ⟨x, q, hx, rfl, hq⟩ := mem_holdings_watcher.mp hh
      exact mem_holdings_watcher.mpr ⟨x, q, hwatchers i x hx, rfl, hq⟩
  have hthings : ∀ h ∈ w.things, h.rename f ∈ w'.things := by
    intro h hh
    simp only [things, List.mem_append, List.mem_map, List.mem_range] at hh ⊢
    rcases hh with ⟨k, hk, rfl⟩ | ⟨k, hk, rfl⟩
    · exact .inl ⟨k, Nat.lt_of_lt_of_le hk hobjects, rfl⟩
    · cases hx : w.watcher? ⟨k⟩ with
      | none => exact absurd hk (Nat.not_lt.mpr (Table.find?_eq_none_iff.mp hx))
      | some x => exact .inr ⟨(f ⟨k⟩).index, lt_size_of_watcher? (hwatchers ⟨k⟩ x hx), rfl⟩
  -- what keeps the object alive in the first world does so in the second, renamed
  rcases isAlive_iff.mp halive with hroot | ⟨K, hK, ho⟩
  · exact isAlive_iff.mpr (.inl (hroots _ hroot))
  · refine isAlive_iff.mpr (.inr ⟨fun h => ∃ g, K g ∧ h = g.rename f, ⟨?_, ?_⟩, _, ho, rfl⟩)
    · rintro _ ⟨g, hg, rfl⟩
      exact hthings g (hK.exist g hg)
    · rintro _ ⟨g, hg, rfl⟩
      rcases hK.held g hg with hroot | ⟨g', hg', hholds⟩
      · exact .inl (hroots g hroot)
      · exact .inr ⟨_, ⟨g', hg', rfl⟩, hholdings g' g hholds⟩

/-- What the user holds depends on what user code goes by, and contains no watcher of a binding. -/
structure Shuffle.Handles (s : Shuffle) (ok : σ → Prop) (handles : σ × ρ → List Handle) : Prop where
  fst : ∀ u u' : σ × ρ, u'.1 = u.1 → handles u' = handles u
  free : ∀ u : σ × ρ, ok u.1 → ∀ i, .watcher i ∈ handles u → ¬ s.Owns i

namespace World.Shuffled

variable {s : Shuffle} {ok : σ → Prop} {w w' : World κ (σ × ρ)} {handles : σ × ρ → List Handle}

theorem watcher? (h : Shuffled s ok w w') (i : WatcherId) :
    w'.watcher? (s.rename i) = w.watcher? i :=
  h.watchers.renamed i.index

theorem isAlive (h : Shuffled s ok w w') (hhandles : s.Handles ok handles) (o : ObjectId) :
    w'.isAlive handles o = w.isAlive handles o := by
  have hroots : w'.roots handles = w.roots handles := by
    rw [roots, roots, h.current, h.current', h.held, hhandles.fst _ _ h.user]
  have hfree : ∀ i, .watcher i ∈ w.roots handles → ¬ s.Owns i := by
    intro i hi
    rw [roots, h.current] at hi
    simp only [Option.toList_none, List.map_nil, List.append_nil, List.mem_append] at hi
    exact hi.elim (h.free i) (hhandles.free w.user h.ok i)
  have hname : ∀ f : WatcherId → WatcherId, (∀ i, ¬ s.Owns i → f i = i) →
      ∀ g ∈ w.roots handles, g.rename f = g := by
    intro f hf g hg
    cases g with
    | object o => rfl
    | watcher i => exact congrArg Handle.watcher (hf i (hfree i hg))
  rw [Bool.eq_iff_iff]
  constructor
  · refine isAlive_of_rename s.restore (Nat.le_of_eq h.heaps.size_objects)
      (fun p => (h.heaps.fields p).symm) (fun p key i hi => ?_) (fun i x hx => ?_) fun g hg => ?_
    · rw [(h.heaps.lists p key).mem_iff, Shuffle.rename_restore]
      exact hi
    · rw [← h.watcher?, Shuffle.rename_restore]
      exact hx
    · rw [hroots] at hg
      rw [hname _ (fun i hi => Shuffle.restore_of_not_owns hi) g hg]
      exact hg
  · refine isAlive_of_rename s.rename (Nat.le_of_eq h.heaps.size_objects.symm) h.heaps.fields
      (fun p key i hi => (h.heaps.lists p key).mem_iff.mp hi)
      (fun i x hx => (h.watcher? i).trans hx) fun g hg => ?_
    rw [hname _ (fun i hi => Shuffle.rename_of_not_owns hi) g hg, hroots]
    exact hg

end World.Shuffled

/-! ## What can be asked -/

/-- Whether a question can be asked without learning the names of watchers of bindings or of new
nodes. -/
def Query.Discreet (mine : WatcherId → Prop) {α : Type} : Query α → Prop
  | .watcher i => mine i
  | .tree _ | .find _ _ => False
  | _ => True

theorem World.Shuffled.answer_eq {s : Shuffle} {ok : σ → Prop} {w w' : World κ (σ × ρ)}
    {handles : σ × ρ → List Handle} (h : Shuffled s ok w w') (hhandles : s.Handles ok handles)
    {α : Type} {q : Query α} (hq : q.Discreet fun i => ¬ s.Owns i) :
    q.answer handles w' = q.answer handles w := by
  cases q with
  | peek o key => exact h.heaps.peek o key
  | contains o key =>
    show ((w'.heap.slots o).find? key).isSome = ((w.heap.slots o).find? key).isSome
    refine h.heaps.congr (f := fun h => ((h.slots o).find? key).isSome) fun h => ?_
    show (h.nameless.slot? o key).isSome = (h.slot? o key).isSome
    rw [Heap.slot?_nameless, Option.isSome_map]
  | isReactive o key =>
    exact h.heaps.congr (f := fun h => h.isReactive o key) fun h => h.isReactive_nameless o key
  | subscriberCount o key => exact (h.heaps.lists o key).length
  | keys o => exact h.heaps.keys o
  | snapshot v => exact h.heaps.congr (f := fun h => h.snapshot v) fun h => h.snapshot_nameless v
  | text v => exact h.heaps.text v
  | inspect v => exact h.heaps.congr (f := fun h => h.inspect v) fun h => h.inspect_nameless v
  | isAlive o => exact h.isAlive hhandles o
  | collecting => exact h.current'.trans h.current.symm
  | watcher i =>
    have hi := h.watcher? i
    rw [Shuffle.rename_of_not_owns hq] at hi
    exact congrArg (Option.map _) hi
  | tree n => exact hq.elim
  | find n selector => exact hq.elim

end DataBinding
