import DataBinding.Proofs.Trees
import Mathlib.Data.List.Nodup
import Mathlib.Data.List.Pairwise
import Mathlib.Logic.Relation

/-!
# What lies below a node

A node is below another if children lead there, and inside it if they do so through elements alone.
A document has a tree: then what is below its top is what the tree lists. If the tree lists every
node once, each node but the top has one parent in it, so the ways down to a node share all of
what they have above it.

The subtree at a node is listed in one piece, a part. `Tree.Of.exists_graft` puts another tree in
its place: the listing changes in that piece only.

Trees are finite. So no node is strictly below itself, no way down is longer than the document has
nodes, and the tree that a document gives for a node is read to the bottom, whether or not it lists
nodes twice.
-/

namespace DataBinding

namespace Document

variable {κ : Type}

/-- Whether children lead from one node to another. Every node is below itself. -/
def Below (d : Document κ) : NodeId → NodeId → Prop :=
  Relation.ReflTransGen fun parent child => child ∈ d.children parent

/-- Whether children lead down from one node to another. -/
def StrictlyBelow (d : Document κ) : NodeId → NodeId → Prop :=
  Relation.TransGen fun parent child => child ∈ d.children parent

/-- Whether children of elements lead from one node to another. Every node is inside itself. -/
def Inside (d : Document κ) : NodeId → NodeId → Prop :=
  Relation.ReflTransGen fun parent child =>
    (d.content parent).isElement = true ∧ child ∈ d.children parent

theorem Inside.below {d : Document κ} {n m : NodeId} (h : d.Inside n m) : d.Below n m :=
  Relation.ReflTransGen.mono (fun _ _ hstep => hstep.2) n m h

theorem Below.eq_of_leaf {d : Document κ} {n m : NodeId} (h : d.Below n m)
    (hn : d.children n = []) : m = n := by
  rcases Relation.ReflTransGen.cases_head h with heq | ⟨c, hstep, -⟩
  · exact heq.symm
  · rw [hn] at hstep
    cases hstep

/-- No list without repetitions has more nodes than there are. -/
theorem length_le_size {d : Document κ} {nodes : List NodeId} (hnodup : nodes.Nodup)
    (hhas : ∀ n ∈ nodes, d.has n) : nodes.length ≤ d.size := by
  have hsubset : nodes ⊆ (List.range d.size).map NodeId.mk := fun n hn =>
    List.mem_map.mpr ⟨n.index, List.mem_range.mpr (hhas n hn), rfl⟩
  have hlength := hnodup.length_le_of_subset hsubset
  rwa [List.length_map, List.length_range] at hlength

theorem id_treeWithin (d : Document κ) (depth : Nat) (n : NodeId) :
    (d.treeWithin depth n).id = n := by
  cases depth <;> rfl

theorem content_treeWithin (d : Document κ) (depth : Nat) (n : NodeId) :
    (d.treeWithin depth n).content = d.content n := by
  cases depth <;> rfl

end Document

namespace Tree

open Document

variable {κ : Type} {d d' : Document κ} {n m k : NodeId}

theorem id_mem_ids (t : Tree) : t.id ∈ t.ids := by
  cases t
  exact List.mem_cons_self

/-- A tree lists its top and then what is listed below. -/
theorem ids_eq_cons (t : Tree) : t.ids = t.id :: idsOf t.children := by
  cases t
  rfl

theorem Of.content_id {t : Tree} (h : t.Of d) : d.content t.id = t.content := by
  cases t
  exact h.2.1

theorem AllIn.of_mem {ts : List Tree} (h : AllIn d ts) : ∀ t ∈ ts, t.Of d := by
  induction ts with
  | nil => exact fun t ht => absurd ht List.not_mem_nil
  | cons first rest ih =>
    intro t ht
    rcases List.mem_cons.mp ht with rfl | ht
    · exact h.1
    · exact ih h.2 t ht

theorem mem_idsOf {ts : List Tree} {t : Tree} (ht : t ∈ ts) (hk : k ∈ t.ids) : k ∈ idsOf ts := by
  induction ts with
  | nil => cases ht
  | cons first rest ih =>
    rcases List.mem_cons.mp ht with rfl | ht
    · exact List.mem_append_left _ hk
    · exact List.mem_append_right _ (ih ht)

/-! ## What a tree lists -/

mutual

/-- Every node that is listed is below the top. -/
theorem Of.below {t : Tree} (h : t.Of d) (hk : k ∈ t.ids) : d.Below t.id k := by
  match t with
  | .node id content listeners children =>
    rcases List.mem_cons.mp hk with rfl | hk
    · exact .refl
    · obtain ⟨c, hc, hbelow⟩ := AllIn.below h.2.2.2 hk
      have hchild : c.id ∈ d.children id := by
        rw [h.2.2.1]
        exact List.mem_map_of_mem hc
      exact .head hchild hbelow

theorem AllIn.below {ts : List Tree} (h : AllIn d ts) (hk : k ∈ idsOf ts) :
    ∃ c ∈ ts, d.Below c.id k := by
  match ts with
  | [] => exact absurd hk (by simp [idsOf])
  | t :: rest =>
    rcases List.mem_append.mp hk with hk | hk
    · exact ⟨t, List.mem_cons_self, Of.below h.1 hk⟩
    · obtain ⟨c, hc, hbelow⟩ := AllIn.below h.2 hk
      exact ⟨c, List.mem_cons_of_mem _ hc, hbelow⟩

end

mutual

/-- The nodes of a tree are its top and all their children. -/
theorem Of.ids_perm {t : Tree} (h : t.Of d) : t.ids.Perm (t.id :: t.ids.flatMap d.children) := by
  match t with
  | .node id content listeners children =>
    refine .cons id ?_
    rw [ids, List.flatMap_cons, h.2.2.1]
    exact AllIn.ids_perm h.2.2.2

theorem AllIn.ids_perm {ts : List Tree} (h : AllIn d ts) :
    (idsOf ts).Perm (ts.map Tree.id ++ (idsOf ts).flatMap d.children) := by
  match ts with
  | [] => exact .refl _
  | t :: rest =>
    have hfirst := Of.ids_perm h.1
    have hrest := AllIn.ids_perm h.2
    rw [idsOf, List.map_cons, List.flatMap_append, List.cons_append]
    refine (hfirst.append hrest).trans ?_
    rw [List.cons_append]
    refine .cons t.id ?_
    rw [← List.append_assoc, ← List.append_assoc]
    exact List.perm_append_comm.append_right _

end

section

variable {t u : Tree}

/-- Children of what a tree lists are listed. -/
theorem Of.child_mem (h : t.Of d) (hn : n ∈ t.ids) (hk : k ∈ d.children n) : k ∈ t.ids :=
  h.ids_perm.mem_iff.mpr (List.mem_cons_of_mem _ (List.mem_flatMap.mpr ⟨n, hn, hk⟩))

/-- What is below a listed node is listed. -/
theorem Of.mem_of_below (h : t.Of d) (hn : n ∈ t.ids) (hk : d.Below n k) : k ∈ t.ids := by
  induction hk with
  | refl => exact hn
  | tail _ hstep ih => exact h.child_mem ih hstep

theorem Of.below_iff (h : t.Of d) : d.Below t.id k ↔ k ∈ t.ids :=
  ⟨h.mem_of_below t.id_mem_ids, h.below⟩

/-- What is listed after the top is strictly below it, and nothing else is. -/
theorem Of.strictlyBelow_iff (h : t.Of d) : d.StrictlyBelow t.id k ↔ k ∈ idsOf t.children := by
  obtain ⟨id, content, listeners, children⟩ := t
  obtain ⟨-, -, hchildren, hall⟩ := h
  show Relation.TransGen _ id k ↔ k ∈ idsOf children
  rw [Relation.TransGen.head'_iff, hchildren]
  constructor
  · rintro ⟨n, hn, hbelow⟩
    obtain ⟨c, hc, rfl⟩ := List.mem_map.mp hn
    exact mem_idsOf hc ((hall.of_mem c hc).mem_of_below c.id_mem_ids hbelow)
  · intro hk
    obtain ⟨c, hc, hbelow⟩ := AllIn.below hall hk
    exact ⟨c.id, List.mem_map_of_mem hc, hbelow⟩

/-! ## Trees that list every node once -/

/-- The top of a tree is no child in it. -/
theorem Of.id_not_child (h : t.Of d) (hnodup : t.ids.Nodup) (hn : n ∈ t.ids) :
    t.id ∉ d.children n := by
  have hapart := (List.nodup_cons.mp (h.ids_perm.nodup_iff.mp hnodup)).1
  exact fun hchild => hapart (List.mem_flatMap.mpr ⟨n, hn, hchild⟩)

/-- No node is a child of two. -/
theorem Of.parent_unique (h : t.Of d) (hnodup : t.ids.Nodup) (hn : n ∈ t.ids) (hm : m ∈ t.ids)
    (hkn : k ∈ d.children n) (hkm : k ∈ d.children m) : n = m := by
  refine Classical.byContradiction fun hne => ?_
  have hchildren := (List.nodup_cons.mp (h.ids_perm.nodup_iff.mp hnodup)).2
  have hapart := (List.nodup_flatMap.mp hchildren).2
  have hsymm : Std.Symm (Function.onFun List.Disjoint d.children) := ⟨fun _ _ h _ ha hb => h hb ha⟩
  exact hapart.forall hn hm hne hkn hkm

/-! ## Ways from outside a subtree -/

/-- Ways that avoid what has changed are the same. -/
theorem Of.inside_of_same (h : t.Of d) (hm : m ∈ t.ids)
    (hsame : ∀ p ∈ t.ids, ¬ d.Below n p → d'.node p = d.node p) (hk : ¬ d.Below n k)
    (hmk : d.Inside m k) : d'.Inside m k := by
  induction hmk with
  | refl => exact .refl
  | @tail p k hmp hstep ih =>
    have hp : ¬ d.Below n p := fun hbelow => hk (hbelow.tail hstep.2)
    refine (ih hp).tail ?_
    unfold Document.content Document.children
    rw [hsame p (h.mem_of_below hm (Inside.below hmp)) hp]
    exact hstep

/-- A node with elements only above it is inside them all. -/
theorem Of.inside_of_below (h : t.Of d) (hm : m ∈ t.ids)
    (habove : ∀ k ∈ t.ids, d.Below k n → k ≠ n → (d.content k).isElement = true)
    (hmn : d.Below m n) : d.Inside m n := by
  induction hmn using Relation.ReflTransGen.head_induction_on with
  | refl => exact .refl
  | @head p c hstep hrest ih =>
    by_cases hpn : p = n
    · rw [hpn]
      exact .refl
    · exact .head ⟨habove p hm (.head hstep hrest) hpn, hstep⟩ (ih (h.child_mem hm hstep))

end

/-- A document has a tree that lists every node once, and the subtree `u` of it in one piece. -/
structure Part (d : Document κ) (t u : Tree) (before after : List NodeId) : Prop where
  of : t.Of d
  nodup : t.ids.Nodup
  sub : u.Of d
  ids_eq : t.ids = before ++ u.ids ++ after

namespace Part

variable {t u : Tree} {before after : List NodeId} (h : Part d t u before after)

include h

theorem sublist : u.ids.Sublist t.ids := by
  rw [h.ids_eq, List.append_assoc]
  exact (List.sublist_append_left _ _).trans (List.sublist_append_right _ _)

theorem sub_nodup : u.ids.Nodup := h.nodup.sublist h.sublist

theorem mem_iff : k ∈ t.ids ↔ k ∈ before ++ after ∨ k ∈ u.ids := by
  rw [h.ids_eq]
  simp only [List.mem_append, or_right_comm]

theorem not_mem (hk : k ∈ before ++ after) : k ∉ u.ids := by
  intro hku
  have hnodup := h.nodup
  rw [h.ids_eq, List.append_assoc] at hnodup
  obtain ⟨-, hrest, hbefore⟩ := List.nodup_append.mp hnodup
  obtain ⟨-, -, hafter⟩ := List.nodup_append.mp hrest
  rcases List.mem_append.mp hk with hk | hk
  · exact hbefore k hk k (List.mem_append_left _ hku) rfl
  · exact hafter k hku k hk rfl

theorem not_below (hk : k ∈ before ++ after) : ¬ d.Below u.id k := fun hbelow =>
  h.not_mem hk (h.sub.below_iff.mp hbelow)

/-- The nodes around a part stay apart from another list of nodes where all that were there before
are from the part. -/
theorem nodup_of_mem {ids : List NodeId} (hids : ids.Nodup)
    (hold : ∀ k ∈ ids, d.has k → k ∈ u.ids) : (before ++ ids ++ after).Nodup := by
  have haround : (before ++ after).Nodup := by
    refine h.nodup.sublist ?_
    rw [h.ids_eq, List.append_assoc]
    exact (List.Sublist.refl before).append (List.sublist_append_right _ _)
  rw [List.append_assoc]
  refine (List.perm_append_comm_assoc before ids after).nodup_iff.mpr ?_
  refine List.nodup_append.mpr ⟨hids, haround, ?_⟩
  rintro k hk _ hk' rfl
  exact h.not_mem hk' (hold k hk (h.of.has k (h.mem_iff.mpr (.inl hk'))))

/-- Ways from elsewhere into a part pass its top. -/
theorem inside_of_mem (hm : m ∈ t.ids) (hn : d.Inside m u.id) (hk : k ∈ u.ids)
    (hmk : d.Inside m k) : d.Inside u.id k := by
  induction hmk with
  | refl =>
    -- the top of the part is reached from a node in it, so that node is the top
    rcases Relation.ReflTransGen.cases_tail hn with heq | ⟨p, hmp, hstep⟩
    · rw [heq]
      exact .refl
    · have hp : p ∈ u.ids := h.sub.mem_of_below hk (Inside.below hmp)
      exact absurd hstep.2 (h.sub.id_not_child h.sub_nodup hp)
  | @tail p k hmp hstep ih =>
    by_cases hku : k = u.id
    · rw [hku]
      exact .refl
    · obtain ⟨q, hq, hkq⟩ : ∃ q ∈ u.ids, k ∈ d.children q := by
        have hmem := List.mem_cons.mp (h.sub.ids_perm.mem_iff.mp hk)
        exact List.mem_flatMap.mp (hmem.resolve_left hku)
      have hp : p ∈ t.ids := h.of.mem_of_below hm (Inside.below hmp)
      have hpq : p = q := h.of.parent_unique h.nodup hp (h.sublist.subset hq) hstep.2 hkq
      exact (ih (hpq ▸ hq)).tail hstep

/-- A node above the top of a part stands outside the part. -/
theorem mem_around_of_inside (hm : m ∈ t.ids) (hmu : d.Inside m u.id) (hne : m ≠ u.id) :
    m ∈ before ++ after := by
  refine (h.mem_iff.mp hm).resolve_right fun hmem => ?_
  obtain ⟨p, hmp, hstep⟩ := (Relation.ReflTransGen.cases_tail hmu).resolve_left (Ne.symm hne)
  exact h.sub.id_not_child h.sub_nodup (h.sub.mem_of_below hmem (Inside.below hmp)) hstep.2

/-- The ways to the top of a part are the same if nothing outside the part has changed. -/
theorem inside_top_of_same (hm : m ∈ t.ids)
    (hsame : ∀ p ∈ t.ids, ¬ d.Below u.id p → d'.node p = d.node p) (hmu : d.Inside m u.id) :
    d'.Inside m u.id := by
  rcases Relation.ReflTransGen.cases_tail hmu with heq | ⟨p, hmp, hstep⟩
  · rw [heq]
    exact .refl
  · have hp : ¬ d.Below u.id p := fun hbelow =>
      h.sub.id_not_child h.sub_nodup (h.sub.below_iff.mp hbelow) hstep.2
    refine (h.of.inside_of_same hm hsame hp hmp).tail ?_
    unfold Document.content Document.children
    rw [hsame p (h.of.mem_of_below hm (Inside.below hmp)) hp]
    exact hstep

end Part

/-! ## Another tree in the place of a subtree -/

mutual

/-- At each node of a tree there is a subtree that is listed in one piece; and where a later
document has another tree at that node and is the same elsewhere, it has the tree with that one in
its place. -/
theorem Of.exists_graft {t : Tree} (h : t.Of d) (hn : n ∈ t.ids) :
    ∃ (u : Tree) (before after : List NodeId), u.Of d ∧ u.id = n ∧
      t.ids = before ++ u.ids ++ after ∧
      ∀ (d' : Document κ) (v : Tree), d.Extends d' → v.Of d' → v.id = n →
        (∀ m ∈ before ++ after, d'.node m = d.node m) →
        ∃ t' : Tree, t'.Of d' ∧ t'.id = t.id ∧ t'.ids = before ++ v.ids ++ after := by
  match t with
  | .node id content listeners children =>
    by_cases heq : n = id
    · subst heq
      refine ⟨_, [], [], h, rfl, by simp, ?_⟩
      intro d' v _ hv hid _
      exact ⟨v, hv, hid, by simp⟩
    · obtain ⟨u, before, after, hu, hid, hids, hgraft⟩ :=
        AllIn.exists_graft h.2.2.2 ((List.mem_cons.mp hn).resolve_left heq)
      refine ⟨u, id :: before, after, hu, hid, ?_, ?_⟩
      · rw [ids, hids]
        rfl
      · intro d' v hd hv hvid hsame
        obtain ⟨ts', hall, hmap, hids'⟩ := hgraft d' v hd hv hvid fun m hm =>
          hsame m (List.mem_cons_of_mem _ hm)
        have hnode : d'.node id = d.node id := hsame id List.mem_cons_self
        refine ⟨.node id content listeners ts', ⟨hd.has h.1, ?_, ?_, hall⟩, rfl, ?_⟩
        · rw [Document.content, hnode]
          exact h.2.1
        · rw [Document.children, hnode, hmap]
          exact h.2.2.1
        · rw [ids, hids']
          rfl

theorem AllIn.exists_graft {ts : List Tree} (h : AllIn d ts) (hn : n ∈ idsOf ts) :
    ∃ (u : Tree) (before after : List NodeId), u.Of d ∧ u.id = n ∧
      idsOf ts = before ++ u.ids ++ after ∧
      ∀ (d' : Document κ) (v : Tree), d.Extends d' → v.Of d' → v.id = n →
        (∀ m ∈ before ++ after, d'.node m = d.node m) →
        ∃ ts' : List Tree, AllIn d' ts' ∧ ts'.map Tree.id = ts.map Tree.id ∧
          idsOf ts' = before ++ v.ids ++ after := by
  -- the node is in the first tree or in a later one; the other trees stay as they are
  match ts with
  | [] => exact absurd hn (by simp [idsOf])
  | t :: rest =>
    rcases List.mem_append.mp hn with hn | hn
    · obtain ⟨u, before, after, hu, hid, hids, hgraft⟩ := Of.exists_graft h.1 hn
      refine ⟨u, before, after ++ idsOf rest, hu, hid, ?_, ?_⟩
      · rw [idsOf, hids, List.append_assoc _ after]
      · intro d' v hd hv hvid hsame
        obtain ⟨t', ht', hid', hids'⟩ := hgraft d' v hd hv hvid fun m hm =>
          hsame m (by rw [← List.append_assoc]; exact List.mem_append_left _ hm)
        have hrest : AllIn d' rest := h.2.of_node_eq hd fun m hm =>
          hsame m (by rw [← List.append_assoc]; exact List.mem_append_right _ hm)
        refine ⟨t' :: rest, ⟨ht', hrest⟩, ?_, ?_⟩
        · rw [List.map_cons, List.map_cons, hid']
        · rw [idsOf, hids', List.append_assoc _ after]
    · obtain ⟨u, before, after, hu, hid, hids, hgraft⟩ := AllIn.exists_graft h.2 hn
      refine ⟨u, t.ids ++ before, after, hu, hid, ?_, ?_⟩
      · rw [idsOf, hids]
        simp only [List.append_assoc]
      · intro d' v hd hv hvid hsame
        obtain ⟨ts', hall, hmap, hids'⟩ := hgraft d' v hd hv hvid fun m hm =>
          hsame m (by rw [List.append_assoc]; exact List.mem_append_right _ hm)
        have ht : t.Of d' := h.1.of_node_eq hd fun m hm =>
          hsame m (by rw [List.append_assoc]; exact List.mem_append_left _ hm)
        refine ⟨t :: ts', ⟨ht, hall⟩, ?_, ?_⟩
        · rw [List.map_cons, List.map_cons, hmap]
        · rw [idsOf, hids']
          simp only [List.append_assoc]

end

/-! ## Trees are finite -/

mutual

/-- A document lists one thing below a node, whichever tree it is read off. -/
theorem Of.ids_eq {t u : Tree} (ht : t.Of d) (hu : u.Of d) (hid : t.id = u.id) :
    t.ids = u.ids := by
  match t, u with
  | .node id _ _ children, .node id' _ _ children' =>
    obtain rfl : id = id' := hid
    have hchildren := ht.2.2.1.symm.trans hu.2.2.1
    rw [ids, ids, AllIn.idsOf_eq ht.2.2.2 hu.2.2.2 hchildren]

theorem AllIn.idsOf_eq {ts us : List Tree} (hts : AllIn d ts) (hus : AllIn d us)
    (hids : ts.map Tree.id = us.map Tree.id) : idsOf ts = idsOf us := by
  match ts, us with
  | [], [] => rfl
  | [], u :: us => cases hids
  | t :: ts, [] => cases hids
  | t :: ts, u :: us =>
    obtain ⟨hfirst, hrest⟩ := List.cons.inj hids
    rw [idsOf, idsOf, Of.ids_eq hts.1 hus.1 hfirst, AllIn.idsOf_eq hts.2 hus.2 hrest]

end

/-- The top of a tree is not below itself: there would be a piece of the list that is as long as
the list. -/
theorem Of.id_not_mem {t : Tree} (h : t.Of d) : t.id ∉ idsOf t.children := by
  obtain ⟨id, content, listeners, children⟩ := t
  intro hmem
  obtain ⟨u, before, after, hu, hid, hids, -⟩ := AllIn.exists_graft h.2.2.2 hmem
  have hlength := congrArg List.length hids
  rw [hu.ids_eq h hid, ids] at hlength
  simp only [List.length_append, List.length_cons] at hlength
  omega

mutual

/-- Read to as many levels as there are nodes, apart from those above, a tree is read whole. -/
theorem Of.of_treeWithin {t : Tree} (h : t.Of d) {above : List NodeId} (hnodup : above.Nodup)
    (hhas : ∀ k ∈ above, d.has k) (hapart : ∀ k ∈ t.ids, k ∉ above) {depth : Nat}
    (hdepth : d.size ≤ above.length + depth) : (d.treeWithin depth t.id).Of d := by
  match t with
  | .node id content listeners children =>
    have hnodup' : (id :: above).Nodup :=
      List.nodup_cons.mpr ⟨hapart id List.mem_cons_self, hnodup⟩
    have hhas' : ∀ k ∈ id :: above, d.has k := by
      rintro k (_ | ⟨_, hk⟩)
      · exact h.1
      · exact hhas k hk
    have hlength : above.length + 1 ≤ d.size := length_le_size hnodup' hhas'
    obtain ⟨depth, rfl⟩ : ∃ k, depth = k + 1 := ⟨depth - 1, by omega⟩
    have hapart' : ∀ k ∈ idsOf children, k ∉ id :: above := by
      rintro k hk (_ | ⟨_, hmem⟩)
      · exact h.id_not_mem hk
      · exact hapart k (List.mem_cons_of_mem _ hk) hmem
    have hbelow : AllIn d ((children.map Tree.id).map (d.treeWithin depth)) :=
      AllIn.of_treeWithin h.2.2.2 hnodup' hhas' hapart' (by rw [List.length_cons]; omega)
    refine ⟨h.1, rfl, ?_, ?_⟩
    · simp [id_treeWithin, Function.comp_def]
    · rwa [← h.2.2.1] at hbelow

theorem AllIn.of_treeWithin {ts : List Tree} (h : AllIn d ts) {above : List NodeId}
    (hnodup : above.Nodup) (hhas : ∀ k ∈ above, d.has k) (hapart : ∀ k ∈ idsOf ts, k ∉ above)
    {depth : Nat} (hdepth : d.size ≤ above.length + depth) :
    AllIn d ((ts.map Tree.id).map (d.treeWithin depth)) := by
  match ts with
  | [] => trivial
  | t :: rest =>
    have hfirst : ∀ k ∈ t.ids, k ∉ above := fun k hk => hapart k (List.mem_append_left _ hk)
    have hrest : ∀ k ∈ idsOf rest, k ∉ above := fun k hk => hapart k (List.mem_append_right _ hk)
    exact ⟨Of.of_treeWithin h.1 hnodup hhas hfirst hdepth,
      AllIn.of_treeWithin h.2 hnodup hhas hrest hdepth⟩

end

/-- What a document gives for the tree of a node is a tree it has. -/
theorem Of.of_tree {t : Tree} (h : t.Of d) : (d.tree t.id).Of d :=
  h.of_treeWithin List.nodup_nil (by simp) (by simp) (by simp)

end Tree

end DataBinding
