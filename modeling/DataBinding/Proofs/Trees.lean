import DataBinding.Proofs.Nodes

/-!
# Trees in a document

A document has a tree if the nodes of the tree exist in it and hold what they hold in the tree.
Changes to other nodes leave it the tree. When a text takes the place of the children of an
element, its text content is that text.
-/

namespace DataBinding

namespace Document

variable {κ : Type}

/-! ## Nodes under changes elsewhere -/

theorem node_modifyNode_of_ne (d : Document κ) {n m : NodeId} (f : Node κ → Node κ) (hnm : n ≠ m) :
    (d.modifyNode n f).node m = d.node m := by
  rw [node_modifyNode, if_neg fun h => hnm h.1]

/-- Of the nodes that there are, only the one whose text is set is concerned. -/
theorem node_setText_of_ne {d : Document κ} {n m : NodeId} (text : String) (hm : d.has m)
    (hnm : n ≠ m) : (d.setText n text).node m = d.node m := by
  have hdetached : (d.detachChildren n).node m = d.node m := node_modifyNode_of_ne d _ hnm
  unfold setText
  split
  · exact node_modifyNode_of_ne d _ hnm
  · exact node_modifyNode_of_ne d _ hnm
  · dsimp only
    split
    · exact hdetached
    · unfold appendChildren
      rw [node_modifyNode_of_ne _ _ hnm, node_create, if_neg]
      · exact hdetached
      · rintro rfl
        unfold has detachChildren at hm
        rw [size_modifyNode] at hm
        exact Nat.lt_irrefl _ hm

theorem listeners_modifyNode (d : Document κ) (n : NodeId) {f : Node κ → Node κ}
    (hf : ∀ node, (f node).listeners = node.listeners) (m : NodeId) :
    ((d.modifyNode n f).node m).listeners = (d.node m).listeners := by
  rw [node_modifyNode]
  split
  · exact hf _
  · rfl

theorem listeners_create (d : Document κ) (content : Content) (m : NodeId) :
    ((d.create content).2.node m).listeners = (d.node m).listeners := by
  rw [node_create]
  split
  · next hm =>
    have hf : d.find? m.index = none := by
      rw [hm]
      exact Table.find?_eq_none_iff.mpr (Nat.le_refl _)
    simp only [node, hf]
    rfl
  · rfl

theorem listeners_detachChildren (d : Document κ) (n m : NodeId) :
    ((d.detachChildren n).node m).listeners = (d.node m).listeners :=
  listeners_modifyNode d n (f := fun node => { node with children := [] }) (fun _ => rfl) m

theorem listeners_appendChildren (d : Document κ) (n : NodeId) (cs : List NodeId) (m : NodeId) :
    ((d.appendChildren n cs).node m).listeners = (d.node m).listeners :=
  listeners_modifyNode d n (f := fun node => { node with children := node.children ++ cs })
    (fun _ => rfl) m

theorem listeners_setValue (d : Document κ) (n : NodeId) (value : String) (m : NodeId) :
    ((d.setValue n value).node m).listeners = (d.node m).listeners :=
  listeners_modifyNode d n
    (f := fun node => { node with content := node.content.setValue value }) (fun _ => rfl) m

/-- Setting a text adds no listener and takes none away. -/
theorem listeners_setText (d : Document κ) (n : NodeId) (text : String) (m : NodeId) :
    ((d.setText n text).node m).listeners = (d.node m).listeners := by
  have hcontent : ∀ content, ((d.modifyNode n fun node => { node with content }).node m).listeners =
      (d.node m).listeners := fun content =>
    listeners_modifyNode d n (f := fun node => { node with content }) (fun _ => rfl) m
  unfold setText
  split
  · exact hcontent _
  · exact hcontent _
  · dsimp only
    split
    · exact listeners_detachChildren d n m
    · rw [listeners_appendChildren, listeners_create, listeners_detachChildren]

theorem listeners_addListener {d : Document κ} {n : NodeId} (hn : d.has n) (event : String)
    (l : Listener κ) (m : NodeId) :
    ((d.addListener n event l).node m).listeners =
      (d.node m).listeners ++ if n = m then [(event, l)] else [] := by
  unfold addListener
  rw [node_modifyNode]
  by_cases hnm : n = m
  · rw [if_pos hnm, if_pos ⟨hnm, hnm ▸ hn⟩]
  · rw [if_neg hnm, if_neg fun h => hnm h.1, List.append_nil]

/-! ## Texts in the place of children -/

/-- In the place of its children a node has a text, in a node numbered from `size` on; or nothing,
if the text is empty. -/
def HasTextBelow (d : Document κ) (size : Nat) (n : NodeId) (text : String) : Prop :=
  d.children n = [] ∧ text = "" ∨
    ∃ m : NodeId, size ≤ m.index ∧ d.has m ∧ d.children n = [m] ∧ d.content m = .text text ∧
      d.children m = []

/-- The children of an element make room for one text node. -/
theorem hasTextBelow_setText {d : Document κ} {n : NodeId} (hn : d.has n)
    (helement : (d.content n).isElement = true) (text : String) :
    (d.setText n text).HasTextBelow d.size n text := by
  unfold setText
  cases hc : d.content n with
  | text s =>
    rw [hc] at helement
    cases helement
  | comment s =>
    rw [hc] at helement
    cases helement
  | element tag attributes value =>
    have hdetached : (d.detachChildren n).children n = [] := by
      unfold detachChildren
      rw [children_modifyNode, if_pos ⟨rfl, hn⟩]
    have hsize : (d.detachChildren n).size = d.size := size_modifyNode _ _ _
    dsimp only
    split
    · next hempty =>
      refine .inl ⟨hdetached, ?_⟩
      exact String.isEmpty_iff.mp hempty
    · -- the new node has the first number that is free
      have hne : n ≠ ⟨d.size⟩ := by
        rintro rfl
        exact Nat.lt_irrefl _ hn
      have hhas : ((d.detachChildren n).create (.text text)).2.has n := by
        unfold has
        rw [size_create, hsize]
        exact Nat.lt_succ_of_lt hn
      have hnode : ((d.detachChildren n).create (.text text)).2.node ⟨d.size⟩ =
          { content := .text text } := by
        rw [node_create, hsize, if_pos rfl]
      refine .inr ⟨⟨d.size⟩, Nat.le_refl _, ?_, ?_, ?_, ?_⟩
      · unfold has appendChildren
        rw [size_modifyNode, size_create, hsize]
        exact Nat.lt_succ_self _
      · unfold appendChildren
        rw [children_modifyNode, if_pos ⟨rfl, hhas⟩]
        show (((d.detachChildren n).create (.text text)).2.children n) ++ [_] = _
        unfold children
        rw [node_create, hsize, if_neg hne]
        show (d.detachChildren n).children n ++ _ = _
        rw [hdetached, List.nil_append]
        show [NodeId.mk (d.detachChildren n).size] = _
        rw [hsize]
      · unfold content appendChildren
        rw [node_modifyNode_of_ne _ _ hne, hnode]
      · unfold children appendChildren
        rw [node_modifyNode_of_ne _ _ hne, hnode]

theorem HasTextBelow.le_of_mem_children {d : Document κ} {size : Nat} {n m : NodeId} {text : String}
    (h : d.HasTextBelow size n text) (hm : m ∈ d.children n) : size ≤ m.index := by
  rcases h with ⟨hchildren, _⟩ | ⟨k, hk, _, hchildren, _⟩
  · rw [hchildren] at hm
    cases hm
  · rw [hchildren] at hm
    rw [List.mem_singleton.mp hm]
    exact hk

theorem HasTextBelow.of_le {d : Document κ} {size size' : Nat} {n : NodeId} {text : String}
    (h : d.HasTextBelow size' n text) (hsize : size ≤ size') : d.HasTextBelow size n text := by
  rcases h with h | ⟨m, hm, hhas, hrest⟩
  · exact .inl h
  · exact .inr ⟨m, Nat.le_trans hsize hm, hhas, hrest⟩

/-- The text stays if neither the node nor any with a late number is touched. -/
theorem HasTextBelow.of_children {d d' : Document κ} {size : Nat} {n : NodeId} {text : String}
    (h : d.HasTextBelow size n text) (hd : d.Extends d') (hn : d'.children n = d.children n)
    (hlate : ∀ m, d.has m → size ≤ m.index → d'.node m = d.node m) :
    d'.HasTextBelow size n text := by
  rcases h with ⟨hchildren, htext⟩ | ⟨m, hm, hhas, hchildren, hcontent, hleaf⟩
  · exact .inl ⟨hn.trans hchildren, htext⟩
  · have hnode := hlate m hhas hm
    refine .inr ⟨m, hm, hd.has hhas, hn.trans hchildren, ?_, ?_⟩
    · rw [content, hnode]
      exact hcontent
    · rw [children, hnode]
      exact hleaf

/-- An element with a text in the place of its children has that text as its text content. -/
theorem HasTextBelow.textContent {d : Document κ} {size : Nat} {n : NodeId} {text : String}
    (h : d.HasTextBelow size n text) (hn : d.has n) (helement : (d.content n).isElement = true) :
    d.textContent n = text := by
  obtain ⟨tag, attributes, value, hc⟩ : ∃ tag attributes value,
      d.content n = .element tag attributes value := by
    cases hc : d.content n with
    | element tag attributes value => exact ⟨tag, attributes, value, rfl⟩
    | text s =>
      rw [hc] at helement
      cases helement
    | comment s =>
      rw [hc] at helement
      cases helement
  obtain ⟨k, hk⟩ : ∃ k, d.size = k + 1 := ⟨d.size - 1, by unfold has at hn; omega⟩
  unfold Document.textContent tree
  rw [hk, treeWithin, hc, Tree.text]
  rcases h with ⟨hchildren, rfl⟩ | ⟨m, _, _, hchildren, hcontent, hleaf⟩
  · rw [hchildren]
    rfl
  · have htext : ∀ j, (d.treeWithin j m).content = .text text ∧ (d.treeWithin j m).text = text := by
      intro j
      cases j <;> rw [treeWithin, hcontent] <;> exact ⟨rfl, rfl⟩
    obtain ⟨hcontent', htext'⟩ := htext k
    rw [hchildren, List.map_singleton, Tree.textOfChildren, Tree.textOfChildren, hcontent', htext']
    simp [Content.isComment]

end Document

/-! ## Trees -/

namespace Tree

variable {κ : Type}

mutual

/-- All nodes of a tree, each before those below it. -/
def ids : Tree → List NodeId
  | .node id _ _ children => id :: idsOf children

/-- All nodes of trees in a row. -/
def idsOf : List Tree → List NodeId
  | [] => []
  | tree :: rest => tree.ids ++ idsOf rest

end

mutual

/-- How many levels a tree has. -/
def height : Tree → Nat
  | .node _ _ _ children => heightOf children + 1

/-- How many levels the highest of some trees has. -/
def heightOf : List Tree → Nat
  | [] => 0
  | tree :: rest => max tree.height (heightOf rest)

end

mutual

/-- Whether a document has a tree. -/
def Of (d : Document κ) : Tree → Prop
  | .node id content _ children =>
    d.has id ∧ d.content id = content ∧ d.children id = children.map Tree.id ∧ AllIn d children

/-- Whether a document has all trees in a row. -/
def AllIn (d : Document κ) : List Tree → Prop
  | [] => True
  | tree :: rest => tree.Of d ∧ AllIn d rest

end

mutual

theorem Of.has {d : Document κ} {t : Tree} (h : t.Of d) : ∀ n ∈ t.ids, d.has n := by
  match t with
  | .node id _ _ children =>
    intro n hn
    rcases List.mem_cons.mp hn with rfl | hn
    · exact h.1
    · exact AllIn.has h.2.2.2 n hn

theorem AllIn.has {d : Document κ} {ts : List Tree} (h : AllIn d ts) :
    ∀ n ∈ idsOf ts, d.has n := by
  match ts with
  | [] => exact fun n hn => absurd hn (by simp [idsOf])
  | t :: rest =>
    intro n hn
    rcases List.mem_append.mp hn with hn | hn
    · exact Of.has h.1 n hn
    · exact AllIn.has h.2 n hn

end

mutual

/-- A later document has a tree still if its nodes are the same. -/
theorem Of.of_node_eq {d d' : Document κ} (hd : d.Extends d') {t : Tree} (h : t.Of d)
    (hsame : ∀ n ∈ t.ids, d'.node n = d.node n) : t.Of d' := by
  match t with
  | .node id content _ children =>
    obtain ⟨hhas, hcontent, hchildren, hbelow⟩ := h
    have hnode := hsame id List.mem_cons_self
    refine ⟨hd.has hhas, ?_, ?_, ?_⟩
    · rw [Document.content, hnode]
      exact hcontent
    · rw [Document.children, hnode]
      exact hchildren
    · exact AllIn.of_node_eq hd hbelow fun n hn => hsame n (List.mem_cons_of_mem _ hn)

theorem AllIn.of_node_eq {d d' : Document κ} (hd : d.Extends d') {ts : List Tree}
    (h : AllIn d ts) (hsame : ∀ n ∈ idsOf ts, d'.node n = d.node n) : AllIn d' ts := by
  match ts with
  | [] => trivial
  | t :: rest =>
    exact ⟨Of.of_node_eq hd h.1 fun n hn => hsame n (List.mem_append_left _ hn),
      AllIn.of_node_eq hd h.2 fun n hn => hsame n (List.mem_append_right _ hn)⟩

end

end Tree

end DataBinding
