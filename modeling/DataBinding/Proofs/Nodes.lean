import DataBinding.Document.Selector

/-!
# What document operations do to nodes

One lemma for each operation on a document and what it leaves in the nodes. A node keeps its kind
for ever, and an operation on one node leaves the content of the others alone: where an element
gets a new text, a new node appears.

A document is closed if every child in it exists. What is found below a node of a closed document
exists.
-/

namespace DataBinding

namespace Content

/-- What a node holds after its text is set: elements keep what they hold themselves. -/
def withText (text : String) : Content → Content
  | .text _ => .text text
  | .comment _ => .comment text
  | element tag attributes value => element tag attributes value

/-- Only elements have a form value to set. -/
@[simp] theorem value_setValue (v : String) (c : Content) :
    (c.setValue v).value = if c.isElement then v else c.value := by
  cases c <;> rfl

@[simp] theorem value_setAttribute (name v : String) (c : Content) :
    (c.setAttribute name v).value = c.value := by
  cases c <;> rfl

@[simp] theorem value_withText (text : String) (c : Content) :
    (c.withText text).value = c.value := by
  cases c <;> rfl

/-- The text of an element stands in a node of its own, so the element is left as it is. -/
theorem withText_of_isElement {c : Content} (hc : c.isElement = true) (text : String) :
    c.withText text = c := by
  cases c <;> simp_all [isElement, withText]

/-- A text node has neither a form value nor attributes. -/
theorem setValue_of_isText {c : Content} (hc : c.isText = true) (v : String) :
    c.setValue v = c := by
  cases c <;> simp_all [isText, setValue]

theorem setAttribute_of_isText {c : Content} (hc : c.isText = true) (name v : String) :
    c.setAttribute name v = c := by
  cases c <;> simp_all [isText, setAttribute]

/-- Whether two contents are of the same kind. -/
def SameKind (c c' : Content) : Prop := c'.isElement = c.isElement ∧ c'.isText = c.isText

theorem SameKind.refl (c : Content) : c.SameKind c := ⟨rfl, rfl⟩

theorem SameKind.trans {a b c : Content} (hab : a.SameKind b) (hbc : b.SameKind c) :
    a.SameKind c := ⟨hbc.1.trans hab.1, hbc.2.trans hab.2⟩

/-- No operation makes an element of a text or a text of an element. -/
theorem sameKind_setValue (v : String) (c : Content) : c.SameKind (c.setValue v) := by
  cases c <;> exact ⟨rfl, rfl⟩

theorem sameKind_setAttribute (name v : String) (c : Content) :
    c.SameKind (c.setAttribute name v) := by
  cases c <;> exact ⟨rfl, rfl⟩

end Content

namespace Document

variable {κ : Type}

/-- Whether a node exists. -/
def has (d : Document κ) (n : NodeId) : Prop := n.index < d.size

instance (d : Document κ) (n : NodeId) : Decidable (d.has n) := Nat.decLt _ _

/-- Whether every child of every node exists. -/
def Closed (d : Document κ) : Prop := ∀ n c, c ∈ d.children n → d.has c

/-- The node after a change to one node. A change to a node that does not exist is lost. -/
theorem node_modifyNode (d : Document κ) (n : NodeId) (f : Node κ → Node κ) (m : NodeId) :
    (d.modifyNode n f).node m = if n = m ∧ d.has m then f (d.node m) else d.node m := by
  obtain ⟨i⟩ := n
  obtain ⟨j⟩ := m
  simp only [node, modifyNode, Table.find?_modify, NodeId.mk.injEq, has]
  by_cases hij : i = j
  · subst hij
    cases hf : d.find? i with
    | none =>
      have hlt : ¬ i < d.size := Nat.not_lt.mpr (Table.find?_eq_none_iff.mp hf)
      simp [hlt]
    | some node => simp [Table.lt_size_of_find? hf]
  · simp [hij]

/-- A new node takes the next number and leaves those there are alone. -/
theorem node_create (d : Document κ) (content : Content) (m : NodeId) :
    (d.create content).2.node m = if m = ⟨d.size⟩ then { content } else d.node m := by
  obtain ⟨j⟩ := m
  simp only [node, create, Table.find?_push, NodeId.mk.injEq]
  split <;> rfl

@[simp] theorem size_modifyNode (d : Document κ) (n : NodeId) (f : Node κ → Node κ) :
    (d.modifyNode n f).size = d.size := Table.size_modify _ _ _

@[simp] theorem size_create (d : Document κ) (content : Content) :
    (d.create content).2.size = d.size + 1 := Table.size_push _ _

/-! ## Contents -/

/-- The content after a change to one node. -/
theorem content_modifyNode (d : Document κ) (n : NodeId) (f : Node κ → Node κ) (m : NodeId) :
    (d.modifyNode n f).content m =
      if n = m ∧ d.has m then (f (d.node m)).content else d.content m := by
  unfold content
  rw [node_modifyNode]
  split <;> rfl

/-- Changing anything but the content. -/
theorem content_modifyNode_of_eq (d : Document κ) (n : NodeId) {f : Node κ → Node κ}
    (hf : ∀ node, (f node).content = node.content) (m : NodeId) :
    (d.modifyNode n f).content m = d.content m := by
  rw [content_modifyNode]
  split
  · exact hf _
  · rfl

/-- Listeners and children are no part of the content. -/
theorem content_addListener (d : Document κ) (n : NodeId) (event : String) (l : Listener κ)
    (m : NodeId) : (d.addListener n event l).content m = d.content m :=
  content_modifyNode_of_eq d n
    (f := fun node => { node with listeners := node.listeners ++ [(event, l)] }) (fun _ => rfl) m

theorem content_appendChildren (d : Document κ) (n : NodeId) (cs : List NodeId) (m : NodeId) :
    (d.appendChildren n cs).content m = d.content m :=
  content_modifyNode_of_eq d n
    (f := fun node => { node with children := node.children ++ cs }) (fun _ => rfl) m

theorem content_detachChildren (d : Document κ) (n : NodeId) (m : NodeId) :
    (d.detachChildren n).content m = d.content m :=
  content_modifyNode_of_eq d n (f := fun node => { node with children := [] }) (fun _ => rfl) m

/-- Attributes and form values are part of the content of their own node. -/
theorem content_setAttribute (d : Document κ) (n : NodeId) (name value : String) (m : NodeId) :
    (d.setAttribute n name value).content m =
      if n = m ∧ d.has m then (d.content m).setAttribute name value else d.content m :=
  content_modifyNode d n _ m

theorem content_setValue (d : Document κ) (n : NodeId) (value : String) (m : NodeId) :
    (d.setValue n value).content m =
      if n = m ∧ d.has m then (d.content m).setValue value else d.content m :=
  content_modifyNode d n _ m

/-- A new node has a number that no node has had. -/
theorem content_create (d : Document κ) (content : Content) {m : NodeId} (hm : d.has m) :
    (d.create content).2.content m = d.content m := by
  unfold Document.content
  rw [node_create, if_neg]
  rintro rfl
  exact Nat.lt_irrefl _ hm

/-- Setting a text changes the content of that node alone. -/
theorem content_setText (d : Document κ) (n : NodeId) (text : String) {m : NodeId}
    (hm : d.has m) :
    (d.setText n text).content m =
      if n = m then (d.content m).withText text else d.content m := by
  unfold setText
  cases hc : d.content n with
  | text s | comment s =>
    dsimp only
    rw [content_modifyNode]
    by_cases hnm : n = m
    · subst hnm
      simp [hm, hc, Content.withText]
    · simp [hnm]
  | element tag attributes value =>
    -- the text goes into a new node, so all nodes that there are keep their contents
    dsimp only
    have hdetached : (d.detachChildren n).content m = d.content m := content_detachChildren d n m
    have hsame : (if n = m then (d.content m).withText text else d.content m) = d.content m := by
      split
      · next hnm =>
        subst hnm
        rw [hc]
        rfl
      · rfl
    rw [hsame]
    split
    · exact hdetached
    · have hhas : (d.detachChildren n).has m := by
        unfold has detachChildren
        rw [size_modifyNode]
        exact hm
      rw [content_appendChildren, content_create _ _ hhas, hdetached]

/-! ## Children -/

/-- The children after a change to one node. -/
theorem children_modifyNode (d : Document κ) (n : NodeId) (f : Node κ → Node κ) (m : NodeId) :
    (d.modifyNode n f).children m =
      if n = m ∧ d.has m then (f (d.node m)).children else d.children m := by
  unfold children
  rw [node_modifyNode]
  split <;> rfl

/-- Changing a node leaves a document closed if the children it gets exist. -/
theorem Closed.modifyNode {d : Document κ} (hd : d.Closed) (n : NodeId) {f : Node κ → Node κ}
    (hf : ∀ node, ∀ c ∈ (f node).children, c ∈ node.children ∨ d.has c) :
    (d.modifyNode n f).Closed := by
  intro m c hc
  unfold has
  rw [size_modifyNode]
  rw [children_modifyNode] at hc
  split at hc
  · rcases hf _ c hc with hold | hnew
    · exact hd m c hold
    · exact hnew
  · exact hd m c hc

/-- A new node has no children, so there is nothing that could be missing. -/
theorem Closed.create {d : Document κ} (hd : d.Closed) (content : Content) :
    (d.create content).2.Closed := by
  intro m c hc
  unfold has
  rw [size_create]
  unfold children at hc
  rw [node_create] at hc
  split at hc
  · cases hc
  · exact Nat.lt_succ_of_lt (hd m c hc)

theorem Closed.detachChildren {d : Document κ} (hd : d.Closed) (n : NodeId) :
    (d.detachChildren n).Closed :=
  hd.modifyNode n fun _ _ hc => absurd hc (by simp)

/-- This is the operation by which a document could cease to be closed. -/
theorem Closed.appendChildren {d : Document κ} (hd : d.Closed) (n : NodeId) {cs : List NodeId}
    (hcs : ∀ c ∈ cs, d.has c) : (d.appendChildren n cs).Closed :=
  hd.modifyNode n fun _ c hc => (List.mem_append.mp hc).imp_right (hcs c)

/-- The node that holds the new text is created before it is appended. -/
theorem Closed.setText {d : Document κ} (hd : d.Closed) (n : NodeId) (text : String) :
    (d.setText n text).Closed := by
  unfold Document.setText
  split
  · exact hd.modifyNode n fun _ _ hc => .inl hc
  · exact hd.modifyNode n fun _ _ hc => .inl hc
  · dsimp only
    split
    · exact hd.detachChildren n
    · refine ((hd.detachChildren n).create _).appendChildren n fun c hc => ?_
      rw [List.mem_singleton.mp hc]
      unfold has
      rw [size_create]
      exact Nat.lt_succ_self _

/-! ## What no operation takes back -/

/-- Who listens to an event stands among all listeners under its name. -/
theorem mem_listenersFor {d : Document κ} {n : NodeId} {event : String} {l : Listener κ} :
    l ∈ d.listenersFor n event ↔ (event, l) ∈ (d.node n).listeners := by
  simp [listenersFor]

theorem listenersFor_setValue (d : Document κ) (n : NodeId) (value : String) (m : NodeId)
    (event : String) : (d.setValue n value).listenersFor m event = d.listenersFor m event := by
  unfold listenersFor setValue
  rw [node_modifyNode]
  split <;> rfl

/-- A later document has all nodes of an earlier one, each of its kind, and all their listeners. -/
structure Extends (d d' : Document κ) : Prop where
  size : d.size ≤ d'.size
  kind : ∀ {n}, d.has n → (d.content n).SameKind (d'.content n)
  listeners : ∀ {n event l}, l ∈ d.listenersFor n event → l ∈ d'.listenersFor n event

namespace Extends

theorem refl (d : Document κ) : d.Extends d := ⟨Nat.le_refl _, fun _ => .refl _, id⟩

theorem has {d d' : Document κ} (h : d.Extends d') {n : NodeId} (hn : d.has n) : d'.has n :=
  Nat.lt_of_lt_of_le hn h.size

/-- An element is one for ever, so what is shown in its form value can be relied on. -/
theorem isElement {d d' : Document κ} (h : d.Extends d') {n : NodeId} (hn : d.has n)
    (helement : (d.content n).isElement = true) : (d'.content n).isElement = true := by
  rw [(h.kind hn).1]
  exact helement

theorem trans {a b c : Document κ} (hab : a.Extends b) (hbc : b.Extends c) : a.Extends c :=
  ⟨Nat.le_trans hab.size hbc.size, fun hn => (hab.kind hn).trans (hbc.kind (hab.has hn)),
    fun hl => hbc.listeners (hab.listeners hl)⟩

/-- A change to one node extends the document if the node keeps its kind and its listeners. -/
theorem modifyNode (d : Document κ) (n : NodeId) {f : Node κ → Node κ}
    (hkind : (d.content n).SameKind (f (d.node n)).content)
    (hlisteners : ∀ node : Node κ, ∀ l ∈ node.listeners, l ∈ (f node).listeners) :
    d.Extends (d.modifyNode n f) := by
  refine ⟨Nat.le_of_eq (size_modifyNode d n f).symm, ?_, ?_⟩
  · intro m _
    rw [content_modifyNode]
    by_cases hnm : n = m ∧ d.has m
    · rw [if_pos hnm]
      obtain ⟨rfl, _⟩ := hnm
      exact hkind
    · rw [if_neg hnm]
      exact .refl _
  · intro m event l hl
    rw [mem_listenersFor] at hl ⊢
    rw [node_modifyNode]
    split
    · exact hlisteners _ _ hl
    · exact hl

theorem create (d : Document κ) (content : Content) : d.Extends (d.create content).2 := by
  refine ⟨by rw [size_create]; omega, ?_, ?_⟩
  · intro m hm
    rw [content_create d content hm]
    exact .refl _
  · intro m event l hl
    rw [mem_listenersFor] at hl ⊢
    rw [node_create]
    split
    · next hm =>
      -- the number was free, so nothing listened there
      have hf : d.find? m.index = none := by
        rw [hm]
        exact Table.find?_eq_none_iff.mpr (Nat.le_refl _)
      simp [node, hf] at hl
      exact absurd hl (by simp [default])
    · exact hl

theorem setAttribute (d : Document κ) (n : NodeId) (name value : String) :
    d.Extends (d.setAttribute n name value) :=
  .modifyNode d n (Content.sameKind_setAttribute name value _) fun _ _ hl => hl

theorem setValue (d : Document κ) (n : NodeId) (value : String) : d.Extends (d.setValue n value) :=
  .modifyNode d n (Content.sameKind_setValue value _) fun _ _ hl => hl

theorem appendChildren (d : Document κ) (n : NodeId) (cs : List NodeId) :
    d.Extends (d.appendChildren n cs) :=
  .modifyNode d n (.refl _) fun _ _ hl => hl

theorem detachChildren (d : Document κ) (n : NodeId) : d.Extends (d.detachChildren n) :=
  .modifyNode d n (.refl _) fun _ _ hl => hl

theorem addListener (d : Document κ) (n : NodeId) (event : String) (l : Listener κ) :
    d.Extends (d.addListener n event l) :=
  .modifyNode d n (.refl _) fun _ _ hl => List.mem_append_left _ hl

theorem setText (d : Document κ) (n : NodeId) (text : String) : d.Extends (d.setText n text) := by
  unfold Document.setText
  cases hc : d.content n with
  | text s => exact .modifyNode d n (by rw [hc]; exact ⟨rfl, rfl⟩) fun _ _ hl => hl
  | comment s => exact .modifyNode d n (by rw [hc]; exact ⟨rfl, rfl⟩) fun _ _ hl => hl
  | element tag attributes value =>
    dsimp only
    split
    · exact .detachChildren d n
    · exact ((detachChildren d n).trans (create _ _)).trans (appendChildren _ _ _)

end Extends

/-- A later document in which children exist if they did in the earlier one. -/
structure Evolves (d d' : Document κ) : Prop where
  document : d.Extends d'
  closed : d.Closed → d'.Closed

namespace Evolves

theorem refl (d : Document κ) : d.Evolves d := ⟨.refl d, id⟩

theorem create (d : Document κ) (content : Content) : d.Evolves (d.create content).2 :=
  ⟨.create d content, fun hd => hd.create content⟩

theorem setAttribute (d : Document κ) (n : NodeId) (name value : String) :
    d.Evolves (d.setAttribute n name value) :=
  ⟨.setAttribute d n name value, fun hd => hd.modifyNode n fun _ _ hc => .inl hc⟩

theorem setValue (d : Document κ) (n : NodeId) (value : String) : d.Evolves (d.setValue n value) :=
  ⟨.setValue d n value, fun hd => hd.modifyNode n fun _ _ hc => .inl hc⟩

theorem addListener (d : Document κ) (n : NodeId) (event : String) (l : Listener κ) :
    d.Evolves (d.addListener n event l) :=
  ⟨.addListener d n event l, fun hd => hd.modifyNode n fun _ _ hc => .inl hc⟩

theorem setText (d : Document κ) (n : NodeId) (text : String) : d.Evolves (d.setText n text) :=
  ⟨.setText d n text, fun hd => hd.setText n text⟩

theorem detachChildren (d : Document κ) (n : NodeId) : d.Evolves (d.detachChildren n) :=
  ⟨.detachChildren d n, fun hd => hd.detachChildren n⟩

theorem appendChildren (d : Document κ) (n : NodeId) {cs : List NodeId} (hcs : ∀ c ∈ cs, d.has c) :
    d.Evolves (d.appendChildren n cs) :=
  ⟨.appendChildren d n cs, fun hd => hd.appendChildren n hcs⟩

end Evolves

/-- A listener that has been added is among those of its event. -/
theorem mem_listenersFor_addListener {d : Document κ} {n : NodeId} (hn : d.has n) (event : String)
    (l : Listener κ) : l ∈ (d.addListener n event l).listenersFor n event := by
  rw [mem_listenersFor]
  unfold addListener
  rw [node_modifyNode, if_pos ⟨rfl, hn⟩]
  exact List.mem_append_right _ List.mem_cons_self

/-! ## What is found below a node -/

end Document

mutual

/-- Whether all nodes of a tree are of some kind. -/
def Tree.All (P : NodeId → Prop) : Tree → Prop
  | .node id _ _ children => P id ∧ Tree.AllOf P children

/-- Whether all nodes of trees are of some kind. -/
def Tree.AllOf (P : NodeId → Prop) : List Tree → Prop
  | [] => True
  | tree :: rest => tree.All P ∧ Tree.AllOf P rest

end

/-- Trees are of a kind if each of them is. -/
theorem Tree.allOf_of_forall {P : NodeId → Prop} {trees : List Tree}
    (h : ∀ tree ∈ trees, tree.All P) : Tree.AllOf P trees := by
  induction trees with
  | nil => trivial
  | cons tree rest ih =>
    exact ⟨h tree List.mem_cons_self, ih fun t ht => h t (List.mem_cons_of_mem _ ht)⟩

mutual

/-- A search finds a node of the tree that it goes through, whatever the selector. -/
theorem Selector.search_mem {P : NodeId → Prop} (s : Selector) {tree : Tree} {n : NodeId}
    (htree : tree.All P) (h : s.search tree = some n) : P n := by
  match tree with
  | .node _ _ _ children => exact s.searchAll_mem htree.2 h

/-- By recursion on the trees, as the search goes: a match, what is below it, what is beside it. -/
theorem Selector.searchAll_mem {P : NodeId → Prop} (s : Selector) {trees : List Tree} {n : NodeId}
    (htrees : Tree.AllOf P trees) (h : s.searchAll trees = some n) : P n := by
  match trees with
  | [] => cases h
  | tree :: rest =>
    rw [Selector.searchAll] at h
    split at h
    · obtain rfl := Option.some.inj h
      obtain ⟨id, content, listeners, children⟩ := tree
      exact htrees.1.1
    · split at h
      · next found hfound =>
        obtain rfl := Option.some.inj h
        exact s.search_mem htrees.1 hfound
      · exact s.searchAll_mem htrees.2 h

end

namespace Document

variable {κ : Type}

/-- However deep the tree is looked into, in a closed document all its nodes exist. -/
theorem Closed.all_treeWithin {d : Document κ} (hd : d.Closed) {depth : Nat} {n : NodeId}
    (hn : d.has n) : (d.treeWithin depth n).All d.has := by
  induction depth generalizing n with
  | zero => exact ⟨hn, trivial⟩
  | succ depth ih =>
    refine ⟨hn, Tree.allOf_of_forall fun tree htree => ?_⟩
    obtain ⟨c, hc, rfl⟩ := List.mem_map.mp htree
    exact ih (hd n c hc)

/-- What a search in a closed document finds exists. -/
theorem Closed.has_query {d : Document κ} (hd : d.Closed) {n m : NodeId} (hn : d.has n)
    {selector : String} (h : d.query n selector = some m) : d.has m :=
  (Selector.parse selector).search_mem (hd.all_treeWithin hn) h

end Document

end DataBinding
