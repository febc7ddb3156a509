import DataBinding.Proofs.Trees
import DataBinding.Proofs.Updates

/-!
# The two outlets of a node

A bare key is shown in one of two places, the text of a node or the value of a form control. Each
has an operation of the document that sets it, and all others spare it as long as they leave alone
the node and, for the text of an element, the one text node that stands in it.
-/

namespace DataBinding

variable {κ σ : Type}

/-- Where a node shows a key. -/
inductive Outlet where
  | text
  | value
deriving DecidableEq

namespace Content

/-- The text that a node has of its own. Elements have none. -/
def ownText? : Content → Option String
  | .text s => some s
  | .comment s => some s
  | .element .. => none

/-- Whether two contents are the same as far as texts go. -/
def SameText (c c' : Content) : Prop := c' = c ∨ (c.isElement = true ∧ c'.isElement = true)

theorem SameText.trans {a b c : Content} (hab : a.SameText b) (hbc : b.SameText c) :
    a.SameText c := by
  rcases hab with rfl | ⟨ha, hb⟩
  · exact hbc
  · rcases hbc with rfl | ⟨_, hc⟩
    · exact .inr ⟨ha, hb⟩
    · exact .inr ⟨ha, hc⟩

/-- Only elements have values, and elements have no text of their own. -/
theorem sameText_setValue (v : String) (c : Content) : c.SameText (c.setValue v) := by
  cases c
  · exact .inr ⟨rfl, rfl⟩
  · exact .inl rfl
  · exact .inl rfl

theorem sameText_setAttribute (name v : String) (c : Content) :
    c.SameText (c.setAttribute name v) := by
  cases c
  · exact .inr ⟨rfl, rfl⟩
  · exact .inl rfl
  · exact .inl rfl

theorem ownText?_of_isElement {c : Content} (hc : c.isElement = true) : c.ownText? = none := by
  cases c with
  | element tag attributes value => rfl
  | text s => cases hc
  | comment s => cases hc

/-- Contents that are the same as far as texts go have the same text of their own. -/
theorem SameText.ownText? {c c' : Content} (h : c.SameText c') : c'.ownText? = c.ownText? := by
  rcases h with rfl | ⟨hc, hc'⟩
  · rfl
  · rw [ownText?_of_isElement hc, ownText?_of_isElement hc']

theorem SameText.eq_text {c c' : Content} (h : c.SameText c') {s : String} (hc : c = .text s) :
    c' = .text s := by
  rcases h with rfl | ⟨helement, _⟩
  · exact hc
  · rw [hc] at helement
    cases helement

end Content

namespace Document

/-! ## Texts -/

/-- A node has a text: its own, or in an element that of a single text node. -/
def HoldsText (d : Document κ) (n : NodeId) (s : String) : Prop :=
  match (d.content n).ownText? with
  | some own => own = s
  | none => d.children n = [] ∧ s = "" ∨ ∃ m, d.children n = [m] ∧ d.content m = .text s

theorem holdsText_of_hasTextBelow {d : Document κ} {size : Nat} {n : NodeId} {s : String}
    (helement : (d.content n).isElement = true) (h : d.HasTextBelow size n s) :
    d.HoldsText n s := by
  unfold HoldsText
  rw [Content.ownText?_of_isElement helement]
  rcases h with h | ⟨m, _, _, hchildren, hcontent, _⟩
  · exact .inl h
  · exact .inr ⟨m, hchildren, hcontent⟩

/-- A node whose text is set has that text. -/
theorem holdsText_setText {d : Document κ} {n : NodeId} (hn : d.has n) (s : String) :
    (d.setText n s).HoldsText n s := by
  have hcontent := content_setText d n s hn
  rw [if_pos rfl] at hcontent
  cases hc : d.content n with
  | text own | comment own =>
    rw [hc] at hcontent
    unfold HoldsText
    rw [hcontent]
    exact rfl
  | element tag attributes value =>
    rw [hc] at hcontent
    refine holdsText_of_hasTextBelow ?_ (hasTextBelow_setText hn ?_ s)
    · rw [hcontent]
      rfl
    · rw [hc]
      rfl

/-- The text that a node has is its text content. -/
theorem HoldsText.textContent {d : Document κ} {n : NodeId} {s : String} (h : d.HoldsText n s)
    (hn : d.has n) : d.textContent n = s := by
  obtain ⟨k, hk⟩ : ∃ k, d.size = k + 1 := ⟨d.size - 1, by unfold has at hn; omega⟩
  unfold Document.textContent tree
  rw [hk, treeWithin]
  unfold HoldsText at h
  cases hc : d.content n with
  | text own =>
    rw [hc] at h
    rw [Tree.text]
    exact h
  | comment own =>
    rw [hc] at h
    rw [Tree.text]
    exact h
  | element tag attributes value =>
    rw [hc] at h
    rw [Tree.text]
    rcases h with ⟨hchildren, rfl⟩ | ⟨m, hchildren, hcontent⟩
    · rw [hchildren]
      rfl
    · -- the text node is at the top of its tree at every depth
      have htext : (d.treeWithin k m).content = .text s ∧ (d.treeWithin k m).text = s := by
        cases k <;> rw [treeWithin, hcontent] <;> exact ⟨rfl, rfl⟩
      rw [hchildren, List.map_singleton, Tree.textOfChildren, Tree.textOfChildren, htext.1,
        htext.2]
      simp [Content.isComment]

/-- A change of the document that leaves alone the text of a node: its children are the same, and
none of them nor the node itself has another text. -/
structure SparesText (n : NodeId) (d d' : Document κ) : Prop where
  children : d'.children n = d.children n
  content : ∀ m ∈ n :: d.children n, (d.content m).SameText (d'.content m)

/-- A text that is spared is still there. -/
theorem HoldsText.of_spares {d d' : Document κ} {n : NodeId} {s : String} (h : d.HoldsText n s)
    (hspares : SparesText n d d') : d'.HoldsText n s := by
  have hown := (hspares.content n List.mem_cons_self).ownText?
  unfold HoldsText at h ⊢
  rw [hown, hspares.children]
  cases ho : (d.content n).ownText? with
  | some own =>
    rw [ho] at h
    exact h
  | none =>
    rw [ho] at h
    refine h.imp_right fun ⟨m, hchildren, hcontent⟩ => ⟨m, hchildren, ?_⟩
    refine (hspares.content m ?_).eq_text hcontent
    rw [hchildren]
    exact List.mem_cons_of_mem _ List.mem_cons_self

theorem SparesText.trans {n : NodeId} {a b c : Document κ} (hab : SparesText n a b)
    (hbc : SparesText n b c) : SparesText n a c := by
  refine ⟨hbc.children.trans hab.children, fun m hm => ?_⟩
  refine (hab.content m hm).trans (hbc.content m ?_)
  rw [hab.children]
  exact hm

/-- It is enough to look at the node and its children. -/
theorem SparesText.of_node {n : NodeId} {d d' : Document κ}
    (h : ∀ m ∈ n :: d.children n, d'.node m = d.node m) : SparesText n d d' := by
  refine ⟨?_, fun m hm => .inl ?_⟩
  · exact congrArg Node.children (h n List.mem_cons_self)
  · exact congrArg Node.content (h m hm)

/-- A change of one node spares a text if it changes no text and, of this node, no children. -/
theorem SparesText.modifyNode (n : NodeId) (d : Document κ) (m : NodeId) {f : Node κ → Node κ}
    (hcontent : ∀ node : Node κ, node.content.SameText (f node).content)
    (hchildren : m = n → ∀ node, (f node).children = node.children) :
    SparesText n d (d.modifyNode m f) := by
  refine ⟨?_, fun k _ => ?_⟩
  · rw [children_modifyNode]
    split
    · next hm => exact hchildren hm.1 _
    · rfl
  · rw [content_modifyNode]
    split
    · exact hcontent _
    · exact .inl rfl

end Document

/-! ## Outlets -/

namespace Outlet

/-- How a bare key is shown in an outlet. -/
def reaction (n : NodeId) : Outlet → Reaction κ
  | .text => .setText n
  | .value => .setValue n

/-- What stands in an outlet. -/
def shown (d : Document κ) (n : NodeId) : Outlet → String
  | .text => d.textContent n
  | .value => (d.content n).value

/-- An outlet has a text. -/
def Holds (d : Document κ) (n : NodeId) (s : String) : Outlet → Prop
  | .text => d.HoldsText n s
  | .value => (d.content n).value = s

/-- A change of the document leaves an outlet alone. -/
def Spares (n : NodeId) (d d' : Document κ) : Outlet → Prop
  | .text => Document.SparesText n d d'
  | .value => (d'.content n).value = (d.content n).value

variable {out : Outlet} {n m : NodeId} {d d' : Document κ} {s : String}

/-- What an outlet holds is what it shows. -/
theorem Holds.shown (h : out.Holds d n s) (hn : d.has n) : out.shown d n = s := by
  cases out with
  | text => exact Document.HoldsText.textContent h hn
  | value => exact h

theorem Holds.of_spares (h : out.Holds d n s) (hspares : out.Spares n d d') :
    out.Holds d' n s := by
  cases out with
  | text => exact Document.HoldsText.of_spares h hspares
  | value => exact Eq.trans hspares h

theorem Spares.of_eq (h : d' = d) : out.Spares n d d' := by
  subst h
  cases out with
  | text => exact .of_node fun _ _ => rfl
  | value => rfl

theorem Spares.trans {a b c : Document κ} (hab : out.Spares n a b) (hbc : out.Spares n b c) :
    out.Spares n a c := by
  cases out with
  | text => exact Document.SparesText.trans hab hbc
  | value => exact Eq.trans hbc hab

/-- A new node has a number that was free. -/
theorem spares_create (hn : d.has n) (hclosed : d.Closed) (content : Content) :
    out.Spares n d (d.create content).2 := by
  cases out with
  | value => exact congrArg Content.value (Document.content_create d content hn)
  | text =>
    refine .of_node fun m hm => ?_
    have hhas : d.has m := by
      rcases List.mem_cons.mp hm with rfl | hm
      · exact hn
      · exact hclosed n m hm
    rw [Document.node_create, if_neg]
    rintro rfl
    exact Nat.lt_irrefl _ hhas

theorem spares_setAttribute (name value : String) :
    out.Spares n d (d.setAttribute m name value) := by
  cases out with
  | text =>
    exact .modifyNode n d m (fun _ => Content.sameText_setAttribute name value _) fun _ _ => rfl
  | value =>
    show ((d.setAttribute m name value).content n).value = _
    rw [Document.content_setAttribute]
    split
    · exact Content.value_setAttribute name value _
    · rfl

/-- Listeners are not seen. -/
theorem spares_addListener (event : String) (l : Listener κ) :
    out.Spares n d (d.addListener m event l) := by
  cases out with
  | text => exact .modifyNode n d m (fun _ => .inl rfl) fun _ _ => rfl
  | value => exact congrArg Content.value (Document.content_addListener d m event l n)

/-- Entering a value in another node, or in this one if it is its text that is looked at. -/
theorem spares_setValue (hm : out = .value → ¬ m = n) (text : String) :
    out.Spares n d (d.setValue m text) := by
  cases out with
  | text => exact .modifyNode n d m (fun _ => Content.sameText_setValue text _) fun _ _ => rfl
  | value =>
    show ((d.setValue m text).content n).value = _
    rw [Document.content_setValue, if_neg fun h => hm rfl h.1]

theorem spares_appendChildren (hm : out = .text → ¬ m = n) (cs : List NodeId) :
    out.Spares n d (d.appendChildren m cs) := by
  cases out with
  | text => exact .modifyNode n d m (fun _ => .inl rfl) fun heq => absurd heq (hm rfl)
  | value => exact congrArg Content.value (Document.content_appendChildren d m cs n)

theorem spares_detachChildren (hm : out = .text → ¬ m = n) :
    out.Spares n d (d.detachChildren m) := by
  cases out with
  | text => exact .modifyNode n d m (fun _ => .inl rfl) fun heq => absurd heq (hm rfl)
  | value => exact congrArg Content.value (Document.content_detachChildren d m n)

/-- Setting the text of another node, which does not stand in this one. -/
theorem spares_setText (hn : d.has n) (hclosed : d.Closed)
    (hm : out = .text → m ∉ n :: d.children n) (text : String) :
    out.Spares n d (d.setText m text) := by
  cases out with
  | text =>
    refine .of_node fun k hk => Document.node_setText_of_ne text ?_ ?_
    · rcases List.mem_cons.mp hk with rfl | hk
      · exact hn
      · exact hclosed n k hk
    · rintro rfl
      exact hm rfl hk
  | value =>
    show ((d.setText m text).content n).value = _
    rw [Document.content_setText _ _ _ hn]
    split
    · exact Content.value_withText _ _
    · rfl

end Outlet

end DataBinding
