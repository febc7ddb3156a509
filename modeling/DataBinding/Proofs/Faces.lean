import DataBinding.Proofs.Following

/-!
# Drawing in another order

Setting a text makes a new node, and new nodes are numbered as they come. So texts that are set in
another order give documents that are not equal, though they look the same. Here is what they have
in common: the face of a node shows a new child by what it holds and not by its number.

Documents are compared that grew out of one by texts alone. Whatever a binding draws changes the
face of one node in a way that depends on that face only. So drawings can be exchanged, as long as
those on the same node do the same.
-/

namespace DataBinding

variable {κ : Type}

/-! ## Faces -/

/-- What is seen of a node: what it holds, its listeners, and its children, of which the new ones
are seen by what they hold. -/
structure Face (κ : Type) where
  content : Content
  listeners : List (String × Listener κ)
  children : List (NodeId ⊕ Content)

namespace Face

/-- A form control shows a value. -/
def showingValue (value : String) (x : Face κ) : Face κ :=
  { x with content := x.content.setValue value }

/-- A node has one more listener. -/
def hearing (event : String) (l : Listener κ) (x : Face κ) : Face κ :=
  { x with listeners := x.listeners ++ [(event, l)] }

/-- A node shows a text; an element has it in the place of its children. -/
def showingText (text : String) (x : Face κ) : Face κ :=
  { x with
    content := x.content.withText text
    children :=
      if x.content.isElement then if text.isEmpty then [] else [.inr (.text text)]
      else x.children }

end Face

namespace Document

/-- A child as it is seen if the nodes from `size` on are new. -/
def child (d : Document κ) (size : Nat) (c : NodeId) : NodeId ⊕ Content :=
  if c.index < size then .inl c else .inr (d.content c)

/-- The face of a node if the nodes from `size` on are new. -/
def face (d : Document κ) (size : Nat) (n : NodeId) : Face κ where
  content := d.content n
  listeners := (d.node n).listeners
  children := (d.children n).map (d.child size)

/-- All nodes from `size` on are texts with nothing else to them. -/
structure GrownByTexts (d : Document κ) (size : Nat) : Prop where
  closed : d.Closed
  size_le : size ≤ d.size
  isText : ∀ n : NodeId, size ≤ n.index → (d.content n).isText = true
  listeners : ∀ n : NodeId, size ≤ n.index → (d.node n).listeners = []
  children : ∀ n : NodeId, size ≤ n.index → d.children n = []

theorem node_eq_default {d : Document κ} {n : NodeId} (hn : d.size ≤ n.index) :
    d.node n = default := by
  rw [node, Table.find?_eq_none_iff.mpr hn]
  rfl

/-- A closed document has grown by no texts yet. -/
theorem Closed.grownByTexts {d : Document κ} (hd : d.Closed) : d.GrownByTexts d.size where
  closed := hd
  size_le := Nat.le_refl _
  isText n hn := by rw [content, node_eq_default hn]; rfl
  listeners n hn := by rw [node_eq_default hn]; rfl
  children n hn := by rw [Document.children, node_eq_default hn]; rfl

theorem face_congr {d d' : Document κ} {size : Nat} {n : NodeId} (hnode : d'.node n = d.node n)
    (hcontent : ∀ c ∈ d.children n, size ≤ c.index → d'.content c = d.content c) :
    d'.face size n = d.face size n := by
  have hchildren : d'.children n = d.children n := congrArg Node.children hnode
  unfold face
  rw [content, hnode, hchildren, content]
  congr 1
  refine List.map_congr_left fun c hc => ?_
  unfold child
  split
  · rfl
  · next hlt => rw [hcontent c hc (Nat.le_of_not_lt hlt)]

end Document

/-! ## Drawings -/

/-- Something that is drawn at a node, and what comes of it at the face of the node. -/
structure Drawing (κ : Type) where
  node : NodeId
  draw : Document κ → Document κ
  redraw : Face κ → Face κ

namespace Drawing

/-- Drawing takes nothing else than one of the old nodes, and changes its face as it should. -/
def Proper (a : Drawing κ) (size : Nat) : Prop :=
  ∀ d : Document κ, d.GrownByTexts size → (a.draw d).GrownByTexts size ∧
    ∀ m : NodeId, m.index < size →
      (a.draw d).face size m = if m = a.node then a.redraw (d.face size m) else d.face size m

/-- The faces after drawing, from those before. -/
def repaint (faces : NodeId → Face κ) (a : Drawing κ) : NodeId → Face κ :=
  fun m => if m = a.node then a.redraw (faces m) else faces m

/-- Sets a form value. -/
def value (n : NodeId) (value : String) : Drawing κ where
  node := n
  draw d := d.setValue n value
  redraw := Face.showingValue value

/-- Registers a listener. -/
def listen (n : NodeId) (event : String) (l : Listener κ) : Drawing κ where
  node := n
  draw d := d.addListener n event l
  redraw := Face.hearing event l

/-- Sets a text. -/
def text (n : NodeId) (text : String) : Drawing κ where
  node := n
  draw d := d.setText n text
  redraw := Face.showingText text

/-- Draws one thing and then another at the same place. -/
def andThen (a b : Drawing κ) : Drawing κ where
  node := a.node
  draw d := b.draw (a.draw d)
  redraw := b.redraw ∘ a.redraw

variable {size : Nat} {n : NodeId}

theorem Proper.andThen {a b : Drawing κ} (ha : a.Proper size) (hb : b.Proper size)
    (hnode : b.node = a.node) : (a.andThen b).Proper size := by
  intro d hd
  obtain ⟨hd₁, hface₁⟩ := ha d hd
  obtain ⟨hd₂, hface₂⟩ := hb _ hd₁
  refine ⟨hd₂, fun m hm => ?_⟩
  show (b.draw (a.draw d)).face size m = if m = a.node then b.redraw (a.redraw _) else _
  rw [hface₂ m hm, hface₁ m hm, hnode]
  split <;> rfl

/-- Changing what an old node holds by itself, or its listeners. -/
theorem proper_modifyNode (hn : n.index < size) {f : Node κ → Node κ} {redraw : Face κ → Face κ}
    (hchildren : ∀ node, (f node).children = node.children)
    (hredraw : ∀ node children, redraw ⟨node.content, node.listeners, children⟩ =
      ⟨(f node).content, (f node).listeners, children⟩) :
    Proper ⟨n, fun d => d.modifyNode n f, redraw⟩ size := by
  intro d hd
  -- late nodes are texts that were made for some element, and they are not touched
  have hother : ∀ m : NodeId, size ≤ m.index → (d.modifyNode n f).node m = d.node m := by
    intro m hm
    refine Document.node_modifyNode_of_ne d f ?_
    rintro rfl
    omega
  refine ⟨⟨hd.closed.modifyNode n fun node c hc => .inl (hchildren node ▸ hc), ?_, ?_, ?_, ?_⟩, ?_⟩
  · show size ≤ (d.modifyNode n f).size
    rw [Document.size_modifyNode]
    exact hd.size_le
  · intro m hm
    show (((d.modifyNode n f).node m).content).isText = true
    rw [hother m hm]
    exact hd.isText m hm
  · intro m hm
    show ((d.modifyNode n f).node m).listeners = []
    rw [hother m hm]
    exact hd.listeners m hm
  · intro m hm
    show ((d.modifyNode n f).node m).children = []
    rw [hother m hm]
    exact hd.children m hm
  · intro m hm
    show (d.modifyNode n f).face size m = if m = n then redraw (d.face size m) else _
    have hcontent : ∀ c : NodeId, size ≤ c.index → (d.modifyNode n f).content c = d.content c :=
      fun c hc => congrArg Node.content (hother c hc)
    split
    · next hmn =>
      subst hmn
      have hhas : d.has m := Nat.lt_of_lt_of_le hm hd.size_le
      have hnode : (d.modifyNode m f).node m = f (d.node m) := by
        rw [Document.node_modifyNode, if_pos ⟨rfl, hhas⟩]
      unfold Document.face Document.content Document.children
      rw [hnode, hredraw, hchildren]
      congr 1
      refine List.map_congr_left fun c _ => ?_
      unfold Document.child
      split
      · rfl
      · next hlt => rw [hcontent c (Nat.le_of_not_lt hlt)]
    · next hmn =>
      exact Document.face_congr (Document.node_modifyNode_of_ne d f (Ne.symm hmn))
        fun c _ hc => hcontent c hc

theorem proper_value (hn : n.index < size) (v : String) : (value (κ := κ) n v).Proper size :=
  proper_modifyNode hn (fun _ => rfl) fun _ _ => rfl

theorem proper_listen (hn : n.index < size) (event : String) (l : Listener κ) :
    (listen n event l).Proper size :=
  proper_modifyNode hn (fun _ => rfl) fun _ _ => rfl

end Drawing

namespace Document

/-- An element whose text is set has a new text node below it, or none if the text is empty. -/
theorem node_setText_of_isElement {d : Document κ} {n : NodeId} (hn : d.has n)
    (helement : (d.content n).isElement = true) (text : String) (m : NodeId) :
    (d.setText n text).node m =
      if m = n then { d.node n with children := if text.isEmpty then [] else [⟨d.size⟩] }
      else if m = ⟨d.size⟩ ∧ text.isEmpty = false then { content := .text text }
      else d.node m := by
  have hsize : (d.detachChildren n).size = d.size := size_modifyNode _ _ _
  have hdetached : (d.detachChildren n).node m =
      if m = n then { d.node n with children := [] } else d.node m := by
    unfold detachChildren
    rw [node_modifyNode]
    by_cases hmn : m = n
    · rw [if_pos ⟨hmn.symm, hmn ▸ hn⟩, if_pos hmn, hmn]
    · rw [if_neg fun h => hmn h.1.symm, if_neg hmn]
  unfold setText
  cases hc : d.content n with
  | text s | comment s =>
    rw [hc] at helement
    cases helement
  | element tag attributes value =>
    dsimp only
    cases htext : text.isEmpty with
    | true =>
      rw [if_pos rfl, hdetached]
      simp
    | false =>
      rw [if_neg Bool.false_ne_true]
      have hhas : ((d.detachChildren n).create (.text text)).2.has n := by
        unfold has
        rw [size_create, hsize]
        exact Nat.lt_succ_of_lt hn
      unfold appendChildren
      rw [node_modifyNode, node_create, hdetached, hsize]
      by_cases hmn : m = n
      · have hold : ¬ m = ⟨d.size⟩ := fun h => Nat.lt_irrefl d.size (by
          unfold has at hn
          rw [← hmn, h] at hn
          exact hn)
        rw [if_pos ⟨hmn.symm, hmn ▸ hhas⟩, if_neg hold, if_pos hmn, if_pos hmn]
        show { d.node n with children := [] ++ [(⟨(d.detachChildren n).size⟩ : NodeId)] } = _
        rw [hsize]
        rfl
      · rw [if_neg fun h => hmn h.1.symm, if_neg hmn, if_neg hmn]
        simp

/-- A text or a comment keeps its children when its text is set. -/
theorem setText_of_not_isElement {d : Document κ} {n : NodeId}
    (helement : (d.content n).isElement = false) (text : String) :
    d.setText n text =
      d.modifyNode n fun node => { node with content := node.content.withText text } := by
  have hsame : ∀ {f g : Node κ → Node κ}, f (d.node n) = g (d.node n) →
      d.modifyNode n f = d.modifyNode n g := by
    intro f g hfg
    refine Table.modify_congr fun node hnode => ?_
    have hself : d.node n = node := by
      rw [Document.node, hnode]
      rfl
    rwa [hself] at hfg
  unfold setText
  cases hc : d.content n with
  | text old | comment old =>
    refine hsame ?_
    show Node.mk _ _ _ = Node.mk ((d.content n).withText text) _ _
    rw [hc]
    rfl
  | element tag attributes value =>
    rw [hc] at helement
    cases helement

end Document

namespace Document.GrownByTexts

variable {size : Nat} {d : Document κ} {n : NodeId}

/-- Setting the text of an old element makes at most one new node, and that is a text. -/
theorem setText (hd : d.GrownByTexts size) (hn : n.index < size)
    (helement : (d.content n).isElement = true) (s : String) :
    (d.setText n s).GrownByTexts size := by
  have hhas : d.has n := Nat.lt_of_lt_of_le hn hd.size_le
  have hnew : ∀ m : NodeId, size ≤ m.index → (d.setText n s).node m = d.node m ∨
      (d.setText n s).node m = { content := .text s } := by
    intro m hm
    have hmn : m ≠ n := by
      rintro rfl
      omega
    rw [node_setText_of_isElement hhas helement, if_neg hmn]
    split
    · exact .inr rfl
    · exact .inl rfl
  refine ⟨hd.closed.setText n s, ?_, ?_, ?_, ?_⟩
  · exact Nat.le_trans hd.size_le (Document.Extends.setText d n s).size
  · intro m hm
    unfold Document.content
    rcases hnew m hm with hm' | hm' <;> rw [hm']
    · exact hd.isText m hm
    · rfl
  · intro m hm
    rcases hnew m hm with hm' | hm' <;> rw [hm']
    exact hd.listeners m hm
  · intro m hm
    unfold Document.children
    rcases hnew m hm with hm' | hm' <;> rw [hm']
    exact hd.children m hm

theorem content_setText_of_isElement (helement : (d.content n).isElement = true) (s : String)
    {c : NodeId} (hc : d.has c) : (d.setText n s).content c = d.content c := by
  rw [Document.content_setText d n s hc]
  split
  · next hnc =>
    subst hnc
    exact Content.withText_of_isElement helement s
  · rfl

/-- The face of an old element whose text is set. -/
theorem face_setText_self (hd : d.GrownByTexts size) (hn : n.index < size)
    (helement : (d.content n).isElement = true) (s : String) :
    (d.setText n s).face size n = (d.face size n).showingText s := by
  have hhas : d.has n := Nat.lt_of_lt_of_le hn hd.size_le
  have hnode := node_setText_of_isElement hhas helement s
  have hface : (d.face size n).content.isElement = true := helement
  unfold Face.showingText
  rw [hface, if_pos rfl]
  unfold face Document.children
  rw [hnode n, if_pos rfl, Content.withText_of_isElement helement,
    content_setText_of_isElement helement s hhas]
  congr 1
  cases hs : s.isEmpty with
  | true => rfl
  | false =>
    have hfresh : ¬ (⟨d.size⟩ : NodeId).index < size := Nat.not_lt.mpr hd.size_le
    have hnew : (d.setText n s).content ⟨d.size⟩ = .text s := by
      have hne : ¬ (⟨d.size⟩ : NodeId) = n := by
        rintro rfl
        exact Nat.lt_irrefl _ hhas
      unfold Document.content
      rw [hnode, if_neg hne, if_pos ⟨rfl, hs⟩]
    simp [child, hfresh, hnew]

/-- The other old nodes are left alone. -/
theorem face_setText_of_ne (hd : d.GrownByTexts size) (hn : n.index < size)
    (helement : (d.content n).isElement = true) (s : String) {m : NodeId} (hm : m.index < size)
    (hmn : m ≠ n) : (d.setText n s).face size m = d.face size m := by
  have hhas : d.has n := Nat.lt_of_lt_of_le hn hd.size_le
  have hsize := hd.size_le
  have hnode : (d.setText n s).node m = d.node m := by
    rw [node_setText_of_isElement hhas helement, if_neg hmn, if_neg]
    rintro ⟨rfl, _⟩
    dsimp only at hm
    omega
  exact face_congr hnode fun c hc _ =>
    content_setText_of_isElement helement s (hd.closed m c hc)

end Document.GrownByTexts

namespace Drawing

variable {size : Nat} {n : NodeId}

/-- Setting the text of an old node. -/
theorem proper_text (hn : n.index < size) (s : String) :
    (text (κ := κ) n s).Proper size := by
  intro d hd
  show (d.setText n s).GrownByTexts size ∧ ∀ m : NodeId, m.index < size →
    (d.setText n s).face size m =
      if m = n then (d.face size m).showingText s else d.face size m
  cases helement : (d.content n).isElement with
  | false =>
    -- only what the node holds itself is changed
    have hproper : Proper (κ := κ)
        ⟨n, fun d => d.modifyNode n fun node => { node with content := node.content.withText s },
          fun x => { x with content := x.content.withText s }⟩ size :=
      proper_modifyNode hn (fun _ => rfl) fun _ _ => rfl
    rw [Document.setText_of_not_isElement helement]
    obtain ⟨hgrown, hface⟩ := hproper d hd
    refine ⟨hgrown, fun m hm => (hface m hm).trans ?_⟩
    dsimp only
    split
    · next hmn =>
      have hface' : (d.face size m).content.isElement = false := by
        rw [hmn]
        exact helement
      unfold Face.showingText
      rw [hface', if_neg Bool.false_ne_true]
    · rfl
  | true =>
    refine ⟨hd.setText hn helement s, fun m hm => ?_⟩
    split
    · next hmn => exact hmn ▸ hd.face_setText_self hn helement s
    · next hmn => exact hd.face_setText_of_ne hn helement s hm hmn

end Drawing

/-! ## Documents that look the same -/

/-- Two documents that have grown by texts out of one look the same at its nodes. -/
structure Document.Alike (size : Nat) (d d' : Document κ) : Prop where
  left : d.GrownByTexts size
  right : d'.GrownByTexts size
  faces : ∀ n : NodeId, n.index < size → d.face size n = d'.face size n

namespace Document.Alike

variable {size : Nat} {d d' : Document κ}

theorem refl (hd : d.GrownByTexts size) : Alike size d d := ⟨hd, hd, fun _ _ => rfl⟩

theorem content (h : Alike size d d') {n : NodeId} (hn : n.index < size) :
    d.content n = d'.content n :=
  congrArg Face.content (h.faces n hn)

theorem listeners (h : Alike size d d') (n : NodeId) :
    (d.node n).listeners = (d'.node n).listeners := by
  by_cases hn : n.index < size
  · exact congrArg Face.listeners (h.faces n hn)
  · rw [h.left.listeners n (Nat.le_of_not_lt hn), h.right.listeners n (Nat.le_of_not_lt hn)]

/-- Drawing the same. -/
theorem draw (h : Alike size d d') {a : Drawing κ} (ha : a.Proper size) :
    Alike size (a.draw d) (a.draw d') := by
  obtain ⟨hd, hface⟩ := ha d h.left
  obtain ⟨hd', hface'⟩ := ha d' h.right
  refine ⟨hd, hd', fun n hn => ?_⟩
  rw [hface n hn, hface' n hn, h.faces n hn]

/-- A new node is a text and has no form value to set. -/
theorem setValue (h : Alike size d d') (n : NodeId) (v : String) :
    Alike size (d.setValue n v) (d'.setValue n v) := by
  by_cases hn : n.index < size
  · exact h.draw (Drawing.proper_value hn v)
  · have hsame : ∀ {d : Document κ}, d.GrownByTexts size → d.setValue n v = d := by
      intro d hd
      refine Table.modify_eq_self fun node hnode => ?_
      have hcontent : node.content = d.content n := by
        rw [Document.content, Document.node, hnode]
        rfl
      rw [hcontent, Content.setValue_of_isText (hd.isText n (Nat.le_of_not_lt hn)), ← hcontent]
    rw [hsame h.left, hsame h.right]
    exact h

end Document.Alike

namespace Drawing

variable {size : Nat}

/-- All drawings of a list are drawn one after the other. -/
def drawAll (drawings : List (Drawing κ)) (d : Document κ) : Document κ :=
  drawings.foldl (fun d a => a.draw d) d

/-- The faces that come of drawings, from the faces before. -/
theorem face_drawAll {drawings : List (Drawing κ)} (hproper : ∀ a ∈ drawings, a.Proper size)
    {d : Document κ} (hd : d.GrownByTexts size) {faces : NodeId → Face κ}
    (hfaces : ∀ n : NodeId, n.index < size → d.face size n = faces n) :
    (drawAll drawings d).GrownByTexts size ∧ ∀ n : NodeId, n.index < size →
      (drawAll drawings d).face size n = drawings.foldl repaint faces n := by
  induction drawings generalizing d faces with
  | nil => exact ⟨hd, hfaces⟩
  | cons a rest ih =>
    obtain ⟨hd₁, hface₁⟩ := hproper a List.mem_cons_self d hd
    refine ih (fun b hb => hproper b (List.mem_cons_of_mem _ hb)) hd₁ fun n hn => ?_
    rw [hface₁ n hn, hfaces n hn]
    rfl

theorem repaint_comm {a b : Drawing κ} (hab : a.node = b.node → a.redraw = b.redraw)
    (faces : NodeId → Face κ) : repaint (repaint faces a) b = repaint (repaint faces b) a := by
  funext m
  unfold repaint
  by_cases ha : m = a.node
  · by_cases hb : m = b.node
    · simp only [if_pos ha, if_pos hb, hab (ha.symm.trans hb)]
    · simp only [if_pos ha, if_neg hb]
  · simp only [if_neg ha]

/-- Drawing the same things in another order gives documents that look the same, if those at the
same node are the same. -/
theorem alike_of_perm {drawings drawings' : List (Drawing κ)} (hperm : drawings.Perm drawings')
    (hproper : ∀ a ∈ drawings, a.Proper size)
    (hagree : ∀ a ∈ drawings, ∀ b ∈ drawings, a.node = b.node → a.redraw = b.redraw)
    {d d' : Document κ} (h : Document.Alike size d d') :
    Document.Alike size (drawAll drawings d) (drawAll drawings' d') := by
  obtain ⟨hleft, hface⟩ := face_drawAll hproper h.left fun n hn => h.faces n hn
  obtain ⟨hright, hface'⟩ := face_drawAll
    (fun a ha => hproper a (hperm.mem_iff.mpr ha)) h.right (fun n _ => rfl)
  refine ⟨hleft, hright, fun n hn => ?_⟩
  rw [hface n hn, hface' n hn]
  exact congrFun (hperm.foldl_eq' (fun a ha b hb faces =>
    repaint_comm (hagree a ha b hb) faces) _) n

end Drawing

end DataBinding
