import DataBinding.Proofs.Following

/-!
# What a page shows

What a compiled page looks like can be computed from its source and from the texts that its
directives show: attributes and listeners do not depend on the data at all, and where a text takes
the place of children, they are gone. A document shows a page with certain texts if all nodes of
the page are as computed. The names of the nodes have no part in that, so two documents that show
the same page with the same texts have trees that differ in names only.

Setting the form value of a node with a model, or the text of a node with a text directive, comes
to another text at that node.
-/

namespace DataBinding

variable {κ σ : Type}

/-! ## Trees without names -/

namespace Tree

mutual

/-- A tree in which all nodes have the same name. -/
def unnamed : Tree → Tree
  | .node _ content listeners children => .node ⟨0⟩ content listeners (unnamedAll children)

/-- The same for trees in a row. -/
def unnamedAll : List Tree → List Tree
  | [] => []
  | tree :: rest => tree.unnamed :: unnamedAll rest

end

mutual

/-- Whether nodes have as many listeners in a document as in a tree. -/
def ListensIn (d : Document κ) : Tree → Prop
  | .node id _ listeners children =>
    (d.node id).listeners.length = listeners ∧ AllListenIn d children

/-- The same for trees in a row. -/
def AllListenIn (d : Document κ) : List Tree → Prop
  | [] => True
  | tree :: rest => tree.ListensIn d ∧ AllListenIn d rest

end

mutual

theorem ListensIn.of_node_eq {d d' : Document κ} {t : Tree} (h : t.ListensIn d)
    (hsame : ∀ n ∈ t.ids, d'.node n = d.node n) : t.ListensIn d' := by
  match t with
  | .node id content listeners children =>
    obtain ⟨hlisteners, hall⟩ := h
    refine ⟨?_, AllListenIn.of_node_eq hall fun n hn => hsame n (List.mem_cons_of_mem _ hn)⟩
    rw [hsame id List.mem_cons_self]
    exact hlisteners

theorem AllListenIn.of_node_eq {d d' : Document κ} {ts : List Tree} (h : AllListenIn d ts)
    (hsame : ∀ n ∈ idsOf ts, d'.node n = d.node n) : AllListenIn d' ts := by
  match ts with
  | [] => trivial
  | t :: rest =>
    exact ⟨ListensIn.of_node_eq h.1 fun n hn => hsame n (List.mem_append_left _ hn),
      AllListenIn.of_node_eq h.2 fun n hn => hsame n (List.mem_append_right _ hn)⟩

end

end Tree

/-! ## What attributes ask for -/

/-- How many listeners a directive registers. -/
def Directive.listenerCount : Directive → Nat
  | .text => 0
  | _ => 1

theorem Directive.length_listeners (kit : Kit κ) (expression : String) (d : Directive) :
    (d.listeners kit expression).length = d.listenerCount := by
  cases d <;> rfl

namespace Plan

/-- The expression of the last attribute that names a directive. -/
def directive? (wanted : Directive) (dialect : Dialect) : List (String × String) → Option String
  | [] => none
  | (name, expression) :: rest =>
    match Directive.parse name dialect with
    | .ok (some directive) =>
      if directive = wanted then some ((directive? wanted dialect rest).getD expression)
      else directive? wanted dialect rest
    | _ => directive? wanted dialect rest

theorem textDirective?_eq (dialect : Dialect) (attributes : List (String × String)) :
    textDirective? dialect attributes = directive? .text dialect attributes := by
  induction attributes with
  | nil => rfl
  | cons entry rest ih =>
    obtain ⟨name, expression⟩ := entry
    unfold textDirective? directive?
    rw [ih]
    cases Directive.parse name dialect with
    | error e => rfl
    | ok found =>
      cases found with
      | none => rfl
      | some directive => cases directive <;> rfl

/-- How many listeners attributes ask for. -/
def listenerCount (dialect : Dialect) : List (String × String) → Nat
  | [] => 0
  | (name, _) :: rest =>
    match Directive.parse name dialect with
    | .ok (some directive) => directive.listenerCount + listenerCount dialect rest
    | _ => listenerCount dialect rest

theorem bind_mem_of_directive? {wanted : Directive} {dialect : Dialect} {n : NodeId}
    {attributes : List (String × String)} {expression : String}
    (hok : (ofAttributes dialect n attributes).result = .ok ())
    (h : directive? wanted dialect attributes = some expression) :
    .bind n wanted expression ∈ (ofAttributes dialect n attributes).wires := by
  -- the last attribute counts, so a later one of the same directive wins
  induction attributes with
  | nil => cases h
  | cons entry rest ih =>
    obtain ⟨name, e⟩ := entry
    unfold ofAttributes at hok ⊢
    unfold directive? at h
    cases hparse : Directive.parse name dialect with
    | error err =>
      rw [hparse] at hok
      cases hok
    | ok found =>
      rw [hparse] at hok h
      cases found with
      | none => exact ih hok h
      | some directive =>
        have hok : (ofAttributes dialect n rest).result = .ok () := hok
        dsimp only at h
        split at h
        · next hwanted =>
          subst hwanted
          cases hlater : directive? directive dialect rest with
          | none =>
            rw [hlater] at h
            obtain rfl := Option.some.inj h
            exact List.mem_cons_self
          | some e' =>
            rw [hlater] at h
            obtain rfl := Option.some.inj h
            exact List.mem_cons_of_mem _ (ih hok hlater)
        · exact List.mem_cons_of_mem _ (ih hok h)

theorem isSome_directive?_of_mem {wanted : Directive} {dialect : Dialect} {n : NodeId}
    {attributes : List (String × String)} {expression : String}
    (h : .bind n wanted expression ∈ (ofAttributes dialect n attributes).wires) :
    (directive? wanted dialect attributes).isSome = true := by
  induction attributes with
  | nil => cases h
  | cons entry rest ih =>
    obtain ⟨name, e⟩ := entry
    unfold ofAttributes at h
    unfold directive?
    cases hparse : Directive.parse name dialect with
    | error err =>
      rw [hparse] at h
      cases h
    | ok found =>
      rw [hparse] at h
      cases found with
      | none => exact ih h
      | some directive =>
        dsimp only
        split
        · rfl
        · next hne =>
          rcases List.mem_cons.mp h with heq | h
          · exact absurd (Wire.bind.inj heq).2.1.symm hne
          · exact ih h

end Plan

/-! ## Texts in the place of children -/

namespace Document

variable {d d' : Document κ} {size : Nat} {n : NodeId} {text : String}

/-- In the place of its children a node has a text, and nothing if the text is empty. -/
structure IsTextBelow (d : Document κ) (size : Nat) (n : NodeId) (text : String) : Prop where
  below : d.HasTextBelow size n text
  empty : text = "" → d.children n = []

theorem isTextBelow_setText (hsize : size ≤ d.size) (hn : d.has n)
    (helement : (d.content n).isElement = true) (text : String) :
    (d.setText n text).IsTextBelow size n text := by
  refine ⟨(hasTextBelow_setText hn helement text).of_le hsize, fun hempty => ?_⟩
  subst hempty
  rcases hasTextBelow_setText hn helement "" with ⟨hchildren, _⟩ | ⟨m, hm, hhas, _⟩
  · exact hchildren
  · -- no node is made for an empty text
    have hsame : (d.setText n "").size = d.size := by
      unfold setText
      split
      · exact size_modifyNode _ _ _
      · exact size_modifyNode _ _ _
      · exact size_modifyNode _ _ _
    unfold has at hhas
    omega

theorem IsTextBelow.of_children (h : d.IsTextBelow size n text) (hd : d.Extends d')
    (hn : d'.children n = d.children n)
    (hlate : ∀ m, d.has m → size ≤ m.index → d'.node m = d.node m) :
    d'.IsTextBelow size n text :=
  ⟨h.below.of_children hd hn hlate, fun hempty => hn.trans (h.empty hempty)⟩

/-- A new text has no listeners. -/
def SilentFrom (d : Document κ) (size : Nat) : Prop :=
  ∀ m : NodeId, size ≤ m.index → (d.node m).listeners = []

/-- What is seen below such a node. -/
theorem IsTextBelow.unnamed_treeWithin (h : d.IsTextBelow size n text)
    (hsilent : d.SilentFrom size) (depth : Nat) :
    Tree.unnamedAll ((d.children n).map (d.treeWithin depth)) =
      if text = "" then [] else [.node ⟨0⟩ (.text text) 0 []] := by
  split
  · next hempty =>
    rw [h.empty hempty]
    rfl
  · next hne =>
    rcases h.below with ⟨_, hempty⟩ | ⟨m, hm, _, hchildren, hcontent, hleaf⟩
    · exact absurd hempty hne
    · have hnode : d.treeWithin depth m = .node m (.text text) 0 [] := by
        cases depth <;> simp [treeWithin, hcontent, hleaf, hsilent m hm]
      rw [hchildren, List.map_singleton, hnode]
      rfl

end Document

/-! ## Pages that are shown -/

/-- What directives show, by their expressions. -/
structure Texts where
  /-- The form value that a model shows. -/
  slot : String → String
  /-- What a text directive shows, or a text with markers. -/
  text : String → String

namespace Texts

/-- What a directive shows. -/
def get (texts : Texts) : Directive → String → String
  | .model => texts.slot
  | .text => texts.text
  | .on _ => fun _ => ""

/-- All directives of a kind show a text. -/
def set (texts : Texts) (text : String) : Directive → Texts
  | .model => { texts with slot := fun _ => text }
  | .text => { texts with text := fun _ => text }
  | .on _ => texts

theorem get_set {texts : Texts} {text : String} {directive : Directive}
    (h : directive = .model ∨ directive = .text) (e : String) :
    (texts.set text directive).get directive e = text := by
  rcases h with rfl | rfl <;> rfl

theorem get_set_of_ne (texts : Texts) (text : String) {directive directive' : Directive}
    (h : directive' ≠ directive) (e : String) :
    (texts.set text directive).get directive' e = texts.get directive' e := by
  cases directive with
  | model =>
    cases directive' with
    | model => exact absurd rfl h
    | _ => rfl
  | text =>
    cases directive' with
    | text => exact absurd rfl h
    | _ => rfl
  | on event => rfl

end Texts

/-- The texts that a heap gives. -/
def Kit.texts (kit : Kit κ) (h : Heap κ) : Texts where
  slot expression := h.text (h.peek kit.data (Text.trim expression))
  text := kit.textFor h

namespace Content

/-- What a node of a page holds itself. -/
def showing (dialect : Dialect) (texts : Texts) : Content → Content
  | .element tag attributes value =>
    .element tag attributes
      (((Plan.directive? .model dialect attributes.entries).map texts.slot).getD value)
  | .text s => .text (if Template.detect s dialect then texts.text s else s)
  | .comment s => .comment s

/-- How many listeners a node of a page gets. -/
def listenerCount (dialect : Dialect) : Content → Nat
  | .element _ attributes _ => Plan.listenerCount dialect attributes.entries
  | _ => 0

end Content

/-- Whether a node of a document is as a page has it, with certain texts. A text in the place of
children is a node numbered from `size` on. -/
structure Document.ShowsNode (d : Document κ) (dialect : Dialect) (size : Nat) (texts : Texts)
    (id : NodeId) (content : Content) (listeners : Nat) (children : List NodeId) : Prop where
  has : d.has id
  holds : d.content id = content.showing dialect texts
  hears : (d.node id).listeners.length = listeners + content.listenerCount dialect
  below : match Plan.replacement? dialect content with
    | some expression => d.IsTextBelow size id (texts.text expression)
    | none => d.children id = children

namespace Tree

mutual

/-- Whether a document shows a page, in which every node has its own texts. -/
def Shows (d : Document κ) (dialect : Dialect) (size : Nat) (texts : NodeId → Texts) : Tree → Prop
  | .node id content listeners children =>
    d.ShowsNode dialect size (texts id) id content listeners (children.map Tree.id) ∧
      (Plan.replacement? dialect content = none → AllShow d dialect size texts children)

/-- The same for trees in a row. -/
def AllShow (d : Document κ) (dialect : Dialect) (size : Nat) (texts : NodeId → Texts) :
    List Tree → Prop
  | [] => True
  | tree :: rest => tree.Shows d dialect size texts ∧ AllShow d dialect size texts rest

end

mutual

/-- What a page looks like with certain texts. -/
def painted (dialect : Dialect) (texts : Texts) : Tree → Tree
  | .node _ content listeners children =>
    .node ⟨0⟩ (content.showing dialect texts) (listeners + content.listenerCount dialect) <|
      match Plan.replacement? dialect content with
      | some expression =>
        if texts.text expression = "" then []
        else [.node ⟨0⟩ (.text (texts.text expression)) 0 []]
      | none => paintedAll dialect texts children

/-- The same for trees in a row. -/
def paintedAll (dialect : Dialect) (texts : Texts) : List Tree → List Tree
  | [] => []
  | tree :: rest => tree.painted dialect texts :: paintedAll dialect texts rest

end

mutual

/-- Names have no part in what a page looks like. -/
theorem painted_unnamed (dialect : Dialect) (texts : Texts) (t : Tree) :
    t.unnamed.painted dialect texts = t.painted dialect texts := by
  match t with
  | .node id content listeners children =>
    rw [unnamed, painted, painted, paintedAll_unnamedAll]

theorem paintedAll_unnamedAll (dialect : Dialect) (texts : Texts) (ts : List Tree) :
    paintedAll dialect texts (unnamedAll ts) = paintedAll dialect texts ts := by
  match ts with
  | [] => rfl
  | t :: rest => rw [unnamedAll, paintedAll, paintedAll, painted_unnamed, paintedAll_unnamedAll]

end

end Tree

namespace Tree

mutual

/-- The tree of a document that shows a page is as computed. -/
theorem unnamed_treeWithin {d : Document κ} {dialect : Dialect} {size : Nat} {texts : Texts}
    (hsilent : d.SilentFrom size) {t : Tree} (h : t.Shows d dialect size fun _ => texts)
    {depth : Nat} (hdepth : t.height ≤ depth) :
    (d.treeWithin depth t.id).unnamed = t.painted dialect texts := by
  match t with
  | .node id content listeners children =>
    obtain ⟨⟨_, hcontent, hlisteners, hbelow⟩, hall⟩ := h
    rw [height] at hdepth
    obtain ⟨k, rfl⟩ : ∃ k, depth = k + 1 := ⟨depth - 1, by omega⟩
    rw [Tree.id, Document.treeWithin, unnamed, painted, hcontent, hlisteners]
    congr 1
    cases hreplacement : Plan.replacement? dialect content with
    | some expression =>
      rw [hreplacement] at hbelow
      exact Document.IsTextBelow.unnamed_treeWithin hbelow hsilent k
    | none =>
      rw [hreplacement] at hbelow
      rw [hbelow]
      exact unnamedAll_treeWithin hsilent (hall hreplacement) (by omega)

theorem unnamedAll_treeWithin {d : Document κ} {dialect : Dialect} {size : Nat} {texts : Texts}
    (hsilent : d.SilentFrom size) {ts : List Tree} (h : AllShow d dialect size (fun _ => texts) ts)
    {depth : Nat} (hdepth : heightOf ts ≤ depth) :
    unnamedAll ((ts.map Tree.id).map (d.treeWithin depth)) = paintedAll dialect texts ts := by
  match ts with
  | [] => rfl
  | t :: rest =>
    obtain ⟨ht, hrest⟩ := h
    rw [heightOf] at hdepth
    rw [List.map_cons, List.map_cons, unnamedAll, paintedAll,
      unnamed_treeWithin hsilent ht (by omega), unnamedAll_treeWithin hsilent hrest (by omega)]

end

end Tree

/-! ## Changes elsewhere, and other texts -/

variable {dialect : Dialect} {size : Nat}

theorem Document.ShowsNode.of_node {d d' : Document κ} {texts : Texts} {id : NodeId}
    {content : Content} {listeners : Nat} {children : List NodeId}
    (h : d.ShowsNode dialect size texts id content listeners children) (hd : d.Extends d')
    (hnode : d'.node id = d.node id)
    (hlate : ∀ m, d.has m → size ≤ m.index → d'.node m = d.node m) :
    d'.ShowsNode dialect size texts id content listeners children := by
  have hchildren : d'.children id = d.children id := congrArg Node.children hnode
  refine ⟨hd.has h.has, (congrArg Node.content hnode).trans h.holds, ?_, ?_⟩
  · rw [hnode]
    exact h.hears
  · have hbelow := h.below
    split at hbelow
    · exact hbelow.of_children hd hchildren hlate
    · exact hchildren.trans hbelow

namespace Tree

mutual

/-- Changes to other nodes leave a page as it is shown. -/
theorem Shows.of_nodes {d d' : Document κ} {texts texts' : NodeId → Texts} (hd : d.Extends d')
    (hlate : ∀ m, d.has m → size ≤ m.index → d'.node m = d.node m) {t : Tree}
    (h : t.Shows d dialect size texts) (hnodes : ∀ n ∈ t.ids, d.has n → d'.node n = d.node n)
    (htexts : ∀ n ∈ t.ids, texts' n = texts n) : t.Shows d' dialect size texts' := by
  match t with
  | .node id content listeners children =>
    obtain ⟨hnode, hall⟩ := h
    have hid : id ∈ (Tree.node id content listeners children).ids := List.mem_cons_self
    refine ⟨?_, fun hnone => ?_⟩
    · rw [htexts id hid]
      exact hnode.of_node hd (hnodes id hid hnode.has) hlate
    · exact AllShow.of_nodes hd hlate (hall hnone)
        (fun n hn => hnodes n (List.mem_cons_of_mem _ hn))
        fun n hn => htexts n (List.mem_cons_of_mem _ hn)

theorem AllShow.of_nodes {d d' : Document κ} {texts texts' : NodeId → Texts} (hd : d.Extends d')
    (hlate : ∀ m, d.has m → size ≤ m.index → d'.node m = d.node m) {ts : List Tree}
    (h : AllShow d dialect size texts ts)
    (hnodes : ∀ n ∈ idsOf ts, d.has n → d'.node n = d.node n)
    (htexts : ∀ n ∈ idsOf ts, texts' n = texts n) : AllShow d' dialect size texts' ts := by
  match ts with
  | [] => trivial
  | t :: rest =>
    exact ⟨Shows.of_nodes hd hlate h.1 (fun n hn => hnodes n (List.mem_append_left _ hn))
        fun n hn => htexts n (List.mem_append_left _ hn),
      AllShow.of_nodes hd hlate h.2 (fun n hn => hnodes n (List.mem_append_right _ hn))
        fun n hn => htexts n (List.mem_append_right _ hn)⟩

end

end Tree

namespace Plan

theorem result_left {p q : Plan} (h : (p.andThen q).result = .ok ()) : p.result = .ok () := by
  unfold andThen at h
  split at h
  · next e he =>
    rw [he] at h
    cases h
  · next he => exact he

theorem result_right {p q : Plan} (h : (p.andThen q).result = .ok ()) : q.result = .ok () := by
  have hleft := result_left h
  unfold andThen at h
  rw [hleft] at h
  exact h

theorem wires_andThen {p q : Plan} (h : p.result = .ok ()) :
    (p.andThen q).wires = p.wires ++ q.wires := by
  unfold andThen
  rw [h]

/-- Where a text takes the place of children, the page asks for its binding. -/
theorem bind_mem_of_replacement? {n : NodeId} {content : Content} {expression : String}
    (hok : (ofContent dialect n content).result = .ok ())
    (h : replacement? dialect content = some expression) :
    .bind n .text expression ∈ (ofContent dialect n content).wires := by
  cases content with
  | element tag attributes value =>
    have h : textDirective? dialect attributes.entries = some expression := h
    rw [textDirective?_eq] at h
    exact bind_mem_of_directive? hok h
  | text s => cases h
  | comment s => cases h

end Plan

/-- What is shown depends only on the texts of expressions that are bound. -/
theorem Content.showing_congr {n : NodeId} {content : Content} {texts texts' : Texts}
    (hok : (Plan.ofContent dialect n content).result = .ok ())
    (hslot : ∀ e, .bind n .model e ∈ (Plan.ofContent dialect n content).wires →
      texts'.slot e = texts.slot e)
    (htext : ∀ e, .bind n .text e ∈ (Plan.ofContent dialect n content).wires →
      texts'.text e = texts.text e) :
    content.showing dialect texts' = content.showing dialect texts := by
  cases content with
  | element tag attributes value =>
    unfold showing
    dsimp only
    cases hmodel : Plan.directive? .model dialect attributes.entries with
    | none => rfl
    | some e =>
      have hmem := Plan.bind_mem_of_directive? (n := n) hok hmodel
      rw [Option.map_some, Option.map_some, hslot e hmem]
  | text s =>
    unfold showing
    dsimp only
    split
    · next hdetect =>
      rw [htext s (Plan.mem_wires_ofContent_text.mpr ⟨hdetect, rfl⟩)]
    · rfl
  | comment s => rfl

theorem Document.ShowsNode.retext {d : Document κ} {texts texts' : Texts} {id : NodeId}
    {content : Content} {listeners : Nat} {children : List NodeId}
    (h : d.ShowsNode dialect size texts id content listeners children)
    (hok : (Plan.ofContent dialect id content).result = .ok ())
    (hslot : ∀ e, .bind id .model e ∈ (Plan.ofContent dialect id content).wires →
      texts'.slot e = texts.slot e)
    (htext : ∀ e, .bind id .text e ∈ (Plan.ofContent dialect id content).wires →
      texts'.text e = texts.text e) :
    d.ShowsNode dialect size texts' id content listeners children := by
  refine ⟨h.has, h.holds.trans (Content.showing_congr hok hslot htext).symm, h.hears, ?_⟩
  have hbelow := h.below
  split at hbelow
  · next e hreplacement =>
    rw [htext e (Plan.bind_mem_of_replacement? hok hreplacement)]
    exact hbelow
  · exact hbelow

namespace Tree

mutual

theorem Shows.retext {d : Document κ} {texts texts' : NodeId → Texts} {t : Tree}
    (h : t.Shows d dialect size texts) (hok : (Plan.ofTree dialect t).result = .ok ())
    (hslot : ∀ n e, .bind n .model e ∈ (Plan.ofTree dialect t).wires →
      (texts' n).slot e = (texts n).slot e)
    (htext : ∀ n e, .bind n .text e ∈ (Plan.ofTree dialect t).wires →
      (texts' n).text e = (texts n).text e) : t.Shows d dialect size texts' := by
  match t with
  | .node id content listeners children =>
    obtain ⟨hnode, hall⟩ := h
    rw [Plan.ofTree] at hok hslot htext
    have hleft := Plan.result_left hok
    have hright := Plan.result_right hok
    rw [Plan.wires_andThen hleft] at hslot htext
    refine ⟨hnode.retext hleft (fun e he => hslot id e (List.mem_append_left _ he))
      fun e he => htext id e (List.mem_append_left _ he), fun hnone => ?_⟩
    rw [hnone] at hright hslot htext
    exact AllShow.retext (hall hnone) hright
      (fun n e he => hslot n e (List.mem_append_right _ he))
      fun n e he => htext n e (List.mem_append_right _ he)

theorem AllShow.retext {d : Document κ} {texts texts' : NodeId → Texts} {ts : List Tree}
    (h : AllShow d dialect size texts ts) (hok : (Plan.ofTrees dialect ts).result = .ok ())
    (hslot : ∀ n e, .bind n .model e ∈ (Plan.ofTrees dialect ts).wires →
      (texts' n).slot e = (texts n).slot e)
    (htext : ∀ n e, .bind n .text e ∈ (Plan.ofTrees dialect ts).wires →
      (texts' n).text e = (texts n).text e) : AllShow d dialect size texts' ts := by
  match ts with
  | [] => trivial
  | t :: rest =>
    rw [Plan.ofTrees] at hok hslot htext
    have hleft := Plan.result_left hok
    rw [Plan.wires_andThen hleft] at hslot htext
    exact ⟨Shows.retext h.1 hleft (fun n e he => hslot n e (List.mem_append_left _ he))
        fun n e he => htext n e (List.mem_append_left _ he),
      AllShow.retext h.2 (Plan.result_right hok)
        (fun n e he => hslot n e (List.mem_append_right _ he))
        fun n e he => htext n e (List.mem_append_right _ he)⟩

end

end Tree

/-! ## Another text at one node -/

namespace Tree

/-- A change at a node that the page binds by a directive. -/
structure Rewrites (d d' : Document κ) (dialect : Dialect) (size : Nat)
    (texts texts' : NodeId → Texts) (n : NodeId) (directive : Directive) : Prop where
  document : d.Extends d'
  early : n.index < size
  other : ∀ m, m ≠ n → d.has m → d'.node m = d.node m
  same : ∀ m, m ≠ n → texts' m = texts m
  node : ∀ {content listeners children e},
    (Plan.ofContent dialect n content).result = .ok () →
    .bind n directive e ∈ (Plan.ofContent dialect n content).wires →
    d.ShowsNode dialect size (texts n) n content listeners children →
    d'.ShowsNode dialect size (texts' n) n content listeners children

variable {d d' : Document κ} {texts texts' : NodeId → Texts} {n : NodeId} {directive : Directive}

theorem Rewrites.late (h : Rewrites d d' dialect size texts texts' n directive) :
    ∀ m, d.has m → size ≤ m.index → d'.node m = d.node m := by
  intro m hm hsize
  refine h.other m ?_ hm
  rintro rfl
  have := h.early
  omega

/-- Trees that do not have the node are shown as before. -/
theorem Rewrites.allShow_of_not_mem (h : Rewrites d d' dialect size texts texts' n directive)
    {ts : List Tree} (hts : AllShow d dialect size texts ts) (hn : n ∉ idsOf ts) :
    AllShow d' dialect size texts' ts := by
  have hne : ∀ m ∈ idsOf ts, m ≠ n := fun m hm heq => hn (heq ▸ hm)
  exact hts.of_nodes h.document h.late (fun m hm => h.other m (hne m hm))
    fun m hm => h.same m (hne m hm)

theorem Rewrites.shows_of_not_mem (h : Rewrites d d' dialect size texts texts' n directive)
    {t : Tree} (ht : t.Shows d dialect size texts) (hn : n ∉ t.ids) :
    t.Shows d' dialect size texts' := by
  have hne : ∀ m ∈ t.ids, m ≠ n := fun m hm heq => hn (heq ▸ hm)
  exact ht.of_nodes h.document h.late (fun m hm => h.other m (hne m hm))
    fun m hm => h.same m (hne m hm)

mutual

/-- A page that has bound the node is shown with the new text. -/
theorem Rewrites.shows (h : Rewrites d d' dialect size texts texts' n directive) {t : Tree}
    {e : String} (ht : t.Shows d dialect size texts) (hnodup : t.ids.Nodup)
    (hok : (Plan.ofTree dialect t).result = .ok ())
    (hbind : .bind n directive e ∈ (Plan.ofTree dialect t).wires) :
    t.Shows d' dialect size texts' := by
  match t with
  | .node id content listeners children =>
    obtain ⟨hnode, hall⟩ := ht
    obtain ⟨hnot, hnodup⟩ := List.nodup_cons.mp hnodup
    rw [Plan.ofTree] at hok hbind
    have hleft := Plan.result_left hok
    have hright := Plan.result_right hok
    rw [Plan.wires_andThen hleft] at hbind
    rcases List.mem_append.mp hbind with hbind | hbind
    · -- the node itself, so its children are others
      have hid : n = id := Plan.node_of_mem_ofContent hbind
      subst hid
      exact ⟨h.node hleft hbind hnode, fun hnone => h.allShow_of_not_mem (hall hnone) hnot⟩
    · cases hreplacement : Plan.replacement? dialect content with
      | some expression =>
        rw [hreplacement] at hbind
        cases List.mem_singleton.mp hbind
      | none =>
        rw [hreplacement] at hbind hright
        have hne : id ≠ n := by
          rintro rfl
          exact hnot (Plan.node_mem_idsOf hbind)
        refine ⟨?_, fun _ => Rewrites.allShow h (hall hreplacement) hnodup hright hbind⟩
        rw [h.same id hne]
        exact hnode.of_node h.document (h.other id hne hnode.has) h.late

theorem Rewrites.allShow (h : Rewrites d d' dialect size texts texts' n directive)
    {ts : List Tree} {e : String} (hts : AllShow d dialect size texts ts)
    (hnodup : (idsOf ts).Nodup) (hok : (Plan.ofTrees dialect ts).result = .ok ())
    (hbind : .bind n directive e ∈ (Plan.ofTrees dialect ts).wires) :
    AllShow d' dialect size texts' ts := by
  match ts with
  | [] =>
    rw [Plan.ofTrees] at hbind
    cases hbind
  | t :: rest =>
    obtain ⟨ht, hrest⟩ := hts
    obtain ⟨hnodup, hnodupRest, hapart⟩ := List.nodup_append.mp hnodup
    rw [Plan.ofTrees] at hok hbind
    have hleft := Plan.result_left hok
    rw [Plan.wires_andThen hleft] at hbind
    rcases List.mem_append.mp hbind with hbind | hbind
    · have hmem : n ∈ t.ids := Plan.node_mem_ids hbind
      exact ⟨Rewrites.shows h ht hnodup hleft hbind,
        h.allShow_of_not_mem hrest fun hn => hapart n hmem n hn rfl⟩
    · have hmem : n ∈ idsOf rest := Plan.node_mem_idsOf hbind
      exact ⟨h.shows_of_not_mem ht fun hn => hapart n hn n hmem rfl,
        Rewrites.allShow h hrest hnodupRest (Plan.result_right hok) hbind⟩

end

end Tree

/-- A node gets another text. -/
def retexted (texts : NodeId → Texts) (n : NodeId) (text : String) (directive : Directive)
    (m : NodeId) : Texts :=
  if m = n then (texts m).set text directive else texts m

/-- What showing a text by a directive does. -/
def Document.put (d : Document κ) (n : NodeId) (text : String) : Directive → Document κ
  | .model => d.setValue n text
  | .text => d.setText n text
  | .on _ => d

/-- Only elements have models. -/
theorem Plan.isElement_of_model {n : NodeId} {content : Content} {e : String}
    (h : .bind n .model e ∈ (ofContent dialect n content).wires) : content.isElement = true := by
  cases content with
  | element tag attributes value => rfl
  | text s => cases (mem_wires_ofContent_text.mp h).2
  | comment s => cases h

theorem rewrites_setValue {d : Document κ} {texts : NodeId → Texts} {n : NodeId}
    (hn : n.index < size) (text : String) :
    Tree.Rewrites d (d.setValue n text) dialect size texts (retexted texts n text .model) n
      .model := by
  have hchildren : ∀ m, (d.setValue n text).children m = d.children m := fun m => by
    unfold Document.setValue
    rw [Document.children_modifyNode]
    split <;> rfl
  have hother : ∀ m, m ≠ n → d.has m → (d.setValue n text).node m = d.node m :=
    fun m hm _ => Document.node_modifyNode_of_ne d _ (Ne.symm hm)
  refine ⟨.setValue d n text, hn, hother, fun m hm => if_neg hm, ?_⟩
  intro content listeners children e hok hbind h
  have hslot : retexted texts n text .model n = { texts n with slot := fun _ => text } := if_pos rfl
  rw [hslot]
  refine ⟨(Document.Extends.setValue d n text).has h.has, ?_, ?_, ?_⟩
  · rw [Document.content_setValue, if_pos ⟨rfl, h.has⟩, h.holds]
    cases content with
    | element tag attributes value =>
      obtain ⟨e', he'⟩ := Option.isSome_iff_exists.mp (Plan.isSome_directive?_of_mem hbind)
      simp only [Content.showing, Content.setValue, he', Option.map_some, Option.getD_some]
    | text s => cases Plan.isElement_of_model hbind
    | comment s => cases Plan.isElement_of_model hbind
  · rw [Document.listeners_setValue]
    exact h.hears
  · have hbelow := h.below
    split at hbelow
    · refine hbelow.of_children (.setValue d n text) (hchildren n) fun m hm hsize => ?_
      refine hother m ?_ hm
      rintro rfl
      omega
    · exact (hchildren n).trans hbelow

theorem rewrites_setText {d : Document κ} {texts : NodeId → Texts} {n : NodeId}
    (hn : n.index < size) (hsize : size ≤ d.size) (text : String) :
    Tree.Rewrites d (d.setText n text) dialect size texts (retexted texts n text .text) n
      .text := by
  refine ⟨.setText d n text, hn, fun m hm hhas => ?_, fun m hm => if_neg hm, ?_⟩
  · exact Document.node_setText_of_ne text hhas (Ne.symm hm)
  intro content listeners children e hok hbind h
  have htexts : retexted texts n text .text n = { texts n with text := fun _ => text } := if_pos rfl
  have hcontent : (d.setText n text).content n =
      (content.showing dialect (texts n)).withText text := by
    rw [Document.content_setText d n text h.has, if_pos rfl, h.holds]
  rw [htexts]
  refine ⟨(Document.Extends.setText d n text).has h.has, ?_, ?_, ?_⟩
  · rw [hcontent]
    cases content with
    | element tag attributes value => rfl
    | text s =>
      -- a text is bound if it has a marker
      obtain ⟨hdetect, _⟩ := Plan.mem_wires_ofContent_text.mp hbind
      simp only [Content.showing, Content.withText, hdetect, if_pos]
    | comment s => cases hbind
  · rw [Document.listeners_setText]
    exact h.hears
  · cases content with
    | element tag attributes value =>
      obtain ⟨e', he'⟩ := Option.isSome_iff_exists.mp (Plan.isSome_directive?_of_mem hbind)
      have hreplacement : Plan.replacement? dialect (.element tag attributes value) = some e' :=
        (Plan.textDirective?_eq dialect attributes.entries).trans he'
      rw [hreplacement]
      refine Document.isTextBelow_setText hsize h.has ?_ text
      rw [h.holds]
      rfl
    | text s =>
      have hbelow : d.children n = children := h.below
      have hcontent : d.content n = .text _ := h.holds
      exact (Document.children_setText_of_isText hcontent text).trans hbelow
    | comment s => cases hbind

end DataBinding
