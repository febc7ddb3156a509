import DataBinding.Proofs.Following

/-!
# Compiling in document order

A page asks for its bindings in document order: an element asks through its attributes, a text
through its markers, and where a text directive puts a text in the place of the children, what is
below asks for nothing. Compiling makes the bindings in that order and ends at the first attribute
that is in error. What was bound before it stays bound, and the root has its children again.
-/

namespace DataBinding

variable {κ σ : Type} {env : Env κ σ} {kit : Kit κ} {w : World κ σ}

/-! ## What a page asks for -/

/-- A binding that a page asks for. -/
structure Binding where
  node : NodeId
  directive : Directive
  expression : String
deriving DecidableEq

/-- What a page asks for in one place: a binding, or something that is an error. -/
abbrev Item := Except ViewError Binding

namespace Item

/-- What the attributes of an element ask for. An ordinary attribute asks for nothing. -/
def ofAttributes (dialect : Dialect) (n : NodeId) (attributes : List (String × String)) :
    List Item :=
  attributes.filterMap fun entry =>
    match Directive.parse entry.1 dialect with
    | .error e => some (.error e)
    | .ok none => none
    | .ok (some directive) => some (.ok ⟨n, directive, entry.2⟩)

/-- Whether the name of an attribute is that of a text directive. -/
def isText (dialect : Dialect) (name : String) : Bool :=
  match Directive.parse name dialect with
  | .ok (some .text) => true
  | _ => false

mutual

/-- What a tree asks for, each node before those below it. An element with a text directive answers
for what is below it, so nothing there counts. -/
def ofTree (dialect : Dialect) : Tree → List Item
  | .node n (.element _ attributes _) _ children =>
    ofAttributes dialect n attributes.entries ++
      if attributes.entries.any fun entry => isText dialect entry.1 then []
      else ofTrees dialect children
  | .node n (.text text) _ children =>
    (if Template.detect text dialect then [.ok ⟨n, .text, text⟩] else []) ++
      ofTrees dialect children
  | .node _ (.comment _) _ children => ofTrees dialect children

/-- What trees in a row ask for. -/
def ofTrees (dialect : Dialect) : List Tree → List Item
  | [] => []
  | tree :: rest => ofTree dialect tree ++ ofTrees dialect rest

end

/-- What a page asks for below its root. -/
def ofRoot (dialect : Dialect) (t : Tree) : List Item := ofTrees dialect t.children

/-- The first error among items. -/
def firstError? (items : List Item) : Option ViewError :=
  items.findSome? fun
    | .error e => some e
    | .ok _ => none

/-- The bindings before the first error. -/
def beforeError : List Item → List Binding
  | .ok binding :: rest => binding :: beforeError rest
  | _ => []

/-- What comes of items in a row. -/
def outcome (items : List Item) : Except ViewError Unit :=
  match firstError? items with
  | none => .ok ()
  | some e => .error e

theorem outcome_eq_error {items : List Item} {e : ViewError} :
    outcome items = .error e ↔ firstError? items = some e := by
  unfold outcome
  split
  · next h => simp [h]
  · next h => simp [h]

theorem outcome_eq_ok {items : List Item} :
    outcome items = .ok () ↔ ∀ item ∈ items, ∃ binding, item = .ok binding := by
  induction items with
  | nil => exact ⟨fun _ _ h => absurd h List.not_mem_nil, fun _ => rfl⟩
  | cons item rest ih =>
    cases item with
    | error e =>
      constructor
      · intro h
        cases h
      · intro h
        obtain ⟨binding, hbinding⟩ := h (.error e) List.mem_cons_self
        cases hbinding
    | ok binding =>
      have hcons : outcome (.ok binding :: rest) = outcome rest := rfl
      rw [hcons, ih]
      constructor
      · intro h item hitem
        rcases List.mem_cons.mp hitem with rfl | hitem
        · exact ⟨binding, rfl⟩
        · exact h item hitem
      · exact fun h item hitem => h item (List.mem_cons_of_mem _ hitem)

theorem append_of_error {items : List Item} {e : ViewError} (items' : List Item)
    (h : outcome items = .error e) :
    outcome (items ++ items') = .error e ∧ beforeError (items ++ items') = beforeError items := by
  induction items with
  | nil => cases h
  | cons item rest ih =>
    cases item with
    | error e' => exact ⟨h, rfl⟩
    | ok binding =>
      obtain ⟨houtcome, hbefore⟩ := ih h
      exact ⟨houtcome, congrArg (binding :: ·) hbefore⟩

theorem append_of_ok {items : List Item} (items' : List Item) (h : outcome items = .ok ()) :
    outcome (items ++ items') = outcome items' ∧
      beforeError (items ++ items') = beforeError items ++ beforeError items' := by
  induction items with
  | nil => exact ⟨rfl, rfl⟩
  | cons item rest ih =>
    cases item with
    | error e => cases h
    | ok binding =>
      obtain ⟨houtcome, hbefore⟩ := ih h
      exact ⟨houtcome, congrArg (binding :: ·) hbefore⟩

end Item

/-- The binding of a step, if it is one that the page asks for. -/
def Wire.binding? : Wire → Option Binding
  | .bind n directive expression => some ⟨n, directive, expression⟩
  | .shown _ _ => none

namespace Plan

/-- A plan makes what items ask for, up to the first error. -/
structure Makes (p : Plan) (items : List Item) : Prop where
  result : p.result = Item.outcome items
  bindings : p.wires.filterMap Wire.binding? = Item.beforeError items

theorem Makes.done : done.Makes [] := ⟨rfl, rfl⟩

theorem Makes.andThen {p q : Plan} {items items' : List Item} (hp : p.Makes items)
    (hq : q.Makes items') : (p.andThen q).Makes (items ++ items') := by
  obtain ⟨wires, result⟩ := p
  obtain ⟨hresult, hbindings⟩ := hp
  cases result with
  | error e =>
    obtain ⟨houtcome, hbefore⟩ := Item.append_of_error items' hresult.symm
    exact ⟨houtcome.symm, hbindings.trans hbefore.symm⟩
  | ok u =>
    obtain ⟨houtcome, hbefore⟩ := Item.append_of_ok items' hresult.symm
    refine ⟨hq.result.trans houtcome.symm, ?_⟩
    show (wires ++ q.wires).filterMap Wire.binding? = _
    rw [List.filterMap_append, hbefore, ← hbindings, ← hq.bindings]

theorem makes_ofAttributes (dialect : Dialect) (n : NodeId) (attributes : List (String × String)) :
    (ofAttributes dialect n attributes).Makes (Item.ofAttributes dialect n attributes) := by
  induction attributes with
  | nil => exact .done
  | cons entry rest ih =>
    obtain ⟨name, expression⟩ := entry
    unfold ofAttributes Item.ofAttributes
    cases hparse : Directive.parse name dialect with
    | error e =>
      rw [List.filterMap_cons, hparse]
      exact ⟨rfl, rfl⟩
    | ok found =>
      cases found with
      | none =>
        rw [List.filterMap_cons, hparse]
        exact ih
      | some directive =>
        rw [List.filterMap_cons, hparse]
        have hstep : (step (.bind n directive expression)).Makes
            [.ok ⟨n, directive, expression⟩] := ⟨rfl, rfl⟩
        exact hstep.andThen ih

/-- The children of an element give way to a text where one of its attributes is a text
directive. -/
theorem isSome_textDirective? (dialect : Dialect) (attributes : List (String × String)) :
    (textDirective? dialect attributes).isSome =
      attributes.any fun entry => Item.isText dialect entry.1 := by
  induction attributes with
  | nil => rfl
  | cons entry rest ih =>
    obtain ⟨name, expression⟩ := entry
    unfold textDirective?
    rw [List.any_cons, ← ih]
    unfold Item.isText
    dsimp only
    cases Directive.parse name dialect with
    | error e => rfl
    | ok found =>
      cases found with
      | none => rfl
      | some directive => cases directive <;> rfl

mutual

theorem makes_ofTree (dialect : Dialect) (t : Tree) :
    (ofTree dialect t).Makes (Item.ofTree dialect t) := by
  match t with
  | .node n (.element tag attributes value) count children =>
    rw [ofTree, Item.ofTree]
    refine (makes_ofAttributes dialect n attributes.entries).andThen ?_
    rw [← isSome_textDirective?, show replacement? dialect (.element tag attributes value) =
      textDirective? dialect attributes.entries from rfl]
    cases textDirective? dialect attributes.entries with
    | some expression => exact ⟨rfl, rfl⟩
    | none => exact makes_ofTrees dialect children
  | .node n (.text text) count children =>
    rw [ofTree, Item.ofTree]
    refine Makes.andThen ?_ (makes_ofTrees dialect children)
    unfold ofContent
    dsimp only
    split
    · exact ⟨rfl, rfl⟩
    · exact .done
  | .node n (.comment text) count children =>
    rw [ofTree, Item.ofTree]
    exact Makes.done.andThen (makes_ofTrees dialect children)

theorem makes_ofTrees (dialect : Dialect) (ts : List Tree) :
    (ofTrees dialect ts).Makes (Item.ofTrees dialect ts) := by
  match ts with
  | [] => exact .done
  | t :: rest =>
    rw [ofTrees, Item.ofTrees]
    exact (makes_ofTree dialect t).andThen (makes_ofTrees dialect rest)

end

end Plan

/-! ## Bindings one by one -/

/-- Makes bindings one after the other. -/
def bindAll (kit : Kit κ) : List Binding → Program κ σ Unit
  | [] => .done ()
  | b :: rest =>
    .andThen (.request (.bind b.directive b.node b.expression kit)) fun _ => bindAll kit rest

/-- Making the bindings of steps one by one is making the steps. -/
theorem bindAll_following (kit : Kit κ) (wires : List Wire)
    (hr : w.RecordedBy env kit.data) : ∃ user,
    (bindAll kit (wires.filterMap Wire.binding?)).exec env w =
      some ((), { w.following kit wires with user }) := by
  induction wires generalizing w with
  | nil => exact ⟨w.user, rfl⟩
  | cons wire rest ih =>
    cases wire with
    | shown n expression => exact ih hr
    | bind n directive expression =>
      obtain ⟨user₁, hbind, hr₁⟩ := bind_effect hr n directive expression
      obtain ⟨user, hrest⟩ := ih hr₁
      rw [World.following_user (directive.effect kit n expression w) kit rest user₁] at hrest
      exact ⟨user, Run.bind_eq_some.mpr ⟨(), _, hbind, hrest⟩⟩

theorem Item.mem_ofAttributes_of_textDirective? {dialect : Dialect} {n : NodeId}
    {attributes : List (String × String)} {expression : String}
    (h : Plan.textDirective? dialect attributes = some expression) :
    .ok ⟨n, .text, expression⟩ ∈ ofAttributes dialect n attributes := by
  induction attributes with
  | nil => cases h
  | cons entry rest ih =>
    obtain ⟨name, e⟩ := entry
    unfold Plan.textDirective? at h
    unfold ofAttributes
    rw [List.filterMap_cons]
    split at h
    · next hparse =>
      rw [hparse]
      -- a later text directive is the one that counts
      cases hrest : Plan.textDirective? dialect rest with
      | none =>
        rw [hrest] at h
        obtain rfl : e = expression := Option.some.inj h
        exact List.mem_cons_self
      | some e' =>
        rw [hrest] at h
        obtain rfl : e' = expression := Option.some.inj h
        exact List.mem_cons_of_mem _ (ih hrest)
    · have hmem : .ok ⟨n, .text, expression⟩ ∈ ofAttributes dialect n rest := ih h
      unfold ofAttributes at hmem
      split
      · exact hmem
      · exact List.mem_cons_of_mem _ hmem

mutual

/-- Every text that is put into a page is that of a text directive of an element. -/
theorem Plan.item_of_shown {dialect : Dialect} {t : Tree} {n : NodeId} {expression : String}
    (h : .shown n expression ∈ (ofTree dialect t).wires) :
    .ok ⟨n, .text, expression⟩ ∈ Item.ofTree dialect t := by
  match t with
  | .node id content _ children =>
    rw [ofTree] at h
    rcases mem_wires_andThen h with h | h
    · exact absurd h not_shown_mem_ofContent
    · split at h
      · next e hreplacement =>
        obtain ⟨rfl, rfl⟩ := Wire.shown.inj (List.mem_singleton.mp h)
        cases content with
        | element tag attributes value =>
          rw [Item.ofTree]
          exact List.mem_append_left _ (Item.mem_ofAttributes_of_textDirective? hreplacement)
        | text s => cases hreplacement
        | comment s => cases hreplacement
      · next hreplacement =>
        have hbelow := item_of_shown_row h
        cases content with
        | element tag attributes value =>
          have hnone : Plan.textDirective? dialect attributes.entries = none := hreplacement
          rw [Item.ofTree, ← isSome_textDirective?, hnone]
          exact List.mem_append_right _ hbelow
        | text s =>
          rw [Item.ofTree]
          exact List.mem_append_right _ hbelow
        | comment s =>
          rw [Item.ofTree]
          exact hbelow

theorem Plan.item_of_shown_row {dialect : Dialect} {ts : List Tree} {n : NodeId}
    {expression : String} (h : .shown n expression ∈ (ofTrees dialect ts).wires) :
    .ok ⟨n, .text, expression⟩ ∈ Item.ofTrees dialect ts := by
  match ts with
  | [] =>
    rw [ofTrees] at h
    cases h
  | t :: rest =>
    rw [ofTrees] at h
    rw [Item.ofTrees]
    rcases mem_wires_andThen h with h | h
    · exact List.mem_append_left _ (item_of_shown h)
    · exact List.mem_append_right _ (item_of_shown_row h)

end

/-! ## Whole pages -/

theorem Plan.makes_ofRoot (dialect : Dialect) (t : Tree) :
    (ofRoot dialect t).Makes (Item.ofRoot dialect t) :=
  makes_ofTrees dialect t.children

/-- Where no text directive of an element shows a marker, the plan puts none into the page. -/
theorem Plan.plain_ofRoot {t : Tree} (ht : t.Of w.document)
    (hplain : ∀ b, .ok b ∈ Item.ofRoot kit.dialect t → b.directive = .text →
      (w.document.content b.node).isElement = true →
        Template.detect (kit.textFor w.heap b.expression) kit.dialect = false) :
    (ofRoot kit.dialect t).Plain kit w.heap := by
  intro n expression hshown
  obtain ⟨root, content, count, children⟩ := t
  exact hplain ⟨n, .text, expression⟩ (item_of_shown_row hshown) rfl
    (spec_of_shown_row ht.2.2.2 hshown).2

/-- **Compiling goes through a page in document order and stops at the first error.** It comes to
the result that the items of the page have, leaves behind what making the bindings before the first
error one by one leaves behind, the state of the user apart, and gives the root its children
back. -/
theorem compile_in_document_order {host : Host κ σ} {depth : Nat} (kit : Kit κ) {t : Tree}
    {w : World κ σ} (ht : t.Of w.document) (hnodup : t.ids.Nodup) (hdepth : t.height ≤ depth)
    (hr : w.RecordedBy (host.env depth) kit.data)
    (hplain : ∀ b, .ok b ∈ Item.ofRoot kit.dialect t → b.directive = .text →
      (w.document.content b.node).isElement = true →
        Template.detect (kit.textFor w.heap b.expression) kit.dialect = false) :
    ∃ result w₁ w₂,
      host.run depth (.request (.compile kit t.id)) w = some (result, w₁) ∧
      (result = .ok () ↔ ∀ item ∈ Item.ofRoot kit.dialect t, ∃ b, item = .ok b) ∧
      (∀ e, result = .error e ↔ Item.firstError? (Item.ofRoot kit.dialect t) = some e) ∧
      host.run depth (bindAll kit (Item.beforeError (Item.ofRoot kit.dialect t))) w =
        some ((), w₂) ∧
      (∃ user, w₁ = { w₂ with user }) ∧
      w₁.document.children t.id = w.document.children t.id := by
  have henv : (host.env depth).depth = depth := by cases depth <;> rfl
  rw [← henv] at hdepth
  have hmakes := Plan.makes_ofRoot kit.dialect t
  obtain ⟨user₁, hcompile⟩ := compile_eq kit hr ht hnodup hdepth (Plan.plain_ofRoot ht hplain)
  obtain ⟨user₂, hbind⟩ := bindAll_following kit (Plan.ofRoot kit.dialect t).wires hr
  rw [hmakes.result] at hcompile
  rw [hmakes.bindings] at hbind
  refine ⟨_, _, _, hcompile, Item.outcome_eq_ok, fun e => Item.outcome_eq_error, hbind,
    ⟨user₁, rfl⟩, ?_⟩
  -- no step is made at the root
  have hroot : w.document.has t.id := by
    obtain ⟨root, content, count, children⟩ := t
    exact ht.1
  show (w.following kit _).document.children t.id = _
  rw [World.document_following, Document.children, node_foldl_mark_of_ne hroot, Document.children]
  intro wire hmem heq
  obtain ⟨root, content, count, children⟩ := t
  have heq : wire.node = root := heq
  exact (List.nodup_cons.mp hnodup).1 (heq ▸ Plan.node_mem_idsOf hmem)

namespace BrokenPage

def host : Host Unit Unit where
  body _ _ := .done (.ok ())
  handles _ := []

def shown : Content := .element "p" { entries := [("v-text", "k"), ("class", "big")] } ""

def broken : Content := .element "p" { entries := [("v-model", "k"), ("v-bogus", "k")] } ""

/-- A key as a text, a marker, and two directives of which the second does not exist. -/
def page : Tree :=
  .node ⟨0⟩ (.element "div" ∅ "") 0
    [.node ⟨1⟩ shown 0 [], .node ⟨2⟩ (.text "{{ k }}") 0 [], .node ⟨3⟩ broken 0 []]

def fields : Slots Unit where
  entries := [("k", .reactive { value := .text "plain", hook := .silent })]

def world : World Unit Unit where
  heap := { objects := ⟨#[fields]⟩ }
  document := ⟨#[{ content := .element "div" ∅ "", children := [⟨1⟩, ⟨2⟩, ⟨3⟩] },
    { content := shown }, { content := .text "{{ k }}" }, { content := broken }]⟩
  user := ()

def pageKit : Kit Unit := { data := ⟨0⟩ }

theorem world_recordedBy (env : Env Unit Unit) : world.RecordedBy env ⟨0⟩ := by
  intro key c hc
  have hcell : world.heap.cell? ⟨0⟩ key =
      if "k" = key then some { value := .text "plain", hook := .silent } else none := by
    show (if "k" = key then some _ else none).bind Slot.cell? = _
    split <;> rfl
  rw [hcell] at hc
  split at hc
  · rw [← Option.some.inj hc]
    exact env.records_silent
  · cases hc

end BrokenPage

open BrokenPage in
/-- The text and the marker are bound, and so is the model before the error. -/
theorem compile_in_document_order_broken : ∃ w₁ w₂,
    host.run 3 (.request (.compile pageKit page.id)) world =
        some (.error (.unknownDirective "v-bogus"), w₁) ∧
      host.run 3 (bindAll pageKit
        [⟨⟨1⟩, .text, "k"⟩, ⟨⟨2⟩, .text, "{{ k }}"⟩, ⟨⟨3⟩, .model, "k"⟩]) world =
          some ((), w₂) ∧
      (∃ user, w₁ = { w₂ with user }) ∧ w₁.document.children ⟨0⟩ = [⟨1⟩, ⟨2⟩, ⟨3⟩] := by
  have hpage : page.Of world.document := by
    refine ⟨by decide, rfl, rfl, ⟨by decide, rfl, rfl, trivial⟩, ⟨by decide, rfl, rfl, trivial⟩,
      ⟨by decide, rfl, rfl, trivial⟩, trivial⟩
  have hitems : Item.ofRoot pageKit.dialect page =
      [.ok ⟨⟨1⟩, .text, "k"⟩, .ok ⟨⟨2⟩, .text, "{{ k }}"⟩, .ok ⟨⟨3⟩, .model, "k"⟩,
        .error (.unknownDirective "v-bogus")] := by
    decide +kernel
  have hplain : ∀ b, .ok b ∈ Item.ofRoot pageKit.dialect page → b.directive = .text →
      (world.document.content b.node).isElement = true →
        Template.detect (pageKit.textFor world.heap b.expression) pageKit.dialect = false := by
    rw [hitems]
    intro b hb htext helement
    simp only [List.mem_cons, Except.ok.injEq, reduceCtorEq, List.not_mem_nil, or_false] at hb
    rcases hb with rfl | rfl | rfl
    · decide +kernel
    · cases helement
    · cases htext
  have hheight : page.height ≤ 3 := by decide
  have hrecorded : world.RecordedBy (host.env 3) pageKit.data := world_recordedBy _
  obtain ⟨result, w₁, w₂, hcompile, _, herror, hbind, huser, hchildren⟩ :=
    compile_in_document_order pageKit hpage (by decide) hheight hrecorded hplain
  rw [hitems] at herror hbind
  obtain rfl := (herror (.unknownDirective "v-bogus")).mpr rfl
  exact ⟨w₁, w₂, hcompile, hbind, huser, hchildren⟩

end DataBinding
