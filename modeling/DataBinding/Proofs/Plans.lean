import DataBinding.Proofs.Recording
import DataBinding.Proofs.Trees

/-!
# The plan of a page

Which bindings a tree asks for can be read off the tree: the data has no part in it. A `Plan` lists
them in the order in which they are made, up to the first error. It also says at which elements a
text directive puts a text in the place of the children, for that text is visited like any other.
What such a text says is the one thing in a plan that is left to the data.
-/

namespace DataBinding

variable {κ σ : Type}

/-! ## Steps -/

/-- A step of compiling. -/
inductive Wire where
  /-- A binding that the page asks for. -/
  | bind (n : NodeId) (directive : Directive) (expression : String)
  /-- A visit to the text that text directives have put below an element, the last of them with this
  expression. -/
  | shown (n : NodeId) (expression : String)
deriving DecidableEq

/-- The listeners that a directive registers. -/
def Directive.listeners (kit : Kit κ) (expression : String) :
    Directive → List (String × Listener κ)
  | .model => [("input", .writeBack kit.data (Text.trim expression))]
  | .text => []
  | .on event =>
    let name := Text.trim expression
    [(event, .callMethod kit.data name (kit.methods.find? name))]

namespace Wire

/-- The keys that a step subscribes to. -/
def subscriptions (kit : Kit κ) (h : Heap κ) (collecting : Bool) : Wire → List String
  | .bind _ directive expression => directive.subscriptions kit.dialect collecting expression
  | .shown _ expression =>
    readAgain collecting (Template.parse (kit.textFor h expression) kit.dialect).markers

/-- The listeners that a step registers at a node. -/
def listeners (kit : Kit κ) (m : NodeId) : Wire → List (String × Listener κ)
  | .bind n directive expression => if n = m then directive.listeners kit expression else []
  | .shown _ _ => []

end Wire

/-- The text below an element with a text directive once that text has been compiled itself. -/
def Kit.compiledFor (kit : Kit κ) (h : Heap κ) (expression : String) : String :=
  (Template.parse (kit.textFor h expression) kit.dialect).rendering h kit.data

namespace Wire

/-- The keys that a step subscribes to because the page asks for it. -/
def asked (dialect : Dialect) (collecting : Bool) : Wire → List String
  | .bind _ directive expression => directive.subscriptions dialect collecting expression
  | .shown _ _ => []

/-- The keys that a text from data mentions. -/
def mentioned (kit : Kit κ) (h : Heap κ) : Wire → List String
  | .bind _ _ _ => []
  | .shown _ expression => (Template.parse (kit.textFor h expression) kit.dialect).markers

end Wire

theorem count_readAgain (collecting : Bool) (keys : List String) (key : String) :
    (readAgain collecting keys).count key =
      keys.count key + if collecting then keys.count key else 0 := by
  unfold readAgain
  cases collecting with
  | true => exact List.count_append
  | false => rfl

theorem count_readAgain_inj {collecting : Bool} {keys keys' : List String} {key : String}
    (h : (readAgain collecting keys).count key = (readAgain collecting keys').count key) :
    keys.count key = keys'.count key := by
  rw [count_readAgain, count_readAgain] at h
  split at h <;> omega

/-- Subscriptions are asked for by the page or mentioned in data. -/
theorem count_subscriptions (kit : Kit κ) (h : Heap κ) (collecting : Bool) (wires : List Wire)
    (key : String) :
    (wires.flatMap (Wire.subscriptions kit h collecting)).count key =
      (wires.flatMap (Wire.asked kit.dialect collecting)).count key +
        (readAgain collecting (wires.flatMap (Wire.mentioned kit h))).count key := by
  induction wires with
  | nil => cases collecting <;> rfl
  | cons wire rest ih =>
    rw [count_readAgain] at ih ⊢
    simp only [List.flatMap_cons, List.count_append, ih]
    cases wire with
    | bind n directive expression =>
      simp only [Wire.subscriptions, Wire.asked, Wire.mentioned, List.count_nil]
      split <;> omega
    | shown n expression =>
      simp only [Wire.subscriptions, Wire.asked, Wire.mentioned, List.count_nil, count_readAgain]
      split <;> omega

/-! ## Plans -/

/-- The steps of compiling, up to the first error. -/
structure Plan where
  wires : List Wire
  result : Except ViewError Unit

namespace Plan

def done : Plan := ⟨[], .ok ()⟩

def step (wire : Wire) : Plan := ⟨[wire], .ok ()⟩

/-- One plan after another, unless the first ends in an error. -/
def andThen (p q : Plan) : Plan :=
  match p.result with
  | .error _ => p
  | .ok () => ⟨p.wires ++ q.wires, q.result⟩

/-- The bindings that attributes ask for. -/
def ofAttributes (dialect : Dialect) (n : NodeId) : List (String × String) → Plan
  | [] => done
  | (name, expression) :: rest =>
    match Directive.parse name dialect with
    | .error e => ⟨[], .error e⟩
    | .ok none => ofAttributes dialect n rest
    | .ok (some directive) =>
      (step (.bind n directive expression)).andThen (ofAttributes dialect n rest)

/-- The bindings that a node asks for itself. -/
def ofContent (dialect : Dialect) (n : NodeId) : Content → Plan
  | .element _ attributes _ => ofAttributes dialect n attributes.entries
  | .text text => if Template.detect text dialect then step (.bind n .text text) else done
  | .comment _ => done

/-- The expression of the last text directive among attributes. -/
def textDirective? (dialect : Dialect) : List (String × String) → Option String
  | [] => none
  | (name, expression) :: rest =>
    match Directive.parse name dialect with
    | .ok (some .text) => some ((textDirective? dialect rest).getD expression)
    | _ => textDirective? dialect rest

/-- The expression of the text that takes the place of the children of a node, if any does. -/
def replacement? (dialect : Dialect) : Content → Option String
  | .element _ attributes _ => textDirective? dialect attributes.entries
  | _ => none

mutual

/-- The bindings that a tree asks for. -/
def ofTree (dialect : Dialect) : Tree → Plan
  | .node n content _ children =>
    (ofContent dialect n content).andThen <|
      match replacement? dialect content with
      | some expression => step (.shown n expression)
      | none => ofTrees dialect children

/-- The bindings that trees in a row ask for. -/
def ofTrees (dialect : Dialect) : List Tree → Plan
  | [] => done
  | tree :: rest => (ofTree dialect tree).andThen (ofTrees dialect rest)

end

/-- The plan for compiling below a root. -/
def ofRoot (dialect : Dialect) (t : Tree) : Plan := ofTrees dialect t.children

/-- The keys that texts from data mention in the steps of a plan. -/
def mentioned (kit : Kit κ) (h : Heap κ) (p : Plan) : List String :=
  p.wires.flatMap (Wire.mentioned kit h)

theorem mem_wires_andThen {p q : Plan} {wire : Wire} (h : wire ∈ (p.andThen q).wires) :
    wire ∈ p.wires ∨ wire ∈ q.wires := by
  unfold andThen at h
  split at h
  · exact .inl h
  · exact List.mem_append.mp h

/-- A text node with a marker in it is bound. -/
theorem ofContent_text_of_detect {dialect : Dialect} {text : String}
    (hdetect : Template.detect text dialect = true) (n : NodeId) :
    ofContent dialect n (.text text) = step (.bind n .text text) :=
  if_pos hdetect

theorem ofContent_text_of_not_detect {dialect : Dialect} {text : String}
    (hdetect : Template.detect text dialect = false) (n : NodeId) :
    ofContent dialect n (.text text) = done :=
  if_neg (by simp [hdetect])

theorem mem_wires_ofContent_text {dialect : Dialect} {n : NodeId} {text : String} {wire : Wire} :
    wire ∈ (ofContent dialect n (.text text)).wires ↔
      Template.detect text dialect = true ∧ wire = .bind n .text text := by
  cases hdetect : Template.detect text dialect with
  | true =>
    rw [ofContent_text_of_detect hdetect]
    simp [step]
  | false =>
    rw [ofContent_text_of_not_detect hdetect]
    simp [done]

/-- What the plan of a text node comes to. -/
theorem ofContent_text (kit : Kit κ) (h : Heap κ) (collecting : Bool) (n : NodeId)
    (text : String) :
    (ofContent kit.dialect n (.text text)).result = .ok () ∧
      (ofContent kit.dialect n (.text text)).wires.flatMap (Wire.subscriptions kit h collecting) =
        readAgain collecting (Template.parse text kit.dialect).markers ∧
      ∀ m, (ofContent kit.dialect n (.text text)).wires.flatMap (Wire.listeners kit m) = [] := by
  cases hdetect : Template.detect text kit.dialect with
  | true =>
    have hmarkers : (Template.parse text kit.dialect).hasMarkers = true := hdetect
    rw [ofContent_text_of_detect hdetect, step]
    refine ⟨rfl, ?_, fun m => ?_⟩
    · rw [List.flatMap_singleton, Wire.subscriptions, Directive.subscriptions, if_pos hmarkers]
    · rw [List.flatMap_singleton, Wire.listeners, Directive.listeners, ite_self]
  | false =>
    have hmarkers := Template.detect_eq_false.mp hdetect
    rw [ofContent_text_of_not_detect hdetect, hmarkers]
    refine ⟨rfl, ?_, fun _ => rfl⟩
    cases collecting <;> rfl

/-- The steps for a node itself are bindings. -/
theorem not_shown_mem_ofAttributes {dialect : Dialect} {n m : NodeId}
    {attributes : List (String × String)} {expression : String} :
    .shown m expression ∉ (ofAttributes dialect n attributes).wires := by
  induction attributes with
  | nil => exact List.not_mem_nil
  | cons entry rest ih =>
    unfold ofAttributes
    split
    · exact List.not_mem_nil
    · exact ih
    · intro h
      rcases List.mem_append.mp h with h | h
      · cases List.mem_singleton.mp h
      · exact ih h

theorem not_shown_mem_ofContent {dialect : Dialect} {n m : NodeId} {content : Content}
    {expression : String} : .shown m expression ∉ (ofContent dialect n content).wires := by
  cases content with
  | element tag attributes value => exact not_shown_mem_ofAttributes
  | text text => exact fun h => by cases (mem_wires_ofContent_text.mp h).2
  | comment text => exact List.not_mem_nil

mutual

/-- Texts are put below elements of the tree. -/
theorem spec_of_shown {dialect : Dialect} {d : Document κ} {t : Tree} {n : NodeId}
    {expression : String} (ht : t.Of d) (h : .shown n expression ∈ (ofTree dialect t).wires) :
    n ∈ t.ids ∧ (d.content n).isElement = true := by
  match t with
  | .node id content _ children =>
    obtain ⟨_, hcontent, _, hall⟩ := ht
    rw [ofTree] at h
    rcases mem_wires_andThen h with h | h
    · exact absurd h not_shown_mem_ofContent
    · split at h
      · next hreplacement =>
        obtain ⟨rfl, _⟩ := Wire.shown.inj (List.mem_singleton.mp h)
        refine ⟨List.mem_cons_self, ?_⟩
        rw [hcontent]
        cases content with
        | element tag attributes value => rfl
        | text s => cases hreplacement
        | comment s => cases hreplacement
      · obtain ⟨hmem, helement⟩ := spec_of_shown_row hall h
        exact ⟨List.mem_cons_of_mem _ hmem, helement⟩

theorem spec_of_shown_row {dialect : Dialect} {d : Document κ} {ts : List Tree} {n : NodeId}
    {expression : String} (hall : Tree.AllIn d ts)
    (h : .shown n expression ∈ (ofTrees dialect ts).wires) :
    n ∈ Tree.idsOf ts ∧ (d.content n).isElement = true := by
  match ts with
  | [] =>
    rw [ofTrees] at h
    cases h
  | t :: rest =>
    obtain ⟨ht, hrest⟩ := hall
    rw [ofTrees] at h
    rcases mem_wires_andThen h with h | h
    · obtain ⟨hmem, helement⟩ := spec_of_shown ht h
      exact ⟨List.mem_append_left _ hmem, helement⟩
    · obtain ⟨hmem, helement⟩ := spec_of_shown_row hrest h
      exact ⟨List.mem_append_right _ hmem, helement⟩

end

end Plan

end DataBinding
