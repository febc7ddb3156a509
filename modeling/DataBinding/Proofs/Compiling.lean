import DataBinding.Proofs.Plans

/-!
# What compiling binds

Compiling follows the plan of the page, with one exception. A text that a directive puts in the
place of the children of an element is visited like any other text, so if it has markers, it is
bound as a template. That is where data is taken for source.

So two runs against different data come to the same result with the same listeners, and as many
watchers subscribe to each key if and only if the texts put in by directives mention each key
equally often.
-/

namespace DataBinding

variable {κ σ : Type}

/-! ## Following a plan -/

namespace World

/-- The steps of a plan have been made, at some nodes and nowhere else. Nodes that are numbered from
`size` on are not part of the page. -/
structure Follows (kit : Kit κ) (size : Nat) (wires : List Wire) (ids : List NodeId)
    (w w' : World κ σ) : Prop where
  subscribes : w.Subscribes kit.data
    (wires.flatMap (Wire.subscriptions kit w.heap w.current.isSome)) w'
  document : w.document.Extends w'.document
  frame : ∀ m, w.document.has m → m ∉ ids → w'.document.node m = w.document.node m
  listeners : ∀ m, (w'.document.node m).listeners =
    (w.document.node m).listeners ++ wires.flatMap (Wire.listeners kit m)
  shows : ∀ n expression, .shown n expression ∈ wires →
    w'.document.HasTextBelow size n (kit.compiledFor w.heap expression)

variable {kit : Kit κ} {size : Nat} {wires wires' : List Wire} {ids ids' ids'' : List NodeId}
  {a b c w w' : World κ σ}

theorem Subscribes.textFor {o : ObjectId} {keys : List String} (h : Subscribes o keys w w')
    (kit : Kit κ) (expression : String) :
    kit.textFor w'.heap expression = kit.textFor w.heap expression := by
  unfold Kit.textFor
  dsimp only
  rw [h.rendering, h.text, h.peek]

theorem Subscribes.compiledFor {o : ObjectId} {keys : List String} (h : Subscribes o keys w w')
    (kit : Kit κ) (expression : String) :
    kit.compiledFor w'.heap expression = kit.compiledFor w.heap expression := by
  unfold Kit.compiledFor
  rw [h.textFor, h.rendering]

theorem Follows.refl (kit : Kit κ) (size : Nat) (ids : List NodeId) (w : World κ σ) :
    w.Follows kit size [] ids w := by
  refine ⟨.of_heap rfl rfl, .refl _, fun _ _ _ => rfl, fun m => ?_, fun n expression h => ?_⟩
  · rw [List.flatMap_nil, List.append_nil]
  · cases h

/-- What has been shown stays as long as later steps are made at other nodes of the page. -/
theorem Follows.trans (hab : a.Follows kit size wires ids b)
    (hbc : b.Follows kit size wires' ids' c)
    (hids : ∀ m, a.document.has m → m ∈ ids ∨ m ∈ ids' → m ∈ ids'')
    (hapart : ∀ n expression, .shown n expression ∈ wires →
      b.document.has n ∧ n ∉ ids' ∧ ∀ m ∈ ids', m.index < size) :
    a.Follows kit size (wires ++ wires') ids'' c := by
  refine ⟨?_, hab.document.trans hbc.document, ?_, ?_, ?_⟩
  · -- what a wire subscribes to depends on values only, and the first step leaves those alone
    have hsame : Wire.subscriptions kit b.heap b.current.isSome =
        Wire.subscriptions kit a.heap a.current.isSome := by
      funext wire
      cases wire with
      | bind n directive expression =>
        rw [Wire.subscriptions, Wire.subscriptions, hab.subscribes.current]
      | shown n expression =>
        rw [Wire.subscriptions, Wire.subscriptions, hab.subscribes.current,
          hab.subscribes.textFor]
    have hboth := hab.subscribes.trans hbc.subscribes
    rw [hsame, ← List.flatMap_append] at hboth
    exact hboth
  · intro m hm hnot
    have hleft : m ∉ ids := fun h => hnot (hids m hm (.inl h))
    have hright : m ∉ ids' := fun h => hnot (hids m hm (.inr h))
    rw [hbc.frame m (hab.document.has hm) hright, hab.frame m hm hleft]
  · intro m
    rw [hbc.listeners, hab.listeners, List.append_assoc, List.flatMap_append]
  · intro n expression h
    rcases List.mem_append.mp h with h | h
    · -- the text was shown by the first step, so the second must not touch it
      obtain ⟨hn, hapart, hpage⟩ := hapart n expression h
      refine (hab.shows n expression h).of_children hbc.document ?_ fun m hm hlate => ?_
      · rw [Document.children, hbc.frame n hn hapart]
        rfl
      · refine hbc.frame m hm fun hmem => ?_
        exact Nat.lt_irrefl _ (Nat.lt_of_lt_of_le (hpage m hmem) hlate)
    · rw [← hab.subscribes.compiledFor]
      exact hbc.shows n expression h

/-- Trees of which a step touches no node are still there. -/
theorem Follows.allIn {ts : List Tree} (h : w.Follows kit size wires ids w')
    (hall : Tree.AllIn w.document ts) (hapart : ∀ m ∈ Tree.idsOf ts, m ∉ ids) :
    Tree.AllIn w'.document ts :=
  Tree.AllIn.of_node_eq h.document hall fun m hm =>
    h.frame m (Tree.AllIn.has hall m hm) (hapart m hm)

end World

open World

variable {env : Env κ σ} {kit : Kit κ} {w : World κ σ}

/-- What a directive does to the document: it registers its listeners, and else changes nothing but
its node. -/
theorem Directive.mark_frame (kit : Kit κ) (h : Heap κ) {n : NodeId} (expression : String)
    {d : Document κ} (directive : Directive) (hn : d.has n) :
    d.Extends (directive.mark kit h n expression d) ∧
      (∀ m, d.has m → m ∉ [n] → (directive.mark kit h n expression d).node m = d.node m) ∧
      ∀ m, ((directive.mark kit h n expression d).node m).listeners =
        (d.node m).listeners ++ if n = m then directive.listeners kit expression else [] := by
  have hne : ∀ {m}, m ∉ [n] → n ≠ m := fun hm heq => hm (heq ▸ List.mem_cons_self)
  cases directive with
  | model =>
    refine ⟨(Document.Extends.addListener d n _ _).trans (.setValue _ n _), ?_, ?_⟩
    · intro m _ hm
      exact (Document.node_modifyNode_of_ne _ _ (hne hm)).trans
        (Document.node_modifyNode_of_ne _ _ (hne hm))
    · intro m
      exact (Document.listeners_setValue _ n _ m).trans
        (Document.listeners_addListener hn "input" _ m)
  | text =>
    refine ⟨.setText d n _, ?_, ?_⟩
    · exact fun m hhas hm => Document.node_setText_of_ne _ hhas (hne hm)
    · intro m
      rw [Directive.listeners, ite_self, List.append_nil]
      exact Document.listeners_setText d n _ m
  | on event =>
    refine ⟨.addListener d n _ _, ?_, ?_⟩
    · exact fun m _ hm => Document.node_modifyNode_of_ne _ _ (hne hm)
    · exact fun m => Document.listeners_addListener hn event _ m

/-- A binding is a step at its node. -/
theorem bind_follows {n : NodeId} (hr : w.RecordedBy env kit.data) (size : Nat)
    (hn : w.document.has n) (directive : Directive) (expression : String) : ∃ w',
    directive.bind env n expression kit w = some ((), w') ∧
      w'.document = directive.mark kit w.heap n expression w.document ∧
      w.Follows kit size [.bind n directive expression] [n] w' := by
  obtain ⟨w', hbind, hdocument, hsubscribes⟩ := bind_recorded hr n directive expression
  obtain ⟨hextends, hframe, hlisteners⟩ :=
    directive.mark_frame kit w.heap expression hn
  refine ⟨w', hbind, hdocument, ?_, ?_, ?_, ?_, ?_⟩
  · rw [List.flatMap_singleton]
    exact hsubscribes
  · rw [hdocument]
    exact hextends
  · rw [hdocument]
    exact hframe
  · intro m
    rw [hdocument, List.flatMap_singleton]
    exact hlisteners m
  · intro m e h
    cases List.mem_singleton.mp h

/-- What a directive leaves below its node: a text directive puts a text there. -/
theorem Directive.mark_below (kit : Kit κ) (h : Heap κ) {n : NodeId} (expression : String)
    {d : Document κ} (directive : Directive) (hn : d.has n)
    (helement : (d.content n).isElement = true) :
    if directive = .text then
      (directive.mark kit h n expression d).HasTextBelow d.size n (kit.textFor h expression)
    else (directive.mark kit h n expression d).children n = d.children n := by
  have hlisten : ∀ event l, (d.addListener n event l).children n = d.children n := by
    intro event l
    unfold Document.addListener
    rw [Document.children_modifyNode]
    split <;> rfl
  cases directive with
  | model =>
    rw [if_neg (by simp)]
    show (Document.setValue _ n _).children n = _
    unfold Document.setValue
    rw [Document.children_modifyNode]
    split <;> exact hlisten _ _
  | text =>
    rw [if_pos rfl]
    exact Document.hasTextBelow_setText hn helement _
  | on event =>
    rw [if_neg (by simp)]
    exact hlisten _ _

/-- What is below an element after its attributes are compiled. -/
def Document.Replaced (d d' : Document κ) (kit : Kit κ) (h : Heap κ) (n : NodeId) :
    Option String → Prop
  | some expression => d'.HasTextBelow d.size n (kit.textFor h expression)
  | none => d'.children n = d.children n

theorem compileAttributes_follows (attributes : List (String × String)) (size : Nat) {n : NodeId}
    (hr : w.RecordedBy env kit.data) (hn : w.document.has n)
    (helement : (w.document.content n).isElement = true) : ∃ w',
    compileAttributes env kit n attributes w =
        some ((Plan.ofAttributes kit.dialect n attributes).result, w') ∧
      w.Follows kit size (Plan.ofAttributes kit.dialect n attributes).wires [n] w' ∧
      ((Plan.ofAttributes kit.dialect n attributes).result = .ok () →
        w.document.Replaced w'.document kit w.heap n
          (Plan.textDirective? kit.dialect attributes)) := by
  induction attributes generalizing w with
  | nil => exact ⟨w, rfl, .refl kit size [n] w, fun _ => rfl⟩
  | cons entry rest ih =>
    obtain ⟨name, expression⟩ := entry
    unfold compileAttributes Plan.ofAttributes Plan.textDirective?
    cases hparse : Directive.parse name kit.dialect with
    | error e => exact ⟨w, rfl, .refl kit size [n] w, fun h => by cases h⟩
    | ok found =>
      cases found with
      | none => exact ih hr hn helement
      | some directive =>
        obtain ⟨w₁, hbind, hdocument, hfirst⟩ := bind_follows hr size hn directive expression
        have hbelow := directive.mark_below kit w.heap expression hn helement
        rw [← hdocument] at hbelow
        obtain ⟨w', hrest, hsecond, hreplaced⟩ := ih (hfirst.subscribes.recordedBy hr)
          (hfirst.document.has hn) (hfirst.document.isElement hn helement)
        refine ⟨w', Run.bind_eq_some.mpr ⟨(), w₁, hbind, hrest⟩, ?_, fun hok => ?_⟩
        · refine hfirst.trans hsecond ?_ ?_
          · rintro m _ (hm | hm) <;> exact hm
          · intro m e h
            cases List.mem_singleton.mp h
        · have hreplaced := hreplaced hok
          cases hlater : Plan.textDirective? kit.dialect rest with
          | some e =>
            rw [hlater] at hreplaced
            have htext : w'.document.HasTextBelow w.document.size n (kit.textFor w.heap e) := by
              rw [← hfirst.subscribes.textFor]
              exact Document.HasTextBelow.of_le hreplaced hfirst.document.size
            cases directive <;> exact htext
          | none =>
            rw [hlater] at hreplaced
            by_cases htext : directive = .text
            · rw [if_pos htext] at hbelow
              subst htext
              refine hbelow.of_children hsecond.document hreplaced fun m hm hlate => ?_
              refine hsecond.frame m hm fun hmem => ?_
              -- the node itself is not new
              rw [List.mem_singleton.mp hmem] at hlate
              exact Nat.lt_irrefl _ (Nat.lt_of_lt_of_le hn hlate)
            · rw [if_neg htext] at hbelow
              have hsame : w'.document.children n = w.document.children n :=
                Eq.trans hreplaced hbelow
              cases directive with
              | text => exact absurd rfl htext
              | model => exact hsame
              | on event => exact hsame

/-- A node that is not an element keeps its children when its text is set. -/
theorem Document.children_setText_of_isText {d : Document κ} {n : NodeId} {text : String}
    (hc : d.content n = .text text) (text' : String) :
    (d.setText n text').children n = d.children n := by
  unfold Document.setText
  rw [hc]
  dsimp only
  rw [Document.children_modifyNode]
  split <;> rfl

/-- A text node shows its template afterwards, whether or not that has a marker. -/
theorem compileNode_text {n : NodeId} {text : String} (hr : w.RecordedBy env kit.data)
    (hn : w.document.has n) (hcontent : w.document.content n = .text text) : ∃ w',
    compileNode env kit n w = some (.ok (), w') ∧
      w.Subscribes kit.data
        (readAgain w.current.isSome (Template.parse text kit.dialect).markers) w' ∧
      w.document.Extends w'.document ∧
      (∀ m, w.document.has m → m ∉ [n] → w'.document.node m = w.document.node m) ∧
      (∀ m, (w'.document.node m).listeners = (w.document.node m).listeners) ∧
      w'.document.children n = w.document.children n ∧
      w'.document.content n =
        .text ((Template.parse text kit.dialect).rendering w.heap kit.data) := by
  unfold compileNode
  simp only [Run.bind_eq_some, Run.get_eq_some]
  cases hdetect : Template.detect text kit.dialect with
  | true =>
    obtain ⟨w', hbind, hdocument, hsubscribes⟩ := bind_recorded hr n .text text
    obtain ⟨hextends, hframe, hlisteners⟩ := Directive.text.mark_frame kit w.heap text hn
    have hmarkers : (Template.parse text kit.dialect).hasMarkers = true := hdetect
    rw [Directive.subscriptions, if_pos hmarkers] at hsubscribes
    have hmark : w'.document = w.document.setText n
        ((Template.parse text kit.dialect).rendering w.heap kit.data) := by
      rw [hdocument, Directive.mark, Kit.textFor, if_pos hmarkers]
    -- the binding has put the rendering into the node
    refine ⟨w', ⟨w, w, ⟨rfl, rfl⟩, ?_⟩, hsubscribes, ?_, ?_, ?_, ?_, ?_⟩
    · rw [hcontent]
      dsimp only
      rw [if_pos hdetect]
      exact Run.bind_eq_some.mpr ⟨(), w', hbind, Run.pure_eq_some.mpr ⟨rfl, rfl⟩⟩
    · rw [hdocument]
      exact hextends
    · rw [hdocument]
      exact hframe
    · intro m
      rw [hdocument, hlisteners, Directive.listeners, ite_self, List.append_nil]
    · rw [hmark]
      exact Document.children_setText_of_isText hcontent _
    · rw [hmark, Document.content_setText _ _ _ hn, if_pos rfl, hcontent]
      rfl
  | false =>
    have hnot : ¬ Template.detect text kit.dialect = true := by
      rw [hdetect]
      exact Bool.false_ne_true
    have hmarkers := Template.detect_eq_false.mp hdetect
    refine ⟨w, ⟨w, w, ⟨rfl, rfl⟩, ?_⟩, ?_, .refl _, fun _ _ _ => rfl, fun _ => rfl, rfl, ?_⟩
    · rw [hcontent]
      dsimp only
      rw [if_neg hnot]
      rfl
    · rw [hmarkers]
      cases w.current.isSome <;> exact .of_heap rfl rfl
    · rw [hcontent, Template.rendering, Template.filled_parse _ hmarkers]

theorem compileNode_follows (kit : Kit κ) (size : Nat) {n : NodeId} (hr : w.RecordedBy env kit.data)
    (hn : w.document.has n) : ∃ w',
    compileNode env kit n w =
        some ((Plan.ofContent kit.dialect n (w.document.content n)).result, w') ∧
      w.Follows kit size (Plan.ofContent kit.dialect n (w.document.content n)).wires [n] w' ∧
      ((Plan.ofContent kit.dialect n (w.document.content n)).result = .ok () →
        w.document.Replaced w'.document kit w.heap n
          (Plan.replacement? kit.dialect (w.document.content n))) := by
  cases hc : w.document.content n with
  | element tag attributes value =>
    obtain ⟨w', hrun, hrest⟩ := compileAttributes_follows attributes.entries size hr hn
      (by rw [hc]; rfl)
    refine ⟨w', Run.bind_eq_some.mpr ⟨w, w, Run.get_eq_some.mpr ⟨rfl, rfl⟩, ?_⟩, hrest⟩
    rw [hc]
    exact hrun
  | text text =>
    obtain ⟨w', hrun, hsubscribes, hextends, hframe, hlisteners, hchildren, _⟩ :=
      compileNode_text hr hn hc
    obtain ⟨hresult, hkeys, hnone⟩ :=
      Plan.ofContent_text kit w.heap w.current.isSome n text
    refine ⟨w', ?_, ⟨?_, hextends, hframe, fun m => ?_, fun m e h => ?_⟩, fun _ => hchildren⟩
    · rw [hresult]
      exact hrun
    · rw [hkeys]
      exact hsubscribes
    · rw [hlisteners, hnone, List.append_nil]
    · exact absurd h Plan.not_shown_mem_ofContent
  | comment text =>
    refine ⟨w, Run.bind_eq_some.mpr ⟨w, w, Run.get_eq_some.mpr ⟨rfl, rfl⟩, ?_⟩,
      .refl kit size [n] w, fun _ => rfl⟩
    rw [hc]
    rfl

/-! ## Trees -/

/-- Goes on unless there is an error. -/
def Run.okThen (first next : Run κ σ (Except ViewError Unit)) :
    Run κ σ (Except ViewError Unit) := do
  match ← first with
  | .error e => return .error e
  | .ok () => next

/-- Compiles what is below a node by now. -/
def compileBelow (env : Env κ σ) (kit : Kit κ) (depth : Nat) (n : NodeId) :
    Run κ σ (Except ViewError Unit) := do
  compileNodes env kit depth ((← get).document.children n)

theorem compileNodes_nil (depth : Nat) (w : World κ σ) :
    compileNodes env kit depth [] w = some (.ok (), w) := by
  rw [compileNodes]
  rfl

theorem compileNodes_cons (depth : Nat) (n : NodeId) (rest : List NodeId) :
    compileNodes env kit (depth + 1) (n :: rest) =
      ((compileNode env kit n).okThen (compileBelow env kit depth n)).okThen
        (compileNodes env kit (depth + 1) rest) := by
  rw [compileNodes]
  unfold Run.okThen compileBelow
  rw [bind_assoc]
  congr 1
  funext result
  cases result with
  | error e => rfl
  | ok u => rfl

/-- Runs follow plans one after another. The second run may touch new nodes besides those of the
page. -/
theorem okThen_follows {size : Nat} {p q : Plan} {ids ids'' : List NodeId} (ids' : List NodeId)
    {first next : Run κ σ (Except ViewError Unit)} {w₁ : World κ σ}
    (hfirst : first w = some (p.result, w₁)) (hp : w.Follows kit size p.wires ids w₁)
    (hids : ∀ m ∈ ids, m ∈ ids'')
    (hnext : p.result = .ok () → (∀ m, w.document.has m → m ∈ ids' → m ∈ ids'') ∧
      ∃ w', next w₁ = some (q.result, w') ∧ w₁.Follows kit size q.wires ids' w')
    (hapart : ∀ n expression, .shown n expression ∈ p.wires →
      w₁.document.has n ∧ n ∉ ids' ∧ ∀ m ∈ ids', m.index < size) : ∃ w',
    first.okThen next w = some ((p.andThen q).result, w') ∧
      w.Follows kit size (p.andThen q).wires ids'' w' := by
  obtain ⟨wires, result⟩ := p
  cases result with
  | error e =>
    refine ⟨w₁, Run.bind_eq_some.mpr ⟨_, w₁, hfirst, rfl⟩, hp.subscribes, hp.document, ?_,
      hp.listeners, hp.shows⟩
    exact fun m hm hnot => hp.frame m hm fun hmem => hnot (hids m hmem)
  | ok u =>
    obtain ⟨hids', w', hrun, hq⟩ := hnext rfl
    refine ⟨w', Run.bind_eq_some.mpr ⟨_, w₁, hfirst, hrun⟩, hp.trans hq ?_ hapart⟩
    rintro m hm (hmem | hmem)
    · exact hids m hmem
    · exact hids' m hm hmem

/-- A text node without children is compiled by itself. -/
theorem compileNodes_leaf {n : NodeId} {w' : World κ σ} (depth : Nat)
    (h : compileNode env kit n w = some (.ok (), w')) (hleaf : w'.document.children n = []) :
    compileNodes env kit (depth + 1) [n] w = some (.ok (), w') := by
  have hbelow : compileBelow env kit depth n w' = some (.ok (), w') := by
    refine Run.bind_eq_some.mpr ⟨w', w', Run.get_eq_some.mpr ⟨rfl, rfl⟩, ?_⟩
    rw [hleaf]
    exact compileNodes_nil depth w'
  rw [compileNodes_cons]
  refine Run.bind_eq_some.mpr ⟨_, w', Run.bind_eq_some.mpr ⟨_, w', h, hbelow⟩, ?_⟩
  exact compileNodes_nil _ w'

/-- A text that directives have put below an element is compiled like a text of the page. -/
theorem compileBelow_shown_follows {depth size : Nat} {n : NodeId} {expression : String}
    (hr : w.RecordedBy env kit.data)
    (hbelow : w.document.HasTextBelow size n (kit.textFor w.heap expression))
    (hn : w.document.has n) (hpage : n.index < size) : ∃ w',
    compileBelow env kit (depth + 1) n w = some (.ok (), w') ∧
      w.Follows kit size [.shown n expression] (w.document.children n) w' := by
  have hget : ∀ {w'}, compileNodes env kit (depth + 1) (w.document.children n) w =
      some (.ok (), w') → compileBelow env kit (depth + 1) n w = some (.ok (), w') := fun h =>
    Run.bind_eq_some.mpr ⟨w, w, Run.get_eq_some.mpr ⟨rfl, rfl⟩, h⟩
  rcases hbelow with ⟨hchildren, htext⟩ | ⟨m, hm, hhas, hchildren, hcontent, hleaf⟩
  · -- the text is empty, so there is no node for it
    have hcompiled : kit.compiledFor w.heap expression = "" := by
      rw [Kit.compiledFor, htext, Template.parse_empty]
      rfl
    refine ⟨w, hget ?_, ?_, .refl _, fun _ _ _ => rfl, fun m => (List.append_nil _).symm, ?_⟩
    · rw [hchildren]
      exact compileNodes_nil _ w
    · rw [List.flatMap_singleton, Wire.subscriptions, htext, Template.parse_empty]
      cases w.current.isSome <;> exact .of_heap rfl rfl
    · intro m e h
      obtain ⟨rfl, rfl⟩ := Wire.shown.inj (List.mem_singleton.mp h)
      exact .inl ⟨hchildren, hcompiled⟩
  · obtain ⟨w', hrun, hsubscribes, hextends, hframe, hlisteners, hleaf', hcontent'⟩ :=
      compileNode_text hr hhas hcontent
    rw [hleaf] at hleaf'
    refine ⟨w', hget ?_, ?_, hextends, ?_, ?_, ?_⟩
    · rw [hchildren]
      exact compileNodes_leaf depth hrun hleaf'
    · rw [List.flatMap_singleton]
      exact hsubscribes
    · rw [hchildren]
      exact hframe
    · intro k
      rw [hlisteners]
      exact (List.append_nil _).symm
    · intro k e h
      obtain ⟨rfl, rfl⟩ := Wire.shown.inj (List.mem_singleton.mp h)
      -- the text node is a new one, and the element is of the page
      have hne : k ∉ [m] := by
        intro hmem
        rw [List.mem_singleton.mp hmem] at hpage
        exact Nat.lt_irrefl _ (Nat.lt_of_lt_of_le hpage hm)
      refine .inr ⟨m, hm, hextends.has hhas, ?_, hcontent', hleaf'⟩
      rw [Document.children, hframe k hn hne]
      exact hchildren

/-- Down to a depth, compiling trees of a page in a row follows their plan. -/
def CompilesTrees (env : Env κ σ) (kit : Kit κ) (size depth : Nat) : Prop :=
  ∀ {ts : List Tree} {w : World κ σ}, w.RecordedBy env kit.data → size ≤ w.document.size →
    Tree.AllIn w.document ts → (∀ n ∈ Tree.idsOf ts, n.index < size) → (Tree.idsOf ts).Nodup →
    Tree.heightOf ts < depth → ∃ w',
      compileNodes env kit depth (ts.map Tree.id) w =
          some ((Plan.ofTrees kit.dialect ts).result, w') ∧
        w.Follows kit size (Plan.ofTrees kit.dialect ts).wires (Tree.idsOf ts) w'

theorem compileTree_follows {size depth : Nat} {t : Tree}
    (hbelow : CompilesTrees env kit size depth)
    (hr : w.RecordedBy env kit.data) (hsize : size ≤ w.document.size) (ht : t.Of w.document)
    (hpage : ∀ n ∈ t.ids, n.index < size) (hnodup : t.ids.Nodup) (hdepth : t.height ≤ depth) :
    ∃ w', (compileNode env kit t.id).okThen (compileBelow env kit depth t.id) w =
        some ((Plan.ofTree kit.dialect t).result, w') ∧
      w.Follows kit size (Plan.ofTree kit.dialect t).wires t.ids w' := by
  obtain ⟨n, content, count, children⟩ := t
  obtain ⟨hn, hcontent, hchildren, hall⟩ := ht
  obtain ⟨hnot, hnodup⟩ := List.nodup_cons.mp hnodup
  have hnpage : n.index < size := hpage n List.mem_cons_self
  rw [Tree.height] at hdepth
  obtain ⟨w₁, hnode, hfirst, hreplaced⟩ := compileNode_follows kit size hr hn
  rw [hcontent] at hnode hfirst hreplaced
  have hr₁ := hfirst.subscribes.recordedBy hr
  rw [Plan.ofTree]
  -- a text that is bound replaces the children, so the walk goes on in the text; otherwise below
  cases hreplacement : Plan.replacement? kit.dialect content with
  | some expression =>
    rw [hreplacement] at hreplaced
    refine okThen_follows (q := .step (.shown n expression)) (w₁.document.children n) hnode hfirst
      ?_ (fun hok => ?_) fun m e h => absurd h Plan.not_shown_mem_ofContent
    · exact fun m hm => List.mem_cons.mpr (.inl (List.mem_singleton.mp hm))
    · have htext : w₁.document.HasTextBelow w.document.size n (kit.textFor w.heap expression) :=
        hreplaced hok
      constructor
      · -- the new text has a number that no node had before
        intro m hm hmem
        exact absurd hm (Nat.not_lt.mpr (htext.le_of_mem_children hmem))
      · obtain ⟨k, rfl⟩ : ∃ k, depth = k + 1 := ⟨depth - 1, by omega⟩
        refine compileBelow_shown_follows hr₁ ?_ (hfirst.document.has hn) hnpage
        rw [hfirst.subscribes.textFor]
        exact htext.of_le hsize
  | none =>
    rw [hreplacement] at hreplaced
    refine okThen_follows (q := Plan.ofTrees kit.dialect children) (Tree.idsOf children) hnode
      hfirst ?_ (fun hok => ?_) fun m e h => absurd h Plan.not_shown_mem_ofContent
    · exact fun m hm => List.mem_cons.mpr (.inl (List.mem_singleton.mp hm))
    · have hsame : w₁.document.children n = w.document.children n := hreplaced hok
      refine ⟨fun m _ hm => List.mem_cons_of_mem _ hm, ?_⟩
      have hall₁ : Tree.AllIn w₁.document children := by
        refine hfirst.allIn hall fun m hm hmem => hnot ?_
        rw [← List.mem_singleton.mp hmem]
        exact hm
      obtain ⟨w₂, hrun, hsecond⟩ := hbelow hr₁ (Nat.le_trans hsize hfirst.document.size) hall₁
        (fun m hm => hpage m (List.mem_cons_of_mem _ hm)) hnodup (by omega)
      refine ⟨w₂, Run.bind_eq_some.mpr ⟨w₁, w₁, Run.get_eq_some.mpr ⟨rfl, rfl⟩, ?_⟩, hsecond⟩
      rw [show w₁.document.children (Tree.node n content count children).id =
        children.map Tree.id from hsame.trans hchildren]
      exact hrun

/-- Compiling trees in a row follows their plan. The induction is on the depth, and for each depth
on the row; a tree touches its own nodes and new ones, so it leaves the trees after it as they
are. -/
theorem compilesTrees (env : Env κ σ) (kit : Kit κ) (size depth : Nat) :
    CompilesTrees env kit size depth := by
  induction depth with
  | zero => exact fun _ _ _ _ _ hdepth => absurd hdepth (Nat.not_lt_zero _)
  | succ depth ihdepth =>
    intro ts
    induction ts with
    | nil => exact fun _ _ _ _ _ _ => ⟨_, compileNodes_nil _ _, .refl kit size _ _⟩
    | cons t rest ihrest =>
      intro w hr hsize hall hpage hnodup hdepth
      obtain ⟨ht, hrest⟩ := hall
      obtain ⟨hnodup, hnodupRest, hapart⟩ := List.nodup_append.mp hnodup
      rw [Tree.heightOf] at hdepth
      obtain ⟨w₁, hrun, hfirst⟩ := compileTree_follows ihdepth hr hsize ht
        (fun m hm => hpage m (List.mem_append_left _ hm)) hnodup (by omega)
      have hrest₁ : Tree.AllIn w₁.document rest :=
        hfirst.allIn hrest fun m hm hmem => hapart m hmem m hm rfl
      rw [List.map_cons, compileNodes_cons, Plan.ofTrees]
      refine okThen_follows (Tree.idsOf rest) hrun hfirst ?_ (fun hok => ?_) ?_
      · exact fun m hm => List.mem_append_left _ hm
      · refine ⟨fun m _ hm => List.mem_append_right _ hm, ?_⟩
        exact ihrest (hfirst.subscribes.recordedBy hr) (Nat.le_trans hsize hfirst.document.size)
          hrest₁ (fun m hm => hpage m (List.mem_append_right _ hm)) hnodupRest (by omega)
      · intro n e h
        have hn := (Plan.spec_of_shown ht h).1
        exact ⟨hfirst.document.has (Tree.Of.has ht n hn), fun hmem => hapart n hn n hmem rfl,
          fun m hm => hpage m (List.mem_append_right _ hm)⟩

/-- Changing a node without its content and listeners is no step. -/
theorem World.Follows.of_modifyNode {size : Nat} {w : World κ σ} {n : NodeId} {f : Node κ → Node κ}
    (hcontent : ∀ node, (f node).content = node.content)
    (hlisteners : ∀ node, (f node).listeners = node.listeners) :
    w.Follows kit size [] [n] (w.mapDocument fun d => d.modifyNode n f) := by
  refine ⟨.of_heap rfl rfl, ?_, ?_, ?_, fun m e h => by cases h⟩
  · refine .modifyNode _ n ?_ fun node l hl => ?_
    · rw [hcontent]
      exact .refl _
    · rw [hlisteners]
      exact hl
  · exact fun m _ hm => Document.node_modifyNode_of_ne _ _ fun h => hm (h ▸ List.mem_cons_self)
  · intro m
    rw [List.flatMap_nil, List.append_nil]
    exact Document.listeners_modifyNode _ n hlisteners m

/-- **Compiling a tree follows its plan.** -/
theorem compile_follows (kit : Kit κ) {t : Tree} (hr : w.RecordedBy env kit.data)
    (ht : t.Of w.document) (hnodup : t.ids.Nodup) (hdepth : t.height ≤ env.depth) : ∃ w',
    compile env kit t.id w = some ((Plan.ofRoot kit.dialect t).result, w') ∧
      w.Follows kit w.document.size (Plan.ofRoot kit.dialect t).wires t.ids w' := by
  obtain ⟨root, content, count, children⟩ := t
  obtain ⟨hroot, _, hchildren, hall⟩ := ht
  obtain ⟨hnot, hnodup⟩ := List.nodup_cons.mp hnodup
  rw [Tree.height] at hdepth
  -- the root is emptied, its children are compiled as a row, and then they are put back
  let w₁ : World κ σ := w.mapDocument fun d => d.detachChildren root
  have hfirst : w.Follows kit w.document.size [] [root] w₁ :=
    .of_modifyNode (fun _ => rfl) fun _ => rfl
  have hsize : w.document.size ≤ w₁.document.size := hfirst.document.size
  have hall₁ : Tree.AllIn w₁.document children := by
    refine hfirst.allIn hall fun m hm hmem => hnot ?_
    rw [← List.mem_singleton.mp hmem]
    exact hm
  have hr₁ : World.RecordedBy { w₁ with held := [.object kit.data] ++ w₁.held } env kit.data := hr
  obtain ⟨w₂, hrun, hsecond⟩ := compilesTrees env kit w.document.size env.depth hr₁ hsize hall₁
    (Tree.AllIn.has hall) hnodup hdepth
  let w₃ : World κ σ := { w₂ with held := w₁.held }
  have hsecond : w₁.Follows kit w.document.size _ (Tree.idsOf children) w₃ :=
    ⟨hsecond.subscribes.of_holding, hsecond.document, hsecond.frame, hsecond.listeners,
      hsecond.shows⟩
  have hthird : w₃.Follows kit w.document.size [] [root]
      (w₃.mapDocument fun d => d.appendChildren root (children.map Tree.id)) :=
    .of_modifyNode (fun _ => rfl) fun _ => rfl
  refine ⟨w₃.mapDocument fun d => d.appendChildren root (children.map Tree.id), ?_, ?_⟩
  · unfold compile
    simp only [Run.bind_eq_some, Run.get_eq_some, Run.modify_eq_some, Run.pure_eq_some,
      Run.holding_eq_some]
    refine ⟨w, w, ⟨rfl, rfl⟩, (), w₁, rfl, _, w₃, ⟨w₂, ?_, rfl⟩, (), _, rfl, rfl, ?_⟩
    · rw [Tree.id, hchildren]
      exact hrun
    · rw [Tree.id, hchildren]
  · have hboth : w.Follows kit w.document.size (Plan.ofTrees kit.dialect children).wires
        (root :: Tree.idsOf children) w₃ := by
      refine hfirst.trans hsecond ?_ fun _ _ h => by cases h
      rintro m _ (hm | hm)
      · exact List.mem_cons.mpr (.inl (List.mem_singleton.mp hm))
      · exact List.mem_cons_of_mem _ hm
    have hwhole : w.Follows kit w.document.size ((Plan.ofTrees kit.dialect children).wires ++ [])
        (root :: Tree.idsOf children)
        (w₃.mapDocument fun d => d.appendChildren root (children.map Tree.id)) := by
      refine hboth.trans hthird ?_ fun n e h => ?_
      · rintro m _ (hm | hm)
        · exact hm
        · exact List.mem_cons.mpr (.inl (List.mem_singleton.mp hm))
      · have hn := (Plan.spec_of_shown_row hall h).1
        refine ⟨hboth.document.has (Tree.AllIn.has hall n hn), fun hmem => hnot ?_, fun m hm => ?_⟩
        · rw [← List.mem_singleton.mp hmem]
          exact hn
        · rw [List.mem_singleton.mp hm]
          exact hroot
    rw [List.append_nil] at hwhole
    exact hwhole

/-! ## Two runs -/

/-- How many more subscribers a field has. -/
def World.gained (w w' : World κ σ) (o : ObjectId) (key : String) : Nat :=
  (w'.heap.subscribers o key).length - (w.heap.subscribers o key).length

theorem World.Follows.gained_eq {size : Nat} {wires : List Wire} {ids : List NodeId}
    {w' : World κ σ} (h : w.Follows kit size wires ids w') (key : String) :
    w.gained w' kit.data key = if w.heap.isReactive kit.data key then
      (wires.flatMap (Wire.subscriptions kit w.heap w.current.isSome)).count key else 0 := by
  unfold gained
  cases hreactive : w.heap.isReactive kit.data key with
  | true =>
    rw [h.subscribes.length_subscribers hreactive, if_pos rfl]
    omega
  | false =>
    have hc : w.heap.cell? kit.data key = none := by
      simpa [Heap.isReactive] using hreactive
    obtain ⟨late, hcell, _⟩ := h.subscribes.cell kit.data key
    rw [hc] at hcell
    unfold Heap.subscribers
    rw [hcell, hc]
    rfl

/-- A listener that is to work on an object, whichever one it was made for. -/
def Listener.aimedAt (o : ObjectId) : Listener κ → Listener κ
  | .writeBack _ key => .writeBack o key
  | .callMethod _ name method => .callMethod o name method
  | .custom code => .custom code

/-- What a step registers against other data differs in the data alone. -/
theorem Wire.listeners_aimedAt (kit : Kit κ) (o : ObjectId) (n : NodeId) (wire : Wire) :
    (wire.listeners kit n).map (Prod.map id (Listener.aimedAt o)) =
      wire.listeners { kit with data := o } n := by
  cases wire with
  | shown m expression => rfl
  | bind m directive expression =>
    show (if m = n then _ else _ : List (String × Listener κ)).map _ = if m = n then _ else _
    by_cases hm : m = n
    · rw [if_pos hm, if_pos hm]
      cases directive <;> rfl
    · rw [if_neg hm, if_neg hm]
      rfl

/-- The listeners that a node gains, aimed at the data of the run. -/
theorem World.Follows.listeners_aimedAt {size : Nat} {wires : List Wire} {ids : List NodeId}
    {w' : World κ σ} (o : ObjectId) (h : w.Follows { kit with data := o } size wires ids w')
    (n : NodeId) : (w'.document.node n).listeners = (w.document.node n).listeners ++
      (wires.flatMap (Wire.listeners kit n)).map (Prod.map id (Listener.aimedAt o)) := by
  rw [h.listeners, List.map_flatMap]
  simp only [Wire.listeners_aimedAt]

/-- The text of the value of a key. -/
def Kit.valueText (kit : Kit κ) (h : Heap κ) (expression : String) : String :=
  h.text (h.peek kit.data (Text.trim expression))

/-- Every element whose last text directive gives a key shows the text of its value, compiled as a
template. That is the text itself if it has no marker. -/
def World.ShowsKeys (w w' : World κ σ) (kit : Kit κ) (p : Plan) : Prop :=
  ∀ n expression, .shown n expression ∈ p.wires →
    (Template.parse expression kit.dialect).hasMarkers = false →
      w'.document.textContent n =
        (Template.parse (kit.valueText w.heap expression) kit.dialect).rendering w.heap kit.data ∧
      (Template.detect (kit.valueText w.heap expression) kit.dialect = false →
        w'.document.textContent n = kit.valueText w.heap expression)

theorem World.Follows.showsKeys {t : Tree} {w' : World κ σ} {size : Nat} {ids : List NodeId}
    (ht : t.Of w.document) (h : w.Follows kit size (Plan.ofRoot kit.dialect t).wires ids w') :
    w.ShowsKeys w' kit (Plan.ofRoot kit.dialect t) := by
  intro n expression hshown hkey
  obtain ⟨root, content, count, children⟩ := t
  obtain ⟨hmem, helement⟩ := Plan.spec_of_shown_row ht.2.2.2 hshown
  have hn := Tree.AllIn.has ht.2.2.2 n hmem
  have hvalue : kit.textFor w.heap expression = kit.valueText w.heap expression := by
    unfold Kit.textFor
    dsimp only
    rw [hkey, if_neg Bool.false_ne_true]
    rfl
  have htext : w'.document.textContent n = kit.compiledFor w.heap expression :=
    (h.shows n expression hshown).textContent (h.document.has hn)
      (h.document.isElement hn helement)
  rw [htext, Kit.compiledFor, hvalue]
  refine ⟨rfl, fun hdetect => Template.filled_parse _ ?_⟩
  exact Template.detect_eq_false.mp hdetect

/-- **Compiling a tree against different data.** If the same fields are reactive, both runs come to
the same result, and every node gets the same listeners, each aimed at the data of its run. Every
key gets equally many subscribers if and only if the texts that directives put into the page mention
every key equally often. -/
theorem compile_alike {host : Host κ σ} {depth : Nat} {t : Tree} (kit : Kit κ) (o : ObjectId)
    {w₁ w₂ : World κ σ} (ht₁ : t.Of w₁.document) (ht₂ : t.Of w₂.document) (hnodup : t.ids.Nodup)
    (hdepth : t.height ≤ depth) (hr₁ : w₁.RecordedBy (host.env depth) kit.data)
    (hr₂ : w₂.RecordedBy (host.env depth) o)
    (hcurrent : w₁.current.isSome = w₂.current.isSome)
    (hkeys : ∀ key, w₁.heap.isReactive kit.data key = w₂.heap.isReactive o key) :
    ∃ (result : Except ViewError Unit) (w₁' w₂' : World κ σ)
      (listeners : NodeId → List (String × Listener κ)),
      host.run depth (.request (.compile kit t.id)) w₁ = some (result, w₁') ∧
      host.run depth (.request (.compile { kit with data := o } t.id)) w₂ = some (result, w₂') ∧
      (∀ n, (w₁'.document.node n).listeners = (w₁.document.node n).listeners ++
          (listeners n).map (Prod.map id (Listener.aimedAt kit.data)) ∧
        (w₂'.document.node n).listeners = (w₂.document.node n).listeners ++
          (listeners n).map (Prod.map id (Listener.aimedAt o))) ∧
      ((∀ key, w₁.gained w₁' kit.data key = w₂.gained w₂' o key) ↔
        ∀ key, w₁.heap.isReactive kit.data key = true →
          ((Plan.ofRoot kit.dialect t).mentioned kit w₁.heap).count key =
            ((Plan.ofRoot kit.dialect t).mentioned { kit with data := o } w₂.heap).count key) ∧
      w₁.ShowsKeys w₁' kit (Plan.ofRoot kit.dialect t) ∧
      w₂.ShowsKeys w₂' { kit with data := o } (Plan.ofRoot kit.dialect t) := by
  have henv : (host.env depth).depth = depth := by cases depth <;> rfl
  rw [← henv] at hdepth
  obtain ⟨w₁', hrun₁, hfollows₁⟩ := compile_follows kit hr₁ ht₁ hnodup hdepth
  obtain ⟨w₂', hrun₂, hfollows₂⟩ := compile_follows { kit with data := o } hr₂ ht₂ hnodup hdepth
  refine ⟨_, w₁', w₂', fun n => (Plan.ofRoot kit.dialect t).wires.flatMap
    (Wire.listeners kit n), hrun₁, hrun₂,
    fun n => ⟨hfollows₁.listeners_aimedAt kit.data n, hfollows₂.listeners_aimedAt o n⟩, ?_,
    hfollows₁.showsKeys ht₁, hfollows₂.showsKeys ht₂⟩
  -- what the page itself mentions counts the same in both runs and cancels out
  constructor
  · intro hsame key hreactive
    have h := hsame key
    rw [hfollows₁.gained_eq, hfollows₂.gained_eq, ← hkeys, hreactive, if_pos rfl, if_pos rfl,
      count_subscriptions, count_subscriptions, ← hcurrent] at h
    exact count_readAgain_inj (Nat.add_left_cancel h)
  · intro hsame key
    rw [hfollows₁.gained_eq, hfollows₂.gained_eq, ← hkeys]
    split
    · next hreactive =>
      rw [count_subscriptions, count_subscriptions, ← hcurrent, count_readAgain, count_readAgain]
      have h := hsame key hreactive
      unfold Plan.mentioned at h
      rw [h]
    · rfl

namespace DataAsSource

def host : Host Unit Unit where
  body _ _ := .done (.ok ())
  handles _ := []

/-- Two fields, the second of them meant for nobody. -/
def fields (text : String) : Slots Unit where
  entries :=
    [("k", .reactive { value := .text text, hook := .silent }),
      ("x", .reactive { value := .text "secret", hook := .silent })]

/-- An element that shows the first field. -/
def element : Content := .element "p" { entries := [("v-text", "k")] } ""

def page : Tree := .node ⟨0⟩ (.element "div" ∅ "") 0 [.node ⟨1⟩ element 0 []]

def world (text : String) : World Unit Unit where
  heap := { objects := ⟨#[fields text]⟩ }
  document := ⟨#[{ content := .element "div" ∅ "", children := [⟨1⟩] }, { content := element }]⟩
  user := ()

def pageKit : Kit Unit := { data := ⟨0⟩ }

theorem page_of (text : String) : page.Of (world text).document :=
  ⟨Nat.zero_lt_two, rfl, rfl, ⟨Nat.one_lt_two, rfl, rfl, trivial⟩, trivial⟩

theorem cell?_world (text key : String) : (world text).heap.cell? ⟨0⟩ key =
    if key = "k" then some { value := .text text, hook := .silent }
    else if key = "x" then some { value := .text "secret", hook := .silent } else none := by
  show (if "k" = key then some _ else if "x" = key then some _ else none).bind Slot.cell? = _
  by_cases hk : key = "k"
  · rw [if_pos hk, if_pos hk.symm]
    rfl
  · rw [if_neg hk, if_neg (Ne.symm hk)]
    by_cases hx : key = "x"
    · rw [if_pos hx, if_pos hx.symm]
      rfl
    · rw [if_neg hx, if_neg (Ne.symm hx)]
      rfl

theorem world_recordedBy (text : String) (env : Env Unit Unit) :
    (world text).RecordedBy env ⟨0⟩ := by
  intro key c hc
  rw [cell?_world] at hc
  have hsilent : c.hook = .silent := by
    split at hc
    · rw [← Option.some.inj hc]
    · split at hc
      · rw [← Option.some.inj hc]
      · cases hc
  rw [hsilent]
  exact env.records_silent

theorem isReactive_world (text text' key : String) :
    (world text).heap.isReactive ⟨0⟩ key = (world text').heap.isReactive ⟨0⟩ key := by
  rw [Heap.isReactive, Heap.isReactive, cell?_world, cell?_world]
  split
  · rfl
  · split <;> rfl

end DataAsSource

open DataAsSource in
/-- Texts without markers are no source. -/
theorem compile_alike_plain : ∃ result w₁' w₂',
    host.run 3 (.request (.compile pageKit page.id)) (world "plain") = some (result, w₁') ∧
      host.run 3 (.request (.compile pageKit page.id)) (world "other") = some (result, w₂') ∧
      (∀ key, (world "plain").gained w₁' ⟨0⟩ key = (world "other").gained w₂' ⟨0⟩ key) ∧
      w₁'.document.textContent ⟨1⟩ = "plain" := by
  obtain ⟨result, w₁', w₂', _, hrun₁, hrun₂, _, hgained, hshows, _⟩ :=
    compile_alike pageKit ⟨0⟩ (page_of "plain") (page_of "other") (by decide)
      (show page.height ≤ 3 by decide) (world_recordedBy _ _) (world_recordedBy _ _) rfl
      (isReactive_world "plain" "other")
  refine ⟨result, w₁', w₂', hrun₁, hrun₂, hgained.mpr fun key _ => ?_, ?_⟩
  · have hplain : (Plan.ofRoot .standard page).mentioned pageKit (world "plain").heap = [] := by
      decide +kernel
    have hother : (Plan.ofRoot .standard page).mentioned pageKit (world "other").heap = [] := by
      decide +kernel
    show ((Plan.ofRoot .standard page).mentioned pageKit _).count key =
      ((Plan.ofRoot .standard page).mentioned pageKit _).count key
    rw [hplain, hother]
  · refine (hshows ⟨1⟩ "k" ?_ ?_).2 ?_
    · decide +kernel
    · decide +kernel
    · decide +kernel

open DataAsSource in
/-- A text with a marker is. -/
theorem compile_not_alike : ∃ result w₁' w₂',
    host.run 3 (.request (.compile pageKit page.id)) (world "plain") = some (result, w₁') ∧
      host.run 3 (.request (.compile pageKit page.id)) (world "{{ x }}") =
        some (result, w₂') ∧
      result = .ok () ∧
      (world "plain").gained w₁' ⟨0⟩ "x" = 0 ∧
      (world "{{ x }}").gained w₂' ⟨0⟩ "x" = 1 ∧
      w₂'.document.textContent ⟨1⟩ = "secret" := by
  obtain ⟨w₁', hrun₁, hfollows₁⟩ := compile_follows pageKit
    (world_recordedBy "plain" (host.env 3)) (page_of _) (by decide) (by decide)
  obtain ⟨w₂', hrun₂, hfollows₂⟩ := compile_follows pageKit
    (world_recordedBy "{{ x }}" (host.env 3)) (page_of _) (by decide) (by decide)
  refine ⟨_, w₁', w₂', hrun₁, hrun₂, ?_, ?_, ?_, ?_⟩
  · decide +kernel
  · refine (hfollows₁.gained_eq "x").trans ?_
    decide +kernel
  · refine (hfollows₂.gained_eq "x").trans ?_
    decide +kernel
  · refine (hfollows₂.showsKeys (page_of _) ⟨1⟩ "k" ?_ ?_).1.trans ?_
    · decide +kernel
    · decide +kernel
    · decide +kernel

end DataBinding
