import DataBinding.Proofs.Descent
import DataBinding.Proofs.Mounting
import DataBinding.Proofs.Upkeep

/-!
# Keeping up to date is compiling anew

After any deeds a mounted page looks as if it were compiled now: a copy of its source, compiled
against data with the values that the page's data has by then, comes to the same tree, form values,
texts and numbers of listeners included. The page got there by updates of single bindings, in an
order that the deeds chose, while the copy is made in one go; but both are what is computed from the
source and the texts that the data gives.
-/

namespace DataBinding

variable {κ σ : Type}

/-! ## Sizes of trees -/

namespace Tree

mutual

theorem height_le_length (t : Tree) : t.height ≤ t.ids.length := by
  match t with
  | .node id content listeners children =>
    have := heightOf_le_length children
    simp only [height, ids, List.length_cons]
    omega

theorem heightOf_le_length (ts : List Tree) : heightOf ts ≤ (idsOf ts).length := by
  match ts with
  | [] => exact Nat.le_refl _
  | t :: rest =>
    have := height_le_length t
    have := heightOf_le_length rest
    simp only [heightOf, idsOf, List.length_append]
    omega

end

/-- A tree that has every node once is no higher than its document has nodes. -/
theorem height_le_size {d : Document κ} {t : Tree} (ht : t.Of d) (hnodup : t.ids.Nodup) :
    t.height ≤ d.size :=
  Nat.le_trans t.height_le_length (Document.length_le_size hnodup (Of.has ht))

end Tree

/-! ## Plans of copies -/

/-- A step without the name of its node. -/
def Wire.unnamed : Wire → Wire
  | .bind _ directive expression => .bind ⟨0⟩ directive expression
  | .shown _ expression => .shown ⟨0⟩ expression

namespace Plan

/-- A plan without the names of nodes. -/
def unnamed (p : Plan) : Plan := { p with wires := p.wires.map Wire.unnamed }

theorem unnamed_andThen (p q : Plan) : (p.andThen q).unnamed = p.unnamed.andThen q.unnamed := by
  obtain ⟨wires, result⟩ := p
  cases result with
  | error e => rfl
  | ok u => exact congrArg (Plan.mk · q.result) List.map_append

theorem unnamed_ofAttributes (dialect : Dialect) (n : NodeId)
    (attributes : List (String × String)) :
    (ofAttributes dialect n attributes).unnamed = ofAttributes dialect ⟨0⟩ attributes := by
  induction attributes with
  | nil => rfl
  | cons entry rest ih =>
    unfold ofAttributes
    cases Directive.parse entry.1 dialect with
    | error e => rfl
    | ok found =>
      cases found with
      | none => exact ih
      | some directive =>
        dsimp only
        rw [unnamed_andThen, ih]
        rfl

theorem unnamed_ofContent (dialect : Dialect) (n : NodeId) (content : Content) :
    (ofContent dialect n content).unnamed = ofContent dialect ⟨0⟩ content := by
  cases content with
  | element tag attributes value => exact unnamed_ofAttributes dialect n attributes.entries
  | text s =>
    unfold ofContent
    dsimp only
    split <;> rfl
  | comment s => rfl

mutual

/-- A copy has the same plan, up to the names of nodes. -/
theorem unnamed_ofTree (dialect : Dialect) (t : Tree) :
    (ofTree dialect t).unnamed = ofTree dialect t.unnamed := by
  match t with
  | .node id content listeners children =>
    rw [Tree.unnamed, ofTree, ofTree, unnamed_andThen, unnamed_ofContent]
    cases replacement? dialect content with
    | some expression => rfl
    | none =>
      dsimp only
      rw [unnamed_ofTrees]

theorem unnamed_ofTrees (dialect : Dialect) (ts : List Tree) :
    (ofTrees dialect ts).unnamed = ofTrees dialect (Tree.unnamedAll ts) := by
  match ts with
  | [] => rfl
  | t :: rest =>
    rw [Tree.unnamedAll, ofTrees, ofTrees, unnamed_andThen, unnamed_ofTree, unnamed_ofTrees]

end

theorem unnamed_ofRoot (dialect : Dialect) (t : Tree) :
    (ofRoot dialect t).unnamed = ofRoot dialect t.unnamed := by
  obtain ⟨id, content, listeners, children⟩ := t
  exact unnamed_ofTrees dialect children

/-- Names have no part in whether a text from data is taken for source. -/
theorem Plain.of_unnamed {p q : Plan} {kit kit' : Kit κ} {h h' : Heap κ} (hplain : p.Plain kit h)
    (hplans : q.unnamed = p.unnamed) (hdialect : kit'.dialect = kit.dialect)
    (htexts : kit'.texts h' = kit.texts h) : q.Plain kit' h' := by
  intro n e hmem
  have hmem' : Wire.shown ⟨0⟩ e ∈ q.unnamed.wires := List.mem_map.mpr ⟨_, hmem, rfl⟩
  rw [hplans] at hmem'
  obtain ⟨wire, hwire, heq⟩ := List.mem_map.mp hmem'
  cases wire with
  | bind m directive e' => cases heq
  | shown m e' =>
    obtain rfl : e' = e := (Wire.shown.inj heq).2
    rw [hdialect, show kit'.textFor h' e' = kit.textFor h e' from
      congrArg (fun t => t.text e') htexts]
    exact hplain m e' hwire

end Plan

/-! ## What is seen of a page -/

namespace Page

variable {page : Page κ} {d : Document κ} {size : Nat}

/-- What a page looks like with certain texts. Its root is as it was. -/
def painted (page : Page κ) (texts : Texts) : Tree :=
  .node ⟨0⟩ page.tree.content page.tree.listeners
    (Tree.paintedAll page.kit.dialect texts page.tree.children)

theorem Shown.unnamed_tree {texts : Texts} (h : page.Shown d size fun _ => texts)
    (hsilent : d.SilentFrom size) (hheight : page.tree.height ≤ d.size) :
    (d.tree page.tree.id).unnamed = page.painted texts := by
  obtain ⟨kit, ⟨id, content, listeners, children⟩⟩ := page
  obtain ⟨_, hcontent, hlisteners, hchildren, hbelow⟩ := h
  rw [Tree.height] at hheight
  obtain ⟨k, hk⟩ : ∃ k, d.size = k + 1 := ⟨d.size - 1, by omega⟩
  have hdepth : Tree.heightOf children ≤ k := by omega
  unfold Document.tree painted
  rw [hk, Document.treeWithin, Tree.unnamed, hcontent, hlisteners, hchildren]
  exact congrArg _ (Tree.unnamedAll_treeWithin hsilent hbelow hdepth)

/-- What bindings do not show is of no account. -/
theorem Shown.retext {texts texts' : NodeId → Texts} (h : page.Shown d size texts)
    (hok : page.plan.result = .ok ())
    (htexts : ∀ n directive e, page.Binds n directive e →
      (texts' n).get directive e = (texts n).get directive e) : page.Shown d size texts' :=
  ⟨h.has, h.content, h.listeners, h.children, h.below.retext hok
    (fun n e hbind => htexts n .model e hbind) fun n e hbind => htexts n .text e hbind⟩

/-- Copies of a page look the same with the same texts. -/
theorem painted_of_unnamed {page' : Page κ} (hcopy : page'.tree.unnamed = page.tree.unnamed)
    (hdialect : page'.kit.dialect = page.kit.dialect) (texts : Texts) :
    page'.painted texts = page.painted texts := by
  obtain ⟨kit, ⟨id, content, listeners, children⟩⟩ := page
  obtain ⟨kit', ⟨id', content', listeners', children'⟩⟩ := page'
  obtain ⟨_, hcontent, hlisteners, hchildren⟩ := Tree.node.inj hcopy
  have hbelow : Tree.paintedAll kit'.dialect texts children' =
      Tree.paintedAll kit.dialect texts children := by
    rw [← Tree.paintedAll_unnamedAll, hchildren, Tree.paintedAll_unnamedAll, hdialect]
  show Tree.node ⟨0⟩ content' listeners' (Tree.paintedAll kit'.dialect texts children') = _
  rw [hcontent, hlisteners, hbelow]
  rfl

end Page

/-- What compiling a page comes to. -/
theorem compile_painted {env : Env κ σ} {w : World κ σ} {page : Page κ}
    (hr : w.RecordedBy env page.kit.data) (ht : page.tree.Of w.document)
    (hlisten : page.tree.ListensIn w.document) (hnodup : page.tree.ids.Nodup)
    (hdepth : page.tree.height ≤ env.depth) (hplain : page.plan.Plain page.kit w.heap)
    (hok : page.plan.result = .ok ()) : ∃ w',
    compile env page.kit page.tree.id w = some (.ok (), w') ∧
      (w'.document.tree page.tree.id).unnamed = page.painted (page.kit.texts w.heap) := by
  obtain ⟨user, hrun⟩ := compile_eq page.kit hr ht hnodup hdepth hplain
  have hok' : (Plan.ofRoot page.kit.dialect page.tree).result = .ok () := hok
  rw [hok'] at hrun
  refine ⟨_, hrun, ?_⟩
  show ((w.following page.kit page.plan.wires).document.tree page.tree.id).unnamed = _
  rw [World.document_following]
  have hearly : ∀ n ∈ page.tree.ids, n.index < w.document.size := fun n hn => ht.has n hn
  have hsilent : w.document.SilentFrom w.document.size := by
    intro m hm
    rw [Document.node, Table.find?_eq_none_iff.mpr hm]
    rfl
  have hshown := page.shown_foldl w.heap (Nat.le_refl _) ht hlisten hnodup hearly hok
  refine hshown.unnamed_tree (silentFrom_foldl (Nat.le_refl _) hsilent fun wire hwire =>
    hearly _ (Page.node_mem_ids hwire)) ?_
  exact Nat.le_trans (Tree.height_le_size ht hnodup) (foldl_mark_extends _ _ _ _).size

/-! ## Deeds and compiling anew -/

/-- There are no watchers yet, and nobody is collecting. -/
structure World.Unwatched (w : World κ σ) : Prop where
  current : w.current = none
  watchers : ∀ i, w.watcher? i = none
  subscribers : ∀ o key, w.heap.subscribers o key = []

/-- Without watchers there is nothing to be kept up to date. -/
theorem World.Unwatched.displays {w : World κ σ} (h : w.Unwatched) {o : ObjectId}
    (hflat : ∀ key, (w.heap.peek o key).isScalar = true) :
    w.Displays [] o w.document.size unexcused := by
  have hnobody : ∀ {i x} {P : Prop}, w.watcher? i = some x → P := by
    intro i x P hx
    rw [h.watchers] at hx
    cases hx
  have hnowhere : ∀ {page : Page κ} {P : Prop}, page ∈ [] → P := fun hpage => by cases hpage
  refine ⟨⟨h.current, Nat.le_refl _, fun m hm => ?_, hflat, .of_bound ?_ fun o key => ?_, hnobody,
    fun _ => hnowhere, fun _ => hnowhere⟩, hnobody, fun _ => ⟨fun _ => "", fun _ => ""⟩,
    fun _ => hnowhere, fun _ => hnowhere⟩
  · rw [Document.node, Table.find?_eq_none_iff.mpr hm]
    rfl
  · intro o key i hi
    rw [h.subscribers] at hi
    cases hi
  · rw [h.subscribers]
    exact List.nodup_nil

theorem Staged.nil (o : ObjectId) (size : Nat) : Staged (κ := κ) [] o size := by
  constructor <;> exact fun _ h => by cases h

/-- Pages that are mounted where nobody watches yet are up to date. -/
theorem displays_of_mounted {host : Host κ σ} {o : ObjectId} {depth : Nat} {w w' : World κ σ}
    {mountings : List (Mounting κ)} {apps : List (Except ViewError (App κ))}
    (hpassive : host.Passive) (hnew : w.Unwatched)
    (hflat : ∀ key, (w.heap.peek o key).isScalar = true)
    (hready : ∀ m ∈ mountings, m.page.Ready w o)
    (hdisjoint : mountings.Pairwise fun m m' => ∀ n ∈ m.page.tree.ids, n ∉ m'.page.tree.ids)
    (hmount : host.run depth
      (.holding [.object o] (.requestAll (mountings.map Mounting.request))) w = some (apps, w'))
    (hsucceeds : ∀ pair ∈ mountings.zip apps, pair.1.Succeeds pair.2) :
    Staged (mountings.map Mounting.page) o w.document.size ∧
      w'.Displays (mountings.map Mounting.page) o w.document.size unexcused := by
  -- the trees are no higher than the document has nodes, so this much depth is enough
  obtain ⟨w₁, hrun, rfl⟩ := Run.holding_eq_some.mp
    (Host.run_of_le (Nat.le_add_right depth (w.document.size + 1)) hmount)
  have hstart : World.Displays { w with held := [.object o] ++ w.held } [] o w.document.size
      unexcused := (hnew.displays hflat).of_same rfl rfl rfl rfl
  have hready' : ∀ m ∈ mountings,
      m.page.Ready { w with held := [.object o] ++ w.held } o := fun m hm => by
    obtain ⟨hdata, htree, hlistens, hnodup, hkeys, hplain, honce⟩ := hready m hm
    exact ⟨hdata, htree, hlistens, hnodup, hkeys, hplain, honce⟩
  have hdepth : ∀ m ∈ mountings,
      m.page.tree.height ≤ (host.env (depth + w.document.size + 1)).depth := by
    intro m hm
    have := Tree.height_le_size (hready m hm).tree (hready m hm).nodup
    show m.page.tree.height ≤ depth + w.document.size + 1
    omega
  obtain ⟨hs, h, _⟩ := Mounting.requestAll_displays (hpassive.records _) (Staged.nil o _) hstart
    hready' (fun m hm n hn => (hready m hm).tree.has n hn) (fun page hpage => by cases hpage)
    hdisjoint hdepth hsucceeds hrun
  exact ⟨hs, h.of_same rfl rfl rfl rfl⟩

/-- **Keeping pages up to date is compiling them anew.** Pages of one object are mounted, and then
properties are set to scalars, texts are entered at models and events are dispatched to code that
sets fields to scalars. After that, a page looks as computed from its source and the values that
the data has by now. Compiling a copy of the source, against data that has the same values,
succeeds and comes to the tree that the page has. -/
theorem recompiled_eq {host : Host κ σ} {o p : ObjectId} {depth depth' depth'' : Nat}
    {w₀ w₁ w₂ v : World κ σ} {mountings : List (Mounting κ)} {m : Mounting κ} {copy : Tree}
    {apps : List (Except ViewError (App κ))} {deeds : List (Deed κ)}
    {answers : List (Except ViewError Unit)} (hpassive : host.Passive) (hnew : w₀.Unwatched)
    (hflat : ∀ key, (w₀.heap.peek o key).isScalar = true)
    (hready : ∀ m ∈ mountings, m.page.Ready w₀ o)
    (hdisjoint : mountings.Pairwise fun m m' => ∀ n ∈ m.page.tree.ids, n ∉ m'.page.tree.ids)
    (hmount : host.run depth
      (.holding [.object o] (.requestAll (mountings.map Mounting.request))) w₀ = some (apps, w₁))
    (hsucceeds : ∀ pair ∈ mountings.zip apps, pair.1.Succeeds pair.2)
    (hdeeds : host.run depth'
      (.holding [.object o] (.requestAll (deeds.map Deed.request))) w₁ = some (answers, w₂))
    (hobeys : host.Obeys .assigning depth'
      (.holding [.object o] (.requestAll (deeds.map Deed.request))) w₁)
    (hsuits : ∀ pair ∈ deeds.zip answers, pair.1.Suits (mountings.map Mounting.page) pair.2)
    (hplain : ∀ m ∈ mountings, m.page.plan.Plain m.page.kit w₂.heap) (hm : m ∈ mountings)
    (hcopy : copy.unnamed = m.page.tree.unnamed) (htree : copy.Of v.document)
    (hlistens : copy.ListensIn v.document) (hnodup : copy.ids.Nodup)
    (hdata : ∀ key, v.heap.peek p key = w₂.heap.peek o key) (hdepth : copy.height ≤ depth'') :
    (w₂.document.tree m.page.tree.id).unnamed = m.page.painted (m.page.kit.texts w₂.heap) ∧
    ∃ v', host.run depth'' (.request (.compile { m.page.kit with data := p } copy.id)) v =
        some (.ok (), v') ∧
      (v'.document.tree copy.id).unnamed = (w₂.document.tree m.page.tree.id).unnamed := by
  obtain ⟨hs, h₁⟩ := displays_of_mounted hpassive hnew hflat hready hdisjoint hmount hsucceeds
  -- deeds keep up to date what was mounted
  rw [Host.run_eq_runUnder hobeys] at hdeeds
  obtain ⟨w₃, hrun, rfl⟩ := Run.holding_eq_some.mp hdeeds
  have h₂ : World.Displays { w₁ with held := [.object o] ++ w₁.held }
      (mountings.map Mounting.page) o w₀.document.size unexcused := h₁.of_same rfl rfl rfl rfl
  obtain ⟨h₃, _⟩ := Deed.requestAll_displays host hs h₂ List.mem_cons_self hsuits hrun
  have hpage : m.page ∈ mountings.map Mounting.page := List.mem_map_of_mem hm
  have hok := hs.ok m.page hpage
  -- so the page is as computed from its source and the texts that the data gives by now
  obtain ⟨texts, hshown, hcurrent⟩ := h₃.upToDate
  have hnow : m.page.Shown w₃.document w₀.document.size fun _ => m.page.kit.texts w₃.heap :=
    (hshown m.page hpage).retext hok fun n directive e hbind =>
      (hcurrent m.page hpage n directive e hbind).symm
  have hheight := Tree.height_le_size (hready m hm).tree (hready m hm).nodup
  have hpainted := hnow.unnamed_tree h₃.silent (Nat.le_trans hheight h₃.grown)
  -- and what is computed does not depend on names
  let page : Page κ := { kit := { m.page.kit with data := p }, tree := copy }
  have htexts : page.kit.texts v.heap = m.page.kit.texts w₃.heap := by
    refine Kit.texts_congr rfl fun key => ?_
    show v.heap.text (v.heap.peek p key) = _
    rw [hdata, (hready m hm).data]
    exact Heap.text_of_isScalar _ _ (h₃.flat key)
  have hplans : page.plan.unnamed = m.page.plan.unnamed := by
    show (Plan.ofRoot m.page.kit.dialect copy).unnamed = _
    rw [Plan.unnamed_ofRoot, hcopy, ← Plan.unnamed_ofRoot]
    rfl
  have hok' : page.plan.result = .ok () := (congrArg Plan.result hplans).trans hok
  have hplain' : page.plan.Plain page.kit v.heap := (hplain m hm).of_unnamed hplans rfl htexts
  obtain ⟨k, rfl⟩ : ∃ k, depth'' = k + 1 := by
    obtain ⟨id, content, listeners, children⟩ := copy
    rw [Tree.height] at hdepth
    exact ⟨depth'' - 1, by omega⟩
  have hrecorded : v.RecordedBy (host.env (k + 1)) p := fun key c _ => hpassive.records k c.hook
  obtain ⟨v', hcompile, hseen⟩ := compile_painted hrecorded htree hlistens hnodup
    hdepth hplain' hok'
  have hcopy' : page.tree.unnamed = m.page.tree.unnamed := hcopy
  refine ⟨hpainted, v', hcompile, hseen.trans ?_⟩
  rw [htexts, Page.painted_of_unnamed hcopy' rfl]
  exact hpainted.symm

namespace Diary

/-- The code `false` looks at the title whenever it is told of an access. The code `true` marks an
entry as read. -/
def host : Host Bool Unit where
  body
    | false, _ => .andThen (.ask (.peek ⟨0⟩ "title")) fun _ => .done (.ok ())
    | true, .called o _ =>
      .andThen (.request (.write o "read" (.bool true))) fun _ => .done (.ok ())
    | true, _ => .done (.ok ())
  handles _ := []

theorem host_passive : host.Passive := by
  intro code occasion ho
  cases code with
  | false => exact ⟨trivial, fun _ => trivial⟩
  | true =>
    cases occasion with
    | called o event => cases ho
    | _ => trivial

def control : Content := .element "input" { entries := [("v-model", "title")] } ""

def heading : Content := .element "h1" { entries := [("v-text", " title ")] } ""

def button : Content := .element "button" { entries := [("@click", "finish")] } ""

/-- A control, a heading, a text with two markers and a button. -/
def entry : Tree :=
  .node ⟨0⟩ (.element "div" ∅ "") 0
    [.node ⟨1⟩ control 0 [], .node ⟨2⟩ heading 0 [],
      .node ⟨3⟩ (.text "{{ title }}: {{ read }}") 0 [], .node ⟨4⟩ button 0 []]

/-- A text in a page of its own. -/
def footer : Tree := .node ⟨5⟩ (.element "p" ∅ "") 0 [.node ⟨6⟩ (.text "{{ title }}") 0 []]

def fields : Slots Bool where
  entries := [("title", .plain (.text "one")), ("read", .plain (.bool false))]

/-- The two pages and the data. -/
def world : World Bool Unit where
  heap := { objects := ⟨#[fields]⟩ }
  document := ⟨#[{ content := .element "div" ∅ "", children := [⟨1⟩, ⟨2⟩, ⟨3⟩, ⟨4⟩] },
    { content := control }, { content := heading }, { content := .text "{{ title }}: {{ read }}" },
    { content := button }, { content := .element "p" ∅ "", children := [⟨6⟩] },
    { content := .text "{{ title }}" }]⟩
  user := ()

def entryKit : Kit Bool := { data := ⟨0⟩, methods := { entries := [("finish", true)] } }

def footerKit : Kit Bool := { data := ⟨0⟩ }

def mountings : List (Mounting Bool) :=
  [⟨.node ⟨0⟩, .custom false, ⟨entryKit, entry⟩⟩, ⟨.node ⟨5⟩, .silent, ⟨footerKit, footer⟩⟩]

/-- A title is set, another one is entered, and the button is clicked. -/
def deeds : List (Deed Bool) :=
  [.set { root := ⟨0⟩, data := ⟨0⟩, keys := ["title", "read"], methods := ∅ } "title" (.text "two"),
    .input ⟨1⟩ "three", .dispatch ⟨4⟩ { name := "click" }]

def held : World Bool Unit := { world with held := [.object ⟨0⟩] }

/-- Both pages have been mounted. -/
def mounted : World Bool Unit := (held.mounted (.custom false) entryKit entry).mounted .silent
  footerKit footer

theorem wires_entry : (⟨entryKit, entry⟩ : Page Bool).plan.wires =
    [.bind ⟨1⟩ .model "title", .bind ⟨2⟩ .text " title ", .shown ⟨2⟩ " title ",
      .bind ⟨3⟩ .text "{{ title }}: {{ read }}", .bind ⟨4⟩ (.on "click") "finish"] := by
  decide +kernel

theorem wires_footer : (⟨footerKit, footer⟩ : Page Bool).plan.wires =
    [.bind ⟨6⟩ .text "{{ title }}"] := by
  decide +kernel

theorem keys_watched {page : Page Bool} (hall : (page.plan.wires.flatMap
    (Wire.watches page.kit)).all (fun watch => fields.contains watch.1) = true)
    (n : NodeId) (directive : Directive) (e : String) (hbind : page.Binds n directive e)
    (watch : String × Reaction Bool) (hwatch : watch ∈ directive.watches page.kit n e) :
    (world.heap.slots ⟨0⟩).contains watch.1 = true :=
  List.all_eq_true.mp hall watch (mem_flatMap_watches.mpr ⟨n, directive, e, hbind, hwatch⟩)

theorem plain_entry {h : Heap Bool}
    (hplain : Template.detect (entryKit.textFor h " title ") entryKit.dialect = false) :
    (⟨entryKit, entry⟩ : Page Bool).plan.Plain entryKit h := by
  intro n e hmem
  rw [wires_entry] at hmem
  simp only [List.mem_cons, reduceCtorEq, Wire.shown.injEq, List.not_mem_nil, or_false,
    false_or] at hmem
  obtain ⟨_, rfl⟩ := hmem
  exact hplain

theorem plain_footer (h : Heap Bool) :
    (⟨footerKit, footer⟩ : Page Bool).plan.Plain footerKit h := by
  intro n e hmem
  rw [wires_footer] at hmem
  cases List.mem_singleton.mp hmem

theorem ready_entry : (⟨entryKit, entry⟩ : Page Bool).Ready world ⟨0⟩ where
  data := rfl
  tree := ⟨by decide, rfl, rfl, ⟨by decide, rfl, rfl, trivial⟩, ⟨by decide, rfl, rfl, trivial⟩,
    ⟨by decide, rfl, rfl, trivial⟩, ⟨by decide, rfl, rfl, trivial⟩, trivial⟩
  listens := ⟨rfl, ⟨rfl, trivial⟩, ⟨rfl, trivial⟩, ⟨rfl, trivial⟩, ⟨rfl, trivial⟩, trivial⟩
  nodup := by decide
  keys := keys_watched (by decide +kernel)
  plain := plain_entry (by decide +kernel)
  once := by
    intro n directive e e' hkind h h'
    unfold Page.Binds at h h'
    rw [wires_entry] at h h'
    simp only [List.mem_cons, reduceCtorEq, Wire.bind.injEq, List.not_mem_nil, or_false,
      false_or] at h h'
    grind

theorem ready_footer : (⟨footerKit, footer⟩ : Page Bool).Ready world ⟨0⟩ where
  data := rfl
  tree := ⟨by decide, rfl, rfl, ⟨by decide, rfl, rfl, trivial⟩, trivial⟩
  listens := ⟨rfl, ⟨rfl, trivial⟩, trivial⟩
  nodup := by decide
  keys := keys_watched (by decide +kernel)
  plain := plain_footer _
  once := by
    intro n directive e e' hkind h h'
    unfold Page.Binds at h h'
    rw [wires_footer] at h h'
    simp only [List.mem_singleton, Wire.bind.injEq] at h h'
    exact h.2.2.trans h'.2.2.symm

theorem find?_fields (key : String) : fields.find? key =
    if "title" = key then some (.plain (.text "one"))
    else if "read" = key then some (.plain (.bool false)) else none :=
  rfl

theorem world_unwatched : world.Unwatched := by
  have hplain : ∀ o key, world.heap.cell? o key = none := by
    intro o key
    obtain ⟨_ | i⟩ := o
    · show (fields.find? key).bind Slot.cell? = none
      rw [find?_fields]
      split
      · rfl
      · split <;> rfl
    · rfl
  refine ⟨rfl, fun i => rfl, fun o key => ?_⟩
  unfold Heap.subscribers
  rw [hplain]
  rfl

theorem world_flat (key : String) : (world.heap.peek ⟨0⟩ key).isScalar = true := by
  show (((fields.find? key).map Slot.value).getD .null).isScalar = true
  rw [find?_fields]
  split
  · rfl
  · split <;> rfl

/-- Mounting succeeds if the plan has no error. -/
theorem mount_ok {w : World Bool Unit} (hook : Hook Bool) {kit : Kit Bool} {t : Tree}
    (ht : t.Of w.document) (hnodup : t.ids.Nodup) (hdepth : t.height ≤ 3)
    (hplain : (Plan.ofRoot kit.dialect t).Plain kit (w.heap.intercept hook [.object kit.data]))
    (hok : (Plan.ofRoot kit.dialect t).result = .ok ()) : ∃ app, app.root = t.id ∧
      mount (host.env 3) (.node t.id) hook kit w = some (.ok app, w.mounted hook kit t) := by
  have hplace : (Mount.node t.id).resolve w.document = .ok t.id := rfl
  have hrecords : ∀ hook, (host.env 3).Records hook := host_passive.records 2
  obtain ⟨_, hmount⟩ := mount_eq hook hrecords hplace ht hnodup hdepth hplain
  rw [hok] at hmount
  exact ⟨_, rfl, hmount⟩

theorem run_mountings : ∃ apps,
    host.run 3 (.holding [.object ⟨0⟩] (.requestAll (mountings.map Mounting.request))) world =
        some (apps, { mounted with held := [] }) ∧
      ∀ pair ∈ mountings.zip apps, pair.1.Succeeds pair.2 := by
  obtain ⟨app, hroot, hentry⟩ := mount_ok (w := held) (.custom false) ready_entry.tree
    ready_entry.nodup (by decide) (plain_entry (by decide +kernel)) (by decide +kernel)
  obtain ⟨app', hroot', hfooter⟩ := mount_ok (w := held.mounted (.custom false) entryKit entry)
    (t := footer) .silent ⟨by decide +kernel, by decide +kernel, by decide +kernel,
      ⟨by decide +kernel, by decide +kernel, by decide +kernel, trivial⟩, trivial⟩
    ready_footer.nodup (by decide) (plain_footer _) (by decide +kernel)
  refine ⟨[.ok app, .ok app'], Run.holding_eq_some.mpr ⟨mounted, ?_, rfl⟩, ?_⟩
  · refine Run.bind_eq_some.mpr ⟨.ok app, _, hentry, ?_⟩
    refine Run.bind_eq_some.mpr ⟨[.ok app'], mounted, ?_, rfl⟩
    exact Run.bind_eq_some.mpr ⟨.ok app', mounted, hfooter, rfl⟩
  · intro pair hpair
    simp only [mountings, List.zip_cons_cons, List.zip_nil_left, List.mem_cons,
      List.not_mem_nil, or_false] at hpair
    rcases hpair with rfl | rfl
    · exact ⟨app, rfl, hroot⟩
    · exact ⟨app', rfl, hroot'⟩

/-- What runs from outside once both pages are there. -/
def outside : Program Bool Unit (List (Except ViewError Unit)) :=
  .holding [.object ⟨0⟩] (.requestAll (deeds.map Deed.request))

theorem outside_obeys : host.Obeys .assigning 3 outside { mounted with held := [] } := by
  unfold Host.Obeys
  decide +kernel

/-- All deeds succeed, and the title is then no template. -/
theorem run_outside : ∃ w,
    host.run 3 outside { mounted with held := [] } = some ([.ok (), .ok (), .ok ()], w) ∧
      Template.detect (entryKit.textFor w.heap " title ") entryKit.dialect = false := by
  have hrun : ((host.run 3 outside { mounted with held := [] }).map fun r =>
      (r.1, Template.detect (entryKit.textFor r.2.heap " title ") entryKit.dialect)) =
      some ([.ok (), .ok (), .ok ()], false) := by
    decide +kernel
  obtain ⟨⟨answers, w⟩, hw, hpair⟩ := Option.map_eq_some_iff.mp hrun
  obtain ⟨rfl, hplain⟩ := Prod.mk.inj hpair
  exact ⟨w, hw, hplain⟩

/-- The data as it is by now, in new fields. -/
def renewed (h : Heap Bool) : Slots Bool :=
  (h.slots ⟨0⟩).mapValues fun _ s => .reactive { value := s.value, hook := .silent }

theorem peek_renewed (h : Heap Bool) (key : String) :
    (h.alloc (renewed h)).2.peek (h.alloc (renewed h)).1 key = h.peek ⟨0⟩ key := by
  rw [Heap.peek_alloc, if_pos rfl, renewed, OrderedMap.find?_mapValues, Option.map_map]
  rfl

end Diary

open Diary in
/-- The entry of the diary looks like one that is compiled anew in the first document. -/
theorem recompiled_eq_diary : ∃ w,
    host.run 3 outside { mounted with held := [] } = some ([.ok (), .ok (), .ok ()], w) ∧
      (w.document.tree entry.id).unnamed =
        Page.painted ⟨entryKit, entry⟩ (entryKit.texts w.heap) ∧
      ∃ v, host.run 3 (.request (.compile
          { entryKit with data := (w.heap.alloc (renewed w.heap)).1 } entry.id))
          { world with heap := (w.heap.alloc (renewed w.heap)).2 } = some (.ok (), v) ∧
        (v.document.tree entry.id).unnamed = (w.document.tree entry.id).unnamed := by
  obtain ⟨apps, hmount, hsucceeds⟩ := run_mountings
  obtain ⟨w, hw, hplain⟩ := run_outside
  have hready : ∀ m ∈ mountings, m.page.Ready world ⟨0⟩ := by
    intro m hm
    rcases List.mem_cons.mp hm with rfl | hm
    · exact ready_entry
    · obtain rfl := List.mem_singleton.mp hm
      exact ready_footer
  have hbinds : (⟨entryKit, entry⟩ : Page Bool).Binds ⟨1⟩ .model "title" := by
    unfold Page.Binds
    rw [wires_entry]
    exact List.mem_cons_self
  have hsuits : ∀ pair ∈ deeds.zip [.ok (), .ok (), .ok ()],
      pair.1.Suits (mountings.map Mounting.page) pair.2 := by
    intro pair hpair
    simp only [deeds, List.zip_cons_cons, List.zip_nil_right, List.mem_cons, List.not_mem_nil,
      or_false] at hpair
    rcases hpair with rfl | rfl | rfl
    · rfl
    · exact ⟨⟨_, List.mem_cons_self, "title", hbinds⟩, rfl⟩
    · trivial
  have hplain' : ∀ m ∈ mountings, m.page.plan.Plain m.page.kit w.heap := by
    intro m hm
    rcases List.mem_cons.mp hm with rfl | hm
    · exact plain_entry hplain
    · obtain rfl := List.mem_singleton.mp hm
      exact plain_footer w.heap
  refine ⟨w, hw, ?_⟩
  exact recompiled_eq (v := { world with heap := (w.heap.alloc (renewed w.heap)).2 }) host_passive
    world_unwatched world_flat hready (by decide) hmount hsucceeds hw outside_obeys hsuits hplain'
    List.mem_cons_self rfl ready_entry.tree ready_entry.listens ready_entry.nodup
    (peek_renewed w.heap) (by decide)

end DataBinding
