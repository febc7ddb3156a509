import DataBinding.Proofs.Display
import DataBinding.Proofs.Marking

/-!
# Mounting pages one after the other

A page that is mounted is shown from then on: its watchers are there, subscribed to fields that are
reactive by now, the listeners of its models are there, and its nodes are as computed. The pages
that were mounted before are not touched, and neither are the nodes of those that are still to be
mounted.
-/

namespace DataBinding

open World

variable {κ σ : Type} {env : Env κ σ} {kit : Kit κ} {w w' : World κ σ}

/-! ## Steps when nobody is collecting -/

/-- The watchers that a step builds. -/
def Wire.watches (kit : Kit κ) : Wire → List (String × Reaction κ)
  | .bind n directive expression => directive.watches kit n expression
  | .shown _ _ => []

/-- Steps build their watchers and mark the document. -/
theorem World.following_of_current_eq_none (hcur : w.current = none) (wires : List Wire) :
    w.following kit wires =
      { w.watchingAll kit.data (wires.flatMap (Wire.watches kit)) with
        document := wires.foldl (Wire.mark kit w.heap) w.document } := by
  rw [← World.document_following]
  induction wires generalizing w with
  | nil => rfl
  | cons wire rest ih =>
    have hwire : wire.effect kit w = { w.watchingAll kit.data (wire.watches kit) with
        document := wire.mark kit w.heap w.document } := by
      cases wire with
      | shown n expression => rfl
      | bind n directive expression =>
        show directive.effect kit n expression w = _
        unfold Directive.effect
        rw [Directive.wired_of_current_eq_none hcur]
        rfl
    have hcur' : (wire.effect kit w).current = none := by
      rw [hwire]
      exact (current_watchingAll _ _ _).trans hcur
    refine (ih hcur').trans ?_
    show _ = { w.watchingAll kit.data (wire.watches kit ++ rest.flatMap (Wire.watches kit)) with
      document := ((wire.effect kit w).following kit rest).document }
    rw [← watchingAll_append, hwire, watchingAll_document]

/-! ## What steps leave in the document -/

section Marks

variable {h : Heap κ} {d : Document κ} {size : Nat}

/-- Steps at early nodes leave late ones without listeners. -/
theorem silentFrom_foldl {wires : List Wire} (hsize : size ≤ d.size) (hd : d.SilentFrom size)
    (hearly : ∀ wire ∈ wires, wire.node.index < size) :
    (wires.foldl (Wire.mark kit h) d).SilentFrom size := by
  induction wires generalizing d with
  | nil => exact hd
  | cons wire rest ih =>
    have hextends := wire.mark_extends kit h d
    refine ih (Nat.le_trans hsize hextends.size) ?_ fun wire' hwire' =>
      hearly wire' (List.mem_cons_of_mem _ hwire')
    have hnode := hearly wire List.mem_cons_self
    cases wire with
    | shown n expression => exact hd
    | bind n directive expression =>
      have hnode : n.index < size := hnode
      intro m hm
      have hne : ¬ n = m := by
        rintro rfl
        omega
      have hhas : d.has n := Nat.lt_of_lt_of_le hnode hsize
      refine ((directive.mark_frame kit h expression hhas).2.2 m).trans ?_
      rw [if_neg hne, List.append_nil]
      exact hd m hm

/-- A model listens for what is entered. -/
theorem heard_foldl (kit : Kit κ) (h : Heap κ) {wires : List Wire} {n : NodeId} {e : String}
    (hn : d.has n) (hbind : .bind n .model e ∈ wires) :
    .writeBack kit.data (Text.trim e) ∈
      (wires.foldl (Wire.mark kit h) d).listenersFor n "input" := by
  induction wires generalizing d with
  | nil => cases hbind
  | cons wire rest ih =>
    have hextends := wire.mark_extends kit h d
    rcases List.mem_cons.mp hbind with rfl | hbind
    · refine (foldl_mark_extends kit h rest _).listeners ?_
      have hlisteners := (Directive.mark_frame kit h e .model hn).2.2 n
      rw [if_pos rfl] at hlisteners
      show _ ∈ Document.listenersFor (Directive.mark kit h n e d .model) n "input"
      unfold Document.listenersFor
      rw [hlisteners]
      simp [Directive.listeners]
    · exact ih (hextends.has hn) hbind

end Marks

/-- Kits of one dialect show the same texts if their data has the same texts. -/
theorem Kit.texts_congr {kit kit' : Kit κ} {h h' : Heap κ} (hdialect : kit'.dialect = kit.dialect)
    (htext : ∀ key, h'.text (h'.peek kit'.data key) = h.text (h.peek kit.data key)) :
    kit'.texts h' = kit.texts h := by
  unfold Kit.texts
  congr 1
  · funext e
    exact htext (Text.trim e)
  · funext e
    unfold Kit.textFor
    dsimp only
    rw [hdialect, htext]
    split
    · exact Template.filled_congr fun key _ => htext key
    · rfl

/-! ## Observing -/

theorem isReactive_observed (hook : Hook κ) (h : Heap κ) {o : ObjectId} {key : String}
    (hkey : (h.slots o).contains key = true) :
    (h.intercept hook [.object o]).isReactive o key = true := by
  obtain ⟨s, hs⟩ := Option.isSome_iff_exists.mp hkey
  have hslot := Heap.slot?_intercept_object hook h o [] key
  rw [show h.slot? o key = some s from hs] at hslot
  unfold Heap.isReactive Heap.cell?
  rw [hslot]
  cases s <;> rfl

theorem contains_of_isReactive {h : Heap κ} {o : ObjectId} {key : String}
    (hreactive : h.isReactive o key = true) : (h.slots o).contains key = true := by
  obtain ⟨c, hc⟩ := Option.isSome_iff_exists.mp hreactive
  obtain ⟨s, hs, _⟩ := Option.bind_eq_some_iff.mp hc
  exact Option.isSome_iff_exists.mpr ⟨s, hs⟩

variable {pages : List (Page κ)} {o : ObjectId} {size : Nat} {excused : NodeId → String → Prop}

/-- Observing changes no value, and so nothing that is shown. -/
theorem observed_displays (hs : Staged pages o size) (h : w.Displays pages o size excused)
    (hook : Hook κ) (values : List Value) :
    World.Displays (w.mapHeap fun h => h.intercept hook values) pages o size excused := by
  have hpeek := Heap.peek_intercept hook w.heap values
  have hstages : World.Stages (w.mapHeap fun h => h.intercept hook values) pages o size := by
    refine h.toStages.of_heap rfl rfl rfl (Heap.subscribers_intercept hook w.heap values) ?_
    intro key
    show ((w.heap.intercept hook values).peek o key).isScalar = true
    rw [hpeek]
    exact h.flat key
  exact h.of_change hs hstages rfl rfl fun _ => .inl (hpeek _ _)

/-! ## One more page -/

namespace Page

/-- A page that can be mounted. Its tree is in the document and has every node once; every key that
it watches is there, no text from data is taken for source, and no node has two models or two
texts. -/
structure Ready (page : Page κ) (w : World κ σ) (o : ObjectId) : Prop where
  data : page.kit.data = o
  tree : page.tree.Of w.document
  listens : page.tree.ListensIn w.document
  nodup : page.tree.ids.Nodup
  keys : ∀ n directive e, page.Binds n directive e → ∀ watch ∈ directive.watches page.kit n e,
    (w.heap.slots o).contains watch.1 = true
  plain : page.plan.Plain page.kit w.heap
  once : ∀ n directive e e', directive = .model ∨ directive = .text →
    page.Binds n directive e → page.Binds n directive e' → e = e'

/-- The steps of a page are made below its root. -/
theorem node_mem_ids {page : Page κ} {wire : Wire} (h : wire ∈ page.plan.wires) :
    wire.node ∈ page.tree.ids := by
  rw [page.ids_tree]
  exact List.mem_cons_of_mem _ (Plan.node_mem_idsOf h)

/-- When its steps have been made, a page is shown. -/
theorem shown_foldl (page : Page κ) (h : Heap κ) {d : Document κ} (hsize : size ≤ d.size)
    (htree : page.tree.Of d) (hlisten : page.tree.ListensIn d) (hnodup : page.tree.ids.Nodup)
    (hearly : ∀ n ∈ page.tree.ids, n.index < size) (hok : page.plan.result = .ok ()) :
    page.Shown (page.plan.wires.foldl (Wire.mark page.kit h) d) size fun _ => page.kit.texts h := by
  obtain ⟨kit, ⟨id, content, listeners, children⟩⟩ := page
  obtain ⟨hhas, hcontent, hchildren, hall⟩ := htree
  obtain ⟨hlisteners, hlisten⟩ := hlisten
  obtain ⟨hnot, hnodup⟩ := List.nodup_cons.mp hnodup
  -- no step is made at the root
  have hroot : ((Plan.ofTrees kit.dialect children).wires.foldl (Wire.mark kit h) d).node id =
      d.node id :=
    node_foldl_mark_of_ne hhas fun wire hwire heq => hnot (heq ▸ Plan.node_mem_idsOf hwire)
  refine ⟨(foldl_mark_extends kit h _ d).has hhas, (congrArg Node.content hroot).trans hcontent, ?_,
    (congrArg Node.children hroot).trans hchildren, ?_⟩
  · show (((Plan.ofTrees kit.dialect children).wires.foldl (Wire.mark kit h) d).node
      id).listeners.length = _
    rw [hroot]
    exact hlisteners
  · exact Tree.allShow_foldl hsize hall hlisten hnodup
      (fun n hn => hearly n (List.mem_cons_of_mem _ hn)) hok

end Page

theorem Staged.append (hs : Staged pages o size) {page : Page κ} (hready : page.Ready w o)
    (hearly : ∀ n ∈ page.tree.ids, n.index < size)
    (hapart : ∀ page' ∈ pages, ∀ n ∈ page'.tree.ids, n ∉ page.tree.ids)
    (hok : page.plan.result = .ok ()) : Staged (pages ++ [page]) o size := by
  have hall : ∀ {P : Page κ → Prop}, (∀ page' ∈ pages, P page') → P page →
      ∀ page' ∈ pages ++ [page], P page' := fun hold hnew =>
    List.forall_mem_append.mpr ⟨hold, List.forall_mem_singleton.mpr hnew⟩
  refine ⟨hall hs.data hready.data, hall hs.nodup hready.nodup, hall hs.early hearly,
    hall hs.ok hok, ?_, hall hs.once hready.once⟩
  refine hall (fun first hfirst => hall (hs.apart first hfirst) fun n hn hn' => ?_)
    (hall (fun second hsecond n hn hn' => ?_) fun _ _ _ => rfl)
  · exact absurd hn' (hapart first hfirst n hn)
  · exact absurd hn (hapart second hsecond n hn')

theorem mem_flatMap_watches {page : Page κ} {watch : String × Reaction κ} :
    watch ∈ page.plan.wires.flatMap (Wire.watches page.kit) ↔
      ∃ n directive e, page.Binds n directive e ∧ watch ∈ directive.watches page.kit n e := by
  constructor
  · intro hwatch
    obtain ⟨wire, hwire, hwatch⟩ := List.mem_flatMap.mp hwatch
    cases wire with
    | bind n directive e => exact ⟨n, directive, e, hwire, hwatch⟩
    | shown n e => cases hwatch
  · rintro ⟨n, directive, e, hbind, hwatch⟩
    exact List.mem_flatMap.mpr ⟨_, hbind, hwatch⟩

/-- The steps of one more page put its watchers and listeners where they belong. -/
theorem following_stages {page : Page κ} (h : w.Stages pages o size) (hdata : page.kit.data = o)
    (hearly : ∀ n ∈ page.tree.ids, n.index < size)
    (hreactive : ∀ n directive e, page.Binds n directive e →
      ∀ watch ∈ directive.watches page.kit n e, w.heap.isReactive o watch.1 = true) :
    (w.following page.kit page.plan.wires).Stages (pages ++ [page]) o size := by
  rw [World.following_of_current_eq_none h.current, hdata]
  let watches := page.plan.wires.flatMap (Wire.watches page.kit)
  have hextends := foldl_mark_extends page.kit w.heap page.plan.wires w.document
  have henrolls := (builds_watchingAll o w watches).enrolls
  have hold : ∀ {page'}, page' ∈ pages → page' ∈ pages ++ [page] := List.mem_append_left _
  have hnew : page ∈ pages ++ [page] := List.mem_append_right _ List.mem_cons_self
  refine ⟨(current_watchingAll w o watches).trans h.current, Nat.le_trans h.grown hextends.size,
    silentFrom_foldl h.grown h.silent fun wire hwire => hearly _ (Page.node_mem_ids hwire),
    fun key => ?_, (h.exact.watchingAll o watches).of_watchers rfl fun _ _ => rfl, ?_, ?_, ?_⟩
  · show ((w.watchingAll o watches).heap.peek o key).isScalar = true
    rw [peek_watchingAll]
    exact h.flat key
  · -- a watcher is an old one, whose list has only grown, or one of the new page
    intro i x hx
    rcases of_watcher?_watchingAll hx with hx | ⟨hlate, hwatch, hdata, _⟩
    · obtain ⟨hdata, hmem, page', hpage', hrest⟩ := h.source hx
      obtain ⟨late, hlate, _⟩ := henrolls.added o x.key
      refine ⟨hdata, ?_, page', hold hpage', hrest⟩
      show i ∈ (w.watchingAll o watches).heap.subscribers o x.key
      rw [hlate]
      exact List.mem_append_left _ hmem
    · obtain ⟨n, directive, e, hbind, hwatch⟩ := mem_flatMap_watches.mp hwatch
      refine ⟨hdata, ?_, page, hnew, n, directive, e, hbind, hwatch⟩
      have hmem := henrolls.enrolled hx hlate
      rw [hdata] at hmem
      exact hmem (hreactive n directive e hbind _ hwatch)
  · intro page' hpage' n directive e hbind watch hwatch
    rcases List.mem_append.mp hpage' with hpage' | hpage'
    · obtain ⟨i, x, hx, heq⟩ := h.complete page' hpage' n directive e hbind watch hwatch
      exact ⟨i, x, watcher?_watchingAll_of_some hx watches, heq⟩
    · obtain rfl := List.mem_singleton.mp hpage'
      exact exists_watcher?_watchingAll o w
        (mem_flatMap_watches.mpr ⟨n, directive, e, hbind, hwatch⟩)
  · intro page' hpage' n e hbind
    rcases List.mem_append.mp hpage' with hpage' | hpage'
    · exact hextends.listeners (h.heard page' hpage' n e hbind)
    · obtain rfl := List.mem_singleton.mp hpage'
      have hn : w.document.has n := Nat.lt_of_lt_of_le (hearly n hbind.mem_ids) h.grown
      have hheard := heard_foldl page'.kit w.heap hn hbind
      rw [hdata] at hheard
      exact hheard

/-- Once its steps have been made, one more page is up to date. -/
theorem following_displays {page : Page κ} (h : w.Displays pages o size unexcused)
    (hready : page.Ready w o) (hearly : ∀ n ∈ page.tree.ids, n.index < size)
    (hapart : ∀ page' ∈ pages, ∀ n ∈ page'.tree.ids, n ∉ page.tree.ids)
    (hreactive : ∀ n directive e, page.Binds n directive e →
      ∀ watch ∈ directive.watches page.kit n e, w.heap.isReactive o watch.1 = true)
    (hok : page.plan.result = .ok ()) :
    (w.following page.kit page.plan.wires).Displays (pages ++ [page]) o size unexcused := by
  have hstages := following_stages h.toStages hready.data hearly hreactive
  obtain ⟨texts, hshown, hcurrent⟩ := h.upToDate
  -- the nodes of the page have the texts of its data, and all others those that they had
  let texts' := fun n => if n ∈ page.tree.ids then page.kit.texts w.heap else texts n
  have hold : ∀ page' ∈ pages, ∀ n ∈ page'.tree.ids, texts' n = texts n :=
    fun page' hpage' n hn => if_neg (hapart page' hpage' n hn)
  have hnew : ∀ n ∈ page.tree.ids, texts' n = page.kit.texts w.heap := fun n hn => if_pos hn
  have hkept : ∀ m, w.document.has m → m ∉ page.tree.ids →
      (page.plan.wires.foldl (Wire.mark page.kit w.heap) w.document).node m =
        w.document.node m :=
    fun m hm hnot => node_foldl_mark_of_ne hm fun wire hwire heq =>
      hnot (heq ▸ Page.node_mem_ids hwire)
  have hsame : ∀ kit : Kit κ, kit.texts (w.following page.kit page.plan.wires).heap =
      kit.texts w.heap := by
    intro kit
    obtain ⟨hpeek, htext⟩ := w.agrees_following page.kit page.plan.wires
    refine Kit.texts_congr rfl fun key => ?_
    rw [hpeek, htext]
  refine ⟨hstages, fun {i x} hx => .inl ?_, texts', fun page' hpage' => ?_, ?_⟩
  · rw [World.following_of_current_eq_none h.current] at hx ⊢
    show x.last = (w.watchingAll page.kit.data _).heap.peek x.data x.key
    rw [peek_watchingAll]
    rcases of_watcher?_watchingAll hx with hx | ⟨_, _, hdata, hlast⟩
    · exact (h.seen hx).resolve_right List.not_mem_nil
    · rw [hdata]
      exact hlast
  · rw [World.document_following]
    rcases List.mem_append.mp hpage' with hpage' | hpage'
    · refine (hshown page' hpage').of_nodes (foldl_mark_extends _ _ _ _) (fun m hm hlate => ?_)
        (fun n hn hhas => hkept n hhas (hapart page' hpage' n hn)) (hold page' hpage')
      refine hkept m hm fun hmem => ?_
      have := hearly m hmem
      omega
    · obtain rfl := List.mem_singleton.mp hpage'
      have hfirst := page'.shown_foldl w.heap h.grown hready.tree hready.listens hready.nodup hearly
        hok
      exact hfirst.of_nodes (.refl _) (fun _ _ _ => rfl) (fun _ _ _ => rfl) hnew
  · intro page' hpage' n directive e hbind
    rw [hsame]
    rcases List.mem_append.mp hpage' with hpage' | hpage'
    · rw [hold page' hpage' n hbind.mem_ids]
      exact .inl (hcurrent page' hpage' n directive e hbind)
    · obtain rfl := List.mem_singleton.mp hpage'
      rw [hnew n hbind.mem_ids]
      exact .inl rfl

/-- One page has been mounted, and nothing has happened to others. -/
structure World.Unmoved (page : Page κ) (o : ObjectId) (w w' : World κ σ) : Prop where
  document : w.document.Extends w'.document
  node : ∀ n, w.document.has n → n ∉ page.tree.ids → w'.document.node n = w.document.node n
  peek : ∀ key, w'.heap.peek o key = w.heap.peek o key
  keys : ∀ key, (w.heap.slots o).contains key = true → (w'.heap.slots o).contains key = true
  held : w'.held = w.held

theorem Plan.Plain.of_texts {p : Plan} {h h' : Heap κ} (hplain : p.Plain kit h)
    (htexts : kit.texts h' = kit.texts h) : p.Plain kit h' := by
  intro n e hmem
  rw [show kit.textFor h' e = kit.textFor h e from congrArg (fun t => t.text e) htexts]
  exact hplain n e hmem

/-- Values that have not changed show the same texts. -/
theorem Kit.texts_of_peek {h h' : Heap κ} (hflat : ∀ key, (h.peek kit.data key).isScalar = true)
    (hpeek : ∀ key, h'.peek kit.data key = h.peek kit.data key) :
    kit.texts h' = kit.texts h := by
  refine Kit.texts_congr rfl fun key => ?_
  rw [hpeek]
  exact Heap.text_of_isScalar _ _ (hflat key)

/-- A page that is still to be mounted can be mounted when others have been. -/
theorem Page.Ready.of_unmoved {page page' : Page κ} (hready : page'.Ready w o)
    (hmoved : w.Unmoved page o w') (hapart : ∀ n ∈ page.tree.ids, n ∉ page'.tree.ids)
    (hflat : ∀ key, (w.heap.peek o key).isScalar = true) : page'.Ready w' o := by
  obtain ⟨rfl, htree, hlistens, hnodup, hkeys, hplain, honce⟩ := hready
  have hnodes : ∀ n ∈ page'.tree.ids, w'.document.node n = w.document.node n := fun n hn =>
    hmoved.node n (Tree.Of.has htree n hn) fun hmem => hapart n hmem hn
  exact ⟨rfl, htree.of_node_eq hmoved.document hnodes, hlistens.of_node_eq hnodes, hnodup,
    fun n directive e hbind watch hwatch =>
      hmoved.keys _ (hkeys n directive e hbind watch hwatch),
    hplain.of_texts (Kit.texts_of_peek hflat hmoved.peek), honce⟩

/-- An app is mounted where its place is, on the data of its kit. -/
theorem mount_root {place : Mount} {hook : Hook κ} {app : App κ}
    (hm : mount env place hook kit w = some (.ok app, w')) :
    place.resolve w.document = .ok app.root ∧ app.data = kit.data := by
  obtain ⟨_, _, hget, hm⟩ := Run.bind_eq_some.mp hm
  obtain ⟨rfl, rfl⟩ := Run.get_eq_some.mp hget
  cases hresolve : place.resolve w.document with
  | error err =>
    rw [hresolve] at hm
    cases (Run.pure_eq_some.mp hm).1
  | ok root =>
    rw [hresolve] at hm
    obtain ⟨_, w₁, _, hm⟩ := Run.bind_eq_some.mp hm
    obtain ⟨result, w₂, _, hm⟩ := Run.bind_eq_some.mp hm
    cases result with
    | error err => cases (Run.pure_eq_some.mp hm).1
    | ok u =>
      obtain ⟨_, _, hget, hm⟩ := Run.bind_eq_some.mp hm
      obtain ⟨rfl, rfl⟩ := Run.get_eq_some.mp hget
      rw [← Except.ok.inj (Run.pure_eq_some.mp hm).1]
      exact ⟨rfl, rfl⟩

/-- The data has been observed, and the plan of a page has been followed. -/
def World.mounted (w : World κ σ) (hook : Hook κ) (kit : Kit κ) (t : Tree) : World κ σ :=
  (w.mapHeap fun h => h.intercept hook [.object kit.data]).following kit
    (Plan.ofRoot kit.dialect t).wires

/-- Mounting comes down to observing the data and following the plan. -/
theorem mount_eq {place : Mount} (hook : Hook κ) {t : Tree} (hr : ∀ hook, env.Records hook)
    (hplace : place.resolve w.document = .ok t.id) (ht : t.Of w.document) (hnodup : t.ids.Nodup)
    (hdepth : t.height ≤ env.depth)
    (hplain : (Plan.ofRoot kit.dialect t).Plain kit (w.heap.intercept hook [.object kit.data])) :
    ∃ user, mount env place hook kit w =
      some ((Plan.ofRoot kit.dialect t).result.map fun _ =>
          { root := t.id, data := kit.data, methods := kit.methods
            keys := ((w.mounted hook kit t).heap.slots kit.data).keys },
        { w.mounted hook kit t with user }) := by
  let w₁ : World κ σ := w.mapHeap fun h => h.intercept hook [.object kit.data]
  have hrecorded : w₁.RecordedBy env kit.data := fun key c _ => hr c.hook
  obtain ⟨user, hcompile⟩ := compile_eq kit hrecorded (t := t) ht hnodup hdepth hplain
  refine ⟨user, ?_⟩
  refine Run.bind_eq_some.mpr ⟨w, w, Run.get_eq_some.mpr ⟨rfl, rfl⟩, ?_⟩
  rw [hplace]
  refine Run.bind_eq_some.mpr ⟨(), w₁, Run.modify_eq_some.mpr rfl, ?_⟩
  refine Run.bind_eq_some.mpr ⟨_, _, hcompile, ?_⟩
  cases (Plan.ofRoot kit.dialect t).result with
  | error err => exact Run.pure_eq_some.mpr ⟨rfl, rfl⟩
  | ok u =>
    refine Run.bind_eq_some.mpr ⟨_, _, Run.get_eq_some.mpr ⟨rfl, rfl⟩, ?_⟩
    exact Run.pure_eq_some.mpr ⟨rfl, rfl⟩

/-- Mounting a page makes fields reactive, and changes nothing but its nodes. -/
theorem mounted_unmoved (page : Page κ) (hook : Hook κ) (hcur : w.current = none) :
    w.Unmoved page page.kit.data (w.mounted hook page.kit page.tree) := by
  let w₁ : World κ σ := w.mapHeap fun h => h.intercept hook [.object page.kit.data]
  have hdocument : (w.mounted hook page.kit page.tree).document =
      page.plan.wires.foldl (Wire.mark page.kit w₁.heap) w.document :=
    w₁.document_following page.kit page.plan.wires
  have hpeek : ∀ key, w₁.heap.peek page.kit.data key = w.heap.peek page.kit.data key :=
    Heap.peek_intercept hook w.heap _ page.kit.data
  have hreactive : ∀ key, (w₁.following page.kit page.plan.wires).heap.isReactive
      page.kit.data key = w₁.heap.isReactive page.kit.data key := by
    rw [World.following_of_current_eq_none (w := w₁) hcur]
    exact (builds_watchingAll page.kit.data w₁ _).reactive page.kit.data
  refine ⟨?_, fun n hn hnot => ?_, fun key => ?_, fun key hkey => ?_,
    w₁.held_following page.kit page.plan.wires⟩
  · rw [hdocument]
    exact foldl_mark_extends _ _ _ _
  · rw [hdocument]
    exact node_foldl_mark_of_ne hn fun wire hwire heq => hnot (heq ▸ Page.node_mem_ids hwire)
  · exact ((w₁.agrees_following page.kit page.plan.wires).1 _ key).trans (hpeek key)
  · refine contains_of_isReactive ((hreactive key).trans ?_)
    exact isReactive_observed hook w.heap hkey

/-- **Mounting one more page** leaves it up to date, with those that were there before. -/
theorem mount_displays (hr : ∀ hook, env.Records hook) {place : Mount} {hook : Hook κ}
    {page : Page κ} {app : App κ} (hs : Staged pages o size)
    (h : w.Displays pages o size unexcused) (hready : page.Ready w o)
    (hearly : ∀ n ∈ page.tree.ids, n.index < size)
    (hapart : ∀ page' ∈ pages, ∀ n ∈ page'.tree.ids, n ∉ page.tree.ids)
    (hdepth : page.tree.height ≤ env.depth) (hroot : app.root = page.tree.id)
    (hm : mount env place hook page.kit w = some (.ok app, w')) :
    Staged (pages ++ [page]) o size ∧ w'.Displays (pages ++ [page]) o size unexcused ∧
      w.Unmoved page o w' := by
  have hplace : place.resolve w.document = .ok page.tree.id := by
    rw [← hroot]
    exact (mount_root hm).1
  obtain rfl := hready.data
  let w₁ : World κ σ := w.mapHeap fun h => h.intercept hook [.object page.kit.data]
  -- observing changes no value, so pages and plan are what they were
  have hpeek : ∀ p key, w₁.heap.peek p key = w.heap.peek p key := Heap.peek_intercept hook _ _
  have hobserved : ∀ key, (w.heap.slots page.kit.data).contains key = true →
      w₁.heap.isReactive page.kit.data key = true := fun key => isReactive_observed hook w.heap
  have h₁ : w₁.Displays pages page.kit.data size unexcused := observed_displays hs h hook _
  have hplain₁ : page.plan.Plain page.kit w₁.heap :=
    hready.plain.of_texts (Kit.texts_of_peek h.flat (hpeek _))
  have hready₁ : page.Ready w₁ page.kit.data :=
    ⟨rfl, hready.tree, hready.listens, hready.nodup, fun n directive e hbind watch hwatch =>
      contains_of_isReactive (hobserved _ (hready.keys n directive e hbind watch hwatch)), hplain₁,
      hready.once⟩
  obtain ⟨user, hrun⟩ := mount_eq hook hr hplace hready.tree hready.nodup hdepth hplain₁
  obtain ⟨hanswer, rfl⟩ := Prod.mk.inj (Option.some.inj (hm.symm.trans hrun))
  have hok : page.plan.result = .ok () := by
    show (Plan.ofRoot page.kit.dialect page.tree).result = .ok ()
    cases hresult : (Plan.ofRoot page.kit.dialect page.tree).result with
    | error err =>
      rw [hresult] at hanswer
      cases hanswer
    | ok u => rfl
  refine ⟨hs.append hready hearly hapart hok, ?_, ?_⟩
  · have hdone := following_displays h₁ hready₁ hearly hapart
      (fun n directive e hbind watch hwatch =>
        hobserved _ (hready.keys n directive e hbind watch hwatch)) hok
    exact hdone.of_same rfl rfl rfl rfl
  · obtain ⟨hdocument, hnode, hkept, hkeys, hheld⟩ := mounted_unmoved page hook h.current
    exact ⟨hdocument, hnode, hkept, hkeys, hheld⟩

/-! ## Mounting one after the other -/

/-- A page with the place where it is mounted and the hook that observes its data. -/
structure Mounting (κ : Type) where
  place : Mount
  hook : Hook κ
  page : Page κ

namespace Mounting

def request (m : Mounting κ) : Request κ (Except ViewError (App κ)) :=
  .mount m.place m.hook m.page.kit

/-- Whether the page has been mounted, on the root of its tree. -/
def Succeeds (m : Mounting κ) (answer : Except ViewError (App κ)) : Prop :=
  ∃ app, answer = .ok app ∧ app.root = m.page.tree.id

/-- **Pages that have been mounted one after the other** are up to date. The induction is on those
that are still to be mounted. -/
theorem requestAll_displays (hr : ∀ hook, env.Records hook) {mountings : List (Mounting κ)}
    {answers : List (Except ViewError (App κ))} (hs : Staged pages o size)
    (h : w.Displays pages o size unexcused) (hready : ∀ m ∈ mountings, m.page.Ready w o)
    (hearly : ∀ m ∈ mountings, ∀ n ∈ m.page.tree.ids, n.index < size)
    (hapart : ∀ page ∈ pages, ∀ m ∈ mountings, ∀ n ∈ page.tree.ids, n ∉ m.page.tree.ids)
    (hdisjoint : mountings.Pairwise fun m m' => ∀ n ∈ m.page.tree.ids, n ∉ m'.page.tree.ids)
    (hdepth : ∀ m ∈ mountings, m.page.tree.height ≤ env.depth)
    (hsucceeds : ∀ pair ∈ mountings.zip answers, pair.1.Succeeds pair.2)
    (hrun : (Program.requestAll (mountings.map request)).exec env w = some (answers, w')) :
    Staged (pages ++ mountings.map Mounting.page) o size ∧
      w'.Displays (pages ++ mountings.map Mounting.page) o size unexcused ∧ w'.held = w.held := by
  induction mountings generalizing w pages answers with
  | nil =>
    obtain ⟨_, rfl⟩ := Run.pure_eq_some.mp hrun
    rw [List.map_nil, List.append_nil]
    exact ⟨hs, h, rfl⟩
  | cons m rest ih =>
    obtain ⟨answer, w₁, hfirst, hrun⟩ := Run.bind_eq_some.mp hrun
    obtain ⟨later, w₂, hrest, hrun⟩ := Run.bind_eq_some.mp hrun
    obtain ⟨rfl, rfl⟩ := Run.pure_eq_some.mp hrun
    obtain ⟨hfar, hdisjoint⟩ := List.pairwise_cons.mp hdisjoint
    have hlater : ∀ {m'}, m' ∈ rest → m' ∈ m :: rest := List.mem_cons_of_mem _
    obtain ⟨app, rfl, hroot⟩ := hsucceeds (m, answer) List.mem_cons_self
    obtain ⟨hs₁, h₁, hmoved⟩ := mount_displays hr hs h (hready m List.mem_cons_self)
      (hearly m List.mem_cons_self) (fun page hpage => hapart page hpage m List.mem_cons_self)
      (hdepth m List.mem_cons_self) hroot hfirst
    -- mounting moves nothing of the pages that are still to come
    have hready₁ : ∀ m' ∈ rest, m'.page.Ready w₁ o := fun m' hm' =>
      (hready m' (hlater hm')).of_unmoved hmoved (hfar m' hm') h.flat
    have hapart₁ : ∀ page ∈ pages ++ [m.page], ∀ m' ∈ rest,
        ∀ n ∈ page.tree.ids, n ∉ m'.page.tree.ids := by
      intro page hpage m' hm'
      rcases List.mem_append.mp hpage with hpage | hpage
      · exact hapart page hpage m' (hlater hm')
      · rw [List.mem_singleton.mp hpage]
        exact hfar m' hm'
    obtain ⟨hs', h', hheld⟩ := ih hs₁ h₁ hready₁ (fun m' hm' => hearly m' (hlater hm')) hapart₁
      hdisjoint (fun m' hm' => hdepth m' (hlater hm'))
      (fun pair hpair => hsucceeds pair (List.mem_cons_of_mem _ hpair)) hrest
    rw [List.append_assoc] at hs' h'
    exact ⟨hs', h', hheld.trans hmoved.held⟩

end Mounting

end DataBinding
