import DataBinding.Proofs.Enrolling
import DataBinding.Proofs.Portraits
import DataBinding.Proofs.Scalars

/-!
# Pages that are kept up to date

Several pages show one data object. Each of their bindings has watchers that are subscribed to its
keys, no two bindings share a form value or a text, and so a watcher that reacts brings the one
binding that it belongs to up to date and touches no other. A write leaves bindings behind only if
it changes one of their keys, and then a watcher of each is among those that are updated. So when a
write is over, every binding is up to date again.
-/

namespace DataBinding

variable {κ σ : Type}

/-! ## What directives show -/

/-- Where a reaction shows something, and by which directive. -/
def Reaction.aim : Reaction κ → Option (NodeId × Directive)
  | .setValue n => some (n, .model)
  | .setText n => some (n, .text)
  | .render n _ => some (n, .text)
  | .custom _ => none

namespace Directive

variable {kit : Kit κ} {n : NodeId} {e : String} {directive : Directive} {key : String}
  {reaction : Reaction κ}

theorem aim_of_mem_watches (h : (key, reaction) ∈ directive.watches kit n e) :
    reaction.aim = some (n, directive) := by
  cases directive with
  | model =>
    obtain ⟨rfl, rfl⟩ := Prod.mk.inj (List.mem_singleton.mp h)
    rfl
  | text =>
    unfold watches at h
    dsimp only at h
    split at h
    · obtain ⟨k, _, heq⟩ := List.mem_map.mp h
      obtain ⟨rfl, rfl⟩ := Prod.mk.inj heq
      rfl
    · obtain ⟨rfl, rfl⟩ := Prod.mk.inj (List.mem_singleton.mp h)
      rfl
  | on event => cases h

theorem kind_of_mem_watches (h : (key, reaction) ∈ directive.watches kit n e) :
    directive = .model ∨ directive = .text := by
  cases directive with
  | model => exact .inl rfl
  | text => exact .inr rfl
  | on event => cases h

/-- A watcher of a binding shows what its directive shows. -/
theorem shown_of_mem_watches {x : Watcher κ}
    (hx : (x.key, x.reaction) ∈ directive.watches kit n e) (hdata : x.data = kit.data)
    (h : Heap κ) (d : Document κ) :
    x.shown h (h.peek x.data x.key) d = d.put n ((kit.texts h).get directive e) directive := by
  obtain ⟨xkey, data, last, xreaction⟩ := x
  obtain rfl : data = kit.data := hdata
  cases directive with
  | model =>
    obtain ⟨rfl, rfl⟩ := Prod.mk.inj (List.mem_singleton.mp hx)
    rfl
  | text =>
    unfold watches at hx
    dsimp only at hx
    split at hx
    · next hmarkers =>
      obtain ⟨k, _, heq⟩ := List.mem_map.mp hx
      obtain ⟨rfl, rfl⟩ := Prod.mk.inj heq
      show d.setText n _ = d.setText n (kit.textFor h e)
      rw [Kit.textFor, if_pos hmarkers]
    · next hmarkers =>
      obtain ⟨rfl, rfl⟩ := Prod.mk.inj (List.mem_singleton.mp hx)
      show d.setText n _ = d.setText n (kit.textFor h e)
      rw [Kit.textFor, if_neg hmarkers]
  | on event => cases hx

/-- What a directive shows depends on the keys that it watches. -/
theorem get_congr {h h' : Heap κ}
    (hpeek : ∀ watch ∈ directive.watches kit n e,
      h'.text (h'.peek kit.data watch.1) = h.text (h.peek kit.data watch.1)) :
    (kit.texts h').get directive e = (kit.texts h).get directive e := by
  cases directive with
  | model => exact hpeek (Text.trim e, .setValue n) List.mem_cons_self
  | text =>
    show kit.textFor h' e = kit.textFor h e
    unfold watches at hpeek
    unfold Kit.textFor
    dsimp only at hpeek ⊢
    split at hpeek
    · next hmarkers =>
      rw [if_pos hmarkers, if_pos hmarkers]
      exact Template.filled_congr fun k hk =>
        hpeek (k, .render n (Template.parse e kit.dialect)) (List.mem_map_of_mem hk)
    · next hmarkers =>
      rw [if_neg hmarkers, if_neg hmarkers]
      exact hpeek (Text.trim e, .setText n) List.mem_cons_self
  | on event => rfl

end Directive

/-! ## Pages -/

/-- A page with what it is compiled with. -/
structure Page (κ : Type) where
  kit : Kit κ
  tree : Tree

namespace Page

/-- The plan for compiling a page. -/
def plan (page : Page κ) : Plan := Plan.ofRoot page.kit.dialect page.tree

/-- Whether a page asks for a binding. -/
def Binds (page : Page κ) (n : NodeId) (directive : Directive) (e : String) : Prop :=
  .bind n directive e ∈ page.plan.wires

/-- Whether a document shows a page. The root is there as it was. -/
structure Shown (page : Page κ) (d : Document κ) (size : Nat) (texts : NodeId → Texts) :
    Prop where
  has : d.has page.tree.id
  content : d.content page.tree.id = page.tree.content
  listeners : (d.node page.tree.id).listeners.length = page.tree.listeners
  children : d.children page.tree.id = page.tree.children.map Tree.id
  below : Tree.AllShow d page.kit.dialect size texts page.tree.children

/-- The nodes that a page binds are below its root. -/
theorem Binds.mem {page : Page κ} {n : NodeId} {directive : Directive} {e : String}
    (h : page.Binds n directive e) : n ∈ Tree.idsOf page.tree.children :=
  Plan.node_mem_idsOf h

theorem ids_tree (page : Page κ) :
    page.tree.ids = page.tree.id :: Tree.idsOf page.tree.children := by
  obtain ⟨kit, ⟨id, content, listeners, children⟩⟩ := page
  rfl

theorem Binds.mem_ids {page : Page κ} {n : NodeId} {directive : Directive} {e : String}
    (h : page.Binds n directive e) : n ∈ page.tree.ids := by
  rw [page.ids_tree]
  exact List.mem_cons_of_mem _ h.mem

end Page

/-- Pages of one data object, all without errors, that have no nodes in common. No node has two
models or two texts. -/
structure Staged (pages : List (Page κ)) (o : ObjectId) (size : Nat) : Prop where
  data : ∀ page ∈ pages, page.kit.data = o
  nodup : ∀ page ∈ pages, page.tree.ids.Nodup
  early : ∀ page ∈ pages, ∀ n ∈ page.tree.ids, n.index < size
  ok : ∀ page ∈ pages, page.plan.result = .ok ()
  apart : ∀ page ∈ pages, ∀ page' ∈ pages, ∀ n ∈ page.tree.ids, n ∈ page'.tree.ids → page = page'
  once : ∀ page ∈ pages, ∀ n directive e e', directive = .model ∨ directive = .text →
    page.Binds n directive e → page.Binds n directive e' → e = e'

theorem rewrites_put {dialect : Dialect} {size : Nat} {d : Document κ} {texts : NodeId → Texts}
    {n : NodeId} {directive : Directive} (hkind : directive = .model ∨ directive = .text)
    (hn : n.index < size) (hsize : size ≤ d.size) (text : String) :
    Tree.Rewrites d (d.put n text directive) dialect size texts (retexted texts n text directive) n
      directive := by
  rcases hkind with rfl | rfl
  · exact rewrites_setValue hn text
  · exact rewrites_setText hn hsize text

theorem get_retexted {texts : NodeId → Texts} {n : NodeId} {text : String} {directive : Directive}
    (hkind : directive = .model ∨ directive = .text) (e : String) :
    (retexted texts n text directive n).get directive e = text := by
  unfold retexted
  rw [if_pos rfl]
  exact Texts.get_set hkind e

theorem get_retexted_of_ne {texts : NodeId → Texts} {n m : NodeId} {text : String}
    {directive directive' : Directive} (hne : ¬ (m = n ∧ directive' = directive)) (e : String) :
    (retexted texts n text directive m).get directive' e = (texts m).get directive' e := by
  unfold retexted
  split
  · next hm => exact Texts.get_set_of_ne _ text (fun h => hne ⟨hm, h⟩) e
  · rfl

section Pages

variable {pages : List (Page κ)} {o : ObjectId} {size : Nat} {d d' : Document κ}
  {texts texts' : NodeId → Texts}

/-- A page that has nothing to do with a change is shown as before. -/
theorem Page.Shown.of_nodes {page : Page κ} (h : page.Shown d size texts) (hd : d.Extends d')
    (hlate : ∀ m, d.has m → size ≤ m.index → d'.node m = d.node m)
    (hnodes : ∀ n ∈ page.tree.ids, d.has n → d'.node n = d.node n)
    (htexts : ∀ n ∈ page.tree.ids, texts' n = texts n) : page.Shown d' size texts' := by
  rw [page.ids_tree] at hnodes htexts
  have hroot := hnodes page.tree.id List.mem_cons_self h.has
  refine ⟨hd.has h.has, (congrArg Node.content hroot).trans h.content, ?_,
    (congrArg Node.children hroot).trans h.children, ?_⟩
  · rw [hroot]
    exact h.listeners
  · exact h.below.of_nodes hd hlate (fun n hn => hnodes n (List.mem_cons_of_mem _ hn))
      fun n hn => htexts n (List.mem_cons_of_mem _ hn)

/-- A new text at a node that a page binds is shown by that page, and all other pages are shown as
before. -/
theorem Staged.put (hs : Staged pages o size) (hsize : size ≤ d.size)
    (h : ∀ page ∈ pages, page.Shown d size texts) {page : Page κ} (hpage : page ∈ pages)
    {n : NodeId} {directive : Directive} {e : String} (hbind : page.Binds n directive e)
    (hkind : directive = .model ∨ directive = .text) (text : String) :
    ∀ page' ∈ pages,
      page'.Shown (d.put n text directive) size (retexted texts n text directive) := by
  have hn : n ∈ page.tree.ids := hbind.mem_ids
  have hrewrites : ∀ dialect, Tree.Rewrites d (d.put n text directive) dialect size texts
      (retexted texts n text directive) n directive := fun dialect =>
    rewrites_put hkind (hs.early page hpage n hn) hsize text
  intro page' hpage'
  by_cases hmem : n ∈ page'.tree.ids
  · -- the page itself
    obtain rfl := hs.apart page hpage page' hpage' n hn hmem
    have hnodup := hs.nodup page hpage
    rw [page.ids_tree] at hnodup
    obtain ⟨hnot, hnodup⟩ := List.nodup_cons.mp hnodup
    have hshown := h page hpage
    have hne : page.tree.id ≠ n := by
      rintro rfl
      exact hnot hbind.mem
    have hroot := (hrewrites page.kit.dialect).other page.tree.id hne hshown.has
    refine ⟨(hrewrites page.kit.dialect).document.has hshown.has,
      (congrArg Node.content hroot).trans hshown.content, ?_,
      (congrArg Node.children hroot).trans hshown.children, ?_⟩
    · rw [hroot]
      exact hshown.listeners
    · exact (hrewrites page.kit.dialect).allShow hshown.below hnodup (hs.ok page hpage) hbind
  · have hne : ∀ m ∈ page'.tree.ids, m ≠ n := fun m hm heq => hmem (heq ▸ hm)
    exact (h page' hpage').of_nodes (hrewrites page.kit.dialect).document
      (hrewrites page.kit.dialect).late
      (fun m hm hhas => (hrewrites page.kit.dialect).other m (hne m hm) hhas)
      fun m hm => (hrewrites page.kit.dialect).same m (hne m hm)

end Pages

/-! ## Worlds that show pages -/

/-- The watchers and listeners that pages need are there, and no other watchers. -/
structure World.Stages (w : World κ σ) (pages : List (Page κ)) (o : ObjectId) (size : Nat) :
    Prop where
  current : w.current = none
  grown : size ≤ w.document.size
  silent : w.document.SilentFrom size
  flat : ∀ key, (w.heap.peek o key).isScalar = true
  exact : w.Exact
  source : ∀ {i x}, w.watcher? i = some x → x.data = o ∧ i ∈ w.heap.subscribers o x.key ∧
    ∃ page ∈ pages, ∃ n directive e, page.Binds n directive e ∧
      (x.key, x.reaction) ∈ directive.watches page.kit n e
  complete : ∀ page ∈ pages, ∀ n directive e, page.Binds n directive e →
    ∀ watch ∈ directive.watches page.kit n e,
      ∃ i x, w.watcher? i = some x ∧ (x.key, x.reaction) = watch
  heard : ∀ page ∈ pages, ∀ n e, page.Binds n .model e →
    .writeBack o (Text.trim e) ∈ w.document.listenersFor n "input"

/-- A watcher that will show something at a node when it is updated. -/
def World.WillShow (w : World κ σ) (i : WatcherId) (n : NodeId) (directive : Directive) : Prop :=
  ∃ x, w.watcher? i = some x ∧ x.reaction.aim = some (n, directive) ∧
    x.last.strictEq (w.heap.peek x.data x.key) = false

/-- Pages are up to date once some watchers have been updated. A form value may be excused. -/
structure World.CatchesUp (w : World κ σ) (pages : List (Page κ)) (o : ObjectId) (size : Nat)
    (excused : NodeId → String → Prop) (is : List WatcherId) : Prop extends
    w.Stages pages o size where
  seen : ∀ {i x}, w.watcher? i = some x → x.last = w.heap.peek x.data x.key ∨ i ∈ is
  shown : ∃ texts : NodeId → Texts, (∀ page ∈ pages, page.Shown w.document size texts) ∧
    ∀ page ∈ pages, ∀ n directive e, page.Binds n directive e →
      (texts n).get directive e = (page.kit.texts w.heap).get directive e ∨
      (directive = .model ∧ excused n ((texts n).get directive e)) ∨
      ∃ i ∈ is, w.WillShow i n directive

/-- Pages are up to date. -/
abbrev World.Displays (w : World κ σ) (pages : List (Page κ)) (o : ObjectId) (size : Nat)
    (excused : NodeId → String → Prop) : Prop :=
  w.CatchesUp pages o size excused []

/-- No form value is excused. -/
def unexcused (_ : NodeId) (_ : String) : Prop := False

open World

variable {env : Env κ σ} {pages : List (Page κ)} {o : ObjectId} {size : Nat}
  {excused : NodeId → String → Prop} {w w' : World κ σ}

/-- When nothing is excused, every binding shows what the data says. -/
theorem World.CatchesUp.upToDate (h : w.Displays pages o size unexcused) :
    ∃ texts : NodeId → Texts, (∀ page ∈ pages, page.Shown w.document size texts) ∧
      ∀ page ∈ pages, ∀ n directive e, page.Binds n directive e →
        (texts n).get directive e = (page.kit.texts w.heap).get directive e := by
  obtain ⟨texts, hshown, hcurrent⟩ := h.shown
  refine ⟨texts, hshown, fun page hpage n directive e hbind => ?_⟩
  rcases hcurrent page hpage n directive e hbind with heq | ⟨_, hexcused⟩ | ⟨i, hi, _⟩
  · exact heq
  · exact hexcused.elim
  · cases hi

theorem Document.SilentFrom.put {d : Document κ} (h : d.SilentFrom size) (n : NodeId)
    (text : String) (directive : Directive) : (d.put n text directive).SilentFrom size := by
  intro m hm
  cases directive with
  | model => exact (Document.listeners_setValue d n text m).trans (h m hm)
  | text => exact (Document.listeners_setText d n text m).trans (h m hm)
  | on event => exact h m hm

theorem Document.extends_put (d : Document κ) (n : NodeId) (text : String)
    (directive : Directive) : d.Extends (d.put n text directive) := by
  cases directive with
  | model => exact .setValue d n text
  | text => exact .setText d n text
  | on event => exact .refl d

/-- A watcher notes what it sees. -/
theorem World.Stages.setLast (h : w.Stages pages o size) (i : WatcherId) (v : Value) :
    (w.setLast i v).Stages pages o size := by
  refine ⟨h.current, h.grown, h.silent, h.flat, (SameLists.setLast w i v).exact h.exact, ?_, ?_,
    h.heard⟩
  · intro j x hx
    rw [watcher?_setLast] at hx
    split at hx
    · obtain ⟨y, hy, rfl⟩ := Option.map_eq_some_iff.mp hx
      exact h.source (x := y) hy
    · exact h.source hx
  · intro page hpage n directive e hbind watch hwatch
    obtain ⟨j, x, hx, heq⟩ := h.complete page hpage n directive e hbind watch hwatch
    refine ⟨j, ?_⟩
    rw [watcher?_setLast, hx]
    split
    · exact ⟨_, rfl, heq⟩
    · exact ⟨x, rfl, heq⟩

/-- Something is shown. -/
theorem World.Stages.put (h : w.Stages pages o size) (n : NodeId) (text : String)
    (directive : Directive) (user : σ) :
    World.Stages { w with document := w.document.put n text directive, user } pages o size := by
  have hextends := w.document.extends_put n text directive
  exact ⟨h.current, Nat.le_trans h.grown hextends.size, h.silent.put n text directive, h.flat,
    h.exact.of_watchers rfl fun _ _ => rfl, h.source, h.complete,
    fun page hpage m e hbind => hextends.listeners (h.heard page hpage m e hbind)⟩

theorem World.Stages.of_heap (h : w.Stages pages o size) (hcurrent : w'.current = w.current)
    (hwatchers : w'.watchers = w.watchers) (hdocument : w'.document = w.document)
    (hsubscribers : ∀ p key, w'.heap.subscribers p key = w.heap.subscribers p key)
    (hflat : ∀ key, (w'.heap.peek o key).isScalar = true) : w'.Stages pages o size := by
  have hwatcher := watcher?_of_watchers hwatchers
  refine ⟨hcurrent.trans h.current, ?_, ?_, hflat,
    h.exact.of_watchers hwatchers hsubscribers, ?_, ?_, ?_⟩
  · rw [hdocument]
    exact h.grown
  · rw [hdocument]
    exact h.silent
  · intro i x hx
    rw [hwatcher] at hx
    rw [hsubscribers]
    exact h.source hx
  · intro page hpage n directive e hbind watch hwatch
    obtain ⟨i, x, hx, heq⟩ := h.complete page hpage n directive e hbind watch hwatch
    exact ⟨i, x, (hwatcher i).trans hx, heq⟩
  · rw [hdocument]
    exact h.heard

/-- What is held and the state of the user make no difference. -/
theorem World.CatchesUp.of_same {is : List WatcherId} (h : w.CatchesUp pages o size excused is)
    (hcurrent : w'.current = w.current) (hheap : w'.heap = w.heap)
    (hwatchers : w'.watchers = w.watchers) (hdocument : w'.document = w.document) :
    w'.CatchesUp pages o size excused is := by
  have hwatcher := watcher?_of_watchers hwatchers
  obtain ⟨texts, hshown, hbindings⟩ := h.shown
  refine ⟨h.toStages.of_heap hcurrent hwatchers hdocument (fun _ _ => by rw [hheap])
    (hheap ▸ h.flat), fun {i x} hx => ?_, texts, hdocument ▸ hshown, ?_⟩
  · rw [hwatcher] at hx
    rw [hheap]
    exact h.seen hx
  · intro page hpage n directive e hbind
    rw [hheap]
    refine (hbindings page hpage n directive e hbind).imp_right (Or.imp_right ?_)
    rintro ⟨i, hi, x, hx, haim, hnew⟩
    exact ⟨i, hi, x, (hwatcher i).trans hx, haim, hheap ▸ hnew⟩

/-- A watcher goes on waiting while another one is updated. -/
theorem World.WillShow.of_setLast {i j : WatcherId} {n : NodeId} {directive : Directive}
    (hj : w.WillShow j n directive) (hne : ¬ i = j) (v : Value) :
    (w.setLast i v).WillShow j n directive := by
  obtain ⟨y, hy, haim, hnew⟩ := hj
  exact ⟨y, (watcher?_setLast_of_ne w hne v).trans hy, haim, hnew⟩

/-- Whoever waits for one of these watchers, but not for the first, waits for one of the others. -/
theorem World.WillShow.exists_of_setLast {i : WatcherId} {is : List WatcherId} {n : NodeId}
    {directive : Directive} (h : ∃ j ∈ i :: is, w.WillShow j n directive)
    (hi : ¬ w.WillShow i n directive) (v : Value) :
    ∃ j ∈ is, (w.setLast i v).WillShow j n directive := by
  obtain ⟨j, hj, hwill⟩ := h
  have hij : ¬ i = j := by
    rintro rfl
    exact hi hwill
  exact ⟨j, (List.mem_cons.mp hj).resolve_left fun heq => hij heq.symm, hwill.of_setLast hij v⟩

/-- Nobody waits for a watcher that does not exist. -/
theorem World.CatchesUp.of_missing {i : WatcherId} {is : List WatcherId}
    (h : w.CatchesUp pages o size excused (i :: is)) (hnone : w.watcher? i = none) :
    w.CatchesUp pages o size excused is := by
  obtain ⟨texts, hshown, hcurrent⟩ := h.shown
  refine ⟨h.toStages, fun {j x} hx => ?_, texts, hshown, fun page hpage n directive e hbind => ?_⟩
  · refine (h.seen hx).imp_right fun hmem => (List.mem_cons.mp hmem).resolve_left ?_
    rintro rfl
    rw [hnone] at hx
    cases hx
  · refine (hcurrent page hpage n directive e hbind).imp_right (Or.imp_right ?_)
    rintro ⟨j, hj, x, hx, hrest⟩
    refine ⟨j, (List.mem_cons.mp hj).resolve_left ?_, x, hx, hrest⟩
    rintro rfl
    rw [hnone] at hx
    cases hx

/-- A watcher that has noted what there is to see has seen it. -/
theorem World.CatchesUp.seen_setLast {i : WatcherId} {is : List WatcherId} {x : Watcher κ}
    (h : w.CatchesUp pages o size excused (i :: is)) (hx : w.watcher? i = some x)
    {j : WatcherId} {y : Watcher κ}
    (hy : (w.setLast i (w.heap.peek x.data x.key)).watcher? j = some y) :
    y.last = w.heap.peek y.data y.key ∨ j ∈ is := by
  by_cases hij : i = j
  · subst hij
    rw [watcher?_setLast_self hx] at hy
    obtain rfl := Option.some.inj hy
    exact .inl rfl
  · rw [watcher?_setLast_of_ne w hij] at hy
    refine (h.seen hy).imp_right fun hmem => ?_
    exact (List.mem_cons.mp hmem).resolve_left fun heq => hij heq.symm

/-- An update brings the binding of the watcher up to date, if there is anything new for it. -/
theorem update_catchesUp (hq : env.HooksRead) (hs : Staged pages o size) {i : WatcherId}
    {is : List WatcherId} {u : Unit} (h : w.CatchesUp pages o size excused (i :: is))
    (hheld : .object o ∈ w.held) (hu : update env i w = some (u, w')) :
    w'.CatchesUp pages o size excused is ∧ w'.heap = w.heap ∧ w'.held = w.held := by
  rcases hq.update_cases h.current hu with ⟨rfl, hdead⟩ | ⟨x, hx, hupdate⟩
  · -- there is no such watcher, for a watcher's data is alive
    refine ⟨h.of_missing ?_, rfl, rfl⟩
    cases hx : w'.watcher? i with
    | none => rfl
    | some x =>
      have hlive := hdead x hx
      rw [(h.source hx).1, isAlive_of_mem_held hheld] at hlive
      cases hlive
  · obtain ⟨texts, hshown, hcurrent⟩ := h.shown
    obtain ⟨hdata, _, page, hpage, n, directive, e, hbind, hwatch⟩ := h.source hx
    have haim := Directive.aim_of_mem_watches hwatch
    have hkind := Directive.kind_of_mem_watches hwatch
    rcases hupdate with ⟨heq, rfl⟩ | ⟨hne, ⟨_, user, rfl⟩ | ⟨code, held, hcode, _⟩⟩
    · -- nothing new: whoever waits for a watcher waits for another
      refine ⟨⟨h.toStages.setLast i _, h.seen_setLast hx, texts, hshown, ?_⟩, rfl, rfl⟩
      intro page' hpage' m directive' e' hbind'
      refine (hcurrent page' hpage' m directive' e' hbind').imp_right
        (Or.imp_right fun hwaits => ?_)
      refine WillShow.exists_of_setLast hwaits ?_ _
      rintro ⟨y, hy, _, hnew⟩
      obtain rfl := Option.some.inj (hx.symm.trans hy)
      rw [heq] at hnew
      cases hnew
    · -- the one binding of this watcher is brought up to date
      have hput := Directive.shown_of_mem_watches hwatch (hdata.trans (hs.data page hpage).symm)
        w.heap w.document
      rw [hput]
      refine ⟨⟨(h.toStages.setLast i _).put n _ directive user, h.seen_setLast hx, _,
        hs.put h.grown hshown hpage hbind hkind _, ?_⟩, rfl, rfl⟩
      intro page' hpage' m directive' e' hbind'
      by_cases hsame : m = n ∧ directive' = directive
      · obtain ⟨rfl, rfl⟩ := hsame
        obtain rfl := hs.apart page hpage page' hpage' m hbind.mem_ids hbind'.mem_ids
        obtain rfl := hs.once page hpage m directive' e e' hkind hbind hbind'
        exact .inl (get_retexted hkind e)
      · rw [get_retexted_of_ne hsame]
        refine (hcurrent page' hpage' m directive' e' hbind').imp_right
          (Or.imp_right fun hwaits => ?_)
        refine WillShow.exists_of_setLast hwaits ?_ _
        rintro ⟨y, hy, haim', _⟩
        obtain rfl := Option.some.inj (hx.symm.trans hy)
        exact hsame (Prod.mk.inj (Option.some.inj (haim'.symm.trans haim)))
    · -- a watcher with code of the user's has no aim
      rw [hcode] at haim
      cases haim

theorem updateAll_displays (hq : env.HooksRead) (hs : Staged pages o size) {is : List WatcherId}
    {u : Unit} (h : w.CatchesUp pages o size excused is) (hheld : .object o ∈ w.held)
    (hu : updateAll env is w = some (u, w')) :
    w'.Displays pages o size excused ∧ w'.heap = w.heap := by
  induction is generalizing w with
  | nil =>
    obtain rfl := (Run.pure_eq_some.mp hu).2
    exact ⟨h, rfl⟩
  | cons i rest ih =>
    obtain ⟨_, w₁, hfirst, hrest⟩ := Run.bind_eq_some.mp hu
    obtain ⟨h₁, hheap, hheld₁⟩ := update_catchesUp hq hs h hheld hfirst
    obtain ⟨h', hheap'⟩ := ih h₁ (hheld₁ ▸ hheld) hrest
    exact ⟨h', hheap'.trans hheap⟩

/-! ## Writes -/

/-- When values change under watchers that are among those to be updated, pages are still to be
brought up to date by them. -/
theorem World.CatchesUp.of_change (h : w.Displays pages o size excused)
    (hs : Staged pages o size) (hstages : w'.Stages pages o size)
    (hwatchers : w'.watchers = w.watchers) (hdocument : w'.document = w.document)
    {is : List WatcherId}
    (hchange : ∀ {i x}, w.watcher? i = some x →
      w'.heap.peek x.data x.key = w.heap.peek x.data x.key ∨
      i ∈ is ∧ x.last.strictEq (w'.heap.peek x.data x.key) = false) :
    w'.CatchesUp pages o size excused is := by
  have hwatcher := watcher?_of_watchers hwatchers
  obtain ⟨texts, hshown, hcurrent⟩ := h.shown
  refine ⟨hstages, fun {i x} hx => ?_, texts, hdocument ▸ hshown, ?_⟩
  · rw [hwatcher] at hx
    rcases hchange hx with hsame | ⟨hi, _⟩
    · rw [hsame]
      exact .inl ((h.seen hx).resolve_right List.not_mem_nil)
    · exact .inr hi
  · intro page hpage n directive e hbind
    rcases hcurrent page hpage n directive e hbind with heq | hexcused | ⟨i, hi, _⟩
    · by_cases hall : ∀ watch ∈ directive.watches page.kit n e,
          w'.heap.peek o watch.1 = w.heap.peek o watch.1
      · -- nothing that the binding shows has changed
        have hsame : (page.kit.texts w'.heap).get directive e =
            (page.kit.texts w.heap).get directive e := by
          refine Directive.get_congr (n := n) fun watch hwatch => ?_
          rw [hs.data page hpage, hall watch hwatch]
          exact Heap.text_of_isScalar _ _ (h.flat watch.1)
        exact .inl (heq.trans hsame.symm)
      · -- something has, so its watcher is waiting
        obtain ⟨watch, hrest⟩ := not_forall.mp hall
        obtain ⟨hwatch, hnew⟩ := Classical.not_imp.mp hrest
        obtain ⟨i, x, hx, rfl⟩ := h.complete page hpage n directive e hbind watch hwatch
        obtain ⟨hi, hlast⟩ := (hchange hx).resolve_left fun hsame => by
          rw [(h.source hx).1] at hsame
          exact hnew hsame
        refine .inr (.inr ⟨i, hi, x, (hwatcher i).trans hx, ?_, hlast⟩)
        exact Directive.aim_of_mem_watches hwatch
    · exact .inr (.inl hexcused)
    · cases hi

theorem World.Stages.isScalar_of_peek (h : w.Stages pages o size) {h' : Heap κ} {v : Value}
    (hv : v.isScalar = true) (hpeek : ∀ k, h'.peek o k = w.heap.peek o k ∨ h'.peek o k = v)
    (key : String) : (h'.peek o key).isScalar = true := by
  rcases hpeek key with heq | heq
  · rw [heq]
    exact h.flat key
  · rw [heq]
    exact hv

/-- A plain field has no watchers. -/
theorem putPlain_displays (hs : Staged pages o size) (h : w.Displays pages o size excused)
    {p : ObjectId} {key : String} {v : Value} (hv : v.isScalar = true)
    (hc : w.heap.cell? p key = none) :
    World.Displays (w.mapHeap fun h => h.putPlain p key v) pages o size excused := by
  have hpeek := w.heap.peek_putPlain p key v
  have hstages : World.Stages (w.mapHeap fun h => h.putPlain p key v) pages o size := by
    refine h.toStages.of_heap rfl rfl rfl ?_ (h.isScalar_of_peek hv fun k => ?_)
    · exact fun q k => Heap.subscribers_congr (Heap.cell?_putPlain hc v q k)
    · show (w.heap.putPlain p key v).peek o k = _ ∨ (w.heap.putPlain p key v).peek o k = v
      rw [hpeek]
      split
      · exact .inr rfl
      · exact .inl rfl
  refine h.of_change hs hstages rfl rfl fun {i x} hx => ?_
  obtain ⟨c, hc', _⟩ := Heap.mem_subscribers.mp (h.source hx).2.1
  refine .inl ((hpeek x.data x.key).trans (if_neg fun hfield => ?_))
  rw [hfield.1, hfield.2.2, (h.source hx).1, hc'] at hc
  cases hc

/-- When a field has a new value, its subscribers are to be updated. -/
theorem stored_catchesUp (hs : Staged pages o size) (h : w.Displays pages o size excused)
    {p : ObjectId} {key : String} {c : Cell κ} {v : Value} (hv : v.isScalar = true)
    (hc : w.heap.cell? p key = some c) (hne : c.value.strictEq v = false) (user : σ) :
    (w.stored p key c v user).CatchesUp pages o size excused c.subscribers := by
  have hpeek := peek_stored hc v user
  have hstages : (w.stored p key c v user).Stages pages o size := by
    refine h.toStages.of_heap rfl rfl rfl (w.subscribers_stored p key c v user)
      (h.isScalar_of_peek hv fun k => ?_)
    rw [hpeek]
    split
    · exact .inr rfl
    · exact .inl rfl
  refine h.of_change hs hstages rfl rfl fun {i x} hx => ?_
  rw [hpeek]
  split
  · next hfield =>
    have hmem := (h.source hx).2.1
    rw [← (h.source hx).1, hfield.1, hfield.2, Heap.subscribers_of_cell? hc] at hmem
    refine .inr ⟨hmem, ?_⟩
    rw [(h.seen hx).resolve_right List.not_mem_nil, hfield.1, hfield.2, Heap.peek_of_cell? hc]
    exact hne
  · exact .inl rfl

/-- A write keeps pages up to date. What was written is then found in the field, if the field is
reactive. -/
theorem write_displays (hq : env.HooksRead) (hs : Staged pages o size)
    (h : w.Displays pages o size excused) {p : ObjectId} {key : String} {v : Value} {u : Unit}
    (hv : v.isScalar = true) (hw : write env p key v w = some (u, w')) :
    w'.Displays pages o size excused ∧ w'.held = w.held ∧
      (w.heap.isReactive p key = true →
        w'.heap.text (w'.heap.peek p key) = w'.heap.text v) := by
  rcases hq.write_eq_some h.current hw with ⟨hc, rfl⟩ | ⟨c, hc, ⟨hsame, rfl⟩ | hstored⟩
  · refine ⟨putPlain_displays hs h hv hc, rfl, fun hreactive => ?_⟩
    rw [Heap.isReactive, hc] at hreactive
    cases hreactive
  · refine ⟨h, rfl, fun _ => ?_⟩
    rw [Heap.peek_of_cell? hc]
    exact (Heap.text_of_strictEq _ hv (Value.strictEq_symm hsame)).symm
  · obtain ⟨hne, user, w₁, hall, rfl⟩ := hstored
    have hcatches := stored_catchesUp hs h hv hc hne user
    have hdone : w₁.Displays pages o size excused ∧
        w₁.heap = (w.stored p key c v user).heap := by
      by_cases hp : p = o
      · subst hp
        exact updateAll_displays hq hs hcatches List.mem_cons_self hall
      · -- nobody is subscribed to another object
        have hnobody : c.subscribers = [] := by
          refine List.eq_nil_iff_forall_not_mem.mpr fun i hi => ?_
          obtain ⟨x, hx, hdata, _⟩ := h.exact.bound (Heap.mem_subscribers.mpr ⟨c, hc, hi⟩)
          exact hp (hdata.symm.trans (h.source hx).1)
        rw [hnobody] at hall hcatches
        obtain rfl := (Run.pure_eq_some.mp hall).2
        exact ⟨hcatches, rfl⟩
    refine ⟨hdone.1.of_same rfl rfl rfl rfl, rfl, fun _ => ?_⟩
    show w₁.heap.text (w₁.heap.peek p key) = w₁.heap.text v
    rw [hdone.2, peek_stored hc, if_pos ⟨rfl, rfl⟩]

end DataBinding
