import DataBinding.Proofs.Compiling
import DataBinding.Proofs.Effects

/-!
# Compiling is following the plan

Compiling a tree comes to making the bindings of its plan one after the other, as long as no text
from data is taken for source. The walk goes over a tree that the bindings change under it: a text
takes the place of children, and the root has no children at all meanwhile. None of this is left
in the end. The texts that were put in are visited without effect, no binding is made at the root,
and so its children come back to the place they were taken from.
-/

namespace DataBinding

/-! ## Changes at different places of a table -/

namespace Table

variable {α : Type}

/-- Changes at two places can be made in either order. -/
theorem modify_comm (t : Table α) {i j : Nat} (hij : i ≠ j) (f g : α → α) :
    (t.modify i f).modify j g = (t.modify j g).modify i f := by
  apply Table.ext
  apply Array.ext_getElem?
  intro k
  simp only [modify, Array.getElem?_modify]
  by_cases hi : i = k
  · have hj : ¬ j = k := fun hj => hij (hi.trans hj.symm)
    simp [hi, hj]
  · simp [hi]

theorem modify_push (t : Table α) (a : α) {i : Nat} (hi : i < t.size) (f : α → α) :
    (t.push a).modify i f = (t.modify i f).push a := by
  apply Table.ext
  apply Array.ext_getElem?
  intro k
  simp only [modify, push, Array.getElem?_modify, Array.getElem?_push, Array.size_modify]
  by_cases hk : i = k
  · have hsize : ¬ k = t.entries.size := by
      unfold size at hi
      omega
    simp [hk, hsize]
  · simp [hk]

theorem modify_modify (t : Table α) (i : Nat) (f g : α → α) :
    (t.modify i f).modify i g = t.modify i (g ∘ f) := by
  apply Table.ext
  apply Array.ext_getElem?
  intro k
  simp only [modify, Array.getElem?_modify]
  split
  · rw [Option.map_map]
  · rfl

/-- What a change does to the entry is all that counts. -/
theorem modify_congr {t : Table α} {i : Nat} {f g : α → α}
    (h : ∀ a, t.find? i = some a → f a = g a) : t.modify i f = t.modify i g := by
  apply Table.ext
  apply Array.ext_getElem?
  intro k
  simp only [modify, Array.getElem?_modify]
  split
  · next hk =>
    subst hk
    cases ha : t.entries[i]? with
    | none => rfl
    | some a => exact congrArg some (h a ha)
  · rfl

/-- A change that does not change the entry. -/
theorem modify_eq_self {t : Table α} {i : Nat} {f : α → α} (h : ∀ a, t.find? i = some a → f a = a) :
    t.modify i f = t := by
  rw [modify_congr (g := id) h]
  apply Table.ext
  apply Array.ext_getElem?
  intro k
  simp only [modify, Array.getElem?_modify, Option.map_id_fun, id_eq, ite_self]

end Table

namespace Document

variable {κ : Type} {d : Document κ} {n m : NodeId}

theorem modifyNode_comm (d : Document κ) (hnm : n ≠ m) (f g : Node κ → Node κ) :
    (d.modifyNode n f).modifyNode m g = (d.modifyNode m g).modifyNode n f :=
  Table.modify_comm d (fun h => hnm (congrArg NodeId.mk h)) f g

theorem content_modifyNode_of_ne (d : Document κ) (hnm : n ≠ m) (f : Node κ → Node κ) :
    (d.modifyNode n f).content m = d.content m := by
  rw [content, node_modifyNode_of_ne d f hnm, content]

/-- Setting a text leaves what is done to other nodes alone. -/
theorem setText_modifyNode (hm : d.has m) (hnm : n ≠ m) (f : Node κ → Node κ) (text : String) :
    (d.modifyNode m f).setText n text = (d.setText n text).modifyNode m f := by
  unfold setText
  rw [content_modifyNode_of_ne d (Ne.symm hnm) f]
  split
  · exact modifyNode_comm d (Ne.symm hnm) f _
  · exact modifyNode_comm d (Ne.symm hnm) f _
  · have hdetach : (d.modifyNode m f).detachChildren n = (d.detachChildren n).modifyNode m f :=
      modifyNode_comm d (Ne.symm hnm) f _
    dsimp only
    rw [hdetach]
    split
    · rfl
    · have hsize : ((d.detachChildren n).modifyNode m f).size = (d.detachChildren n).size :=
        size_modifyNode _ _ _
      have hhas : m.index < (d.detachChildren n).size := by
        unfold detachChildren
        rw [size_modifyNode]
        exact hm
      have hcreate : (((d.detachChildren n).modifyNode m f).create (.text text)).2 =
          (((d.detachChildren n).create (.text text)).2).modifyNode m f :=
        (Table.modify_push _ _ hhas f).symm
      show (((d.detachChildren n).modifyNode m f).create (.text text)).2.appendChildren n
        [⟨((d.detachChildren n).modifyNode m f).size⟩] = _
      rw [hcreate, hsize]
      exact modifyNode_comm _ (Ne.symm hnm) f _

end Document

variable {κ σ : Type}

/-! ## What the steps of a plan leave behind -/

namespace Wire

/-- The node that a step is made at. -/
def node : Wire → NodeId
  | .bind n _ _ => n
  | .shown n _ => n

/-- What a step does to the document. A visit to a text does nothing, for it has no marker. -/
def mark (kit : Kit κ) (h : Heap κ) (d : Document κ) : Wire → Document κ
  | .bind n directive expression => directive.mark kit h n expression d
  | .shown _ _ => d

/-- What a step does to the world. -/
def effect (kit : Kit κ) (w : World κ σ) : Wire → World κ σ
  | .bind n directive expression => directive.effect kit n expression w
  | .shown _ _ => w

end Wire

namespace World

/-- The steps of a plan have been made. -/
def following (w : World κ σ) (kit : Kit κ) (wires : List Wire) : World κ σ :=
  wires.foldl (Wire.effect kit) w

/-- Effects in a row are effects one after the other. -/
theorem following_append (w : World κ σ) (kit : Kit κ) (wires wires' : List Wire) :
    (w.following kit wires).following kit wires' = w.following kit (wires ++ wires') :=
  List.foldl_append.symm

theorem following_user (w : World κ σ) (kit : Kit κ) (wires : List Wire) (user : σ) :
    World.following { w with user } kit wires = { w.following kit wires with user } := by
  induction wires generalizing w with
  | nil => rfl
  | cons wire rest ih =>
    have hcons : (wire.effect kit { w with user } : World κ σ) =
        { wire.effect kit w with user } := by
      cases wire with
      | bind n directive expression => exact directive.effect_user w user
      | shown n expression => rfl
    show World.following (wire.effect kit { w with user }) kit rest = _
    rw [hcons]
    exact ih (wire.effect kit w)

/-- Following a plan holds nothing in the end. -/
@[simp] theorem held_following (w : World κ σ) (kit : Kit κ) (wires : List Wire) :
    (w.following kit wires).held = w.held := by
  induction wires generalizing w with
  | nil => rfl
  | cons wire rest ih =>
    refine (ih (wire.effect kit w)).trans ?_
    cases wire with
    | bind n directive expression => exact directive.held_effect w
    | shown n expression => rfl

theorem following_held (w : World κ σ) (kit : Kit κ) (wires : List Wire) (held : List Handle) :
    World.following { w with held } kit wires = { w.following kit wires with held } := by
  induction wires generalizing w with
  | nil => rfl
  | cons wire rest ih =>
    have hcons : (wire.effect kit { w with held } : World κ σ) =
        { wire.effect kit w with held } := by
      cases wire with
      | bind n directive expression => exact directive.effect_held w held
      | shown n expression => rfl
    show World.following (wire.effect kit { w with held }) kit rest = _
    rw [hcons]
    exact ih (wire.effect kit w)

end World

/-! ## Compiling is following the plan -/

variable {env : Env κ σ} {kit : Kit κ} {w : World κ σ}

/-- The world after a binding, up to the state of the user. -/
theorem bind_effect (hr : w.RecordedBy env kit.data) (n : NodeId) (directive : Directive)
    (expression : String) : ∃ user,
    directive.bind env n expression kit w =
        some ((), { directive.effect kit n expression w with user }) ∧
      World.RecordedBy { directive.effect kit n expression w with user } env kit.data := by
  obtain ⟨user, hbind⟩ := bind_eq hr n directive expression
  obtain ⟨w', hbind', _, hsubscribes⟩ := bind_recorded hr n directive expression
  obtain rfl : { directive.effect kit n expression w with user } = w' :=
    (Prod.mk.inj (Option.some.inj (hbind.symm.trans hbind'))).2
  exact ⟨user, hbind, hsubscribes.recordedBy hr⟩

/-- The attributes of a node are bound in order, up to the first that does not parse. -/
theorem compileAttributes_eq (attributes : List (String × String)) {n : NodeId}
    (hr : w.RecordedBy env kit.data) : ∃ user,
    compileAttributes env kit n attributes w =
      some ((Plan.ofAttributes kit.dialect n attributes).result,
        { w.following kit (Plan.ofAttributes kit.dialect n attributes).wires with user }) := by
  induction attributes generalizing w with
  | nil => exact ⟨w.user, rfl⟩
  | cons entry rest ih =>
    obtain ⟨name, expression⟩ := entry
    unfold compileAttributes Plan.ofAttributes
    cases hparse : Directive.parse name kit.dialect with
    | error e => exact ⟨w.user, rfl⟩
    | ok found =>
      cases found with
      | none => exact ih hr
      | some directive =>
        obtain ⟨user₁, hbind, hr₁⟩ := bind_effect hr n directive expression
        obtain ⟨user, hrest⟩ := ih hr₁
        rw [World.following_user] at hrest
        exact ⟨user, Run.bind_eq_some.mpr ⟨(), _, hbind, hrest⟩⟩

/-- What is compiled at one node is its part of the plan. -/
theorem compileNode_eq (n : NodeId) (hr : w.RecordedBy env kit.data) : ∃ user,
    compileNode env kit n w =
      some ((Plan.ofContent kit.dialect n (w.document.content n)).result,
        { w.following kit (Plan.ofContent kit.dialect n (w.document.content n)).wires with
          user }) := by
  unfold compileNode
  simp only [Run.bind_eq_some, Run.get_eq_some]
  cases hc : w.document.content n with
  | element tag attributes value =>
    obtain ⟨user, hrun⟩ := compileAttributes_eq attributes.entries (n := n) hr
    refine ⟨user, w, w, ⟨rfl, rfl⟩, ?_⟩
    rw [hc]
    exact hrun
  | comment text =>
    refine ⟨w.user, w, w, ⟨rfl, rfl⟩, ?_⟩
    rw [hc]
    rfl
  | text text =>
    cases hdetect : Template.detect text kit.dialect with
    | true =>
      obtain ⟨user, hbind⟩ := bind_eq hr n .text text
      refine ⟨user, w, w, ⟨rfl, rfl⟩, ?_⟩
      rw [hc, Plan.ofContent_text_of_detect hdetect]
      dsimp only
      rw [if_pos hdetect]
      exact Run.bind_eq_some.mpr ⟨(), _, hbind, Run.pure_eq_some.mpr ⟨rfl, rfl⟩⟩
    | false =>
      have hnot : ¬ Template.detect text kit.dialect = true := by
        rw [hdetect]
        exact Bool.false_ne_true
      refine ⟨w.user, w, w, ⟨rfl, rfl⟩, ?_⟩
      rw [hc, Plan.ofContent_text_of_not_detect hdetect]
      dsimp only
      rw [if_neg hnot]
      rfl

/-- Runs that follow plans one after the other follow the joint plan. -/
theorem okThen_eq {p q : Plan} {first next : Run κ σ (Except ViewError Unit)} {user₁ : σ}
    (hfirst : first w = some (p.result, { w.following kit p.wires with user := user₁ }))
    (hnext : p.result = .ok () → ∃ user,
      next { w.following kit p.wires with user := user₁ } =
        some (q.result, { (w.following kit p.wires).following kit q.wires with user })) :
    ∃ user, first.okThen next w =
      some ((p.andThen q).result, { w.following kit (p.andThen q).wires with user }) := by
  obtain ⟨wires, result⟩ := p
  cases result with
  | error e => exact ⟨user₁, Run.bind_eq_some.mpr ⟨_, _, hfirst, rfl⟩⟩
  | ok u =>
    obtain ⟨user, hrun⟩ := hnext rfl
    refine ⟨user, Run.bind_eq_some.mpr ⟨_, _, hfirst, ?_⟩⟩
    show next _ = some (q.result, { w.following kit (wires ++ q.wires) with user })
    rw [← World.following_append]
    exact hrun

/-- A text from data that has no marker is visited without effect. -/
theorem compileBelow_plain {depth size : Nat} {n : NodeId} {text : String}
    (hbelow : w.document.HasTextBelow size n text)
    (hplain : Template.detect text kit.dialect = false) :
    compileBelow env kit (depth + 1) n w = some (.ok (), w) := by
  refine Run.bind_eq_some.mpr ⟨w, w, Run.get_eq_some.mpr ⟨rfl, rfl⟩, ?_⟩
  rcases hbelow with ⟨hchildren, _⟩ | ⟨m, _, _, hchildren, hcontent, hleaf⟩
  · rw [hchildren]
    exact compileNodes_nil _ w
  · rw [hchildren]
    refine compileNodes_leaf depth (Run.bind_eq_some.mpr ⟨w, w, Run.get_eq_some.mpr ⟨rfl, rfl⟩, ?_⟩)
      hleaf
    rw [hcontent]
    dsimp only
    rw [if_neg (by rw [hplain]; exact Bool.false_ne_true)]
    rfl

/-- No text that directives put into the page has a marker. -/
def Plan.Plain (p : Plan) (kit : Kit κ) (h : Heap κ) : Prop :=
  ∀ n expression, .shown n expression ∈ p.wires →
    Template.detect (kit.textFor h expression) kit.dialect = false

theorem Plan.Plain.left {p q : Plan} {h : Heap κ} (hplain : (p.andThen q).Plain kit h) :
    p.Plain kit h := by
  intro n expression hmem
  refine hplain n expression ?_
  unfold andThen
  split
  · exact hmem
  · exact List.mem_append_left _ hmem

theorem Plan.Plain.right {p q : Plan} {h : Heap κ} (hplain : (p.andThen q).Plain kit h)
    (hok : p.result = .ok ()) : q.Plain kit h := by
  intro n expression hmem
  refine hplain n expression ?_
  unfold andThen
  rw [hok]
  exact List.mem_append_right _ hmem

/-- Down to a depth, compiling trees of a page in a row is following their plan. -/
def CompilesPlainly (env : Env κ σ) (kit : Kit κ) (size depth : Nat) : Prop :=
  ∀ {ts : List Tree} {w : World κ σ}, w.RecordedBy env kit.data → size ≤ w.document.size →
    Tree.AllIn w.document ts → (∀ n ∈ Tree.idsOf ts, n.index < size) → (Tree.idsOf ts).Nodup →
    Tree.heightOf ts < depth → (Plan.ofTrees kit.dialect ts).Plain kit w.heap → ∃ user,
      compileNodes env kit depth (ts.map Tree.id) w =
        some ((Plan.ofTrees kit.dialect ts).result,
          { w.following kit (Plan.ofTrees kit.dialect ts).wires with user })

/-- The walk down a tree binds its plan, or as much of it as comes before the first error. -/
theorem compileTree_eq {size depth : Nat} {t : Tree}
    (hbelow : CompilesPlainly env kit size depth)
    (hr : w.RecordedBy env kit.data) (hsize : size ≤ w.document.size) (ht : t.Of w.document)
    (hpage : ∀ n ∈ t.ids, n.index < size) (hnodup : t.ids.Nodup) (hdepth : t.height ≤ depth)
    (hplain : (Plan.ofTree kit.dialect t).Plain kit w.heap) : ∃ user,
    (compileNode env kit t.id).okThen (compileBelow env kit depth t.id) w =
      some ((Plan.ofTree kit.dialect t).result,
        { w.following kit (Plan.ofTree kit.dialect t).wires with user }) := by
  obtain ⟨n, content, count, children⟩ := t
  obtain ⟨hn, hcontent, hchildren, hall⟩ := ht
  obtain ⟨hnot, hnodup⟩ := List.nodup_cons.mp hnodup
  rw [Tree.height] at hdepth
  -- what the node's own bindings do is known to the last detail, and what they leave alone
  obtain ⟨user₁, hnode⟩ := compileNode_eq n hr
  obtain ⟨w₁, hnode', hfirst, hreplaced⟩ := compileNode_follows kit size hr hn
  obtain rfl := (Prod.mk.inj (Option.some.inj (hnode.symm.trans hnode'))).2
  rw [hcontent] at hnode hfirst hreplaced
  rw [Plan.ofTree] at hplain ⊢
  have hr₁ := hfirst.subscribes.recordedBy hr
  refine okThen_eq hnode fun hok => ?_
  have hplain := hplain.right hok
  cases hreplacement : Plan.replacement? kit.dialect content with
  | some expression =>
    rw [hreplacement] at hreplaced hplain
    have htext := hreplaced hok
    obtain ⟨k, rfl⟩ : ∃ k, depth = k + 1 := ⟨depth - 1, by omega⟩
    exact ⟨user₁, compileBelow_plain htext (hplain n expression List.mem_cons_self)⟩
  | none =>
    rw [hreplacement] at hreplaced hplain
    have hsame := hreplaced hok
    have hall₁ := hfirst.allIn hall fun m hm hmem => hnot (List.mem_singleton.mp hmem ▸ hm)
    have hplain₁ : (Plan.ofTrees kit.dialect children).Plain kit
        (w.following kit (Plan.ofContent kit.dialect n content).wires).heap := by
      intro m e hmem
      have htext := hfirst.subscribes.textFor kit e
      rw [← hplain m e hmem, ← htext]
    obtain ⟨user, hrun⟩ := hbelow hr₁ (Nat.le_trans hsize hfirst.document.size) hall₁
      (fun m hm => hpage m (List.mem_cons_of_mem _ hm)) hnodup (by omega) hplain₁
    rw [World.following_user (w.following kit (Plan.ofContent kit.dialect n content).wires) kit _
      user₁, ← hsame.trans hchildren] at hrun
    exact ⟨user, Run.bind_eq_some.mpr ⟨_, _, Run.get_eq_some.mpr ⟨rfl, rfl⟩, hrun⟩⟩

/-- Trees in a row are compiled by following their plan. The induction is on the depth, and for each
depth on the row. -/
theorem compilesPlainly (env : Env κ σ) (kit : Kit κ) (size depth : Nat) :
    CompilesPlainly env kit size depth := by
  induction depth with
  | zero => exact fun _ _ _ _ _ hdepth => absurd hdepth (Nat.not_lt_zero _)
  | succ depth ihdepth =>
    intro ts
    induction ts with
    | nil =>
      intro w _ _ _ _ _ _ _
      exact ⟨w.user, compileNodes_nil _ _⟩
    | cons t rest ihrest =>
      intro w hr hsize hall hpage hnodup hdepth hplain
      obtain ⟨ht, hrest⟩ := hall
      obtain ⟨hnodup, hnodupRest, hapart⟩ := List.nodup_append.mp hnodup
      rw [Tree.heightOf] at hdepth
      rw [Plan.ofTrees] at hplain
      have hpageTree : ∀ n ∈ t.ids, n.index < size := fun m hm =>
        hpage m (List.mem_append_left _ hm)
      obtain ⟨user₁, hrun⟩ := compileTree_eq ihdepth hr hsize ht hpageTree hnodup (by omega)
        hplain.left
      -- the same run once more, for what it leaves alone
      obtain ⟨w₁, hrun', hfirst⟩ := compileTree_follows (compilesTrees env kit size depth) hr hsize
        ht hpageTree hnodup (by omega)
      obtain rfl := (Prod.mk.inj (Option.some.inj (hrun.symm.trans hrun'))).2
      have hrest₁ := hfirst.allIn hrest fun m hm hmem => hapart m hmem m hm rfl
      rw [List.map_cons, compileNodes_cons, Plan.ofTrees]
      refine okThen_eq hrun fun hok => ?_
      have hplain₁ : (Plan.ofTrees kit.dialect rest).Plain kit
          (w.following kit (Plan.ofTree kit.dialect t).wires).heap := by
        intro m e hmem
        have htext := hfirst.subscribes.textFor kit e
        rw [← hplain.right hok m e hmem, ← htext]
      obtain ⟨user, hrest⟩ := ihrest (hfirst.subscribes.recordedBy hr)
        (Nat.le_trans hsize hfirst.document.size) hrest₁
        (fun m hm => hpage m (List.mem_append_right _ hm)) hnodupRest (by omega) hplain₁
      rw [World.following_user (w.following kit (Plan.ofTree kit.dialect t).wires) kit _
        user₁] at hrest
      exact ⟨user, hrest⟩

/-! ## The root -/

namespace Heap

/-- Two heaps give every field the same value and every value the same text. -/
def Agrees (h h' : Heap κ) : Prop :=
  (∀ o key, h.peek o key = h'.peek o key) ∧ ∀ v, h.text v = h'.text v

theorem Agrees.rendering {h h' : Heap κ} (hh : h.Agrees h') (t : Template) (o : ObjectId) :
    t.rendering h o = t.rendering h' o := by
  refine Template.filled_congr fun key _ => ?_
  rw [hh.1, hh.2]

theorem Agrees.textFor {h h' : Heap κ} (hh : h.Agrees h') (kit : Kit κ) (expression : String) :
    kit.textFor h expression = kit.textFor h' expression := by
  unfold Kit.textFor
  dsimp only
  rw [hh.rendering, hh.1, hh.2]

end Heap

/-- What a step shows depends on the values of the fields only. -/
theorem Wire.mark_congr {h h' : Heap κ} (hh : h.Agrees h') (d : Document κ) (wire : Wire) :
    wire.mark kit h d = wire.mark kit h' d := by
  cases wire with
  | shown n expression => rfl
  | bind n directive expression =>
    cases directive with
    | model =>
      show (d.addListener n "input" _).setValue n (h.text _) =
        (d.addListener n "input" _).setValue n (h'.text _)
      rw [hh.1, hh.2]
    | text =>
      show d.setText n (kit.textFor h expression) = d.setText n (kit.textFor h' expression)
      rw [hh.textFor]
    | on event => rfl

theorem World.agrees_watchingAll (w : World κ σ) (o : ObjectId)
    (watches : List (String × Reaction κ)) : (w.watchingAll o watches).heap.Agrees w.heap :=
  ⟨peek_watchingAll w o watches, text_watchingAll w o watches⟩

theorem World.agrees_readings (w : World κ σ) (o : ObjectId) (keys : List String) :
    (w.readings o keys).heap.Agrees w.heap :=
  ⟨fun p key => Heap.peek_subscribeAll _ _ _ p key, fun v => Heap.text_subscribeAll _ _ _ v⟩

theorem Heap.Agrees.trans {a b c : Heap κ} (hab : a.Agrees b) (hbc : b.Agrees c) : a.Agrees c :=
  ⟨fun o key => (hab.1 o key).trans (hbc.1 o key), fun v => (hab.2 v).trans (hbc.2 v)⟩

theorem Heap.Agrees.refl (h : Heap κ) : h.Agrees h := ⟨fun _ _ => rfl, fun _ => rfl⟩

theorem Wire.agrees_effect (kit : Kit κ) (w : World κ σ) (wire : Wire) :
    (wire.effect kit w).heap.Agrees w.heap := by
  cases wire with
  | shown n expression => exact .refl _
  | bind n directive expression =>
    show (directive.wired kit n expression w).heap.Agrees w.heap
    cases directive with
    | model => exact (World.agrees_watchingAll _ _ _).trans (World.agrees_readings _ _ _)
    | text =>
      unfold Directive.wired
      dsimp only
      split
      · exact (World.agrees_readings _ _ _).trans (World.agrees_watchingAll _ _ _)
      · exact World.agrees_watchingAll _ _ _
    | on event => exact .refl _

/-- Effects subscribe and mark, which changes no value. -/
theorem World.agrees_following (w : World κ σ) (kit : Kit κ) (wires : List Wire) :
    (w.following kit wires).heap.Agrees w.heap := by
  induction wires generalizing w with
  | nil => exact .refl _
  | cons wire rest ih => exact (ih (wire.effect kit w)).trans (wire.agrees_effect kit w)

/-- Steps change watchers and subscriptions whatever the document is, and the document on its
own. -/
theorem World.following_document (w : World κ σ) (kit : Kit κ) (wires : List Wire)
    (document : Document κ) :
    World.following { w with document } kit wires =
      { w.following kit wires with document := wires.foldl (Wire.mark kit w.heap) document } := by
  induction wires generalizing w document with
  | nil => rfl
  | cons wire rest ih =>
    have hcons : (wire.effect kit { w with document } : World κ σ) =
        { wire.effect kit w with document := wire.mark kit w.heap document } := by
      cases wire with
      | bind n directive expression =>
        show directive.effect kit n expression { w with document } = _
        unfold Directive.effect
        rw [Directive.wired_document]
        rfl
      | shown n expression => rfl
    have hmark : Wire.mark kit (wire.effect kit w).heap = Wire.mark kit w.heap := by
      funext d wire'
      exact wire'.mark_congr (wire.agrees_effect kit w) d
    show World.following (wire.effect kit { w with document }) kit rest = _
    rw [hcons, ih, hmark]
    rfl

theorem World.document_following (w : World κ σ) (kit : Kit κ) (wires : List Wire) :
    (w.following kit wires).document = wires.foldl (Wire.mark kit w.heap) w.document :=
  congrArg World.document (w.following_document kit wires w.document)

/-- A step leaves alone what is done to other nodes than its own. -/
theorem Wire.mark_modifyNode {h : Heap κ} {d : Document κ} {m : NodeId} (hm : d.has m)
    (f : Node κ → Node κ) {wire : Wire} (hne : wire.node ≠ m) :
    wire.mark kit h (d.modifyNode m f) = (wire.mark kit h d).modifyNode m f := by
  cases wire with
  | shown n expression => rfl
  | bind n directive expression =>
    have hne : n ≠ m := hne
    have hcomm := fun (d : Document κ) g => Document.modifyNode_comm d (Ne.symm hne) f g
    cases directive with
    | model =>
      show ((d.modifyNode m f).addListener n _ _).setValue n _ = _
      unfold Document.addListener Document.setValue
      rw [hcomm, hcomm]
      rfl
    | text => exact Document.setText_modifyNode hm hne f _
    | on event => exact hcomm _ _

theorem Wire.mark_extends (kit : Kit κ) (h : Heap κ) (d : Document κ) (wire : Wire) :
    d.Extends (wire.mark kit h d) := by
  cases wire with
  | shown n expression => exact .refl _
  | bind n directive expression =>
    cases directive with
    | model => exact (Document.Extends.addListener d n _ _).trans (.setValue _ n _)
    | text => exact .setText d n _
    | on event => exact .addListener d n _ _

theorem foldl_mark_modifyNode {h : Heap κ} {wires : List Wire} {d : Document κ} {m : NodeId}
    (hm : d.has m) (f : Node κ → Node κ) (hne : ∀ wire ∈ wires, wire.node ≠ m) :
    wires.foldl (Wire.mark kit h) (d.modifyNode m f) =
      (wires.foldl (Wire.mark kit h) d).modifyNode m f := by
  induction wires generalizing d with
  | nil => rfl
  | cons wire rest ih =>
    rw [List.foldl_cons, List.foldl_cons, Wire.mark_modifyNode hm f (hne wire List.mem_cons_self)]
    exact ih ((wire.mark_extends kit h d).has hm) fun wire' h' =>
      hne wire' (List.mem_cons_of_mem _ h')

/-- A step leaves other nodes than its own alone. -/
theorem Wire.node_mark_of_ne {h : Heap κ} {d : Document κ} {m : NodeId} (hm : d.has m)
    {wire : Wire} (hne : wire.node ≠ m) : (wire.mark kit h d).node m = d.node m := by
  cases wire with
  | shown n expression => rfl
  | bind n directive expression =>
    have hne : n ≠ m := hne
    cases directive with
    | model =>
      exact (Document.node_modifyNode_of_ne _ _ hne).trans (Document.node_modifyNode_of_ne d _ hne)
    | text => exact Document.node_setText_of_ne _ hm hne
    | on event => exact Document.node_modifyNode_of_ne d _ hne

/-- Nodes that no wire is at are not marked. -/
theorem node_foldl_mark_of_ne {h : Heap κ} {wires : List Wire} {d : Document κ} {m : NodeId}
    (hm : d.has m) (hne : ∀ wire ∈ wires, wire.node ≠ m) :
    (wires.foldl (Wire.mark kit h) d).node m = d.node m := by
  induction wires generalizing d with
  | nil => rfl
  | cons wire rest ih =>
    rw [List.foldl_cons, ih ((wire.mark_extends kit h d).has hm) fun wire' h' =>
      hne wire' (List.mem_cons_of_mem _ h')]
    exact Wire.node_mark_of_ne hm (hne wire List.mem_cons_self)

theorem Plan.node_of_mem_ofAttributes {dialect : Dialect} {n : NodeId}
    {attributes : List (String × String)} {wire : Wire}
    (h : wire ∈ (ofAttributes dialect n attributes).wires) : wire.node = n := by
  induction attributes with
  | nil => cases h
  | cons entry rest ih =>
    unfold ofAttributes at h
    split at h
    · cases h
    · exact ih h
    · rcases List.mem_append.mp h with h | h
      · rw [List.mem_singleton.mp h]
        rfl
      · exact ih h

theorem Plan.node_of_mem_ofContent {dialect : Dialect} {n : NodeId} {content : Content}
    {wire : Wire} (h : wire ∈ (ofContent dialect n content).wires) : wire.node = n := by
  cases content with
  | element tag attributes value => exact node_of_mem_ofAttributes h
  | text text =>
    rw [(mem_wires_ofContent_text.mp h).2]
    rfl
  | comment text => cases h

mutual

/-- The steps of a plan are made at the nodes of the tree. -/
theorem Plan.node_mem_ids {dialect : Dialect} {t : Tree} {wire : Wire}
    (h : wire ∈ (ofTree dialect t).wires) : wire.node ∈ t.ids := by
  match t with
  | .node id content _ children =>
    rw [ofTree] at h
    rcases mem_wires_andThen h with h | h
    · rw [node_of_mem_ofContent h]
      exact List.mem_cons_self
    · split at h
      · rw [List.mem_singleton.mp h]
        exact List.mem_cons_self
      · exact List.mem_cons_of_mem _ (node_mem_idsOf h)

theorem Plan.node_mem_idsOf {dialect : Dialect} {ts : List Tree} {wire : Wire}
    (h : wire ∈ (ofTrees dialect ts).wires) : wire.node ∈ Tree.idsOf ts := by
  match ts with
  | [] =>
    rw [ofTrees] at h
    cases h
  | t :: rest =>
    rw [ofTrees] at h
    rcases mem_wires_andThen h with h | h
    · exact List.mem_append_left _ (node_mem_ids h)
    · exact List.mem_append_right _ (node_mem_idsOf h)

end

/-- Putting children back in the place that they were taken from. -/
theorem Document.appendChildren_detachChildren {d : Document κ} {n : NodeId}
    {children : List NodeId} (h : d.children n = children) :
    (d.detachChildren n).appendChildren n children = d := by
  unfold appendChildren detachChildren
  refine (Table.modify_modify d n.index _ _).trans (Table.modify_eq_self fun node hnode => ?_)
  have hchildren : node.children = children := by
    rw [← h, Document.children, Document.node, hnode]
    rfl
  rw [← hchildren]
  rfl

/-- **Compiling a tree is following its plan**, with nothing left over of how it is done. -/
theorem compile_eq (kit : Kit κ) {t : Tree} (hr : w.RecordedBy env kit.data)
    (ht : t.Of w.document) (hnodup : t.ids.Nodup) (hdepth : t.height ≤ env.depth)
    (hplain : (Plan.ofRoot kit.dialect t).Plain kit w.heap) : ∃ user,
    compile env kit t.id w = some ((Plan.ofRoot kit.dialect t).result,
      { w.following kit (Plan.ofRoot kit.dialect t).wires with user }) := by
  obtain ⟨root, content, count, children⟩ := t
  obtain ⟨hroot, _, hchildren, hall⟩ := ht
  obtain ⟨hnot, hnodup⟩ := List.nodup_cons.mp hnodup
  rw [Tree.height] at hdepth
  let wires := (Plan.ofTrees kit.dialect children).wires
  let bare : World κ σ := w.mapDocument fun d => d.detachChildren root
  let w₁ : World κ σ := { bare with held := [.object kit.data] ++ bare.held }
  let w₂ : World κ σ := w.following kit wires
  have hfirst : w.Follows kit w.document.size [] [root] bare :=
    .of_modifyNode (fun _ => rfl) fun _ => rfl
  have hall₁ : Tree.AllIn w₁.document children :=
    hfirst.allIn hall fun m hm hmem => hnot (List.mem_singleton.mp hmem ▸ hm)
  obtain ⟨user, hrun⟩ := compilesPlainly env kit w.document.size env.depth (w := w₁) hr
    hfirst.document.size hall₁ (Tree.AllIn.has hall) hnodup hdepth hplain
  -- no step is made at the root, so it makes no difference that its children were off meanwhile
  have hwires : ∀ wire ∈ wires, wire.node ≠ root := by
    intro wire hmem heq
    exact hnot (heq ▸ Plan.node_mem_idsOf hmem)
  have hkept : w₂.document.children root = children.map Tree.id := by
    rw [World.document_following, Document.children, node_foldl_mark_of_ne hroot hwires]
    exact hchildren
  have hdetached : w₁.following kit wires =
      { w₂ with document := w₂.document.detachChildren root, held := w₁.held } := by
    have hheld : w₁.following kit wires = { bare.following kit wires with held := w₁.held } :=
      World.following_held bare kit wires w₁.held
    have hdocument : bare.following kit wires = { w₂ with
        document := wires.foldl (Wire.mark kit w.heap) (w.document.detachChildren root) } :=
      World.following_document w kit wires _
    have hcomm : wires.foldl (Wire.mark kit w.heap) (w.document.detachChildren root) =
        (wires.foldl (Wire.mark kit w.heap) w.document).detachChildren root :=
      foldl_mark_modifyNode hroot _ hwires
    rw [hheld, hdocument, hcomm, ← World.document_following]
  rw [hdetached] at hrun
  refine ⟨user, ?_⟩
  unfold compile
  refine Run.bind_eq_some.mpr ⟨w, w, Run.get_eq_some.mpr ⟨rfl, rfl⟩, ?_⟩
  rw [Tree.id, hchildren]
  refine Run.bind_eq_some.mpr ⟨(), bare, Run.modify_eq_some.mpr rfl, ?_⟩
  refine Run.bind_eq_some.mpr ⟨_, _, Run.holding_eq_some.mpr ⟨_, hrun, rfl⟩, ?_⟩
  refine Run.bind_eq_some.mpr ⟨(), _, Run.modify_eq_some.mpr rfl, ?_⟩
  refine Run.pure_eq_some.mpr ⟨rfl, ?_⟩
  show { w₂ with
    document := (w₂.document.detachChildren root).appendChildren root (children.map Tree.id)
    held := w.held, user } = { w₂ with user }
  rw [Document.appendChildren_detachChildren hkept, ← w.held_following kit wires]

end DataBinding
