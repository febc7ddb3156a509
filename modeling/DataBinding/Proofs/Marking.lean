import DataBinding.Proofs.Portraits

/-!
# What bindings leave at a page

The bindings that a page asks for, made one after the other, leave a document that shows the page
with the texts that the data gives. At one node the last model and the last text count. What is done
to a node is not undone by the bindings of others.
-/

namespace DataBinding

variable {κ : Type} {kit : Kit κ} {h : Heap κ}

theorem foldl_mark_extends (kit : Kit κ) (h : Heap κ) (wires : List Wire) (d : Document κ) :
    d.Extends (wires.foldl (Wire.mark kit h) d) := by
  induction wires generalizing d with
  | nil => exact .refl d
  | cons wire rest ih => exact (wire.mark_extends kit h d).trans (ih _)

/-! ## A node -/

/-- What attributes leave at their element. -/
structure Document.MarkedAt (d d' : Document κ) (kit : Kit κ) (h : Heap κ) (size : Nat)
    (n : NodeId) (attributes : List (String × String)) : Prop where
  document : d.Extends d'
  content : d'.content n = (d.content n).setValue
    (((Plan.directive? .model kit.dialect attributes).map (kit.texts h).slot).getD
      (d.content n).value)
  listeners : (d'.node n).listeners.length =
    (d.node n).listeners.length + Plan.listenerCount kit.dialect attributes
  below : match Plan.directive? .text kit.dialect attributes with
    | some expression => d'.IsTextBelow size n (kit.textFor h expression)
    | none => d'.children n = d.children n

theorem Directive.content_mark {d : Document κ} {n : NodeId} (hn : d.has n)
    (helement : (d.content n).isElement = true) (expression : String) (directive : Directive) :
    (directive.mark kit h n expression d).content n =
      if directive = .model then (d.content n).setValue ((kit.texts h).slot expression)
      else d.content n := by
  cases directive with
  | model =>
    rw [if_pos rfl]
    show ((d.addListener n _ _).setValue n _).content n = _
    have hhas := (Document.Extends.addListener d n "input"
      (.writeBack kit.data (Text.trim expression))).has hn
    rw [Document.content_setValue, if_pos ⟨rfl, hhas⟩, Document.content_addListener]
    rfl
  | text =>
    rw [if_neg (by simp)]
    show (d.setText n _).content n = _
    rw [Document.content_setText d n _ hn, if_pos rfl]
    cases hc : d.content n with
    | element tag attributes value => rfl
    | text s => rw [hc] at helement; cases helement
    | comment s => rw [hc] at helement; cases helement
  | on event =>
    rw [if_neg (by simp)]
    exact Document.content_addListener d n _ _ n

theorem Content.setValue_value (c : Content) : c.setValue c.value = c := by
  cases c <;> rfl

theorem Content.setValue_setValue (c : Content) (u v : String) :
    (c.setValue u).setValue v = c.setValue v := by
  cases c <;> rfl

/-- What one more attribute leaves, before the others. -/
theorem Document.MarkedAt.cons {size : Nat} {attributes : List (String × String)}
    {name expression : String} {directive : Directive} {d d' : Document κ} {n : NodeId}
    (hsize : size ≤ d.size) (hn : d.has n) (helement : (d.content n).isElement = true)
    (hparse : Directive.parse name kit.dialect = .ok (some directive))
    (h' : (directive.mark kit h n expression d).MarkedAt d' kit h size n attributes)
    (hlate : ∀ m, (directive.mark kit h n expression d).has m → size ≤ m.index →
      d'.node m = (directive.mark kit h n expression d).node m) :
    d.MarkedAt d' kit h size n ((name, expression) :: attributes) := by
  obtain ⟨hextends, hcontent, hlisteners, hbelow⟩ := h'
  obtain ⟨hextends₁, _, hlisteners₁⟩ := directive.mark_frame kit h expression hn
  have hlength := congrArg List.length (hlisteners₁ n)
  rw [if_pos rfl, List.length_append, Directive.length_listeners] at hlength
  refine ⟨hextends₁.trans hextends, ?_, ?_, ?_⟩
  · rw [hcontent, Directive.content_mark hn helement]
    simp only [Plan.directive?, hparse]
    by_cases hmodel : directive = .model
    · -- the last model counts
      rw [if_pos hmodel, if_pos hmodel]
      cases Plan.directive? .model kit.dialect attributes with
      | none => exact Content.setValue_value _
      | some e => exact Content.setValue_setValue _ _ _
    · rw [if_neg hmodel, if_neg hmodel]
  · rw [hlisteners, hlength]
    simp only [Plan.listenerCount, hparse]
    omega
  · simp only [Plan.directive?, hparse]
    by_cases htext : directive = .text
    · subst htext
      rw [if_pos rfl]
      cases hlater : Plan.directive? .text kit.dialect attributes with
      | some e =>
        -- the last text counts too
        rw [hlater] at hbelow
        exact hbelow
      | none =>
        rw [hlater] at hbelow
        exact (Document.isTextBelow_setText hsize hn helement _).of_children hextends hbelow hlate
    · have hkept := directive.mark_below kit h expression hn helement
      rw [if_neg htext] at hkept ⊢
      rw [hkept] at hbelow
      exact hbelow

/-- Once its attributes have been bound, a node is marked as they say. -/
theorem markedAt_foldl {size : Nat} (attributes : List (String × String)) {d : Document κ}
    {n : NodeId} (hsize : size ≤ d.size) (hn : d.has n) (hearly : n.index < size)
    (helement : (d.content n).isElement = true)
    (hok : (Plan.ofAttributes kit.dialect n attributes).result = .ok ()) :
    d.MarkedAt ((Plan.ofAttributes kit.dialect n attributes).wires.foldl (Wire.mark kit h) d)
      kit h size n attributes := by
  induction attributes generalizing d with
  | nil => exact ⟨.refl d, (Content.setValue_value _).symm, rfl, rfl⟩
  | cons entry rest ih =>
    obtain ⟨name, expression⟩ := entry
    unfold Plan.ofAttributes at hok ⊢
    cases hparse : Directive.parse name kit.dialect with
    | error e =>
      rw [hparse] at hok
      cases hok
    | ok found =>
      rw [hparse] at hok
      cases found with
      | none =>
        obtain ⟨hextends, hcontent, hlisteners, hbelow⟩ := ih hsize hn helement hok
        refine ⟨hextends, ?_, ?_, ?_⟩
        · rw [hcontent]
          simp only [Plan.directive?, hparse]
        · rw [hlisteners]
          simp only [Plan.listenerCount, hparse]
        · simp only [Plan.directive?, hparse]
          exact hbelow
      | some directive =>
        have hok : (Plan.ofAttributes kit.dialect n rest).result = .ok () := hok
        have hextends := (directive.mark_frame kit h expression hn).1
        refine .cons hsize hn helement hparse (ih (Nat.le_trans hsize hextends.size)
          (hextends.has hn) (hextends.isElement hn helement) hok) fun m hm hlate => ?_
        refine node_foldl_mark_of_ne hm fun wire hwire heq => ?_
        -- the node itself is not new
        rw [← heq, Plan.node_of_mem_ofAttributes hwire] at hlate
        omega

/-- The bindings of a node make it as computed. -/
theorem showsNode_foldl {size : Nat} {d : Document κ} {n : NodeId} {content : Content}
    {listeners : Nat} {children : List NodeId} (hsize : size ≤ d.size) (hn : d.has n)
    (hearly : n.index < size) (hcontent : d.content n = content)
    (hlisteners : (d.node n).listeners.length = listeners) (hchildren : d.children n = children)
    (hok : (Plan.ofContent kit.dialect n content).result = .ok ()) :
    ((Plan.ofContent kit.dialect n content).wires.foldl (Wire.mark kit h) d).ShowsNode
      kit.dialect size (kit.texts h) n content listeners children := by
  -- an element is marked by its attributes, a text by its template, a comment not at all
  cases content with
  | element tag attributes value =>
    have helement : (d.content n).isElement = true := by rw [hcontent]; rfl
    have hmarked := markedAt_foldl (h := h) attributes.entries hsize hn hearly helement hok
    refine ⟨hmarked.document.has hn, ?_, ?_, ?_⟩
    · refine hmarked.content.trans ?_
      rw [hcontent]
      rfl
    · refine hmarked.listeners.trans ?_
      rw [hlisteners]
      rfl
    · have hbelow := hmarked.below
      rw [← Plan.textDirective?_eq, hchildren] at hbelow
      exact hbelow
  | text s =>
    cases hdetect : Template.detect s kit.dialect with
    | true =>
      rw [Plan.ofContent_text_of_detect hdetect]
      show (d.setText n (kit.textFor h s)).ShowsNode _ _ _ _ _ _ _
      refine ⟨(Document.Extends.setText d n _).has hn, ?_, ?_, ?_⟩
      · rw [Document.content_setText d n _ hn, if_pos rfl, hcontent]
        simp only [Content.withText, Content.showing, hdetect, if_pos]
        rfl
      · rw [Document.listeners_setText, hlisteners]
        rfl
      · exact (Document.children_setText_of_isText hcontent _).trans hchildren
    | false =>
      rw [Plan.ofContent_text_of_not_detect hdetect]
      refine ⟨hn, hcontent.trans ?_, hlisteners, hchildren⟩
      simp only [Content.showing, hdetect, Bool.false_eq_true, if_false]
  | comment s => exact ⟨hn, hcontent, hlisteners, hchildren⟩

/-! ## Trees -/

namespace Tree

mutual

/-- The bindings of a page make the document show it. -/
theorem shows_foldl {size : Nat} {d : Document κ} {t : Tree} (hsize : size ≤ d.size)
    (ht : t.Of d) (hlisten : t.ListensIn d) (hnodup : t.ids.Nodup)
    (hearly : ∀ n ∈ t.ids, n.index < size) (hok : (Plan.ofTree kit.dialect t).result = .ok ()) :
    t.Shows ((Plan.ofTree kit.dialect t).wires.foldl (Wire.mark kit h) d) kit.dialect size
      fun _ => kit.texts h := by
  match t with
  | .node id content listeners children =>
    obtain ⟨hhas, hcontent, hchildren, hall⟩ := ht
    obtain ⟨hlisteners, hlisten⟩ := hlisten
    obtain ⟨hnot, hnodup⟩ := List.nodup_cons.mp hnodup
    have hid := hearly id List.mem_cons_self
    rw [Plan.ofTree] at hok ⊢
    have hleft := Plan.result_left hok
    have hright := Plan.result_right hok
    rw [Plan.wires_andThen hleft, List.foldl_append]
    have hnode := showsNode_foldl (h := h) hsize hhas hid hcontent hlisteners hchildren hleft
    have hextends := foldl_mark_extends kit h (Plan.ofContent kit.dialect id content).wires d
    -- the node's own bindings leave the nodes below it alone
    have hsame : ∀ n ∈ idsOf children, ((Plan.ofContent kit.dialect id content).wires.foldl
        (Wire.mark kit h) d).node n = d.node n := by
      intro n hn
      refine node_foldl_mark_of_ne (AllIn.has hall n hn) fun wire hwire heq => ?_
      rw [Plan.node_of_mem_ofContent hwire] at heq
      exact hnot (heq ▸ hn)
    cases hreplacement : Plan.replacement? kit.dialect content with
    | some expression =>
      refine ⟨hnode, fun hnone => ?_⟩
      rw [hreplacement] at hnone
      cases hnone
    | none =>
      rw [hreplacement] at hright
      have hbelow : ∀ wire ∈ (Plan.ofTrees kit.dialect children).wires,
          wire.node ∈ idsOf children := fun wire hwire => Plan.node_mem_idsOf hwire
      refine ⟨?_, fun _ => ?_⟩
      · refine hnode.of_node (foldl_mark_extends kit h _ _) ?_ fun m hm hlate => ?_
        · refine node_foldl_mark_of_ne hnode.has fun wire hwire heq => ?_
          exact hnot (heq ▸ hbelow wire hwire)
        · refine node_foldl_mark_of_ne hm fun wire hwire heq => ?_
          have := hearly m (List.mem_cons_of_mem _ (heq ▸ hbelow wire hwire))
          omega
      · exact allShow_foldl (Nat.le_trans hsize hextends.size) (hall.of_node_eq hextends hsame)
          (hlisten.of_node_eq hsame) hnodup (fun n hn => hearly n (List.mem_cons_of_mem _ hn))
          hright

/-- Once the plan of some trees has been followed, their nodes show what they should. -/
theorem allShow_foldl {size : Nat} {d : Document κ} {ts : List Tree} (hsize : size ≤ d.size)
    (hts : AllIn d ts) (hlisten : AllListenIn d ts) (hnodup : (idsOf ts).Nodup)
    (hearly : ∀ n ∈ idsOf ts, n.index < size)
    (hok : (Plan.ofTrees kit.dialect ts).result = .ok ()) :
    AllShow ((Plan.ofTrees kit.dialect ts).wires.foldl (Wire.mark kit h) d) kit.dialect size
      (fun _ => kit.texts h) ts := by
  match ts with
  | [] => trivial
  | t :: rest =>
    obtain ⟨ht, hrest⟩ := hts
    obtain ⟨hlisten, hlistenRest⟩ := hlisten
    obtain ⟨hnodup, hnodupRest, hapart⟩ := List.nodup_append.mp hnodup
    rw [Plan.ofTrees] at hok ⊢
    have hleft := Plan.result_left hok
    rw [Plan.wires_andThen hleft, List.foldl_append]
    have hearlyTree : ∀ n ∈ t.ids, n.index < size := fun n hn =>
      hearly n (List.mem_append_left _ hn)
    have hextends := foldl_mark_extends kit h (Plan.ofTree kit.dialect t).wires d
    have hsame : ∀ n ∈ idsOf rest, ((Plan.ofTree kit.dialect t).wires.foldl
        (Wire.mark kit h) d).node n = d.node n := by
      intro n hn
      refine node_foldl_mark_of_ne (AllIn.has hrest n hn) fun wire hwire heq => ?_
      exact hapart _ (Plan.node_mem_ids hwire) n hn heq
    have hfirst := shows_foldl hsize ht hlisten hnodup hearlyTree hleft
    refine ⟨?_, ?_⟩
    · -- the bindings of the other trees leave this one alone
      refine hfirst.of_nodes (foldl_mark_extends kit h _ _) (fun m hm hlate => ?_)
        (fun n hn hm => ?_) fun _ _ => rfl
      · refine node_foldl_mark_of_ne hm fun wire hwire heq => ?_
        have := hearly m (List.mem_append_right _ (heq ▸ Plan.node_mem_idsOf hwire))
        omega
      · refine node_foldl_mark_of_ne hm fun wire hwire heq => ?_
        exact hapart n hn _ (Plan.node_mem_idsOf hwire) heq.symm
    · exact allShow_foldl (Nat.le_trans hsize hextends.size) (hrest.of_node_eq hextends hsame)
        (hlistenRest.of_node_eq hsame) hnodupRest
        (fun n hn => hearly n (List.mem_append_right _ hn)) (Plan.result_right hok)

end

end Tree

end DataBinding
