import DataBinding.Proofs.Descent
import DataBinding.Proofs.Faces
import DataBinding.Proofs.Recompiling
import Mathlib.Data.String.Basic

/-!
# Text content and its slices

The text content of an element is made of the texts inside it: those of the text nodes that are
reached through elements only, in document order. What stands in a comment or below a text is left
out, as it is not inside.

Every node inside an element contributes a slice of that text. What comes before the slice is read
off the nodes listed before the subtree, and what comes after it off those listed after. Setting the
text of a node changes the listing of its subtree and nothing inside the rest, so the slice becomes
the new text and the remainder stays.
-/

namespace DataBinding

variable {κ : Type}

/-- The text of a text node. -/
def Content.text? : Content → Option String
  | .text s => some s
  | _ => none

theorem Content.text?_of_isComment {c : Content} (h : c.isComment = true) : c.text? = none := by
  cases c with
  | comment => rfl
  | element | text => cases h

theorem Content.isElement_of_isComment {c : Content} (h : c.isComment = true) :
    c.isElement = false := by
  cases c with
  | comment => rfl
  | element | text => cases h

theorem Content.isComment_of_isElement {c : Content} (h : c.isElement = true) :
    c.isComment = false := by
  cases c with
  | element => rfl
  | text | comment => cases h

theorem Content.isComment_withText (text : String) (c : Content) :
    (c.withText text).isComment = c.isComment := by
  cases c <;> rfl

namespace Document

open Classical in
/-- The texts of the text nodes inside `n`, out of a list of nodes and in its order. -/
noncomputable def textInside (d : Document κ) (n : NodeId) (order : List NodeId) : String :=
  String.join (order.filterMap fun k => if d.Inside n k then (d.content k).text? else none)

variable {d d' : Document κ} {n m k : NodeId} {order : List NodeId}

theorem textInside_append (d : Document κ) (n : NodeId) (before after : List NodeId) :
    d.textInside n (before ++ after) = d.textInside n before ++ d.textInside n after := by
  simp only [textInside, String.join_eq, List.filterMap_append, List.map_append,
    List.flatten_append, String.ofList_append]

theorem textInside_congr
    (h : ∀ k ∈ order, d'.content k = d.content k ∧ (d'.Inside m k ↔ d.Inside n k)) :
    d'.textInside m order = d.textInside n order := by
  refine congrArg String.join (List.filterMap_congr fun k hk => ?_)
  obtain ⟨hcontent, hinside⟩ := h k hk
  by_cases hk : d.Inside n k
  · rw [if_pos hk, if_pos (hinside.mpr hk), hcontent]
  · rw [if_neg hk, if_neg fun hk' => hk (hinside.mp hk')]

theorem textInside_eq_empty (h : ∀ k ∈ order, d.Inside n k → (d.content k).text? = none) :
    d.textInside n order = "" := by
  unfold textInside
  rw [List.filterMap_eq_nil_iff.mpr]
  · rfl
  · intro k hk
    by_cases hinside : d.Inside n k
    · rw [if_pos hinside]
      exact h k hk hinside
    · rw [if_neg hinside]

/-- A node that has a text of its own contributes it where it is inside. -/
theorem textInside_singleton (h : d.Inside n k) :
    d.textInside n [k] = (d.content k).text?.getD "" := by
  unfold textInside
  rw [List.filterMap_cons, if_pos h]
  cases (d.content k).text? with
  | none => rfl
  | some s => simp [String.join]

/-- Nothing but itself is inside a node that is not an element. -/
theorem Inside.eq_of_isElement_eq_false (hn : (d.content n).isElement = false)
    (h : d.Inside n k) : k = n := by
  rcases Relation.ReflTransGen.cases_head h with heq | ⟨c, hstep, -⟩
  · exact heq.symm
  · rw [hn] at hstep
    cases hstep.1

end Document

namespace Tree

open Document

variable {d d' : Document κ} {n m k : NodeId}

/-! ## The text of a tree -/

mutual

/-- A tree is read off the document whole if the depth suffices. -/
theorem Of.text_treeWithin {t : Tree} (h : t.Of d) {depth : Nat} (hdepth : t.height ≤ depth) :
    (d.treeWithin depth t.id).text = t.text := by
  match t with
  | .node id content listeners children =>
    obtain ⟨depth, rfl⟩ : ∃ k, depth = k + 1 := ⟨depth - 1, by unfold height at hdepth; omega⟩
    obtain ⟨-, rfl, hchildren, hbelow⟩ := h
    rw [treeWithin, Tree.id, hchildren]
    cases d.content id with
    | text s | comment s => rfl
    | element tag attributes value =>
      exact AllIn.text_treeWithin hbelow (Nat.le_of_succ_le_succ hdepth)

theorem AllIn.text_treeWithin {ts : List Tree} (h : AllIn d ts) {depth : Nat}
    (hdepth : heightOf ts ≤ depth) :
    textOfChildren ((ts.map Tree.id).map (d.treeWithin depth)) = textOfChildren ts := by
  match ts with
  | [] => rfl
  | t :: rest =>
    have hcontent : d.content t.id = t.content := by
      cases t
      exact h.1.2.1
    obtain ⟨hfirst, hrest⟩ := Nat.max_le.mp hdepth
    rw [List.map_cons, List.map_cons, textOfChildren, textOfChildren, content_treeWithin, hcontent,
      Of.text_treeWithin h.1 hfirst, AllIn.text_treeWithin h.2 hrest]

end

/-- The text content of a node is the text of its tree. -/
theorem Of.textContent {t : Tree} (h : t.Of d) (hnodup : t.ids.Nodup) :
    d.textContent t.id = t.text :=
  h.text_treeWithin (height_le_size h hnodup)

/-- What is inside an element is the element itself or inside one of its children. -/
theorem Of.inside_iff {id : NodeId} {content : Content} {listeners : Nat} {children : List Tree}
    (h : (node id content listeners children).Of d) (helement : content.isElement = true)
    (hk : k ≠ id) : d.Inside id k ↔ ∃ c ∈ children, k ∈ c.ids ∧ d.Inside c.id k := by
  obtain ⟨-, rfl, hchildren, hbelow⟩ := h
  constructor
  · intro hinside
    rcases Relation.ReflTransGen.cases_head hinside with heq | ⟨_, hstep, hrest⟩
    · exact absurd heq.symm hk
    · rw [hchildren] at hstep
      obtain ⟨c, hc, rfl⟩ := List.mem_map.mp hstep.2
      exact ⟨c, hc, (hbelow.of_mem c hc).mem_of_below c.id_mem_ids (Inside.below hrest), hrest⟩
  · rintro ⟨c, hc, -, hrest⟩
    refine .head ⟨helement, ?_⟩ hrest
    rw [hchildren]
    exact List.mem_map_of_mem hc

mutual

/-- The text of a tree is made of the texts inside it. -/
theorem Of.text_eq {t : Tree} (h : t.Of d) (hnodup : t.ids.Nodup)
    (hkind : t.content.isComment = false) : t.text = d.textInside t.id t.ids := by
  match t with
  | .node id content listeners children =>
    obtain ⟨hapart, hrest⟩ := List.nodup_cons.mp hnodup
    have hcontent : d.content id = content := h.2.1
    have hself : d.textInside id [id] = content.text?.getD "" :=
      hcontent ▸ textInside_singleton .refl
    show _ = d.textInside id ([id] ++ idsOf children)
    rw [textInside_append, hself]
    cases content with
    | comment s => cases hkind
    | text s =>
      have hbelow : d.textInside id (idsOf children) = "" := by
        refine textInside_eq_empty fun k hk hinside => absurd hk ?_
        rw [hinside.eq_of_isElement_eq_false (by rw [hcontent]; rfl)]
        exact hapart
      rw [hbelow]
      simp [Tree.text, Content.text?]
    | element tag attributes value =>
      have hbelow := AllIn.text_eq h.2.2.2 hrest fun k hk =>
        h.inside_iff rfl fun heq => hapart (heq ▸ hk)
      rw [Tree.text, hbelow]
      simp [Content.text?]

/-- The texts of trees in a row are what is inside a node that has them for children. -/
theorem AllIn.text_eq {n : NodeId} {ts : List Tree} (h : AllIn d ts) (hnodup : (idsOf ts).Nodup)
    (hinside : ∀ k ∈ idsOf ts, d.Inside n k ↔ ∃ c ∈ ts, k ∈ c.ids ∧ d.Inside c.id k) :
    textOfChildren ts = d.textInside n (idsOf ts) := by
  match ts with
  | [] => rfl
  | t :: rest =>
    obtain ⟨hfirst, hrest, hapart⟩ := List.nodup_append.mp hnodup
    have hinsideFirst : ∀ k ∈ t.ids, d.Inside n k ↔ d.Inside t.id k := by
      intro k hk
      rw [hinside k (List.mem_append_left _ hk)]
      constructor
      · rintro ⟨c, hc, hkc, hck⟩
        rcases List.mem_cons.mp hc with rfl | hc
        · exact hck
        · exact absurd rfl (hapart k hk k (mem_idsOf hc hkc))
      · exact fun htk => ⟨t, List.mem_cons_self, hk, htk⟩
    have hinsideRest : ∀ k ∈ idsOf rest,
        d.Inside n k ↔ ∃ c ∈ rest, k ∈ c.ids ∧ d.Inside c.id k := by
      intro k hk
      rw [hinside k (List.mem_append_right _ hk)]
      constructor
      · rintro ⟨c, hc, hkc, hck⟩
        rcases List.mem_cons.mp hc with rfl | hc
        · exact absurd rfl (hapart k hkc k hk)
        · exact ⟨c, hc, hkc, hck⟩
      · rintro ⟨c, hc, hck⟩
        exact ⟨c, List.mem_cons_of_mem _ hc, hck⟩
    rw [textOfChildren, idsOf, textInside_append, AllIn.text_eq h.2 hrest hinsideRest]
    congr 1
    split
    · next hcomment =>
      -- only the comment itself is inside it
      refine (textInside_eq_empty fun k hk hnk => ?_).symm
      have hkind : (d.content t.id).isComment = true := h.1.content_id ▸ hcomment
      have hkt := ((hinsideFirst k hk).mp hnk).eq_of_isElement_eq_false
        (Content.isElement_of_isComment hkind)
      rw [hkt]
      exact Content.text?_of_isComment hkind
    · next hcomment =>
      rw [Of.text_eq h.1 hfirst (by simpa using hcomment)]
      exact (textInside_congr fun k hk => ⟨rfl, hinsideFirst k hk⟩).symm

end

/-! ## Slices -/

section

variable {t t' u v : Tree} {before after : List NodeId}

/-- The text content of any node of a tree is made of the texts inside it, wherever it stands. -/
theorem Of.textContent_eq (h : t.Of d) (hnodup : t.ids.Nodup) (hm : m ∈ t.ids)
    (hkind : (d.content m).isComment = false) : d.textContent m = d.textInside m t.ids := by
  obtain ⟨u, before, after, hu, rfl, hids, -⟩ := h.exists_graft hm
  have hpart : Part d t u before after := ⟨h, hnodup, hu, hids⟩
  have hnone : ∀ k ∈ before ++ after, d.Inside u.id k → (d.content k).text? = none :=
    fun k hk hinside => absurd (Inside.below hinside) (hpart.not_below hk)
  have hbefore : d.textInside u.id before = "" :=
    textInside_eq_empty fun k hk => hnone k (List.mem_append_left _ hk)
  have hafter : d.textInside u.id after = "" :=
    textInside_eq_empty fun k hk => hnone k (List.mem_append_right _ hk)
  rw [hu.textContent hpart.sub_nodup, hu.text_eq hpart.sub_nodup (hu.content_id ▸ hkind), hids,
    textInside_append, textInside_append, hbefore, hafter, String.empty_append,
    String.append_empty]

/-- A node inside another contributes its text content, between the texts listed before its subtree
and those listed after it. -/
theorem Part.textContent_slice (h : Part d t u before after)
    (hkind : (d.content u.id).isComment = false) (hm : m ∈ t.ids) (hmu : d.Inside m u.id) :
    d.textContent m =
      d.textInside m before ++ d.textContent u.id ++ d.textInside m after := by
  have hmkind : (d.content m).isComment = false := by
    rcases Relation.ReflTransGen.cases_head hmu with rfl | ⟨c, hstep, -⟩
    · exact hkind
    · exact Content.isComment_of_isElement hstep.1
  have hmiddle : d.textInside m u.ids = d.textContent u.id := by
    rw [h.sub.textContent_eq h.sub_nodup u.id_mem_ids hkind]
    exact textInside_congr fun k hk => ⟨rfl, h.inside_of_mem hm hmu hk, hmu.trans⟩
  rw [h.of.textContent_eq h.nodup hm hmkind, h.ids_eq, textInside_append, textInside_append,
    hmiddle]

/-- Where another part with the same top stands in the place of a part, and the rest is the same,
the slice at that top is all that differs. -/
theorem Part.textContent_swap (h : Part d t u before after) (h' : Part d' t' v before after)
    (hid : v.id = u.id) (hkind : (d'.content u.id).isComment = false)
    (hsame : ∀ k ∈ before ++ after, d'.node k = d.node k) (hm : m ∈ t.ids)
    (hmu : d.Inside m u.id) :
    d'.textContent m =
      d.textInside m before ++ d'.textContent u.id ++ d.textInside m after := by
  have hrest : ∀ k ∈ t.ids, ¬ d.Below u.id k → d'.node k = d.node k := fun k hk hbelow =>
    hsame k ((h.mem_iff.mp hk).resolve_right fun hku => hbelow (h.sub.below_iff.mpr hku))
  have hrest' : ∀ k ∈ t'.ids, ¬ d'.Below v.id k → d.node k = d'.node k := fun k hk hbelow =>
    (hsame k ((h'.mem_iff.mp hk).resolve_right fun hkv =>
      hbelow (h'.sub.below_iff.mpr hkv))).symm
  have hmv : d'.Inside m v.id := hid ▸ h.inside_top_of_same hm hrest hmu
  have hm' : m ∈ t'.ids := by
    by_cases hmtop : m = u.id
    · rw [hmtop, ← hid]
      exact h'.sublist.subset v.id_mem_ids
    · exact h'.mem_iff.mpr (.inl (h.mem_around_of_inside hm hmu hmtop))
  have hother : ∀ k ∈ before ++ after,
      d'.content k = d.content k ∧ (d'.Inside m k ↔ d.Inside m k) := fun k hk =>
    ⟨congrArg Node.content (hsame k hk), h'.of.inside_of_same hm' hrest' (h'.not_below hk),
      h.of.inside_of_same hm hrest (h.not_below hk)⟩
  rw [h'.textContent_slice (hid ▸ hkind) hm' hmv, hid,
    textInside_congr fun k hk => hother k (List.mem_append_left _ hk),
    textInside_congr fun k hk => hother k (List.mem_append_right _ hk)]

/-! ## Setting a text -/

/-- An element with a text in the place of its children has a tree with that text, where only the
top is an old node. -/
theorem exists_of_hasTextBelow {size : Nat} {text : String} (h : d.HasTextBelow size n text)
    (hn : d.has n) (hold : n.index < size) (helement : (d.content n).isElement = true) :
    ∃ v : Tree, v.Of d ∧ v.id = n ∧ v.text = text ∧ v.ids.Nodup ∧
      ∀ k ∈ v.ids, k.index < size → k = n := by
  cases hc : d.content n with
  | text s | comment s =>
    rw [hc] at helement
    cases helement
  | element tag attributes value =>
    rcases h with ⟨hchildren, rfl⟩ | ⟨m, hlate, hm, hchildren, hcontent, hleaf⟩
    · exact ⟨.node n (.element tag attributes value) 0 [], ⟨hn, hc, hchildren, trivial⟩, rfl, rfl,
        List.nodup_singleton n, fun k hk _ => List.mem_singleton.mp hk⟩
    · have hne : m ≠ n := by
        rintro rfl
        omega
      have hbelow : (node m (.text text) 0 []).Of d := ⟨hm, hcontent, hleaf, trivial⟩
      refine ⟨.node n (.element tag attributes value) 0 [.node m (.text text) 0 []],
        ⟨hn, hc, hchildren, hbelow, trivial⟩, rfl, ?_, ?_, ?_⟩
      · simp [Tree.text, textOfChildren, Tree.content, Content.isComment]
      · simp [ids, idsOf, hne.symm]
      · intro k hk hkold
        rcases List.mem_cons.mp hk with rfl | hk
        · rfl
        · rw [List.mem_singleton.mp hk] at hkold
          omega

/-- After its text is set a node has a tree with that text, without any node that was elsewhere
before. -/
theorem Of.exists_setText (hu : u.Of d) (hnodup : u.ids.Nodup)
    (hkind : (d.content u.id).isComment = false) (s : String) :
    ∃ v : Tree, v.Of (d.setText u.id s) ∧ v.id = u.id ∧ v.text = s ∧ v.ids.Nodup ∧
      ∀ k ∈ v.ids, d.has k → k ∈ u.ids := by
  have hhas : d.has u.id := hu.has u.id u.id_mem_ids
  have hhas' := (Document.Extends.setText d u.id s).has hhas
  have hcontent' := Document.content_setText d u.id s hhas
  rw [if_pos rfl] at hcontent'
  cases hc : d.content u.id with
  | comment old =>
    rw [hc] at hkind
    cases hkind
  | text old =>
    obtain ⟨id, content, listeners, children⟩ := u
    obtain ⟨-, -, hchildren, hbelow⟩ := hu
    obtain ⟨hapart, -⟩ := List.nodup_cons.mp hnodup
    rw [hc] at hcontent'
    have hbelow' : AllIn (d.setText id s) children :=
      hbelow.of_node_eq (Document.Extends.setText d id s) fun k hk =>
        Document.node_setText_of_ne s (hbelow.has k hk) fun heq => hapart (heq ▸ hk)
    exact ⟨.node id (.text s) listeners children, ⟨hhas', hcontent',
      (Document.children_setText_of_isText hc s).trans hchildren, hbelow'⟩, rfl, rfl, hnodup,
      fun k hk _ => hk⟩
  | element tag attributes value =>
    have helement : (d.content u.id).isElement = true := by
      rw [hc]
      rfl
    rw [Content.withText_of_isElement helement] at hcontent'
    obtain ⟨v, hv, hid, htext, hvnodup, hold⟩ := exists_of_hasTextBelow
      (hasTextBelow_setText hhas helement s) hhas' hhas (hcontent' ▸ helement)
    exact ⟨v, hv, hid, htext, hvnodup, fun k hk hkhas => hold k hk hkhas ▸ u.id_mem_ids⟩

end

end Tree

namespace Document

/-- **The text content of an element is made of the texts inside it, in document order. Setting the
text of a node with elements only above it puts that text in the place of the slice that the node
contributes to each of them, and changes no other node.** -/
theorem textContent_setText {d : Document κ} {t : Tree} (ht : t.Of d) (hnodup : t.ids.Nodup) :
    (∀ m ∈ t.ids, (d.content m).isElement = true → d.textContent m = d.textInside m t.ids) ∧
      ∀ n ∈ t.ids, (d.content n).isComment = false →
        (∀ m ∈ t.ids, d.Below m n → m ≠ n → (d.content m).isElement = true) →
        ∃ before below after, t.ids = before ++ below ++ after ∧ (∀ k, k ∈ below ↔ d.Below n k) ∧
          ∀ s, (d.setText n s).textContent n = s ∧
            (∀ m ∈ t.ids, d.Below m n →
              d.textContent m =
                d.textInside m before ++ d.textContent n ++ d.textInside m after ∧
              (d.setText n s).textContent m =
                d.textInside m before ++ s ++ d.textInside m after) ∧
            ∀ m, d.has m → m ≠ n → (d.setText n s).node m = d.node m := by
  refine ⟨fun m hm helement => ?_, fun n hn hkind habove => ?_⟩
  · exact ht.textContent_eq hnodup hm (Content.isComment_of_isElement helement)
  · obtain ⟨u, before, after, hu, rfl, hids, hgraft⟩ := ht.exists_graft hn
    have hpart : Tree.Part d t u before after := ⟨ht, hnodup, hu, hids⟩
    refine ⟨before, u.ids, after, hids, fun k => hu.below_iff.symm, fun s => ?_⟩
    have hsame : ∀ m, d.has m → m ≠ u.id → (d.setText u.id s).node m = d.node m :=
      fun m hm hne => node_setText_of_ne s hm (Ne.symm hne)
    have haround : ∀ k ∈ before ++ after, (d.setText u.id s).node k = d.node k := fun k hk =>
      hsame k (ht.has k (hpart.mem_iff.mpr (.inl hk))) fun heq =>
        hpart.not_mem hk (heq ▸ u.id_mem_ids)
    -- below the node there is another tree now, which is grafted where the old one was
    obtain ⟨v, hv, hid, htext, hvnodup, hold⟩ := hu.exists_setText hpart.sub_nodup hkind s
    obtain ⟨t', ht', -, hids'⟩ := hgraft _ v (.setText d u.id s) hv hid haround
    have hpart' : Tree.Part (d.setText u.id s) t' v before after :=
      ⟨ht', hids' ▸ hpart.nodup_of_mem hvnodup hold, hv, hids'⟩
    have htext' : (d.setText u.id s).textContent u.id = s := by
      have := hv.textContent hvnodup
      rwa [hid, htext] at this
    have hkind' : ((d.setText u.id s).content u.id).isComment = false := by
      rw [content_setText d u.id s (hu.has u.id u.id_mem_ids), if_pos rfl,
        Content.isComment_withText, hkind]
    refine ⟨htext', fun m hm hbelow => ?_, hsame⟩
    have hinside := ht.inside_of_below hm habove hbelow
    refine ⟨hpart.textContent_slice hkind hm hinside, ?_⟩
    rw [hpart.textContent_swap hpart' hid hkind' haround hm hinside, htext']

namespace Greeting

/-- An element around a text, a comment and an element with a text. -/
def page : Document Unit :=
  ⟨#[{ content := .element "div" ∅ "", children := [⟨1⟩, ⟨2⟩, ⟨3⟩] },
    { content := .text "Hello, " }, { content := .comment "who" },
    { content := .element "b" ∅ "", children := [⟨4⟩] }, { content := .text "you" }]⟩

/-- The tree of the page. -/
def tree : Tree :=
  .node ⟨0⟩ (.element "div" ∅ "") 0
    [.node ⟨1⟩ (.text "Hello, ") 0 [], .node ⟨2⟩ (.comment "who") 0 [],
      .node ⟨3⟩ (.element "b" ∅ "") 0 [.node ⟨4⟩ (.text "you") 0 []]]

theorem tree_of : tree.Of page := by
  refine ⟨by decide, rfl, rfl, ?_, ?_, ?_, trivial⟩
  · exact ⟨by decide, rfl, rfl, trivial⟩
  · exact ⟨by decide, rfl, rfl, trivial⟩
  · exact ⟨by decide, rfl, rfl, ⟨by decide, rfl, rfl, trivial⟩, trivial⟩

theorem isElement_of_below {m : NodeId} (hm : m ∈ tree.ids) (h : page.Below m ⟨3⟩)
    (hne : m ≠ ⟨3⟩) : (page.content m).isElement = true := by
  have hall : ∀ m ∈ tree.ids, page.children m = [] ∨ (page.content m).isElement = true := by decide
  exact (hall m hm).resolve_left fun hleaf => hne (h.eq_of_leaf hleaf).symm

end Greeting

theorem textContent_setText_greeting :
    ∃ before after, Greeting.page.textContent ⟨0⟩ = before ++ "you" ++ after ∧
      (Greeting.page.setText ⟨3⟩ "world").textContent ⟨0⟩ = before ++ "world" ++ after ∧
      (Greeting.page.setText ⟨3⟩ "world").textContent ⟨3⟩ = "world" := by
  obtain ⟨-, hset⟩ := textContent_setText Greeting.tree_of (by decide)
  obtain ⟨before, below, after, -, hbelow, hslice⟩ := hset ⟨3⟩ (by decide) rfl
    fun m hm h hne => Greeting.isElement_of_below hm h hne
  obtain ⟨htext, habove, -⟩ := hslice "world"
  obtain ⟨hold, hnew⟩ := habove ⟨0⟩ (by decide) (Greeting.tree_of.below (by decide))
  exact ⟨_, _, hold, hnew, htext⟩

end Document

end DataBinding
