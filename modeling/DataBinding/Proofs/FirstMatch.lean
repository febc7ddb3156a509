import DataBinding.Proofs.Properties
import DataBinding.Proofs.Selectors

/-!
# Mounting on the first match

Of the nodes strictly below the one where a search starts, the search finds the first in document
order that the selector asks for. An app that is mounted by selector is mounted on that node as if
the node had been given. No other step of mounting ends in the error of a place that is not there,
so that error means that there is no match.
-/

namespace DataBinding

variable {κ σ : Type} {env : Env κ σ} {kit : Kit κ} {w w' : World κ σ} {hook : Hook κ}
  {document n : NodeId} {selector text : String}

/-- Compiling a node never fails for want of a root. -/
theorem compile_ne_rootNotFound {root : NodeId} :
    compile env kit root w ≠ some (.error (.rootNotFound text), w') := by
  intro hcompile
  obtain ⟨name, hparse⟩ := compile_error hcompile
  exact Directive.parse_ne_rootNotFound name kit.dialect text hparse

/-- A selector mounts at the first match. -/
theorem Mount.resolve_of_query {d : Document κ} (h : d.query document selector = some n) :
    (Mount.selector document selector).resolve d = .ok n := by
  simp only [resolve, h]

theorem Mount.resolve_of_query_eq_none {d : Document κ} (h : d.query document selector = none) :
    (Mount.selector document selector).resolve d = .error (.rootNotFound selector) := by
  simp only [resolve, h]

/-- Mounting by selector is mounting on what the search finds. -/
theorem mount_of_query (h : w.document.query document selector = some n) (env : Env κ σ)
    (hook : Hook κ) (kit : Kit κ) :
    mount env (.selector document selector) hook kit w = mount env (.node n) hook kit w := by
  have hnode : (Mount.node n).resolve w.document = .ok n := rfl
  rw [mount_of_ok (Mount.resolve_of_query h), mount_of_ok hnode]

/-- The place is not there exactly if the search finds nothing, and then nothing is touched. -/
theorem mount_eq_rootNotFound_iff :
    mount env (.selector document selector) hook kit w = some (.error (.rootNotFound text), w') ↔
      w.document.query document selector = none ∧ text = selector ∧ w' = w := by
  constructor
  · intro hm
    rcases mount_cases hm with ⟨e, hplace, hanswer, hsame⟩ | ⟨root, result, _, hcompile, hanswer⟩
    · obtain rfl := Except.error.inj hanswer
      cases hquery : w.document.query document selector with
      | some n =>
        rw [Mount.resolve_of_query hquery] at hplace
        cases hplace
      | none =>
        rw [Mount.resolve_of_query_eq_none hquery] at hplace
        exact ⟨rfl, (ViewError.rootNotFound.inj (Except.error.inj hplace)).symm, hsame⟩
    · cases result with
      | ok u => cases hanswer
      | error e =>
        obtain rfl := Except.error.inj hanswer
        exact absurd hcompile compile_ne_rootNotFound
  · rintro ⟨hquery, rfl, rfl⟩
    exact mount_of_error (Mount.resolve_of_query_eq_none hquery) env hook kit

/-- **A search finds the first match in document order, and an app is mounted there.** What a tree
lists after its top are the nodes strictly below it, those below texts and comments among them. The
search finds the first of them that the selector asks for, and finds nothing only if it asks for
none of them. Mounting by selector is mounting on the node that is found; it ends in the error of a
place that is not there exactly if there is no match, and then the world is as it was. -/
theorem query_finds_first {t : Tree} (ht : t.Of w.document) (selector : String) :
    ∃ below, t.ids = t.id :: below ∧ t.id ∉ below ∧
      (∀ k, k ∈ below ↔ w.document.StrictlyBelow t.id k) ∧
      (∀ n, w.document.query t.id selector = some n ↔
        ∃ before after, below = before ++ n :: after ∧ (w.document.content n).Matches selector ∧
          ∀ k ∈ before, ¬ (w.document.content k).Matches selector) ∧
      (w.document.query t.id selector = none ↔
        ∀ k, w.document.StrictlyBelow t.id k → ¬ (w.document.content k).Matches selector) ∧
      ∀ (env : Env κ σ) (hook : Hook κ) (kit : Kit κ),
        (∀ n, w.document.query t.id selector = some n →
          mount env (.selector t.id selector) hook kit w = mount env (.node n) hook kit w ∧
          ∀ app w', mount env (.selector t.id selector) hook kit w = some (.ok app, w') →
            app.root = n) ∧
        ∀ text w',
          mount env (.selector t.id selector) hook kit w =
              some (.error (.rootNotFound text), w') ↔
            (∀ k, w.document.StrictlyBelow t.id k → ¬ (w.document.content k).Matches selector) ∧
              text = selector ∧ w' = w := by
  refine ⟨Tree.idsOf t.children, t.ids_eq_cons, ht.id_not_mem, fun k => ht.strictlyBelow_iff.symm,
    fun n => Document.query_eq_some_iff ht, Document.query_eq_none_iff ht, ?_⟩
  intro env hook kit
  refine ⟨fun n hquery => ⟨mount_of_query hquery env hook kit, fun app w' hm => ?_⟩, ?_⟩
  · have hplace := (mount_root hm).1
    rw [Mount.resolve_of_query hquery] at hplace
    exact (Except.ok.inj hplace).symm
  · intro text w'
    rw [mount_eq_rootNotFound_iff, Document.query_eq_none_iff ht]

namespace Hidden

def host : Host Unit Unit where
  body _ _ := .done (.ok ())
  handles _ := []

theorem host_passive : host.Passive := fun _ _ _ => trivial

/-- Matches below a text and below a comment, before one at the top. The first is there twice. -/
def world : World Unit Unit where
  heap := { objects := ⟨#[∅]⟩ }
  document := ⟨#[
    { content := .element "div" { entries := [("id", "app"), ("class", "main")] } ""
      children := [⟨1⟩, ⟨2⟩, ⟨3⟩] },
    { content := .text "note", children := [⟨4⟩] },
    { content := .comment "aside", children := [⟨5⟩] },
    { content := .element "section" { entries := [("class", "main")] } "", children := [⟨4⟩] },
    { content := .element "p" { entries := [("class", "wide main")] } "" },
    { content := .element "SECTION" ∅ "" }]⟩
  user := ()

/-- The node that is there twice. -/
def leaf : Tree := .node ⟨4⟩ (world.document.content ⟨4⟩) 0 []

def tree : Tree :=
  .node ⟨0⟩ (world.document.content ⟨0⟩) 0
    [.node ⟨1⟩ (.text "note") 0 [leaf],
      .node ⟨2⟩ (.comment "aside") 0 [.node ⟨5⟩ (world.document.content ⟨5⟩) 0 []],
      .node ⟨3⟩ (world.document.content ⟨3⟩) 0 [leaf]]

theorem leaf_of : leaf.Of world.document := ⟨by decide, rfl, rfl, trivial⟩

theorem tree_of : tree.Of world.document := by
  refine ⟨by decide, rfl, rfl, ?_, ?_, ?_, trivial⟩
  · exact ⟨by decide, rfl, rfl, leaf_of, trivial⟩
  · exact ⟨by decide, rfl, rfl, ⟨by decide, rfl, rfl, trivial⟩, trivial⟩
  · exact ⟨by decide, rfl, rfl, leaf_of, trivial⟩

def pageKit : Kit Unit := { data := ⟨0⟩ }

end Hidden

open Hidden in
/-- The class is found below the text and the tag below the comment, although an element with both
comes later, and the app is mounted there. The id is only that of the top, so it is not found. -/
theorem query_finds_first_hidden :
    world.document.query ⟨0⟩ ".main" = some ⟨4⟩ ∧
      world.document.query ⟨0⟩ "section" = some ⟨5⟩ ∧
      (∃ app w', mount (host.env 1) (.selector ⟨0⟩ ".main") .silent pageKit world =
        some (.ok app, w') ∧ app.root = ⟨4⟩) ∧
      mount (host.env 1) (.selector ⟨0⟩ "#app") .silent pageKit world =
        some (.error (.rootNotFound "#app"), world) := by
  obtain ⟨_, hids, _, _, hclass, _, hmount⟩ := query_finds_first tree_of ".main"
  obtain rfl := (List.cons.inj hids).2
  have hfound : world.document.query ⟨0⟩ ".main" = some ⟨4⟩ :=
    (hclass ⟨4⟩).mpr ⟨[⟨1⟩], [⟨2⟩, ⟨5⟩, ⟨3⟩, ⟨4⟩], rfl, by decide +kernel⟩
  refine ⟨hfound, ?_, ?_, ?_⟩
  · obtain ⟨_, hids, _, _, htag, _⟩ := query_finds_first tree_of "section"
    obtain rfl := (List.cons.inj hids).2
    exact (htag ⟨5⟩).mpr ⟨[⟨1⟩, ⟨4⟩, ⟨2⟩], [⟨3⟩, ⟨4⟩], rfl, by decide +kernel⟩
  · obtain ⟨hsame, hroot⟩ := (hmount (host.env 1) .silent pageKit).1 ⟨4⟩ hfound
    have hplace : Mount.resolve world.document (.node ⟨4⟩) = .ok leaf.id := rfl
    have hplain : (Plan.ofRoot pageKit.dialect leaf).Plain pageKit
        (world.heap.intercept .silent [.object pageKit.data]) := fun _ _ hmem => nomatch hmem
    obtain ⟨_, hleaf⟩ := mount_eq .silent (host_passive.records 0) hplace leaf_of (by decide)
      (by decide) hplain
    exact ⟨_, _, hsame.trans hleaf, hroot _ _ (hsame.trans hleaf)⟩
  · obtain ⟨_, hids, _, hbelow, _, _, hmount⟩ := query_finds_first tree_of "#app"
    obtain rfl := (List.cons.inj hids).2
    have hnone : ∀ k ∈ Tree.idsOf tree.children,
        ¬ (world.document.content k).Matches "#app" := by
      decide +kernel
    exact ((hmount (host.env 1) .silent pageKit).2 "#app" world).mpr
      ⟨fun k hk => hnone k ((hbelow k).mpr hk), rfl, rfl⟩

end DataBinding
