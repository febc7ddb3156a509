import DataBinding.Proofs.Proper
import Mathlib.Data.List.Find

/-!
# Text that follows a template

Each marker of a template has a watcher of its own, with a last value of its own, but any of them
renders all markers anew. Text and last values drift apart when code of the user's runs between a
write and the updates it owes to the text: the code writes a second key, which renders the new
value of the first, and then takes the first key back before its watcher has been updated at all.

So the text is never stale if there is only one key, or if at each key some watcher of the node is
updated before any code of the user's runs. It does not matter where the other watchers of the key
stand: whatever they render then is what there is.
-/

namespace DataBinding

variable {κ σ : Type}

/-- Whether a reaction sets the text of a node. -/
def Reaction.ShowsText (n : NodeId) : Reaction κ → Prop
  | .setText m => m = n
  | .render m _ => m = n
  | _ => False

instance (n : NodeId) (r : Reaction κ) : Decidable (r.ShowsText n) :=
  match r with
  | .setText m => inferInstanceAs (Decidable (m = n))
  | .render m _ => inferInstanceAs (Decidable (m = n))
  | .setValue _ | .custom _ => .isFalse id

/-- Whether all markers of a template have the same key. -/
def Template.OneKey (t : Template) : Prop := ∀ k ∈ t.markers, ∀ k' ∈ t.markers, k = k'

instance (t : Template) : Decidable t.OneKey :=
  inferInstanceAs (Decidable (∀ k ∈ t.markers, ∀ k' ∈ t.markers, k = k'))

/-- What a binding does to the text of another node. -/
theorem content_shown {x : Watcher κ} {n : NodeId} (hx : ¬ x.reaction.ShowsText n) (h : Heap κ)
    (v : Value) {d : Document κ} (hn : d.has n) (htext : (d.content n).isText = true) :
    (x.shown h v d).content n = d.content n := by
  unfold Watcher.shown
  cases hr : x.reaction with
  | setValue m =>
    dsimp only
    rw [Document.content_setValue]
    split
    · exact Content.setValue_of_isText htext _
    · rfl
  | setText m =>
    rw [hr] at hx
    have hne : ¬ m = n := hx
    dsimp only
    rw [Document.content_setText _ _ _ hn, if_neg hne]
  | render m t =>
    rw [hr] at hx
    have hne : ¬ m = n := hx
    dsimp only
    rw [Document.content_setText _ _ _ hn, if_neg hne]
  | custom code => rfl

theorem content_setText_of_isText {d : Document κ} {n : NodeId} (hn : d.has n)
    (htext : (d.content n).isText = true) (text : String) :
    (d.setText n text).content n = .text text := by
  rw [Document.content_setText _ _ _ hn, if_pos rfl]
  cases hc : d.content n with
  | text s => rfl
  | element tag attributes value => rw [hc] at htext; cases htext
  | comment s => rw [hc] at htext; cases htext

namespace World

/-- Whether a watcher sets the text of a node. -/
def ShowsText (w : World κ σ) (n : NodeId) (i : WatcherId) : Prop :=
  ∃ x, w.watcher? i = some x ∧ x.reaction.ShowsText n

/-- The text of a node is bound to a template and to nothing else, and all its watchers are
subscribed to their keys. -/
structure TextBound (w : World κ σ) (n : NodeId) (o : ObjectId) (t : Template) : Prop where
  text : w.document.has n → (w.document.content n).isText = true
  only : ∀ {i x}, w.watcher? i = some x → x.reaction.ShowsText n →
    x.data = o ∧ x.reaction = .render n t ∧ x.key ∈ t.markers
  reactive : ∀ {i x}, w.watcher? i = some x → x.reaction.ShowsText n →
    i ∈ w.heap.subscribers o x.key

/-- Whether a watcher of a key sets the text of a node. -/
def RendersKey (w : World κ σ) (n : NodeId) (key : String) (i : WatcherId) : Prop :=
  ∃ x, w.watcher? i = some x ∧ x.reaction.ShowsText n ∧ x.key = key

instance (w : World κ σ) (n : NodeId) (i : WatcherId) : Decidable (w.ShowsText n i) :=
  inferInstanceAs (Decidable (∃ x ∈ w.watcher? i, x.reaction.ShowsText n))

instance (w : World κ σ) (n : NodeId) (key : String) (i : WatcherId) :
    Decidable (w.RendersKey n key i) :=
  inferInstanceAs (Decidable (∃ x ∈ w.watcher? i, x.reaction.ShowsText n ∧ x.key = key))

/-- Whether a write to a key updates the text of a node before any code of the user's runs. -/
def RendersFirst (w : World κ σ) (n : NodeId) (o : ObjectId) (key : String) : Prop :=
  ∀ j ∈ (w.heap.subscribers o key).takeWhile (fun i => ¬ w.RendersKey n key i), ¬ w.RunsCode j

instance (w : World κ σ) (n : NodeId) (o : ObjectId) (key : String) :
    Decidable (w.RendersFirst n o key) :=
  inferInstanceAs (Decidable (∀ j ∈
    (w.heap.subscribers o key).takeWhile (fun i => ¬ w.RendersKey n key i), ¬ w.RunsCode j))

instance [DecidableEq κ] (w : World κ σ) (n : NodeId) (o : ObjectId) (t : Template) :
    Decidable (w.TextBound n o t) :=
  have only (x : Watcher κ) : Decidable (x.reaction.ShowsText n →
      x.data = o ∧ x.reaction = .render n t ∧ x.key ∈ t.markers) := inferInstance
  have reactive (i : WatcherId) (x : Watcher κ) : Decidable (x.reaction.ShowsText n →
      i ∈ w.heap.subscribers o x.key) := inferInstance
  decidable_of_iff ((w.document.has n → (w.document.content n).isText = true) ∧
    (∀ k < w.watchers.size, ∀ x ∈ w.watcher? ⟨k⟩, x.reaction.ShowsText n →
      x.data = o ∧ x.reaction = .render n t ∧ x.key ∈ t.markers) ∧
    ∀ k < w.watchers.size, ∀ x ∈ w.watcher? ⟨k⟩, x.reaction.ShowsText n →
      ⟨k⟩ ∈ w.heap.subscribers o x.key) <| by
    rw [forall_watcher_iff (P := fun _ x => x.reaction.ShowsText n →
        x.data = o ∧ x.reaction = .render n t ∧ x.key ∈ t.markers),
      forall_watcher_iff (P := fun i x => x.reaction.ShowsText n →
        i ∈ w.heap.subscribers o x.key)]
    exact ⟨fun h => ⟨h.1, h.2.1 _ _, h.2.2 _ _⟩,
      fun h => ⟨h.text, fun _ _ hx => h.only hx, fun _ _ hx => h.reactive hx⟩⟩

/-- The first of a node's watchers to be updated at their key. -/
structure Leads (w : World κ σ) (n : NodeId) (o : ObjectId) (i : WatcherId) (x : Watcher κ) :
    Prop where
  watcher : w.watcher? i = some x
  shows : x.reaction.ShowsText n
  first : (w.heap.subscribers o x.key).find? (fun j => w.RendersKey n x.key j) = some i

/-- The text of a node shows for each key what a watcher of that key saw last. If there are several
keys, that is the first of its watchers, and it has seen what the key has now. -/
structure FreshText (w : World κ σ) (n : NodeId) (o : ObjectId) (t : Template) : Prop where
  node : w.document.has n
  shown : ∃ shown : String → String, w.document.content n = .text (t.filled shown) ∧
    ∀ key ∈ t.markers, ∃ i x, w.watcher? i = some x ∧ x.reaction.ShowsText n ∧ x.key = key ∧
      w.heap.text x.last = shown key ∧ (t.OneKey ∨ w.Leads n o i x ∧ x.last = w.heap.peek o key)

/-- The node is not bound yet, or its text is fresh. -/
def TextKept (w : World κ σ) (n : NodeId) (o : ObjectId) (t : Template) : Prop :=
  (∀ i, ¬ w.ShowsText n i) ∨ w.FreshText n o t

/-- A step keeps the text fresh, given what is known of the bindings after it. -/
def KeepsText (n : NodeId) (o : ObjectId) (t : Template) (w w' : World κ σ) : Prop :=
  w'.TextBound n o t → (t.OneKey ∨ ∀ key ∈ t.markers, w'.RendersFirst n o key) →
    w.TextKept n o t → w'.TextKept n o t

variable {n : NodeId} {o : ObjectId} {t : Template} {w w' : World κ σ}

/-! ## What is known of earlier worlds -/

/-- What a watcher renders for does not change. -/
theorem Grows.rendersKey_iff (h : w.Grows w') {key : String} {i : WatcherId}
    (hi : i.index < w.watchers.size) : w'.RendersKey n key i ↔ w.RendersKey n key i := by
  constructor
  · rintro ⟨x, hx, hshows, hkey⟩
    obtain ⟨last, hx'⟩ := h.watcher_of_lt hx hi
    exact ⟨_, hx', hshows, hkey⟩
  · rintro ⟨x, hx, hshows, hkey⟩
    obtain ⟨last, hx'⟩ := h.watcher hx
    exact ⟨_, hx', hshows, hkey⟩

theorem TextBound.of_grows (hb : w'.TextBound n o t) (h : w.Grows w') : w.TextBound n o t := by
  refine ⟨?_, ?_, ?_⟩
  · intro hn
    have htext := hb.text (h.document.has hn)
    rw [(h.document.kind hn).2] at htext
    exact htext
  · intro i x hx hshows
    obtain ⟨last, hx'⟩ := h.watcher hx
    obtain ⟨hdata, hreaction, hkey⟩ := hb.only hx' hshows
    exact ⟨hdata, hreaction, hkey⟩
  · intro i x hx hshows
    obtain ⟨last, hx'⟩ := h.watcher hx
    have hmem := hb.reactive hx' hshows
    exact h.mem_subscribers_of_lt hmem (lt_size_of_watcher? hx)

theorem takeWhile_congr {α : Type} {p q : α → Bool} {l : List α} (h : ∀ a ∈ l, p a = q a) :
    l.takeWhile p = l.takeWhile q := by
  induction l with
  | nil => rfl
  | cons a l ih =>
    rw [List.takeWhile_cons, List.takeWhile_cons, h a List.mem_cons_self,
      ih fun b hb => h b (List.mem_cons_of_mem _ hb)]

theorem mem_takeWhile_append {α : Type} {p : α → Bool} {l l' : List α} {a : α}
    (h : a ∈ l.takeWhile p) : a ∈ (l ++ l').takeWhile p := by
  rw [List.takeWhile_append]
  split
  · exact List.mem_append_left _ ((List.takeWhile_prefix p).subset h)
  · exact h

/-- Who subscribes later is updated later. -/
theorem RendersFirst.of_grows {key : String} (hf : w'.RendersFirst n o key) (h : w.Grows w')
    (hw : w.Wired) : w.RendersFirst n o key := by
  intro j hj hcode
  obtain ⟨late, hlate, _⟩ := h.subscribers o key
  refine hf j ?_ (h.runsCode hcode)
  rw [hlate]
  refine mem_takeWhile_append ?_
  rw [takeWhile_congr fun i hi => ?_]
  · exact hj
  · simp only [h.rendersKey_iff (hw.lt_size hi)]

/-- The first of the watchers stays the first. -/
theorem Leads.of_grows {i : WatcherId} {x : Watcher κ} {last : Value} (hl : w.Leads n o i x)
    (h : w.Grows w') (hw : w.Wired) (hx : w'.watcher? i = some { x with last }) :
    w'.Leads n o i { x with last } := by
  refine ⟨hx, hl.shows, ?_⟩
  obtain ⟨late, hlate, _⟩ := h.subscribers o x.key
  have hsame : (w.heap.subscribers o x.key).find? (fun j => w'.RendersKey n x.key j) =
      (w.heap.subscribers o x.key).find? (fun j => w.RendersKey n x.key j) := by
    refine List.find?_congr fun j hj => ?_
    simp only [h.rendersKey_iff (hw.lt_size hj)]
  rw [hlate, List.find?_append, hsame, hl.first]
  rfl

theorem Leads.eq {i j : WatcherId} {x y : Watcher κ} (hi : w.Leads n o i x)
    (hj : w.Leads n o j y) (hkey : x.key = y.key) : i = j := by
  have hfirst := hi.first
  rw [hkey, hj.first] at hfirst
  exact (Option.some.inj hfirst).symm

/-- One of the watchers that are subscribed to a key is the first. -/
theorem TextBound.exists_leads (hb : w.TextBound n o t) {i : WatcherId} {x : Watcher κ}
    (hx : w.watcher? i = some x) (hshows : x.reaction.ShowsText n) :
    ∃ j y, w.Leads n o j y ∧ y.key = x.key := by
  obtain ⟨j, hj⟩ : ∃ j, (w.heap.subscribers o x.key).find?
      (fun j => w.RendersKey n x.key j) = some j := by
    refine Option.isSome_iff_exists.mp (List.find?_isSome.mpr ⟨i, hb.reactive hx hshows, ?_⟩)
    exact decide_eq_true ⟨x, hx, hshows, rfl⟩
  have hrenders := List.find?_some hj
  obtain ⟨y, hy, hyshows, hykey⟩ := of_decide_eq_true hrenders
  refine ⟨j, y, ⟨hy, hyshows, ?_⟩, hykey⟩
  rw [hykey]
  exact hj

/-! ## Steps that do not touch the binding -/

/-- The watchers of a node are the same. -/
def SameTexters (n : NodeId) (w w' : World κ σ) : Prop :=
  ∀ {i x}, x.reaction.ShowsText n → (w'.watcher? i = some x ↔ w.watcher? i = some x)

theorem sameTexters_of_watchers (h : w'.watchers = w.watchers) : SameTexters n w w' := by
  intro i x _
  rw [watcher?_of_watchers h]

theorem sameTexters_setLast {i : WatcherId} {x : Watcher κ} (hx : w.watcher? i = some x)
    (hshows : ¬ x.reaction.ShowsText n) (v : Value) : SameTexters n w (w.setLast i v) := by
  intro j y hy
  rw [watcher?_setLast]
  by_cases hij : i = j
  · subst hij
    rw [if_pos rfl, hx]
    constructor
    · intro h
      obtain rfl := Option.some.inj h
      exact absurd hy hshows
    · intro h
      obtain rfl := Option.some.inj h
      exact absurd hy hshows
  · rw [if_neg hij]

theorem sameTexters_push {x : Watcher κ} (hx : ¬ x.reaction.ShowsText n)
    (hwatchers : w'.watchers = w.watchers.push x) : SameTexters n w w' := by
  intro i y hy
  have hpush : w'.watcher? i = if i = ⟨w.watchers.size⟩ then some x else w.watcher? i := by
    rw [← watcher?_push]
    exact watcher?_of_watchers hwatchers i
  rw [hpush]
  by_cases hi : i = ⟨w.watchers.size⟩
  · rw [if_pos hi]
    constructor
    · intro hsome
      obtain rfl := Option.some.inj hsome
      exact absurd hy hx
    · intro hold
      exact absurd hi (ne_next_of_watcher? hold)
  · rw [if_neg hi]

theorem sameTexters_of_watches {P : Watcher κ → Prop} (h : w.Watches w' P)
    (hP : ∀ x, P x → ¬ x.reaction.ShowsText n) : SameTexters n w w' := by
  intro i x hshows
  refine ⟨fun hx => ?_, h.old⟩
  rcases h.new hx with hold | ⟨hnew, _⟩
  · exact hold
  · exact absurd hshows (hP x hnew)

theorem FreshText.of_same (hf : w.FreshText n o t) (hs : w.Sound) (hgrows : w.Grows w')
    (hsame : SameTexters n w w')
    (hcontent : w.document.has n → w'.document.content n = w.document.content n)
    (hpeek : t.OneKey ∨ ∀ key ∈ t.markers, w'.heap.peek o key = w.heap.peek o key) :
    w'.FreshText n o t := by
  obtain ⟨shown, hshown, hevery⟩ := hf.shown
  refine ⟨hgrows.document.has hf.node, shown, (hcontent hf.node).trans hshown, ?_⟩
  intro key hkey
  obtain ⟨i, x, hx, hshows, hxkey, htext, hleads⟩ := hevery key hkey
  have hx' := (hsame hshows).mpr hx
  refine ⟨i, x, hx', hshows, hxkey, ?_, ?_⟩
  · rw [← htext]
    exact Heap.text_of_isScalar _ _ (hs.tidy.seen hx)
  · rcases hpeek with hone | hpeek
    · exact .inl hone
    · refine hleads.imp_right fun ⟨hleads, hlast⟩ => ⟨?_, hlast.trans (hpeek key hkey).symm⟩
      exact hleads.of_grows hgrows hs.wired hx'

theorem TextKept.of_same (hk : w.TextKept n o t) (hs : w.Sound) (hb : w.TextBound n o t)
    (hgrows : w.Grows w') (hsame : SameTexters n w w')
    (hcells : ∀ key c, w.heap.cell? o key = some c → w'.heap.peek o key = c.value)
    (hcontent : w.document.has n → w'.document.content n = w.document.content n) :
    w'.TextKept n o t := by
  rcases hk with hnone | hf
  · refine .inl fun i hi => ?_
    obtain ⟨x, hx, hshows⟩ := hi
    exact hnone i ⟨x, (hsame hshows).mp hx, hshows⟩
  · refine .inr (hf.of_same hs hgrows hsame hcontent (.inr fun key hkey => ?_))
    obtain ⟨_, _, hevery⟩ := hf.shown
    obtain ⟨i, x, hx, hshows, rfl, _⟩ := hevery key hkey
    obtain ⟨c, hc, _⟩ := Heap.mem_subscribers.mp (hb.reactive hx hshows)
    exact (hcells x.key c hc).trans (Heap.peek_of_cell? hc).symm

/-! ## Updates -/

/-- An update that finds nothing new leaves the text as fresh as it was: strictly equal scalars have
the same text. -/
theorem TextKept.setLast (hk : w.TextKept n o t) (hs : w.Sound) (hb : w.TextBound n o t)
    {i : WatcherId} {x : Watcher κ} (hx : w.watcher? i = some x)
    (heq : x.last.strictEq (w.heap.peek x.data x.key) = true) :
    (w.setLast i (w.heap.peek x.data x.key)).TextKept n o t := by
  have hgrows := (advancesFrom_setLast w i x.data x.key hs).grows
  by_cases hshows : x.reaction.ShowsText n
  · rcases hk with hnone | hf
    · exact absurd ⟨x, hx, hshows⟩ (hnone i)
    · obtain ⟨shown, hshown, hevery⟩ := hf.shown
      refine .inr ⟨hf.node, shown, hshown, fun key hkey => ?_⟩
      obtain ⟨j, y, hy, hyshows, hykey, htext, hleads⟩ := hevery key hkey
      by_cases hij : i = j
      · -- the watcher is the one whose last value the text shows
        subst hij
        obtain rfl := Option.some.inj (hx.symm.trans hy)
        have hx' := watcher?_setLast_self hx (w.heap.peek x.data x.key)
        refine ⟨i, _, hx', hshows, hykey, ?_, ?_⟩
        · rw [← htext]
          exact (w.heap.text_of_strictEq (hs.tidy.seen hx) heq).symm
        · refine hleads.imp_right fun ⟨hleads, _⟩ => ⟨hleads.of_grows hgrows hs.wired hx', ?_⟩
          rw [(hb.only hx hshows).1, hykey]
          rfl
      · have hy' := (watcher?_setLast_of_ne w hij (w.heap.peek x.data x.key)).trans hy
        refine ⟨j, y, hy', hyshows, hykey, htext, ?_⟩
        exact hleads.imp_right fun ⟨hleads, hlast⟩ => ⟨hleads.of_grows hgrows hs.wired hy', hlast⟩
  · exact hk.of_same hs hb hgrows (sameTexters_setLast hx hshows _)
      (fun _ _ hc => Heap.peek_of_cell? hc) fun _ => rfl

/-- A watcher of the node that reacts makes the text fresh, if for the other keys the first of the
watchers have seen what there is. -/
theorem freshText_rendered {i : WatcherId} {x : Watcher κ} {user : σ} (hn : w.document.has n)
    (hs : w.Sound) (hb : w.TextBound n o t) (hx : w.watcher? i = some x)
    (hshows : x.reaction.ShowsText n)
    (hgrows : w.Grows { w.setLast i (w.heap.peek x.data x.key) with
      document := x.shown w.heap (w.heap.peek x.data x.key) w.document, user })
    (hothers : t.OneKey ∨ ∀ key ∈ t.markers, ∃ j y, w.Leads n o j y ∧ y.key = key ∧
      (i = j ∨ y.last = w.heap.peek o key)) :
    FreshText { w.setLast i (w.heap.peek x.data x.key) with
      document := x.shown w.heap (w.heap.peek x.data x.key) w.document, user } n o t := by
  obtain ⟨rfl, hreaction, hkey⟩ := hb.only hx hshows
  have hnew := watcher?_setLast_self hx (w.heap.peek x.data x.key)
  refine ⟨hgrows.document.has hn, fun key => w.heap.text (w.heap.peek x.data key), ?_, ?_⟩
  · show (x.shown w.heap _ w.document).content n = _
    unfold Watcher.shown
    rw [hreaction]
    exact content_setText_of_isText hn (hb.text hn) _
  · intro key hkey'
    rcases hothers with hone | hothers
    · obtain rfl := hone key hkey' x.key hkey
      exact ⟨i, _, hnew, hshows, rfl, rfl, .inl hone⟩
    · obtain ⟨j, y, hleads, rfl, hj⟩ := hothers key hkey'
      by_cases hij : i = j
      · subst hij
        obtain rfl := Option.some.inj (hx.symm.trans hleads.watcher)
        exact ⟨i, _, hnew, hshows, rfl, rfl, .inr ⟨hleads.of_grows hgrows hs.wired hnew, rfl⟩⟩
      · have hlast := hj.resolve_left hij
        have hy := (watcher?_setLast_of_ne w hij (w.heap.peek x.data x.key)).trans hleads.watcher
        refine ⟨j, y, hy, hleads.shows, rfl, ?_, .inr ⟨hleads.of_grows hgrows hs.wired hy, hlast⟩⟩
        rw [hlast]
        rfl

theorem FreshText.others (hf : w.FreshText n o t) (i : WatcherId) :
    t.OneKey ∨ ∀ key ∈ t.markers, ∃ j y, w.Leads n o j y ∧ y.key = key ∧
      (i = j ∨ y.last = w.heap.peek o key) := by
  by_cases hone : t.OneKey
  · exact .inl hone
  · refine .inr fun key hkey => ?_
    obtain ⟨_, _, hevery⟩ := hf.shown
    obtain ⟨j, y, _, _, hykey, _, hleads⟩ := hevery key hkey
    obtain ⟨hleads, hlast⟩ := hleads.resolve_left hone
    exact ⟨j, y, hleads, hykey, .inr hlast⟩

end World

open World

variable {env : Env κ σ} {n : NodeId} {o : ObjectId} {t : Template} {w w' : World κ σ}

theorem textBound_held (w : World κ σ) (held : List Handle) :
    TextBound { w with held } n o t ↔ w.TextBound n o t :=
  ⟨fun hb => ⟨hb.text, hb.only, hb.reactive⟩, fun hb => ⟨hb.text, hb.only, hb.reactive⟩⟩

/-- What is held and what the user has does not count. -/
theorem World.TextKept.congr {w₁ : World κ σ} (hk : w.TextKept n o t)
    (hwatchers : w₁.watchers = w.watchers) (hheap : w₁.heap = w.heap)
    (hdocument : w₁.document = w.document) : w₁.TextKept n o t := by
  obtain ⟨heap, watchers, document, current, held, user⟩ := w₁
  obtain rfl : watchers = w.watchers := hwatchers
  obtain rfl : heap = w.heap := hheap
  obtain rfl : document = w.document := hdocument
  rcases hk with hnone | ⟨hn, shown, hshown, hevery⟩
  · exact .inl hnone
  · refine .inr ⟨hn, shown, hshown, fun key hkey => ?_⟩
    obtain ⟨i, x, hx, hshows, hxkey, htext, hleads⟩ := hevery key hkey
    refine ⟨i, x, hx, hshows, hxkey, htext, hleads.imp_right fun ⟨hleads, hlast⟩ => ⟨?_, hlast⟩⟩
    exact ⟨hleads.watcher, hleads.shows, hleads.first⟩

theorem textKept_held (w : World κ σ) (held : List Handle) :
    TextKept { w with held } n o t ↔ w.TextKept n o t :=
  ⟨fun hk => hk.congr rfl rfl rfl, fun hk => hk.congr rfl rfl rfl⟩

theorem keepsText_composes : Composes (KeepsText (κ := κ) (σ := σ) n o t) where
  refl w _ _ hk := hk
  trans hs hab hbc hSab hSbc := by
    intro hb hfirst hk
    refine hSbc hb hfirst (hSab (hb.of_grows hbc.grows) ?_ hk)
    exact hfirst.imp_right fun hfirst key hkey =>
      (hfirst key hkey).of_grows hbc.grows hab.sound.wired
  held w w' held held' := by
    unfold KeepsText
    rw [textBound_held, textKept_held w, textKept_held w']
    exact Iff.rfl

theorem update_keepsText (hq : env.HooksRead)
    (hcall : env.CallsMove (AdvancesWith Nobody (KeepsText n o t))) {i : WatcherId} {u : Unit}
    (h : update env i w = some (u, w')) (hs : w.Sound) (hgrows : w.Grows w') :
    KeepsText n o t w w' := by
  intro hb hfirst hk
  have hbw := hb.of_grows hgrows
  rcases hq.update_cases hs.current h with ⟨rfl, _⟩ | ⟨x, hx, ⟨heq, rfl⟩ | ⟨_, hfires⟩⟩
  · exact hk
  · exact hk.setLast hs hbw hx heq
  · rcases hfires with ⟨_, user, rfl⟩ | ⟨code, held, hcode, hreact⟩
    · by_cases hshows : x.reaction.ShowsText n
      · rcases hk with hnone | hf
        · exact absurd ⟨x, hx, hshows⟩ (hnone i)
        · exact .inr (freshText_rendered hf.node hs hbw hx hshows hgrows (hf.others i))
      · exact hk.of_same hs hbw hgrows (sameTexters_setLast hx hshows _)
          (fun _ _ hc => Heap.peek_of_cell? hc)
          fun hn => content_shown hshows _ _ hn (hbw.text hn)
    · -- a callback, which keeps the text by assumption
      have hshows : ¬ x.reaction.ShowsText n := by
        rw [hcode]
        exact id
      have hset := advancesFrom_setLast w i x.data x.key hs
      have hk₁ : (w.setLast i (w.heap.peek x.data x.key)).TextKept n o t :=
        hk.of_same hs hbw hset.grows (sameTexters_setLast hx hshows _)
          (fun _ _ hc => Heap.peek_of_cell? hc) fun _ => rfl
      have hcalled := keepsText_composes.carried.holding held (.discard (hcall _ _ rfl)) hreact
        hset.sound
      exact hcalled.2 hb hfirst hk₁

theorem update_advancesKeepingText (hq : env.HooksRead)
    (hcall : env.CallsMove (AdvancesWith Nobody (KeepsText n o t))) (i : WatcherId) :
    Run.Moves (AdvancesWith Nobody (KeepsText n o t)) (update env i) :=
  update_advancesWith hq hcall (update_keepsText hq hcall)

/-! ## Writes -/

/-- What holds from a write to a key until the text is updated for it: the first of the watchers of
that key has not seen the value yet, and those of the other keys have seen theirs. -/
structure World.TextDue (w : World κ σ) (n : NodeId) (o : ObjectId) (t : Template)
    (i : WatcherId) (x : Watcher κ) : Prop where
  node : w.document.has n
  leads : w.Leads n o i x
  unseen : x.last.strictEq (w.heap.peek o x.key) = false
  others : ∀ key ∈ t.markers, key ≠ x.key → ∃ j y, w.Leads n o j y ∧ y.key = key ∧
    y.last = w.heap.peek o key

/-- The update of another watcher leaves the text due. -/
theorem World.TextDue.of_setLast {i j : WatcherId} {x y : Watcher κ} (hd : w.TextDue n o t i x)
    (hs : w.Sound) (hb : w.TextBound n o t) (hgrows : w.Grows w') (hij : ¬ j = i)
    (hy : w.watcher? j = some y)
    (hwatchers : w'.watchers = (w.setLast j (w.heap.peek y.data y.key)).watchers)
    (hheap : w'.heap = w.heap) : w'.TextDue n o t i x := by
  have hset := watcher?_of_watchers hwatchers
  have hx : w'.watcher? i = some x := by
    rw [hset, watcher?_setLast_of_ne w hij]
    exact hd.leads.watcher
  refine ⟨hgrows.document.has hd.node, hd.leads.of_grows hgrows hs.wired hx, ?_, ?_⟩
  · rw [hheap]
    exact hd.unseen
  · intro key hkey hne
    obtain ⟨k, z, hleads, hzkey, hlast⟩ := hd.others key hkey hne
    by_cases hjk : j = k
    · subst hjk
      obtain rfl := Option.some.inj (hy.symm.trans hleads.watcher)
      have hnew : w'.watcher? j = some { y with last := w.heap.peek y.data y.key } := by
        rw [hset, watcher?_setLast_self hy]
      refine ⟨j, _, hleads.of_grows hgrows hs.wired hnew, hzkey, ?_⟩
      rw [hheap, (hb.only hy hleads.shows).1, hzkey]
    · have hz : w'.watcher? k = some z := by
        rw [hset, watcher?_setLast_of_ne w hjk]
        exact hleads.watcher
      refine ⟨k, z, hleads.of_grows hgrows hs.wired hz, hzkey, ?_⟩
      rw [hheap]
      exact hlast

/-- The update of the watcher for which the text is due makes it fresh. -/
theorem World.TextDue.fresh (hq : env.HooksRead) {i : WatcherId} {x : Watcher κ} {u : Unit}
    (hd : w.TextDue n o t i x) (h : update env i w = some (u, w')) (hs : w.Sound)
    (hb : w.TextBound n o t) (hheld : .object o ∈ w.held) (hgrows : w.Grows w') :
    w'.FreshText n o t := by
  obtain ⟨hx, hshows, _⟩ := hd.leads
  obtain ⟨rfl, hreaction, _⟩ := hb.only hx hshows
  have hcustom : ¬ x.reaction.IsCustom := by
    rw [hreaction]
    exact id
  obtain ⟨user, rfl⟩ := hq.update_shown hs.current h hx hcustom hheld hd.unseen
  refine freshText_rendered hd.node hs hb hx hshows hgrows (.inr fun key hkey => ?_)
  by_cases hne : key = x.key
  · exact ⟨i, x, hd.leads, hne.symm, .inl rfl⟩
  · obtain ⟨j, y, hleads, hykey, hlast⟩ := hd.others key hkey hne
    exact ⟨j, y, hleads, hykey, .inr hlast⟩

/-- Updating the subscribers of a key makes the text fresh, if no code of the user's comes before
the first watcher of the node. From then on the text is kept. -/
theorem textKept_updateAll (hq : env.HooksRead)
    (hcall : env.CallsMove (AdvancesWith Nobody (KeepsText n o t))) {is : List WatcherId} {u : Unit}
    (h : updateAll env is w = some (u, w')) (hs : w.Sound) (hheld : .object o ∈ w.held)
    (hb : w'.TextBound n o t)
    (hfirst : t.OneKey ∨ ∀ key ∈ t.markers, w'.RendersFirst n o key)
    {i : WatcherId} {x : Watcher κ} (hd : w.TextDue n o t i x)
    (hi : is.find? (fun j => w'.RendersKey n x.key j) = some i)
    (hbefore : ∀ j ∈ is.takeWhile (fun j => ¬ w'.RendersKey n x.key j), ¬ w'.RunsCode j) :
    w'.TextKept n o t := by
  induction is generalizing w with
  | nil => cases hi
  | cons j rest ih =>
    obtain ⟨_, w₁, h₁, h₂⟩ := Run.bind_eq_some.mp h
    have hadvance := update_advances hq (callsMove_advancesFrom hcall) j h₁ hs
    have hrest := keepsText_composes.carried.updateAll (update_advancesKeepingText hq hcall) rest h₂
      hadvance.sound
    have hgrows := hadvance.grows.trans hrest.1.grows
    have hbw := hb.of_grows hgrows
    by_cases hrenders : w'.RendersKey n x.key j
    · -- this is the first watcher of the node: it reacts, as the value is new to it
      rw [List.find?_cons_of_pos (by simpa using hrenders)] at hi
      obtain rfl := Option.some.inj hi
      exact hrest.2 hb hfirst (.inr (hd.fresh hq h₁ hs hbw hheld hadvance.grows))
    · -- the first watcher of the node is still to come, so this one runs no code of the user's
      rw [List.find?_cons_of_neg (by simpa using hrenders)] at hi
      rw [List.takeWhile_cons_of_pos (by simpa using hrenders)] at hbefore
      have hji : ¬ j = i := by
        rintro rfl
        exact hrenders ⟨_, (hgrows.watcher hd.leads.watcher).choose_spec, hd.leads.shows, rfl⟩
      have hcode : ¬ w.RunsCode j := fun h => hbefore j List.mem_cons_self (hgrows.runsCode h)
      refine ih h₂ hadvance.sound (by rw [hadvance.held]; exact hheld) ?_ hi
        fun k hk => hbefore k (List.mem_cons_of_mem _ hk)
      rcases hq.update_plain hs.current h₁ hcode with rfl | ⟨y, hy, hheap, hwatchers⟩
      · exact hd
      · exact hd.of_setLast hs hbw hadvance.grows hji hy hwatchers hheap

/-- After a write to one of several keys, the text is due for it. -/
theorem textDue_stored {key : String} {v : Value} {c : Cell κ} {user : σ} (hf : w.FreshText n o t)
    (hs : w.Sound) (hone : ¬ t.OneKey) (hc : w.heap.cell? o key = some c) (hkey : key ∈ t.markers)
    (hne : c.value.strictEq v = false) (hgrows : w.Grows (w.stored o key c v user)) :
    ∃ i x, (w.stored o key c v user).TextDue n o t i x ∧ x.key = key := by
  obtain ⟨_, _, hevery⟩ := hf.shown
  have hled : ∀ k ∈ t.markers, ∃ i x, (w.stored o key c v user).Leads n o i x ∧ x.key = k ∧
      x.last = w.heap.peek o k := by
    intro k hk
    obtain ⟨i, x, hx, _, hxkey, _, hleads⟩ := hevery k hk
    obtain ⟨hleads, hlast⟩ := hleads.resolve_left hone
    exact ⟨i, x, hleads.of_grows hgrows hs.wired hx, hxkey, hlast⟩
  obtain ⟨i, x, hleads, rfl, hlast⟩ := hled key hkey
  refine ⟨i, x, ⟨hf.node, hleads, ?_, fun k hk hne => ?_⟩, rfl⟩
  · rw [peek_stored hc, if_pos ⟨rfl, rfl⟩, hlast, Heap.peek_of_cell? hc]
    exact hne
  · obtain ⟨j, y, hleads', hykey, hlast'⟩ := hled k hk
    refine ⟨j, y, hleads', hykey, ?_⟩
    rw [peek_stored hc, if_neg fun h => hne h.2]
    exact hlast'

theorem write_keepsText (hq : env.HooksRead)
    (hcall : env.CallsMove (AdvancesWith Nobody (KeepsText n o t))) {p : ObjectId} {key : String}
    {v : Value} {u : Unit} (h : write env p key v w = some (u, w')) (hv : v.isScalar = true)
    (hs : w.Sound) (hgrows : w.Grows w') : KeepsText n o t w w' := by
  intro hb hfirst hk
  have hbw := hb.of_grows hgrows
  rcases hq.write_eq_some hs.current h with
    ⟨hc, rfl⟩ | ⟨c, hc, ⟨_, rfl⟩ | ⟨hne, user, w₁, hall, rfl⟩⟩
  · refine hk.of_same hs hbw hgrows (sameTexters_of_watchers rfl) (fun k c hc' => ?_) fun _ => rfl
    exact Heap.peek_of_cell? ((Heap.cell?_putPlain hc v o k).trans hc')
  · exact hk
  · rw [textBound_held] at hb
    rw [textKept_held]
    obtain ⟨hstored, hgrows₀⟩ := sound_stored hs p key c hv user
    have hrest := keepsText_composes.carried.updateAll (update_advancesKeepingText hq hcall) _ hall
      hstored
    rcases hk with hnone | hf
    · exact hrest.2 hb hfirst (.inl hnone)
    · have hkept : (t.OneKey ∨ ¬ (o = p ∧ key ∈ t.markers)) → w₁.TextKept n o t := by
        intro hother
        refine hrest.2 hb hfirst (.inr ?_)
        refine hf.of_same hs hgrows₀ (sameTexters_of_watchers rfl) (fun _ => rfl) ?_
        refine hother.imp_right fun hother k hk => ?_
        rw [peek_stored hc, if_neg]
        rintro ⟨rfl, rfl⟩
        exact hother ⟨rfl, hk⟩
      -- only a write to one of several keys of the template may leave the text behind
      by_cases hone : t.OneKey
      · exact hkept (.inl hone)
      by_cases hours : o = p ∧ key ∈ t.markers
      · obtain ⟨rfl, hkey⟩ := hours
        obtain ⟨i, x, hdue, rfl⟩ := textDue_stored hf hs hone hc hkey hne hgrows₀
        have hsubs : (w.stored o x.key c v user).heap.subscribers o x.key = c.subscribers :=
          (subscribers_stored w o x.key c v user o x.key).trans (Heap.subscribers_of_cell? hc)
        obtain ⟨late, hlate, _⟩ := hrest.1.grows.subscribers o x.key
        rw [hsubs] at hlate
        refine textKept_updateAll hq hcall hall hstored List.mem_cons_self hb hfirst hdue ?_ ?_
        · refine (List.find?_congr fun j hj => ?_).trans (hsubs ▸ hdue.leads.first)
          have hlt := hstored.wired.lt_size (hsubs ▸ hj)
          simp only [hrest.1.grows.rendersKey_iff hlt]
        · intro j hj
          refine hfirst.resolve_left hone x.key hkey j ?_
          rw [hlate]
          exact mem_takeWhile_append hj
      · exact hkept (.inr hours)

/-! ## Bindings -/

/-- Binding the node itself renders the template, so the text is fresh, whatever it was. -/
theorem textKept_bound {w₁ : World κ σ} {user : σ} (hk : w.TextKept n o t) (hs : w.Sound)
    (hn : w.document.has n) (htext : (w.document.content n).isText = true)
    (hwatches : w.Watches w₁ fun x => x.data = o ∧ x.reaction = .render n t)
    (hevery : ∀ key ∈ t.markers, ∃ i, w₁.watcher? i = some
      { key, data := o, last := w.heap.peek o key, reaction := .render n t })
    (hb : TextBound
      { w₁ with document := w₁.document.setText n (t.rendering w₁.heap o), user } n o t)
    (hgrows : w.Grows
      { w₁ with document := w₁.document.setText n (t.rendering w₁.heap o), user }) :
    TextKept { w₁ with document := w₁.document.setText n (t.rendering w₁.heap o), user } n o t := by
  refine .inr ⟨hgrows.document.has hn, fun key => w₁.heap.text (w₁.heap.peek o key), ?_, ?_⟩
  · show (w₁.document.setText n _).content n = _
    rw [hwatches.document, content_setText_of_isText hn htext]
    rfl
  · intro key hkey
    obtain ⟨i, hi⟩ := hevery key hkey
    -- any watcher will do for a single key; otherwise it is the one that comes first
    by_cases hone : t.OneKey
    · refine ⟨i, _, hi, rfl, rfl, ?_, .inl hone⟩
      show _ = w₁.heap.text (w₁.heap.peek o key)
      rw [hwatches.peek]
    · obtain ⟨j, y, hleads, hykey⟩ := hb.exists_leads hi rfl
      obtain rfl : y.key = key := hykey
      have hlast : y.last = w₁.heap.peek o y.key := by
        rw [hwatches.peek]
        rcases hwatches.new hleads.watcher with hold | ⟨⟨hdata, _⟩, hlast⟩
        · -- the first of the watchers was there before, and it was the first then
          rcases hk with hnone | hf
          · exact absurd ⟨y, hold, hleads.shows⟩ (hnone j)
          · obtain ⟨_, _, hshown⟩ := hf.shown
            obtain ⟨k, z, hz, _, hzkey, _, hfirst⟩ := hshown y.key hkey
            obtain ⟨hfirst, hlast⟩ := hfirst.resolve_left hone
            have hjk := hleads.eq (hfirst.of_grows hgrows hs.wired (hwatches.old hz)) hzkey.symm
            subst hjk
            obtain rfl := Option.some.inj (hold.symm.trans hz)
            exact hlast
        · rw [hlast, hdata]
      exact ⟨j, y, hleads.watcher, hleads.shows, rfl, by rw [hlast], .inr ⟨hleads, hlast⟩⟩

/-- Binding another node leaves the text alone. -/
theorem World.TextKept.of_watches {P : Watcher κ → Prop} {w₁ : World κ σ} {m : NodeId}
    {text : String} {user : σ} (hk : w.TextKept n o t) (hs : w.Sound) (hb : w.TextBound n o t)
    (hgrows : w.Grows { w₁ with document := w₁.document.setText m text, user })
    (hwatches : w.Watches w₁ P) (hP : ∀ x, P x → ¬ x.reaction.ShowsText n) (hnm : ¬ m = n) :
    TextKept { w₁ with document := w₁.document.setText m text, user } n o t := by
  refine hk.of_same hs hb hgrows (sameTexters_of_watches hwatches hP : SameTexters n w w₁) ?_ ?_
  · intro k c hc
    exact (hwatches.peek o k).trans (Heap.peek_of_cell? hc)
  · intro hn
    show (w₁.document.setText m _).content n = _
    rw [hwatches.document, Document.content_setText _ _ _ hn, if_neg hnm]

theorem bindText_keepsText (hq : env.HooksRead) {m : NodeId} {expression : String} {p : ObjectId}
    {d : Dialect} {u : Unit} (h : bindText env m expression p d w = some (u, w'))
    (hm : w.document.has m) (hs : w.Sound) (hgrows : w.Grows w') : KeepsText n o t w w' := by
  intro hb _ hk
  have hbw := hb.of_grows hgrows
  cases hmarkers : (Template.parse expression d).hasMarkers with
  | true =>
    obtain ⟨w₁, user, hwatches, hevery, rfl⟩ := hq.bindText_template hs.current hmarkers h
    by_cases hnm : m = n
    · -- the new watchers show the text, so the binding is one of this template
      subst hnm
      obtain ⟨key, hkey⟩ : ∃ key, key ∈ (Template.parse expression d).markers := by
        refine List.exists_mem_of_ne_nil _ fun hnil => ?_
        rw [Template.hasMarkers, hnil] at hmarkers
        cases hmarkers
      obtain ⟨i, hi⟩ := hevery key hkey
      obtain ⟨hdata, hreaction, _⟩ := hb.only (i := i) hi rfl
      obtain rfl : p = o := hdata
      obtain rfl : Template.parse expression d = t := (Reaction.render.inj hreaction).2
      exact textKept_bound hk hs hm (hbw.text hm) hwatches hevery hb hgrows
    · refine hk.of_watches hs hbw hgrows hwatches ?_ hnm
      rintro x ⟨_, hreaction⟩
      rw [hreaction]
      exact hnm
  | false =>
    obtain ⟨w₁, i, hwatches, hi, rfl⟩ := hq.bindText_key hmarkers h
    by_cases hnm : m = n
    · -- the node would have a watcher that does not render the template
      subst hnm
      obtain ⟨_, hreaction, _⟩ := hb.only (i := i) hi rfl
      cases hreaction
    · refine (hk.of_watches hs hbw hgrows hwatches ?_ hnm : TextKept (w₁.showText m _) n o t)
      rintro x ⟨_, hreaction⟩
      rw [hreaction]
      exact hnm

theorem bind_keepsText (hq : env.HooksRead) {d : Directive} {m : NodeId} {expression : String}
    {kit : Kit κ} {u : Unit} (h : d.bind env m expression kit w = some (u, w'))
    (hm : w.document.has m) (hs : w.Sound) (hgrows : w.Grows w') : KeepsText n o t w w' := by
  cases d with
  | model =>
    intro hb _ hk
    have hbw := hb.of_grows hgrows
    obtain ⟨w₁, h₁, rfl⟩ := Run.holding_eq_some.mp h
    obtain ⟨places, user, rfl⟩ := hq.bindModel_eq_some (by exact hs.current) h₁
    refine hk.of_same hs hbw hgrows (sameTexters_push id rfl) (fun k c hc => ?_) ?_
    · exact (Heap.peek_subscribeAll _ _ _ o k).trans (Heap.peek_of_cell? hc)
    · intro hn
      show (Document.setValue _ _ _).content n = _
      rw [Document.content_setValue, Document.content_addListener]
      split
      · exact Content.setValue_of_isText (hbw.text hn) _
      · rfl
  | text =>
    refine keepsText_composes.holding h hs hgrows fun h₁ hs₁ hdocument hgrows₁ => ?_
    exact bindText_keepsText hq h₁ (hdocument ▸ hm) hs₁ hgrows₁
  | on event =>
    intro hb _ hk
    obtain rfl := Run.modify_eq_some.mp h
    exact hk.of_same hs (hb.of_grows hgrows) hgrows (sameTexters_of_watchers rfl)
      (fun _ _ hc => Heap.peek_of_cell? hc) fun _ => Document.content_addListener _ m event _ n

/-! ## Whole runs -/

/-- Whether a request sets the text of a node directly. -/
def Request.setsText {α : Type} (n : NodeId) : Request κ α → Bool
  | .setText m _ => m = n
  | _ => false

theorem simple_keepsText (hq : env.HooksRead)
    (hcall : env.CallsMove (AdvancesWith Nobody (KeepsText n o t))) {α : Type} (r : Request κ α)
    {a : α} (hr : r.isCompound = false) (hproper : r.isProper w = true)
    (hsets : r.setsText n = false) (h : r.perform env w = some (a, w')) (hs : w.Sound)
    (hgrows : w.Grows w') :
    KeepsText n o t w w' := by
  cases hquiet : r.isQuiet with
  | true =>
    intro hb _ hk
    obtain ⟨hwatchers, hcells, hcontent⟩ := quiet_eq_some hquiet h
    exact hk.of_same hs (hb.of_grows hgrows) hgrows (sameTexters_of_watchers hwatchers)
      (fun k c hc => Heap.peek_of_cell? (hcells o k c hc)) (hcontent n)
  | false =>
    -- what is left changes values, builds or updates watchers, or writes to a node
    have hshow : ∀ f : Document κ → Document κ, w' = w.mapDocument f →
        (w.document.has n → (w.document.content n).isText = true →
          (f w.document).content n = w.document.content n) → KeepsText n o t w w' := by
      rintro f rfl hf hb _ hk
      have hbw := hb.of_grows hgrows
      exact hk.of_same hs hbw hgrows (sameTexters_of_watchers rfl)
        (fun _ _ hc => Heap.peek_of_cell? hc) fun hn => hf hn (hbw.text hn)
    cases r with
    | write p key v => exact write_keepsText hq hcall h hproper hs hgrows
    | update i => exact update_keepsText hq hcall h hs hgrows
    | watch expression p code =>
      intro hb _ hk
      obtain ⟨hwatches, _⟩ := hq.watch_watches h
      refine hk.of_same hs (hb.of_grows hgrows) hgrows (sameTexters_of_watches hwatches ?_) ?_ ?_
      · rintro x ⟨_, hreaction⟩
        rw [hreaction]
        exact id
      · intro k c hc
        exact (hwatches.peek o k).trans (Heap.peek_of_cell? hc)
      · intro hn
        rw [hwatches.document]
    | setAttribute m name value =>
      refine hshow _ (Run.modify_eq_some.mp h).symm fun hn htext => ?_
      rw [Document.content_setAttribute]
      split
      · exact Content.setAttribute_of_isText htext name value
      · rfl
    | setText m text =>
      have hne : ¬ m = n := by simpa [Request.setsText] using hsets
      refine hshow _ (Run.modify_eq_some.mp h).symm fun hn _ => ?_
      rw [Document.content_setText _ _ _ hn, if_neg hne]
    | setValue m text =>
      refine hshow _ (Run.modify_eq_some.mp h).symm fun hn htext => ?_
      rw [Document.content_setValue]
      split
      · exact Content.setValue_of_isText htext text
      · rfl
    | newObject | newArray | ofJson | observe | newNode | appendChildren | detachChildren
    | listen => cases hquiet
    | _ => cases hr

/-- Proper user code that does not set the text of a node directly. -/
def Request.leavesText {α : Type} (n : NodeId) (w : World κ σ) (r : Request κ α) : Bool :=
  r.isProper w && !r.setsText n

theorem manners_leavesText :
    Manners fun {α} (w : World κ σ) (r : Request κ α) => r.leavesText n w := by
  refine ⟨?_, ?_, ?_, ?_, ?_, ?_, ?_⟩
  · intro α w r h
    simp only [Request.leavesText, Bool.and_eq_true] at h
    exact h.1
  all_goals intros
  all_goals simp_all [Request.leavesText, Request.isProper, Request.setsText, Value.isScalar]

theorem steps_keepText {host : Host κ σ}
    (henv : env.Orderly host (AdvancesWith Nobody (KeepsText n o t))) :
    Steps env (AdvancesWith Nobody (KeepsText n o t)) World.Sound World.Bindable
      fun w r => r.leavesText n w := by
  refine steps_advanceWith henv keepsText_composes manners_leavesText ?_ ?_ ?_
  · intro w user _ _ hk
    exact hk.congr rfl rfl rfl
  · intro α r w a w' hr hmay h hs hadvance
    simp only [Request.leavesText, Bool.and_eq_true, Bool.not_eq_true'] at hmay
    exact simple_keepsText henv.hooks henv.calls r hr hmay.1 hmay.2 h hs hadvance.grows
  · intro d m expression kit w u w' hm h hs hadvance
    exact bind_keepsText henv.hooks h hm hs hadvance.grows

/-- When nothing is in progress, a fresh text is the rendering. -/
theorem World.FreshText.eq_rendering (hf : w.FreshText n o t) (hb : w.TextBound n o t)
    (hsettled : w.Settled) : w.document.content n = .text (t.rendering w.heap o) := by
  obtain ⟨shown, hshown, hevery⟩ := hf.shown
  rw [hshown]
  congr 1
  refine Template.filled_congr fun key hkey => ?_
  obtain ⟨i, x, hx, hshows, rfl, htext, _⟩ := hevery key hkey
  obtain ⟨c, hc, hi⟩ := Heap.mem_subscribers.mp (hb.reactive hx hshows)
  have hdata := (hb.only hx hshows).1
  rw [← htext, hsettled i x c hx (by rw [hdata]; exact hc) hi, Heap.peek_of_cell? hc]

/-- Rendering a template in an orderly run gives what the heap gives. -/
theorem Host.render_eq_rendering {host : Host κ σ}
    {rule : {α : Type} → Option Occasion → World κ σ → Request κ α → Bool} {depth : Nat}
    {text : String} (hrun : host.run depth (.request (.render t o)) w = some (text, w'))
    (hob : host.Obeys (.orderly rule) depth (.request (.render t o)) w) :
    text = t.rendering w.heap o := by
  rw [Host.run_eq_runUnder hob] at hrun
  obtain ⟨_, _, hget, hrun⟩ := Run.bind_eq_some.mp hrun
  obtain ⟨rfl, rfl⟩ := Run.get_eq_some.mp hget
  split at hrun
  · exact ((host.envUnder_hooksRead rule depth).render_eq_some hrun).1
  · simp at hrun

/-- **Template text is never stale** if the template has one key, or if at each of its keys the
watchers of the node come before those with code of the user's: when a run of proper requests is
over, the text is the rendering of the template against the data as it is. -/
theorem content_eq_rendering {host : Host κ σ} {depth : Nat} {α : Type} {p : Program κ σ α}
    {user : σ} {a : α} (hrun : host.run depth p (.fresh user) = some (a, w))
    (hob : host.Obeys (.orderly fun _ w r => r.leavesText n w) depth p (.fresh user))
    (hbound : w.TextBound n o t) (hshows : ∃ i, w.ShowsText n i)
    (horder : t.OneKey ∨ ∀ key ∈ t.markers, w.RendersFirst n o key) :
    w.document.content n = .text (t.rendering w.heap o) ∧
      ∀ depth text w', host.run depth (.request (.render t o)) w = some (text, w') →
        host.Obeys (.orderly fun _ _ _ => true) depth (.request (.render t o)) w →
          w.document.content n = .text text := by
  have hkept := (Host.run_advances keepsText_composes steps_keepText
    (fun w user _ _ hk => hk.congr rfl rfl rfl)
    (sound_fresh user) hrun hob).2 hbound horder (.inl fun i hi => by
      obtain ⟨x, hx, _⟩ := hi
      cases hx)
  have htext : w.document.content n = .text (t.rendering w.heap o) := by
    rcases hkept with hnone | hf
    · obtain ⟨i, hi⟩ := hshows
      exact absurd hi (hnone i)
    · exact hf.eq_rendering hbound (settled_of_orderly hrun hob)
  refine ⟨htext, fun depth text w' hrun hob => ?_⟩
  rw [Host.render_eq_rendering hrun hob]
  exact htext

end DataBinding
