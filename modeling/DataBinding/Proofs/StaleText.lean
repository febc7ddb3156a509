import DataBinding.Proofs.Recording
import DataBinding.Proofs.TemplateText

/-!
# When template text goes stale

A text that follows a template is never stale where its watchers come first. Here is the converse:
whatever the template, as long as it has two keys, a callback that is subscribed to one of them
before the node is bound can leave the text stale. When its key turns to `1`, the callback writes
`1` to the other key, which renders the template with both, and then takes its own key back to what
the watchers of the node have seen last.

So the order of subscriptions that keeps the text fresh is not only enough: it is what it takes.
-/

namespace DataBinding

open World

variable {κ σ : Type}

/-! ## Renderings that differ -/

theorem String.append_inj_of_length {s s' t t' : String} (hlen : s.length = s'.length)
    (h : s ++ t = s' ++ t') : s = s' ∧ t = t' := by
  have hlist := congrArg String.toList h
  rw [String.toList_append, String.toList_append] at hlist
  rw [← String.length_toList, ← String.length_toList] at hlen
  obtain ⟨hs, ht⟩ := List.append_inj hlist hlen
  exact ⟨String.toList_inj.mp hs, String.toList_inj.mp ht⟩

/-- Texts of equal lengths can be told from each other in a filled template. -/
theorem Template.filled_inj {shown shown' : String → String} {t : Template}
    (hlen : ∀ key, (shown key).length = (shown' key).length)
    (h : t.filled shown = t.filled shown') : ∀ key ∈ t.markers, shown key = shown' key := by
  obtain ⟨segments⟩ := t
  induction segments with
  | nil => exact fun key hkey => absurd hkey (by simp [markers])
  | cons s rest ih =>
    have hsegment : (s.filled shown).length = (s.filled shown').length := by
      cases s with
      | literal text => rfl
      | marker key => exact hlen key
    obtain ⟨hs, hrest⟩ := String.append_inj_of_length hsegment h
    intro key hkey
    cases s with
    | literal text => exact ih hrest key hkey
    | marker k =>
      have hmem : key = k ∨ key ∈ Template.markers ⟨rest⟩ := by
        simpa [markers, Segment.key?] using hkey
      rcases hmem with rfl | hmem
      · exact hs
      · exact ih hrest key hmem

namespace TakingBack

/-! ## The run -/

/-- When the callback learns of `1`, it writes `1` to the key `b` and then takes `a` back. -/
def answer (a b : String) : Occasion → Program κ σ (Except ViewError Unit)
  | .changed (.text s) =>
    if s = "1" then
      .andThen (.request (.write ⟨0⟩ b (.text "1"))) fun _ =>
      .andThen (.request (.write ⟨0⟩ a (.text "0"))) fun _ => .done (.ok ())
    else .done (.ok ())
  | _ => .done (.ok ())

def host (a b : String) : Host κ σ where
  body _ := answer a b
  handles _ := []

/-- Sets the fields of the object to `0`. -/
def fill : List String → Program κ σ Unit
  | [] => .done ()
  | key :: rest => .andThen (.request (.write ⟨0⟩ key (.text "0"))) fun _ => fill rest

/-- An object whose fields are reactive, and a text node. -/
def setUp (keys : List String) : Program κ σ Unit :=
  .andThen (.request .newObject) fun _ =>
  .andThen (fill keys) fun _ =>
  .andThen (.request (.observe .silent (.object ⟨0⟩))) fun _ =>
  .andThen (.request (.newNode (.text ""))) fun _ => .done ()

/-- Binds the node to a template. -/
def bindNode (expression : String) (d : Dialect) : Program κ σ Unit :=
  .request (.bind .text ⟨0⟩ expression { data := ⟨0⟩, dialect := d })

/-- Watches a key with the callback. -/
def watchKey (code : κ) (a : String) : Program κ σ Unit :=
  .andThen (.request (.watch a ⟨0⟩ code)) fun _ => .done ()

/-- Writes `1` to a key after both have been done. -/
def program (keys : List String) (a : String) (first second : Program κ σ Unit) :
    Program κ σ Unit :=
  .andThen (setUp keys) fun _ => .andThen first fun _ => .andThen second fun _ =>
  .request (.write ⟨0⟩ a (.text "1"))

/-- The rule that user code keeps in these runs. -/
def rule {α : Type} (_ : Option Occasion) (w : World κ σ) (r : Request κ α) : Bool :=
  r.leavesText ⟨0⟩ w

/-! ## Who is subscribed -/

/-- The callback is subscribed to `a` and comes first there; all other watchers render the template
in the node, each for a key of its own. -/
structure Layout (code : κ) (a : String) (t : Template) (rest : List WatcherId) (w : World κ σ) :
    Prop where
  current : w.current = none
  node : w.document.has ⟨0⟩
  text : (w.document.content ⟨0⟩).isText = true
  silent : ∀ key c, w.heap.cell? ⟨0⟩ key = some c → c.hook = .silent
  callback : ∃ last, w.watcher? ⟨0⟩ = some { key := a, data := ⟨0⟩, last, reaction := .custom code }
  others : ∀ {i x}, w.watcher? i = some x → i ≠ ⟨0⟩ →
    x.data = ⟨0⟩ ∧ x.reaction = .render ⟨0⟩ t ∧ x.key ∈ t.markers ∧
      i ∈ w.heap.subscribers ⟨0⟩ x.key
  subscribed : ∀ {key i}, i ∈ w.heap.subscribers ⟨0⟩ key → i ≠ ⟨0⟩ →
    ∃ x, w.watcher? i = some x ∧ x.key = key
  first : w.heap.subscribers ⟨0⟩ a = ⟨0⟩ :: rest
  once : ⟨0⟩ ∉ rest
  elsewhere : ∀ key, key ≠ a → ⟨0⟩ ∉ w.heap.subscribers ⟨0⟩ key

/-- Nothing has been built or subscribed since: only values, last values and contents differ. -/
structure Later (w w' : World κ σ) : Prop where
  current : w'.current = w.current
  old : ∀ {i x}, w.watcher? i = some x → ∃ last, w'.watcher? i = some { x with last }
  new : ∀ {i x}, w'.watcher? i = some x → ∃ last, w.watcher? i = some { x with last }
  cell : ∀ key, ∃ value : Cell κ → Value,
    w'.heap.cell? ⟨0⟩ key = (w.heap.cell? ⟨0⟩ key).map fun c => { c with value := value c }
  document : w.document.Extends w'.document

variable {code : κ} {a : String} {t : Template} {rest : List WatcherId} {w w' : World κ σ}

theorem Later.subscribers (h : Later w w') (key : String) :
    w'.heap.subscribers ⟨0⟩ key = w.heap.subscribers ⟨0⟩ key := by
  obtain ⟨value, hcell⟩ := h.cell key
  unfold Heap.subscribers
  rw [hcell]
  cases w.heap.cell? ⟨0⟩ key <;> rfl

theorem Layout.later (hw : Layout code a t rest w) (h : Later w w') : Layout code a t rest w' where
  current := h.current.trans hw.current
  node := h.document.has hw.node
  text := by
    rw [(h.document.kind hw.node).2]
    exact hw.text
  silent := by
    intro key c hc
    obtain ⟨value, hcell⟩ := h.cell key
    obtain ⟨c₀, hc₀, rfl⟩ := Option.map_eq_some_iff.mp (hcell.symm.trans hc)
    exact hw.silent key c₀ hc₀
  callback := by
    obtain ⟨last, hlast⟩ := hw.callback
    exact h.old hlast
  others := by
    intro i x hx hi
    obtain ⟨last, hx₀⟩ := h.new hx
    obtain ⟨hdata, hreaction, hkey, hmem⟩ := hw.others hx₀ hi
    rw [h.subscribers]
    exact ⟨hdata, hreaction, hkey, hmem⟩
  subscribed := by
    intro key i hmem hi
    rw [h.subscribers] at hmem
    obtain ⟨x, hx, hkey⟩ := hw.subscribed hmem hi
    obtain ⟨last, hx'⟩ := h.old hx
    exact ⟨_, hx', hkey⟩
  first := (h.subscribers a).trans hw.first
  once := hw.once
  elsewhere key hkey := by
    rw [h.subscribers]
    exact hw.elsewhere key hkey

theorem later_shown (w : World κ σ) {document : Document κ}
    (hdocument : w.document.Extends document) (held : List Handle) (user : σ) :
    Later w { w with document, held, user } where
  current := rfl
  old hx := ⟨_, hx⟩
  new hx := ⟨_, hx⟩
  cell _ := ⟨Cell.value, Option.map_id_apply.symm⟩
  document := hdocument

theorem later_setLast (w : World κ σ) (i : WatcherId) (v : Value) : Later w (w.setLast i v) where
  current := rfl
  old := by
    intro j x hx
    rw [watcher?_setLast, hx]
    split
    · exact ⟨v, rfl⟩
    · exact ⟨x.last, rfl⟩
  new := by
    intro j x hx
    rw [watcher?_setLast] at hx
    split at hx
    · obtain ⟨y, hy, rfl⟩ := Option.map_eq_some_iff.mp hx
      exact ⟨y.last, hy⟩
    · exact ⟨x.last, hx⟩
  cell _ := ⟨Cell.value, Option.map_id_apply.symm⟩
  document := .refl _

/-- The heap after a text has been written: there is nothing in it to observe. -/
theorem heap_stored (w : World κ σ) (o : ObjectId) (key : String) (c : Cell κ) (s : String)
    (user : σ) : (w.stored o key c (.text s) user).heap = w.heap.store o key (.text s) := by
  show (w.heap.intercept c.hook [.text s]).store o key (.text s) = _
  rw [Heap.intercept, Heap.intercept]
  rintro p ⟨⟩

theorem later_stored (w : World κ σ) (key : String) (c : Cell κ) (s : String) (user : σ) :
    Later w (w.stored ⟨0⟩ key c (.text s) user) where
  current := rfl
  old hx := ⟨_, hx⟩
  new hx := ⟨_, hx⟩
  cell k := by
    refine ⟨fun c => if k = key then .text s else c.value, ?_⟩
    rw [heap_stored, Heap.cell?_store]
    by_cases hk : k = key
    · simp [hk]
    · simp [hk]
  document := .refl _

/-! ## What there is and what has been seen -/

/-- A moment of the run: what the keys have, what the callback has seen last, and of which keys the
other watchers have seen nothing but `0`. -/
structure Moment (code : κ) (a : String) (t : Template) (rest : List WatcherId)
    (value : String → String) (seen : String) (unseen : String → Prop) (w : World κ σ) : Prop
    extends Layout code a t rest w where
  value : ∀ key ∈ t.markers, ∃ c, w.heap.cell? ⟨0⟩ key = some c ∧ c.value = .text (value key)
  seen : (w.watcher? ⟨0⟩).map Watcher.last = some (.text seen)
  unseen : ∀ {i x}, w.watcher? i = some x → i ≠ ⟨0⟩ → unseen x.key → x.last = .text "0"
  every : ∀ key ∈ t.markers, ∃ i x, w.watcher? i = some x ∧ i ≠ ⟨0⟩ ∧ x.key = key

variable {value : String → String} {seen : String} {unseen : String → Prop}

theorem Moment.peek (hm : Moment code a t rest value seen unseen w) {key : String}
    (hkey : key ∈ t.markers) : w.heap.peek ⟨0⟩ key = .text (value key) := by
  obtain ⟨c, hc, hvalue⟩ := hm.value key hkey
  rw [Heap.peek_of_cell? hc, hvalue]

/-- What a template shows at such a moment. -/
theorem Moment.rendering (hm : Moment code a t rest value seen unseen w) :
    t.rendering w.heap ⟨0⟩ = t.filled value := by
  refine Template.filled_congr fun key hkey => ?_
  rw [hm.peek hkey]
  rfl

theorem Moment.shown (hm : Moment code a t rest value seen unseen w) {document : Document κ}
    (hdocument : w.document.Extends document) (held : List Handle) (user : σ) :
    Moment code a t rest value seen unseen { w with document, held, user } :=
  { hm.toLayout.later (later_shown w hdocument held user) with
    value := hm.value
    seen := hm.seen
    unseen := hm.unseen
    every := hm.every }

theorem Moment.stored (hm : Moment code a t rest value seen unseen w) {key : String} {c : Cell κ}
    {s : String} {value' : String → String} (user : σ)
    (hvalue : ∀ k ∈ t.markers, value' k = if k = key then s else value k) :
    Moment code a t rest value' seen unseen (w.stored ⟨0⟩ key c (.text s) user) :=
  { hm.toLayout.later (later_stored w key c s user) with
    value := by
      intro k hk
      obtain ⟨c', hc', hvalue'⟩ := hm.value k hk
      rw [heap_stored, Heap.cell?_store, hc', hvalue k hk]
      by_cases hkey : k = key
      · exact ⟨{ c' with value := .text s }, by simp [hkey], by simp [hkey]⟩
      · exact ⟨c', by simp [hkey], by simp [hkey, hvalue']⟩
    seen := hm.seen
    unseen := hm.unseen
    every := hm.every }

theorem Moment.of_seen (hm : Moment code a t rest value seen unseen w) (unseen' : String → Prop)
    (h : ∀ key, unseen' key → unseen key) : Moment code a t rest value seen unseen' w :=
  { hm with unseen := fun hx hi hkey => hm.unseen hx hi (h _ hkey) }

/-- The callback has seen another value. -/
theorem Moment.setLast_callback (hm : Moment code a t rest value seen unseen w) (s : String) :
    Moment code a t rest value s unseen (w.setLast ⟨0⟩ (.text s)) :=
  { hm.toLayout.later (later_setLast w ⟨0⟩ (.text s)) with
    value := hm.value
    seen := by
      obtain ⟨last, hlast⟩ := hm.callback
      rw [watcher?_setLast_self hlast]
      rfl
    unseen := by
      intro i x hx hi
      rw [watcher?_setLast_of_ne w hi.symm] at hx
      exact hm.unseen hx hi
    every := by
      intro key hkey
      obtain ⟨i, x, hx, hi, hxkey⟩ := hm.every key hkey
      refine ⟨i, x, ?_, hi, hxkey⟩
      rw [watcher?_setLast_of_ne w hi.symm]
      exact hx }

/-- Another watcher has seen a value. -/
theorem Moment.setLast (hm : Moment code a t rest value seen unseen w) {i : WatcherId}
    {x : Watcher κ} {v : Value} (hx : w.watcher? i = some x) (hi : i ≠ ⟨0⟩)
    (hv : unseen x.key → v = .text "0") :
    Moment code a t rest value seen unseen (w.setLast i v) :=
  { hm.toLayout.later (later_setLast w i v) with
    value := hm.value
    seen := by
      rw [watcher?_setLast_of_ne w hi]
      exact hm.seen
    unseen := by
      intro j y hy hj hkey
      rw [watcher?_setLast] at hy
      split at hy
      · next hij =>
        rw [← hij, hx] at hy
        obtain rfl := Option.some.inj hy
        exact hv hkey
      · exact hm.unseen hy hj hkey
    every := by
      intro key hkey
      obtain ⟨j, y, hy, hj, hykey⟩ := hm.every key hkey
      obtain ⟨last, hy'⟩ := (later_setLast w i v).old hy
      exact ⟨j, _, hy', hj, hykey⟩ }

/-! ## Updates -/

variable {env : Env κ σ} {key : String}

theorem Layout.recordedBy (hw : Layout code a t rest w) (env : Env κ σ) : w.RecordedBy env ⟨0⟩ := by
  intro key c hc
  rw [hw.silent key c hc]
  exact env.records_silent

/-- A watcher of the node leaves the content alone if it has seen the value, and fills in the
template otherwise. -/
theorem Moment.update (hm : Moment code a t rest value seen unseen w) (hq : env.HooksRead)
    (hheld : .object ⟨0⟩ ∈ w.held) {i : WatcherId} (hmem : i ∈ w.heap.subscribers ⟨0⟩ key)
    (hi : i ≠ ⟨0⟩) (hunseen : unseen key → value key = "0") :
    ∃ w' x, DataBinding.update env i w = some ((), w') ∧
      Moment code a t rest value seen unseen w' ∧ w'.heap = w.heap ∧ w'.held = w.held ∧
      w.watcher? i = some x ∧ x.key = key ∧
      w'.document.content ⟨0⟩ = if x.last.strictEq (.text (value key)) then
        w.document.content ⟨0⟩ else .text (t.filled value) := by
  obtain ⟨x, hx, rfl⟩ := hm.subscribed hmem hi
  obtain ⟨hdata, hreaction, hkey, _⟩ := hm.others hx hi
  have hpeek := hm.peek hkey
  obtain ⟨document, user, hupdate, hdocument⟩ := update_renders (x := x) hq
    (hdata ▸ hm.recordedBy env) hm.current hx (isAlive_of_mem_held (hdata ▸ hheld)) hreaction
  rw [hdata, hpeek] at hupdate hdocument
  have hset : Moment code a t rest value seen unseen (w.setLast i (.text (value x.key))) :=
    hm.setLast hx hi fun h => by rw [hunseen h]
  rw [hm.rendering] at hdocument
  refine ⟨_, x, hupdate, ?_, rfl, rfl, hx, rfl, ?_⟩
  · refine hset.shown ?_ w.held user
    rw [hdocument]
    split
    · exact .refl _
    · exact .setText _ _ _
  · show document.content ⟨0⟩ = _
    rw [hdocument]
    split
    · rfl
    · exact content_setText_of_isText hm.node hm.text _

/-- Watchers that have seen the value, or find the template filled in already, leave the content
alone. -/
theorem Moment.updateAll (hm : Moment code a t rest value seen unseen w) (hq : env.HooksRead)
    (hheld : .object ⟨0⟩ ∈ w.held) {is : List WatcherId}
    (his : ∀ i ∈ is, i ∈ w.heap.subscribers ⟨0⟩ key ∧ i ≠ ⟨0⟩)
    (hunseen : unseen key → value key = "0")
    (hcontent : unseen key ∨ w.document.content ⟨0⟩ = .text (t.filled value)) :
    ∃ w', DataBinding.updateAll env is w = some ((), w') ∧
      Moment code a t rest value seen unseen w' ∧ w'.held = w.held ∧
      w'.document.content ⟨0⟩ = w.document.content ⟨0⟩ := by
  induction is generalizing w with
  | nil => exact ⟨w, rfl, hm, rfl, rfl⟩
  | cons i rest ih =>
    obtain ⟨hmem, hi⟩ := his i List.mem_cons_self
    obtain ⟨w₁, x, hupdate, hm₁, hheap, hheld₁, hx, rfl, hcontent₁⟩ :=
      hm.update hq hheld hmem hi hunseen
    have hsame : w₁.document.content ⟨0⟩ = w.document.content ⟨0⟩ := by
      rw [hcontent₁]
      split
      · rfl
      · next hnew =>
        rcases hcontent with hkey | hfilled
        · rw [hm.unseen hx hi hkey, hunseen hkey] at hnew
          exact absurd rfl hnew
        · exact hfilled.symm
    obtain ⟨w', hrest, hm', hheld', hcontent'⟩ := ih hm₁ (by rw [hheld₁]; exact hheld)
      (fun j hj => by rw [hheap]; exact his j (List.mem_cons_of_mem _ hj))
      (by rw [hsame]; exact hcontent)
    exact ⟨w', Run.bind_eq_some.mpr ⟨(), w₁, hupdate, hrest⟩, hm', hheld'.trans hheld₁,
      hcontent'.trans hsame⟩

/-- The first watcher to which a value is new fills in the template. -/
theorem Moment.updateAll_new (hm : Moment code a t rest value seen unseen w) (hq : env.HooksRead)
    (hheld : .object ⟨0⟩ ∈ w.held) {is : List WatcherId}
    (his : ∀ i ∈ is, i ∈ w.heap.subscribers ⟨0⟩ key ∧ i ≠ ⟨0⟩) (hne : is ≠ [])
    (hunseen : unseen key) (hvalue : value key ≠ "0") :
    ∃ w', DataBinding.updateAll env is w = some ((), w') ∧
      Moment code a t rest value seen (fun k => unseen k ∧ k ≠ key) w' ∧ w'.held = w.held ∧
      w'.document.content ⟨0⟩ = .text (t.filled value) := by
  cases is with
  | nil => exact absurd rfl hne
  | cons i rest =>
    obtain ⟨hmem, hi⟩ := his i List.mem_cons_self
    obtain ⟨w₁, x, hupdate, hm₁, hheap, hheld₁, hx, rfl, hcontent₁⟩ :=
      (hm.of_seen (fun k => unseen k ∧ k ≠ key) fun _ h => h.1).update hq hheld hmem hi
        fun h => absurd rfl h.2
    have hnew : ¬ (Value.text "0").strictEq (.text (value x.key)) = true := by
      simpa [Value.strictEq] using hvalue.symm
    rw [hm.unseen hx hi hunseen, if_neg hnew] at hcontent₁
    obtain ⟨w', hrest, hm', hheld', hcontent'⟩ := hm₁.updateAll hq (by rw [hheld₁]; exact hheld)
      (fun j hj => by rw [hheap]; exact his j (List.mem_cons_of_mem _ hj))
      (fun h => absurd rfl h.2) (.inr hcontent₁)
    exact ⟨w', Run.bind_eq_some.mpr ⟨(), w₁, hupdate, hrest⟩, hm', hheld'.trans hheld₁,
      hcontent'.trans hcontent₁⟩

/-- The update of the callback comes to an end if its answer does. -/
theorem Moment.update_callback (hm : Moment code a t rest value seen unseen w) (ha : a ∈ t.markers)
    (hheld : .object ⟨0⟩ ∈ w.held) (hne : seen ≠ value a) (P : World κ σ → Prop)
    (hcall : ∀ w₁, Moment code a t rest value (value a) unseen w₁ → .object ⟨0⟩ ∈ w₁.held →
      w₁.heap = w.heap → w₁.document = w.document →
      ∃ w₂, env.call code (.changed (.text (value a))) w₁ = some (.ok (), w₂) ∧ P w₂) :
    ∃ w₂, DataBinding.update env ⟨0⟩ w = some ((), { w₂ with held := w.held }) ∧ P w₂ := by
  obtain ⟨last, hlast⟩ := hm.callback
  have hseen := hm.seen
  rw [hlast] at hseen
  obtain rfl : last = .text seen := Option.some.inj hseen
  have hpeek := hm.peek ha
  let held : List Handle := .watcher ⟨0⟩ :: .object ⟨0⟩ :: (w.heap.peek ⟨0⟩ a).handles ++
    (Value.text seen).handles ++ w.held
  obtain ⟨w₂, hanswer, hP⟩ := hcall { w.setLast ⟨0⟩ (w.heap.peek ⟨0⟩ a) with held }
    (by
      rw [hpeek]
      exact (hm.setLast_callback (value a)).shown (.refl _) held w.user)
    (List.mem_cons_of_mem _ List.mem_cons_self) rfl rfl
  refine ⟨w₂, update_eq_react hlast (isAlive_of_mem_held hheld) ?_ ?_, hP⟩
  · show (Value.text seen).strictEq (w.heap.peek ⟨0⟩ a) = false
    rw [hpeek]
    simpa [Value.strictEq] using hne
  · rw [← hpeek] at hanswer
    exact Run.discard_eq_some.mpr ⟨_, hanswer⟩

/-! ## Answers -/

variable {b : String}

/-- The environment of these runs. -/
def guarded (a b : String) (depth : Nat) : Env κ σ := (host a b).envUnder (.orderly rule) depth

theorem guarded_hooksRead (a b : String) (depth : Nat) :
    (guarded a b depth : Env κ σ).HooksRead := Host.envUnder_hooksRead _ _ _

theorem exec_andThen {on : Option Occasion} {env : Env κ σ} {α β : Type} {p : Program κ σ α}
    {next : α → Program κ σ β} {r : α} {res : β × World κ σ} {w₁ : World κ σ}
    (hp : p.execUnder (.orderly rule) on env w = some (r, w₁))
    (hnext : (next r).execUnder (.orderly rule) on env w₁ = some res) :
    (p.andThen next).execUnder (.orderly rule) on env w = some res :=
  Run.bind_eq_some.mpr ⟨r, w₁, hp, hnext⟩

/-- A request within the rules is performed. -/
theorem exec_request {on : Option Occasion} {env : Env κ σ} {α : Type} {r : Request κ α}
    {res : α × World κ σ} (hon : on.any Occasion.isAccess = false)
    (hrule : r.leavesText ⟨0⟩ w = true) (h : r.perform env w = some res) :
    (Program.request r).execUnder (.orderly rule) on env w = some res := by
  refine Run.bind_eq_some.mpr ⟨w, w, Run.get_eq_some.mpr ⟨rfl, rfl⟩, ?_⟩
  have hmay : (Conduct.orderly rule).mayRequest on w r = true := by
    simp only [Conduct.orderly, hon]
    exact hrule
  rw [if_pos hmay]
  exact h

/-- Nothing is done about a key that has been taken back. -/
theorem call_zero (depth : Nat) (w : World κ σ) :
    (guarded a b (depth + 1)).call code (.changed (.text "0")) w = some (.ok (), w) := by
  have hanswer : (answer a b (.changed (.text "0")) : Program κ σ (Except ViewError Unit)) =
      .done (.ok ()) := by simp [answer]
  show (answer a b (.changed (.text "0"))).execUnder (.orderly rule)
    (some (.changed (.text "0"))) (guarded a b depth) w = _
  rw [hanswer]
  rfl

/-- Writing to the other key fills in the template with the value that is still to be taken back. -/
theorem Moment.write_other {env : Env κ σ} (hm : Moment code a t rest value seen unseen w)
    (hq : env.HooksRead) (hb : b ∈ t.markers) (hab : b ≠ a) (hunseen : unseen b)
    (hzero : value b = "0") {value' : String → String}
    (hvalue : ∀ k ∈ t.markers, value' k = if k = b then "1" else value k) :
    ∃ w', write env ⟨0⟩ b (.text "1") w = some ((), w') ∧
      Moment code a t rest value' seen (fun k => unseen k ∧ k ≠ b) w' ∧ w'.held = w.held ∧
      w'.document.content ⟨0⟩ = .text (t.filled value') := by
  obtain ⟨c, hc, hold⟩ := hm.value b hb
  have hsubs := Heap.subscribers_of_cell? hc
  have hne : c.value.strictEq (.text "1") = false := by
    rw [hold, hzero]
    decide
  have hlater := later_stored w b c "1" w.user
  have hsome : c.subscribers ≠ [] := by
    obtain ⟨i, x, hx, hi, rfl⟩ := hm.every b hb
    obtain ⟨_, _, _, hmem⟩ := hm.others hx hi
    rw [hsubs] at hmem
    exact List.ne_nil_of_mem hmem
  have his : ∀ i ∈ c.subscribers,
      i ∈ (w.stored ⟨0⟩ b c (.text "1") w.user).heap.subscribers ⟨0⟩ b ∧ i ≠ ⟨0⟩ := by
    intro i hi
    rw [hlater.subscribers, hsubs]
    refine ⟨hi, ?_⟩
    rintro rfl
    exact hm.elsewhere b hab (hsubs ▸ hi)
  have hone : value' b ≠ "0" := by
    rw [hvalue b hb, if_pos rfl]
    decide
  obtain ⟨w', hall, hm', _, hcontent⟩ :=
    (hm.stored w.user hvalue).updateAll_new hq List.mem_cons_self his hsome hunseen hone
  exact ⟨_, write_eq_updateAll hc (hm.silent b c hc) hne hall, hm'.shown (.refl _) w.held w'.user,
    rfl, hcontent⟩

/-- Writing to the key of the callback updates the callback first; the watchers of the node find
nothing new if the key is `0` by then. -/
theorem Moment.write_own {env : Env κ σ} (hm : Moment code a t rest value seen unseen w)
    (hq : env.HooksRead) (ha : a ∈ t.markers) {s : String} (hne : value a ≠ s) (hseen : seen ≠ s)
    {value₁ value₂ : String → String} {unseen₂ : String → Prop} {seen₂ : String}
    {content : Content} (hvalue : ∀ k ∈ t.markers, value₁ k = if k = a then s else value k)
    (hcall : ∀ w₁, Moment code a t rest value₁ s unseen w₁ → w₁.document = w.document →
      ∃ w₂, env.call code (.changed (.text s)) w₁ = some (.ok (), w₂) ∧
        Moment code a t rest value₂ seen₂ unseen₂ w₂ ∧ w₂.document.content ⟨0⟩ = content)
    (hzero : value₂ a = "0") (hunseen : unseen₂ a) :
    ∃ w', write env ⟨0⟩ a (.text s) w = some ((), w') ∧
      Moment code a t rest value₂ seen₂ unseen₂ w' ∧ w'.held = w.held ∧
      w'.document.content ⟨0⟩ = content := by
  obtain ⟨c, hc, hold⟩ := hm.value a ha
  have hsubs := Heap.subscribers_of_cell? hc
  have hnew : c.value.strictEq (.text s) = false := by
    rw [hold]
    simpa [Value.strictEq] using hne
  obtain rfl : value₁ a = s := by rw [hvalue a ha, if_pos rfl]
  have hstored : Moment code a t rest value₁ seen unseen
      (w.stored ⟨0⟩ a c (.text (value₁ a)) w.user) := hm.stored w.user hvalue
  -- the callback is updated first, and what it writes is over before the next watcher is updated
  obtain ⟨w₂, hupdate, hm₂, hcontent₂⟩ := hstored.update_callback ha List.mem_cons_self hseen
    (fun w₂ => Moment code a t rest value₂ seen₂ unseen₂ w₂ ∧ w₂.document.content ⟨0⟩ = content)
    fun w₁ hm₁ _ _ hdocument => hcall w₁ hm₁ hdocument
  have hquiet : ∀ i ∈ rest, i ∈ w₂.heap.subscribers ⟨0⟩ a ∧ i ≠ ⟨0⟩ := by
    intro i hi
    rw [hm₂.first]
    refine ⟨List.mem_cons_of_mem _ hi, ?_⟩
    rintro rfl
    exact hm₂.once hi
  obtain ⟨w', hrest, hm', _, hcontent'⟩ :=
    (hm₂.shown (.refl _) (.object ⟨0⟩ :: w.held) w₂.user).updateAll hq List.mem_cons_self hquiet
      (fun _ => hzero) (.inl hunseen)
  have hall : DataBinding.updateAll env c.subscribers
      (w.stored ⟨0⟩ a c (.text (value₁ a)) w.user) = some ((), w') := by
    rw [← hsubs, hm.first]
    exact Run.bind_eq_some.mpr ⟨(), _, hupdate, hrest⟩
  exact ⟨_, write_eq_updateAll hc (hm.silent a c hc) hnew hall,
    hm'.shown (.refl _) w.held w'.user, rfl, hcontent'.trans hcontent₂⟩

/-- The values of the two keys; all others stay `0`. -/
def values (a b x y : String) : String → String := fun key =>
  if key = a then x else if key = b then y else "0"

theorem values_zero (a b key : String) : values a b "0" "0" key = "0" := by
  unfold values
  split
  · rfl
  · split <;> rfl

theorem values_own (a b x x' y key : String) :
    values a b x' y key = if key = a then x' else values a b x y key := by
  unfold values
  split <;> rfl

theorem values_other (hab : a ≠ b) (x y y' key : String) :
    values a b x y' key = if key = b then y' else values a b x y key := by
  unfold values
  by_cases hkey : key = b
  · rw [if_pos hkey, if_neg (hkey ▸ hab.symm), if_pos hkey]
  · rw [if_neg hkey, if_neg hkey, if_neg hkey]

/-- What the callback does about `1`. -/
theorem Moment.call_one (hm : Moment code a t rest (values a b "1" "0") "1" (fun _ => True) w)
    (ha : a ∈ t.markers) (hb : b ∈ t.markers) (hab : a ≠ b) (depth : Nat) :
    ∃ w', (guarded a b (depth + 2)).call code (.changed (.text "1")) w = some (.ok (), w') ∧
      Moment code a t rest (values a b "0" "1") "0" (fun k => k ≠ b) w' ∧
      w'.document.content ⟨0⟩ = .text (t.filled (values a b "1" "1")) := by
  have hq : (guarded a b (depth + 1) : Env κ σ).HooksRead := guarded_hooksRead a b _
  have hzero : values a b "1" "0" b = "0" := by simp [values, hab.symm]
  have hone : values a b "1" "1" a ≠ "0" := by simp [values]
  have hback : values a b "0" "1" a = "0" := by simp [values]
  -- the write to the other key renders the template with both
  obtain ⟨w₁, hwrite₁, hm₁, _, hcontent₁⟩ :=
    hm.write_other hq hb hab.symm trivial hzero fun k _ => values_other hab "1" "0" "1" k
  -- the watchers of `a` other than the callback have not been updated yet
  have hm₁ := hm₁.of_seen (fun k => k ≠ b) fun _ h => ⟨trivial, h⟩
  obtain ⟨w₂, hwrite₂, hm₂, _, hcontent₂⟩ := hm₁.write_own hq ha hone (by decide)
    (fun k _ => values_own a b "1" "0" "1" k)
    (fun w' hm' hdocument => ⟨w', call_zero depth w', hm', by rw [hdocument]⟩) hback hab
  have hanswer : (answer a b (.changed (.text "1")) : Program κ σ (Except ViewError Unit)) =
      .andThen (.request (.write ⟨0⟩ b (.text "1"))) fun _ =>
      .andThen (.request (.write ⟨0⟩ a (.text "0"))) fun _ => .done (.ok ()) := by simp [answer]
  refine ⟨w₂, ?_, hm₂, hcontent₂.trans hcontent₁⟩
  show (answer a b (.changed (.text "1"))).execUnder (.orderly rule)
    (some (.changed (.text "1"))) (guarded a b (depth + 1)) w = _
  rw [hanswer]
  exact exec_andThen (exec_request rfl rfl hwrite₁)
    (exec_andThen (exec_request rfl rfl hwrite₂) rfl)

/-- From a moment at which everything is `0` and seen, a write leaves the text stale. -/
theorem Moment.write_one (hm : Moment code a t rest (values a b "0" "0") "0" (fun _ => True) w)
    (ha : a ∈ t.markers) (hb : b ∈ t.markers) (hab : a ≠ b) (depth : Nat) :
    ∃ w', write (guarded a b (depth + 2)) ⟨0⟩ a (.text "1") w = some ((), w') ∧
      Moment code a t rest (values a b "0" "1") "0" (fun k => k ≠ b) w' ∧
      w'.document.content ⟨0⟩ = .text (t.filled (values a b "1" "1")) := by
  have hzero : values a b "0" "0" a ≠ "1" := by
    rw [values_zero]
    decide
  have hback : values a b "0" "1" a = "0" := by simp [values]
  obtain ⟨w', hwrite, hm', _, hcontent⟩ := hm.write_own (guarded_hooksRead a b (depth + 2)) ha
    hzero (by decide) (fun k _ => values_own a b "0" "1" "0" k)
    (fun w₁ hm₁ _ => hm₁.call_one ha hb hab depth) hback hab
  exact ⟨w', hwrite, hm', hcontent⟩

/-! ## Up to the binding -/

/-- The layout is there, all keys of the template are `0`, and nobody has seen anything else. -/
structure Ready (code : κ) (a : String) (t : Template) (rest : List WatcherId) (w : World κ σ) :
    Prop extends Layout code a t rest w where
  zero : ∀ key ∈ t.markers, ∃ c, w.heap.cell? ⟨0⟩ key = some c ∧ c.value = .text "0"
  last : ∀ {i x}, w.watcher? i = some x → x.last = .text "0"

theorem Ready.moment (hw : Ready code a t rest w)
    (hevery : ∀ key ∈ t.markers, ∃ i x, w.watcher? i = some x ∧ i ≠ ⟨0⟩ ∧ x.key = key) :
    Moment code a t rest (values a b "0" "0") "0" (fun _ => True) w :=
  { hw.toLayout with
    value := by
      intro key hkey
      rw [values_zero]
      exact hw.zero key hkey
    seen := by
      obtain ⟨last, hlast⟩ := hw.callback
      rw [hlast, ← hw.last hlast]
      rfl
    unseen := fun hx _ _ => hw.last hx
    every := hevery }

/-- The world with one more watcher. -/
def watched (key : String) (reaction : Reaction κ) (user : σ) (w : World κ σ) : World κ σ :=
  { w with
    watchers := w.watchers.push { key, data := ⟨0⟩, last := w.heap.peek ⟨0⟩ key, reaction }
    heap := w.heap.subscribeAll (some ⟨w.watchers.size⟩) [(⟨0⟩, key)]
    user }

variable {reaction : Reaction κ} {user : σ}

theorem watcher?_watched (w : World κ σ) (i : WatcherId) :
    (watched key reaction user w).watcher? i = if i = ⟨w.watchers.size⟩ then
      some { key, data := ⟨0⟩, last := w.heap.peek ⟨0⟩ key, reaction }
    else w.watcher? i :=
  watcher?_push w _ i

theorem watcher?_watched_of_some {i : WatcherId} {x : Watcher κ} (hx : w.watcher? i = some x) :
    (watched key reaction user w).watcher? i = some x := by
  rw [watcher?_watched, if_neg (ne_next_of_watcher? hx), hx]

theorem cell?_watched (w : World κ σ) (k : String) :
    (watched key reaction user w).heap.cell? ⟨0⟩ k = (w.heap.cell? ⟨0⟩ k).map fun c =>
      { c with subscribers := c.subscribers ++ if key = k then [⟨w.watchers.size⟩] else [] } := by
  unfold watched
  dsimp only
  rw [Heap.cell?_subscribeAll, List.count_singleton]
  by_cases hk : key = k <;> simp [hk]

theorem subscribers_watched {c : Cell κ} (hc : w.heap.cell? ⟨0⟩ key = some c) (k : String) :
    (watched key reaction user w).heap.subscribers ⟨0⟩ k =
      w.heap.subscribers ⟨0⟩ k ++ if key = k then [⟨w.watchers.size⟩] else [] := by
  unfold Heap.subscribers
  rw [cell?_watched]
  cases hk : w.heap.cell? ⟨0⟩ k with
  | some c => rfl
  | none =>
    have hne : ¬ key = k := by
      rintro rfl
      rw [hc] at hk
      cases hk
    simp [hne]

theorem Layout.watched (hw : Layout code a t rest w) (hkey : key ∈ t.markers) {c : Cell κ}
    (hc : w.heap.cell? ⟨0⟩ key = some c) (user : σ) :
    Layout code a t (rest ++ if key = a then [⟨w.watchers.size⟩] else [])
      (watched key (.render ⟨0⟩ t) user w) := by
  obtain ⟨last, hcallback⟩ := hw.callback
  have hnew : (⟨0⟩ : WatcherId) ≠ ⟨w.watchers.size⟩ := ne_next_of_watcher? hcallback
  have hold : ∀ (is : List WatcherId) (k : String), ⟨0⟩ ∉ is →
      ⟨0⟩ ∉ is ++ if key = k then [⟨w.watchers.size⟩] else [] := by
    intro is k his hmem
    rcases List.mem_append.mp hmem with hmem | hmem
    · exact his hmem
    · split at hmem
      · exact hnew (List.mem_singleton.mp hmem)
      · cases hmem
  -- the new watcher goes to the end of its list, so the callback stays first
  exact {
    current := hw.current
    node := hw.node
    text := hw.text
    silent := by
      intro k c' hc'
      rw [cell?_watched] at hc'
      obtain ⟨c₀, hc₀, rfl⟩ := Option.map_eq_some_iff.mp hc'
      exact hw.silent k c₀ hc₀
    callback := ⟨last, watcher?_watched_of_some hcallback⟩
    others := by
      intro i x hx hi
      rw [subscribers_watched hc]
      rw [watcher?_watched] at hx
      split at hx
      · next hsize =>
        obtain rfl := Option.some.inj hx
        exact ⟨rfl, rfl, hkey, by simp [hsize]⟩
      · obtain ⟨hdata, hreaction, hxkey, hmem⟩ := hw.others hx hi
        exact ⟨hdata, hreaction, hxkey, List.mem_append_left _ hmem⟩
    subscribed := by
      intro k i hmem hi
      rw [subscribers_watched hc] at hmem
      rcases List.mem_append.mp hmem with hmem | hmem
      · obtain ⟨x, hx, hxkey⟩ := hw.subscribed hmem hi
        exact ⟨x, watcher?_watched_of_some hx, hxkey⟩
      · split at hmem
        · next hk =>
          obtain rfl := List.mem_singleton.mp hmem
          exact ⟨_, by rw [watcher?_watched, if_pos rfl], hk⟩
        · cases hmem
    first := by
      rw [subscribers_watched hc, hw.first]
      rfl
    once := hold _ _ hw.once
    elsewhere := by
      intro k hk
      rw [subscribers_watched hc]
      exact hold _ _ (hw.elsewhere k hk) }

/-- One more watcher of the node. -/
theorem Ready.watch (hw : Ready code a t rest w) (env : Env κ σ) (hkey : key ∈ t.markers)
    (htrim : Text.trim key = key) :
    ∃ i w' rest', DataBinding.watch env key ⟨0⟩ (.render ⟨0⟩ t) w = some (i, w') ∧
      Ready code a t rest' w' := by
  obtain ⟨user, hwatch⟩ := watch_eq (hw.recordedBy env) key (.render ⟨0⟩ t)
  rw [htrim] at hwatch
  obtain ⟨c, hc, hzero⟩ := hw.zero key hkey
  have hlayout := hw.toLayout.watched hkey hc user
  exact ⟨_, watched key (.render ⟨0⟩ t) user w, _, hwatch, { hlayout with
    zero := by
      intro k hk
      obtain ⟨c₀, hc₀, hvalue⟩ := hw.zero k hk
      refine ⟨{ c₀ with
        subscribers := c₀.subscribers ++ if key = k then [⟨w.watchers.size⟩] else [] }, ?_, hvalue⟩
      rw [cell?_watched, hc₀]
      rfl
    last := by
      intro i x hx
      rw [watcher?_watched] at hx
      split at hx
      · obtain rfl := Option.some.inj hx
        exact (Heap.peek_of_cell? hc).trans hzero
      · exact hw.last hx }⟩

theorem Ready.watchMarkers (hw : Ready code a t rest w) (env : Env κ σ) {keys : List String}
    (hkeys : ∀ key ∈ keys, key ∈ t.markers ∧ Text.trim key = key) :
    ∃ w' rest', DataBinding.watchMarkers env ⟨0⟩ t ⟨0⟩ keys w = some ((), w') ∧
      Ready code a t rest' w' := by
  induction keys generalizing w rest with
  | nil => exact ⟨w, rest, rfl, hw⟩
  | cons key keys ih =>
    obtain ⟨hkey, htrim⟩ := hkeys key List.mem_cons_self
    obtain ⟨i, w₁, rest₁, hwatch, hw₁⟩ := hw.watch env hkey htrim
    obtain ⟨w', rest', hrest, hw'⟩ := ih hw₁ fun k hk => hkeys k (List.mem_cons_of_mem _ hk)
    exact ⟨w', rest', Run.bind_eq_some.mpr ⟨i, w₁, hwatch, hrest⟩, hw'⟩

/-- Binding the node. -/
theorem Ready.bindText {expression : String} {d : Dialect} {env : Env κ σ} (hq : env.HooksRead)
    (hw : Ready code a (Template.parse expression d) rest w)
    (ha : a ∈ (Template.parse expression d).markers) :
    ∃ w' rest', DataBinding.bindText env ⟨0⟩ expression ⟨0⟩ d w = some ((), w') ∧
      Moment code a (Template.parse expression d) rest' (values a b "0" "0") "0" (fun _ => True)
        w' := by
  have hmarkers : (Template.parse expression d).hasMarkers = true := by
    rw [Template.hasMarkers, Bool.not_eq_true', List.isEmpty_eq_false_iff]
    exact List.ne_nil_of_mem ha
  have hkeys : ∀ key ∈ (Template.parse expression d).markers,
      key ∈ (Template.parse expression d).markers ∧ Text.trim key = key :=
    fun key hkey => ⟨hkey, Template.trim_of_mem_markers hkey⟩
  obtain ⟨w₁, rest₁, hwatch, hw₁⟩ := hw.watchMarkers env hkeys
  obtain ⟨w₂, hrender, _⟩ := render_recorded (hw₁.recordedBy env) (Template.parse expression d)
  obtain ⟨user, rfl⟩ := (hq.render_eq_some hrender).2.of_current_eq_none hw₁.current
  have hevery : ∀ key ∈ (Template.parse expression d).markers,
      ∃ i x, w₁.watcher? i = some x ∧ i ≠ ⟨0⟩ ∧ x.key = key := by
    intro key hkey
    obtain ⟨i, hi⟩ := (hq.watchMarkers_watches hwatch).2 key hkey
    refine ⟨i, _, hi, ?_, Template.trim_of_mem_markers hkey⟩
    rintro rfl
    obtain ⟨last, hlast⟩ := hw₁.callback
    have heq := hi.symm.trans hlast
    simp at heq
  refine ⟨{ w₁ with
    document := w₁.document.setText ⟨0⟩ ((Template.parse expression d).rendering w₁.heap ⟨0⟩)
    user }, rest₁, ?_, (hw₁.moment hevery).shown (.setText _ ⟨0⟩ _) w₁.held user⟩
  unfold DataBinding.bindText
  dsimp only
  rw [if_pos hmarkers]
  refine Run.bind_eq_some.mpr ⟨(), w₁, hwatch, ?_⟩
  exact Run.bind_eq_some.mpr ⟨_, _, hrender, Run.modify_eq_some.mpr rfl⟩

/-- All fields that are filled are there, and nothing else. -/
theorem exec_fill (env : Env κ σ) (keys : List String) (hsize : 0 < w.heap.objects.size)
    (hplain : ∀ key, w.heap.cell? ⟨0⟩ key = none) :
    ∃ heap, (fill keys).execUnder (.orderly rule) none env w = some ((), { w with heap }) ∧
      ∀ key, heap.slot? ⟨0⟩ key =
        if key ∈ keys then some (.plain (.text "0")) else w.heap.slot? ⟨0⟩ key := by
  induction keys generalizing w with
  | nil => exact ⟨w.heap, rfl, fun key => by simp⟩
  | cons key keys ih =>
    let heap := w.heap.putPlain ⟨0⟩ key (.text "0")
    have hslot : ∀ k, heap.slot? ⟨0⟩ k =
        if key = k then some (.plain (.text "0")) else w.heap.slot? ⟨0⟩ k := by
      intro k
      rw [Heap.slot?_putPlain]
      simp [hsize]
    obtain ⟨heap', hrest, hslot'⟩ := ih (w := { w with heap })
      (by simpa [heap, Heap.putPlain, Heap.modifySlots] using hsize)
      fun k => (Heap.cell?_putPlain (hplain key) _ _ _).trans (hplain k)
    refine ⟨heap', ?_, fun k => ?_⟩
    · exact exec_andThen (exec_request rfl rfl (write_eq_putPlain (hplain key) _)) hrest
    · rw [hslot', hslot]
      by_cases hk : key = k
      · simp [hk]
      · simp [hk, Ne.symm hk]

/-- All the keys are there and are `0`, and nobody watches anything. -/
structure Bare (keys : List String) (w : World κ σ) : Prop where
  current : w.current = none
  watchers : w.watchers = ∅
  node : w.document.has ⟨0⟩
  text : (w.document.content ⟨0⟩).isText = true
  cell : ∀ key, w.heap.cell? ⟨0⟩ key =
    if key ∈ keys then some { value := .text "0", hook := .silent } else none

theorem exec_setUp (env : Env κ σ) (keys : List String) (user : σ) :
    ∃ w, (setUp keys).execUnder (.orderly rule) none env (.fresh user) = some ((), w) ∧
      Bare keys w := by
  let w₀ : World κ σ := { (World.fresh user : World κ σ) with heap := (Heap.alloc {} ∅).2 }
  obtain ⟨heap, hfill, hslot⟩ := exec_fill (w := w₀) env keys (by simp [w₀, Heap.alloc])
    fun _ => rfl
  refine ⟨{ w₀ with
    heap := heap.intercept .silent [.object ⟨0⟩]
    document := (Document.create ∅ (.text "")).2 }, ?_, rfl, rfl, ?_, rfl, fun key => ?_⟩
  · refine exec_andThen (exec_request (r := .newObject) rfl rfl (Run.changing_eq_some.mpr rfl)) ?_
    refine exec_andThen hfill ?_
    refine exec_andThen (exec_request rfl rfl (Run.modify_eq_some (u := ()).mpr rfl)) ?_
    exact exec_andThen (exec_request rfl rfl (Run.changing_eq_some.mpr rfl)) rfl
  · exact Nat.zero_lt_one
  · show ((heap.intercept .silent [.object ⟨0⟩]).slot? ⟨0⟩ key).bind Slot.cell? = _
    rw [Heap.slot?_intercept_object, hslot]
    split
    · rfl
    · rfl

theorem Bare.silent {keys : List String} (hw : Bare keys w) {c : Cell κ}
    (hc : w.heap.cell? ⟨0⟩ key = some c) : c.hook = .silent := by
  rw [hw.cell] at hc
  split at hc
  · obtain rfl := Option.some.inj hc
    rfl
  · cases hc

theorem Bare.subscribers {keys : List String} (hw : Bare keys w) (key : String) :
    w.heap.subscribers ⟨0⟩ key = [] := by
  unfold Heap.subscribers
  rw [hw.cell]
  split
  · rfl
  · rfl

theorem Bare.watcher?_watched {keys : List String} (hw : Bare keys w) (i : WatcherId) :
    (watched key reaction user w).watcher? i = if i = ⟨0⟩ then
      some { key, data := ⟨0⟩, last := w.heap.peek ⟨0⟩ key, reaction }
    else none := by
  have hnone : w.watcher? i = none := by
    unfold World.watcher?
    rw [hw.watchers]
    rfl
  rw [TakingBack.watcher?_watched, hnone, hw.watchers]
  rfl

theorem Bare.subscribers_watched {keys : List String} (hw : Bare keys w) (hkey : key ∈ keys)
    (k : String) :
    (watched key reaction user w).heap.subscribers ⟨0⟩ k = if key = k then [⟨0⟩] else [] := by
  rw [TakingBack.subscribers_watched ((hw.cell key).trans (if_pos hkey)), hw.subscribers,
    hw.watchers]
  rfl

/-- The callback is the first to watch anything. -/
theorem Bare.ready (hw : Bare t.markers w) (ha : a ∈ t.markers) (code : κ) (user : σ) :
    Ready code a t [] (watched a (.custom code) user w) where
  current := hw.current
  node := hw.node
  text := hw.text
  silent := by
    intro key c hc
    rw [cell?_watched] at hc
    obtain ⟨c₀, hc₀, rfl⟩ := Option.map_eq_some_iff.mp hc
    have hsilent : c₀.hook = .silent := hw.silent hc₀
    exact hsilent
  callback := ⟨_, (hw.watcher?_watched ⟨0⟩).trans (if_pos rfl)⟩
  others := by
    intro i x hx hi
    rw [hw.watcher?_watched, if_neg hi] at hx
    cases hx
  subscribed := by
    intro key i hmem hi
    rw [hw.subscribers_watched ha] at hmem
    split at hmem
    · exact absurd (List.mem_singleton.mp hmem) hi
    · cases hmem
  first := by rw [hw.subscribers_watched ha, if_pos rfl]
  once := List.not_mem_nil
  elsewhere := by
    intro key hkey
    rw [hw.subscribers_watched ha, if_neg (Ne.symm hkey)]
    exact List.not_mem_nil
  zero := by
    intro key hkey
    exact ⟨_, by rw [cell?_watched, hw.cell, if_pos hkey]; rfl, rfl⟩
  last := by
    intro i x hx
    rw [hw.watcher?_watched] at hx
    split at hx
    · obtain rfl := Option.some.inj hx
      exact Heap.peek_of_cell? ((hw.cell a).trans (if_pos ha))
    · cases hx

theorem exec_watchKey (hw : Bare t.markers w) (env : Env κ σ) (code : κ) (ha : a ∈ t.markers)
    (htrim : Text.trim a = a) :
    ∃ w', (watchKey code a).execUnder (.orderly rule) none env w = some ((), w') ∧
      Ready code a t [] w' := by
  have hrecorded : w.RecordedBy env ⟨0⟩ := by
    intro key c hc
    rw [hw.silent hc]
    exact env.records_silent
  obtain ⟨user, hwatch⟩ := watch_eq hrecorded a (.custom code)
  rw [htrim] at hwatch
  exact ⟨_, exec_andThen (exec_request rfl rfl hwatch) rfl, hw.ready ha code user⟩

/-! ## After the write -/

theorem Moment.textBound (hm : Moment code a t rest value seen unseen w) :
    w.TextBound ⟨0⟩ ⟨0⟩ t := by
  have hother : ∀ {i x}, w.watcher? i = some x → x.reaction.ShowsText ⟨0⟩ → i ≠ ⟨0⟩ := by
    rintro i x hx hshows rfl
    obtain ⟨last, hlast⟩ := hm.callback
    obtain rfl := Option.some.inj (hx.symm.trans hlast)
    exact hshows
  refine ⟨fun _ => hm.text, ?_, ?_⟩
  · intro i x hx hshows
    obtain ⟨hdata, hreaction, hkey, _⟩ := hm.others hx (hother hx hshows)
    exact ⟨hdata, hreaction, hkey⟩
  · intro i x hx hshows
    exact (hm.others hx (hother hx hshows)).2.2.2

theorem Moment.showsText (hm : Moment code a t rest value seen unseen w) (ha : a ∈ t.markers) :
    ∃ i, w.ShowsText ⟨0⟩ i := by
  obtain ⟨i, x, hx, hi, _⟩ := hm.every a ha
  refine ⟨i, x, hx, ?_⟩
  rw [(hm.others hx hi).2.1]
  rfl

/-- No code of the user's runs at the other keys. -/
theorem Moment.rendersFirst (hm : Moment code a t rest value seen unseen w) {key : String}
    (hkey : key ≠ a) : w.RendersFirst ⟨0⟩ ⟨0⟩ key := by
  rintro i hi ⟨x, hx, hcustom⟩
  have hmem := (List.takeWhile_prefix _).subset hi
  have hne : i ≠ ⟨0⟩ := by
    rintro rfl
    exact hm.elsewhere key hkey hmem
  rw [(hm.others hx hne).2.1] at hcustom
  exact hcustom

/-- Whatever the template, as long as it has two keys: with a callback registered first at one of
them, there is a run that leaves the text stale. -/
theorem exists_stale (code : κ) (user : σ) {expression : String} {d : Dialect}
    (ha : a ∈ (Template.parse expression d).markers)
    (hb : b ∈ (Template.parse expression d).markers) (hab : a ≠ b) :
    ∃ w, (host a b).runUnder (.orderly rule) 2
        (program (Template.parse expression d).markers a (watchKey code a) (bindNode expression d))
        (.fresh user) = some ((), w) ∧
      w.TextBound ⟨0⟩ ⟨0⟩ (Template.parse expression d) ∧ (∃ i, w.ShowsText ⟨0⟩ i) ∧
      (∀ key, key ≠ a → w.RendersFirst ⟨0⟩ ⟨0⟩ key) ∧
      w.document.content ⟨0⟩ ≠ .text ((Template.parse expression d).rendering w.heap ⟨0⟩) := by
  have hq : (guarded a b 2 : Env κ σ).HooksRead := guarded_hooksRead a b 2
  -- three steps, each of which leaves the layout that the next one needs, and then the write
  obtain ⟨w₁, hsetUp, hw₁⟩ :=
    exec_setUp (guarded a b 2 : Env κ σ) (Template.parse expression d).markers user
  obtain ⟨w₂, hwatch, hw₂⟩ := exec_watchKey hw₁ (guarded a b 2) code ha
    (Template.trim_of_mem_markers ha)
  have hheld : Ready code a (Template.parse expression d) []
      { w₂ with held := [.object ⟨0⟩] ++ w₂.held } :=
    { hw₂.toLayout.later (later_shown w₂ (.refl _) ([.object ⟨0⟩] ++ w₂.held) w₂.user) with
      zero := hw₂.zero
      last := hw₂.last }
  obtain ⟨w₃, rest, hbind, hm₃⟩ := hheld.bindText hq ha
  have hbound : (Request.bind .text ⟨0⟩ expression { data := ⟨0⟩, dialect := d } :
      Request κ Unit).perform (guarded a b 2) w₂ = some ((), { w₃ with held := w₂.held }) :=
    Run.holding_eq_some.mpr ⟨w₃, hbind, rfl⟩
  have hproper : (Request.bind .text ⟨0⟩ expression { data := ⟨0⟩, dialect := d } :
      Request κ Unit).leavesText ⟨0⟩ w₂ = true := by
    simpa [Request.leavesText, Request.isProper, Request.setsText] using hw₂.node
  obtain ⟨w, hwrite, hm, hcontent⟩ :=
    (hm₃.shown (.refl _) w₂.held w₃.user).write_one ha hb hab 0
  refine ⟨w, ?_, hm.textBound, hm.showsText ha, fun key hkey => hm.rendersFirst hkey, ?_⟩
  · have hnode : (bindNode expression d).execUnder (.orderly rule) none (guarded a b 2) w₂ =
        some ((), { w₃ with held := w₂.held }) := exec_request rfl hproper hbound
    exact exec_andThen hsetUp (exec_andThen hwatch (exec_andThen hnode
      (exec_request rfl rfl hwrite)))
  · -- all values have one character, so the two renderings differ at the key
    rw [hcontent, hm.rendering]
    intro heq
    have hlen : ∀ key, (values a b "1" "1" key).length = (values a b "0" "1" key).length := by
      intro key
      unfold values
      split
      · rfl
      · split <;> rfl
    have hvalue := Template.filled_inj hlen (Content.text.inj heq) a ha
    simp [values] at hvalue

/-- The expression of a template with two keys. -/
def expression : String := "\x7b\x7ba\x7d\x7d \x7b\x7bb\x7d\x7d"

end TakingBack

/-- **Template text is never stale** in runs of proper requests that leave it alone, if it has one
key only, or if at each of its keys the node is updated before any code of the user's runs; and
that is what it takes. If code of the user's may run first at some of the keys, then all texts are
what their templates render to if and only if the template has one key, or that is none of its
keys. -/
theorem content_eq_rendering_iff [Inhabited κ] [Inhabited σ] (expression : String) (d : Dialect)
    (early : String → Prop) :
    (∀ ⦃host : Host κ σ⦄ ⦃depth : Nat⦄ ⦃α : Type⦄ ⦃p : Program κ σ α⦄ ⦃user : σ⦄ ⦃r : α⦄
        ⦃w : World κ σ⦄ ⦃n : NodeId⦄ ⦃o : ObjectId⦄,
      host.run depth p (.fresh user) = some (r, w) →
      host.Obeys (.orderly fun _ w r => r.leavesText n w) depth p (.fresh user) →
      w.TextBound n o (Template.parse expression d) → (∃ i, w.ShowsText n i) →
      (∀ key ∈ (Template.parse expression d).markers, early key ∨ w.RendersFirst n o key) →
      w.document.content n = .text ((Template.parse expression d).rendering w.heap o) ∧
        ∀ depth text w', host.run depth (.request (.render (Template.parse expression d) o)) w =
            some (text, w') →
          host.Obeys (.orderly fun _ _ _ => true) depth
            (.request (.render (Template.parse expression d) o)) w →
          w.document.content n = .text text) ↔
    (Template.parse expression d).OneKey ∨
      ∀ key ∈ (Template.parse expression d).markers, ¬ early key := by
  constructor
  · -- with two keys, one of them early, there is a run that leaves the text stale
    intro hall
    by_contra hnot
    obtain ⟨htwo, hearly⟩ := not_or.mp hnot
    obtain ⟨a, ha, hearly⟩ : ∃ a ∈ (Template.parse expression d).markers, early a := by
      by_contra hnone
      exact hearly fun key hkey h => hnone ⟨key, hkey, h⟩
    obtain ⟨b, hb, hab⟩ : ∃ b ∈ (Template.parse expression d).markers, a ≠ b := by
      by_contra hsame
      have heq : ∀ b ∈ (Template.parse expression d).markers, a = b := fun b hb => by
        by_contra hne
        exact hsame ⟨b, hb, hne⟩
      exact htwo fun k hk k' hk' => (heq k hk).symm.trans (heq k' hk')
    obtain ⟨w, hrun, hbound, hshows, hfirst, hstale⟩ :=
      TakingBack.exists_stale (default : κ) (default : σ) ha hb hab
    have hob := Option.isSome_iff_exists.mpr ⟨_, hrun⟩
    refine hstale (hall ((Host.run_eq_runUnder hob).trans hrun) hob hbound hshows ?_).1
    intro key _
    by_cases hkey : key = a
    · exact .inl (hkey ▸ hearly)
    · exact .inr (hfirst key hkey)
  · intro horder host depth α p user r w n o hrun hob hbound hshows hfirst
    refine content_eq_rendering hrun hob hbound hshows (horder.imp_right fun hnone key hkey => ?_)
    exact (hfirst key hkey).resolve_left (hnone key hkey)

open TakingBack in
theorem content_eq_rendering_bound_first : ∃ u w,
    (host "a" "b" : Host Unit Unit).run 5
        (program ["a", "b"] "a" (bindNode expression .standard) (watchKey () "a")) (.fresh ()) =
      some (u, w) ∧
      (∃ i, w.ShowsText ⟨0⟩ i) ∧ (∃ i, w.RunsCode i) ∧
      w.document.content ⟨0⟩ =
        .text ((Template.parse expression .standard).rendering w.heap ⟨0⟩) := by
  have hends : ((host "a" "b" : Host Unit Unit).run 5
      (program ["a", "b"] "a" (bindNode expression .standard) (watchKey () "a")) (.fresh ())).any
      (fun r => decide (r.2.TextBound ⟨0⟩ ⟨0⟩ (Template.parse expression .standard) ∧
        r.2.ShowsText ⟨0⟩ ⟨0⟩ ∧ r.2.RunsCode ⟨2⟩ ∧
        ∀ key ∈ (Template.parse expression .standard).markers,
          r.2.RendersFirst ⟨0⟩ ⟨0⟩ key)) = true := by decide +kernel
  have hob : (host "a" "b" : Host Unit Unit).Obeys (.orderly rule) 5
      (program ["a", "b"] "a" (bindNode expression .standard) (watchKey () "a")) (.fresh ()) := by
    unfold Host.Obeys
    decide +kernel
  obtain ⟨⟨u, w⟩, hrun, hw⟩ := (Option.any_eq_true _ _).mp hends
  obtain ⟨hbound, hshows, hcode, horder⟩ := of_decide_eq_true hw
  refine ⟨u, w, hrun, ⟨⟨0⟩, hshows⟩, ⟨⟨2⟩, hcode⟩, ?_⟩
  have hall := (content_eq_rendering_iff (κ := Unit) (σ := Unit) expression .standard
    fun _ => False).mpr (.inr fun _ _ => id)
  exact (hall hrun hob hbound ⟨⟨0⟩, hshows⟩ fun key hkey => .inr (horder key hkey)).1

open TakingBack in
/-- With the callback registered first, the text keeps a value that has been taken back. -/
theorem content_ne_rendering_watched_first : ∃ u w,
    (host "a" "b" : Host Unit Unit).run 5
        (program ["a", "b"] "a" (watchKey () "a") (bindNode expression .standard)) (.fresh ()) =
      some (u, w) ∧
      (host "a" "b" : Host Unit Unit).Obeys (.orderly rule) 5
        (program ["a", "b"] "a" (watchKey () "a") (bindNode expression .standard)) (.fresh ()) ∧
      w.TextBound ⟨0⟩ ⟨0⟩ (Template.parse expression .standard) ∧ (∃ i, w.ShowsText ⟨0⟩ i) ∧
      w.document.content ⟨0⟩ = .text "1 1" ∧
      (Template.parse expression .standard).rendering w.heap ⟨0⟩ = "0 1" := by
  have hends : ((host "a" "b" : Host Unit Unit).run 5
      (program ["a", "b"] "a" (watchKey () "a") (bindNode expression .standard)) (.fresh ())).any
      (fun r => decide (r.2.TextBound ⟨0⟩ ⟨0⟩ (Template.parse expression .standard) ∧
        r.2.ShowsText ⟨0⟩ ⟨1⟩ ∧ r.2.document.content ⟨0⟩ = .text "1 1" ∧
        (Template.parse expression .standard).rendering r.2.heap ⟨0⟩ = "0 1")) = true := by
    decide +kernel
  have hob : (host "a" "b" : Host Unit Unit).Obeys (.orderly rule) 5
      (program ["a", "b"] "a" (watchKey () "a") (bindNode expression .standard)) (.fresh ()) := by
    unfold Host.Obeys
    decide +kernel
  obtain ⟨⟨u, w⟩, hrun, hw⟩ := (Option.any_eq_true _ _).mp hends
  obtain ⟨hbound, hshows, hcontent, hrendering⟩ := of_decide_eq_true hw
  exact ⟨u, w, hrun, hob, hbound, ⟨⟨1⟩, hshows⟩, hcontent, hrendering⟩

end DataBinding
