import DataBinding.Proofs.Conduct
import DataBinding.Proofs.Fields

/-!
# Reads under hooks that only read

When hooks only read or record, an access has no effect but subscriptions: the watcher that is
collecting is appended here and there, and the user's state changes. So a read answers with the
value of the field, a template renders to the text that the heap gives it, and a new watcher has
seen the value that its key has.
-/

namespace DataBinding

/-- Changing the newest entry of a table. -/
theorem Table.modify_push_size {α : Type} (t : Table α) (a : α) (f : α → α) :
    (t.push a).modify t.size f = t.push (f a) := by
  apply Table.ext
  apply Array.ext_getElem?
  intro j
  simp only [Table.modify, Table.push, Table.size, Array.getElem?_modify, Array.getElem?_push]
  by_cases hj : j = t.entries.size
  · simp [hj]
  · have hj' : ¬ t.entries.size = j := fun h => hj h.symm
    simp [hj, hj']

namespace Heap

variable {κ : Type}

/-- Appends the collecting watcher, if there is one, to the subscribers of fields in a row. -/
def subscribeAll (h : Heap κ) (current : Option WatcherId) (places : List (ObjectId × String)) :
    Heap κ :=
  match current with
  | none => h
  | some i => places.foldl (fun h place => h.subscribe place.1 place.2 i) h

@[simp] theorem subscribeAll_none (h : Heap κ) (places : List (ObjectId × String)) :
    h.subscribeAll none places = h := rfl

@[simp] theorem subscribeAll_nil (h : Heap κ) (current : Option WatcherId) :
    h.subscribeAll current [] = h := by
  cases current <;> rfl

theorem subscribeAll_append (h : Heap κ) (current : Option WatcherId)
    (places places' : List (ObjectId × String)) :
    (h.subscribeAll current places).subscribeAll current places' =
      h.subscribeAll current (places ++ places') := by
  cases current with
  | none => rfl
  | some i => exact List.foldl_append.symm

theorem subscribe_of_cell?_eq_none {h : Heap κ} {o : ObjectId} {key : String}
    (hc : h.cell? o key = none) (i : WatcherId) : h.subscribe o key i = h :=
  modifyCell_of_cell?_eq_none hc _

theorem subscribeAll_singleton_of_cell?_eq_none {h : Heap κ} {o : ObjectId} {key : String}
    (hc : h.cell? o key = none) (current : Option WatcherId) :
    h.subscribeAll current [(o, key)] = h := by
  cases current with
  | none => rfl
  | some i => exact subscribe_of_cell?_eq_none hc i

/-- The subscribers of a field after a watcher was appended in places. -/
theorem cell?_subscribeAll (h : Heap κ) (i : WatcherId) (places : List (ObjectId × String))
    (o : ObjectId) (key : String) :
    (h.subscribeAll (some i) places).cell? o key =
      (h.cell? o key).map fun c =>
        { c with subscribers := c.subscribers ++ List.replicate (places.count (o, key)) i } := by
  induction places generalizing h with
  | nil =>
    rw [subscribeAll_nil]
    cases h.cell? o key <;> simp
  | cons place rest ih =>
    have hcons : h.subscribeAll (some i) (place :: rest) =
        (h.subscribe place.1 place.2 i).subscribeAll (some i) rest := rfl
    rw [hcons, ih, cell?_subscribe]
    by_cases hp : o = place.1 ∧ key = place.2
    · have hbeq : (place == (o, key)) = true := by
        obtain ⟨rfl, rfl⟩ := hp
        simp
      rw [if_pos hp, Option.map_map, List.count_cons, hbeq, if_pos rfl]
      congr 1
      funext c
      simp [List.replicate_succ]
    · have hbeq : (place == (o, key)) = false := by
        rw [beq_eq_false_iff_ne]
        intro heq
        exact hp ⟨(congrArg Prod.fst heq).symm, (congrArg Prod.snd heq).symm⟩
      rw [if_neg hp, List.count_cons, hbeq]
      rfl

theorem subscribers_subscribeAll (h : Heap κ) (i : WatcherId) (places : List (ObjectId × String))
    (o : ObjectId) (key : String) :
    ∃ n, (h.subscribeAll (some i) places).subscribers o key =
      h.subscribers o key ++ List.replicate n i := by
  unfold subscribers
  rw [cell?_subscribeAll]
  cases h.cell? o key with
  | none => exact ⟨0, rfl⟩
  | some c => exact ⟨places.count (o, key), rfl⟩

theorem fields_subscribeAll (h : Heap κ) (current : Option WatcherId)
    (places : List (ObjectId × String)) (o : ObjectId) :
    (h.subscribeAll current places).fields o = h.fields o := by
  cases current with
  | none => rfl
  | some i =>
    induction places generalizing h with
    | nil => rfl
    | cons place rest ih =>
      refine (ih (h.subscribe place.1 place.2 i)).trans ?_
      exact fields_modifyCell h place.1 place.2
        (f := fun c => { c with subscribers := c.subscribers ++ [i] }) (fun _ => rfl) o

@[simp] theorem text_subscribeAll (h : Heap κ) (current : Option WatcherId)
    (places : List (ObjectId × String)) (v : Value) :
    (h.subscribeAll current places).text v = h.text v :=
  text_congr (fields_subscribeAll h current places) v

theorem peek_subscribe (h : Heap κ) (o : ObjectId) (k : String) (i : WatcherId) (p : ObjectId)
    (key : String) : (h.subscribe o k i).peek p key = h.peek p key := by
  unfold peek subscribe
  rw [slot?_modifyCell]
  split
  · cases h.slot? p key with
    | none => rfl
    | some s => cases s <;> rfl
  · rfl

@[simp] theorem peek_subscribeAll (h : Heap κ) (current : Option WatcherId)
    (places : List (ObjectId × String)) (o : ObjectId) (key : String) :
    (h.subscribeAll current places).peek o key = h.peek o key := by
  cases current with
  | none => rfl
  | some i =>
    induction places generalizing h with
    | nil => rfl
    | cons place rest ih =>
      exact (ih (h.subscribe place.1 place.2 i)).trans (peek_subscribe h place.1 place.2 i o key)

end Heap

/-! ## What a template shows -/

/-- The text of a segment in which every key shows something. -/
def Segment.filled (shown : String → String) : Segment → String
  | .literal text => text
  | .marker key => shown key

/-- The text of a template in which every key shows something. -/
def Template.filled (shown : String → String) (t : Template) : String :=
  t.segments.foldr (fun s text => s.filled shown ++ text) ""

/-- The text of a template, straight from the heap. -/
def Template.rendering {κ : Type} (h : Heap κ) (o : ObjectId) (t : Template) : String :=
  t.filled fun key => h.text (h.peek o key)

/-- Only the keys of the markers count. -/
theorem Template.filled_congr {shown shown' : String → String} {t : Template}
    (h : ∀ key ∈ t.markers, shown key = shown' key) : t.filled shown = t.filled shown' := by
  obtain ⟨segments⟩ := t
  show segments.foldr _ "" = segments.foldr _ ""
  induction segments with
  | nil => rfl
  | cons s rest ih =>
    have hrest : ∀ key ∈ Template.markers ⟨rest⟩, shown key = shown' key := by
      intro key hkey
      refine h key ?_
      unfold Template.markers at hkey ⊢
      cases s <;> simp_all [Segment.key?]
    have hs : s.filled shown = s.filled shown' := by
      cases s with
      | literal text => rfl
      | marker key => exact h key (by simp [Template.markers, Segment.key?])
    rw [List.foldr_cons, List.foldr_cons, ih hrest, hs]

/-- Scanning takes a source apart and loses nothing. -/
theorem Token.flatMap_source_scan (opening closing cs : List Char) :
    (scan opening closing cs).1.flatMap (source opening closing) ++
      (scan opening closing cs).2 = cs := by
  fun_induction scan opening closing cs with
  | case1 cs h => rfl
  | case2 cs t rest h _ found ih =>
    rw [List.flatMap_cons, List.append_assoc, ih]
    exact (source_append_of_first? h).symm

theorem Segment.foldr_filled_ofText (shown : String → String) (cs : List Char) :
    (ofText cs).foldr (fun s text => s.filled shown ++ text) "" = String.ofList cs := by
  unfold ofText
  cases cs with
  | nil => rfl
  | cons c rest =>
    rw [if_neg (by simp)]
    show String.ofList (c :: rest) ++ "" = _
    rw [String.append_empty]

/-- Segments without a marker show the text that they were made of. -/
theorem Segment.foldr_filled_ofTokens {opening closing literal tail : List Char}
    {tokens : List Token} (shown : String → String)
    (h : (ofTokens opening closing literal tokens tail).filterMap key? = []) :
    (ofTokens opening closing literal tokens tail).foldr (fun s text => s.filled shown ++ text) "" =
      String.ofList (literal ++ (tokens.flatMap (Token.source opening closing) ++ tail)) := by
  induction tokens generalizing literal with
  | nil => exact foldr_filled_ofText shown _
  | cons t rest ih =>
    rw [ofTokens] at h ⊢
    split at h
    · next hempty =>
      rw [if_pos hempty, ih h, List.flatMap_cons]
      simp only [List.append_assoc]
    · rw [List.filterMap_append, List.append_eq_nil_iff] at h
      exact absurd h.2 (by simp [key?])

/-- A source without markers shows itself. -/
theorem Template.filled_parse {source : String} {d : Dialect} (shown : String → String)
    (h : (parse source d).markers = []) : (parse source d).filled shown = source := by
  refine (Segment.foldr_filled_ofTokens shown h).trans ?_
  rw [Token.flatMap_source_scan, List.nil_append, String.ofList_toList]

theorem Template.detect_eq_false {source : String} {d : Dialect} :
    detect source d = false ↔ (parse source d).markers = [] := by
  rw [detect, hasMarkers, Bool.not_eq_false', List.isEmpty_iff]

theorem Token.first?_nil (opening closing : List Char) :
    first? opening closing [] = none := by
  cases opening with
  | nil => rfl
  | cons c rest =>
    unfold first? Text.cut?
    split <;> rfl

/-- The empty source has nothing in it. -/
theorem Template.parse_empty (d : Dialect) : Template.parse "" d = ⟨[]⟩ := by
  have hscan : Token.scan d.opening.toList d.closing.toList "".toList = ([], []) := by
    rw [Token.scan]
    split
    · rfl
    · next h =>
      rw [String.toList_empty, Token.first?_nil] at h
      cases h
  unfold parse
  dsimp only
  rw [hscan]
  rfl

variable {κ σ : Type}

@[simp] theorem Template.rendering_subscribeAll (h : Heap κ) (current : Option WatcherId)
    (places : List (ObjectId × String)) (o : ObjectId) (t : Template) :
    t.rendering (h.subscribeAll current places) o = t.rendering h o := by
  simp [Template.rendering]

/-! ## The effect of reading -/

theorem World.subscribeCurrent_eq (w : World κ σ) (o : ObjectId) (key : String) :
    w.subscribeCurrent o key = { w with heap := w.heap.subscribeAll w.current [(o, key)] } := by
  obtain ⟨heap, watchers, document, current, held, user⟩ := w
  cases current <;> rfl

/-- Nothing has happened but subscriptions of the collecting watcher and a change of the user's
state. -/
def World.Reads (w w' : World κ σ) : Prop :=
  ∃ places user, w' = { w with heap := w.heap.subscribeAll w.current places, user := user }

namespace World.Reads

theorem refl (w : World κ σ) : w.Reads w := ⟨[], w.user, by simp⟩

theorem trans (a b c : World κ σ) (hab : a.Reads b) (hbc : b.Reads c) : a.Reads c := by
  obtain ⟨places, user, rfl⟩ := hab
  obtain ⟨places', user', rfl⟩ := hbc
  exact ⟨places ++ places', user', by simp [Heap.subscribeAll_append]⟩

/-- Without a collecting watcher only the user's state can change. -/
theorem of_current_eq_none {w w' : World κ σ} (h : w.Reads w') (hw : w.current = none) :
    ∃ user, w' = { w with user := user } := by
  obtain ⟨places, user, rfl⟩ := h
  exact ⟨user, by simp [hw]⟩

end World.Reads

/-! ## New watchers -/

/-- The world in which a new watcher reads its key. It collects, and has seen no value yet. -/
def World.begun (w : World κ σ) (o : ObjectId) (key : String) (reaction : Reaction κ) :
    World κ σ :=
  { w with
    watchers := w.watchers.push { key, data := o, last := .null, reaction }
    current := some ⟨w.watchers.size⟩
    held := w.current.toList.map .watcher ++ ([.object o] ++ w.held) }

/-- A new watcher notes the value that it reads. -/
theorem watch_eq_some_iff {env : Env κ σ} {expression : String} {o : ObjectId}
    {reaction : Reaction κ} {w w' : World κ σ} {i : WatcherId} :
    watch env expression o reaction w = some (i, w') ↔
      i = ⟨w.watchers.size⟩ ∧ ∃ v w₁,
        read env o (Text.trim expression) (w.begun o (Text.trim expression) reaction) =
          some (v, w₁) ∧
        w' = World.setLast ⟨w.watchers.size⟩ v
          { w₁ with current := w.current, held := w.held } := by
  simp only [watch, Run.note_eq_pure, pure_bind, Run.bind_eq_some, Run.get_eq_some,
    Run.modify_eq_some, Run.pure_eq_some, Run.holding_eq_some, Run.collecting_eq_some]
  constructor
  · rintro ⟨_, _, ⟨rfl, rfl⟩, _, _, rfl, v, _, ⟨_, ⟨w₁, hread, rfl⟩, rfl⟩, _, _, rfl, rfl, rfl⟩
    exact ⟨rfl, v, w₁, hread, rfl⟩
  · rintro ⟨rfl, v, w₁, hread, rfl⟩
    exact ⟨_, _, ⟨rfl, rfl⟩, (), _, rfl, v, _, ⟨_, ⟨w₁, hread, rfl⟩, rfl⟩, (), _, rfl, rfl, rfl⟩

/-! ## Hooks that only read -/

/-- Hooks only read and record. -/
def Env.HooksRead (env : Env κ σ) : Prop :=
  ∀ code occasion, occasion.isAccess = true → Run.Moves World.Reads (env.call code occasion)

namespace Env.HooksRead

variable {env : Env κ σ}

theorem tell (h : env.HooksRead) (hook : Hook κ) {occasion : Occasion}
    (ho : occasion.isAccess = true) : Run.Moves World.Reads (env.tell hook occasion) := by
  cases hook with
  | silent => exact .pure World.Reads.refl ()
  | custom code => exact .discard (h code occasion ho)

/-- Telling a hook something while things are held. -/
theorem holding_tell (h : env.HooksRead) (hook : Hook κ) {occasion : Occasion}
    (ho : occasion.isAccess = true) (hs : List Handle) :
    Run.Moves World.Reads (.holding hs (env.tell hook occasion)) := by
  intro w u w' hw
  obtain ⟨w₁, h₁, rfl⟩ := Run.holding_eq_some.mp hw
  obtain ⟨places, user, rfl⟩ := h.tell hook ho h₁
  exact ⟨places, user, rfl⟩

/-- A read answers with the value of the field and subscribes there first. -/
theorem read_eq_some (h : env.HooksRead) {o : ObjectId} {key : String} {w w' : World κ σ}
    {v : Value} (hr : read env o key w = some (v, w')) :
    v = w.heap.peek o key ∧ ∃ places user,
      w' = { w with heap := w.heap.subscribeAll w.current ((o, key) :: places), user := user } := by
  obtain ⟨_, _, hget, hr⟩ := Run.bind_eq_some.mp hr
  obtain ⟨rfl, rfl⟩ := Run.get_eq_some.mp hget
  cases hs : w.heap.slot? o key with
  | none =>
    rw [hs] at hr
    obtain ⟨rfl, rfl⟩ := Run.pure_eq_some.mp hr
    have hc : w.heap.cell? o key = none := by simp [Heap.cell?, hs]
    refine ⟨by simp [Heap.peek, hs], [], w.user, ?_⟩
    rw [Heap.subscribeAll_singleton_of_cell?_eq_none hc]
  | some s =>
  rw [hs] at hr
  cases s with
  | plain value =>
    obtain ⟨rfl, rfl⟩ := Run.pure_eq_some.mp hr
    have hc : w.heap.cell? o key = none := by simp [Heap.cell?, hs, Slot.cell?]
    refine ⟨by simp [Heap.peek, hs, Slot.value], [], w.user, ?_⟩
    rw [Heap.subscribeAll_singleton_of_cell?_eq_none hc]
  | reactive cell =>
    obtain ⟨_, w₁, hsub, hr⟩ := Run.bind_eq_some.mp hr
    obtain ⟨_, w₂, htell, hr⟩ := Run.bind_eq_some.mp hr
    obtain ⟨rfl, rfl⟩ := Run.pure_eq_some.mp hr
    have hw₁ : w₁ = { w with heap := w.heap.subscribeAll w.current [(o, key)] } := by
      rw [← Run.modify_eq_some.mp hsub, World.subscribeCurrent_eq]
    obtain ⟨places, user, hw₂⟩ := h.holding_tell cell.hook rfl _ htell
    refine ⟨by simp [Heap.peek, hs, Slot.value], places, user, ?_⟩
    rw [hw₂, hw₁]
    simp [Heap.subscribeAll_append]

theorem read_reads (h : env.HooksRead) (o : ObjectId) (key : String) :
    Run.Moves World.Reads (read env o key) := by
  intro w v w' hr
  obtain ⟨_, places, user, rfl⟩ := h.read_eq_some hr
  exact ⟨(o, key) :: places, user, rfl⟩

theorem renderSegment_eq_some (h : env.HooksRead) {o : ObjectId} {s : Segment} {w w' : World κ σ}
    {text : String} (hr : s.render env o w = some (text, w')) :
    text = s.filled (fun key => w.heap.text (w.heap.peek o key)) ∧ w.Reads w' := by
  cases s with
  | literal t =>
    obtain ⟨rfl, rfl⟩ := Run.pure_eq_some.mp hr
    exact ⟨rfl, .refl w⟩
  | marker key =>
    obtain ⟨v, w₁, hread, hr⟩ := Run.bind_eq_some.mp hr
    obtain ⟨_, _, hget, hr⟩ := Run.bind_eq_some.mp hr
    obtain ⟨rfl, rfl⟩ := Run.get_eq_some.mp hget
    obtain ⟨rfl, rfl⟩ := Run.pure_eq_some.mp hr
    obtain ⟨rfl, places, user, rfl⟩ := h.read_eq_some hread
    exact ⟨by simp [Segment.filled], (o, key) :: places, user, rfl⟩

theorem renderSegments_eq_some (h : env.HooksRead) {o : ObjectId} {segments : List Segment}
    {w w' : World κ σ} {text : String} (hr : renderSegments env o segments w = some (text, w')) :
    text = (⟨segments⟩ : Template).rendering w.heap o ∧ w.Reads w' := by
  induction segments generalizing w text with
  | nil =>
    obtain ⟨rfl, rfl⟩ := Run.pure_eq_some.mp hr
    exact ⟨rfl, .refl w⟩
  | cons s rest ih =>
    obtain ⟨first, w₁, hfirst, hr⟩ := Run.bind_eq_some.mp hr
    obtain ⟨others, w₂, hothers, hr⟩ := Run.bind_eq_some.mp hr
    obtain ⟨rfl, rfl⟩ := Run.pure_eq_some.mp hr
    obtain ⟨rfl, hreads⟩ := h.renderSegment_eq_some hfirst
    obtain ⟨rfl, hreads'⟩ := ih hothers
    refine ⟨?_, World.Reads.trans _ _ _ hreads hreads'⟩
    obtain ⟨places, user, rfl⟩ := hreads
    rw [Template.rendering_subscribeAll]
    rfl

/-- A template renders to what the heap gives it. -/
theorem render_eq_some (h : env.HooksRead) {o : ObjectId} {t : Template} {w w' : World κ σ}
    {text : String} (hr : t.render env o w = some (text, w')) :
    text = t.rendering w.heap o ∧ w.Reads w' :=
  h.renderSegments_eq_some hr

/-- Requests that only read have no effect but subscriptions. -/
theorem perform_reads (h : env.HooksRead) {α : Type} {r : Request κ α} (hr : r.onlyReads = true) :
    Run.Moves World.Reads (r.perform env) := by
  cases r with
  | read o key => exact h.read_reads o key
  | render t o => exact fun _ _ _ hw => (h.render_eq_some hw).2
  | getProperty app key =>
    show Run.Moves World.Reads (app.get env key)
    unfold App.get
    split
    · exact .bind World.Reads.trans (h.read_reads _ _) fun _ => .pure World.Reads.refl _
    · exact .pure World.Reads.refl _
  | _ => cases hr

/-- A new watcher has seen the value of its key, and is subscribed there first. -/
theorem watch_eq_some (h : env.HooksRead) {expression : String} {o : ObjectId}
    {reaction : Reaction κ} {w w' : World κ σ} {i : WatcherId}
    (hw : watch env expression o reaction w = some (i, w')) :
    i = ⟨w.watchers.size⟩ ∧ ∃ places user,
      w' = { w with
        watchers := w.watchers.push
          { key := Text.trim expression, data := o,
            last := w.heap.peek o (Text.trim expression), reaction }
        heap := w.heap.subscribeAll (some i) ((o, Text.trim expression) :: places)
        user := user } := by
  obtain ⟨rfl, v, w₁, hread, rfl⟩ := watch_eq_some_iff.mp hw
  obtain ⟨rfl, places, user, rfl⟩ := h.read_eq_some hread
  refine ⟨rfl, places, user, ?_⟩
  simp only [World.setLast, World.begun, Table.modify_push_size]

end Env.HooksRead

/-! ## Orderly user code -/

/-- Code that is only let read only reads. -/
theorem Program.execUnder_reads {env : Env κ σ} (h : env.HooksRead)
    (rule : {α : Type} → Option Occasion → World κ σ → Request κ α → Bool)
    {mayEnter : World κ σ → WatcherId → Bool} {occasion : Occasion}
    (ho : occasion.isAccess = true) {α : Type} (p : Program κ σ α) :
    Run.Moves World.Reads (p.execUnder (.orderly rule mayEnter) (some occasion) env) := by
  induction p with
  | done a => exact .pure World.Reads.refl a
  | andThen p next ihp ihn => exact .bind World.Reads.trans ihp ihn
  | ask q => exact .after_get fun w => .pure World.Reads.refl _
  | request r =>
    refine .after_get fun w => ?_
    have hmay : (Conduct.orderly rule mayEnter).mayRequest (some occasion) w r = r.onlyReads := by
      simp [Conduct.orderly, ho]
    rw [hmay]
    split
    · next hreads => exact h.perform_reads hreads
    · exact .failure
  | getUser => exact .after_get fun w => .pure World.Reads.refl _
  | updateUser f => exact .modify fun w => ⟨[], f w.user, by simp⟩
  | holding hs p ih =>
    intro w a w' hw
    obtain ⟨w₁, h₁, rfl⟩ := Run.holding_eq_some.mp hw
    obtain ⟨places, user, rfl⟩ := ih h₁
    exact ⟨places, user, rfl⟩
  | collecting i p ih =>
    refine .after_get fun w => ?_
    have hnot : (Conduct.orderly rule mayEnter).mayCollect (some occasion) w i = false := by
      simp [Conduct.orderly, ho]
    rw [hnot]
    exact .failure

theorem Host.envUnder_hooksRead (host : Host κ σ)
    (rule : {α : Type} → Option Occasion → World κ σ → Request κ α → Bool)
    {mayEnter : World κ σ → WatcherId → Bool} (depth : Nat) :
    (host.envUnder (.orderly rule mayEnter) depth).HooksRead := by
  induction depth with
  | zero => exact fun _ _ _ => .failure
  | succ depth ih => exact fun code occasion ho => Program.execUnder_reads ih rule ho _

end DataBinding
