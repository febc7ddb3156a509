import DataBinding.Proofs.Display
import DataBinding.Proofs.Orderly

/-!
# What happens to pages from outside

Once pages are up to date, properties are set, texts are entered and events are dispatched. Code
that runs on the way may set fields to scalars, and everything it does keeps pages up to date. A
text that is entered is the one thing that a page shows before the data says so. The node has a
model, and when the event has reached the listener of that model, the data says so too.
-/

namespace DataBinding

variable {κ σ : Type}

/-- Whether a request reads or sets a field to a scalar. -/
def Request.assigns {α : Type} : Request κ α → Bool
  | .write _ _ value => value.isScalar
  | .setProperty _ _ value => value.isScalar
  | r => r.onlyReads

/-- Hooks only read or record, and what runs on other occasions reads and sets fields to scalars.
What is done from outside is free. -/
def Conduct.assigning : Conduct κ σ := .orderly fun on _ r => on.isNone || r.assigns

/-- The form value of a node is excused as long as it is a text that was entered. -/
def entered (n : NodeId) (text : String) (m : NodeId) (shown : String) : Prop :=
  m = n ∧ shown = text

open World

variable {env : Env κ σ} {pages : List (Page κ)} {o : ObjectId} {size : Nat}
  {excused : NodeId → String → Prop} {w w' : World κ σ}

/-- A step that keeps pages up to date, and what is held. -/
def World.KeepsUp (pages : List (Page κ)) (o : ObjectId) (size : Nat)
    (excused : NodeId → String → Prop) (w w' : World κ σ) : Prop :=
  w.Displays pages o size excused → w'.Displays pages o size excused ∧ w'.held = w.held

theorem carried_keepsUp : Carried (KeepsUp (κ := κ) (σ := σ) pages o size excused) where
  refl _ h := ⟨h, rfl⟩
  trans _ _ _ hab hbc h := by
    obtain ⟨hb, hheld⟩ := hab h
    obtain ⟨hc, hheld'⟩ := hbc hb
    exact ⟨hc, hheld'.trans hheld⟩
  hold h hw := ⟨(h (hw.of_same rfl rfl rfl rfl)).1.of_same rfl rfl rfl rfl, rfl⟩

theorem keepsUp_of_reads (h : w.Reads w') : KeepsUp pages o size excused w w' := by
  intro hw
  obtain ⟨user, rfl⟩ := h.of_current_eq_none hw.current
  exact ⟨hw.of_same rfl rfl rfl rfl, rfl⟩

theorem write_keepsUp (hq : env.HooksRead) (hs : Staged pages o size) (p : ObjectId)
    (key : String) {v : Value} (hv : v.isScalar = true) :
    Run.Moves (KeepsUp pages o size excused) (write env p key v) := by
  intro w u w' hw h
  obtain ⟨hdisplays, hheld, _⟩ := write_displays hq hs h hv hw
  exact ⟨hdisplays, hheld⟩

theorem set_keepsUp (hq : env.HooksRead) (hs : Staged pages o size) (app : App κ) (key : String)
    {v : Value} (hv : v.isScalar = true) :
    Run.Moves (KeepsUp pages o size excused) (app.set env key v) := by
  intro w result w' h
  rcases App.set_cases h with ⟨_, _, hwrite⟩ | ⟨_, _, rfl⟩
  · exact write_keepsUp hq hs _ _ hv hwrite
  · exact carried_keepsUp.refl _

/-- What code on the way may request keeps pages up to date. -/
theorem request_keepsUp (hq : env.HooksRead) (hs : Staged pages o size) {α : Type}
    (r : Request κ α) (hr : r.assigns = true) :
    Run.Moves (KeepsUp pages o size excused) (r.perform env) := by
  cases r with
  | read | render | getProperty => exact fun _ _ _ h => keepsUp_of_reads (hq.perform_reads rfl h)
  | write p key v => exact write_keepsUp hq hs p key hr
  | setProperty app key v => exact set_keepsUp hq hs app key hr
  | _ => cases hr

/-- So all callbacks keep pages up to date. -/
theorem callsMove_keepsUp (host : Host κ σ) (hs : Staged pages o size) (depth : Nat) :
    (host.envUnder .assigning depth).CallsMove (KeepsUp pages o size excused) := by
  cases depth with
  | zero => exact fun _ _ _ => .failure
  | succ depth =>
    intro code occasion ho
    refine carried_keepsUp.execUnder ?_ (fun w f h => ⟨h.of_same rfl rfl rfl rfl, rfl⟩) .nobody ?_
      (host.body code occasion)
    · simpa using ho
    · intro α r w a w' hr h
      exact request_keepsUp (host.envUnder_hooksRead _ depth) hs r (by simpa using hr) h

/-! ## Entering a text -/

/-- The text that was entered is shown before the data says so. -/
theorem setValue_displays (hs : Staged pages o size) (h : w.Displays pages o size unexcused)
    {page : Page κ} (hpage : page ∈ pages) {n : NodeId} {e : String}
    (hbind : page.Binds n .model e) (text : String) :
    World.Displays (w.mapDocument fun d => d.setValue n text) pages o size (entered n text) := by
  obtain ⟨texts, hshown, hcurrent⟩ := h.upToDate
  have hkind : Directive.model = .model ∨ Directive.model = .text := .inl rfl
  refine ⟨h.toStages.put n text .model w.user, h.seen, _,
    hs.put h.grown hshown hpage hbind hkind text, ?_⟩
  intro page' hpage' m directive e' hbind'
  by_cases hsame : m = n ∧ directive = .model
  · obtain ⟨rfl, rfl⟩ := hsame
    exact .inr (.inl ⟨rfl, rfl, get_retexted hkind e'⟩)
  · rw [get_retexted_of_ne hsame]
    exact .inl (hcurrent page' hpage' m directive e' hbind')

/-- Once the data says what was entered, nothing has to be excused any more. -/
theorem World.CatchesUp.unexcused_of_text (hs : Staged pages o size) {n : NodeId} {text : String}
    (h : w.Displays pages o size (entered n text)) {page : Page κ} (hpage : page ∈ pages)
    {e : String} (hbind : page.Binds n .model e)
    (htext : w.heap.text (w.heap.peek o (Text.trim e)) = text) :
    w.Displays pages o size unexcused := by
  obtain ⟨texts, hshown, hcurrent⟩ := h.shown
  refine ⟨h.toStages, h.seen, texts, hshown, fun page' hpage' m directive e' hbind' => ?_⟩
  rcases hcurrent page' hpage' m directive e' hbind' with heq | ⟨rfl, rfl, heq⟩ | ⟨i, hi, _⟩
  · exact .inl heq
  · obtain rfl := hs.apart page hpage page' hpage' m hbind.mem_ids hbind'.mem_ids
    obtain rfl := hs.once page hpage m .model e e' (.inl rfl) hbind hbind'
    refine .inl (heq.trans ?_)
    rw [← htext, ← hs.data page hpage]
    rfl
  · cases hi

/-- The listener of a model makes the data say what was entered. -/
theorem writeBack_displays (hq : env.HooksRead) (hs : Staged pages o size) {n : NodeId}
    {text : String} (h : w.Displays pages o size (entered n text)) (hheld : .object o ∈ w.held)
    {page : Page κ} (hpage : page ∈ pages) {e : String} (hbind : page.Binds n .model e)
    {event : Event} (hvalue : event.value = some text) {result : Except ViewError Unit}
    (hd : (Listener.writeBack o (Text.trim e)).deliver env event w = some (result, w')) :
    w'.Displays pages o size unexcused ∧ w'.held = w.held := by
  unfold Listener.deliver at hd
  rw [hvalue] at hd
  obtain ⟨_, _, hget, hd⟩ := Run.bind_eq_some.mp hd
  obtain ⟨rfl, rfl⟩ := Run.get_eq_some.mp hget
  rw [if_pos (isAlive_of_mem_held hheld)] at hd
  obtain ⟨_, w₁, hw, hpure⟩ := Run.bind_eq_some.mp hd
  obtain rfl := (Run.pure_eq_some.mp hpure).2
  obtain ⟨hdisplays, hheld', htext⟩ := write_displays hq hs h rfl hw
  -- the model has a watcher, so its field is reactive
  obtain ⟨i, x, hx, hwatch⟩ := h.complete page hpage n .model e hbind
    (Text.trim e, .setValue n) List.mem_cons_self
  have hmem := (h.source hx).2.1
  rw [(Prod.mk.inj hwatch).1] at hmem
  obtain ⟨c, hc, _⟩ := Heap.mem_subscribers.mp hmem
  have hreactive : w.heap.isReactive o (Text.trim e) = true := by rw [Heap.isReactive, hc]; rfl
  exact ⟨hdisplays.unexcused_of_text hs hpage hbind (htext hreactive), hheld'⟩

theorem deliver_keepsUp (hq : env.HooksRead) (hs : Staged pages o size)
    (hcall : env.CallsMove (KeepsUp pages o size excused)) (event : Event) (l : Listener κ) :
    Run.Moves (KeepsUp pages o size excused) (l.deliver env event) :=
  carried_keepsUp.deliver hcall (fun p key _ => write_keepsUp hq hs p key rfl) event l

/-- An event that reaches all listeners of a node reaches the one of its model, and after that
nothing has to be excused. -/
theorem deliverAll_displays (hq : env.HooksRead) (hs : Staged pages o size)
    (hcall : ∀ excused, env.CallsMove (KeepsUp pages o size excused)) {n : NodeId} {text : String}
    (h : w.Displays pages o size (entered n text)) (hheld : .object o ∈ w.held) {page : Page κ}
    (hpage : page ∈ pages) {e : String} (hbind : page.Binds n .model e) {event : Event}
    (hvalue : event.value = some text) {listeners : List (Listener κ)}
    (hmem : .writeBack o (Text.trim e) ∈ listeners)
    (hd : deliverAll env event listeners w = some (.ok (), w')) :
    w'.Displays pages o size unexcused ∧ w'.held = w.held := by
  induction listeners generalizing w with
  | nil => cases hmem
  | cons l rest ih =>
    obtain ⟨result, w₁, hfirst, hrest⟩ := Run.bind_eq_some.mp hd
    cases result with
    | error err => cases (Run.pure_eq_some.mp hrest).1
    | ok u =>
      by_cases hl : l = .writeBack o (Text.trim e)
      · subst hl
        obtain ⟨h₁, hheld₁⟩ := writeBack_displays hq hs h hheld hpage hbind hvalue hfirst
        have hkeeps := carried_keepsUp.deliverAll (hcall unexcused)
          (fun p key _ => write_keepsUp hq hs p key rfl) event rest
        obtain ⟨h', hheld'⟩ := hkeeps hrest h₁
        exact ⟨h', hheld'.trans hheld₁⟩
      · have hmem := (List.mem_cons.mp hmem).resolve_left fun heq => hl heq.symm
        obtain ⟨h₁, hheld₁⟩ := deliver_keepsUp hq hs (hcall _) event l hfirst h
        obtain ⟨h', hheld'⟩ := ih h₁ (hheld₁ ▸ hheld) hmem hrest
        exact ⟨h', hheld'.trans hheld₁⟩

theorem enter_displays (hq : env.HooksRead) (hs : Staged pages o size)
    (hcall : ∀ excused, env.CallsMove (KeepsUp pages o size excused))
    (h : w.Displays pages o size unexcused) (hheld : .object o ∈ w.held) {page : Page κ}
    (hpage : page ∈ pages) {n : NodeId} {e : String} (hbind : page.Binds n .model e)
    {text : String} (he : enter env n text w = some (.ok (), w')) :
    w'.Displays pages o size unexcused ∧ w'.held = w.held := by
  obtain ⟨_, w₁, hset, he⟩ := Run.bind_eq_some.mp he
  obtain rfl := Run.modify_eq_some.mp hset
  obtain ⟨_, _, hget, hd⟩ := Run.bind_eq_some.mp he
  obtain ⟨rfl, rfl⟩ := Run.get_eq_some.mp hget
  have h₁ := setValue_displays hs h hpage hbind text
  exact deliverAll_displays (w := w.mapDocument fun d => d.setValue n text) hq hs hcall h₁ hheld
    hpage hbind rfl (h₁.heard page hpage n e hbind) hd

/-! ## Deeds -/

/-- Something that is done from outside. -/
inductive Deed (κ : Type) where
  | set (app : App κ) (key : String) (value : Value)
  | input (n : NodeId) (text : String)
  | dispatch (n : NodeId) (event : Event)

namespace Deed

/-- The request for a deed. -/
def request : Deed κ → Request κ (Except ViewError Unit)
  | set app key value => .setProperty app key value
  | input n text => .enter n text
  | dispatch n event => .dispatch n event

/-- Whether a deed is one for pages, and has been answered: properties are set to scalars, and texts
are entered where there is a model, and arrive there. -/
def Suits (pages : List (Page κ)) : Deed κ → Except ViewError Unit → Prop
  | set _ _ value, _ => value.isScalar = true
  | input n _, answer => (∃ page ∈ pages, ∃ e, page.Binds n .model e) ∧ answer = .ok ()
  | dispatch _ _, _ => True

/-- A deed keeps pages up to date. -/
theorem perform_displays (hq : env.HooksRead) (hs : Staged pages o size)
    (hcall : ∀ excused, env.CallsMove (KeepsUp pages o size excused))
    (h : w.Displays pages o size unexcused) (hheld : .object o ∈ w.held) {deed : Deed κ}
    {answer : Except ViewError Unit} (hsuits : deed.Suits pages answer)
    (hrun : deed.request.perform env w = some (answer, w')) :
    w'.Displays pages o size unexcused ∧ w'.held = w.held := by
  cases deed with
  | set app key value => exact set_keepsUp hq hs app key hsuits hrun h
  | input n text =>
    obtain ⟨⟨page, hpage, e, hbind⟩, rfl⟩ := hsuits
    exact enter_displays hq hs hcall h hheld hpage hbind hrun
  | dispatch n event =>
    exact carried_keepsUp.dispatch (hcall _) (fun p key _ => write_keepsUp hq hs p key rfl) n event
      hrun h

/-- And so do deeds in a row. -/
theorem requestAll_displays (host : Host κ σ) (hs : Staged pages o size) {depth : Nat}
    {deeds : List (Deed κ)} {answers : List (Except ViewError Unit)}
    (h : w.Displays pages o size unexcused) (hheld : .object o ∈ w.held)
    (hsuits : ∀ pair ∈ deeds.zip answers, pair.1.Suits pages pair.2)
    (hrun : (Program.requestAll (deeds.map request)).execUnder .assigning none
      (host.envUnder .assigning depth) w = some (answers, w')) :
    w'.Displays pages o size unexcused ∧ w'.held = w.held := by
  induction deeds generalizing w answers with
  | nil =>
    obtain ⟨_, rfl⟩ := Run.pure_eq_some.mp hrun
    exact ⟨h, rfl⟩
  | cons deed rest ih =>
    obtain ⟨answer, w₁, hfirst, hrun⟩ := Run.bind_eq_some.mp hrun
    obtain ⟨later, w₂, hrest, hrun⟩ := Run.bind_eq_some.mp hrun
    obtain ⟨rfl, rfl⟩ := Run.pure_eq_some.mp hrun
    obtain ⟨_, _, hget, hfirst⟩ := Run.bind_eq_some.mp hfirst
    obtain ⟨rfl, rfl⟩ := Run.get_eq_some.mp hget
    obtain ⟨h₁, hheld₁⟩ := perform_displays (host.envUnder_hooksRead _ depth) hs
      (fun _ => callsMove_keepsUp host hs depth) h hheld
      (hsuits (deed, answer) List.mem_cons_self) hfirst
    obtain ⟨h', hheld'⟩ := ih h₁ (hheld₁ ▸ hheld)
      (fun pair hpair => hsuits pair (List.mem_cons_of_mem _ hpair)) hrest
    exact ⟨h', hheld'.trans hheld₁⟩

end Deed

end DataBinding
