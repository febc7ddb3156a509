import DataBinding.Proofs.Mounting
import DataBinding.Proofs.Permanence

/-!
# The properties of an app

Mounting resolves the place, observes the data, compiles, and only then takes down the keys. A
place that is not there is found out first, before anything is touched; and no compilation ends in
that error, since its errors are those of attribute names. Passive hooks add no key while the tree
is compiled, so the keys taken down are those the data came with, and each has been made reactive.

From then on the properties are fixed, whatever becomes of the data: nothing is reactive that ever
stops being so, and a key that comes later is no property.
-/

namespace DataBinding

variable {κ σ α : Type} {env : Env κ σ} {kit : Kit κ} {w w' : World κ σ}

/-! ## Errors of compiling -/

/-- Attribute names are in error for other reasons than a place that is not there. -/
theorem Directive.parse_ne_rootNotFound (name : String) (d : Dialect) (selector : String) :
    Directive.parse name d ≠ .error (.rootNotFound selector) := by
  have hevent : ∀ event, ofEvent name event ≠ .error (.rootNotFound selector) := by
    intro event
    unfold ofEvent
    split <;> simp
  unfold Directive.parse
  split
  · unfold ofKey
    dsimp only
    split
    · simp
    · split
      · simp
      · split
        · exact hevent _
        · simp
  · split
    · exact hevent _
    · simp

theorem compileAttributes_error {n : NodeId} {attributes : List (String × String)} {e : ViewError}
    (hc : compileAttributes env kit n attributes w = some (.error e, w')) :
    ∃ name, Directive.parse name kit.dialect = .error e := by
  induction attributes generalizing w with
  | nil => cases (Run.pure_eq_some.mp hc).1
  | cons a rest ih =>
    obtain ⟨name, expression⟩ := a
    rw [compileAttributes] at hc
    cases hparse : Directive.parse name kit.dialect with
    | error e' =>
      rw [hparse] at hc
      obtain rfl := Except.error.inj (Run.pure_eq_some.mp hc).1
      exact ⟨name, hparse⟩
    | ok parsed =>
      rw [hparse] at hc
      cases parsed with
      | none => exact ih hc
      | some directive =>
        obtain ⟨_, w₁, _, hrest⟩ := Run.bind_eq_some.mp hc
        exact ih hrest

theorem compileNode_error {n : NodeId} {e : ViewError}
    (hc : compileNode env kit n w = some (.error e, w')) :
    ∃ name, Directive.parse name kit.dialect = .error e := by
  obtain ⟨_, _, hget, hc⟩ := Run.bind_eq_some.mp hc
  obtain ⟨rfl, rfl⟩ := Run.get_eq_some.mp hget
  cases hcontent : w.document.content n with
  | element tag attributes value =>
    rw [hcontent] at hc
    exact compileAttributes_error hc
  | text text =>
    rw [hcontent] at hc
    dsimp only at hc
    split at hc
    · obtain ⟨_, w₁, _, hend⟩ := Run.bind_eq_some.mp hc
      cases (Run.pure_eq_some.mp hend).1
    · cases (Run.pure_eq_some.mp hc).1
  | comment text =>
    rw [hcontent] at hc
    cases (Run.pure_eq_some.mp hc).1

theorem compileNodes_error {depth : Nat} {nodes : List NodeId} {e : ViewError}
    (hc : compileNodes env kit depth nodes w = some (.error e, w')) :
    ∃ name, Directive.parse name kit.dialect = .error e := by
  -- along the recursion of the walk: the children one level down, then the siblings
  fun_induction compileNodes env kit depth nodes generalizing w w' with
  | case1 depth => cases (Run.pure_eq_some.mp hc).1
  | case2 n rest => exact absurd hc (by simp)
  | case3 depth n rest ihDown ihBeside =>
    obtain ⟨first, w₁, hnode, hc⟩ := Run.bind_eq_some.mp hc
    cases first with
    | error e' =>
      obtain rfl := Except.error.inj (Run.pure_eq_some.mp hc).1
      exact compileNode_error hnode
    | ok u =>
      obtain ⟨v, _, _, hc⟩ := Run.bind_eq_some.mp hc
      obtain ⟨below, w₂, hbelow, hc⟩ := Run.bind_eq_some.mp hc
      cases below with
      | error e' =>
        obtain rfl := Except.error.inj (Run.pure_eq_some.mp hc).1
        exact ihDown v hbelow
      | ok u => exact ihBeside hc

/-- A compilation ends in no other error than that of an attribute name. -/
theorem compile_error {root : NodeId} {e : ViewError}
    (hc : compile env kit root w = some (.error e, w')) :
    ∃ name, Directive.parse name kit.dialect = .error e := by
  simp only [compile, Run.bind_eq_some, Run.get_eq_some, Run.modify_eq_some, Run.pure_eq_some,
    Run.holding_eq_some] at hc
  obtain ⟨_, _, ⟨rfl, rfl⟩, _, _, rfl, _, _, ⟨w₂, hnodes, rfl⟩, _, _, rfl, rfl, rfl⟩ := hc
  exact compileNodes_error hnodes

/-! ## What mounting does -/

/-- How mounting ends: the keys are taken down, unless compiling failed. -/
def takeKeys (kit : Kit κ) (root : NodeId) :
    Except ViewError Unit → Run κ σ (Except ViewError (App κ))
  | .error e => return .error e
  | .ok () => do
    let keys := ((← get).heap.slots kit.data).keys
    return .ok { root, data := kit.data, keys, methods := kit.methods }

/-- A world in which an object has been observed. -/
def World.observing (w : World κ σ) (hook : Hook κ) (o : ObjectId) : World κ σ :=
  w.mapHeap fun h => h.intercept hook [.object o]

theorem mount_of_error {place : Mount} {e : ViewError}
    (hplace : place.resolve w.document = .error e) (env : Env κ σ) (hook : Hook κ) (kit : Kit κ) :
    mount env place hook kit w = some (.error e, w) := by
  unfold mount
  rw [Run.get_bind, hplace]
  rfl

/-- Where there is a place, compiling starts once the data has been observed. -/
theorem mount_of_ok {place : Mount} {root : NodeId} (hplace : place.resolve w.document = .ok root)
    (env : Env κ σ) (hook : Hook κ) (kit : Kit κ) :
    mount env place hook kit w =
      (compile env kit root >>= takeKeys kit root) (w.observing hook kit.data) := by
  have hobserve : ∀ rest : Unit → Run κ σ (Except ViewError (App κ)),
      (observe hook (.object kit.data) >>= rest) w = rest () (w.observing hook kit.data) :=
    fun _ => rfl
  unfold mount
  rw [Run.get_bind, hplace]
  exact hobserve _

/-- Mounting is refused before anything happens, or it is observing and compiling. -/
theorem mount_cases {place : Mount} {hook : Hook κ} {answer : Except ViewError (App κ)}
    (hm : mount env place hook kit w = some (answer, w')) :
    (∃ e, place.resolve w.document = .error e ∧ answer = .error e ∧ w' = w) ∨
      ∃ root result, place.resolve w.document = .ok root ∧
        compile env kit root (w.observing hook kit.data) = some (result, w') ∧
        answer = result.map fun _ =>
          { root, data := kit.data, keys := (w'.heap.slots kit.data).keys
            methods := kit.methods } := by
  cases hplace : place.resolve w.document with
  | error e =>
    rw [mount_of_error hplace] at hm
    obtain ⟨rfl, rfl⟩ := Prod.mk.inj (Option.some.inj hm)
    exact .inl ⟨e, rfl, rfl, rfl⟩
  | ok root =>
    rw [mount_of_ok hplace] at hm
    obtain ⟨result, w₁, hcompile, hm⟩ := Run.bind_eq_some.mp hm
    cases result with
    | error e =>
      obtain ⟨rfl, rfl⟩ := Run.pure_eq_some.mp hm
      exact .inr ⟨root, _, rfl, hcompile, rfl⟩
    | ok u =>
      obtain ⟨_, _, hget, hm⟩ := Run.bind_eq_some.mp hm
      obtain ⟨rfl, rfl⟩ := Run.get_eq_some.mp hget
      obtain ⟨rfl, rfl⟩ := Run.pure_eq_some.mp hm
      exact .inr ⟨root, _, rfl, hcompile, rfl⟩

/-- Where hooks only record, compiling adds no key. -/
theorem compile_keys {root : NodeId} {result : Except ViewError Unit}
    (hr : w.RecordedBy env kit.data) (hc : compile env kit root w = some (result, w')) :
    (w'.heap.slots kit.data).keys = (w.heap.slots kit.data).keys := by
  let R : World κ σ → World κ σ → Prop := fun a b =>
    a.RecordedBy env kit.data → ∃ keys, World.Subscribes kit.data keys a b
  have hcarried : Carried R := by
    refine ⟨fun _ _ => ⟨[], .of_heap rfl rfl⟩, fun a b c hab hbc ha => ?_, fun hab ha => ?_⟩
    · obtain ⟨keys, hsub⟩ := hab ha
      obtain ⟨keys', hsub'⟩ := hbc (hsub.recordedBy ha)
      exact ⟨_, hsub.trans hsub'⟩
    · obtain ⟨keys, hsub⟩ := hab ha
      exact ⟨keys, hsub.of_holding⟩
  -- any node will do: bindings keep the keys wherever they are made
  have hwalk : Carried.Walk R fun _ _ => True :=
    ⟨fun _ _ _ _ _ => trivial, fun _ _ _ _ _ => trivial, fun _ _ _ _ => trivial⟩
  have hmoves : R w w' := by
    refine hcarried.compile hwalk (fun n d expression a u b _ hbind ha => ?_)
      (fun _ _ => ⟨[], .of_heap rfl rfl⟩) (fun _ _ _ _ _ => ⟨[], .of_heap rfl rfl⟩) trivial hc
    obtain ⟨b', hbind', _, hsub⟩ := bind_recorded ha n d expression
    obtain ⟨_, rfl⟩ := Prod.mk.inj (Option.some.inj (hbind'.symm.trans hbind))
    exact ⟨_, hsub⟩
  obtain ⟨keys, hsub⟩ := hmoves hr
  have hfields := congrArg (List.map Prod.fst) (hsub.fields kit.data)
  simpa [Heap.fields_eq_map_keys, Function.comp_def] using hfields

/-! ## Apps -/

/-- What there is to say of the properties of an app in a world: each is a reactive field and reads
as that field does; another key, on the data or not, reads as nothing and is refused without a
trace. -/
structure App.Serves (app : App κ) (host : Host κ σ) (w : World κ σ) : Prop where
  reactive : ∀ key ∈ app.keys, w.heap.isReactive app.data key = true
  reads : ∀ key ∈ app.keys, ∀ depth, ∃ user, app.get (host.env (depth + 1)) key w =
    some (some (w.heap.peek app.data key),
      { w with heap := w.heap.subscribeAll w.current [(app.data, key)], user })
  knowsNoOther : ∀ key ∉ app.keys, ∀ depth, app.get (host.env depth) key w = some (none, w)
  refuses : ∀ key ∉ app.keys, ∀ depth v,
    app.set (host.env depth) key v w = some (.error (.unknownProperty key), w)

/-- The properties of an app are what they are at every moment. -/
def Law.serving (host : Host κ σ) (app : App κ) : Law κ σ where
  sight _ w := app.Serves host w
  step _ _ _ := True

namespace App

theorem exposes_iff {app : App κ} {key : String} : app.exposes key = true ↔ key ∈ app.keys :=
  List.contains_iff_mem

/-- A property is read as its field is. -/
theorem get_of_mem {app : App κ} {host : Host κ σ} {key : String} {c : Cell κ}
    (hkey : key ∈ app.keys) (hc : w.heap.cell? app.data key = some c)
    (hpassive : c.hook.IsPassive host) (depth : Nat) :
    ∃ user, app.get (host.env (depth + 1)) key w =
      some (some (w.heap.peek app.data key),
        { w with heap := w.heap.subscribeAll w.current [(app.data, key)], user }) := by
  have hon : (Occasion.reading key c.value).isAccess = true := rfl
  obtain ⟨user, htell⟩ := hpassive.tell depth hon
    { w with
      heap := w.heap.subscribeAll w.current [(app.data, key)]
      held := .object app.data :: c.value.handles ++ w.held }
  have hread : read (host.env (depth + 1)) app.data key w = some (w.heap.peek app.data key,
      { w with heap := w.heap.subscribeAll w.current [(app.data, key)], user }) := by
    refine read_eq_of_tell (fun hnone => ?_) fun c' hc' => ?_
    · rw [hc] at hnone
      cases hnone
    · obtain rfl := Option.some.inj (hc.symm.trans hc')
      exact htell
  refine ⟨user, ?_⟩
  unfold App.get
  rw [if_pos (exposes_iff.mpr hkey)]
  exact Run.bind_eq_some.mpr ⟨_, _, hread, rfl⟩

theorem get_of_not_mem {app : App κ} {key : String} (hkey : key ∉ app.keys) (env : Env κ σ)
    (w : World κ σ) : app.get env key w = some (none, w) := by
  unfold App.get
  rw [if_neg fun h => hkey (exposes_iff.mp h)]
  rfl

theorem set_of_not_mem {app : App κ} {key : String} (hkey : key ∉ app.keys) (env : Env κ σ)
    (v : Value) (w : World κ σ) :
    app.set env key v w = some (.error (.unknownProperty key), w) := by
  unfold App.set
  rw [if_neg fun h => hkey (exposes_iff.mp h)]
  rfl

/-- Reactive fields with passive hooks go on to be properties wherever they last. -/
theorem serves_of_lastsIn {app : App κ} {host : Host κ σ}
    (hfields : ∀ key ∈ app.keys, ∃ c, w.heap.cell? app.data key = some c ∧ c.hook.IsPassive host)
    (hlasts : w.LastsIn w') : app.Serves host w' := by
  refine ⟨fun key hkey => ?_, fun key hkey depth => ?_,
    fun key hkey depth => get_of_not_mem hkey _ w',
    fun key hkey depth v => set_of_not_mem hkey _ v w'⟩
  · obtain ⟨c, hc, _⟩ := hfields key hkey
    exact hlasts.heap.isReactive (Option.isSome_iff_exists.mpr ⟨c, hc⟩)
  · obtain ⟨c, hc, hpassive⟩ := hfields key hkey
    obtain ⟨c', hc', hhook⟩ := hlasts.heap.field hc
    exact get_of_mem hkey hc' (hhook ▸ hpassive) depth

end App

/-- A mounted app has the keys that the data had. Each is a reactive field by then, with a passive
hook. -/
theorem mount_exposes {host : Host κ σ} {depth : Nat} {place : Mount} {hook : Hook κ}
    {app : App κ} (hpassive : (w.observing hook kit.data).PassiveAt host kit.data)
    (hm : mount (host.env depth) place hook kit w = some (.ok app, w')) :
    app.data = kit.data ∧ app.keys = (w.heap.slots kit.data).keys ∧
      ∀ key ∈ app.keys, ∃ c, w'.heap.cell? app.data key = some c ∧ c.hook.IsPassive host := by
  rcases mount_cases hm with ⟨e, _, hanswer, _⟩ | ⟨root, result, _, hcompile, hanswer⟩
  · cases hanswer
  cases result with
  | error e => cases hanswer
  | ok u =>
    obtain rfl := Except.ok.inj hanswer
    let seen := w.observing hook kit.data
    have hobserved : (seen.heap.slots kit.data).keys = (w.heap.slots kit.data).keys :=
      ((Heap.mirrors_intercept hook w.heap _).keys kit.data).symm
    -- the same compilation with a call more to spare, so that hooks find the depth they need
    have hdeeper := (host.env_below_succ depth).buildsSideBySide.compile kit root hcompile
    have hkeys : (w'.heap.slots kit.data).keys = (w.heap.slots kit.data).keys :=
      (compile_keys (hpassive.recordedBy depth) hdeeper).trans hobserved
    refine ⟨rfl, hkeys, fun key hkey => ?_⟩
    have hcontains : (w.heap.slots kit.data).contains key = true :=
      (OrderedMap.contains_iff _ key).mpr (hkeys ▸ hkey)
    obtain ⟨c, hc⟩ := Option.isSome_iff_exists.mp (isReactive_observed hook w.heap hcontains)
    have hlasts : seen.Returns w' :=
      ((host.env_echoes seen depth).buildsSideBySide.compile kit root (.refl seen)).2 hcompile
    obtain ⟨c', hc', hhook⟩ := hlasts.lasts.heap.field hc
    exact ⟨c', hc', hhook ▸ hpassive key c hc⟩

/-- **Properties are fixed when an app is mounted.** A place that is not there leaves the world as
it was. If the hooks of the data are passive, the properties are the keys that the data had before,
and at every moment of every later run each of them is a reactive field and reads as such, while
every other key is refused. -/
theorem properties_fixed (host : Host κ σ) (depth : Nat) (place : Mount) (hook : Hook κ)
    (kit : Kit κ) (w w₁ : World κ σ) (answer : Except ViewError (App κ))
    (hmount : mount (host.env depth) place hook kit w = some (answer, w₁)) :
    (∀ selector, answer = .error (.rootNotFound selector) → w₁ = w) ∧
    ((w.observing hook kit.data).PassiveAt host kit.data → ∀ app, answer = .ok app →
      app.data = kit.data ∧ app.keys = (w.heap.slots kit.data).keys ∧
      ∀ {α : Type} (p : Program κ σ α),
        host.Upholds .free (.serving host app) p w₁ ∧
          ∀ later a w₂, host.run later p w₁ = some (a, w₂) → app.Serves host w₂) := by
  constructor
  · rintro selector rfl
    rcases mount_cases hmount with ⟨e, _, _, hsame⟩ | ⟨root, result, _, hcompile, hanswer⟩
    · exact hsame
    · cases result with
      | ok u => cases hanswer
      | error e =>
        obtain ⟨name, hparse⟩ := compile_error hcompile
        rw [← Except.error.inj hanswer] at hparse
        exact absurd hparse (Directive.parse_ne_rootNotFound name kit.dialect selector)
  · rintro hpassive app rfl
    obtain ⟨hdata, hkeys, hfields⟩ := mount_exposes hpassive hmount
    have hserves : ∀ w₂, w₁.LastsIn w₂ → app.Serves host w₂ :=
      fun _ hlasts => App.serves_of_lastsIn hfields hlasts
    exact ⟨hdata, hkeys, fun p =>
      ⟨host.upholds_of_returns .free (fun _ w₂ hlasts => hserves w₂ hlasts)
        (fun _ _ _ _ => trivial) p,
        fun _ _ w₂ hrun => hserves w₂ (Host.returns_of_run hrun).lasts⟩⟩

namespace Latecomer

/-- Nobody does anything. -/
def host : Host Unit Unit where
  body _ _ := .done (.ok ())
  handles _ := []

theorem host_passive : host.Passive := fun _ _ _ => trivial

def fields : Slots Unit where
  entries := [("a", .plain (.text "one"))]

/-- One field, and a text that shows it. -/
def world : World Unit Unit where
  heap := { objects := ⟨#[fields]⟩ }
  document := ⟨#[{ content := .element "div" ∅ "", children := [⟨1⟩] },
    { content := .text "{{ a }}" }]⟩
  user := ()

def page : Tree := .node ⟨0⟩ (.element "div" ∅ "") 0 [.node ⟨1⟩ (.text "{{ a }}") 0 []]

def pageKit : Kit Unit := { data := ⟨0⟩ }

/-- The page has been mounted. -/
def started : World Unit Unit := world.mounted (.custom ()) pageKit page

def app : App Unit where
  root := ⟨0⟩
  data := ⟨0⟩
  keys := ["a"]
  methods := ∅

theorem mount_page : mount (host.env 3) (.node ⟨0⟩) (.custom ()) pageKit world =
    some (.ok app, started) := by
  have htree : page.Of world.document :=
    ⟨by decide, rfl, rfl, ⟨by decide, rfl, rfl, trivial⟩, trivial⟩
  have hplain : (Plan.ofRoot pageKit.dialect page).Plain pageKit
      (world.heap.intercept (.custom ()) [.object pageKit.data]) := by
    have hwires : (Plan.ofRoot pageKit.dialect page).wires = [.bind ⟨1⟩ .text "{{ a }}"] := by
      decide +kernel
    intro n e hmem
    rw [hwires] at hmem
    simp at hmem
  have hresult : (Plan.ofRoot pageKit.dialect page).result = .ok () := by decide +kernel
  have hkeys : (started.heap.slots ⟨0⟩).keys = ["a"] := by decide +kernel
  have hplace : Mount.resolve world.document (.node ⟨0⟩) = .ok page.id := rfl
  obtain ⟨⟨⟩, hmount⟩ := mount_eq (.custom ()) (host_passive.records 2) hplace htree (by decide)
    (by decide) hplain
  rw [hresult] at hmount
  refine hmount.trans ?_
  rw [← started, app, ← hkeys]
  rfl

/-- The property is written, and a key is added. -/
def program : Program Unit Unit Unit :=
  .andThen (.request (.write ⟨0⟩ "a" (.text "two"))) fun _ =>
  .request (.write ⟨0⟩ "late" .null)

end Latecomer

open Latecomer in
/-- A key that comes later is on the data and is no property. Where there is no element to mount
on, nothing has happened. -/
theorem properties_fixed_latecomer :
    (∃ w v w', mount (host.env 3) (.node ⟨0⟩) (.custom ()) pageKit world = some (.ok app, started) ∧
      host.run 3 program started = some ((), w) ∧ (w.heap.slots ⟨0⟩).keys = ["a", "late"] ∧
      w.heap.isReactive ⟨0⟩ "a" = true ∧ app.get (host.env 1) "a" w = some (some v, w') ∧
      w.heap.text v = "two" ∧ app.get (host.env 1) "late" w = some (none, w) ∧
      app.set (host.env 1) "late" .null w = some (.error (.unknownProperty "late"), w)) ∧
    ∃ w', mount (host.env 3) (.selector ⟨0⟩ "#none") (.custom ()) pageKit world =
      some (.error (.rootNotFound "#none"), w') ∧ w' = world := by
  constructor
  · have hends : (host.run 3 program started).any (fun r =>
        (r.2.heap.slots ⟨0⟩).keys == ["a", "late"] &&
          r.2.heap.text (r.2.heap.peek ⟨0⟩ "a") == "two") = true := by
      decide +kernel
    obtain ⟨⟨_, w⟩, hrun, hfinal⟩ := (Option.any_eq_true _ _).mp hends
    obtain ⟨hkeys, hvalue⟩ := (Bool.and_eq_true _ _).mp hfinal
    obtain ⟨_, _, hruns⟩ := (properties_fixed host 3 (.node ⟨0⟩) (.custom ()) pageKit world
      started (.ok app) mount_page).2 (fun _ c _ => host_passive.isPassive c.hook) app rfl
    have hserves := (hruns program).2 3 _ w hrun
    have hlate : "late" ∉ app.keys := by decide
    obtain ⟨_, hget⟩ := hserves.reads "a" (by decide) 0
    have hvalue : w.heap.text (w.heap.peek app.data "a") = "two" := eq_of_beq hvalue
    exact ⟨w, _, _, mount_page, hrun, eq_of_beq hkeys, hserves.reactive "a" (by decide), hget,
      hvalue, hserves.knowsNoOther "late" hlate 1, hserves.refuses "late" hlate 1 .null⟩
  · have hplace : (Mount.selector ⟨0⟩ "#none").resolve world.document =
        .error (.rootNotFound "#none") := by
      decide +kernel
    have hrefused := mount_of_error hplace (host.env 3) (.custom ()) pageKit
    exact ⟨_, hrefused, (properties_fixed host 3 _ _ pageKit world _ _ hrefused).1 "#none" rfl⟩

end DataBinding
