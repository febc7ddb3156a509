import DataBinding.Proofs.Recording
import DataBinding.Proofs.Resemblance

/-!
# Observation and readers

Where nobody watches and hooks are passive, whoever reads and writes data does not notice whether
some of it has been observed. The same operations are carried out twice, once with observations in
between and once without them, and give the same answers, but for the sign of zero.

The sign of zero does get lost: a reactive field that holds zero drops minus zero, which a plain
one would take. Nothing more can differ, because the heaps of the two runs mirror each other after
each operation, whichever fields are reactive in one of them and plain in the other.
-/

namespace DataBinding

variable {κ σ : Type}

/-! ## Operations -/

/-- What somebody who uses data is answered. -/
inductive Answer where
  | value (v : Value)
  | keys (ks : List String)
  | size (n : Nat)
  | flag (b : Bool)
  | json (j : Json)
  | text (s : String)
  /-- There is nothing to say, or no object to ask. -/
  | nothing

namespace Answer

/-- The value in an answer, `null` if there is none. -/
def toValue : Answer → Value
  | value v => v
  | _ => .null

/-- Whether two answers are the same but for the sign of zero. -/
def Resembles : Answer → Answer → Prop
  | value a, value b => a.Resembles b
  | a, b => a = b

theorem Resembles.refl (a : Answer) : a.Resembles a := by
  cases a with
  | value v => exact Value.Resembles.refl v
  | _ => rfl

theorem Resembles.toValue {a b : Answer} (h : a.Resembles b) : a.toValue.Resembles b.toValue := by
  cases a <;> cases b <;>
    first
    | exact h
    | exact .refl _
    | cases h

end Answer

/-- A value to work with: one that was there before, one that an operation was answered, counted
back from the latest, or an item of an array. -/
inductive Operand where
  | given (v : Value)
  | earlier (k : Nat)
  | item (x : Operand) (i : Nat)

namespace Operand

/-- The value that is meant, `null` if there is none. -/
def eval (answers : List Answer) : Operand → Value
  | given v => v
  | earlier k => (answers[k]?.map Answer.toValue).getD .null
  | item x i => (x.eval answers).item i

/-- Whether the values that were there before have the items that belong to them. -/
def Fits (items : ArrayId → List Value) : Operand → Prop
  | given v => v.Fits items
  | earlier _ => True
  | item x _ => x.Fits items

variable {answers answers' : List Answer}

theorem eval_resembles (h : List.Forall₂ Answer.Resembles answers answers') (x : Operand) :
    (x.eval answers).Resembles (x.eval answers') := by
  induction x with
  | given v => exact .refl v
  | earlier k =>
    rw [eval, eval]
    induction h generalizing k with
    | nil => exact .refl _
    | cons hab _ ih =>
      cases k with
      | zero => exact hab.toValue
      | succ k => exact ih k
  | item x i ih => exact ih.item i

theorem eval_fits {items : ArrayId → List Value} (h : ∀ a ∈ answers, a.toValue.Fits items)
    {x : Operand} (hx : x.Fits items) : (x.eval answers).Fits items := by
  induction x with
  | given v => exact hx
  | earlier k =>
    rw [eval]
    cases hk : answers[k]? with
    | none => trivial
    | some a => exact h a (List.mem_of_getElem? hk)
  | item x i ih => exact (ih hx).item i

end Operand

/-- What can be done with an object. -/
inductive ObjectUse where
  | get (key : String)
  | peek (key : String)
  | set (key : String) (x : Operand)
  | keys
  | size
  | contains (key : String)
  /-- Whether another object is the same. -/
  | same (x : Operand)

/-- What somebody who uses data does next. -/
inductive Operation (κ : Type) where
  | use (x : Operand) (act : ObjectUse)
  | json (x : Operand)
  | text (x : Operand)
  | strictEq (x y : Operand)
  | observe (hook : Hook κ) (x : Operand)

/-- Does something with an object. -/
def ObjectUse.program (answers : List Answer) (o : ObjectId) : ObjectUse → Program κ σ Answer
  | get key => return .value (← Program.request (.read o key))
  | peek key => return .value (← Program.ask (.peek o key))
  | set key x => do
    Program.request (.write o key (x.eval answers))
    return .nothing
  | keys => return .keys (← Program.ask (.keys o))
  | size => return .size (← Program.ask (.keys o)).length
  | contains key => return .flag (← Program.ask (.contains o key))
  | same x => return .flag ((x.eval answers).object? == some o)

namespace Operation

/-- Whether an operation observes something. -/
def isObserve : Operation κ → Bool
  | observe _ _ => true
  | _ => false

/-- Carries out an operation. Observing has no answer. -/
def program (answers : List Answer) : Operation κ → Program κ σ (Option Answer)
  | use x act =>
    match (x.eval answers).object? with
    | none => return some .nothing
    | some o => return some (← act.program answers o)
  | json x => return some (.json (← Program.ask (.snapshot (x.eval answers))).toJson)
  | text x => return some (.text (← Program.ask (.text (x.eval answers))))
  | strictEq x y => return some (.flag ((x.eval answers).strictEq (y.eval answers)))
  | observe hook x => do
    Program.request (.observe hook (x.eval answers))
    return none

/-- Carries out operations one after the other. The answers stand in the order from the latest to
the first. -/
def programAll (answers : List Answer) : List (Operation κ) → Program κ σ (List Answer)
  | [] => return answers
  | op :: rest => do
    let answer ← op.program answers
    programAll (answer.toList ++ answers) rest

/-- Whether the values that were there before have the items that belong to them. -/
def Fits (items : ArrayId → List Value) : Operation κ → Prop
  | use x (.set _ y) => x.Fits items ∧ y.Fits items
  | use x _ | json x | text x | observe _ x => x.Fits items
  | strictEq x y => x.Fits items ∧ y.Fits items

end Operation

/-! ## Worlds without watchers -/

/-- Nobody is there to learn of a change: no watcher is collecting, and no field has subscribers. -/
structure World.Unattended (w : World κ σ) : Prop where
  current : w.current = none
  subscribers : ∀ o key, w.heap.subscribers o key = []

namespace World.Unattended

variable {host : Host κ σ} {w : World κ σ}

theorem of_same {w' : World κ σ} (hw : w.Unattended) (hcurrent : w'.current = w.current)
    (hsubs : ∀ o key, w'.heap.subscribers o key = w.heap.subscribers o key) : w'.Unattended :=
  ⟨hcurrent.trans hw.current, fun o key => (hsubs o key).trans (hw.subscribers o key)⟩

theorem read_eq (hw : w.Unattended) (hp : host.Passive) (depth : Nat) (o : ObjectId)
    (key : String) : ∃ user,
    read (host.env (depth + 1)) o key w = some (w.heap.peek o key, { w with user }) := by
  obtain ⟨user, hread⟩ := DataBinding.read_eq (w := w) (o := o)
    (fun _ c _ => hp.records depth c.hook) key
  have hheap : w.heap.subscribeAll w.current [(o, key)] = w.heap := by
    rw [hw.current]
    rfl
  rw [hheap] at hread
  exact ⟨user, hread⟩

/-- A write comes to an end, and nobody is updated. -/
theorem write_eq {items : ArrayId → List Value} (hw : w.Unattended) (hp : host.Passive)
    (depth : Nat) (o : ObjectId) (key : String) {v : Value} (hfits : w.heap.Fits items)
    (hv : v.Fits items) : ∃ w', write (host.env (depth + 1)) o key v w = some ((), w') ∧
      w'.Unattended ∧ Heap.Written o key v w.heap w'.heap := by
  cases hc : w.heap.cell? o key with
  | none =>
    refine ⟨_, write_eq_putPlain hc v, hw.of_same rfl fun p k => ?_,
      Heap.written_putPlain w.heap o key v⟩
    exact Heap.subscribers_congr (Heap.cell?_putPlain hc v p k)
  | some c =>
    cases heq : c.value.strictEq v with
    | true =>
      have hold : c.value.Fits items := Heap.peek_of_cell? hc ▸ hfits o key
      exact ⟨w, write_eq_self hc heq, hw, Heap.written_self hc hold hv heq⟩
    | false =>
      have hon : (Occasion.writing key v).isAccess = true := rfl
      obtain ⟨user, htell⟩ := hp.tell depth c.hook hon
        { w.mapHeap fun h => h.intercept c.hook [v] with
          held := .object o :: v.handles ++ w.held }
      have hnobody : c.subscribers = [] := by
        rw [← Heap.subscribers_of_cell? hc]
        exact hw.subscribers o key
      have hall : updateAll (host.env (depth + 1)) c.subscribers (w.stored o key c v user) =
          some ((), w.stored o key c v user) := by
        rw [hnobody]
        rfl
      refine ⟨_, write_eq_of_tell hc heq htell hall, hw.of_same rfl fun p k => ?_,
        Heap.written_store hc v⟩
      exact World.subscribers_stored w o key c v user p k

end World.Unattended

/-! ## Two runs -/

/-- Two worlds that a reader cannot tell apart. -/
structure World.Mirrors (items : ArrayId → List Value) (w w' : World κ σ) : Prop where
  left : w.Unattended
  right : w'.Unattended
  fits : w.heap.Fits items
  heaps : w.heap.Mirrors w'.heap

namespace World.Mirrors

variable {items : ArrayId → List Value} {w w' : World κ σ} {host : Host κ σ}

theorem fits_right (hm : World.Mirrors items w w') : w'.heap.Fits items :=
  hm.fits.of_mirrors hm.heaps

/-- Only the heap and the slot of the collecting watcher count. -/
theorem of_user (hm : World.Mirrors items w w') (user user' : σ) :
    World.Mirrors items { w with user } { w' with user := user' } :=
  ⟨hm.left.of_same rfl fun _ _ => rfl, hm.right.of_same rfl fun _ _ => rfl, hm.fits, hm.heaps⟩

end World.Mirrors

section

variable {items : ArrayId → List Value} {w w' : World κ σ} {host : Host κ σ}
  {answers answers' : List Answer}

/-- Two runs give answers that resemble each other and leave worlds that mirror each other. -/
def Agree (items : ArrayId → List Value) (r r' : Option (Answer × World κ σ)) : Prop :=
  ∃ a w a' w', r = some (a, w) ∧ r' = some (a', w') ∧ a.Resembles a' ∧ a.toValue.Fits items ∧
    World.Mirrors items w w'

/-- What is done with an object in worlds that mirror each other. -/
theorem ObjectUse.agree (hp : host.Passive) (depth : Nat) (hm : World.Mirrors items w w')
    (hanswers : List.Forall₂ Answer.Resembles answers answers')
    (hfit : ∀ a ∈ answers, a.toValue.Fits items) (o : ObjectId) (act : ObjectUse)
    (hact : ∀ key x, act = .set key x → x.Fits items) :
    Agree items (host.run (depth + 1) (act.program answers o) w)
      (host.run (depth + 1) (act.program answers' o) w') := by
  -- only a write changes anything, and it changes both worlds alike
  cases act with
  | get key =>
    obtain ⟨user, hread⟩ := hm.left.read_eq hp depth o key
    obtain ⟨user', hread'⟩ := hm.right.read_eq hp depth o key
    exact ⟨_, _, _, _, Run.bind_eq_some.mpr ⟨_, _, hread, rfl⟩,
      Run.bind_eq_some.mpr ⟨_, _, hread', rfl⟩, hm.heaps.peek o key, hm.fits o key,
      hm.of_user user user'⟩
  | peek key => exact ⟨_, _, _, _, rfl, rfl, hm.heaps.peek o key, hm.fits o key, hm⟩
  | set key x =>
    have hx := Operand.eval_resembles hanswers x
    have hv := Operand.eval_fits hfit (hact key x rfl)
    obtain ⟨w₁, hwrite, hleft, hwritten⟩ := hm.left.write_eq hp depth o key hm.fits hv
    obtain ⟨w₁', hwrite', hright, hwritten'⟩ :=
      hm.right.write_eq hp depth o key hm.fits_right (hv.of_resembles hx)
    exact ⟨.nothing, w₁, .nothing, w₁', Run.bind_eq_some.mpr ⟨_, _, hwrite, rfl⟩,
      Run.bind_eq_some.mpr ⟨_, _, hwrite', rfl⟩, .refl _, trivial,
      hleft, hright, hm.fits.written hv hwritten, hm.heaps.written hx hwritten hwritten'⟩
  | keys =>
    refine ⟨_, _, _, _, rfl, rfl, ?_, trivial, hm⟩
    exact congrArg Answer.keys (hm.heaps.keys o)
  | size =>
    refine ⟨_, _, _, _, rfl, rfl, ?_, trivial, hm⟩
    exact congrArg (fun ks => Answer.size ks.length) (hm.heaps.keys o)
  | contains key =>
    refine ⟨_, _, _, _, rfl, rfl, ?_, trivial, hm⟩
    refine congrArg Answer.flag (Bool.eq_iff_iff.mpr ?_)
    show (w.heap.slots o).contains key = true ↔ (w'.heap.slots o).contains key = true
    rw [OrderedMap.contains_iff, OrderedMap.contains_iff, hm.heaps.keys o]
  | same x =>
    refine ⟨_, _, _, _, rfl, rfl, ?_, trivial, hm⟩
    show Answer.flag _ = Answer.flag _
    rw [(Operand.eval_resembles hanswers x).object?_eq]

/-- An operation that observes nothing, in worlds that mirror each other. -/
theorem Operation.agree (hp : host.Passive) (depth : Nat) (hm : World.Mirrors items w w')
    (hanswers : List.Forall₂ Answer.Resembles answers answers')
    (hfit : ∀ a ∈ answers, a.toValue.Fits items) {op : Operation κ} (hop : op.Fits items)
    (hobserve : op.isObserve = false) : ∃ a w₁ a' w₁',
    host.run (depth + 1) (op.program answers) w = some (some a, w₁) ∧
    host.run (depth + 1) (op.program answers') w' = some (some a', w₁') ∧
    a.Resembles a' ∧ a.toValue.Fits items ∧ World.Mirrors items w₁ w₁' := by
  cases op with
  | use x act =>
    have hobject := (Operand.eval_resembles hanswers x).object?_eq
    simp only [program, ← hobject]
    cases (x.eval answers).object? with
    | none => exact ⟨.nothing, w, .nothing, w', rfl, rfl, .refl _, trivial, hm⟩
    | some o =>
      have hact : ∀ key y, act = .set key y → y.Fits items := by
        rintro key y rfl
        exact hop.2
      obtain ⟨a, w₁, a', w₁', hrun, hrun', hrest⟩ :=
        ObjectUse.agree hp depth hm hanswers hfit o act hact
      exact ⟨a, w₁, a', w₁', Run.bind_eq_some.mpr ⟨a, w₁, hrun, rfl⟩,
        Run.bind_eq_some.mpr ⟨a', w₁', hrun', rfl⟩, hrest⟩
  | json x =>
    refine ⟨_, _, _, _, rfl, rfl, ?_, trivial, hm⟩
    exact congrArg Answer.json (hm.heaps.toJson (Operand.eval_resembles hanswers x))
  | text x =>
    refine ⟨_, _, _, _, rfl, rfl, ?_, trivial, hm⟩
    exact congrArg Answer.text (hm.heaps.text (Operand.eval_resembles hanswers x))
  | strictEq x y =>
    refine ⟨_, _, _, _, rfl, rfl, ?_, trivial, hm⟩
    exact congrArg Answer.flag (Value.Resembles.strictEq_congr
      (Operand.eval_resembles hanswers x) (Operand.eval_resembles hanswers y))
  | observe hook x => cases hobserve

/-- An observation in one of two worlds that mirror each other. -/
theorem World.Mirrors.observe (hm : World.Mirrors items w w') (depth : Nat) (hook : Hook κ)
    (x : Operand) : ∃ w₁,
    host.run (depth + 1) ((Operation.observe hook x).program answers) w = some (none, w₁) ∧
      World.Mirrors items w₁ w' := by
  have hheap := Heap.mirrors_intercept hook w.heap [x.eval answers]
  refine ⟨_, rfl, hm.left.of_same rfl fun p k => ?_, hm.right, hm.fits.of_mirrors hheap,
    hheap.symm.trans hm.heaps⟩
  exact Heap.subscribers_intercept hook w.heap _ p k

/-- Operations with and without observations between them, in worlds that mirror each other. -/
theorem Operation.programAll_agree (hp : host.Passive) (depth : Nat)
    (hm : World.Mirrors items w w')
    (hanswers : List.Forall₂ Answer.Resembles answers answers')
    (hfit : ∀ a ∈ answers, a.toValue.Fits items) (ops : List (Operation κ))
    (hops : ∀ op ∈ ops, op.Fits items) : ∃ all w₁ all' w₁',
    host.run (depth + 1) (programAll answers ops) w = some (all, w₁) ∧
    host.run (depth + 1) (programAll answers' (ops.filter fun op => !op.isObserve)) w' =
      some (all', w₁') ∧
    List.Forall₂ Answer.Resembles all all' := by
  induction ops generalizing w w' answers answers' with
  | nil => exact ⟨answers, w, answers', w', rfl, rfl, hanswers⟩
  | cons op rest ih =>
    have hrest : ∀ op ∈ rest, op.Fits items := fun op h => hops op (List.mem_cons_of_mem _ h)
    cases hobserve : op.isObserve with
    | true =>
      obtain ⟨hook, x, rfl⟩ : ∃ hook x, op = .observe hook x := by
        cases op with
        | observe hook x => exact ⟨hook, x, rfl⟩
        | _ => cases hobserve
      obtain ⟨w₂, hfirst, hm₂⟩ : ∃ w₂, host.run (depth + 1)
          ((Operation.observe hook x).program answers) w = some (none, w₂) ∧
          World.Mirrors items w₂ w' := hm.observe depth hook x
      obtain ⟨all, w₁, all', w₁', hrun, hrun', hall⟩ := ih hm₂ hanswers hfit hrest
      refine ⟨all, w₁, all', w₁', Run.bind_eq_some.mpr ⟨none, w₂, hfirst, hrun⟩, ?_, hall⟩
      rw [List.filter_cons_of_neg (by simp [hobserve])]
      exact hrun'
    | false =>
      obtain ⟨a, w₂, a', w₂', hfirst, hfirst', ha, hfita, hm₂⟩ :=
        agree hp depth hm hanswers hfit (hops op List.mem_cons_self) hobserve
      have hfit' : ∀ b ∈ a :: answers, b.toValue.Fits items :=
        List.forall_mem_cons.mpr ⟨hfita, hfit⟩
      obtain ⟨all, w₁, all', w₁', hrun, hrun', hall⟩ := ih hm₂ (.cons ha hanswers) hfit' hrest
      refine ⟨all, w₁, all', w₁', Run.bind_eq_some.mpr ⟨some a, w₂, hfirst, hrun⟩, ?_, hall⟩
      rw [List.filter_cons_of_pos (by simp [hobserve])]
      exact Run.bind_eq_some.mpr ⟨some a', w₂', hfirst', hrun'⟩

/-- Readers do not notice observation: in a world without watchers, under passive hooks, operations
come to an end with and without observations between them, and are answered the same but for the
sign of zero. -/
theorem observation_transparent (hp : host.Passive) (depth : Nat) (hw : w.Unattended)
    (hfits : w.heap.Fits items) (ops : List (Operation κ)) (hops : ∀ op ∈ ops, op.Fits items) :
    ∃ answers w₁ answers' w₂,
      host.run (depth + 1) (Operation.programAll [] ops) w = some (answers, w₁) ∧
      host.run (depth + 1) (Operation.programAll [] (ops.filter fun op => !op.isObserve)) w =
        some (answers', w₂) ∧
      List.Forall₂ Answer.Resembles answers answers' :=
  Operation.programAll_agree hp depth ⟨hw, hw, hfits, .refl _⟩ .nil (by simp) ops hops

end

/-! An object that contains itself, and a hook that counts. -/

namespace Tally

def host : Host Unit Nat where
  body _ _ := do
    Program.updateUser (· + 1)
    return .ok ()
  handles _ := []

theorem host_passive : host.Passive :=
  fun _ _ _ => ⟨trivial, fun _ => trivial⟩

def slots : Slots Unit := .ofList [("me", .plain (.object ⟨0⟩)), ("n", .plain (.number 0))]

def world : World Unit Nat where
  heap := (({} : Heap Unit).alloc slots).2
  user := 0

/-- The object is found in itself and observed in between; then its number becomes minus zero. -/
def operations : List (Operation Unit) :=
  [.use (.given (.object ⟨0⟩)) (.get "me"), .observe (.custom ()) (.earlier 0),
    .use (.earlier 0) (.set "n" (.given (.number (-0)))), .use (.earlier 1) (.get "n"),
    .json (.earlier 2)]

end Tally

open Tally in
theorem observation_transparent_tally : ∃ answers w₁ answers' w₂,
    host.run 1 (Operation.programAll [] operations) world = some (answers, w₁) ∧
    host.run 1 (Operation.programAll [] (operations.filter fun op => !op.isObserve)) world =
      some (answers', w₂) ∧
    List.Forall₂ Answer.Resembles answers answers' := by
  have hplain : ∀ key, (slots.find? key).bind Slot.cell? = none := fun key =>
    match hs : slots.find? key with
    | none => rfl
    | some s => Heap.cell?_eq_none_of_isPlain
      (Heap.of_find?_ofList (P := fun s => s.isPlain = true) (by decide) hs)
  have hunattended : world.Unattended := by
    refine ⟨rfl, fun o key => ?_⟩
    exact Heap.subscribers_congr (h := {}) (Heap.cell?_alloc hplain o key)
  have hfits : world.heap.Fits fun _ => [] := by
    intro o key
    have hpeek : world.heap.peek o key = _ := Heap.peek_alloc {} slots o key
    rw [hpeek]
    split
    · cases hs : slots.find? key with
      | none => trivial
      | some s =>
        refine Heap.of_find?_ofList (P := fun s => s.value.Fits _) (fun entry hmem => ?_) hs
        rcases List.mem_pair.mp hmem with rfl | rfl <;> trivial
    · trivial
  refine observation_transparent host_passive 0 hunattended hfits operations fun op hmem => ?_
  simp only [operations, List.mem_cons, List.not_mem_nil, or_false] at hmem
  rcases hmem with rfl | rfl | rfl | rfl | rfl
  · trivial
  · trivial
  · exact ⟨trivial, trivial⟩
  · trivial
  · trivial

end DataBinding
