import DataBinding.Scenario.Desk

/-!
# Evaluating expressions

Expressions are evaluated from left to right. What has been evaluated is held until the whole is.
-/

namespace DataBinding.Scenario

open Act

mutual

/-- The value of an expression. -/
def Expression.eval (locals : Locals) : Expression → Act Value
  | .null => return .null
  | .bool b => return .bool b
  | .number x => return .number x
  | .text s => return .text s
  | .array items => do
    let values ← evalAll locals items
    request (.newArray values)
  | .json j => request (.ofJson j)
  | .object fields => do
    -- all values first: the fields see nothing of each other
    let values ← evalFields locals fields
    let o ← request .newObject
    values.forM fun field => request (.write o field.1 field.2)
    return .object o
  | .named name =>
    match Entries.find? locals name with
    | some v => return v
    | none => value name
  | .get object key => do
    let v ← object.eval locals
    request (.read (← given v.object?) key)
  | .peek object key => do
    let v ← object.eval locals
    ask (.peek (← given v.object?) key)
  | .add items => do
    return .number (← sumAfter locals 0 items)
  | .concat items => do
    return .text (← concatTexts locals items)
  | .replicate s times => return .text (String.join (List.replicate times s))
  | .invalid => reject

/-- The values of expressions. -/
def evalAll (locals : Locals) : List Expression → Act (List Value)
  | [] => return []
  | e :: rest => do
    let v ← e.eval locals
    let vs ← holding v.handles (evalAll locals rest)
    return v :: vs

/-- The values of fields. -/
def evalFields (locals : Locals) : List (String × Expression) → Act (List (String × Value))
  | [] => return []
  | (key, e) :: rest => do
    let v ← e.eval locals
    let vs ← holding v.handles (evalFields locals rest)
    return (key, v) :: vs

/-- The sum of expressions, added to what came before one after the other. -/
def sumAfter (locals : Locals) (before : Float) : List Expression → Act Float
  | [] => return before
  | e :: rest => do
    let v ← e.eval locals
    sumAfter locals (before + v.number?.getD 0) rest

/-- The texts of expressions in a row. -/
def concatTexts (locals : Locals) : List Expression → Act String
  | [] => return ""
  | e :: rest => do
    let v ← e.eval locals
    let text ← ask (.text v)
    let texts ← concatTexts locals rest
    return text ++ texts

end

/-- The object that an expression gives. -/
def Expression.evalObject (locals : Locals) (e : Expression) : Act ObjectId := do
  let v ← e.eval locals
  given v.object?

/-- The text of the value of an expression. -/
def Expression.evalText (locals : Locals) (e : Expression) : Act String := do
  let v ← e.eval locals
  ask (.text v)

/-- Whether a condition holds. -/
def Condition.eval (locals : Locals) : Condition → Act Bool
  | less a b => do
    let x ← a.eval locals
    let y ← holding x.handles (b.eval locals)
    return decide (x.number?.getD 0 < y.number?.getD 0)
  | equal a b => do
    let x ← a.eval locals
    let y ← holding x.handles (b.eval locals)
    return x.strictEq y

end DataBinding.Scenario
