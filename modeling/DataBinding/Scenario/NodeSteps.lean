import DataBinding.Scenario.Evaluation

/-!
# Steps on nodes

What each step does, and its result.
-/

namespace DataBinding.Scenario

open Act

mutual

/-- Makes a node: its attributes, then its children one by one, then its name. -/
def NodeSpec.build : NodeSpec → Act NodeId
  | .new content attributes children name => do
    let n ← request (.newNode content)
    attributes.forM fun pair => request (.setAttribute n pair.1 pair.2)
    buildChildren n children
    if let some name := name then
      keepNode name n
    return n
  | .named name => node name

/-- Makes the children of a node. -/
def buildChildren (n : NodeId) : List NodeSpec → Act Unit
  | [] => return
  | child :: rest => do
    let c ← child.build
    request (.appendChildren n [c])
    buildChildren n rest

end

/-- Makes nodes one after the other. -/
def buildAll : List NodeSpec → Act (List NodeId)
  | [] => return []
  | spec :: rest => do
    let n ← spec.build
    let ns ← buildAll rest
    return n :: ns

/-- The report of a node. -/
def dumpNode (n : NodeId) : Act Json := do
  return reportTree (← ask (.tree n))

/-- The reports of nodes in a row. -/
def dumpNodes (ns : List NodeId) : Act Json := do
  return .array (← ns.mapM dumpNode)

/-- The name of a kind of node. -/
def kindName (content : Content) : String :=
  if content.isElement then "Element" else if content.isText then "Text" else "Other"

/-- Does a step on nodes. -/
def NodeStep.run (locals : Locals) : NodeStep Body → Act Json
  | build spec => do
    dumpNode (← spec.build)
  | dump name => do
    return reportTree (← tree name)
  | inspect name => do
    return .string (← tree name).inspect
  | text name => do
    return .string (← tree name).text
  | value name => do
    return .string (← tree name).content.value
  | tag name => do
    return jsonText? (← tree name).content.tag?
  | kind name => do
    return .string (kindName (← tree name).content)
  | findAttribute name key => do
    return jsonText? ((← tree name).content.attributes.find? key)
  | attributes name => do
    return jsonPairs (← tree name).content.attributes.entries
  | childCount name => do
    return .ofNat (← tree name).children.length
  | listenerCount name => do
    return .ofNat (← tree name).listeners
  | same a b => do
    let n ← node a
    let m ← node b
    return .array [.bool (n == m), .bool (n == m)]
  | setAttribute name key content => do
    request (.setAttribute (← node name) key content)
    return .null
  | setText name expression => do
    let n ← node name
    let shown ← expression.evalText locals
    request (.setText n shown)
    return .null
  | setValue name expression => do
    let n ← node name
    let shown ← expression.evalText locals
    request (.setValue n shown)
    return .null
  | append name children => do
    let n ← node name
    let children ← buildAll children
    request (.appendChildren n children)
    return .null
  | detach name => do
    let children ← request (.detachChildren (← node name))
    dumpNodes children
  | detachFragment name fragment => do
    let children ← request (.detachChildren (← node name))
    modifyDesk fun d => { d with fragments := d.fragments.insert fragment children }
    dumpNodes children
  | attachFragment name fragment => do
    let n ← node name
    let children ← given ((← desk).fragments.find? fragment)
    modifyDesk fun d => d.drop fragment .fragments
    request (.appendChildren n children)
    return .null
  | query name selector keep => do
    match ← ask (.find (← node name) selector) with
    | none => return .null
    | some found =>
      if let some keep := keep then
        keepNode keep found
      dumpNode found
  | listen name label event body => do
    request (.listen (← node name) event (.listener label body))
    return .null
  | dispatch name event => do
    settle (← request (.dispatch (← node name) event))
    return .null
  | enter name expression => do
    let n ← node name
    let shown ← expression.evalText locals
    settle (← request (.enter n shown))
    return .null
  | click name => do
    settle (← request (.dispatch (← node name) { name := "click" }))
    return .null

end DataBinding.Scenario
