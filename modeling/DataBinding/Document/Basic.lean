import DataBinding.OrderedMap
import DataBinding.Table
import DataBinding.Value

/-!
# Documents

The nodes that data is bound to. A node is an element, a text or a comment; all three can have
children and listeners, but only elements have attributes and a form value. Nodes are shared by
their identity, and nothing stops two nodes from having a child in common.
-/

namespace DataBinding

/-- The identity of a node. -/
structure NodeId where
  index : Nat
deriving DecidableEq, Repr

/-- What kind of node a node is, and what it holds itself. -/
inductive Content where
  | element (tag : String) (attributes : OrderedMap String) (value : String)
  | text (text : String)
  | comment (text : String)
deriving DecidableEq

/-- An event. A form event carries a value. -/
structure Event where
  name : String
  value : Option String := none
deriving DecidableEq

/-- What is called when an event reaches a node. -/
inductive Listener (κ : Type) where
  /-- Writes the value of the event back into the data. -/
  | writeBack (data : ObjectId) (key : String)
  /-- Calls the method of this name, which may not exist. -/
  | callMethod (data : ObjectId) (name : String) (method : Option κ)
  /-- Runs code of the user's. -/
  | custom (code : κ)

/-- A node. Listeners stand under the names of their events, in order of registration. -/
structure Node (κ : Type) where
  content : Content
  children : List NodeId := []
  listeners : List (String × Listener κ) := []

instance {κ : Type} : Inhabited (Node κ) := ⟨{ content := .text "" }⟩

namespace Content

/-- Whether this is an element. -/
def isElement : Content → Bool
  | element .. => true
  | _ => false

/-- Whether this is a text node. -/
def isText : Content → Bool
  | text _ => true
  | _ => false

/-- Whether this is a comment. -/
def isComment : Content → Bool
  | comment _ => true
  | _ => false

/-- The tag of an element. -/
def tag? : Content → Option String
  | element tag _ _ => some tag
  | _ => none

/-- The attributes; only an element has any. -/
def attributes : Content → OrderedMap String
  | element _ attributes _ => attributes
  | _ => ∅

/-- The form value; only an element has one. -/
def value : Content → String
  | element _ _ value => value
  | _ => ""

/-- Sets an attribute of an element. -/
def setAttribute (name value : String) : Content → Content
  | element tag attributes v => element tag (attributes.insert name value) v
  | content => content

/-- Sets the form value of an element. -/
def setValue (value : String) : Content → Content
  | element tag attributes _ => element tag attributes value
  | content => content

/-- A new element. -/
def ofTag (tag : String) : Content := .element tag ∅ ""

end Content

/-- All nodes. -/
abbrev Document (κ : Type) := Table (Node κ)

namespace Document

variable {κ : Type}

/-- The node with an identity. -/
def node (d : Document κ) (n : NodeId) : Node κ := (d.find? n.index).getD default

/-- What a node holds itself. -/
def content (d : Document κ) (n : NodeId) : Content := (d.node n).content

/-- The children of a node, in order. -/
def children (d : Document κ) (n : NodeId) : List NodeId := (d.node n).children

/-- The listeners of a node for an event, in order of registration. -/
def listenersFor (d : Document κ) (n : NodeId) (event : String) : List (Listener κ) :=
  ((d.node n).listeners.filter (·.1 = event)).map (·.2)

/-- Adds a node without children and listeners. -/
def create (d : Document κ) (content : Content) : NodeId × Document κ :=
  (⟨d.size⟩, d.push { content })

/-- Changes a node. -/
def modifyNode (d : Document κ) (n : NodeId) (f : Node κ → Node κ) : Document κ :=
  d.modify n.index f

/-- Sets an attribute. -/
def setAttribute (d : Document κ) (n : NodeId) (name value : String) : Document κ :=
  d.modifyNode n fun node => { node with content := node.content.setAttribute name value }

/-- Sets the form value. -/
def setValue (d : Document κ) (n : NodeId) (value : String) : Document κ :=
  d.modifyNode n fun node => { node with content := node.content.setValue value }

/-- Appends children. -/
def appendChildren (d : Document κ) (n : NodeId) (children : List NodeId) : Document κ :=
  d.modifyNode n fun node => { node with children := node.children ++ children }

/-- Takes all children off a node; they stay what they are. -/
def detachChildren (d : Document κ) (n : NodeId) : Document κ :=
  d.modifyNode n fun node => { node with children := [] }

/-- Registers a listener after those there are. -/
def addListener (d : Document κ) (n : NodeId) (event : String) (listener : Listener κ) :
    Document κ :=
  d.modifyNode n fun node => { node with listeners := node.listeners ++ [(event, listener)] }

/-- Sets the text. The children of an element give way to one text node, or to none if the text
is empty; the children of other nodes stay. -/
def setText (d : Document κ) (n : NodeId) (text : String) : Document κ :=
  match d.content n with
  | .text _ => d.modifyNode n fun node => { node with content := .text text }
  | .comment _ => d.modifyNode n fun node => { node with content := .comment text }
  | .element .. =>
    let d := d.detachChildren n
    -- an empty text node would show in the tree
    if text.isEmpty then d
    else
      let (child, d) := d.create (.text text)
      d.appendChildren n [child]

end Document

end DataBinding
