import DataBinding.Document.Basic
import DataBinding.Text.Quoted

/-!
# Trees

A node with everything below it, as a tree. The texts of a page and its inspection are read off
this view. A path in a document without cycles is no longer than the document, so that depth is
enough to reach the bottom.
-/

namespace DataBinding

/-- A node with the trees of its children. -/
inductive Tree where
  | node (id : NodeId) (content : Content) (listeners : Nat) (children : List Tree)

namespace Tree

/-- The node at the top. -/
def id : Tree → NodeId
  | node id _ _ _ => id

/-- What the node at the top holds itself. -/
def content : Tree → Content
  | node _ content _ _ => content

/-- How many listeners the node at the top has. -/
def listeners : Tree → Nat
  | node _ _ listeners _ => listeners

/-- The trees below the top. -/
def children : Tree → List Tree
  | node _ _ _ children => children

mutual

/-- The text content: a text or a comment has its own text, an element that of its children. -/
def text : Tree → String
  | node _ (.text s) _ _ => s
  | node _ (.comment s) _ _ => s
  | node _ (.element ..) _ children => textOfChildren children

/-- The texts of children in a row. Comments are left out. -/
def textOfChildren : List Tree → String
  | [] => ""
  | child :: rest => (if child.content.isComment then "" else child.text) ++ textOfChildren rest

end

/-- Items between commas. -/
private def commaList (items : List String) : String := String.intercalate ", " items

/-- Attributes for developers. -/
def inspectAttributes (attributes : OrderedMap String) : String :=
  let entries := attributes.entries.map fun entry =>
    Text.quoted entry.1 ++ ": " ++ Text.quoted entry.2
  "\x7b" ++ commaList entries ++ "\x7d"

mutual

/-- A tree for developers. Only elements show their children. -/
def inspect : Tree → String
  | node _ (.text s) _ _ => "Text(" ++ Text.quoted s ++ ")"
  | node _ (.comment s) _ _ => "Comment(" ++ Text.quoted s ++ ")"
  | node _ (.element tag attributes value) _ children =>
    "Element \x7b tag: " ++ Text.quoted tag ++ ", attributes: " ++ inspectAttributes attributes ++
      ", value: " ++ Text.quoted value ++ ", children: [" ++
      commaList (inspectChildren children) ++ "] \x7d"

/-- Children for developers. -/
def inspectChildren : List Tree → List String
  | [] => []
  | child :: rest => child.inspect :: inspectChildren rest

end

end Tree

namespace Document

variable {κ : Type}

/-- The tree of a node, cut off below `depth` levels. -/
def treeWithin (d : Document κ) : Nat → NodeId → Tree
  | 0, n => .node n (d.content n) (d.node n).listeners.length []
  | depth + 1, n =>
    .node n (d.content n) (d.node n).listeners.length ((d.children n).map (treeWithin d depth))

/-- The tree of a node. -/
def tree (d : Document κ) (n : NodeId) : Tree := d.treeWithin d.size n

/-- The text content of a node. -/
def textContent (d : Document κ) (n : NodeId) : String := (d.tree n).text

end Document

end DataBinding
