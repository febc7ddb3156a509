import DataBinding.Document.Tree
import DataBinding.Text.Blank

/-!
# Selectors

A selector asks for an id, for a class or for a tag. The search visits a node before its children
and its children before its next sibling, and never answers with the node where it started.
-/

namespace DataBinding

/-- What a selector asks for. -/
inductive Selector where
  | id (name : String)
  | className (name : String)
  | tag (name : String)
deriving DecidableEq

namespace Selector

/-- The selector of a text: `#id`, `.class` or a tag. -/
def parse (text : String) : Selector :=
  match text.toList with
  | '#' :: name => .id (String.ofList name)
  | '.' :: name => .className (String.ofList name)
  | _ => .tag text

/-- A text without the difference between ASCII capitals and small letters. -/
def foldCase (s : String) : List Char := s.toList.map Char.toLower

/-- Whether a node is what a selector asks for. Only elements are. -/
def accepts : Selector → Content → Bool
  | id name, .element _ attributes _ => attributes.find? "id" == some name
  | className name, .element _ attributes _ =>
    ((attributes.find? "class").map fun classes => (Text.words classes).contains name).getD false
  | tag name, .element own _ _ => foldCase own == foldCase name
  | _, _ => false

mutual

/-- The first node below the top of a tree that a selector accepts. -/
def search (s : Selector) : Tree → Option NodeId
  | .node _ _ _ children => s.searchAll children

/-- The first node in a row of trees that a selector accepts. -/
def searchAll (s : Selector) : List Tree → Option NodeId
  | [] => none
  | tree :: rest =>
    if s.accepts tree.content then some tree.id
    else
      -- below this tree before beside it
      match s.search tree with
      | some found => some found
      | none => s.searchAll rest

end

end Selector

/-- The first node below `n` that matches a selector. -/
def Document.query {κ : Type} (d : Document κ) (n : NodeId) (selector : String) : Option NodeId :=
  (Selector.parse selector).search (d.tree n)

end DataBinding
