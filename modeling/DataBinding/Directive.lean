import DataBinding.Dialect
import DataBinding.Error
import DataBinding.Text.Search

/-!
# Directives

The name of an attribute says whether it binds its element, and how: `v-model` and `v-text` name a
routine by the key after the prefix, `v-on:click` an event by the qualifier after the separator,
and `@click` is short for it.
-/

namespace DataBinding

/-- The ways to bind a node. -/
inductive Directive where
  /-- The value of a form control and a key follow each other. -/
  | model
  /-- The text of the node follows a key or a template. -/
  | text
  /-- An event on the node calls a method. -/
  | on (event : String)
deriving DecidableEq

namespace Directive

/-- The directive of an event, which needs a name. -/
def ofEvent (name : String) (event : List Char) : Except ViewError (Option Directive) :=
  if event.isEmpty then .error (.missingEventName name)
  else .ok (some (.on (String.ofList event)))

/-- The directive that follows the prefix. The key ends at the first separator, if there is one;
the empty separator stands before everything. -/
def ofKey (name : String) (separator rest : List Char) :
    Except ViewError (Option Directive) :=
  let parts := (Text.cut? separator rest).getD (rest, [])
  if parts.1 = "model".toList then .ok (some .model)
  else if parts.1 = "text".toList then .ok (some .text)
  else if parts.1 = "on".toList then ofEvent name parts.2
  else .error (.unknownDirective name)

/-- What follows a prefix; the empty prefix begins nothing. -/
def afterPrefix? (start text : String) : Option (List Char) :=
  if start.isEmpty then none else Text.afterStart? start.toList text.toList

/-- The directive that an attribute names, `none` for an ordinary attribute. -/
def parse (name : String) (d : Dialect) : Except ViewError (Option Directive) :=
  match afterPrefix? d.directivePrefix name with
  | some rest => ofKey name d.qualifierSeparator.toList rest
  | none =>
    match afterPrefix? d.eventPrefix name with
    | some event => ofEvent name event
    | none => .ok none

end Directive

end DataBinding
