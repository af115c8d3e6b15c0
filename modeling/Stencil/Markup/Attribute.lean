import Stencil.Markup.Context
import Stencil.Text.Cut
import Stencil.Text.Blank

/-!
# Kinds of attributes

The name of an attribute tells what its value is: a script for event handlers, a style sheet for
`style`, an address for the attributes that hold one or whose name suggests it, and plain text for
the rest. A `data-` in front of a name and a name space before a colon do not count.
-/

set_option autoImplicit false

namespace Stencil.Markup

open Stencil.Text

/-- The attributes whose value is an address. -/
def addressNames : List String :=
  ["action", "archive", "background", "cite", "classid", "codebase", "data", "formaction", "href",
   "icon", "longdesc", "manifest", "poster", "profile", "src", "srcset", "usemap", "xmlns"]

/-- A name without a leading `data-`. -/
def withoutData : List Char → List Char
  | 'd' :: 'a' :: 't' :: 'a' :: '-' :: rest => rest
  | name => name

/-- Whether a name holds one of the words that suggest an address. -/
def suggestsAddress (name : List Char) : Bool :=
  ["src", "uri", "url"].any fun word => (cut word.toList name).isSome

/-- The kind of an attribute by its name without a name space. -/
def AttrKind.ofLocalName (name : List Char) : AttrKind :=
  if ['o', 'n'].isPrefixOf name then .script
  else if String.ofList name = "style" then .style
  else if addressNames.contains (String.ofList name) || suggestsAddress name then .url
  else .plain

/-- The kind of an attribute by its name, which is in lower case. -/
def AttrKind.ofName (name : String) : AttrKind :=
  let name := withoutData name.toList
  match cut [':'] name with
  | some (space, rest) =>
    if String.ofList space = "xmlns" then .url else AttrKind.ofLocalName rest
  | .none => AttrKind.ofLocalName name

end Stencil.Markup
