import Stencil.Escape.Markup
import Stencil.Numeral.Natural
import Stencil.Text.Cut

/-!
# Escaping for style sheets

A value of a property is written as it is or, if it could leave its place or run code, replaced.
Text inside a string has the characters with a meaning written as numbered escapes; a blank ends an
escape where the next character could be read as a part of it.
-/

set_option autoImplicit false

namespace Stencil.Escape

open Stencil.Text

/-- The characters that a value of a property cannot hold. -/
def isStyleSign (c : Char) : Bool :=
  ['\x00', '"', '\'', '(', ')', '/', ';', '@', '[', '\\', ']', '\x60', '\x7b', '\x7d', '<', '>',
   '\n', '\r', '\x0c'].contains c

/-- The words that a value of a property cannot hold, in any case and with hyphens between their
letters. -/
def unsafeWords : List String := ["expression", "mozbinding"]

/-- Whether a text holds another. -/
def holds (pattern text : List Char) : Bool := (cut pattern text).isSome

/-- Whether a value of a property has to be replaced. -/
def isUnsafeStyle (cs : List Char) : Bool :=
  let folded := (cs.filter (· != '-')).map lower
  cs.any isStyleSign || holds ['-', '-'] cs ||
    unsafeWords.any fun word => holds word.toList folded

/-- A value of a property. -/
def cssValue (cs : List Char) : List Char :=
  if isUnsafeStyle cs then refused else cs

/-- The characters with a meaning in a string of a style sheet or in the markup around it. -/
def isStyleStringSign (c : Char) : Bool :=
  ['\x00', '\t', '\n', '\x0c', '\r', '"', '&', '\'', '(', ')', '+', '/', ':', ';', '<', '>', '\\',
   '\x7b', '\x7d'].contains c

/-- A character that a numbered escape before it would take for its own. -/
def joinsEscape (c : Char) : Bool :=
  Numeral.isHexDigit c || c == ' '

/-- Text inside a string of a style sheet. -/
def cssString : List Char → List Char
  | [] => []
  | c :: rest =>
    if isStyleStringSign c then
      let gap := if rest.head?.any joinsEscape then [' '] else []
      '\\' :: Numeral.natural 16 c.toNat ++ gap ++ cssString rest
    else c :: cssString rest

end Stencil.Escape
