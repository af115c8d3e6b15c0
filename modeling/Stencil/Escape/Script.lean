import Stencil.Value.Printed
import Stencil.Value.Json
import Stencil.Text.Blank

/-!
# Escaping for scripts

A text inside a string or a regular expression of a script, and a value where an expression stands.
A value is written as a JSON text with the characters escaped that markup or older scripts would
take for something else; one that could run into the code around it stands between blanks. How the
JSON text is written can be chosen; the rule relies on little of it.
-/

set_option autoImplicit false

namespace Stencil.Escape

open Stencil.Text

/-- A character as a numbered escape of a script. -/
def unitEscape (c : Char) : List Char :=
  '\\' :: 'u' :: Numeral.hexadecimal 4 c.toNat

/-- A character of a string. -/
def jsChar (c : Char) : List Char :=
  match c with
  | '\t' => ['\\', 't']
  | '\n' => ['\\', 'n']
  | '\x0c' => ['\\', 'f']
  | '\r' => ['\\', 'r']
  | '/' => ['\\', '/']
  | '\\' => ['\\', '\\']
  | c =>
    if c.toNat < 0x20 || ['"', '$', '&', '\'', '+', '<', '=', '>', '\x60', '\u2028',
        '\u2029'].contains c then unitEscape c
    else [c]

/-- Text inside a string, whatever its quotes. -/
def jsString (cs : List Char) : List Char := cs.flatMap jsChar

/-- The characters with a meaning in a regular expression. -/
def isRegexpSign (c : Char) : Bool :=
  ['$', '(', ')', '*', '+', '-', '.', '?', '[', ']', '^', '\x7b', '|', '\x7d'].contains c

/-- A character of a regular expression. -/
def jsRegexpChar (c : Char) : List Char :=
  if isRegexpSign c then ['\\', c] else jsChar c

/-- Text inside a regular expression, which cannot be empty. -/
def jsRegexp (cs : List Char) : List Char :=
  if cs = [] then ['(', '?', ':', ')'] else cs.flatMap jsRegexpChar

/-- A character of a JSON text in a script in a document. -/
def jsonChar (c : Char) : List Char :=
  if ['<', '>', '&', '\'', '\u2028', '\u2029'].contains c then unitEscape c else [c]

/-- A character that can be part of a name. -/
def isNamePart (c : Char) : Bool :=
  isAlphanumeric c || c == '_' || c == '$'

/-- An expression between blanks, if its ends could run into a name. -/
def padded (cs : List Char) : List Char :=
  if cs.head?.any isNamePart || cs.getLast?.any isNamePart then ' ' :: cs ++ [' '] else cs

/-- A value as an expression, with a way to write JSON values. -/
def jsValue (v : Value) (write : Json → List Char := Json.chars) : List Char :=
  match v with
  | .string s => '"' :: jsString s.toList ++ ['"']
  | v => padded ((write v.toJson).flatMap jsonChar)

end Stencil.Escape
