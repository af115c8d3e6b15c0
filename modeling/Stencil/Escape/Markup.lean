/-!
# Escaping for markup

Characters that mean something in a document are written as character references. A null, which no
document can hold, becomes the replacement character. An attribute's value needs more references
than text, and a value without quotes needs the most: what would end it, and a stand-in where it
would be empty.
-/

set_option autoImplicit false

namespace Stencil.Escape

/-- What is written in place of a value that cannot be written safely. -/
def refused : List Char := "ZgotmplZ".toList

/-- A character of text. -/
def htmlChar (c : Char) : List Char :=
  match c with
  | '&' => ['&', 'a', 'm', 'p', ';']
  | '<' => ['&', 'l', 't', ';']
  | '>' => ['&', 'g', 't', ';']
  | '"' => ['&', 'q', 'u', 'o', 't', ';']
  | '\'' => ['&', '#', '3', '9', ';']
  | '\x00' => ['\ufffd']
  | c => [c]

/-- A character of a quoted value. -/
def htmlAttrChar (c : Char) : List Char :=
  match c with
  | '+' => ['&', '#', '4', '3', ';']
  | c => htmlChar c

/-- A character of a value without quotes. -/
def htmlUnquotedChar (c : Char) : List Char :=
  match c with
  | '\t' => ['&', '#', '9', ';']
  | '\n' => ['&', '#', '1', '0', ';']
  | '\x0c' => ['&', '#', '1', '2', ';']
  | '\r' => ['&', '#', '1', '3', ';']
  | ' ' => ['&', '#', '3', '2', ';']
  | '=' => ['&', '#', '6', '1', ';']
  | '\x60' => ['&', '#', '9', '6', ';']
  | c => htmlAttrChar c

/-- Text of a document. -/
def html (cs : List Char) : List Char := cs.flatMap htmlChar

/-- A quoted value of an attribute. -/
def htmlAttr (cs : List Char) : List Char := cs.flatMap htmlAttrChar

/-- A value of an attribute without quotes, which cannot be empty. -/
def htmlAttrUnquoted (cs : List Char) : List Char :=
  if cs = [] then refused else cs.flatMap htmlUnquotedChar

end Stencil.Escape
