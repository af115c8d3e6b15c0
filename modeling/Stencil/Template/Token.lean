import Stencil.Source.Location
import Stencil.Text.Quoted

/-!
# Tokens

The parts that a template source is cut into. Text between actions is one token; inside an action,
delimiters, words, literals and the blanks between them are tokens of their own. A keyword is an
identifier whose spelling has a meaning (`Keyword.ofSpelling?`).
-/

set_option autoImplicit false

namespace Stencil

/-- The words that structure a template. -/
inductive Keyword where
  | ifWord
  | elseWord
  | rangeWord
  | withWord
  | endWord
  | templateWord
  | defineWord
  | blockWord
deriving DecidableEq, Repr

namespace Keyword

/-- All keywords. -/
def all : List Keyword :=
  [.ifWord, .elseWord, .rangeWord, .withWord, .endWord, .templateWord, .defineWord, .blockWord]

/-- How a keyword is written. -/
def spelling : Keyword → String
  | .ifWord => "if"
  | .elseWord => "else"
  | .rangeWord => "range"
  | .withWord => "with"
  | .endWord => "end"
  | .templateWord => "template"
  | .defineWord => "define"
  | .blockWord => "block"

/-- The keyword with a spelling. -/
def ofSpelling? (s : String) : Option Keyword :=
  all.find? fun k => k.spelling == s

end Keyword

/-- What a token is, with the text it stands for where that varies. -/
inductive Token.Kind where
  /-- Text outside of actions. -/
  | text (content : String)
  | actionOpen
  | actionClose
  | identifier (name : String)
  | dot
  | dollar
  | pipe
  /-- A string with its escapes decoded. -/
  | string (content : String)
  | bool (b : Bool)
  /-- A number as written. -/
  | number (spelling : String)
  /-- Blanks inside an action. -/
  | blank (content : String)
  | eof
deriving DecidableEq, Repr

/-- A part of a source and the location where it begins. -/
structure Token where
  kind : Token.Kind
  location : Location
deriving DecidableEq, Repr

namespace Token

/-- The name of a kind of token. -/
def Kind.label : Kind → String
  | .text _ => "Text"
  | .actionOpen => "ActionOpen"
  | .actionClose => "ActionClose"
  | .identifier _ => "Identifier"
  | .dot => "Dot"
  | .dollar => "Dollar"
  | .pipe => "Pipe"
  | .string _ => "StringLiteral"
  | .bool _ => "BoolLiteral"
  | .number _ => "NumberLiteral"
  | .blank _ => "Whitespace"
  | .eof => "Eof"

/-- What a kind of token holds, as messages show it. -/
def Kind.payload : Kind → Option String
  | .text s | .identifier s | .string s | .number s | .blank s => some (Text.quoted s)
  | .bool b => some (if b then "true" else "false")
  | .actionOpen | .actionClose | .dot | .dollar | .pipe | .eof => none

/-- A token as messages show it. -/
def Kind.describe (k : Kind) : String :=
  match k.payload with
  | none => k.label
  | some shown => k.label ++ "(" ++ shown ++ ")"

/-- The keyword that a token spells. -/
def keyword? (t : Token) : Option Keyword :=
  match t.kind with
  | .identifier name => Keyword.ofSpelling? name
  | _ => none

/-- Whether a token is blanks inside an action. -/
def isBlank (t : Token) : Bool :=
  match t.kind with
  | .blank _ => true
  | _ => false

end Token

end Stencil
