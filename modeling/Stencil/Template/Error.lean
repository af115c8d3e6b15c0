import Stencil.Template.Token
import Stencil.Template.Pipeline

/-!
# Errors in a source

Why a source is no template. A fault is **lexical** when the source cannot be cut into tokens and
**structural** when the tokens do not nest or an action is malformed. Each fault is a cause with the
data it needs; the wording is in `message` alone.
-/

set_option autoImplicit false

namespace Stencil

/-- Why a source cannot be cut into tokens. -/
inductive LexicalFault where
  | unclosedAction
  | unclosedComment
  /-- Something stands between the end of a comment and the end of its action. -/
  | commentRunsOn
  | unterminatedString
  | invalidEscape (c : Char)
  /-- A number runs into a name. -/
  | badNumber (spelling : String) (next : Char)
  | unexpectedCharacter (c : Char)
deriving DecidableEq, Repr

/-- The wording of a lexical fault. -/
def LexicalFault.message : LexicalFault → String
  | .unclosedAction => "unclosed action"
  | .unclosedComment => "unclosed comment"
  | .commentRunsOn => "comment ends before closing delimiter"
  | .unterminatedString => "unterminated string literal"
  | .invalidEscape c => "invalid escape sequence '\\" ++ c.toString ++ "'"
  | .badNumber spelling next => "bad number syntax: '" ++ spelling ++ next.toString ++ "'"
  | .unexpectedCharacter c => "unexpected character '" ++ c.toString ++ "' in action"

/-- What was wanted where another token stands. -/
inductive Expectation where
  /-- Text or an action. -/
  | item
  | operand
  | close
  /-- The end of a command that is a bare value. -/
  | endOfValue
  | spaceBetweenArguments
deriving DecidableEq, Repr

/-- The wording of an expectation. -/
def Expectation.note : Expectation → String
  | .item => "Unexpected token"
  | .operand => "Expected operand"
  | .close => "Expected '\x7d\x7d'"
  | .endOfValue => "Unexpected operand after value"
  | .spaceBetweenArguments => "Missing space between arguments"

/-- Why tokens are no template. -/
inductive StructuralFault where
  | unexpected (wanted : Expectation) (found : Token.Kind)
  | strayEnd
  | strayElse
  /-- An `else if` in a block that is no `if`. -/
  | elseIfIn (block : Keyword)
  /-- A second `else`, or one in a definition. -/
  | secondElse (block : Keyword)
  | unclosed (block : Keyword)
  | nestedDefine
  | redefined (name : String)
  | missingName (block : Keyword)
  /-- An action without a value; none stands for an action without a keyword. -/
  | missingValue (action : Option Keyword)
  | missingCommand
  /-- A stage after the first that calls no function. -/
  | pipedValue
  | keywordInPipeline (k : Keyword)
  | undefinedFunction (name : String)
  | wrongCount (f : Builtin) (supplied : Nat)
  | malformedPath
  | badNumber (spelling : String)
deriving DecidableEq, Repr

/-- The numbers of arguments that a function wants, in words. -/
def Builtin.wants (f : Builtin) : String :=
  match f.greatest with
  | none => "at least " ++ Numeral.text f.least
  | some most =>
    if most = f.least then Numeral.text f.least
    else Numeral.text f.least ++ " to " ++ Numeral.text most

/-- The wording of a structural fault. -/
def StructuralFault.message : StructuralFault → String
  | .unexpected wanted found => wanted.note ++ ": " ++ found.describe
  | .strayEnd => "unexpected \x7b\x7bend\x7d\x7d"
  | .strayElse => "unexpected \x7b\x7belse\x7d\x7d"
  | .elseIfIn block => "'else if' is not allowed in " ++ block.spelling
  | .secondElse block => "unexpected 'else' after 'else' in " ++ block.spelling
  | .unclosed block => "unexpected EOF: unclosed " ++ block.spelling
  | .nestedDefine => "\x7b\x7bdefine\x7d\x7d is only allowed at the top level"
  | .redefined name => "template \"" ++ name ++ "\" redefined"
  | .missingName block => "expected quoted template name in " ++ block.spelling
  | .missingValue none => "missing value for command"
  | .missingValue (some k) => "missing value for " ++ k.spelling
  | .missingCommand => "missing command after '|'"
  | .pipedValue => "non-function command in pipeline stage"
  | .keywordInPipeline k => "unexpected keyword '" ++ k.spelling ++ "' in pipeline"
  | .undefinedFunction name => "function \"" ++ name ++ "\" not defined"
  | .wrongCount f supplied =>
    "wrong number of args for " ++ f.name ++ ": want " ++ f.wants ++ ", got " ++
      Numeral.text supplied
  | .malformedPath => "malformed field path"
  | .badNumber spelling => "bad number: " ++ spelling

/-- Why a source is no template, and where. -/
inductive SourceError where
  | lexical (fault : LexicalFault) (location : Location)
  | structural (fault : StructuralFault) (location : Location)
deriving DecidableEq, Repr

namespace SourceError

/-- Where a source goes wrong. -/
def location : SourceError → Location
  | .lexical _ here | .structural _ here => here

/-- What is wrong, without its place. -/
def message : SourceError → String
  | .lexical fault _ => fault.message
  | .structural fault _ => fault.message

end SourceError

end Stencil
