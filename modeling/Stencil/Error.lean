import Stencil.Template.Error
import Stencil.Template.Tree
import Stencil.Value.Step
import Stencil.Markup.Escapers

/-!
# Errors of templates

Everything that can go wrong from a source to its output: the source is no template, an output
stands where no escaper is right, a template is missing, the data does not fit, or the sink refuses.
Each error is a cause with its data and, but for the last two kinds, a location; the wording is in
the `message` functions alone.
-/

set_option autoImplicit false

namespace Stencil

open Markup (Context)

/-- Why no escaper is right for a place. -/
inductive Ambiguity where
  /-- A text has a fault. -/
  | fault (f : Markup.Fault)
  /-- An output stands where none is admitted. -/
  | output (r : Markup.Refusal) (c : Context)
  /-- A template is embedded in the middle of a tag. -/
  | embedInTag (name : String) (c : Context)
  /-- The ways through a block end in contexts that do not join. -/
  | branches (kind : BlockKind) (first second : Context)
  /-- The body of a loop does not end where it starts. -/
  | loop (before after : Context)
  /-- A template is embedded in more contexts than are followed. -/
  | tooManyContexts (name : String) (limit : Nat)
  /-- A template that embeds itself does not end where it starts. -/
  | recursive (name : String) (start stop : Context)
  /-- An output was left without escapers. -/
  | unescaped (name : String)
deriving DecidableEq, Repr

/-- The wording of an ambiguity. -/
def Ambiguity.message : Ambiguity → String
  | .fault f => f.message
  | .output r c => r.message ++ " " ++ c.describe
  | .embedInTag name c =>
    "\x7b\x7btemplate \"" ++ name ++ "\"\x7d\x7d inside a tag, in " ++ c.describe
  | .branches kind first second =>
    "\x7b\x7b" ++ kind.keyword.spelling ++ "\x7d\x7d branches end in different contexts: " ++
      first.describe ++ " and " ++ second.describe
  | .loop before after =>
    "\x7b\x7brange\x7d\x7d body changes the context from " ++ before.describe ++ " to " ++
      after.describe
  | .tooManyContexts name limit =>
    "template '" ++ name ++ "' needs more than " ++ Numeral.text limit ++ " contexts"
  | .recursive name start stop =>
    "recursive template '" ++ name ++ "' starts in context " ++ start.describe ++
      " but ends in " ++ stop.describe
  | .unescaped name => "no escaper chosen for output in '" ++ name ++ "'"

/-- Why the data does not fit. -/
inductive ExecutionFault where
  | missingKey (step : Accessor) (path : Path)
  | outOfRange (step : Accessor) (length : Nat) (path : Path)
  | nil (step : Accessor) (path : Path)
  | notIndexable (step : Accessor) (kind : Value.Kind) (path : Path)
  | notIterable (kind : Value.Kind)
  | incomparable (f : Builtin) (first second : Value.Kind)
  | noLength (kind : Value.Kind)
  | wrongCount (f : Builtin) (supplied : Nat)
  /-- Templates embed one another too deeply. -/
  | tooDeep (limit : Nat) (name : String)
deriving DecidableEq, Repr

namespace ExecutionFault

/-- The fault of a step that leads nowhere. -/
def ofMiss (m : Miss) (step : Accessor) (path : Path) : ExecutionFault :=
  match m with
  | .missingKey => .missingKey step path
  | .outOfRange length => .outOfRange step length path
  | .nil => .nil step path
  | .notIndexable kind => .notIndexable step kind path

/-- The kinds of faults. -/
inductive Kind where
  | fieldNotFound
  | indexOutOfRange
  | typeMismatch
  | nilDereference
  | includeDepthExceeded
deriving DecidableEq, Repr

/-- The kind of a fault. -/
def kind : ExecutionFault → Kind
  | .missingKey .. => .fieldNotFound
  | .outOfRange .. => .indexOutOfRange
  | .nil .. => .nilDereference
  | .tooDeep .. => .includeDepthExceeded
  | .notIndexable .. | .notIterable _ | .incomparable .. | .noLength _ | .wrongCount .. =>
    .typeMismatch

/-- The wording of a kind of fault. -/
def Kind.phrase : Kind → String
  | .fieldNotFound => "Field not found"
  | .indexOutOfRange => "Index out of range"
  | .typeMismatch => "Type mismatch"
  | .nilDereference => "Nil dereference"
  | .includeDepthExceeded => "Include depth exceeded"

/-- The wording of a fault. -/
def message : ExecutionFault → String
  | .missingKey step path => "map has no entry for key \"" ++ step.text ++ "\" in " ++ path.text
  | .outOfRange step length path =>
    "index " ++ step.text ++ " out of range (length " ++ Numeral.text length ++ ") in " ++ path.text
  | .nil step path => "nil value while evaluating \"" ++ step.text ++ "\" in " ++ path.text
  | .notIndexable step kind path =>
    "can't evaluate \"" ++ step.text ++ "\" on a " ++ kind.name ++ " in " ++ path.text
  | .notIterable kind => "range can't iterate over " ++ kind.name
  | .incomparable f first second =>
    f.name ++ ": incompatible types for comparison (" ++ first.name ++ " and " ++ second.name ++ ")"
  | .noLength kind => "len of " ++ kind.name
  | .wrongCount f supplied =>
    "wrong number of arguments for " ++ f.name ++ ": " ++ Numeral.text supplied
  | .tooDeep limit name =>
    "exceeded maximum template depth (" ++ Numeral.text limit ++ ") including '" ++ name ++ "'"

end ExecutionFault

/-- Why a sink does not take what is written. -/
inductive SinkFault where
  | full
  | flush
deriving DecidableEq, Repr

/-- The wording of a sink's fault. -/
def SinkFault.message : SinkFault → String
  | .full => "sink full"
  | .flush => "flush failed"

/-- Why a template does not give its output. -/
inductive Error where
  | source (e : SourceError)
  | ambiguous (a : Ambiguity) (location : Location)
  | undefined (name : String) (location : Location)
  | execution (f : ExecutionFault) (location : Location)
  /-- Data cannot be read as a value. -/
  | data
  | sink (f : SinkFault)
deriving DecidableEq, Repr

namespace Error

/-- Where the error is, if it is in a source. -/
def location? : Error → Option Location
  | .source e => some e.location
  | .ambiguous _ here | .undefined _ here | .execution _ here => some here
  | .data | .sink _ => none

/-- The wording of an error. -/
def message : Error → String
  | .source (.lexical fault here) => "Syntax error at " ++ here.phrase ++ ": " ++ fault.message
  | .source (.structural fault here) => "Parse error at " ++ here.phrase ++ ": " ++ fault.message
  | .ambiguous a here => "Ambiguous context at " ++ here.phrase ++ ": " ++ a.message
  | .undefined name here => "Undefined template '" ++ name ++ "' at " ++ here.phrase
  | .execution f here => f.kind.phrase ++ " at " ++ here.phrase ++ ": " ++ f.message
  | .data => "Data error: key must be a string"
  | .sink f => "IO error: " ++ f.message

end Error

end Stencil
