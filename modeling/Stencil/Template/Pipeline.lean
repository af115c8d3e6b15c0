import Stencil.Source.Location
import Stencil.Numeral.Natural

/-!
# Pipelines

What an action computes: a chain of commands, each the value of an operand or a call of a function,
where the result of one command is the last argument of the next. An operand is a literal or a path
into the data. The functions that can be called are fixed (`Builtin`), with the numbers of arguments
they take (`Builtin.takes`).
-/

set_option autoImplicit false

namespace Stencil

/-- Where a path starts. -/
inductive Path.Root where
  /-- The current value, written as a dot. -/
  | dot
  /-- The value that the template was rendered with, written as a dollar sign. -/
  | dollar
deriving DecidableEq, Repr

/-- One step of a path. -/
inductive Accessor where
  | field (name : String)
  | index (i : Nat)
deriving DecidableEq, Repr

/-- An accessor without the dot before it. -/
def Accessor.text : Accessor → String
  | .field name => name
  | .index i => Numeral.text i

/-- A path into the data. -/
structure Path where
  root : Path.Root
  accessors : List Accessor
  location : Location
deriving DecidableEq, Repr

/-- How a path is written. -/
def Path.text (p : Path) : String :=
  match p.root, p.accessors with
  | .dot, [] => "."
  | .dot, steps => String.join (steps.map fun step => "." ++ step.text)
  | .dollar, steps => "$" ++ String.join (steps.map fun step => "." ++ step.text)

/-- A value written out in a template. -/
inductive Literal where
  | string (s : String)
  | bool (b : Bool)
  | int (n : Int64)
  | float (x : Float)

/-- An argument of a command. -/
inductive Operand where
  | path (p : Path)
  | literal (l : Literal)

/-- The functions that a pipeline can call. -/
inductive Builtin where
  | not
  | and
  | or
  | eq
  | ne
  | len
  | html
  | js
  | urlquery
  | print
deriving DecidableEq, Repr

namespace Builtin

/-- All functions. -/
def all : List Builtin :=
  [.not, .and, .or, .eq, .ne, .len, .html, .js, .urlquery, .print]

/-- The name a function is called by. -/
def name : Builtin → String
  | .not => "not"
  | .and => "and"
  | .or => "or"
  | .eq => "eq"
  | .ne => "ne"
  | .len => "len"
  | .html => "html"
  | .js => "js"
  | .urlquery => "urlquery"
  | .print => "print"

/-- The function with a name. -/
def ofName? (s : String) : Option Builtin :=
  all.find? fun f => f.name == s

/-- The least number of arguments of a function. -/
def least : Builtin → Nat
  | .print => 0
  | .eq | .ne => 2
  | .not | .and | .or | .len | .html | .js | .urlquery => 1

/-- The greatest number of arguments of a function, if there is one. -/
def greatest : Builtin → Option Nat
  | .not | .len | .html | .js | .urlquery => some 1
  | .ne => some 2
  | .and | .or | .eq | .print => none

/-- Whether a function takes a number of arguments. -/
def takes (f : Builtin) (count : Nat) : Bool :=
  f.least ≤ count && f.greatest.all (count ≤ ·)

/-- The functions that escape a text for markup, which escaping by context makes superfluous at the
end of a pipeline. -/
def isEscaper : Builtin → Bool
  | .html | .urlquery => true
  | _ => false

end Builtin

/-- One stage of a pipeline. -/
inductive Command where
  | operand (o : Operand)
  | call (f : Builtin) (args : List Operand) (location : Location)

/-- A chain of commands. -/
structure Pipeline where
  commands : List Command
  location : Location

end Stencil
