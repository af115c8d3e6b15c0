import Stencil.Render.Scope
import Stencil.Render.Builtin

/-!
# Values of pipelines

A pipeline is computed from its first command to its last, and the result of one is the last
argument of the next. Arguments are computed from left to right; `and` and `or` stop at the first
argument that decides them and compute none behind it.
-/

set_option autoImplicit false

namespace Stencil

/-- The value of a literal. -/
def Literal.value : Literal → Value
  | .string s => .string s
  | .bool b => .bool b
  | .int n => .integer n
  | .float x => .float x

/-- The value of an operand. -/
def Operand.eval (s : Scope) : Operand → Except Error Value
  | .path p => s.resolve p
  | .literal l => .ok l.value

/-- The value of the first operand that decides a chain of conditions, or else of the last one; the
value piped in comes last, and `last` is the one before. -/
def Operand.evalDeciding (s : Scope) (stop : Bool) (piped : Option Value) (last : Value) :
    List Operand → Except Error Value
  | [] => .ok (piped.getD last)
  | o :: rest => do
    let v ← o.eval s
    if v.isTruthy == stop then pure v else Operand.evalDeciding s stop piped v rest

/-- The value of a call, given the value piped in. -/
def Command.evalCall (s : Scope) (f : Builtin) (args : List Operand) (here : Location)
    (piped : Option Value) : Except Error Value :=
  match f with
  | .and => Operand.evalDeciding s false piped .null args
  | .or => Operand.evalDeciding s true piped .null args
  | f => do
    let values ← args.mapM (Operand.eval s)
    match f.apply (values ++ piped.toList) with
    | .ok v => pure v
    | .error fault => .error (.execution fault here)

/-- The value of a command, given the value piped in. -/
def Command.eval (s : Scope) (piped : Option Value) : Command → Except Error Value
  | .operand o => o.eval s
  | .call f args here => Command.evalCall s f args here piped

/-- The value of commands, given the value piped into the first. -/
def Command.evalAll (s : Scope) (piped : Option Value) : List Command → Except Error (Option Value)
  | [] => .ok piped
  | c :: rest => do
    let v ← c.eval s piped
    Command.evalAll s (some v) rest

/-- The value of a pipeline. -/
def Pipeline.eval (s : Scope) (p : Pipeline) : Except Error Value :=
  (Command.evalAll s none p.commands).map fun v => v.getD .null

end Stencil
