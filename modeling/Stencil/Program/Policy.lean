import Stencil.Program.Basic

/-!
# Ways to compile

How a template is compiled at a place: how text moves the place on, where two ways meet, which
escapers an output gets and what becomes of its pipeline. With escaping by context, a pipeline loses
the markup escapers at its end, since the context's own take their place
(`Pipeline.withoutEscapers`). Without it, the place stays the same and outputs are written as they
are.
-/

set_option autoImplicit false

namespace Stencil

open Markup (Context)

/-- The command that is left of an escaper's call without a pipe before it: its argument, or all its
arguments printed. -/
def Command.ofEscaped (args : List Operand) (here : Location) : Command :=
  match args with
  | [o] => .operand o
  | _ => .call .print args here

/-- Commands, the last one first, without the markup escapers at the end of their pipeline. -/
def Command.stripReversed (here : Location) : List Command → List Command
  | [] => []
  | .operand o :: earlier => .operand o :: earlier
  | .call f args spot :: earlier =>
    if f.isEscaper then
      match earlier with
      | [] => [Command.ofEscaped args here]
      | _ :: _ => Command.stripReversed here earlier
    else .call f args spot :: earlier

/-- A pipeline without the markup escapers at its end. -/
def Pipeline.withoutEscapers (p : Pipeline) : Pipeline :=
  { p with commands := (Command.stripReversed p.location p.commands.reverse).reverse }

/-- How templates are compiled. -/
structure Policy where
  /-- The context behind a text. -/
  advance : Context → List Char → Context
  /-- The context in which an output is written. -/
  nudge : Context → Context
  /-- The escapers for an output written in a context. -/
  escapers : Context → Except Markup.Refusal (List Escaper)
  /-- The context behind an output. -/
  afterOutput : Context → Context
  /-- The context in which two ways through a template meet, if they can. -/
  join : Context → Context → Option Context
  /-- The pipeline of an output. -/
  prepare : Pipeline → Pipeline
  /-- The place that a context is. -/
  place : Context → Place

namespace Policy

/-- Outputs are escaped for the context they are written in. -/
def contextual : Policy where
  advance := Context.advance
  nudge := Context.nudge
  escapers := Context.escapers
  afterOutput := Context.afterOutput
  join := Context.join
  prepare := Pipeline.withoutEscapers
  place := .markup

/-- Outputs are written as they are. -/
def verbatim : Policy where
  advance c _ := c
  nudge := id
  escapers _ := .ok [.verbatim]
  afterOutput := id
  join c _ := some c
  prepare := id
  place _ := .verbatim

end Policy

end Stencil
