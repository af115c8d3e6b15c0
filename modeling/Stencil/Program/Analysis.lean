import Stencil.Program.Policy

/-!
# Compiling templates

The analysis follows the text of a template with a context and gives each output the escapers that
its context asks for. The ways through a block have to end in contexts that join; the body of a loop
has to end where it starts, if need be after the start has been joined with the end once.

An embedded template is compiled for the context it is embedded in, once for each context
(`Table`). While it is being compiled it may embed itself in the same context; it is then taken to
end where it starts, which is checked when it is done. A template may be compiled for sixty-four
contexts, which bounds the analysis: `enter` counts down the entries that the table can still get.
-/

set_option autoImplicit false

namespace Stencil.Analysis

open Markup (Context)

/-- The contexts that one template may be compiled for. -/
def contextLimit : Nat := 64

/-- A template in a context, in the course of its compilation. -/
structure Entry where
  name : String
  context : Context
  /-- The context behind the template, once it is compiled. -/
  after : Option Context
  /-- The template embeds itself in this context. -/
  recursive : Bool
  body : List (Tree Instruction)

/-- The templates in contexts that have been met, in order. -/
abbrev Table := List Entry

/-- A step of the analysis. -/
abbrev Step := StateT Table (Except Error)

/-- The end of the analysis. -/
def fail {α : Type} (e : Error) : Step α := fun _ => .error e

/-- An ambiguity at a location. -/
def ambiguous {α : Type} (a : Ambiguity) (here : Location) : Step α := fail (.ambiguous a here)

/-- The join of two contexts, which must exist. -/
def join (policy : Policy) (a b : Context) (otherwise : Ambiguity) (here : Location) :
    Step Context :=
  match policy.join a b with
  | some c => pure c
  | none => ambiguous otherwise here

/-- Compiles a template with a name for a context, when it is embedded at a location: the number of
its entry, and the context behind it. -/
abbrev Enter := String → Context → Location → Step (Nat × Context)

/-- Whether a context is in a tag, outside of any value. -/
def insideTag (c : Context) : Bool :=
  match c.state with
  | .tagName | .attrName | .afterName | .beforeValue => true
  | _ => false

/-- Compiles a piece in a context: the instruction, and the context behind it. -/
def piece (policy : Policy) (enter : Enter) (c : Context) : Piece → Step (Instruction × Context)
  | .text content here =>
    let next := policy.advance c content.toList
    match next.error with
    | some f => ambiguous (.fault f) here
    | none => pure (.text content, next)
  | .output p here =>
    let c := policy.nudge c
    match policy.escapers c with
    | .error r => ambiguous (.output r c) here
    | .ok rules => pure (.output (policy.prepare p) rules here, policy.afterOutput c)
  | .embed name data here =>
    if insideTag c then ambiguous (.embedInTag name c) here
    else do
      let (target, next) ← enter name c here
      pure (.embed name target data here, next)

mutual

/-- Compiles a tree in a context: the compiled tree, and the context behind it. -/
def tree (policy : Policy) (enter : Enter) (c : Context) :
    Tree Piece → Step (Tree Instruction × Context)
  | .leaf item => do
    let (instruction, next) ← piece policy enter c item
    pure (.leaf instruction, next)
  | .block .each subject body alternative here => do
    let (once, stop) ← trees policy enter c body
    let loop ← join policy c stop (.loop c stop) here
    let compiled ←
      if loop = c then pure once
      else do
        let (again, stop) ← trees policy enter loop body
        if policy.join loop stop = some loop then pure again
        else ambiguous (.loop loop stop) here
    match alternative with
    | none => pure (.block .each subject compiled none here, loop)
    | some alternative => do
      let (other, stop) ← trees policy enter c alternative
      let next ← join policy loop stop (.branches .each loop stop) here
      pure (.block .each subject compiled (some other) here, next)
  | .block kind subject body alternative here => do
    let (compiled, stop) ← trees policy enter c body
    match alternative with
    | none => do
      let next ← join policy stop c (.branches kind stop c) here
      pure (.block kind subject compiled none here, next)
    | some alternative => do
      let (other, otherStop) ← trees policy enter c alternative
      let next ← join policy stop otherStop (.branches kind stop otherStop) here
      pure (.block kind subject compiled (some other) here, next)

/-- Compiles trees in a context: the compiled trees, and the context behind them. -/
def trees (policy : Policy) (enter : Enter) (c : Context) :
    List (Tree Piece) → Step (List (Tree Instruction) × Context)
  | [] => pure ([], c)
  | t :: rest => do
    let (compiled, next) ← tree policy enter c t
    let (others, stop) ← trees policy enter next rest
    pure (compiled :: others, stop)

end

/-- The number of the entry for a template in a context. -/
def Table.find? (table : Table) (name : String) (c : Context) : Option Nat :=
  table.findIdx? fun e => e.name = name ∧ e.context = c

/-- The number of contexts a template has been met in. -/
def Table.count (table : Table) (name : String) : Nat :=
  table.countP fun e => e.name = name

/-- An entry met again: if it is still being compiled, it is taken to end where it starts. -/
def revisit (number : Nat) (c : Context) : Step (Nat × Context) := do
  match (← get)[number]?.bind Entry.after with
  | some next => pure (number, next)
  | none =>
    modify (·.modify number fun e => { e with recursive := true })
    pure (number, c)

/-- Compiles a template in a context by a number of entries that the table can still get. -/
def enter (policy : Policy) (templates : List (String × Template)) : Nat → Enter
  | 0, name, _, here => ambiguous (.tooManyContexts name contextLimit) here
  | room + 1, name, c, here => do
    let table ← get
    match table.find? name c with
    | some number => revisit number c
    | none =>
      match Record.get? templates name with
      | none => fail (.undefined name here)
      | some template =>
        if contextLimit ≤ table.count name then
          ambiguous (.tooManyContexts name contextLimit) here
        else do
          let number := table.length
          set (table ++ [(⟨name, c, none, false, []⟩ : Entry)])
          let (body, next) ← trees policy (enter policy templates room) c template.body
          if (← get)[number]?.any Entry.recursive ∧ next ≠ c then
            ambiguous (.recursive name c next) template.location
          else do
            modify (·.modify number fun e => { e with after := some next, body })
            pure (number, next)

/-- The entries that a table can get. -/
def room (templates : List (String × Template)) : Nat :=
  contextLimit * templates.length + 1

end Stencil.Analysis

namespace Stencil

/-- The program of an entry out of named templates. -/
def Program.compile (templates : List (String × Template)) (entry : String) (config : Config) :
    Except Error Program := do
  let policy := if config.autoescape then Policy.contextual else Policy.verbatim
  let ((number, _), table) ←
    (Analysis.enter policy templates (Analysis.room templates) entry .start .outside).run []
  Program.checked ⟨entry, table.map fun e => ⟨e.name, policy.place e.context, e.body⟩, number,
    config⟩

end Stencil
