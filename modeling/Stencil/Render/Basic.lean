import Stencil.Program.Basic
import Stencil.Render.Eval
import Stencil.Render.Run

/-!
# Rendering

The run of a program on a value. Conditions, loops and `with` blocks choose what is rendered; an
embedded template runs with data of its own. `embed` counts down how many templates may still become
active inside one another, which bounds programs that embed themselves without an end.
-/

set_option autoImplicit false

namespace Stencil

/-- What a loop visits: items in order, fields in the order of their names, nothing for null. -/
def Value.items? : Value → Option (List Value)
  | .array items => some items
  | .object fields => some (fields.toList.map Prod.snd)
  | .null => some []
  | _ => none

namespace Render

/-- Renders an embedded template from a scope: the number of its variant, its name, the pipeline of
its data and the location of the action. -/
abbrev Embed := Scope → Nat → String → Option Pipeline → Location → Run Unit

/-- Renders an instruction. -/
def instruction (embed : Embed) (s : Scope) : Instruction → Run Unit
  | .text content => .emit (.text content)
  | .output p rules here => do
    let v ← Run.ofExcept (p.eval s)
    Run.emit (.output here rules (String.ofList (Escaper.apply rules v)))
  | .embed name target data here => embed s target name data here

/-- What a loop visits in the value of a pipeline. -/
def items (s : Scope) (p : Pipeline) (here : Location) : Except Error (List Value) := do
  let v ← p.eval s
  match v.items? with
  | some items => pure items
  | none => .error (.execution (.notIterable v.kind) here)

/-- Renders something for each value of a list. -/
def each (render : Value → Run Unit) : List Value → Run Unit
  | [] => pure ()
  | v :: rest => do
    render v
    each render rest

mutual

/-- Renders a tree. -/
def tree (embed : Embed) (s : Scope) : Tree Instruction → Run Unit
  | .leaf i => instruction embed s i
  | .block .cond subject body alternative _ => do
    let v ← Run.ofExcept (subject.eval s)
    if v.isTruthy then trees embed s body
    else match alternative with
      | none => pure ()
      | some alternative => trees embed s alternative
  | .block .within subject body alternative _ => do
    let v ← Run.ofExcept (subject.eval s)
    if v.isTruthy then trees embed (s.push v) body
    else match alternative with
      | none => pure ()
      | some alternative => trees embed s alternative
  | .block .each subject body alternative here => do
    let visited ← Run.ofExcept (items s subject here)
    match visited with
    | [] =>
      match alternative with
      | none => pure ()
      | some alternative => trees embed s alternative
    | v :: rest => each (fun v => trees embed (s.push v) body) (v :: rest)

/-- Renders trees in order. -/
def trees (embed : Embed) (s : Scope) : List (Tree Instruction) → Run Unit
  | [] => pure ()
  | t :: rest => do
    tree embed s t
    trees embed s rest

end

/-- The data of an embedded template; none is null. -/
def data (s : Scope) : Option Pipeline → Except Error Value
  | none => .ok .null
  | some p => p.eval s

/-- Renders embedded templates, of which some more may become active inside one another. -/
def embed (p : Program) : Nat → Embed
  | more, s, target, name, data, here =>
    match p.variants[target]? with
    | none => Run.ofExcept (.error (.undefined name here))
    | some v =>
      match more with
      | 0 => Run.ofExcept (.error (.execution (.tooDeep p.config.maxDepth v.name) here))
      | more + 1 => do
        Run.emit (.enter v.name)
        let root ← Run.ofExcept (Render.data s data)
        trees (embed p more) (.start root p.config.missingKey) v.body
        Run.emit .leave

end Render

/-- The run of a program on a value. -/
def Program.run (p : Program) (root : Value) : Run Unit :=
  match p.variants[p.entry]? with
  | none => Run.ofExcept (.error (.undefined p.name .outside))
  | some v =>
    Render.trees (Render.embed p p.config.maxDepth) (.start root p.config.missingKey) v.body

/-- The output of a program for a value. -/
def Program.render (p : Program) (root : Value) : Except Error String :=
  (p.run root).outcome.map fun _ => (p.run root).written

end Stencil
