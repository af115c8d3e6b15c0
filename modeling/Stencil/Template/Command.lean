import Stencil.Template.Error
import Stencil.Template.Phrase
import Stencil.Numeral.Binary64

/-!
# Reading pipelines

Operands, commands and pipelines from the tokens of an action. An operand is one word; a command is
a value or a function with operands behind it, separated by blanks; a pipeline is commands separated
by pipes, where only the first may be a bare value.

The first fault in reading order is the one reported.
-/

set_option autoImplicit false

namespace Stencil

/-- A structural fault. -/
def structural {α : Type} (fault : StructuralFault) (here : Location) : Except SourceError α :=
  .error (.structural fault here)

/-- The fault of a token where something else was wanted. -/
def unexpected {α : Type} (wanted : Expectation) (found : Token) : Except SourceError α :=
  structural (.unexpected wanted found.kind) found.location

/-- The accessor that a token after a dot spells; a token of another kind spells none. An index is a
word of 64 bits. -/
def Accessor.ofToken? (t : Token) : Except SourceError (Option Accessor) :=
  match t.kind with
  | .identifier name => .ok (some (.field name))
  | .bool b => .ok (some (.field (if b then "true" else "false")))
  | .number spelling =>
    match Numeral.word? spelling.toList with
    | some i => .ok (some (.index i))
    | none => structural .malformedPath t.location
  | _ => .ok none

/-- Accessors, each after a dot, and the tokens behind them. -/
def Accessor.ofTokens : List Token → Except SourceError (List Accessor × List Token)
  | [] => .ok ([], [])
  | [t] => if t.kind = .dot then structural .malformedPath t.location else .ok ([], [t])
  | t :: u :: rest =>
    if t.kind = .dot then do
      match ← Accessor.ofToken? u with
      | none => structural .malformedPath t.location
      | some step =>
        let (steps, rest) ← Accessor.ofTokens rest
        pure (step :: steps, rest)
    else .ok ([], t :: u :: rest)

/-- A path after its leading dot at a location, and the tokens behind it. -/
def Path.ofDot (here : Location) : List Token → Except SourceError (Path × List Token)
  | [] => .ok (⟨.dot, [], here⟩, [])
  | t :: rest => do
    match ← Accessor.ofToken? t with
    | none =>
      if t.kind = .dot then structural .malformedPath here else pure (⟨.dot, [], here⟩, t :: rest)
    | some step =>
      let (steps, rest) ← Accessor.ofTokens rest
      pure (⟨.dot, step :: steps, here⟩, rest)

/-- A path after its leading dollar sign at a location, and the tokens behind it. -/
def Path.ofDollar (here : Location) (ts : List Token) : Except SourceError (Path × List Token) := do
  let (steps, rest) ← Accessor.ofTokens ts
  pure (⟨.dollar, steps, here⟩, rest)

/-- The digits of a decimal fraction before and after its point, where there is a digit at all, and
its exponent. -/
def Literal.decimal? (cs : List Char) : Option (List Char × List Char × Int) :=
  let whole := cs.takeWhile Text.isDigit
  match cs.drop whole.length with
  | '.' :: rest =>
    let fraction := rest.takeWhile Text.isDigit
    if whole = [] ∧ fraction = [] then none
    else match rest.drop fraction.length with
      | [] => some (whole, fraction, 0)
      | e :: rest =>
        if e = 'e' ∨ e = 'E' then
          (Numeral.integer? rest).map fun exponent => (whole, fraction, exponent)
        else none
  | _ => none

/-- A number with a point, with an optional sign and an optional exponent, as the nearest float. -/
def Literal.float? (cs : List Char) : Option Float :=
  let (negative, cs) := match cs with
    | '-' :: rest => (true, rest)
    | '+' :: rest => (false, rest)
    | _ => (false, cs)
  (Literal.decimal? cs).map fun (whole, fraction, exponent) =>
    Numeral.nearest negative (Numeral.value 10 (whole ++ fraction)) (exponent - fraction.length)

/-- The literal that a number stands for: a float if it has a point, a word of 64 bits if not. -/
def Literal.ofNumber? (spelling : String) : Option Literal :=
  let cs := spelling.toList
  if '.' ∈ cs then (Literal.float? cs).map .float
  else ((Numeral.integer? cs).bind Numeral.int64?).map .int

/-- An operand that starts with the first of some tokens, and the tokens behind it. -/
def Operand.ofTokens (t : Token) (rest : List Token) : Except SourceError (Operand × List Token) :=
  match t.kind with
  | .dot => (Path.ofDot t.location rest).map fun (p, rest) => (.path p, rest)
  | .dollar => (Path.ofDollar t.location rest).map fun (p, rest) => (.path p, rest)
  | .string s => .ok (.literal (.string s), rest)
  | .bool b => .ok (.literal (.bool b), rest)
  | .number spelling =>
    match Literal.ofNumber? spelling with
    | some l => .ok (.literal l, rest)
    | none => structural (.badNumber spelling) t.location
  | _ => unexpected .operand t

/-- The operand that a whole word is. -/
def Operand.ofWord (word : List Token) : Except SourceError (List Operand) :=
  match word with
  | [] => .ok []
  | t :: rest => do
    match ← Operand.ofTokens t rest with
    | (o, []) => pure [o]
    | (_, u :: _) => unexpected .spaceBetweenArguments u

/-- The operands that words are. -/
def Operand.ofWords (words : List (List Token)) : Except SourceError (List Operand) := do
  let operands ← words.mapM Operand.ofWord
  pure operands.flatten

/-- A call: the function's name, the other tokens of its word, the words of its arguments, and the
number of arguments that a pipe adds. -/
def Command.ofCall (t : Token) (name : String) (glued : List Token) (words : List (List Token))
    (piped : Nat) : Except SourceError Command :=
  match Keyword.ofSpelling? name, Builtin.ofName? name with
  | some k, _ => structural (.keywordInPipeline k) t.location
  | none, none => structural (.undefinedFunction name) t.location
  | none, some f =>
    match glued with
    | u :: _ => unexpected .spaceBetweenArguments u
    | [] => do
      let args ← Operand.ofWords words
      let supplied := args.length + piped
      if f.takes supplied then pure (.call f args t.location)
      else structural (.wrongCount f supplied) t.location

/-- The first command of a pipeline, from its first token, the other tokens of the word of that
token, and the words after it. -/
def Command.ofFirst (t : Token) (glued : List Token) (words : List (List Token)) :
    Except SourceError Command :=
  match t.kind with
  | .identifier name => Command.ofCall t name glued words 0
  | _ => do
    let (o, rest) ← Operand.ofTokens t glued
    match rest ++ words.flatten with
    | [] => pure (.operand o)
    | u :: _ => unexpected .endOfValue u

/-- A later command of a pipeline, from the pipe before it and its tokens. -/
def Command.ofStage (stage : Token × List Token) : Except SourceError Command :=
  match Phrase.words stage.2 with
  | (t :: glued) :: words =>
    match t.kind with
    | .identifier name => Command.ofCall t name glued words 1
    | _ => structural .pipedValue t.location
  | _ => structural .missingCommand stage.1.location

/-- The pipeline that the tokens of an action are, for an action with a keyword or none; the closing
of the action stands at `stop`. -/
def Pipeline.ofTokens (action : Option Keyword) (ts : List Token) (stop : Location) :
    Except SourceError Pipeline :=
  let (first, later) := Phrase.stages ts
  match Phrase.words first, later with
  | (t :: glued) :: words, _ => do
    let head ← Command.ofFirst t glued words
    let rest ← later.mapM Command.ofStage
    pure ⟨head :: rest, t.location⟩
  | _, (pipe, _) :: _ => unexpected .operand pipe
  | _, [] => structural (.missingValue action) stop

end Stencil
