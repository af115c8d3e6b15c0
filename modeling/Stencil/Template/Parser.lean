import Stencil.Template.Action
import Stencil.Template.Lexer

/-!
# From tokens to templates

`Parser.run` goes through the tokens with a stack of open blocks and definitions (`Frame`). Text and
outputs join the list being read; an opening puts that list aside in a frame; `end` takes the top
frame away and puts the finished block where the opening stood. An `else if` opens a block of its
own inside the alternative of the block it continues, and one `end` closes the whole chain.

A definition is kept apart: its body becomes a template when it ends, and the list it interrupted
goes on.
-/

set_option autoImplicit false

namespace Stencil.Parser

/-- What waits for its `end`. -/
inductive Opener where
  /-- A block; one that is `chained` was opened by an `else if`. -/
  | block (kind : BlockKind) (subject : Pipeline) (chained : Bool)
  | define (name : String)
  | slot (name : String) (data : Pipeline)

/-- The keyword that an opener answers for in messages. -/
def Opener.keyword : Opener → Keyword
  | .block kind _ _ => kind.keyword
  | .define _ => .defineWord
  | .slot _ _ => .blockWord

/-- An open block or definition. -/
structure Frame where
  opener : Opener
  location : Location
  /-- The body, once an `else` has ended it. -/
  body : Option (List (Tree Piece))
  /-- What stands before the opening in the list that it interrupts, last first. -/
  before : List (Tree Piece)

/-- The state between two items. -/
structure State where
  /-- The list being read, last first. -/
  current : List (Tree Piece)
  frames : List Frame
  defines : List Template

/-- The state before the first token. -/
def State.initial : State := ⟨[], [], []⟩

/-- Adds a tree to the list being read. -/
def State.push (σ : State) (t : Tree Piece) : State :=
  { σ with current := t :: σ.current }

/-- Puts the list being read aside for the body of an opener. -/
def State.open (σ : State) (opener : Opener) (here : Location) : State :=
  { σ with current := [], frames := ⟨opener, here, none, σ.current⟩ :: σ.frames }

/-- A block with a body and an alternative: if an `else` has been seen, the list just read is the
alternative. -/
def Frame.block (f : Frame) (kind : BlockKind) (subject : Pipeline) (read : List (Tree Piece)) :
    Tree Piece :=
  match f.body with
  | none => .block kind subject read none f.location
  | some body => .block kind subject body (some read) f.location

/-- Ends the block on top, given its tree; a chained block ends the one that it continues. The
result is the finished list, last first, and the frames that stay open. -/
def closeChain (chained : Bool) (t : Tree Piece) (before : List (Tree Piece)) :
    List Frame → List (Tree Piece) × List Frame
  | [] => (t :: before, [])
  | f :: frames =>
    match chained, f.opener with
    | true, .block kind subject outer =>
      closeChain outer (f.block kind subject [t]) f.before frames
    | _, _ => (t :: before, f :: frames)

/-- Ends what the top frame opened. -/
def State.close (σ : State) (here : Location) : Except SourceError State :=
  match σ.frames with
  | [] => structural .strayEnd here
  | f :: frames =>
    let read := σ.current.reverse
    match f.opener with
    | .block kind subject chained =>
      let (current, frames) := closeChain chained (f.block kind subject read) f.before frames
      .ok { σ with current, frames }
    | .define name =>
      .ok ⟨f.before, frames, σ.defines ++ [⟨name, read, f.location⟩]⟩
    | .slot name data =>
      .ok ⟨.leaf (.embed name (some data) f.location) :: f.before, frames,
        σ.defines ++ [⟨name, read, f.location⟩]⟩

/-- Ends the body of the top frame, where its alternative starts; with a subject, the alternative is
a block of its own. -/
def State.otherwise (σ : State) (subject : Option Pipeline) (here : Location) :
    Except SourceError State :=
  match σ.frames with
  | [] => structural .strayElse here
  | f :: frames =>
    match f.opener, f.body with
    | .block kind _ _, none =>
      let split := { f with body := some σ.current.reverse }
      let turned : State := { σ with current := [], frames := split :: frames }
      match subject, kind with
      | none, _ => .ok turned
      | some p, .cond => .ok (turned.open (.block .cond p true) here)
      | some _, _ => structural (.elseIfIn kind.keyword) here
    | opener, _ => structural (.secondElse opener.keyword) here

/-- Opens a definition, whose name must be new in the source called `main`. -/
def State.openDefinition (σ : State) (main : String) (opener : Opener) (name : String)
    (here : Location) : Except SourceError State :=
  if name = main ∨ σ.defines.any (·.name = name) then structural (.redefined name) here
  else .ok (σ.open opener here)

/-- Does what an action at a location says. -/
def State.act (σ : State) (main : String) (action : Action) (here : Location) :
    Except SourceError State :=
  match action with
  | .output p => .ok (σ.push (.leaf (.output p here)))
  | .embed name data => .ok (σ.push (.leaf (.embed name data here)))
  | .opening kind subject => .ok (σ.open (.block kind subject false) here)
  | .otherwise => σ.otherwise none here
  | .otherwiseIf subject => σ.otherwise (some subject) here
  | .close => σ.close here
  | .define name => σ.openDefinition main (.define name) name here
  | .slot name data => σ.openDefinition main (.slot name data) name here

/-- The templates read, if nothing is left open. -/
def State.finish (σ : State) (main : String) : Except SourceError Source :=
  match σ.frames with
  | [] => .ok ⟨⟨main, σ.current.reverse, .start⟩, σ.defines⟩
  | f :: _ => structural (.unclosed f.opener.keyword) f.location

/-- Whether a token does not close an action. -/
def isInside (t : Token) : Bool :=
  t.kind ≠ .actionClose

/-- The tokens of an action whose opening has been read, the location of its closing, and the tokens
behind it. -/
def splitAction (ts : List Token) : List Token × Location × List Token :=
  let inside := ts.takeWhile isInside
  match ts.drop inside.length with
  | [] => (inside, .outside, [])
  | close :: rest => (inside, close.location, rest)

theorem length_splitAction (ts : List Token) : (splitAction ts).2.2.length ≤ ts.length := by
  unfold splitAction
  dsimp only
  split
  · simp
  · next close rest h =>
    have := congrArg List.length h
    simp only [List.length_drop, List.length_cons] at this
    simp only
    omega

/-- Goes through the tokens of the source called `main`. -/
def run (main : String) (σ : State) : List Token → Except SourceError Source
  | [] => σ.finish main
  | t :: rest =>
    match t.kind with
    | .eof => σ.finish main
    | .text content => run main (σ.push (.leaf (.text content t.location))) rest
    | .actionOpen => do
      let split := splitAction rest
      let action ← Action.ofTokens split.1 σ.frames.isEmpty t.location split.2.1
      let σ ← σ.act main action t.location
      run main σ split.2.2
    | _ => unexpected .item t
termination_by ts => ts.length
decreasing_by
  · simp
  · have := length_splitAction rest
    simp only [List.length_cons]
    omega

end Stencil.Parser

namespace Stencil

/-- The templates that tokens spell, the main one with a name. -/
def Source.ofTokens (name : String) (tokens : List Token) : Except SourceError Source :=
  Parser.run name .initial tokens

/-- The templates of a source text, the main one with a name. -/
def Source.parse (name text : String) : Except SourceError Source := do
  Source.ofTokens name (← tokenize text)

end Stencil
