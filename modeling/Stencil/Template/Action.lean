import Stencil.Template.Command
import Stencil.Template.Tree

/-!
# Actions

What the tokens between an action's delimiters say. Reading an action does not look at what
surrounds it, but for one thing: a definition is refused in the middle of a block before its name is
read.
-/

set_option autoImplicit false

namespace Stencil

/-- What an action says. -/
inductive Action where
  | output (p : Pipeline)
  | opening (kind : BlockKind) (subject : Pipeline)
  | otherwise
  | otherwiseIf (subject : Pipeline)
  | close
  | embed (name : String) (data : Option Pipeline)
  | define (name : String)
  /-- A definition that is also embedded where it stands. -/
  | slot (name : String) (data : Pipeline)

namespace Action

open Phrase

/-- The action has ended. -/
def atEnd (ts : List Token) : Except SourceError Unit :=
  match skipBlanks ts with
  | [] => pure ()
  | t :: _ => unexpected .close t

/-- The quoted name of a template, and the tokens behind it. -/
def name (k : Keyword) (ts : List Token) (stop : Location) :
    Except SourceError (String × List Token) :=
  match skipBlanks ts with
  | [] => structural (.missingName k) stop
  | t :: rest =>
    match t.kind with
    | .string s => .ok (s, rest)
    | _ => structural (.missingName k) t.location

/-- The data given to an embedded template, if any is given. -/
def data (ts : List Token) (stop : Location) : Except SourceError (Option Pipeline) :=
  match skipBlanks ts with
  | [] => pure none
  | t :: rest => some <$> Pipeline.ofTokens (some .templateWord) (t :: rest) stop

/-- What follows an `else`. -/
def ofElse (ts : List Token) (stop : Location) : Except SourceError Action :=
  match skipBlanks ts with
  | [] => pure .otherwise
  | t :: rest =>
    if t.keyword? = some .ifWord then
      .otherwiseIf <$> Pipeline.ofTokens (some .ifWord) rest stop
    else unexpected .close t

/-- What follows a keyword in an action opened at `start` and closed at `stop`. -/
def ofKeyword (k : Keyword) (ts : List Token) (topLevel : Bool) (start stop : Location) :
    Except SourceError Action :=
  match k with
  | .ifWord => .opening .cond <$> Pipeline.ofTokens (some .ifWord) ts stop
  | .rangeWord => .opening .each <$> Pipeline.ofTokens (some .rangeWord) ts stop
  | .withWord => .opening .within <$> Pipeline.ofTokens (some .withWord) ts stop
  | .elseWord => ofElse ts stop
  | .endWord => do
    atEnd ts
    pure .close
  | .templateWord => do
    let (called, rest) ← name .templateWord ts stop
    .embed called <$> data rest stop
  | .defineWord =>
    if topLevel then do
      let (called, rest) ← name .defineWord ts stop
      atEnd rest
      pure (.define called)
    else structural .nestedDefine start
  | .blockWord => do
    let (called, rest) ← name .blockWord ts stop
    .slot called <$> Pipeline.ofTokens (some .blockWord) rest stop

/-- The action that tokens are, in an action opened at `start` and closed at `stop`. -/
def ofTokens (ts : List Token) (topLevel : Bool) (start stop : Location) :
    Except SourceError Action :=
  match skipBlanks ts with
  | [] => structural (.missingValue none) stop
  | t :: rest =>
    match t.keyword? with
    | some k => ofKeyword k rest topLevel start stop
    | none => .output <$> Pipeline.ofTokens none (t :: rest) stop

end Action

end Stencil
