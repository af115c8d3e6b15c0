import Stencil.Template.Error
import Stencil.Template.Literal
import Stencil.Text.Cut

/-!
# Cutting a source into tokens

`tokenize` reads a source in steps. A step sees the characters that are left and their location, and
gives the tokens found, the mode to go on in and the number of characters it took (`Step`). Between
actions a step takes the text up to the next action together with the opening of that action, or a
whole comment; inside an action it takes one lexeme.

A trim marker, a minus sign next to blanks at an action's edge, removes the blanks of the text
beside the action.
-/

set_option autoImplicit false

namespace Stencil.Lexer

open Stencil.Text

/-- Where the next character stands. -/
inductive Mode where
  /-- Between actions; with `trim`, blanks at the start are dropped. -/
  | text (trim : Bool)
  /-- Inside the action that was opened at a location. -/
  | action (opened : Location)
deriving DecidableEq, Repr

/-- What one step found. -/
structure Step where
  tokens : List Token
  mode : Mode
  /-- The number of characters taken; a step takes at least one. -/
  size : Nat

/-- A letter or underscore, with which a name starts. -/
def isNameStart (c : Char) : Bool :=
  isLetter c || c == '_'

/-- A letter, digit or underscore, with which a name goes on. -/
def isNamePart (c : Char) : Bool :=
  isAlphanumeric c || c == '_'

/-- A minus sign before a blank. -/
def isTrimMarker : List Char → Bool
  | '-' :: c :: _ => isBlank c
  | _ => false

/-- The tokens of a text, which are none if it is empty. -/
def textTokens (content : List Char) (here : Location) : List Token :=
  if content = [] then [] else [⟨.text (String.ofList content), here⟩]

/-- The characters after the opening of an action when a comment begins there: those after the
comment's own opening, and the number of characters before them. After a trim marker, blanks may
stand before the comment. -/
def commentBody? (trimmed : Bool) (cs : List Char) : Option (List Char × Nat) :=
  let blanks := if trimmed then cs.takeWhile isBlank else []
  match cs.drop blanks.length with
  | '/' :: '*' :: body => some (body, blanks.length + 2)
  | _ => none

/-- The end of an action after a comment: whether the text behind it is trimmed, and the number of
characters. -/
def commentClose? : List Char → Option (Bool × Nat)
  | ' ' :: '-' :: '\x7d' :: '\x7d' :: _ => some (true, 4)
  | '\x7d' :: '\x7d' :: _ => some (false, 2)
  | _ => none

/-- The rest of a comment and its action, which was opened at a location: whether the text behind it
is trimmed, and the number of characters. -/
def comment (opened : Location) (body : List Char) : Except SourceError (Bool × Nat) :=
  match cut ['*', '/'] body with
  | none => .error (.lexical .unclosedComment opened)
  | some (inside, rest) =>
    match commentClose? rest with
    | none => .error (.lexical .commentRunsOn opened)
    | some (trim, size) => .ok (trim, inside.length + 2 + size)

/-- A step between actions. -/
def textStep (trim : Bool) (here : Location) (cs : List Char) : Except SourceError Step :=
  let blanks := if trim then cs.takeWhile isBlank else []
  let body := cs.drop blanks.length
  let origin := here.advance blanks
  match cut ['\x7b', '\x7b'] body with
  | none => .ok ⟨textTokens body origin, .text false, cs.length⟩
  | some (content, rest) =>
    let opened := origin.advance content
    let trimmed := isTrimMarker rest
    let marker := if trimmed then 1 else 0
    let tokens := textTokens (if trimmed then trimEnd isBlank content else content) origin
    let size := blanks.length + content.length + 2 + marker
    match commentBody? trimmed (rest.drop marker) with
    | none => .ok ⟨tokens ++ [⟨.actionOpen, opened⟩], .action opened, size⟩
    | some (body, before) => do
      let (trim, length) ← comment opened body
      pure ⟨tokens, .text trim, size + before + length⟩

/-- Blanks inside an action. A minus sign that follows them and ends the action is a trim marker. -/
def blankStep (opened here : Location) (cs : List Char) : Step :=
  let blanks := cs.takeWhile isBlank
  let token : Token := ⟨.blank (String.ofList blanks), here⟩
  match cs.drop blanks.length with
  | '-' :: '\x7d' :: '\x7d' :: _ =>
    ⟨[token, ⟨.actionClose, here.advance (blanks ++ ['-'])⟩], .text true, blanks.length + 3⟩
  | _ => ⟨[token], .action opened, blanks.length⟩

/-- A dot, and an index right after it. -/
def dotStep (opened here : Location) (rest : List Char) : Step :=
  let digits := rest.takeWhile isDigit
  let index : List Token :=
    if digits = [] then [] else [⟨.number (String.ofList digits), here.next '.'⟩]
  ⟨⟨.dot, here⟩ :: index, .action opened, 1 + digits.length⟩

/-- A string between double quotes, given what follows the opening quote. -/
def quotedStep (opened here : Location) (rest : List Char) : Except SourceError Step :=
  match Literal.quoted 0 rest with
  | .ok (content, size) => .ok ⟨[⟨.string (String.ofList content), here⟩], .action opened, 1 + size⟩
  | .error .unterminated => .error (.lexical .unterminatedString here)
  | .error (.escape letter before) =>
    .error (.lexical (.invalidEscape letter) ((here.next '"').advance (rest.take before)))

/-- A string between backquotes, given what follows the opening one. -/
def rawStep (opened here : Location) (rest : List Char) : Except SourceError Step :=
  match Literal.raw? rest with
  | some content =>
    .ok ⟨[⟨.string (String.ofList content), here⟩], .action opened, content.length + 2⟩
  | none => .error (.lexical .unterminatedString here)

/-- A number, which no name may follow without a blank. -/
def numberStep (opened here : Location) (cs : List Char) : Except SourceError Step :=
  let spelling := Literal.number cs
  match (cs.drop spelling.length).head?.filter isNamePart with
  | some next => .error (.lexical (.badNumber (String.ofList spelling) next) here)
  | none => .ok ⟨[⟨.number (String.ofList spelling), here⟩], .action opened, spelling.length⟩

/-- A name or one of the two truth values. -/
def nameStep (opened here : Location) (cs : List Char) : Step :=
  let name := String.ofList (cs.takeWhile isNamePart)
  let kind : Token.Kind :=
    if name = "true" then .bool true
    else if name = "false" then .bool false
    else .identifier name
  ⟨[⟨kind, here⟩], .action opened, (cs.takeWhile isNamePart).length⟩

/-- Whether a number starts with a character before a rest: a digit, or a sign before one. -/
def startsNumber (c : Char) (rest : List Char) : Bool :=
  isDigit c || ((c == '-' || c == '+') && rest.head?.any isDigit)

/-- A step inside the action that was opened at a location. -/
def actionStep (opened here : Location) (c : Char) (rest : List Char) : Except SourceError Step :=
  match c, rest with
  | '\x7d', '\x7d' :: _ => .ok ⟨[⟨.actionClose, here⟩], .text false, 2⟩
  | '.', _ => .ok (dotStep opened here rest)
  | '$', _ => .ok ⟨[⟨.dollar, here⟩], .action opened, 1⟩
  | '|', _ => .ok ⟨[⟨.pipe, here⟩], .action opened, 1⟩
  | '"', _ => quotedStep opened here rest
  | '\x60', _ => rawStep opened here rest
  | _, _ =>
    if isBlank c then .ok (blankStep opened here (c :: rest))
    else if startsNumber c rest then numberStep opened here (c :: rest)
    else if isNameStart c then .ok (nameStep opened here (c :: rest))
    else .error (.lexical (.unexpectedCharacter c) here)

/-- One step from the character `c` on. -/
def step (mode : Mode) (here : Location) (c : Char) (rest : List Char) : Except SourceError Step :=
  match mode with
  | .text trim => textStep trim here (c :: rest)
  | .action opened => actionStep opened here c rest

/-- The tokens of the characters that are left, with the mark of the end. -/
def run (mode : Mode) (here : Location) : List Char → Except SourceError (List Token)
  | [] =>
    match mode with
    | .text _ => .ok [⟨.eof, here⟩]
    | .action opened => .error (.lexical .unclosedAction opened)
  | c :: rest => do
    let found ← step mode here c rest
    let later ← run found.mode (here.advance ((c :: rest).take found.size))
      (rest.drop (found.size - 1))
    pure (found.tokens ++ later)
termination_by cs => cs.length
decreasing_by simp +arith

end Stencil.Lexer

namespace Stencil

/-- The tokens of a source, ending with the mark of its end. -/
def tokenize (source : String) : Except SourceError (List Token) :=
  Lexer.run (.text false) .start source.toList

end Stencil
