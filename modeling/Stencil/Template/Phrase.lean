import Stencil.Template.Token

/-!
# Phrases of an action

The tokens of an action fall into **words**, the runs between blanks, and **stages**, the runs
between pipes. Both are splits of a list: nothing is dropped but the separators.
-/

set_option autoImplicit false

namespace Stencil.Phrase

/-- The runs between the tokens of a class, the first of which may be empty. -/
def splitOn (separates : Token → Bool) : List Token → List Token × List (Token × List Token)
  | [] => ([], [])
  | t :: rest =>
    let (first, later) := splitOn separates rest
    if separates t then ([], (t, first) :: later) else (t :: first, later)

/-- The words: runs without blanks, none of them empty. -/
def words (ts : List Token) : List (List Token) :=
  let (first, later) := splitOn Token.isBlank ts
  (first :: later.map Prod.snd).filter (· ≠ [])

/-- The stages: the run before the first pipe, and each pipe with the run after it. -/
def stages (ts : List Token) : List Token × List (Token × List Token) :=
  splitOn (fun t => t.kind = .pipe) ts

/-- The tokens after leading blanks. -/
def skipBlanks (ts : List Token) : List Token :=
  ts.dropWhile Token.isBlank

end Stencil.Phrase
