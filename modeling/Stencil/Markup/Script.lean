import Stencil.Markup.Context
import Stencil.Text.Cut
import Stencil.Text.Blank

/-!
# Scripts

One step of reading a script: from code to the next string, comment, regular expression or slash, or
from inside one of these to its end. Whether a slash divides or opens a regular expression is told
from the code before it (`Slash.after`); where branches of a template disagree on that code, a slash
is a fault.
-/

set_option autoImplicit false

namespace Stencil.Markup

open Stencil.Text

/-- The part of a name in a script. -/
def isScriptNamePart (c : Char) : Bool :=
  isAlphanumeric c || c == '_' || c == '$'

/-- The words after which an expression starts. -/
def expressionWords : List String :=
  ["break", "case", "continue", "delete", "do", "else", "finally", "in", "instanceof", "return",
   "throw", "try", "typeof", "void"]

/-- The signs after which an expression starts. -/
def expressionSigns : List Char :=
  [',', '<', '>', '=', '*', '%', '&', '|', '^', '?', '!', '~', '(', '[', '\x7b', '\x7d', ';', ':']

/-- What a slash means after code that ends with `last`, with the code before it in reverse. -/
def Slash.afterLast (last : Char) (before : List Char) : Slash :=
  if last = '+' ∨ last = '-' then
    if ((last :: before).takeWhile (· == last)).length % 2 = 1 then .regexp else .division
  else if last = '.' then
    if before.head?.any isDigit then .division else .regexp
  else if last ∈ expressionSigns then .regexp
  else
    let word := ((last :: before).takeWhile isScriptNamePart).reverse
    if String.ofList word ∈ expressionWords then .regexp else .division

/-- What a slash means after a run of code; blanks change nothing. -/
def Slash.after (previous : Slash) (code : List Char) : Slash :=
  match code.reverse.dropWhile isSpace with
  | [] => previous
  | last :: before => Slash.afterLast last before

/-- What follows the first quote that no backslash escapes. -/
def afterQuote? (quote : Char) : List Char → Option (List Char)
  | [] => none
  | '\\' :: [] => none
  | '\\' :: _ :: rest => afterQuote? quote rest
  | c :: rest => if c = quote then some rest else afterQuote? quote rest

/-- What follows the slash that ends a regular expression: one that no backslash escapes and that
stands in no class of characters. -/
def afterRegexp? (inClass : Bool) : List Char → Option (List Char)
  | [] => none
  | '\\' :: [] => none
  | '\\' :: _ :: rest => afterRegexp? inClass rest
  | c :: rest =>
    if c = '[' then afterRegexp? true rest
    else if c = ']' then afterRegexp? false rest
    else if c = '/' ∧ inClass = false then some rest
    else afterRegexp? inClass rest

/-- What follows the first occurrence of a pattern. -/
def after? (pattern text : List Char) : Option (List Char) :=
  (cut pattern text).map Prod.snd

/-- Goes to a context if an ending was found, and stays to the end of the text if not. -/
def Context.leave (c : Context) (ending : Option (List Char)) (next : Context) :
    Context × List Char :=
  match ending with
  | some rest => (next, rest)
  | none => (c, [])

/-- The start of a string, comment or regular expression in code. -/
def startsScriptPart (c : Char) : Bool :=
  c == '"' || c == '\'' || c == '\x60' || c == '/'

/-- What a slash opens, with the text behind it. -/
def Context.slashStep (c : Context) (rest : List Char) : Context × List Char :=
  match rest with
  | '/' :: rest => ({ c with state := .jsLineComment }, rest)
  | '*' :: rest => ({ c with state := .jsBlockComment }, rest)
  | _ =>
    match c.slash with
    | .regexp => ({ c with state := .jsRegexp }, rest)
    | .division => ({ c with slash := .regexp }, rest)
    | .unknown => (.failed .slash, [])

/-- A step in code: to the start of the next part, or to the end of the text. -/
def Context.codeStep (c : Context) (cs : List Char) : Context × List Char :=
  let code := cs.takeWhile fun c => !startsScriptPart c
  let c := { c with slash := c.slash.after code }
  match cs.drop code.length with
  | [] => (c, [])
  | opening :: rest =>
    if opening = '"' then ({ c with state := .jsDoubleQuoted }, rest)
    else if opening = '\'' then ({ c with state := .jsSingleQuoted }, rest)
    else if opening = '\x60' then ({ c with state := .jsTemplate }, rest)
    else c.slashStep rest

/-- Code behind a value: a slash divides. -/
def Context.afterOperand (c : Context) : Context :=
  { c with state := .js, slash := .division }

theorem length_of_afterQuote? {quote : Char} {cs rest : List Char}
    (h : afterQuote? quote cs = some rest) : rest.length < cs.length := by
  fun_induction afterQuote? quote cs with
  | case1 => cases h
  | case2 => cases h
  | case3 _ r ih =>
    have := ih h
    simp only [List.length_cons]
    omega
  | case4 => cases h; simp
  | case5 _ _ _ _ _ ih =>
    have := ih h
    simp only [List.length_cons]
    omega

theorem length_of_afterRegexp? {inClass : Bool} {cs rest : List Char}
    (h : afterRegexp? inClass cs = some rest) : rest.length < cs.length := by
  fun_induction afterRegexp? inClass cs with
  | case1 => cases h
  | case2 => cases h
  | case3 _ _ _ ih => have := ih h; simp only [List.length_cons]; omega
  | case4 _ _ _ _ ih => have := ih h; simp only [List.length_cons]; omega
  | case5 _ _ _ _ _ ih => have := ih h; simp only [List.length_cons]; omega
  | case6 => cases h; simp
  | case7 _ _ _ _ _ _ _ _ ih => have := ih h; simp only [List.length_cons]; omega

theorem length_of_after? {pattern text rest : List Char} (nonempty : pattern ≠ [])
    (h : after? pattern text = some rest) : rest.length < text.length := by
  obtain ⟨⟨before, after⟩, hcut, rfl⟩ := Option.map_eq_some_iff.mp h
  have := length_of_cut hcut
  have := List.length_pos_iff.mpr nonempty
  simp only
  omega

theorem length_leave {c next : Context} {ending : Option (List Char)} {bound : Nat}
    (positive : 0 < bound) (h : ∀ rest, ending = some rest → rest.length < bound) :
    (c.leave ending next).2.length < bound := by
  unfold Context.leave
  split
  · exact h _ rfl
  · exact positive

theorem length_slashStep (c : Context) (rest : List Char) :
    (c.slashStep rest).2.length ≤ rest.length := by
  unfold Context.slashStep
  split
  · simp
  · simp
  · split <;> simp

theorem length_codeStep (c : Context) (first : Char) (rest : List Char) :
    (c.codeStep (first :: rest)).2.length < (first :: rest).length := by
  unfold Context.codeStep
  dsimp only
  split
  · simp
  · next opening after h =>
    have := congrArg List.length h
    simp only [List.length_drop, List.length_cons] at this
    split
    · simp only [List.length_cons]; omega
    split
    · simp only [List.length_cons]; omega
    split
    · simp only [List.length_cons]; omega
    · refine Nat.lt_of_le_of_lt (length_slashStep _ _) ?_
      simp only [List.length_cons]
      omega

end Stencil.Markup
