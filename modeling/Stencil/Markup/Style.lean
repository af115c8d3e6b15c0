import Stencil.Markup.Script
import Stencil.Markup.Address

/-!
# Style sheets

One step of reading a style sheet: from a rule to the next string, comment or address, or from
inside one of these to its end. An address is what stands in parentheses after the word `url`, with
quotes or without.
-/

set_option autoImplicit false

namespace Stencil.Markup

open Stencil.Text

/-- The part of a name in a style sheet. -/
def isStyleNamePart (c : Char) : Bool :=
  isAlphanumeric c || c == '-' || c == '_'

/-- Whether a text, given in reverse, ends with the word `url` and blanks. -/
def endsWithUrl (reversed : List Char) : Bool :=
  match reversed.dropWhile isSpace with
  | l :: r :: u :: before =>
    lower u == 'u' && lower r == 'r' && lower l == 'l' && !before.head?.any isStyleNamePart
  | _ => false

/-- The start of an address, with the text behind its parenthesis. -/
def Context.addressStep (c : Context) (rest : List Char) : Context × List Char :=
  match rest.dropWhile isSpace with
  | '"' :: rest => ({ c with state := .cssDoubleQuotedUrl, urlPart := .none }, rest)
  | '\'' :: rest => ({ c with state := .cssSingleQuotedUrl, urlPart := .none }, rest)
  | rest => ({ c with state := .cssUrl, urlPart := .none }, rest)

/-- A step in a rule: to the start of the next part, or to the end of the text; `seen` is what has
been passed, in reverse. -/
def Context.ruleStep (c : Context) (seen : List Char) : List Char → Context × List Char
  | [] => (c, [])
  | first :: rest =>
    if first = '(' ∧ endsWithUrl seen then c.addressStep rest
    else if first = '"' then ({ c with state := .cssDoubleQuoted }, rest)
    else if first = '\'' then ({ c with state := .cssSingleQuoted }, rest)
    else if first = '/' ∧ rest.head? = some '*' then
      ({ c with state := .cssComment }, rest.drop 1)
    else c.ruleStep (first :: seen) rest

/-- A step in an address up to its closing character. -/
def Context.addressEnd (c : Context) (close : Char) (cs : List Char) : Context × List Char :=
  let inside := cs.takeWhile (· != close)
  let c := { c with urlPart := c.urlPart.advance inside }
  match cs.drop inside.length with
  | [] => (c, [])
  | _ :: rest => ({ c with state := .css, urlPart := .none }, rest)

theorem length_addressStep (c : Context) (rest : List Char) :
    (c.addressStep rest).2.length ≤ rest.length := by
  have bound := (List.dropWhile_sublist isSpace (l := rest)).length_le
  unfold Context.addressStep
  split
  · next h => rw [h] at bound; simp only [List.length_cons] at bound; simp only; omega
  · next h => rw [h] at bound; simp only [List.length_cons] at bound; simp only; omega
  · exact bound

theorem length_ruleStep (c : Context) (seen : List Char) (first : Char) (rest : List Char) :
    (c.ruleStep seen (first :: rest)).2.length < (first :: rest).length := by
  induction rest generalizing seen first with
  | nil =>
    unfold Context.ruleStep
    repeat' split
    · exact Nat.lt_succ_of_le (length_addressStep _ _)
    all_goals simp [Context.ruleStep]
  | cons second rest ih =>
    unfold Context.ruleStep
    repeat' split
    · exact Nat.lt_succ_of_le (length_addressStep _ _)
    · simp
    · simp
    · simp +arith
    · exact Nat.lt_succ_of_lt (ih _ _)

theorem length_addressEnd (c : Context) (close : Char) (first : Char) (rest : List Char) :
    (c.addressEnd close (first :: rest)).2.length < (first :: rest).length := by
  unfold Context.addressEnd
  dsimp only
  split
  · simp
  · next h =>
    have := congrArg List.length h
    simp only [List.length_drop, List.length_cons] at this
    simp only [List.length_cons]
    omega

end Stencil.Markup
