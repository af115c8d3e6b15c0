import Stencil.Markup.Inner
import Stencil.Markup.Entity
import Stencil.Markup.Attribute

/-!
# Moving a context across text

`Context.step` reads one part of a text: the text before a tag, a name, the blanks before a value, a
whole value or body. `Context.advance` repeats steps to the end of the text.

A step may take no character, when it only finds that the part it is in has ended. Such steps cannot
go on for ever: `Context.lag` counts how many of them can follow before a character is taken
(`lag_lt`), and every step lowers four times the number of characters left plus this count
(`steps_step`).
-/

set_option autoImplicit false

namespace Stencil.Markup

open Stencil.Text

/-- The part of the name of a tag. -/
def isTagNamePart (c : Char) : Bool :=
  isAlphanumeric c || c == '-' || c == ':' || c == '_'

/-- The part of the name of an attribute. -/
def isAttrNamePart (c : Char) : Bool :=
  !(isSpace c || c == '=' || c == '>' || c == '/')

/-- What may stand between the attributes of a tag. -/
def isTagFiller (c : Char) : Bool :=
  isSpace c || c == '/'

/-- Whether a character ends a value with a delimiter. -/
def Delim.ends : Delim → Char → Bool
  | .none, _ => false
  | .doubleQuote, c => c == '"'
  | .singleQuote, c => c == '\''
  | .spaceOrTagEnd, c => isSpace c || c == '>'

/-- What follows the opening of an element's end tag, if a text starts with it. -/
def endTag? (name : List Char) : List Char → Option (List Char)
  | '<' :: '/' :: rest =>
    let after := rest.drop name.length
    if (rest.take name.length).map lower = name ∧ !after.head?.any isTagNamePart then some after
    else none
  | _ => none

/-- What stands before and after the opening of the first end tag of an element. -/
def cutEndTag (name : List Char) : List Char → Option (List Char × List Char)
  | [] => none
  | c :: rest =>
    match endTag? name (c :: rest) with
    | some after => some ([], after)
    | none => (cutEndTag name rest).map fun (before, after) => (c :: before, after)

namespace Context

/-- Whether the text goes on in the body of an element that has one of its own. -/
def inElementBody (c : Context) : Bool :=
  c.element != .none && c.delim == .none &&
    match c.state with
    | .text | .tagName | .tag | .attrName | .afterName | .beforeValue | .comment | .error => false
    | _ => true

/-- The start of the value of an attribute. -/
def enterValue (c : Context) (delim : Delim) : Context :=
  { c with state := c.attr.valueState, delim, urlPart := .none, slash := .regexp }

/-- The end of the value of an attribute. -/
def leaveAttr (c : Context) : Context :=
  { c with state := .tag, delim := .none, attr := .none, urlPart := .none, slash := .regexp }

/-- The start of a tag. -/
def startTag (c : Context) (endTag : Bool) : Context :=
  { c with state := .tagName, endTag, pendingName := "" }

/-- The end of a tag: the body of its element starts, or the text behind an end tag. -/
def closeTag (c : Context) : Context :=
  let element := if c.endTag then .none else c.element
  { state := element.bodyState, element }

/-- The end tag of the element whose body has been read. -/
def endTagOpened : Context := { state := .tag, endTag := true }

/-- More of a name. -/
def extendName (c : Context) (part : List Char) : Context :=
  { c with pendingName := c.pendingName ++ String.ofList (part.map lower) }

/-- A step in a value: to its end, or to the end of the text. A closing quote is taken; what ends a
value without quotes is left. -/
def valueStep (c : Context) (cs : List Char) : Context × List Char :=
  let inside := cs.takeWhile fun x => !c.delim.ends x
  let inner := c.advanceInner (decodeEntities inside)
  match cs.drop inside.length with
  | [] => (inner, [])
  | close :: rest =>
    (inner.leaveAttr, if inner.delim = .spaceOrTagEnd then close :: rest else rest)

/-- A step in the body of an element: to its end tag, or to the end of the text. -/
def bodyStep (c : Context) (cs : List Char) : Context × List Char :=
  match cutEndTag c.element.name.toList cs with
  | none => (c.advanceInner cs, [])
  | some (_, after) => (endTagOpened, after)

/-- What a less-than sign opens, and the text from the name on; at the end of the text, a tag. -/
def opened? (c : Context) : List Char → Option (Context × List Char)
  | [] => some (c.startTag false, [])
  | ['/'] => some (c.startTag true, [])
  | '!' :: '-' :: '-' :: rest => some ({ c with state := .comment }, rest)
  | '/' :: x :: rest => if isLetter x then some (c.startTag true, x :: rest) else none
  | x :: rest => if isLetter x then some (c.startTag false, x :: rest) else none

/-- A step in the text of a document: to the start of a tag or comment. -/
def textStep (c : Context) : List Char → Context × List Char
  | [] => (c, [])
  | x :: rest =>
    if x = '<' then
      match c.opened? rest with
      | some next => next
      | none => c.textStep rest
    else c.textStep rest

/-- A step in the name of a tag: to the end of the name. -/
def tagNameStep (c : Context) (cs : List Char) : Context × List Char :=
  let name := cs.takeWhile isTagNamePart
  let c := c.extendName name
  match cs.drop name.length with
  | [] => (c, [])
  | rest =>
    let element := if c.endTag then .none else Element.ofName c.pendingName
    ({ c with element, pendingName := "", state := .tag }, rest)

/-- A step between attributes: to the next name, or past the end of the tag. -/
def tagStep (c : Context) (cs : List Char) : Context × List Char :=
  match cs.dropWhile isTagFiller with
  | [] => (c, [])
  | x :: rest =>
    if x = '>' then (c.closeTag, rest)
    else ({ c with state := .attrName, pendingName := "" }, x :: rest)

/-- A step in the name of an attribute: to the end of the name. -/
def attrNameStep (c : Context) (cs : List Char) : Context × List Char :=
  let name := cs.takeWhile isAttrNamePart
  let c := c.extendName name
  match cs.drop name.length with
  | [] => (c, [])
  | rest =>
    ({ c with attr := AttrKind.ofName c.pendingName, pendingName := "", state := .afterName }, rest)

/-- A step behind the name of an attribute: past an equals sign, or to the next attribute. -/
def afterNameStep (c : Context) (cs : List Char) : Context × List Char :=
  match cs.dropWhile isSpace with
  | [] => (c, [])
  | x :: rest =>
    if x = '=' then ({ c with state := .beforeValue }, rest)
    else ({ c with state := .tag, attr := .none }, x :: rest)

/-- A step before the value of an attribute: into the value, or to the end of the tag. -/
def beforeValueStep (c : Context) (cs : List Char) : Context × List Char :=
  match cs.dropWhile isSpace with
  | [] => (c, [])
  | x :: rest =>
    if x = '>' then ({ c with state := .tag, attr := .none }, x :: rest)
    else if x = '"' then (c.enterValue .doubleQuote, rest)
    else if x = '\'' then (c.enterValue .singleQuote, rest)
    else (c.enterValue .spaceOrTagEnd, x :: rest)

/-- A step in a comment: past its end, or to the end of the text. -/
def commentStep (c : Context) (cs : List Char) : Context × List Char :=
  c.leave (after? ['-', '-', '>'] cs) { c with state := .text }

/-- One step: the context behind it, and the text that is left. -/
def step (c : Context) (cs : List Char) : Context × List Char :=
  if c.delim ≠ .none then c.valueStep cs
  else if c.inElementBody then c.bodyStep cs
  else match c.state with
    | .text => c.textStep cs
    | .tagName => c.tagNameStep cs
    | .tag => c.tagStep cs
    | .attrName => c.attrNameStep cs
    | .afterName => c.afterNameStep cs
    | .beforeValue => c.beforeValueStep cs
    | .comment => c.commentStep cs
    | _ => (c.advanceInner cs, [])

/-- How many steps between attributes take no character before one is taken. -/
def tagLag (x : Char) : Nat :=
  if isTagFiller x || x == '>' then 0 else if x == '=' then 2 else 1

/-- How many steps take no character before one is taken, when `x` is the next one. -/
def lag (c : Context) (x : Char) : Nat :=
  if c.delim ≠ .none then if c.delim = .spaceOrTagEnd ∧ c.delim.ends x then 1 else 0
  else if c.inElementBody then 0
  else match c.state with
    | .tagName => if isTagNamePart x then 0 else tagLag x + 1
    | .tag => tagLag x
    | .attrName => if isAttrNamePart x then 0 else if x == '=' then 1 else 2
    | .afterName => if isSpace x || x == '=' then 0 else tagLag x + 1
    | .beforeValue => if isSpace x || x == '"' || x == '\'' then 0 else 1
    | _ => 0

/-- The steps that a text can take. -/
def steps (c : Context) : List Char → Nat
  | [] => 0
  | x :: rest => 4 * (x :: rest).length + c.lag x

theorem lag_lt (c : Context) (x : Char) : c.lag x < 4 := by
  have : tagLag x < 3 := by
    unfold tagLag
    repeat' split
    all_goals decide
  unfold lag
  repeat' split
  all_goals omega

/-- A step that takes a character lowers the measure. -/
theorem steps_lt_of_length {c next : Context} {cs rest : List Char}
    (h : rest.length < cs.length) : next.steps rest < c.steps cs := by
  cases cs with
  | nil => simp at h
  | cons x xs =>
    cases rest with
    | nil => simp only [steps, List.length_cons]; omega
    | cons y ys =>
      have := next.lag_lt y
      simp only [steps, List.length_cons] at h ⊢
      omega

/-- A step that takes no character lowers the measure if the next context lags less. -/
theorem steps_lt_of_lag {c next : Context} {x : Char} {xs : List Char}
    (h : next.lag x < c.lag x) : next.steps (x :: xs) < c.steps (x :: xs) := by
  simp only [steps]
  omega

theorem length_of_endTag? {name cs after : List Char} (h : endTag? name cs = some after) :
    after.length < cs.length := by
  unfold endTag? at h
  split at h
  · dsimp only at h
    split at h
    · cases h
      simp only [List.length_drop, List.length_cons]
      omega
    · cases h
  · cases h

theorem length_of_cutEndTag {name cs before after : List Char}
    (h : cutEndTag name cs = some (before, after)) : after.length < cs.length := by
  induction cs generalizing before with
  | nil => cases h
  | cons c rest ih =>
    unfold cutEndTag at h
    split at h
    · next hend =>
      cases h
      exact length_of_endTag? hend
    · obtain ⟨⟨b, a⟩, hba, heq⟩ := Option.map_eq_some_iff.mp h
      cases heq
      exact Nat.lt_succ_of_lt (ih hba)

theorem length_of_opened? {c next : Context} {cs rest : List Char}
    (h : c.opened? cs = some (next, rest)) : rest.length ≤ cs.length := by
  unfold opened? at h
  split at h
  · cases h; simp
  · cases h; simp
  · cases h; simp +arith
  · split at h
    · cases h; simp
    · cases h
  · split at h
    · cases h; simp
    · cases h

theorem length_textStep (c : Context) (x : Char) (xs : List Char) :
    (c.textStep (x :: xs)).2.length < (x :: xs).length := by
  induction xs generalizing x with
  | nil =>
    unfold textStep
    split
    · split
      · next h => exact Nat.lt_succ_of_le (length_of_opened? h)
      · simp [textStep]
    · simp [textStep]
  | cons y ys ih =>
    unfold textStep
    split
    · split
      · next h => exact Nat.lt_succ_of_le (length_of_opened? h)
      · exact Nat.lt_succ_of_lt (ih y)
    · exact Nat.lt_succ_of_lt (ih y)

theorem lag_of_tag {c : Context} (hd : c.delim = .none) (hs : c.state = .tag) (x : Char) :
    c.lag x = tagLag x := by
  simp [lag, hd, hs, inElementBody]

theorem steps_valueStep {c : Context} (hd : c.delim ≠ .none) (x : Char) (xs : List Char) :
    (c.valueStep (x :: xs)).1.steps (c.valueStep (x :: xs)).2 < c.steps (x :: xs) := by
  unfold valueStep
  dsimp only
  rw [drop_takeWhile]
  rcases dropWhile_cases (fun y => !c.delim.ends y) x xs with ⟨hx, hdrop⟩ | hlt
  · have hinside : (x :: xs).takeWhile (fun y => !c.delim.ends y) = [] := by
      simp only [List.takeWhile_cons, hx, Bool.false_eq_true, if_false]
    have hx : c.delim.ends x = true := by simpa using hx
    rw [hdrop, hinside]
    simp only [decodeEntities, advanceInner]
    split
    · next hsp =>
      apply steps_lt_of_lag
      have hfill : isTagFiller x = true ∨ x = '>' := by
        rw [hsp] at hx
        simp only [Delim.ends, Bool.or_eq_true, beq_iff_eq] at hx
        exact hx.imp (fun h => by simp [isTagFiller, h]) id
      rw [lag_of_tag rfl rfl]
      have : tagLag x = 0 := by
        unfold tagLag
        rcases hfill with h | h <;> simp [h]
      rw [this, lag, if_pos hd, if_pos ⟨hsp, hx⟩]
      omega
    · exact steps_lt_of_length (by simp)
  · split
    · exact steps_lt_of_length (by simp)
    · next close rest h =>
      rw [h] at hlt
      apply steps_lt_of_length
      split
      · exact hlt
      · simp only [List.length_cons] at hlt ⊢
        omega

theorem steps_bodyStep (c : Context) (x : Char) (xs : List Char) :
    (c.bodyStep (x :: xs)).1.steps (c.bodyStep (x :: xs)).2 < c.steps (x :: xs) := by
  unfold bodyStep
  split
  · exact steps_lt_of_length (by simp)
  · next h => exact steps_lt_of_length (length_of_cutEndTag h)

theorem steps_tagNameStep {c : Context} (hd : c.delim = .none) (hs : c.state = .tagName) (x : Char)
    (xs : List Char) :
    (c.tagNameStep (x :: xs)).1.steps (c.tagNameStep (x :: xs)).2 < c.steps (x :: xs) := by
  unfold tagNameStep
  dsimp only
  rw [drop_takeWhile]
  split
  · exact steps_lt_of_length (by simp)
  · rcases dropWhile_cases isTagNamePart x xs with ⟨hx, hdrop⟩ | hlt
    · rw [hdrop]
      apply steps_lt_of_lag
      rw [lag_of_tag (by exact hd) rfl]
      simp [lag, hd, hs, inElementBody, hx]
    · exact steps_lt_of_length hlt

theorem steps_tagStep {c : Context} (hd : c.delim = .none) (hs : c.state = .tag) (x : Char)
    (xs : List Char) :
    (c.tagStep (x :: xs)).1.steps (c.tagStep (x :: xs)).2 < c.steps (x :: xs) := by
  unfold tagStep
  rcases dropWhile_cases isTagFiller x xs with ⟨hx, hdrop⟩ | hlt
  · rw [hdrop]
    dsimp only
    split
    · exact steps_lt_of_length (by simp)
    · next hgt =>
      apply steps_lt_of_lag
      have hspace : isSpace x = false ∧ (x == '/') = false := by
        simpa [isTagFiller] using hx
      rw [lag_of_tag hd hs]
      by_cases he : x = '='
      · subst he; simp [lag, hd, inElementBody, tagLag, isTagFiller, isAttrNamePart, isSpace]
      · simp_all [lag, inElementBody, tagLag, isAttrNamePart]
  · split
    · exact steps_lt_of_length (by simp)
    · next y ys h =>
      rw [h] at hlt
      split
      · exact steps_lt_of_length (by simp only [List.length_cons] at hlt ⊢; omega)
      · exact steps_lt_of_length hlt

theorem steps_attrNameStep {c : Context} (hd : c.delim = .none) (hs : c.state = .attrName)
    (x : Char) (xs : List Char) :
    (c.attrNameStep (x :: xs)).1.steps (c.attrNameStep (x :: xs)).2 < c.steps (x :: xs) := by
  unfold attrNameStep
  dsimp only
  rw [drop_takeWhile]
  split
  · exact steps_lt_of_length (by simp)
  · rcases dropWhile_cases isAttrNamePart x xs with ⟨hx, hdrop⟩ | hlt
    · rw [hdrop]
      apply steps_lt_of_lag
      by_cases he : x = '='
      · subst he; simp [lag, hd, hs, inElementBody, extendName, isAttrNamePart, isSpace]
      · by_cases hspace : isSpace x = true
        · simp [lag, extendName, hd, hs, inElementBody, hx, he, hspace]
        · have : isTagFiller x = true ∨ x = '>' := by
            simp only [isAttrNamePart] at hx
            simp only [isTagFiller]
            grind
          rcases this with h | rfl
          · simp [lag, extendName, hd, hs, inElementBody, hx, he, hspace, tagLag, h]
          · simp [lag, extendName, hd, hs, inElementBody, tagLag, isSpace, isAttrNamePart]
    · exact steps_lt_of_length hlt

theorem steps_afterNameStep {c : Context} (hd : c.delim = .none) (hs : c.state = .afterName)
    (x : Char) (xs : List Char) :
    (c.afterNameStep (x :: xs)).1.steps (c.afterNameStep (x :: xs)).2 < c.steps (x :: xs) := by
  unfold afterNameStep
  rcases dropWhile_cases isSpace x xs with ⟨hx, hdrop⟩ | hlt
  · rw [hdrop]
    dsimp only
    split
    · exact steps_lt_of_length (by simp)
    · next he =>
      apply steps_lt_of_lag
      rw [lag_of_tag (by exact hd) rfl]
      simp [lag, hd, hs, inElementBody, hx, he]
  · split
    · exact steps_lt_of_length (by simp)
    · next y ys h =>
      rw [h] at hlt
      split
      · exact steps_lt_of_length (by simp only [List.length_cons] at hlt ⊢; omega)
      · exact steps_lt_of_length hlt

theorem steps_beforeValueStep {c : Context} (hd : c.delim = .none) (hs : c.state = .beforeValue)
    (x : Char) (xs : List Char) :
    (c.beforeValueStep (x :: xs)).1.steps (c.beforeValueStep (x :: xs)).2 < c.steps (x :: xs) := by
  unfold beforeValueStep
  rcases dropWhile_cases isSpace x xs with ⟨hx, hdrop⟩ | hlt
  · rw [hdrop]
    dsimp only
    split
    · next hgt =>
      apply steps_lt_of_lag
      subst hgt
      rw [lag_of_tag (by exact hd) rfl]
      simp [lag, hd, hs, inElementBody, tagLag, isSpace]
    split
    · exact steps_lt_of_length (by simp)
    split
    · exact steps_lt_of_length (by simp)
    · apply steps_lt_of_lag
      simp_all [lag, inElementBody, enterValue, Delim.ends]
  · split
    · exact steps_lt_of_length (by simp)
    · next y ys h =>
      rw [h] at hlt
      have short : ys.length < (x :: xs).length := by
        simp only [List.length_cons] at hlt ⊢
        omega
      repeat' split
      · exact steps_lt_of_length hlt
      · exact steps_lt_of_length short
      · exact steps_lt_of_length short
      · exact steps_lt_of_length hlt

/-- Every step lowers the measure. -/
theorem steps_step (c : Context) (x : Char) (xs : List Char) :
    (c.step (x :: xs)).1.steps (c.step (x :: xs)).2 < c.steps (x :: xs) := by
  unfold step
  split
  · next hd => exact steps_valueStep hd x xs
  · next hd =>
    have hd : c.delim = .none := by simpa using hd
    split
    · exact steps_bodyStep c x xs
    · split
      · exact steps_lt_of_length (length_textStep c x xs)
      · next hs => exact steps_tagNameStep hd hs x xs
      · next hs => exact steps_tagStep hd hs x xs
      · next hs => exact steps_attrNameStep hd hs x xs
      · next hs => exact steps_afterNameStep hd hs x xs
      · next hs => exact steps_beforeValueStep hd hs x xs
      · exact steps_lt_of_length (length_leave (by simp) fun _ => length_of_after? (by simp))
      · exact steps_lt_of_length (by simp)

/-- The context behind a text. -/
def advance (c : Context) : List Char → Context
  | [] => c
  | x :: xs =>
    if c.isError then c
    else
      let next := c.step (x :: xs)
      next.1.advance next.2
termination_by cs => c.steps cs
decreasing_by exact steps_step c x xs

end Context

end Stencil.Markup
