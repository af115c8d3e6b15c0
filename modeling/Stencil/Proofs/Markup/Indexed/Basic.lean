import Stencil.Markup.Advance
import Stencil.Proofs.Markup.Bytes

/-!
# A scan of bytes by positions

The scan of `Context.advance` as one over the bytes of a text, with a position that moves: every
part of the text is a slice between two positions, and every character that is looked at is the byte
at one. Nothing here is known to be in range. A result is `Checked`: there is none if a slice ends
past the text or starts behind its own end, or if a byte is asked for that is not there.

A search goes on behind what it has looked at, which lies in the text; so it ends, wherever it
starts. So does the loop inside a value or a body, whose steps all take a byte (`lt_of_innerStep`).
The loop of the scan itself is given step by step (`Calls`): whether it ends is another question.

What is asked of a context, and what a step makes of it, is said by the definitions of
`Context.advance` itself; only where the text comes from differs.
-/

set_option autoImplicit false

namespace Stencil.Markup.Indexed

open Stencil.Text Stencil.Numeral

/-- A result, if every slice and every index on the way to it is in range. -/
abbrev Checked : Type → Type := Option

/-! ## Searches -/

/-- Whether bytes start with a pattern. -/
def startsWith (pattern : List Char) (s : List UInt8) : Bool :=
  (s.take pattern.length).map byteChar == pattern

/-- The first place in bytes where a pattern starts. -/
def windowAt? (pattern : List Char) : List UInt8 → Option Nat
  | [] => none
  | b :: rest =>
    if startsWith pattern (b :: rest) then some 0 else (windowAt? pattern rest).map (· + 1)

/-- The first byte of a class, from a position on. -/
def findByte (s : List UInt8) (i : Nat) (p : Char → Bool) : Checked (Option Nat) := do
  let rest ← from? s i
  return (rest.findIdx? fun b => p (byteChar b)).map (i + ·)

/-- The first place of a pattern, from a position on. -/
def findPattern (s : List UInt8) (i : Nat) (pattern : List Char) : Checked (Option Nat) := do
  let rest ← from? s i
  return (windowAt? pattern rest).map (i + ·)

theorem from?_eq_some {s rest : List UInt8} {i : Nat} (h : from? s i = some rest) :
    i + rest.length = s.length := by
  rw [from?, slice?] at h
  split at h
  · next hle =>
    cases h
    rw [List.length_take, List.length_drop]
    omega
  · cases h

theorem windowAt?_lt {pattern : List Char} {s : List UInt8} {n : Nat}
    (h : windowAt? pattern s = some n) : n < s.length := by
  induction s generalizing n with
  | nil => cases h
  | cons b rest ih =>
    rw [windowAt?] at h
    split at h
    · cases h
      exact Nat.succ_pos _
    · obtain ⟨m, hm, rfl⟩ := Option.map_eq_some_iff.mp h
      exact Nat.succ_lt_succ (ih hm)

variable {s : List UInt8} {p : Char → Bool} {pattern : List Char} {i k : Nat}

/-- A byte that is found lies between the start of the search and the end of the text. -/
theorem findByte_range (h : findByte s i p = some (some k)) : i ≤ k ∧ k < s.length := by
  obtain ⟨rest, hrest, hk⟩ := Option.bind_eq_some_iff.mp h
  obtain ⟨n, hn, rfl⟩ := Option.map_eq_some_iff.mp (Option.some.inj hk)
  have := from?_eq_some hrest
  have := (List.findIdx?_eq_some_iff_findIdx_eq.mp hn).1
  omega

theorem findPattern_range (h : findPattern s i pattern = some (some k)) :
    i ≤ k ∧ k < s.length := by
  obtain ⟨rest, hrest, hk⟩ := Option.bind_eq_some_iff.mp h
  obtain ⟨n, hn, rfl⟩ := Option.map_eq_some_iff.mp (Option.some.inj hk)
  have := from?_eq_some hrest
  have := windowAt?_lt hn
  omega

/-- Whether the name of an element stands at a position, as a whole word. -/
def namedAt (s : List UInt8) (name : List Char) (i : Nat) : Checked Bool := do
  if i + name.length ≤ s.length then
    let found ← slice? s i (i + name.length)
    return (found.map byteChar).map lower == name &&
      !(byteAt? s (i + name.length)).any isTagNamePart
  else return false

/-- The first end tag of an element, from a position on. -/
def findEndTag (s : List UInt8) (name : List Char) (k : Nat) : Checked (Option Nat) :=
  match _found : findPattern s k ['<', '/'] with
  | none => none
  | some none => some none
  | some (some start) => do
    if ← namedAt s name (start + 2) then return some start
    else findEndTag s name (start + 2)
termination_by s.length - k
decreasing_by
  have := findPattern_range _found
  omega

/-- The first quote that no backslash escapes, from a position on. -/
def findQuote (s : List UInt8) (quote : Char) (k : Nat) : Checked (Option Nat) :=
  if k < s.length then do
    let x ← byteAt? s k
    if x = '\\' then findQuote s quote (k + 2)
    else if x = quote then return some k
    else findQuote s quote (k + 1)
  else return none
termination_by s.length - k

/-- The first slash that ends a regular expression, from a position on. -/
def findRegexpEnd (s : List UInt8) (inClass : Bool) (k : Nat) : Checked (Option Nat) :=
  if k < s.length then do
    let x ← byteAt? s k
    if x = '\\' then findRegexpEnd s inClass (k + 2)
    else if x = '[' then findRegexpEnd s true (k + 1)
    else if x = ']' then findRegexpEnd s false (k + 1)
    else if x = '/' ∧ inClass = false then return some k
    else findRegexpEnd s inClass (k + 1)
  else return none
termination_by s.length - k

/-- The position behind the last byte of a class; the start if there is none. -/
def behindLast (s : List UInt8) (p : Char → Bool) : Nat :=
  match s.reverse.findIdx? fun b => p (byteChar b) with
  | some n => s.length - n
  | none => 0

/-! ## Character references -/

/-- The reference whose digits start at a position, and where it ends. -/
def numbered (s : List UInt8) (base : Nat) (inBase : Char → Bool) (i : Nat) :
    Checked (Option (Char × Nat)) := do
  let rest ← from? s i
  let stop := i + (rest.takeWhile fun b => inBase (byteChar b)).length
  if stop = i then return none
  else
    let digits ← slice? s i stop
    return some (charOfNumber (value base (digits.map byteChar)),
      if byteAt? s stop = some ';' then stop + 1 else stop)

/-- The named reference that bytes start with, and where it ends. -/
def named (s : List UInt8) : Checked (Option (Char × Nat)) := do
  let stop := (s.takeWhile fun b => isAlphanumeric (byteChar b)).length
  if byteAt? s stop = some ';' then
    let name ← slice? s 0 stop
    return (namedReferences.lookup (String.ofList (name.map byteChar))).map fun c => (c, stop + 1)
  else return none

/-- The reference that bytes start with, and where it ends. -/
def reference (s : List UInt8) : Checked (Option (Char × Nat)) :=
  if byteAt? s 0 = some '#' then
    if byteAt? s 1 = some 'x' ∨ byteAt? s 1 = some 'X' then numbered s 16 isHexDigit 2
    else numbered s 10 isDigit 1
  else named s

/-- The bytes from a position on with their references replaced. -/
def decodeFrom (s : List UInt8) (k : Nat) : Checked (List UInt8) :=
  if k < s.length then do
    let b ← s[k]?
    if byteChar b = '&' then
      let rest ← from? s (k + 1)
      match ← reference rest with
      | some (c, len) =>
        let decoded ← decodeFrom s (k + 1 + len)
        return String.utf8EncodeChar c ++ decoded
      | none =>
        let decoded ← decodeFrom s (k + 1)
        return b :: decoded
    else
      let decoded ← decodeFrom s (k + 1)
      return b :: decoded
  else return []
termination_by s.length - k

/-- The bytes of a value with their references replaced. -/
def decode (s : List UInt8) : Checked (List UInt8) :=
  if s.any fun b => byteChar b == '&' then decodeFrom s 0 else return s

/-! ## Inside a value or a body -/

/-- Goes behind an ending of some bytes to a context, or stays to the end of the text. -/
def leave (c : Context) (s : List UInt8) (ending : Option Nat) (size : Nat) (next : Context) :
    Context × Nat :=
  match ending with
  | some k => (next, k + size)
  | none => (c, s.length)

/-- What a slash means behind code that ends in a byte. -/
def slashAfterLast (code : List UInt8) (last : Char) : Checked Slash := do
  if last = '+' ∨ last = '-' then
    let run := code.reverse.takeWhile fun b => byteChar b == last
    return if run.length % 2 = 1 then .regexp else .division
  else if last = '.' then
    if 2 ≤ code.length then
      let before ← byteAt? code (code.length - 2)
      return if isDigit before then .division else .regexp
    else return .regexp
  else if last ∈ expressionSigns then return .regexp
  else
    let word ← from? code (behindLast code fun x => !isScriptNamePart x)
    return if String.ofList (word.map byteChar) ∈ expressionWords then .regexp else .division

/-- What a slash means behind code. -/
def slashAfter (previous : Slash) (code : List UInt8) : Checked Slash := do
  let code ← slice? code 0 (behindLast code fun x => !isSpace x)
  match code.getLast? with
  | none => return previous
  | some last => slashAfterLast code (byteChar last)

/-- What the slash at a position of code opens. -/
def slashStep (c : Context) (s : List UInt8) (j : Nat) : Context × Nat :=
  if byteAt? s (j + 1) = some '/' then ({ c with state := .jsLineComment }, j + 2)
  else if byteAt? s (j + 1) = some '*' then ({ c with state := .jsBlockComment }, j + 2)
  else match c.slash with
    | .regexp => ({ c with state := .jsRegexp }, j + 1)
    | .division => ({ c with slash := .regexp }, j + 1)
    | .unknown => (.failed .slash, s.length)

/-- A step in code. -/
def codeStep (c : Context) (s : List UInt8) (i : Nat) : Checked (Context × Nat) := do
  match ← findByte s i startsScriptPart with
  | none =>
    let code ← from? s i
    let slash ← slashAfter c.slash code
    return ({ c with slash }, s.length)
  | some j =>
    let code ← slice? s i j
    let slash ← slashAfter c.slash code
    let opening ← byteAt? s j
    if opening = '"' then return ({ c with slash, state := .jsDoubleQuoted }, j + 1)
    else if opening = '\'' then return ({ c with slash, state := .jsSingleQuoted }, j + 1)
    else if opening = '\x60' then return ({ c with slash, state := .jsTemplate }, j + 1)
    else return slashStep { c with slash } s j

/-- Whether the bytes up to a position end with the word `url` and blanks. -/
def urlBefore (s : List UInt8) (k : Nat) : Checked Bool := do
  let before ← slice? s 0 k
  let word ← slice? before 0 (behindLast before fun x => !isSpace x)
  if word.length < 3 then return false
  else
    let start := word.length - 3
    let tail ← from? word start
    if (tail.map byteChar).map lower = ['u', 'r', 'l'] then
      if start = 0 then return true
      else
        let x ← byteAt? word (start - 1)
        return !isStyleNamePart x
    else return false

/-- The start of an address, behind the parenthesis at a position. -/
def addressStep (c : Context) (s : List UInt8) (k : Nat) : Checked (Context × Nat) := do
  let rest ← from? s (k + 1)
  let j := k + 1 + (rest.takeWhile fun b => isSpace (byteChar b)).length
  if byteAt? s j = some '"' then
    return ({ c with state := .cssDoubleQuotedUrl, urlPart := .none }, j + 1)
  else if byteAt? s j = some '\'' then
    return ({ c with state := .cssSingleQuotedUrl, urlPart := .none }, j + 1)
  else return ({ c with state := .cssUrl, urlPart := .none }, j)

/-- Whether an address opens at a position: with a parenthesis behind the word `url`. -/
def opensAddressAt (s : List UInt8) (k : Nat) (x : Char) : Checked Bool :=
  if x = '(' then urlBefore s k else return false

/-- A step in a rule. -/
def ruleStep (c : Context) (s : List UInt8) (k : Nat) : Checked (Context × Nat) :=
  if k < s.length then do
    let x ← byteAt? s k
    if ← opensAddressAt s k x then addressStep c s k
    else if x = '"' then return ({ c with state := .cssDoubleQuoted }, k + 1)
    else if x = '\'' then return ({ c with state := .cssSingleQuoted }, k + 1)
    else if x = '/' ∧ byteAt? s (k + 1) = some '*' then
      return ({ c with state := .cssComment }, k + 2)
    else ruleStep c s (k + 1)
  else return (c, s.length)
termination_by s.length - k

/-- A step in an address up to its closing character. -/
def addressEnd (c : Context) (close : Char) (s : List UInt8) (i : Nat) :
    Checked (Context × Nat) := do
  let ending ← findByte s i (· == close)
  let inside ← slice? s i (ending.getD s.length)
  let urlPart := c.urlPart.advance (inside.map byteChar)
  return leave { c with urlPart } s ending 1 { c with state := .css, urlPart := .none }

/-- A step inside a value or a body. -/
def innerStep (c : Context) (s : List UInt8) (i : Nat) : Checked (Context × Nat) :=
  match c.state with
  | .url => do
    let rest ← from? s i
    return ({ c with urlPart := c.urlPart.advance (rest.map byteChar) }, s.length)
  | .js => codeStep c s i
  | .jsDoubleQuoted => return leave c s (← findQuote s '"' i) 1 c.afterOperand
  | .jsSingleQuoted => return leave c s (← findQuote s '\'' i) 1 c.afterOperand
  | .jsTemplate => return leave c s (← findQuote s '\x60' i) 1 c.afterOperand
  | .jsRegexp => return leave c s (← findRegexpEnd s false i) 1 c.afterOperand
  | .jsLineComment => return leave c s (← findByte s i (· == '\n')) 1 { c with state := .js }
  | .jsBlockComment => return leave c s (← findPattern s i ['*', '/']) 2 { c with state := .js }
  | .css => ruleStep c s i
  | .cssDoubleQuoted => return leave c s (← findQuote s '"' i) 1 { c with state := .css }
  | .cssSingleQuoted => return leave c s (← findQuote s '\'' i) 1 { c with state := .css }
  | .cssDoubleQuotedUrl => addressEnd c '"' s i
  | .cssSingleQuotedUrl => addressEnd c '\'' s i
  | .cssUrl => addressEnd c ')' s i
  | .cssComment => return leave c s (← findPattern s i ['*', '/']) 2 { c with state := .css }
  | .text | .rcdata | .tagName | .tag | .attrName | .afterName | .beforeValue | .attr | .comment
  | .error => return (c, s.length)

/-! ## Every step inside takes a byte -/

variable {c d : Context} {j : Nat}

theorem le_of_findQuote {quote : Char} (h : findQuote s quote i = some (some k)) : i ≤ k := by
  fun_induction findQuote s quote i with
  | case1 i inside escaped onward =>
    obtain ⟨x, -, h⟩ := Option.bind_eq_some_iff.mp h
    split at h
    · have := escaped h
      omega
    split at h
    · cases h
      exact Nat.le_refl _
    · have := onward h
      omega
  | case2 => cases h

theorem le_of_findRegexpEnd {inClass : Bool} (h : findRegexpEnd s inClass i = some (some k)) :
    i ≤ k := by
  fun_induction findRegexpEnd s inClass i with
  | case1 inClass i inside escaped opened closed onward =>
    obtain ⟨x, -, h⟩ := Option.bind_eq_some_iff.mp h
    split at h
    · have := escaped h
      omega
    split at h
    · have := opened h
      omega
    split at h
    · have := closed h
      omega
    split at h
    · cases h
      exact Nat.le_refl _
    · have := onward h
      omega
  | case2 => cases h

/-- A step that goes behind what a search finds, or stays to the end of the text. -/
theorem lt_of_leave {search : Checked (Option Nat)} {size : Nat} {next : Context}
    (inside : i < s.length) (positive : 0 < size) (le : ∀ k, search = some (some k) → i ≤ k)
    (h : (do return leave c s (← search) size next) = some (d, j)) : i < j := by
  obtain ⟨found, hfound, h⟩ := Option.bind_eq_some_iff.mp h
  cases found with
  | none =>
    cases h
    exact inside
  | some k =>
    have := le k hfound
    cases h
    omega

theorem lt_of_slashStep (inside : i < s.length) (h : slashStep c s k = (d, j)) (le : i ≤ k) :
    i < j := by
  unfold slashStep at h
  repeat' split at h
  all_goals
    cases h
    omega

theorem lt_of_codeStep (inside : i < s.length) (h : codeStep c s i = some (d, j)) : i < j := by
  obtain ⟨found, hfound, h⟩ := Option.bind_eq_some_iff.mp h
  cases found with
  | none =>
    obtain ⟨code, -, h⟩ := Option.bind_eq_some_iff.mp h
    obtain ⟨slash, -, h⟩ := Option.bind_eq_some_iff.mp h
    cases h
    exact inside
  | some k =>
    have le := (findByte_range hfound).1
    obtain ⟨code, -, h⟩ := Option.bind_eq_some_iff.mp h
    obtain ⟨slash, -, h⟩ := Option.bind_eq_some_iff.mp h
    obtain ⟨opening, -, h⟩ := Option.bind_eq_some_iff.mp h
    repeat' split at h
    case isFalse => exact lt_of_slashStep inside (Option.some.inj h) le
    all_goals
      cases h
      omega

theorem lt_of_addressStep (h : addressStep c s k = some (d, j)) : k < j := by
  obtain ⟨rest, -, h⟩ := Option.bind_eq_some_iff.mp h
  dsimp only at h
  split at h
  · cases h
    omega
  split at h
  · cases h
    omega
  · cases h
    omega

theorem lt_of_ruleStep (inside : i < s.length) (h : ruleStep c s i = some (d, j)) : i < j := by
  fun_induction ruleStep c s i with
  | case1 i _ ih =>
    obtain ⟨x, -, h⟩ := Option.bind_eq_some_iff.mp h
    obtain ⟨opens, -, h⟩ := Option.bind_eq_some_iff.mp h
    split at h
    · exact lt_of_addressStep h
    split at h
    · cases h
      omega
    split at h
    · cases h
      omega
    split at h
    · cases h
      omega
    by_cases further : i + 1 < s.length
    · have := ih further h
      omega
    · rw [ruleStep, if_neg further] at h
      cases h
      exact inside
  | case2 _ outside => exact absurd inside outside

theorem lt_of_addressEnd {close : Char} (inside : i < s.length)
    (h : addressEnd c close s i = some (d, j)) : i < j := by
  obtain ⟨found, hfound, h⟩ := Option.bind_eq_some_iff.mp h
  obtain ⟨address, -, h⟩ := Option.bind_eq_some_iff.mp h
  cases found with
  | none =>
    cases h
    exact inside
  | some k =>
    have := (findByte_range hfound).1
    cases h
    omega

/-- Every step inside a value or a body takes a byte. -/
theorem lt_of_innerStep (inside : i < s.length) (h : innerStep c s i = some (d, j)) : i < j := by
  have byte {p : Char → Bool} : ∀ k, findByte s i p = some (some k) → i ≤ k :=
    fun _ h => (findByte_range h).1
  have pair {pattern : List Char} : ∀ k, findPattern s i pattern = some (some k) → i ≤ k :=
    fun _ h => (findPattern_range h).1
  unfold innerStep at h
  split at h
  case h_1 =>
    obtain ⟨rest, -, h⟩ := Option.bind_eq_some_iff.mp h
    cases h
    exact inside
  case h_2 => exact lt_of_codeStep inside h
  case h_3 | h_4 | h_5 | h_10 | h_11 =>
    exact lt_of_leave inside (by decide) (fun _ => le_of_findQuote) h
  case h_6 => exact lt_of_leave inside (by decide) (fun _ => le_of_findRegexpEnd) h
  case h_7 => exact lt_of_leave inside (by decide) byte h
  case h_8 | h_15 => exact lt_of_leave inside (by decide) pair h
  case h_9 => exact lt_of_ruleStep inside h
  case h_12 | h_13 | h_14 => exact lt_of_addressEnd inside h
  all_goals
    cases h
    exact inside

/-- Steps inside a value or a body, for as long as bytes are left and nothing has failed. -/
def innerLoop (s : List UInt8) (c : Context) (i : Nat) : Checked Context :=
  if i < s.length ∧ c.isError = false then
    match _next : innerStep c s i with
    | none => none
    | some next => innerLoop s next.1 next.2
  else some c
termination_by s.length - i
decreasing_by
  have := lt_of_innerStep (by omega) _next
  omega

/-- The context behind bytes inside a value or a body. -/
def advanceInner (c : Context) (s : List UInt8) : Checked Context := innerLoop s c 0

/-! ## Steps of a scan -/

/-- The characters that bytes spell. -/
def chars? (s : List UInt8) : Checked (List Char) :=
  (String.fromUTF8? s.toByteArray).map String.toList

/-- A step in a value. -/
def valueStep (c : Context) (s : List UInt8) (i : Nat) : Checked (Context × Nat) := do
  let ending ← findByte s i c.delim.ends
  let raw ← slice? s i (ending.getD s.length)
  let value ← decode raw
  let inner ← advanceInner c value
  match ending with
  | none => return (inner, s.length)
  | some k => return (inner.leaveAttr, if inner.delim = .spaceOrTagEnd then k else k + 1)

/-- A step in the body of an element. -/
def bodyStep (c : Context) (s : List UInt8) (i : Nat) : Checked (Context × Nat) := do
  let name := c.element.name.toList
  let ending ← findEndTag s name i
  let inside ← slice? s i (ending.getD s.length)
  let inner ← advanceInner c inside
  return leave inner s ending (2 + name.length) Context.endTagOpened

/-- The tag whose name starts at a position, if a name starts there. -/
def nameAt (c : Context) (endTag : Bool) (s : List UInt8) (name : Nat) : Option (Context × Nat) :=
  match byteAt? s name with
  | none => some (c.startTag endTag, s.length)
  | some x => if isLetter x then some (c.startTag endTag, name) else none

/-- What the less-than sign at a position opens, and the position that it leads to. -/
def openedAt (c : Context) (s : List UInt8) (lt : Nat) : Checked (Option (Context × Nat)) := do
  let opened ← from? s lt
  if startsWith ['<', '!', '-', '-'] opened then return some ({ c with state := .comment }, lt + 4)
  else if byteAt? s (lt + 1) = some '/' then return nameAt c true s (lt + 2)
  else return nameAt c false s (lt + 1)

/-- A step in the text of a document. -/
def textStep (c : Context) (s : List UInt8) (k : Nat) : Checked (Context × Nat) :=
  match _found : findByte s k (· == '<') with
  | none => none
  | some none => some (c, s.length)
  | some (some lt) => do
    match ← openedAt c s lt with
    | some next => return next
    | none => textStep c s (lt + 1)
termination_by s.length - k
decreasing_by
  have := findByte_range _found
  omega

/-- A step in the name of a tag. -/
def tagNameStep (c : Context) (s : List UInt8) (i : Nat) : Checked (Context × Nat) := do
  let rest ← from? s i
  let stop := i + (rest.takeWhile fun b => isTagNamePart (byteChar b)).length
  let name ← chars? (← slice? s i stop)
  let c := c.extendName name
  if stop = s.length then return (c, stop)
  else
    let element := if c.endTag then .none else Element.ofName c.pendingName
    return ({ c with element, pendingName := "", state := .tag }, stop)

/-- A step between attributes. -/
def tagStep (c : Context) (s : List UInt8) (i : Nat) : Checked (Context × Nat) := do
  let rest ← from? s i
  let k := i + (rest.takeWhile fun b => isTagFiller (byteChar b)).length
  match byteAt? s k with
  | none => return (c, k)
  | some x =>
    if x = '>' then return (c.closeTag, k + 1)
    else return ({ c with state := .attrName, pendingName := "" }, k)

/-- A step in the name of an attribute. -/
def attrNameStep (c : Context) (s : List UInt8) (i : Nat) : Checked (Context × Nat) := do
  let rest ← from? s i
  let stop := i + (rest.takeWhile fun b => isAttrNamePart (byteChar b)).length
  let name ← chars? (← slice? s i stop)
  let c := c.extendName name
  if stop = s.length then return (c, stop)
  else
    let attr := AttrKind.ofName c.pendingName
    return ({ c with attr, pendingName := "", state := .afterName }, stop)

/-- A step behind the name of an attribute. -/
def afterNameStep (c : Context) (s : List UInt8) (i : Nat) : Checked (Context × Nat) := do
  let rest ← from? s i
  let k := i + (rest.takeWhile fun b => isSpace (byteChar b)).length
  match byteAt? s k with
  | none => return (c, k)
  | some x =>
    if x = '=' then return ({ c with state := .beforeValue }, k + 1)
    else return ({ c with state := .tag, attr := .none }, k)

/-- A step before the value of an attribute. -/
def beforeValueStep (c : Context) (s : List UInt8) (i : Nat) : Checked (Context × Nat) := do
  let rest ← from? s i
  let k := i + (rest.takeWhile fun b => isSpace (byteChar b)).length
  match byteAt? s k with
  | none => return (c, k)
  | some x =>
    if x = '>' then return ({ c with state := .tag, attr := .none }, k)
    else if x = '"' then return (c.enterValue .doubleQuote, k + 1)
    else if x = '\'' then return (c.enterValue .singleQuote, k + 1)
    else return (c.enterValue .spaceOrTagEnd, k)

/-- A step in a comment. -/
def commentStep (c : Context) (s : List UInt8) (i : Nat) : Checked (Context × Nat) :=
  return leave c s (← findPattern s i ['-', '-', '>']) 3 { c with state := .text }

/-- One step: the context behind it, and the position that it comes to. -/
def step (c : Context) (s : List UInt8) (i : Nat) : Checked (Context × Nat) :=
  if c.delim ≠ .none then valueStep c s i
  else if c.inElementBody then bodyStep c s i
  else match c.state with
    | .text => textStep c s i
    | .tagName => tagNameStep c s i
    | .tag => tagStep c s i
    | .attrName => attrNameStep c s i
    | .afterName => afterNameStep c s i
    | .beforeValue => beforeValueStep c s i
    | .comment => commentStep c s i
    | _ => do
      let rest ← from? s i
      let inner ← advanceInner c rest
      return (inner, s.length)

/-- After `n` calls of a step from a context on, the loop over some bytes is at a context and a
position. -/
inductive Calls (step : Context → List UInt8 → Nat → Checked (Context × Nat)) (s : List UInt8)
    (c : Context) : Nat → Context → Nat → Prop where
  | start : Calls step s c 0 c 0
  | next {n i j : Nat} {d e : Context} : Calls step s c n d i → i < s.length →
      d.isError = false → step d s i = some (e, j) → Calls step s c (n + 1) e j

end Stencil.Markup.Indexed
