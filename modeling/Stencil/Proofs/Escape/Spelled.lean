import Stencil.Proofs.Escape.Signs

/-!
# Characters of scripts

The rules for the insides of strings and regular expressions write a character in one of three ways:
by a letter or a sign behind a backslash, by its number, or as it is (`Spelled`). They differ in
what stands behind the backslash and in the characters that stand for themselves. Who scans or reads
what they write needs to know no more than that.

A string of a JSON text in a document goes through two rules, and the two together are of this form
(`spelled_escapeChar`): what the first one writes for a character is left alone by the second, or is
the character itself.
-/

set_option autoImplicit false

namespace Stencil.Escape

open Stencil.Text

variable {c : Char} {cs : List Char}

/-- The ways to write a character, given what stands for it behind a backslash and the characters
that stand for themselves. -/
inductive Spelled (letters : Char → Char → Prop) (plain : Char → Bool) (c : Char) :
    List Char → Prop where
  /-- By a letter or a sign behind a backslash. -/
  | letter {x : Char} : letters x c → Spelled letters plain c ['\\', x]
  /-- By its number. -/
  | unit : c.toNat < 0x10000 → Spelled letters plain c (unitEscape c)
  /-- As it is. -/
  | self : plain c = true → Spelled letters plain c [c]

/-- Leaving more characters as they are, or more to a backslash, leaves a spelling what it is. -/
theorem Spelled.mono {letters letters' : Char → Char → Prop} {plain plain' : Char → Bool}
    {w : List Char} (h : Spelled letters plain c w) (hletters : ∀ x, letters x c → letters' x c)
    (hplain : plain c = true → plain' c = true) : Spelled letters' plain' c w := by
  cases h with
  | letter hx => exact .letter (hletters _ hx)
  | unit low => exact .unit low
  | self hc => exact .self (hplain hc)

/-! ## Strings and regular expressions -/

/-- What stands for a character behind a backslash in a string. -/
inductive StringLetter : Char → Char → Prop where
  | tab : StringLetter 't' '\t'
  | lineFeed : StringLetter 'n' '\n'
  | formFeed : StringLetter 'f' '\x0c'
  | carriageReturn : StringLetter 'r' '\r'
  | slash : StringLetter '/' '/'
  | backslash : StringLetter '\\' '\\'

/-- The characters of a string that stand for themselves. -/
def isStringPlain (c : Char) : Bool :=
  !isScriptSign c && c != '/' && c != '\\'

theorem toNat_lt_of_isScriptSign (h : isScriptSign c = true) : c.toNat < 0x10000 := by
  rw [isScriptSign, Bool.or_eq_true, decide_eq_true_eq] at h
  rcases h with low | sign
  · omega
  · exact prop_of_mem (List.contains_iff_mem.mp sign) (by decide)

theorem spelled_jsChar (c : Char) : Spelled StringLetter isStringPlain c (jsChar c) := by
  unfold jsChar
  split
  case h_7 hslash hback =>
    split
    · next sign => exact .unit (toNat_lt_of_isScriptSign sign)
    · next sign =>
      have outside : isScriptSign c = false := Bool.eq_false_iff.mpr sign
      have others : c ≠ '/' ∧ c ≠ '\\' := ⟨hslash, hback⟩
      exact .self (by simp [isStringPlain, outside, others])
  all_goals exact .letter (by constructor)

/-- In a regular expression, its signs stand for themselves behind a backslash as well. -/
def RegexpLetter (x c : Char) : Prop :=
  StringLetter x c ∨ x = c ∧ isRegexpSign c = true

/-- The characters of a regular expression that stand for themselves. -/
def isRegexpPlain (c : Char) : Bool :=
  isStringPlain c && !isRegexpSign c

theorem spelled_jsRegexpChar (c : Char) :
    Spelled RegexpLetter isRegexpPlain c (jsRegexpChar c) := by
  unfold jsRegexpChar
  split
  · next sign => exact .letter (.inr ⟨rfl, sign⟩)
  · next sign =>
    apply (spelled_jsChar c).mono
    · exact fun x => .inl
    · intro plain
      simp [isRegexpPlain, plain, sign]

/-! ## Strings of JSON texts in a document -/

/-- A text without the signs of markup is written in a document as it is. -/
theorem flatMap_jsonChar_of_forall (h : ∀ x ∈ cs, jsonChar x = [x]) : cs.flatMap jsonChar = cs := by
  induction cs with
  | nil => rfl
  | cons x xs ih =>
    obtain ⟨hx, hxs⟩ := List.forall_mem_cons.mp h
    rw [List.flatMap_cons, hx, ih hxs]
    rfl

/-- What stands for a character behind a backslash in a string of a JSON text. -/
inductive JsonLetter : Char → Char → Prop where
  | quote : JsonLetter '"' '"'
  | backslash : JsonLetter '\\' '\\'
  | backspace : JsonLetter 'b' '\x08'
  | formFeed : JsonLetter 'f' '\x0c'
  | lineFeed : JsonLetter 'n' '\n'
  | carriageReturn : JsonLetter 'r' '\r'
  | tab : JsonLetter 't' '\t'

/-- The characters of a string of a JSON text that stand for themselves. -/
def isJsonPlain (c : Char) : Bool :=
  0x20 ≤ c.toNat && c != '"' && c != '\\'

theorem spelled_escapeChar (c : Char) :
    Spelled JsonLetter isJsonPlain c ((Json.escapeChar c).flatMap jsonChar) := by
  unfold Json.escapeChar
  split
  case h_8 hquote hback _ _ _ _ _ =>
    split
    · next low =>
      have kept : (unitEscape c).flatMap jsonChar = unitEscape c :=
        flatMap_jsonChar_of_forall fun x hx => prop_of_mem (unitEscape_subset c hx) (by decide)
      change Spelled JsonLetter isJsonPlain c ((unitEscape c).flatMap jsonChar)
      rw [kept]
      exact .unit (by omega)
    · next high =>
      rw [List.flatMap_singleton, jsonChar]
      split
      · next sign => exact .unit (prop_of_mem (List.contains_iff_mem.mp sign) (by decide))
      · have others : c ≠ '"' ∧ c ≠ '\\' := ⟨hquote, hback⟩
        exact .self (by simp [isJsonPlain, others, Nat.le_of_not_lt high])
  all_goals exact .letter (by constructor)

theorem flatMap_jsonChar_quote (cs : List Char) : (Json.quote cs).flatMap jsonChar =
    '"' :: (cs.flatMap (fun c => (Json.escapeChar c).flatMap jsonChar) ++ ['"']) := by
  have same : jsonChar '"' = ['"'] := by decide
  rw [Json.quote, List.cons_append, List.flatMap_cons, List.flatMap_append, List.flatMap_singleton,
    same, List.flatMap_assoc]
  rfl

end Stencil.Escape
