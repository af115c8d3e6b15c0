import Mathlib.Computability.RegularExpressions
import Stencil.Proofs.Escape.Spelled
import Stencil.Proofs.Numeral.Reading
import Stencil.Template.Literal

/-!
# Texts of scripts read back

A script reads the inside of a string and of a regular expression by almost the same rules: a
backslash and a letter, or a backslash with four digits behind a `u`, stand for one character
(`Dialect.read?`). They differ in the characters that may stand there by themselves and in those
that a backslash makes plain: the signs of a regular expression are neither plain nor escaped in a
string, and are never plain in a regular expression.

The rules that write such texts are read back, one character at a time, whatever stands around it
(`Dialect.read?_spelled`). So a string holds the text that was written, and a
regular expression matches that text and no other (`scriptText_readsBack`).
-/

set_option autoImplicit false

namespace Stencil.Escape

open Stencil.Text

/-! ## The reader -/

/-- What may stand in a text of a script. -/
structure Dialect where
  /-- The characters that stand for themselves. -/
  plain : Char → Bool
  /-- The characters that stand for themselves behind a backslash. -/
  escaped : Char → Bool

namespace Dialect

/-- The character that a backslash and one more character stand for. -/
def letter? (n : Dialect) (c : Char) : Option Char :=
  match c with
  | 'n' => some '\n'
  | 'r' => some '\r'
  | 't' => some '\t'
  | 'f' => some '\x0c'
  | c => if n.escaped c then some c else none

/-- The characters that a text stands for; none if a character or a backslash in it means something
else. -/
def read? (n : Dialect) : List Char → Option (List Char)
  | [] => some []
  | '\\' :: 'u' :: a :: b :: c :: d :: rest => do
    let x ← Literal.hexChar? 4 [a, b, c, d]
    (n.read? rest).map (x :: ·)
  | '\\' :: letter :: rest => do
    let x ← n.letter? letter
    (n.read? rest).map (x :: ·)
  | x :: rest => if x ≠ '\\' ∧ n.plain x then (n.read? rest).map (x :: ·) else none

/-- The inside of a string. -/
def string : Dialect where
  plain _ := true
  escaped c := c == '\\' || c == '/'

/-- The inside of a regular expression that holds nothing but characters to match. -/
def regexp : Dialect where
  plain c := !isRegexpSign c && c != '/'
  escaped c := isRegexpSign c || c == '\\' || c == '/'

variable (n : Dialect) {c x : Char} {rest : List Char}

theorem read?_plain (hc : c ≠ '\\') (h : n.plain c = true) (rest : List Char) :
    n.read? (c :: rest) = (n.read? rest).map (c :: ·) := by
  rw [read?]
  · exact if_pos ⟨hc, h⟩
  · rintro a b c d rest rfl
    exact absurd rfl hc
  · rintro letter rest rfl
    exact absurd rfl hc

theorem read?_letter (hc : c ≠ 'u') (h : n.letter? c = some x) (rest : List Char) :
    n.read? ('\\' :: c :: rest) = (n.read? rest).map (x :: ·) := by
  rw [read?]
  · rw [h]
    rfl
  · rintro a b c d rest rfl
    exact absurd rfl hc

theorem read?_unit {cs : List Char} (h : cs.length = 4) (hx : Literal.hexChar? 4 cs = some x)
    (rest : List Char) : n.read? ('\\' :: 'u' :: cs ++ rest) = (n.read? rest).map (x :: ·) := by
  match cs, h with
  | [a, b, c, d], _ =>
    change n.read? ('\\' :: 'u' :: a :: b :: c :: d :: rest) = _
    rw [read?, hx]
    rfl

/-- A character of sixteen bits reads back from its numbered escape. -/
theorem read?_unitEscape (h : c.toNat < 0x10000) (rest : List Char) :
    n.read? (unitEscape c ++ rest) = (n.read? rest).map (c :: ·) := by
  obtain ⟨a, b, d, e, heq, digits, back⟩ := Numeral.exists_hexadecimal_eq h
  have denoted : Literal.hexChar? 4 [a, b, d, e] = some c := by
    rw [Literal.hexChar?]
    simp only [List.take_succ_cons, List.take_zero, back]
    rw [if_pos ⟨rfl, digits, c.valid⟩, Char.ofNat_toNat]
  rw [unitEscape, heq]
  exact n.read?_unit rfl denoted rest

/-- A character reads back, however it is spelled, if the letters and the plain characters are of
the dialect. -/
theorem read?_spelled {letters : Char → Char → Prop} {plain : Char → Bool} {w : List Char}
    (h : Spelled letters plain c w) (hletters : ∀ x, letters x c → x ≠ 'u' ∧ n.letter? x = some c)
    (hplain : plain c = true → c ≠ '\\' ∧ n.plain c = true) (rest : List Char) :
    n.read? (w ++ rest) = (n.read? rest).map (c :: ·) := by
  cases h with
  | letter hx => exact n.read?_letter (hletters _ hx).1 (hletters _ hx).2 rest
  | unit low => exact n.read?_unitEscape low rest
  | self hc => exact n.read?_plain (hplain hc).1 (hplain hc).2 rest

/-- What stands behind a backslash in a string is a letter of every dialect with the two signs. -/
theorem letter?_of_stringLetter (hslash : n.escaped '/' = true) (hback : n.escaped '\\' = true)
    (h : StringLetter x c) : x ≠ 'u' ∧ n.letter? x = some c := by
  cases h with
  | slash => exact ⟨by decide, if_pos hslash⟩
  | backslash => exact ⟨by decide, if_pos hback⟩
  | _ => exact ⟨by decide, rfl⟩

/-- What reads back one character at a time reads back as a whole. -/
theorem read?_flatMap {rule : Char → List Char}
    (h : ∀ c rest, n.read? (rule c ++ rest) = (n.read? rest).map (c :: ·)) (cs : List Char) :
    n.read? (cs.flatMap rule) = some cs := by
  induction cs with
  | nil => rfl
  | cons c cs ih =>
    rw [List.flatMap_cons, h, ih]
    rfl

end Dialect

open Dialect (string regexp)

theorem read?_jsString (cs : List Char) : string.read? (jsString cs) = some cs := by
  refine string.read?_flatMap (fun c => string.read?_spelled (spelled_jsChar c) ?_ ?_) cs
  · exact fun x => string.letter?_of_stringLetter rfl rfl
  · intro hc
    simp only [isStringPlain, Bool.and_eq_true, bne_iff_ne] at hc
    exact ⟨hc.2, rfl⟩

/-- In a regular expression, a sign stands behind a backslash. -/
theorem read?_jsRegexpChar (c : Char) (rest : List Char) :
    regexp.read? (jsRegexpChar c ++ rest) = (regexp.read? rest).map (c :: ·) := by
  refine regexp.read?_spelled (spelled_jsRegexpChar c) ?_ ?_ rest
  · rintro x (letter | ⟨rfl, sign⟩)
    · exact regexp.letter?_of_stringLetter rfl rfl letter
    · exact prop_of_mem (List.contains_iff_mem.mp sign) (by decide)
  · intro hc
    simp only [isRegexpPlain, isStringPlain, Bool.and_eq_true, bne_iff_ne] at hc
    obtain ⟨⟨⟨-, hslash⟩, hback⟩, sign⟩ := hc
    exact ⟨hback, by simp [regexp, hslash, sign]⟩

theorem read?_jsRegexp {cs : List Char} (h : cs ≠ []) : regexp.read? (jsRegexp cs) = some cs := by
  rw [jsRegexp, if_neg h]
  exact regexp.read?_flatMap read?_jsRegexpChar cs

/-! ## What a regular expression matches -/

/-- The expression that a text stands for, if it holds nothing but characters to match: these, one
after the other. -/
def pattern? (cs : List Char) : Option (RegularExpression Char) :=
  (regexp.read? cs).map fun text => (text.map RegularExpression.char).prod

/-- A sequence of characters matches itself alone. -/
theorem mem_matches_prod {cs text : List Char} :
    text ∈ ((cs.map RegularExpression.char).prod).matches' ↔ text = cs := by
  induction cs generalizing text with
  | nil => exact Language.mem_one text
  | cons c cs ih =>
    rw [List.map_cons, List.prod_cons, RegularExpression.matches'_mul, Language.mem_mul]
    constructor
    · rintro ⟨first, hfirst, rest, hrest, rfl⟩
      rw [RegularExpression.matches'_char] at hfirst
      rw [ih.mp hrest, Set.mem_singleton_iff.mp hfirst]
      rfl
    · rintro rfl
      exact ⟨[c], rfl, cs, ih.mpr rfl, rfl⟩

/-- **Texts of scripts read back.** A string is written without the signs that could end it or mean
something in the markup around it, every backslash in it starts an escape, and the text that its
escapes and other characters stand for is the one that was written. A regular expression for a text
that is not empty has no sign and no slash but behind a backslash, stands for the text as well, and
so matches this text and nothing else. -/
theorem scriptText_readsBack (cs : List Char) :
    ((∀ x ∈ jsString cs, 0x20 ≤ x.toNat ∧
        x ∉ ['"', '\'', '\x60', '<', '>', '&', '$', '=', '+', '\u2028', '\u2029']) ∧
      string.read? (jsString cs) = some cs) ∧
    (cs ≠ [] → regexp.read? (jsRegexp cs) = some cs ∧
      ∃ e, pattern? (jsRegexp cs) = some e ∧ ∀ text, text ∈ e.matches' ↔ text = cs) := by
  refine ⟨⟨fun x hx => ?_, read?_jsString cs⟩, fun hne => ⟨read?_jsRegexp hne, ?_⟩⟩
  · have outside := isScriptSign_of_mem_jsString hx
    refine ⟨(isJsonSign_of_isScriptSign outside).1, fun hmem => ?_⟩
    have sign : isScriptSign x = true := prop_of_mem hmem (by decide)
    rw [outside] at sign
    cases sign
  · refine ⟨(cs.map RegularExpression.char).prod, ?_, fun text => mem_matches_prod⟩
    rw [pattern?, read?_jsRegexp hne]
    rfl

/-- A text that looks escaped, with digits behind a control and with signs of both grammars. -/
theorem scriptText_readsBack_escapedAlready :
    let cs := "\\\\n\\u0041\x0141/$.\u2028".toList
    ('\\' ∈ jsString cs ∧
      '\\' ∉ ['"', '\'', '\x60', '<', '>', '&', '$', '=', '+', '\u2028', '\u2029']) ∧
    string.read? "\\\\\\\\n\\\\u0041\\u000141\\/\\u0024.\\u2028".toList = some cs ∧
    cs ≠ [] ∧
    regexp.read? "\\\\\\\\n\\\\u0041\\u000141\\/\\$\\.\\u2028".toList = some cs ∧
    ∃ e, pattern? (jsRegexp cs) = some e ∧ cs ∈ e.matches' ∧ "n".toList ∉ e.matches' := by
  intro cs
  have asString : jsString cs = "\\\\\\\\n\\\\u0041\\u000141\\/\\u0024.\\u2028".toList := by
    decide +kernel
  have asRegexp : jsRegexp cs = "\\\\\\\\n\\\\u0041\\u000141\\/\\$\\.\\u2028".toList := by
    decide +kernel
  have held : '\\' ∈ jsString cs := by decide +kernel
  have nonempty : cs ≠ [] := by decide +kernel
  obtain ⟨⟨signs, text⟩, pattern⟩ := scriptText_readsBack cs
  obtain ⟨read, e, he, matched⟩ := pattern nonempty
  rw [asString] at text
  rw [asRegexp] at read
  refine ⟨⟨held, (signs _ held).2⟩, text, nonempty, read, e, he, (matched cs).mpr rfl, fun h => ?_⟩
  exact absurd ((matched _).mp h) (by decide +kernel)

end Stencil.Escape
