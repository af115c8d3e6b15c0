import Stencil.Proofs.Numeral.Reading
import Stencil.Proofs.Template.Segments

/-!
# Strings written as literals

Between double quotes a string can be written in many ways: a character stands for itself, or is
written by its short escape, or by its number with two or four digits in base sixteen
(`Literal.Spells`). However each of its characters is written, the literal is read as the string,
and so is the string itself between backquotes if it holds none (`tokenize_literal`).

The law is one of a single character. A spelling is read as its character whatever stands behind it
(`Literal.quoted_spells`), so digits behind an escape are never part of it, and a quote that is
written by an escape never ends the literal.
-/

set_option autoImplicit false

namespace Stencil

namespace Literal

open Stencil.Text Stencil.Numeral

/-! ## Spellings -/

/-- The letter of the short escape of a character. -/
inductive ShortEscape : Char → Char → Prop where
  | lineFeed : ShortEscape '\n' 'n'
  | tab : ShortEscape '\t' 't'
  | carriageReturn : ShortEscape '\r' 'r'
  | null : ShortEscape '\x00' '0'
  | backslash : ShortEscape '\\' '\\'
  | doubleQuote : ShortEscape '"' '"'
  | singleQuote : ShortEscape '\'' '\''

/-- The numeral of a number in base sixteen, filled up with zeros to a width, with each letter in
either case. -/
def IsHexadecimal (width n : Nat) (digits : List Char) : Prop :=
  digits.map lower = hexadecimal width n

/-- How a character can be written between double quotes. -/
inductive Spells (c : Char) : List Char → Prop where
  | plain : c ≠ '"' → c ≠ '\\' → c ≠ '\n' → Spells c [c]
  | short {letter : Char} : ShortEscape c letter → Spells c ['\\', letter]
  | ascii {digits : List Char} : c.toNat < 128 → IsHexadecimal 2 c.toNat digits →
      Spells c ('\\' :: 'x' :: digits)
  | unit {digits : List Char} : c.toNat < 0x10000 → IsHexadecimal 4 c.toNat digits →
      Spells c ('\\' :: 'u' :: digits)

/-- Every character can be written: those that cannot stand for themselves have short escapes. -/
theorem exists_spells (c : Char) : ∃ w, Spells c w := by
  by_cases hquote : c = '"'
  · subst hquote
    exact ⟨_, .short .doubleQuote⟩
  by_cases hback : c = '\\'
  · subst hback
    exact ⟨_, .short .backslash⟩
  by_cases hline : c = '\n'
  · subst hline
    exact ⟨_, .short .lineFeed⟩
  exact ⟨[c], .plain hquote hback hline⟩

theorem exists_forall₂_spells (cs : List Char) : ∃ parts, List.Forall₂ Spells cs parts := by
  induction cs with
  | nil => exact ⟨[], .nil⟩
  | cons c cs ih =>
    obtain ⟨w, hw⟩ := exists_spells c
    obtain ⟨parts, hparts⟩ := ih
    exact ⟨w :: parts, .cons hw hparts⟩

/-! ## Escapes -/

/-- Digits are read as the character whose number they are, whatever follows. -/
theorem hexChar?_of_isHexadecimal {c : Char} {width : Nat} {digits : List Char}
    (h : IsHexadecimal (width + 1) c.toNat digits) (fits : c.toNat < 16 ^ (width + 1))
    (rest : List Char) :
    digits.length = width + 1 ∧ hexChar? (width + 1) (digits ++ rest) = some c := by
  have length : digits.length = width + 1 := by
    rw [← length_hexadecimal fits, ← h, List.length_map]
  have number : value 16 digits = c.toNat := by
    rw [← value_lower, h, value_hexadecimal]
  have hex : digits.all isHexDigit = true := by
    refine List.all_eq_true.mpr fun d hd => ?_
    rw [← isHexDigit_lower]
    exact isHexDigit_of_mem_hexadecimal (h ▸ List.mem_map_of_mem hd)
  refine ⟨length, ?_⟩
  rw [hexChar?, List.take_left' length, number, if_pos ⟨length, hex, c.valid⟩, Char.ofNat_toNat]

theorem escape?_shortEscape {c letter : Char} (h : ShortEscape c letter) (rest : List Char) :
    escape? letter rest = some (c, 0) := by
  cases h <;> rfl

theorem escape?_ascii {c : Char} {digits : List Char} (low : c.toNat < 128)
    (h : IsHexadecimal 2 c.toNat digits) (rest : List Char) :
    digits.length = 2 ∧ escape? 'x' (digits ++ rest) = some (c, 2) := by
  obtain ⟨length, hchar⟩ := hexChar?_of_isHexadecimal h (by omega) rest
  refine ⟨length, ?_⟩
  rw [escape?, hchar, Option.bind_some, if_pos low]

theorem escape?_unit {c : Char} {digits : List Char} (low : c.toNat < 0x10000)
    (h : IsHexadecimal 4 c.toNat digits) (rest : List Char) :
    digits.length = 4 ∧ escape? 'u' (digits ++ rest) = some (c, 4) := by
  obtain ⟨length, hchar⟩ := hexChar?_of_isHexadecimal h (by omega) rest
  refine ⟨length, ?_⟩
  rw [escape?, hchar, Option.map_some]

/-! ## Strings -/

theorem quoted_plain {c : Char} (hquote : c ≠ '"') (hback : c ≠ '\\') (hline : c ≠ '\n')
    (taken : Nat) (rest : List Char) :
    quoted taken (c :: rest) = (quoted (taken + 1) rest).map fun r => (c :: r.1, r.2) := by
  rw [quoted]
  · cases quoted (taken + 1) rest <;> rfl
  · exact hquote
  · exact hline
  · exact fun hc _ => hback hc
  · exact fun _ _ hc _ => hback hc

theorem quoted_escape {letter c : Char} {more : Nat} {rest : List Char}
    (h : escape? letter rest = some (c, more)) (taken : Nat) :
    quoted taken ('\\' :: letter :: rest) =
      (quoted (taken + 2 + more) (rest.drop more)).map fun r => (c :: r.1, r.2) := by
  rw [quoted, h]
  dsimp only
  cases quoted (taken + 2 + more) (rest.drop more) <;> rfl

/-- A spelling is read as its character, whatever follows. -/
theorem quoted_spells {c : Char} {w : List Char} (h : Spells c w) (taken : Nat)
    (rest : List Char) :
    quoted taken (w ++ rest) =
      (quoted (taken + w.length) rest).map fun r => (c :: r.1, r.2) := by
  cases h with
  | plain hquote hback hline => exact quoted_plain hquote hback hline taken rest
  | short hletter => exact quoted_escape (escape?_shortEscape hletter rest) taken
  | ascii low hdigits =>
    obtain ⟨length, hescape⟩ := escape?_ascii low hdigits rest
    have read := quoted_escape hescape taken
    rw [List.drop_left' length, Nat.add_assoc] at read
    rw [List.length_cons, List.length_cons, length]
    exact read
  | unit low hdigits =>
    obtain ⟨length, hescape⟩ := escape?_unit low hdigits rest
    have read := quoted_escape hescape taken
    rw [List.drop_left' length, Nat.add_assoc] at read
    rw [List.length_cons, List.length_cons, length]
    exact read

/-- Spellings one behind the other are read as their characters, up to the closing quote. -/
theorem quoted_flatten {cs : List Char} {parts : List (List Char)}
    (h : List.Forall₂ Spells cs parts) (taken : Nat) (rest : List Char) :
    quoted taken (parts.flatten ++ '"' :: rest) = .ok (cs, taken + parts.flatten.length + 1) := by
  induction h generalizing taken with
  | nil => rw [List.flatten_nil, List.nil_append, quoted]; rfl
  | @cons c w cs parts hw _ ih =>
    rw [List.flatten_cons, List.append_assoc, quoted_spells hw, ih, List.length_append,
      Nat.add_assoc taken]
    rfl

theorem raw?_closed {cs : List Char} (h : '\x60' ∉ cs) (rest : List Char) :
    raw? (cs ++ '\x60' :: rest) = some cs := by
  have content : (cs ++ '\x60' :: rest).takeWhile (· != '\x60') = cs :=
    takeWhile_run (fun x hx => bne_iff_ne.mpr (ne_of_mem_of_not_mem hx h)) rfl
  rw [raw?, content]
  exact if_pos (by simp)

end Literal

namespace Lexer

/-- A string between backquotes. -/
theorem inside?_raw {body : List Char} (h : '\x60' ∉ body) (cs : List Char) :
    inside? ('\x60' :: (body ++ '\x60' :: cs)) =
      (inside? cs).map (.string (String.ofList body) :: ·) := by
  have hstep : actionStep .start .start '\x60' (body ++ '\x60' :: cs) =
      .ok ⟨[⟨.string (String.ofList body), .start⟩], .action .start, body.length + 2⟩ := by
    change rawStep .start .start (body ++ '\x60' :: cs) = _
    rw [rawStep, Literal.raw?_closed h]
  have left : (body ++ '\x60' :: cs).drop (body.length + 2 - 1) = cs := by
    rw [Nat.add_sub_assoc (by decide), ← List.drop_drop, List.drop_left]
    rfl
  rw [inside?_cons hstep (.action .start .start), left]
  rfl

end Lexer

/-- **Every string can be written as a literal, in any of its spellings.** Between double quotes a
string has a spelling, and each of its spellings is read as the string; between backquotes it is
read as it stands, if it holds none. -/
theorem tokenize_literal (s : String) :
    (∃ parts, List.Forall₂ Literal.Spells s.toList parts) ∧
    (∀ parts, List.Forall₂ Literal.Spells s.toList parts →
      Lexer.kindsOf? (tokenize ("\x7b\x7b\"" ++ String.ofList parts.flatten ++ "\"\x7d\x7d")) =
        some [.actionOpen, .string s, .actionClose, .eof]) ∧
    ('\x60' ∉ s.toList →
      Lexer.kindsOf? (tokenize ("\x7b\x7b\x60" ++ s ++ "\x60\x7d\x7d")) =
        some [.actionOpen, .string s, .actionClose, .eof]) := by
  have stop : Lexer.inside? ['\x7d', '\x7d'] = some [.actionClose, .eof] := by
    rw [Lexer.inside?_close, Lexer.outside?, Lexer.run]
    rfl
  refine ⟨Literal.exists_forall₂_spells _, fun parts h => ?_, fun h => ?_⟩
  · have chars : ("\x7b\x7b\"" ++ String.ofList parts.flatten ++ "\"\x7d\x7d").toList =
        '\x7b' :: '\x7b' :: '"' :: (parts.flatten ++ ['"'] ++ ['\x7d', '\x7d']) := by
      simp
    have read : Literal.quoted 0 (parts.flatten ++ ['"']) =
        .ok (s.toList, (parts.flatten ++ ['"']).length) := by
      rw [Literal.quoted_flatten h, List.length_append, Nat.zero_add]
      rfl
    rw [Lexer.kindsOf?_tokenize, chars, Lexer.outside?_action (by decide) (by decide),
      Lexer.inside?_quoted read, stop, String.ofList_toList]
    rfl
  · have chars : ("\x7b\x7b\x60" ++ s ++ "\x60\x7d\x7d").toList =
        '\x7b' :: '\x7b' :: '\x60' :: (s.toList ++ '\x60' :: ['\x7d', '\x7d']) := by
      simp
    rw [Lexer.kindsOf?_tokenize, chars, Lexer.outside?_action (by decide) (by decide),
      Lexer.inside?_raw h, stop, String.ofList_toList]
    rfl

/-- A string with a closing delimiter in it, a quote, and a digit behind an escape. -/
theorem tokenize_literal_delimiters :
    Lexer.kindsOf? (tokenize "\x7b\x7b\"\\u00E9\x7d\\x7d\\n\\\"7\"\x7d\x7d") =
      some [.actionOpen, .string "é\x7d\x7d\n\"7", .actionClose, .eof] ∧
    Lexer.kindsOf? (tokenize "\x7b\x7b\x60é\x7d\x7d\n\"7\x60\x7d\x7d") =
      some [.actionOpen, .string "é\x7d\x7d\n\"7", .actionClose, .eof] := by
  obtain ⟨-, between, raw⟩ := tokenize_literal "é\x7d\x7d\n\"7"
  have spelled : List.Forall₂ Literal.Spells "é\x7d\x7d\n\"7".toList
      [['\\', 'u', '0', '0', 'E', '9'], ['\x7d'], ['\\', 'x', '7', 'd'], ['\\', 'n'],
        ['\\', '"'], ['7']] := by
    have code : Literal.IsHexadecimal 4 'é'.toNat ['0', '0', 'E', '9'] := by
      unfold Literal.IsHexadecimal
      decide +kernel
    have brace : Literal.IsHexadecimal 2 '\x7d'.toNat ['7', 'd'] := by
      unfold Literal.IsHexadecimal
      decide +kernel
    exact .cons (.unit (by decide) code) (.cons (.plain (by decide) (by decide) (by decide))
      (.cons (.ascii (by decide) brace) (.cons (.short .lineFeed) (.cons (.short .doubleQuote)
        (.cons (.plain (by decide) (by decide) (by decide)) .nil)))))
  have written : "\x7b\x7b\"\\u00E9\x7d\\x7d\\n\\\"7\"\x7d\x7d" = "\x7b\x7b\"" ++
      String.ofList [['\\', 'u', '0', '0', 'E', '9'], ['\x7d'], ['\\', 'x', '7', 'd'],
        ['\\', 'n'], ['\\', '"'], ['7']].flatten ++ "\"\x7d\x7d" := by decide +kernel
  have whole : "\x7b\x7b\x60é\x7d\x7d\n\"7\x60\x7d\x7d" =
      "\x7b\x7b\x60" ++ "é\x7d\x7d\n\"7" ++ "\x60\x7d\x7d" := by decide +kernel
  rw [written, whole]
  exact ⟨between _ spelled, raw (by decide +kernel)⟩

end Stencil
