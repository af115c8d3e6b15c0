import Stencil.Escape.Basic
import Stencil.Proofs.Json.Tokens

/-!
# What escapers never write

Every rule keeps the signs of its grammar out of what it writes, for any text: quotes and angle
brackets in markup, and blanks as well where a value has no quotes; the quotes and controls of
scripts; the characters that a property or a string of a style sheet cannot hold; and in an address
whatever its class does not keep, but for the parts of a percent escape.

The lemmas speak of one character of the output at a time. What the output stands for, and where it
leaves a scan that reads it, rests on them.
-/

set_option autoImplicit false

namespace Stencil.Escape

open Stencil.Text

variable {x c : Char} {cs : List Char}

/-! ## Markup -/

/-- The characters with a meaning in markup. An ampersand is not among them: references need it. -/
def isMarkupSign (c : Char) : Bool :=
  ['<', '>', '"', '\''].contains c

/-- The characters that a value without quotes cannot hold. -/
def isUnquotedSign (c : Char) : Bool :=
  isMarkupSign c || isSpace c || c == '=' || c == '\x60'

theorem isMarkupSign_of_mem_htmlChar (h : x ∈ htmlChar c) : isMarkupSign x = false := by
  unfold htmlChar at h
  repeat' split at h
  case h_7 hlt hgt hquot hapos _ =>
    rw [List.mem_singleton] at h
    subst h
    simp only [isMarkupSign, List.contains_eq_mem, decide_eq_false_iff_not, List.mem_cons,
      List.not_mem_nil, or_false, not_or]
    exact ⟨hlt, hgt, hquot, hapos⟩
  all_goals exact prop_of_mem h (by decide)

theorem isMarkupSign_of_mem_html (h : x ∈ html cs) : isMarkupSign x = false := by
  obtain ⟨c, -, h⟩ := List.mem_flatMap.mp h
  exact isMarkupSign_of_mem_htmlChar h

theorem isMarkupSign_of_mem_htmlAttrChar (h : x ∈ htmlAttrChar c) : isMarkupSign x = false := by
  unfold htmlAttrChar at h
  split at h
  · exact prop_of_mem h (by decide)
  · exact isMarkupSign_of_mem_htmlChar h

theorem isMarkupSign_of_mem_htmlAttr (h : x ∈ htmlAttr cs) : isMarkupSign x = false := by
  obtain ⟨c, -, h⟩ := List.mem_flatMap.mp h
  exact isMarkupSign_of_mem_htmlAttrChar h

theorem isUnquotedSign_of_mem_htmlUnquotedChar (h : x ∈ htmlUnquotedChar c) :
    isUnquotedSign x = false := by
  unfold htmlUnquotedChar at h
  split at h
  case h_8 =>
    have markup := isMarkupSign_of_mem_htmlAttrChar h
    unfold htmlAttrChar htmlChar at h
    repeat' split at h
    case h_7 =>
      rw [List.mem_singleton] at h
      subst h
      simp_all [isUnquotedSign, isSpace]
    all_goals exact prop_of_mem h (by decide)
  all_goals exact prop_of_mem h (by decide)

theorem isUnquotedSign_of_mem_htmlAttrUnquoted (h : x ∈ htmlAttrUnquoted cs) :
    isUnquotedSign x = false := by
  unfold htmlAttrUnquoted at h
  split at h
  · exact prop_of_mem h (by decide)
  · obtain ⟨c, -, h⟩ := List.mem_flatMap.mp h
    exact isUnquotedSign_of_mem_htmlUnquotedChar h

/-- No value without quotes is empty. -/
theorem htmlAttrUnquoted_ne_nil (cs : List Char) : htmlAttrUnquoted cs ≠ [] := by
  unfold htmlAttrUnquoted
  split
  · intro h
    cases h
  · next hne =>
    obtain ⟨c, rest, rfl⟩ := List.exists_cons_of_ne_nil hne
    intro h
    rw [List.flatMap_cons, List.append_eq_nil_iff] at h
    unfold htmlUnquotedChar htmlAttrChar htmlChar at h
    repeat' split at h
    all_goals cases h.1

/-! ## Scripts -/

/-- The characters that a string of a script holds in numbered escapes only. -/
def isScriptSign (c : Char) : Bool :=
  c.toNat < 0x20 || ['"', '$', '&', '\'', '+', '<', '=', '>', '\x60', '\u2028', '\u2029'].contains c

/-- The characters that JSON in a document holds in numbered escapes only. -/
def isJsonSign (c : Char) : Bool :=
  ['<', '>', '&', '\'', '\u2028', '\u2029'].contains c

/-- What a numbered escape consists of. -/
def escapeParts : List Char := '\\' :: 'u' :: Numeral.digits 16

theorem unitEscape_subset (c : Char) : unitEscape c ⊆ escapeParts :=
  List.cons_subset_cons _ (List.cons_subset_cons _ (Numeral.hexadecimal_subset ..))

theorem isScriptSign_of_mem_jsChar (h : x ∈ jsChar c) : isScriptSign x = false := by
  unfold jsChar at h
  split at h
  case h_7 =>
    split at h
    · exact prop_of_mem (unitEscape_subset c h) (by decide)
    · next hc =>
      rw [List.mem_singleton] at h
      rw [h]
      exact Bool.eq_false_iff.mpr hc
  all_goals exact prop_of_mem h (by decide)

theorem isScriptSign_of_mem_jsString (h : x ∈ jsString cs) : isScriptSign x = false := by
  obtain ⟨c, -, h⟩ := List.mem_flatMap.mp h
  exact isScriptSign_of_mem_jsChar h

/-- In a regular expression, some signs of scripts stand behind a backslash. -/
theorem isScriptSign_of_mem_jsRegexp (h : x ∈ jsRegexp cs) :
    isScriptSign x = false ∨ isRegexpSign x = true := by
  unfold jsRegexp at h
  split at h
  · exact prop_of_mem h (by decide)
  · obtain ⟨c, -, h⟩ := List.mem_flatMap.mp h
    unfold jsRegexpChar at h
    split at h
    · next hc =>
      rw [List.mem_cons, List.mem_singleton] at h
      rcases h with rfl | rfl
      · exact .inl (by decide)
      · exact .inr hc
    · exact .inl (isScriptSign_of_mem_jsChar h)

theorem isJsonSign_of_mem_jsonChar (h : x ∈ jsonChar c) : isJsonSign x = false := by
  unfold jsonChar at h
  split at h
  · exact prop_of_mem (unitEscape_subset c h) (by decide)
  · next hc =>
    rw [List.mem_singleton] at h
    rw [h]
    exact Bool.eq_false_iff.mpr hc

/-- What a string of a script cannot hold covers what JSON in a document cannot hold. -/
theorem isJsonSign_of_isScriptSign (h : isScriptSign x = false) :
    0x20 ≤ x.toNat ∧ isJsonSign x = false := by
  have signs : ∀ y ∈ ['<', '>', '&', '\'', '\u2028', '\u2029'], isScriptSign y = true := by
    intro y hy
    exact prop_of_mem hy (by decide)
  constructor
  · unfold isScriptSign at h
    simp only [Bool.or_eq_false_iff, decide_eq_false_iff_not] at h
    omega
  · apply Bool.eq_false_iff.mpr
    intro hj
    rw [signs x (List.contains_iff_mem.mp hj)] at h
    cases h

/-- JSON in a document holds no control either. -/
theorem blank_le_of_mem_jsonChar (hc : 0x20 ≤ c.toNat) (h : x ∈ jsonChar c) : 0x20 ≤ x.toNat := by
  unfold jsonChar at h
  split at h
  · exact prop_of_mem (unitEscape_subset c h) (by decide)
  · rw [List.mem_singleton] at h
    rwa [h]

theorem mem_of_mem_padded (h : x ∈ padded cs) : x ∈ cs ∨ x = ' ' := by
  unfold padded at h
  split at h
  · rw [List.cons_append, List.mem_cons, List.mem_append, List.mem_singleton] at h
    rcases h with h | h | h
    · exact .inr h
    · exact .inl h
    · exact .inr h
  · exact .inl h

/-- A value as an expression holds no control and no sign that JSON in a document cannot hold. -/
theorem isJsonSign_of_mem_jsValue {v : Value} {w : Json.Writer} (h : x ∈ jsValue v w.write) :
    0x20 ≤ x.toNat ∧ isJsonSign x = false := by
  have json (v : Value) (h : x ∈ padded ((w.write v.toJson).flatMap jsonChar)) :
      0x20 ≤ x.toNat ∧ isJsonSign x = false := by
    rcases mem_of_mem_padded h with h | rfl
    · obtain ⟨c, hc, h⟩ := List.mem_flatMap.mp h
      exact ⟨blank_le_of_mem_jsonChar (Json.blank_le_of_mem_write hc) h,
        isJsonSign_of_mem_jsonChar h⟩
    · decide
  unfold jsValue at h
  split at h
  · rw [List.cons_append, List.mem_cons, List.mem_append, List.mem_singleton] at h
    rcases h with rfl | h | rfl
    · decide
    · exact isJsonSign_of_isScriptSign (isScriptSign_of_mem_jsString h)
    · decide
  · exact json _ h

/-! ## Style sheets -/

theorem isStyleSign_of_mem_cssValue (h : x ∈ cssValue cs) : isStyleSign x = false := by
  unfold cssValue at h
  split at h
  · exact prop_of_mem h (by decide)
  · next hsafe =>
    unfold isUnsafeStyle at hsafe
    simp only [Bool.or_eq_true, List.any_eq_true, not_or, not_exists, not_and] at hsafe
    exact Bool.eq_false_iff.mpr (hsafe.1.1 x h)

/-- A string of a style sheet holds none of the signs but the backslash. -/
theorem isStyleStringSign_of_mem_cssString (h : x ∈ cssString cs) :
    isStyleStringSign x = false ∨ x = '\\' := by
  induction cs with
  | nil => cases h
  | cons c rest ih =>
    unfold cssString at h
    split at h
    · dsimp only at h
      rw [List.cons_append, List.cons_append, List.mem_cons, List.mem_append, List.mem_append] at h
      rcases h with h | (h | h) | h
      · exact .inr h
      · exact .inl (prop_of_mem (Numeral.natural_subset (by omega) _ h) (by decide))
      · split at h
        · rw [List.mem_singleton] at h
          subst h
          exact .inl (by decide)
        · cases h
      · exact ih h
    · next hc =>
      rw [List.mem_cons] at h
      rcases h with rfl | h
      · exact .inl (Bool.eq_false_iff.mpr hc)
      · exact ih h

/-! ## Addresses -/

/-- The digits of percent escapes. -/
def escapeDigits : List Char :=
  ['0', '1', '2', '3', '4', '5', '6', '7', '8', '9', 'A', 'B', 'C', 'D', 'E', 'F']

theorem exists_percent_eq (b : UInt8) :
    ∃ high ∈ escapeDigits, ∃ low ∈ escapeDigits, percent b = ['%', high, low] := by
  have upper : ∀ d, d < 16 →
      (if d < 10 then Char.ofNat (48 + d) else Char.ofNat (55 + d)) ∈ escapeDigits := by
    decide
  have hb := b.toNat_lt
  exact ⟨_, upper (b.toNat / 16) (by omega), _, upper (b.toNat % 16) (by omega), rfl⟩

/-- What a percent escape consists of. -/
def percentParts : List Char :=
  ['%', '0', '1', '2', '3', '4', '5', '6', '7', '8', '9', 'A', 'B', 'C', 'D', 'E', 'F']

theorem percent_subset (b : UInt8) : percent b ⊆ percentParts := by
  obtain ⟨high, hhigh, low, hlow, heq⟩ := exists_percent_eq b
  intro x h
  rw [heq] at h
  simp only [List.mem_cons, List.not_mem_nil, or_false] at h
  rcases h with rfl | rfl | rfl
  · exact List.mem_cons_self ..
  · exact List.mem_cons_of_mem _ hhigh
  · exact List.mem_cons_of_mem _ hlow

/-- An address holds what its class keeps and percent escapes. -/
theorem mem_percentParts_of_mem_percentEncode {keeps : Char → Bool}
    (h : x ∈ percentEncode keeps cs) : keeps x = true ∨ x ∈ percentParts := by
  obtain ⟨c, -, h⟩ := List.mem_flatMap.mp h
  split at h
  · next hc =>
    rw [List.mem_singleton] at h
    exact .inl (h ▸ hc)
  · obtain ⟨b, -, h⟩ := List.mem_flatMap.mp h
    exact .inr (percent_subset b h)

end Stencil.Escape
