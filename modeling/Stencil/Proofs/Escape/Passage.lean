import Stencil.Markup.Escapers
import Stencil.Proofs.Escape.Spelled
import Stencil.Proofs.Markup.Place

/-!
# What a scan passes over

The rules for scripts keep a text inside what it is written in. A scan for a closing quote or slash
passes over every character as these rules write it, so a string or a regular expression goes on
behind any text (`passedBy_jsString`, `passedBy_jsRegexp`), and a value as an expression closes all
that it opens (`closedCode_jsValue`). For style sheets and addresses the signs that are kept out are
enough. Together, a state holds whatever the escapers write that it asks for
(`holds_of_innerEscapers`).
-/

set_option autoImplicit false

namespace Stencil.Escape

open Stencil.Markup Stencil.Text

variable {quote c : Char}

/-! ## Strings and regular expressions -/

theorem passedBy_unitEscape (hq : quote ∉ Numeral.digits 16) (c : Char) :
    PassedBy (afterQuote? quote) (unitEscape c) := by
  have digits : PassedBy (afterQuote? quote) (Numeral.hexadecimal 4 c.toNat) := by
    apply PassedBy.of_forall
    intro x hx
    have hx := Numeral.hexadecimal_subset _ _ hx
    apply passedBy_quote
    · intro heq
      exact hq (heq ▸ hx)
    · exact prop_of_mem hx (by decide)
  exact (passedBy_quote_escaped quote 'u').append digits

/-- A string goes on behind a character, however it is spelled, if its quote does not stand for
itself. -/
theorem Spelled.passedBy_quoted {letters : Char → Char → Prop} {plain : Char → Bool}
    {w : List Char} (h : Spelled letters plain c w) (hq : quote ∉ Numeral.digits 16)
    (hplain : plain c = true → c ≠ quote ∧ c ≠ '\\') : PassedBy (afterQuote? quote) w := by
  cases h with
  | letter => exact passedBy_quote_escaped quote _
  | unit => exact passedBy_unitEscape hq c
  | self hc => exact passedBy_quote (hplain hc).1 (hplain hc).2

/-- A string goes on behind a character, if its quote is one that is escaped. -/
theorem passedBy_jsChar (hq : isScriptSign quote = true) (c : Char) :
    PassedBy (afterQuote? quote) (jsChar c) := by
  have digit : quote ∉ Numeral.digits 16 := by
    intro h
    have unsigned : isScriptSign quote = false := prop_of_mem h (by decide)
    rw [unsigned] at hq
    cases hq
  apply (spelled_jsChar c).passedBy_quoted digit
  intro hc
  simp only [isStringPlain, Bool.and_eq_true, bne_iff_ne, Bool.not_eq_true'] at hc
  refine ⟨?_, hc.2⟩
  rintro rfl
  exact Bool.false_ne_true (hc.1.1.symm.trans hq)

theorem passedBy_jsString (hq : isScriptSign quote = true) (cs : List Char) :
    PassedBy (afterQuote? quote) (jsString cs) :=
  PassedBy.flatMap (passedBy_jsChar hq) cs

/-- A digit and the characters that stand for themselves close no regular expression. -/
theorem passedBy_regexp_unitEscape (inClass : Bool) (c : Char) :
    PassedBy (afterRegexp? inClass) (unitEscape c) := by
  have digits : PassedBy (afterRegexp? inClass) (Numeral.hexadecimal 4 c.toNat) := by
    apply PassedBy.of_forall
    intro x hx
    have hx := Numeral.hexadecimal_subset _ _ hx
    obtain ⟨hb, ho, hc, hs⟩ : x ≠ '\\' ∧ x ≠ '[' ∧ x ≠ ']' ∧ x ≠ '/' :=
      prop_of_mem hx (by decide)
    exact passedBy_regexp hb ho hc hs
  exact (passedBy_regexp_escaped inClass 'u').append digits

/-- A regular expression goes on behind a character, however it is spelled, if no backslash, bracket
or slash stands for itself. -/
theorem Spelled.passedBy_slashed {letters : Char → Char → Prop} {plain : Char → Bool}
    {w : List Char} (h : Spelled letters plain c w) (inClass : Bool)
    (hplain : plain c = true → c ≠ '\\' ∧ c ≠ '[' ∧ c ≠ ']' ∧ c ≠ '/') :
    PassedBy (afterRegexp? inClass) w := by
  cases h with
  | letter => exact passedBy_regexp_escaped inClass _
  | unit => exact passedBy_regexp_unitEscape inClass c
  | self hc =>
    obtain ⟨hb, ho, hclose, hs⟩ := hplain hc
    exact passedBy_regexp hb ho hclose hs

theorem passedBy_jsRegexpChar (inClass : Bool) (c : Char) :
    PassedBy (afterRegexp? inClass) (jsRegexpChar c) := by
  apply (spelled_jsRegexpChar c).passedBy_slashed inClass
  intro hc
  simp only [isRegexpPlain, isStringPlain, Bool.and_eq_true, bne_iff_ne, Bool.not_eq_true'] at hc
  obtain ⟨⟨⟨-, hs⟩, hb⟩, hsign⟩ := hc
  refine ⟨hb, ?_, ?_, hs⟩
  all_goals
    rintro rfl
    cases hsign

/-- A regular expression goes on behind any text, whether it is in a class or not. -/
theorem passedBy_jsRegexp (inClass : Bool) (cs : List Char) :
    PassedBy (afterRegexp? inClass) (jsRegexp cs) := by
  unfold jsRegexp
  split
  · apply PassedBy.of_forall
    intro x hx
    obtain ⟨hb, ho, hc, hs⟩ : x ≠ '\\' ∧ x ≠ '[' ∧ x ≠ ']' ∧ x ≠ '/' :=
      prop_of_mem hx (by decide)
    exact passedBy_regexp hb ho hc hs
  · exact PassedBy.flatMap (passedBy_jsRegexpChar inClass) cs

/-! ## Expressions -/

/-- A JSON string in a document goes on behind a character. -/
theorem passedBy_escapeChar (c : Char) :
    PassedBy (afterQuote? '"') ((Json.escapeChar c).flatMap jsonChar) := by
  apply (spelled_escapeChar c).passedBy_quoted (by decide)
  intro hc
  simp only [isJsonPlain, Bool.and_eq_true, bne_iff_ne] at hc
  exact ⟨hc.1.2, hc.2⟩

/-- The JSON text of a value in a document closes all that it opens. -/
theorem closedCode_json (w : Json.Writer) (v : Value) :
    ClosedCode ((w.write v.toJson).flatMap jsonChar) := by
  have law : Json.TokenLaw fun cs => ClosedCode (cs.flatMap jsonChar) := {
    code := by
      intro cs hcs
      apply ClosedCode.code
      intro x hx
      obtain ⟨c, hc, hx⟩ := List.mem_flatMap.mp hx
      obtain ⟨kept, plain⟩ : jsonChar c = [c] ∧ startsScriptPart c = false :=
        prop_of_mem (hcs hc) (by decide)
      rw [kept, List.mem_singleton] at hx
      rw [hx, plain]
    string := by
      intro cs
      rw [flatMap_jsonChar_quote]
      exact ClosedCode.quoted (PassedBy.flatMap passedBy_escapeChar cs)
    append := by
      intro a b ha hb
      rw [List.flatMap_append]
      exact ha.append hb }
  exact law.written w v

/-- A value as an expression closes all that it opens. -/
theorem closedCode_jsValue (w : Json.Writer) (v : Value) : ClosedCode (jsValue v w.write) := by
  have blank : ClosedCode [' '] := .code (fun _ h => prop_of_mem h (by decide))
  have json (v : Value) : ClosedCode (padded ((w.write v.toJson).flatMap jsonChar)) := by
    unfold padded
    split
    · exact (blank.append (closedCode_json w v)).append blank
    · exact closedCode_json w v
  unfold jsValue
  split
  · exact ClosedCode.quoted (passedBy_jsString (by decide) _)
  · exact json _

/-! ## What an escaper writes for a state -/

/-- What can stand in an address that an escaper has written. -/
def isAddressPart (c : Char) : Bool :=
  isUnreserved c || isReserved c || percentParts.contains c

theorem isAddressPart_of_mem_percentEncode {keeps : Char → Bool} {cs : List Char} {x : Char}
    (hk : ∀ c, keeps c = true → isUnreserved c || isReserved c) (h : x ∈ percentEncode keeps cs) :
    isAddressPart x = true := by
  unfold isAddressPart
  rcases mem_percentParts_of_mem_percentEncode h with h | h
  · rw [hk x h, Bool.true_or]
  · rw [List.contains_iff_mem.mpr h, Bool.or_true]

/-- The escapers for any part of an address write parts of an address. -/
theorem isAddressPart_of_mem_apply {part : UrlPart} {rules : List Escaper}
    (h : part.escapers = .ok rules) (v : Value) {write : Json → List Char} :
    ∀ x ∈ Escaper.apply rules v write, isAddressPart x = true := by
  intro x hx
  cases part with
  | unknown => cases h
  | none =>
    cases h
    exact isAddressPart_of_mem_percentEncode (fun _ => id) hx
  | preQuery =>
    cases h
    exact isAddressPart_of_mem_percentEncode (fun _ => id) hx
  | queryOrFragment =>
    cases h
    exact isAddressPart_of_mem_percentEncode (fun c hc => by rw [hc, Bool.true_or]) hx

end Stencil.Escape

namespace Stencil.Markup

open Stencil.Escape Stencil.Text

variable {c : Context} {rules : List Escaper} {write : Json → List Char}

/-- The quotes and parentheses that close an address cannot stand in one. -/
theorem not_mem_apply_of_urlPart (h : c.urlPart.escapers = .ok rules) (v : Value) {close : Char}
    (hclose : isAddressPart close = false) : close ∉ Escaper.apply rules v write := by
  intro hx
  rw [isAddressPart_of_mem_apply h v close hx] at hclose
  cases hclose

/-- A state holds what is written for it. -/
theorem Context.holds_of_innerEscapers (h : c.innerEscapers = .ok rules) (v : Value)
    (w : Json.Writer) : c.state.Holds (Escaper.apply rules v w.write) := by
  unfold innerEscapers at h
  cases hs : c.state
  all_goals rw [hs] at h
  case cssDoubleQuotedUrl | cssSingleQuotedUrl | cssUrl =>
    exact not_mem_apply_of_urlPart h v (by decide)
  case url => trivial
  all_goals cases h
  case js => exact closedCode_jsValue w v
  case jsDoubleQuoted | jsSingleQuoted | jsTemplate =>
    exact (passedBy_jsString (by decide) v.chars).eq_end
  case jsRegexp => exact (passedBy_jsRegexp false v.chars).eq_end
  case css =>
    have sign {quote : Char} (hq : isStyleSign quote = true) : quote ∉ cssValue v.chars := by
      intro hx
      rw [isStyleSign_of_mem_cssValue hx] at hq
      cases hq
    exact ⟨sign (by decide), sign (by decide), sign (by decide), sign (by decide)⟩
  case cssDoubleQuoted | cssSingleQuoted =>
    apply afterQuote?_of_not_mem
    intro hx
    rcases isStyleStringSign_of_mem_cssString hx with hq | hq <;> revert hq <;> decide
  case jsLineComment | jsBlockComment | cssComment => rfl
  all_goals trivial

/-- Every state holds the stand-in for what cannot be written. -/
theorem State.holds_refused (s : State) : s.Holds refused := by
  have letters : ∀ x ∈ refused, startsScriptPart x = false := by
    intro x hx
    exact prop_of_mem hx (by decide)
  cases s
  case js => exact .code letters
  case css => exact ⟨by decide, by decide, by decide, by decide⟩
  case cssDoubleQuotedUrl | cssSingleQuotedUrl | cssUrl =>
    unfold Holds
    decide
  all_goals first | rfl | trivial

/-- Neither a less-than sign nor a null is written into a script, a style sheet or an address. -/
theorem Context.clean_of_innerEscapers (h : c.innerEscapers = .ok rules)
    (hk : c.state.kind ≠ .none ∧ c.state.kind ≠ .plain) (v : Value) (w : Json.Writer) :
    '<' ∉ Escaper.apply rules v w.write ∧ '\x00' ∉ Escaper.apply rules v w.write := by
  unfold innerEscapers at h
  cases hs : c.state
  all_goals rw [hs] at h hk
  case url | cssDoubleQuotedUrl | cssSingleQuotedUrl | cssUrl =>
    exact ⟨not_mem_apply_of_urlPart h v (by decide), not_mem_apply_of_urlPart h v (by decide)⟩
  all_goals cases h
  case js =>
    constructor <;> intro hx
    · exact absurd (isJsonSign_of_mem_jsValue hx).2 (by decide)
    · exact absurd (isJsonSign_of_mem_jsValue hx).1 (by decide)
  case jsDoubleQuoted | jsSingleQuoted | jsTemplate =>
    constructor <;> intro hx <;> exact absurd (isScriptSign_of_mem_jsString hx) (by decide)
  case jsRegexp =>
    constructor <;> intro hx <;> exact absurd (isScriptSign_of_mem_jsRegexp hx) (by decide)
  case css =>
    constructor <;> intro hx <;> exact absurd (isStyleSign_of_mem_cssValue hx) (by decide)
  case cssDoubleQuoted | cssSingleQuoted =>
    constructor <;> intro hx <;> exact absurd (isStyleStringSign_of_mem_cssString hx) (by decide)
  case jsLineComment | jsBlockComment | cssComment => exact ⟨nofun, nofun⟩
  case attr => exact absurd rfl hk.2
  case text | rcdata | comment => exact absurd rfl hk.1

end Stencil.Markup
