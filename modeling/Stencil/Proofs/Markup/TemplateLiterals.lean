import Stencil.Proofs.Markup.Closing
import Stencil.Proofs.Markup.Output
import Stencil.Proofs.Markup.Place
import Stencil.Proofs.Markup.Shape

/-!
# Substitutions in template literals

By the grammar of scripts a template literal goes back and forth between text of its own and
expressions: `$` and an opening brace start an expression, and the brace that closes it leads back
to the text (`Spot.advance`). An output in the text is the inside of a string, an output in an
expression is an operand, and each asks for its own rule (`Spot.escaper`).

A scan does not follow this. It has one state for the whole of a template literal, which ends at the
first backtick that no backslash escapes, and the rule for the inside of a string goes with it
(`escapers_of_template`). That rule is right in the literal's own text and nowhere else
(`string_rule_in_substitution`): in a substitution the value is written as code, without quotes
around it.
-/

set_option autoImplicit false

namespace Stencil.Markup

/-- Where in a template literal a text ends. -/
inductive Spot where
  /-- In the text of the literal. -/
  | text
  /-- In the expression of a substitution, inside as many braces of its own. -/
  | expression (braces : Nat)
deriving DecidableEq, Repr

namespace Spot

/-- The spot behind more text, in which no string, comment, regular expression or other template
literal starts. -/
def advance : Spot → List Char → Spot
  | s, [] => s
  | .text, '\\' :: _ :: rest => text.advance rest
  | .text, '$' :: '\x7b' :: rest => (expression 0).advance rest
  | .text, _ :: rest => text.advance rest
  | .expression n, '\x7b' :: rest => (expression (n + 1)).advance rest
  | .expression 0, '\x7d' :: rest => text.advance rest
  | .expression (n + 1), '\x7d' :: rest => (expression n).advance rest
  | .expression n, _ :: rest => (expression n).advance rest

/-- The rule that an output asks for: for the inside of a string or for an operand. -/
def escaper : Spot → Escaper
  | .text => .jsString
  | .expression _ => .jsValue

theorem escaper_eq_jsString {s : Spot} : s.escaper = .jsString ↔ s = .text := by
  cases s with
  | text => exact ⟨fun _ => rfl, fun _ => rfl⟩
  | expression n =>
    constructor
    · intro h
      cases h
    · intro h
      cases h

/-- An expression goes on where no brace opens or closes. -/
theorem advance_expression {cs : List Char} (ho : '\x7b' ∉ cs) (hc : '\x7d' ∉ cs) (n : Nat) :
    (expression n).advance cs = .expression n := by
  induction cs with
  | nil => rw [advance]
  | cons x xs ih =>
    rw [List.mem_cons, not_or] at ho hc
    rw [advance, ih ho.2 hc.2]
    · rintro rfl
      exact ho.1 rfl
    · rintro - rfl
      exact hc.1 rfl
    · rintro _ - rfl
      exact hc.1 rfl

end Spot

namespace Context

variable {c : Context}

/-- A text without backticks and less-than signs does not end a template literal. -/
theorem advance_of_template (hs : c.state = .jsTemplate) (hd : c.delim = .none)
    (he : c.element = .script) {cs : List Char} (hq : '\x60' ∉ cs) (hlt : '<' ∉ cs) :
    c.advance cs = c := by
  have ok : c.isError = false := by rw [isError, hs]; rfl
  have body : c.inElementBody = true := by simp [inElementBody, hs, hd, he]
  rw [advance_of_body ok body (cutEndTag_of_not_mem hlt)]
  cases cs with
  | nil => rw [advanceInner_nil]
  | cons x xs =>
    rw [advanceInner_cons ok, innerStep, hs]
    dsimp only
    rw [leave_of_none (afterQuote?_of_not_mem hq), advanceInner_nil]

/-- An output in a template literal is written as the inside of a string. -/
theorem escapers_of_template (hs : c.state = .jsTemplate) (hd : c.delim = .none) :
    c.nudge.escapers = .ok [.jsString] := by
  rw [nudge_of_other (by simp [hs]) (by simp [hs]), escapers_eq_ok]
  refine ⟨[.jsString], ?_, ?_⟩
  · rw [innerEscapers, hs]
  · simp [inComment, hs, hd, Delim.escapers]

/-- **In a substitution an output is written as the inside of a string.** From any spot of a
template literal on, and behind a text that starts no string, comment, regular expression or other
template literal, an output gets the rule that its spot asks for exactly if this is in the
literal's own text. So it gets the wrong one in every substitution that is still open, such as one
that the text starts. -/
theorem string_rule_in_substitution (hs : c.state = .jsTemplate) (hd : c.delim = .none)
    (he : c.element = .script) :
    (∀ (spot : Spot) (cs : List Char), (∀ x ∈ cs, x ∉ ['\x60', '"', '\'', '/', '<']) →
      (c.advance cs).nudge.escapers = .ok [.jsString] ∧
      ((c.advance cs).nudge.escapers = .ok [(spot.advance cs).escaper] ↔
        spot.advance cs = .text)) ∧
    ∀ e, (∀ x ∈ e, x ∉ ['\x60', '"', '\'', '\\', '/', '<', '\x7b', '\x7d']) →
      Spot.text.advance ('$' :: '\x7b' :: e) = .expression 0 ∧
      (c.advance ('$' :: '\x7b' :: e)).nudge.escapers = .ok [.jsString] := by
  have reads (cs : List Char) (hcs : ∀ x ∈ cs, x ∉ ['\x60', '"', '\'', '/', '<']) :
      (c.advance cs).nudge.escapers = .ok [.jsString] := by
    have hq : '\x60' ∉ cs := fun h => hcs _ h (by decide)
    have hlt : '<' ∉ cs := fun h => hcs _ h (by decide)
    rw [advance_of_template hs hd he hq hlt]
    exact escapers_of_template hs hd
  constructor
  · intro spot cs hcs
    refine ⟨reads cs hcs, ?_⟩
    rw [reads cs hcs, ← Spot.escaper_eq_jsString]
    constructor
    · intro h
      exact (List.cons.inj (Except.ok.inj h)).1.symm
    · intro h
      rw [h]
  · intro e hplain
    constructor
    · rw [Spot.advance]
      exact Spot.advance_expression (fun h => hplain _ h (by decide))
        (fun h => hplain _ h (by decide)) 0
    · apply reads
      intro x hx
      rw [List.mem_cons, List.mem_cons] at hx
      rcases hx with rfl | rfl | hx
      · decide
      · decide
      · intro hmem
        refine hplain x hx ?_
        simp only [List.mem_cons] at hmem ⊢
        grind

/-- Behind the opening of a call in a substitution. -/
theorem string_rule_in_call :
    (start.advance "<script>s = \x60$\x7bf(".toList).nudge.escapers = .ok [.jsString] := by
  have literal : start.advance "<script>s = \x60".toList =
      { state := .jsTemplate, element := .script } := by decide +kernel
  have call := ((string_rule_in_substitution (c := start.advance "<script>s = \x60".toList)
    (by rw [literal]) (by rw [literal]) (by rw [literal])).2 "f(".toList
    fun _ h => Text.prop_of_mem h (by decide +kernel)).2
  have both : start.advance "<script>s = \x60$\x7bf(".toList =
      (start.advance "<script>s = \x60".toList).advance ('$' :: '\x7b' :: "f(".toList) := by
    decide +kernel
  rw [both]
  exact call

/-- So an operand is not always written as an operand. -/
theorem not_value_rule_in_substitution :
    ¬ ∀ (c : Context) (e : List Char), c.Reachable → c.state = .jsTemplate → c.delim = .none →
      c.element = .script →
      (∀ x ∈ e, x ∉ ['\x60', '"', '\'', '\\', '/', '<', '\x7b', '\x7d']) →
      ∀ rules, (c.advance ('$' :: '\x7b' :: e)).nudge.escapers = .ok rules →
        rules.head? = some .jsValue := by
  intro expected
  have literal : start.advance "<script>s = \x60".toList =
      { state := .jsTemplate, element := .script } := by decide +kernel
  have reached : Reachable { state := .jsTemplate, element := .script } :=
    literal ▸ .advance _ .start
  have opened : advance { state := .jsTemplate, element := .script } ['$', '\x7b'] =
      { state := .jsTemplate, element := .script } := by decide +kernel
  have rule := expected _ [] reached rfl rfl rfl nofun [.jsString] (by rw [opened]; rfl)
  cases rule

end Context

end Stencil.Markup
