import Stencil.Markup.Escapers
import Stencil.Proofs.Markup.Moves

/-!
# Where an output is written

What holds of the context that an output is written in (`Context.nudge`), of the one behind it
(`Context.afterOutput`) and of the escapers that are asked for. A nudge and an output make no error,
and a nudged context needs no nudge. A text that could be a value without quotes from its first
character on is read behind an equals sign as it is read from the nudge (`advance_of_bare`).
-/

set_option autoImplicit false

namespace Stencil.Markup.Context

open Stencil.Text

theorem isError_nudge {c : Context} (ok : c.isError = false) : c.nudge.isError = false := by
  unfold nudge
  split
  · unfold enterValue
    cases c.attr <;> rfl
  · rfl
  · exact ok

theorem isError_afterOutput {c : Context} (ok : c.isError = false) :
    c.afterOutput.isError = false := by
  unfold afterOutput
  split
  · exact ok
  · exact ok

theorem nudge_of_other {c : Context} (hb : c.state ≠ .beforeValue) (ha : c.state ≠ .afterName) :
    c.nudge = c := by
  unfold nudge
  split
  · next hs => exact absurd hs hb
  · next hs => exact absurd hs ha
  · rfl

/-- A nudge is in no state that needs one. -/
theorem state_nudge (c : Context) : c.nudge.state ≠ .beforeValue ∧ c.nudge.state ≠ .afterName := by
  by_cases hb : c.state = .beforeValue
  · rw [nudge, hb]
    show c.attr.valueState ≠ _ ∧ c.attr.valueState ≠ _
    cases c.attr <;> decide
  · by_cases ha : c.state = .afterName
    · rw [nudge, ha]
      show State.tag ≠ _ ∧ State.tag ≠ _
      decide
    · rw [nudge_of_other hb ha]
      exact ⟨hb, ha⟩

/-- A nudge is not nudged again. -/
theorem nudge_nudge (c : Context) : c.nudge.nudge = c.nudge :=
  nudge_of_other (state_nudge c).1 (state_nudge c).2

theorem advance_of_beforeValue {c : Context} (hd : c.delim = .none) (hs : c.state = .beforeValue)
    (x : Char) (xs : List Char) : c.advance (x :: xs) =
      (c.beforeValueStep (x :: xs)).1.advance (c.beforeValueStep (x :: xs)).2 := by
  have ok : c.isError = false := by rw [isError, hs]; rfl
  have step : c.step (x :: xs) = c.beforeValueStep (x :: xs) := by
    rw [Context.step, if_neg (by simp [hd]), if_neg (by simp [inElementBody, hs]), hs]
  rw [advance_cons ok, step]

/-- What is no blank, no quote and no end of a tag starts a value without quotes. -/
theorem advance_of_bare {c : Context} (hd : c.delim = .none) (hs : c.state = .beforeValue)
    {x : Char} (hspace : isSpace x = false) (hgt : x ≠ '>') (hdouble : x ≠ '"')
    (hsingle : x ≠ '\'') (xs : List Char) : c.advance (x :: xs) = c.nudge.advance (x :: xs) := by
  have first : (x :: xs).dropWhile isSpace = x :: xs :=
    List.dropWhile_cons_of_neg (by simp [hspace])
  rw [advance_of_beforeValue hd hs, beforeValueStep, first]
  dsimp only
  rw [if_neg hgt, if_neg hdouble, if_neg hsingle, nudge, hs]

/-- No output stands between attributes. -/
theorem escapers_of_tag {c : Context} (hs : c.state = .tag) (rules : List Escaper) :
    c.escapers ≠ .ok rules := by
  unfold escapers innerEscapers
  rw [hs]
  intro h
  cases h

/-- The escapers of a context are those of its grammar and, outside of comments, those of the value
around it. -/
theorem escapers_eq_ok {c : Context} {rules : List Escaper} :
    c.escapers = .ok rules ↔ ∃ inner, c.innerEscapers = .ok inner ∧
      rules = if c.inComment then inner else inner ++ c.delim.escapers := by
  unfold Context.escapers
  cases c.innerEscapers with
  | error e => exact ⟨nofun, nofun⟩
  | ok inner =>
    constructor
    · rintro ⟨⟩
      exact ⟨inner, rfl, rfl⟩
    · rintro ⟨_, ⟨⟩, rfl⟩
      rfl

end Stencil.Markup.Context
