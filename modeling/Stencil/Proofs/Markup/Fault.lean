import Stencil.Proofs.Markup.Moves

/-!
# Where a scan meets a slash of unknown meaning

A step that ends inside a value or a body leaves the fault behind as a context; a step that goes on
past the end of the value or the body overwrites it. Whether a scan meets such a slash at all is
therefore a question about its steps and not about the context it ends in
(`Context.meetsUnknownSlash`). An error that is left, on the other hand, names the fault
(`advance_of_isError_after`).
-/

set_option autoImplicit false

namespace Stencil.Markup.Context

open Stencil.Text

/-- What a step reads inside a value or a body: the value up to its end with its references decoded,
or the body up to its end tag. -/
def innerText (c : Context) (cs : List Char) : List Char :=
  if c.delim ≠ .none then decodeEntities (cs.takeWhile fun x => !c.delim.ends x)
  else if c.inElementBody then ((cutEndTag c.element.name.toList cs).map Prod.fst).getD cs
  else cs

/-- Whether a scan of a text meets a slash of unknown meaning in a script. -/
def meetsUnknownSlash (c : Context) : List Char → Bool
  | [] => false
  | x :: xs =>
    if c.isError then false
    else
      (c.advanceInner (c.innerText (x :: xs))).isError ||
        (c.step (x :: xs)).1.meetsUnknownSlash (c.step (x :: xs)).2
termination_by cs => c.steps cs
decreasing_by exact steps_step c x xs

/-- A scan without such a slash meets none in its first step, nor in the rest. -/
theorem clear_cons {c : Context} (ok : c.isError = false) {x : Char} {xs : List Char}
    (h : c.meetsUnknownSlash (x :: xs) = false) :
    (c.advanceInner (c.innerText (x :: xs))).isError = false ∧
      (c.step (x :: xs)).1.meetsUnknownSlash (c.step (x :: xs)).2 = false := by
  rw [meetsUnknownSlash, if_neg (by simp [ok]), Bool.or_eq_false_iff] at h
  exact h

/-! ## Errors -/

/-- Inside a value or a body, an error is a slash of unknown meaning. -/
theorem advanceInner_of_isError_after {c : Context} (ok : c.isError = false) {cs : List Char}
    (h : (c.advanceInner cs).isError = true) : c.advanceInner cs = .failed .slash := by
  rcases advanceInner_within c cs with ⟨hf, -⟩ | hw
  · exact hf
  · rw [hw.isError, ok] at h
    cases h

/-- An error behind a text is a slash of unknown meaning. -/
theorem advance_of_isError_after {c : Context} (ok : c.isError = false) {cs : List Char}
    (h : (c.advance cs).isError = true) : c.advance cs = .failed .slash := by
  refine advance_preserves (P := fun c => c.isError = true → c = .failed .slash) ?_
    (fun he => by rw [ok] at he; cases he) cs h
  intro c d ok m _ he
  cases m with
  | inner cs => exact advanceInner_of_isError_after ok he
  | leave | endTag | startTag | comment | commentEnd | tagNamed | attrStart | attrNamed | equals
  | noValue => cases he
  | name => rw [show c.isError = true from he] at ok; cases ok
  | close =>
    unfold closeTag at he
    cases hel : (if c.endTag = true then Element.none else c.element) <;> rw [hel] at he
    all_goals cases he
  | enter delim =>
    unfold enterValue at he
    cases hattr : c.attr <;> rw [hattr] at he <;> cases he

/-- Inside a value or a body, no text has a fault where the meaning of a slash is known. -/
theorem advanceInner_within_of_known {c : Context} (known : c.slash ≠ .unknown) (cs : List Char) :
    c.Within (c.advanceInner cs) :=
  (advanceInner_within c cs).resolve_left fun failed => known failed.2

/-- No text has a fault where the meaning of a slash is known, and it stays known. -/
theorem advance_of_known {c : Context} (known : c.slash ≠ .unknown) (clear : c.error = none)
    (cs : List Char) : (c.advance cs).slash ≠ .unknown ∧ (c.advance cs).error = none := by
  refine advance_preserves (P := fun c => c.slash ≠ .unknown ∧ c.error = none) ?_
    ⟨known, clear⟩ cs
  intro c d _ m h
  cases m with
  | inner cs =>
    have within := advanceInner_within_of_known h.1 cs
    exact ⟨within.known h.1, within.error.trans h.2⟩
  | leave cs =>
    have within := advanceInner_within_of_known h.1 cs
    exact ⟨nofun, within.error.trans h.2⟩
  | endTag | close => exact ⟨nofun, rfl⟩
  | enter delim => exact ⟨nofun, h.2⟩
  | startTag | comment | commentEnd | name | tagNamed | attrStart | attrNamed | equals | noValue =>
    exact h

end Stencil.Markup.Context
