import Stencil.Proofs.Markup.Indexed.Rules

/-!
# Inside values and bodies by positions

Inside a value or a body the scan by positions has a result, and it is that of the scan over
characters (`advanceInner_utf8`). Each step comes to where the step over characters comes
(`innerStep_comes`), in a rule with what stands before the position (`innerStep_comes_of_css`); the
loop keeps to places where that makes no difference (`Placed`).
-/

set_option autoImplicit false

namespace Stencil.Markup

open Stencil.Text Stencil.Escape

variable {text cs : List Char} {i : Nat}

namespace Indexed

/-! ## Steps -/

/-- In a rule, a step comes to where it does over characters with all that stands before it. -/
theorem innerStep_comes_of_css {c : Context} (hs : c.state = .css) (before cs : List Char) :
    Comes (before ++ cs) (innerStep c (utf8 (before ++ cs)) (utf8 before).length)
      (c.ruleStep before.reverse cs) := by
  unfold innerStep
  rw [hs]
  exact ruleStep_comes c before cs

/-- Elsewhere a step comes to where the step over characters does. -/
theorem innerStep_comes {c : Context} (hs : c.state ≠ .css) {x : Char} {xs : List Char}
    (h : At text i (x :: xs)) :
    Comes text (innerStep c (utf8 text) i) (c.innerStep x xs) := by
  have stays : Comes text (some (c, (utf8 text).length)) (c, []) := ⟨_, rfl, .ending text⟩
  unfold innerStep Context.innerStep
  dsimp only
  cases hstate : c.state with
  | css => exact absurd hstate hs
  | url =>
    simp only [Option.bind_eq_bind, h.from?_eq, Option.bind_some, urlPart_advance_utf8]
    exact ⟨_, rfl, .ending text⟩
  | js => exact codeStep_comes c h
  | jsDoubleQuoted | jsSingleQuoted | jsTemplate | cssDoubleQuoted | cssSingleQuoted =>
    exact leave_comes (findQuote_found (by decide) h) _ _
  | jsRegexp => exact leave_comes (findRegexpEnd_found h) _ _
  | jsLineComment => exact leave_comes (findByte_found (by decide) h) _ _
  | jsBlockComment | cssComment =>
    exact leave_comes (findPattern_found ['*', '/'] (ascii_of_all (by decide)) nofun h) _ _
  | cssDoubleQuotedUrl | cssSingleQuotedUrl | cssUrl => exact addressEnd_comes c (by decide) h
  | text | rcdata | tagName | tag | attrName | afterName | beforeValue | attr | comment | error =>
    exact stays

/-! ## The loop -/

/-- The loop ends at the end of the text, and at a fault. -/
theorem innerLoop_of_end {s : List UInt8} {c : Context} (h : ¬ (i < s.length ∧ c.isError = false)) :
    innerLoop s c i = some c := by
  rw [innerLoop, if_neg h]

theorem innerLoop_of_step {s : List UInt8} {c : Context} {next : Context × Nat}
    (h : i < s.length ∧ c.isError = false) (hnext : innerStep c s i = some next) :
    innerLoop s c i = innerLoop s next.1 next.2 := by
  rw [innerLoop, if_pos h]
  split
  · next heq =>
    rw [hnext] at heq
    cases heq
  · next heq =>
    rw [hnext] at heq
    cases heq
    rfl

/-- Where a loop inside a value or a body can stand: in a rule only behind what opens no address
there. -/
def Placed (c : Context) (before cs : List Char) : Prop :=
  cs = [] ∨ (c.state = .css → Parted before)

/-- A step from such a place comes to where the step over characters comes, and to such a place. -/
theorem innerStep_placed {c : Context} {before xs : List Char} {x : Char}
    (h : Placed c before (x :: xs)) :
    ∃ passed, x :: xs = passed ++ (c.innerStep x xs).2 ∧
      Placed (c.innerStep x xs).1 (before ++ passed) (c.innerStep x xs).2 ∧
      innerStep c (utf8 (before ++ x :: xs)) (utf8 before).length =
        some ((c.innerStep x xs).1, (utf8 (before ++ passed)).length) := by
  have comes : Comes (before ++ x :: xs)
      (innerStep c (utf8 (before ++ x :: xs)) (utf8 before).length) (c.innerStep x xs) := by
    by_cases hs : c.state = .css
    · have parted : Parted before := h.resolve_left nofun hs
      have inner : c.innerStep x xs = c.ruleStep [] (x :: xs) := by
        unfold Context.innerStep
        rw [hs]
      rw [inner, ← parted.ruleStep]
      exact innerStep_comes_of_css hs before (x :: xs)
    · exact innerStep_comes hs ⟨before, rfl, rfl⟩
  have taken : ∃ passed, x :: xs = passed ++ (c.innerStep x xs).2 ∧
      Placed (c.innerStep x xs).1 (before ++ passed) (c.innerStep x xs).2 := by
    by_cases hs : (c.innerStep x xs).1.state = .css
    · rcases Context.innerStep_closed hs with hend | hclosed
      · exact ⟨x :: xs, by rw [hend, List.append_nil], .inl hend⟩
      · obtain ⟨passed, hpassed, parted⟩ := hclosed.parted
        exact ⟨passed, hpassed, .inr fun _ => parted before⟩
    · obtain ⟨j, -, there⟩ := comes
      have le := Nat.le_of_lt (length_innerStep c x xs)
      obtain ⟨passed, hpassed⟩ :=
        List.suffix_of_suffix_length_le there.suffix (List.suffix_append before (x :: xs)) le
      exact ⟨passed, hpassed.symm, .inr fun h => absurd h hs⟩
  obtain ⟨passed, hpassed, placed⟩ := taken
  obtain ⟨j, hj, there⟩ := comes
  have same : At (before ++ x :: xs) (utf8 (before ++ passed)).length (c.innerStep x xs).2 :=
    ⟨before ++ passed, by rw [List.append_assoc, ← hpassed], rfl⟩
  exact ⟨passed, hpassed, placed, by rw [hj, there.pos_unique same]⟩

theorem innerLoop_utf8 {c : Context} {before cs : List Char} (h : Placed c before cs) :
    innerLoop (utf8 (before ++ cs)) c (utf8 before).length = some (c.advanceInner cs) := by
  induction c, cs using Context.advanceInner_induction generalizing before with
  | nil c => rw [innerLoop_of_end (by simp), Context.advanceInner_nil]
  | stuck c x xs failed =>
    rw [innerLoop_of_end (by simp [failed]), Context.advanceInner_of_isError failed]
  | step c x xs ok ih =>
    obtain ⟨passed, hpassed, placed, hstep⟩ := innerStep_placed h
    have inside : (utf8 before).length < (utf8 (before ++ x :: xs)).length :=
      At.lt_iff ⟨before, rfl, rfl⟩ |>.mpr nofun
    have behind := ih placed
    rw [List.append_assoc, ← hpassed] at behind
    rw [innerLoop_of_step ⟨inside, ok⟩ hstep, behind, Context.advanceInner_cons ok]

/-- Inside a value or a body, the scan by positions has a result, and it is that of the scan. -/
theorem advanceInner_utf8 (c : Context) (cs : List Char) :
    advanceInner c (utf8 cs) = some (c.advanceInner cs) := by
  have start : Placed c [] cs := .inr fun _ => rfl
  exact innerLoop_utf8 start

end Indexed

end Stencil.Markup
