import Stencil.Proofs.Escape.Passage
import Stencil.Proofs.Escape.Reference
import Stencil.Proofs.Markup.Closing
import Stencil.Proofs.Markup.Output
import Stencil.Proofs.Markup.Shape

/-!
# An output stays in its place

A value written with the escapers that a context asks for cannot move the scan: behind it, a scan is
where an output leaves it, whatever the value was and whoever writes the JSON texts of scripts
(`advance_output`). Around a value with a delimiter the argument has two layers. What the outer rule
writes holds no delimiter, so it is read inside the value; there its references are replaced, which
gives back what the inner rules wrote, and that is held by the state. Outside of a value no
less-than sign is written, so no tag, comment or end tag starts.

Right behind an equals sign the value is the first that is written without quotes. It is never
empty, and starts with no character that would open a quote or end the tag.
-/

set_option autoImplicit false

namespace Stencil.Markup

open Stencil.Escape

/-! ## The rule around a value -/

variable {d : Delim} {inner : List Escaper} {v : Value} {write : Json → List Char}

/-- A rule for text runs behind the others. -/
theorem apply_append {outer : Escaper} (h : outer ≠ .jsValue) (inner : List Escaper) (v : Value) :
    Escaper.apply (inner ++ [outer]) v write = outer.text (Escaper.apply inner v write) := by
  cases inner with
  | nil => cases outer <;> first | rfl | exact absurd rfl h
  | cons first rest =>
    show (rest ++ [outer]).foldl _ _ = _
    rw [List.foldl_append]
    rfl

theorem apply_htmlAttr (inner : List Escaper) (v : Value) :
    Escaper.apply (inner ++ [.htmlAttr]) v write = htmlAttr (Escaper.apply inner v write) :=
  apply_append (by nofun) inner v

theorem apply_htmlAttrUnquoted (inner : List Escaper) (v : Value) :
    Escaper.apply (inner ++ [.htmlAttrUnquoted]) v write =
      htmlAttrUnquoted (Escaper.apply inner v write) :=
  apply_append (by nofun) inner v

/-- What can stand in a value without quotes starts it and does not end it. -/
theorem bare_of_isUnquotedSign {x : Char} (h : isUnquotedSign x = false) :
    Text.isSpace x = false ∧ x ≠ '>' ∧ x ≠ '"' ∧ x ≠ '\'' := by
  simp only [isUnquotedSign, isMarkupSign, Bool.or_eq_false_iff] at h
  obtain ⟨⟨⟨markup, space⟩, -⟩, -⟩ := h
  refine ⟨space, ?_, ?_, ?_⟩ <;> rintro rfl <;> cases markup

/-- The rule for quoted values writes no quote. -/
theorem Delim.ends_htmlAttr (hd : d = .doubleQuote ∨ d = .singleQuote) (cs : List Char) :
    ∀ x ∈ htmlAttr cs, d.ends x = false := by
  intro x hx
  have sign := isMarkupSign_of_mem_htmlAttr hx
  apply Bool.eq_false_iff.mpr
  intro hends
  rcases hd with rfl | rfl
  all_goals
    rw [eq_of_beq hends] at sign
    cases sign

/-- The rule for a delimiter writes no character that ends the value. -/
theorem Delim.ends_apply (hd : d ≠ .none) :
    ∀ x ∈ Escaper.apply (inner ++ d.escapers) v write, d.ends x = false := by
  intro x hx
  cases d with
  | none => exact absurd rfl hd
  | doubleQuote =>
    rw [Delim.escapers, apply_htmlAttr] at hx
    exact ends_htmlAttr (.inl rfl) _ x hx
  | singleQuote =>
    rw [Delim.escapers, apply_htmlAttr] at hx
    exact ends_htmlAttr (.inr rfl) _ x hx
  | spaceOrTagEnd =>
    rw [Delim.escapers, apply_htmlAttrUnquoted] at hx
    obtain ⟨space, gt, -⟩ := bare_of_isUnquotedSign (isUnquotedSign_of_mem_htmlAttrUnquoted hx)
    apply Bool.eq_false_iff.mpr
    intro hends
    simp only [Delim.ends, Bool.or_eq_true, beq_iff_eq] at hends
    rcases hends with h | h
    · rw [space] at h
      cases h
    · exact gt h

/-- Inside the value stands what the inner rules wrote, or the stand-in for nothing. -/
theorem Delim.decodeEntities_apply (hd : d ≠ .none) (inner : List Escaper) (v : Value) :
    decodeEntities (Escaper.apply (inner ++ d.escapers) v write) =
        (Escaper.apply inner v write).map withoutNull ∨
      decodeEntities (Escaper.apply (inner ++ d.escapers) v write) = refused := by
  cases d with
  | none => exact absurd rfl hd
  | doubleQuote | singleQuote =>
    rw [Delim.escapers, apply_htmlAttr]
    exact .inl (decodeEntities_htmlAttr _)
  | spaceOrTagEnd =>
    rw [Delim.escapers, apply_htmlAttrUnquoted]
    by_cases hempty : Escaper.apply inner v write = []
    · rw [hempty]
      exact .inr decodeEntities_refused
    · exact .inl (decodeEntities_htmlAttrUnquoted hempty)

namespace Context

variable {c : Context} {rules : List Escaper}

/-! ## A context in which an output is written -/

/-- Nothing is written in a comment. -/
theorem apply_of_inComment (hc : c.inComment = true) (h : c.innerEscapers = .ok rules) (v : Value) :
    Escaper.apply rules v write = [] := by
  unfold inComment at hc
  unfold innerEscapers at h
  cases hs : c.state
  all_goals rw [hs] at h hc
  case comment | jsLineComment | jsBlockComment | cssComment => cases h; rfl
  all_goals cases hc

/-- A value with a delimiter holds what is written in it. -/
theorem advance_output_of_value (shaped : c.Shaped) (ok : c.isError = false)
    (hd : c.delim ≠ .none) (h : c.innerEscapers = .ok inner) (v : Value) (w : Json.Writer) :
    (c.advance (Escaper.apply (inner ++ c.delim.escapers) v w.write)).SamePlace c := by
  obtain ⟨hkind, hattr⟩ := shaped.value hd
  rw [advance_of_open ok hd (Delim.ends_apply hd)]
  apply advanceInner_of_holds
  rcases Delim.decodeEntities_apply hd inner v with hw | hw
  · rw [hw]
    by_cases hplain : c.state.kind = .plain
    · cases hs : c.state <;> rw [hs] at hplain <;> trivial
    · obtain ⟨-, hnull⟩ := clean_of_innerEscapers h ⟨hkind ▸ hattr, hplain⟩ v w
      rw [map_withoutNull hnull]
      exact holds_of_innerEscapers h v w
  · rw [hw]
    exact c.state.holds_refused

/-- Text without a less-than sign stays text. -/
theorem textStep_of_not_mem {cs : List Char} (h : '<' ∉ cs) : c.textStep cs = (c, []) := by
  induction cs with
  | nil => rfl
  | cons x xs ih =>
    rw [List.mem_cons, not_or] at h
    rw [textStep, if_neg (Ne.symm h.1), ih h.2]

theorem advance_of_text (hd : c.delim = .none) (hs : c.state = .text) {cs : List Char}
    (h : '<' ∉ cs) : c.advance cs = c := by
  have ok : c.isError = false := by rw [isError, hs]; rfl
  cases cs with
  | nil => rw [advance_nil]
  | cons x xs =>
    have step : c.step (x :: xs) = c.textStep (x :: xs) := by
      rw [Context.step, if_neg (by simp [hd]), if_neg (by simp [inElementBody, hs]), hs]
    rw [advance_cons ok, step, textStep_of_not_mem h, advance_nil]

/-- Text and bodies hold what is written in them. -/
theorem advance_output_of_bare (shaped : c.Shaped) (ok : c.isError = false) (hd : c.delim = .none)
    (hc : c.inComment = false) (h : c.innerEscapers = .ok inner) (v : Value) (w : Json.Writer) :
    (c.advance (Escaper.apply inner v w.write)).SamePlace c := by
  -- in a body, a text without a less-than sign is read as the inside of a value is
  have body (hs : c.state.kind = .script ∨ c.state.kind = .style ∨ c.state = .rcdata)
      (hlt : '<' ∉ Escaper.apply inner v w.write) :
      (c.advance (Escaper.apply inner v w.write)).SamePlace c := by
    rw [advance_of_body ok (shaped.inElementBody hd hs) (cutEndTag_of_not_mem hlt)]
    exact advanceInner_of_holds (holds_of_innerEscapers h v w)
  have text : '<' ∉ html v.chars := by
    intro hx
    exact absurd (isMarkupSign_of_mem_html hx) (by decide)
  by_cases hk : c.state.kind = .none
  · have admits := h
    unfold innerEscapers at admits
    unfold inComment at hc
    cases hs : c.state
    all_goals rw [hs] at admits hk hc
    case text =>
      cases admits
      have escaped : Escaper.apply [.htmlText] v w.write = html v.chars := rfl
      rw [escaped, advance_of_text hd hs text]
      exact .refl c
    case rcdata =>
      cases admits
      exact body (.inr (.inr hs)) text
    case comment => cases hc
    all_goals first | (cases admits; done) | cases hk
  · obtain ⟨hplain, hurl⟩ := shaped.bare hd
    refine body ?_ (clean_of_innerEscapers h ⟨hk, hplain⟩ v w).1
    cases hkind : c.state.kind with
    | none => exact absurd hkind hk
    | plain => exact absurd hkind hplain
    | url => exact absurd hkind hurl
    | script => exact .inl rfl
    | style => exact .inr (.inl rfl)

/-- A context in which an output is written holds it. -/
theorem advance_output_of_escapers (shaped : c.Shaped) (ok : c.isError = false)
    (h : c.escapers = .ok rules) (v : Value) (w : Json.Writer) :
    (c.advance (Escaper.apply rules v w.write)).SamePlace c := by
  obtain ⟨inner, hinner, rfl⟩ := escapers_eq_ok.mp h
  split
  · next hc =>
    rw [apply_of_inComment hc hinner v, advance_nil]
    exact .refl c
  · next hc =>
    by_cases hd : c.delim = .none
    · rw [hd, Delim.escapers, List.append_nil]
      exact advance_output_of_bare shaped ok hd (by simpa using hc) hinner v w
    · exact advance_output_of_value shaped ok hd hinner v w

/-! ## Outputs -/

/-- What is written right behind an equals sign has a first character, which can stand in a value
without quotes. -/
theorem output_behind_equals (hs : c.state = .beforeValue) (h : c.nudge.escapers = .ok rules)
    (v : Value) : ∃ x xs, Escaper.apply rules v write = x :: xs ∧ isUnquotedSign x = false := by
  obtain ⟨inner, -, rfl⟩ := escapers_eq_ok.mp h
  have outside : c.nudge.inComment = false := by
    rw [nudge, hs]
    dsimp only [enterValue, inComment]
    cases c.attr <;> rfl
  have unquoted : c.nudge.delim = .spaceOrTagEnd := by rw [nudge, hs]; rfl
  rw [outside, if_neg Bool.false_ne_true, unquoted, Delim.escapers, apply_htmlAttrUnquoted]
  have filled := htmlAttrUnquoted_ne_nil (Escaper.apply inner v write)
  obtain ⟨x, xs, hout⟩ := List.exists_cons_of_ne_nil filled
  have hx : x ∈ htmlAttrUnquoted (Escaper.apply inner v write) := by
    rw [hout]
    exact List.mem_cons_self ..
  exact ⟨x, xs, hout, isUnquotedSign_of_mem_htmlAttrUnquoted hx⟩

/-- An output is read from a context as from its nudge. -/
theorem advance_output_of_nudge (shaped : c.Shaped) (h : c.nudge.escapers = .ok rules) (v : Value) :
    c.advance (Escaper.apply rules v write) = c.nudge.advance (Escaper.apply rules v write) := by
  by_cases hb : c.state = .beforeValue
  · obtain ⟨x, xs, hout, hx⟩ := output_behind_equals hb h v
    obtain ⟨space, gt, double, single⟩ := bare_of_isUnquotedSign hx
    rw [hout]
    exact advance_of_bare (shaped.delim_eq hb rfl) hb space gt double single xs
  · by_cases ha : c.state = .afterName
    · have tag : c.nudge.state = .tag := by rw [nudge, ha]
      exact absurd h (escapers_of_tag tag rules)
    · rw [nudge_of_other hb ha]

theorem samePlace_afterOutput (c : Context) : c.SamePlace c.afterOutput := by
  unfold afterOutput
  split <;> rfl

/-- An output stays in its place: whatever the value and whoever writes the JSON texts of scripts, a
scan of what is written for it makes no error and ends where an output leaves the context, but for
the part of an address and the meaning of a slash; and a value right behind an equals sign is not
empty. -/
theorem advance_output (hc : c.Reachable) (ok : c.isError = false)
    (h : c.nudge.escapers = .ok rules) (v : Value) (w : Json.Writer) :
    (c.advance (Escaper.apply rules v w.write)).isError = false ∧
      (c.advance (Escaper.apply rules v w.write)).SamePlace c.nudge.afterOutput ∧
      (c.state = .beforeValue → Escaper.apply rules v w.write ≠ []) := by
  have place : (c.advance (Escaper.apply rules v w.write)).SamePlace c.nudge := by
    rw [advance_output_of_nudge hc.shaped h v]
    exact advance_output_of_escapers hc.shaped.nudge (isError_nudge ok) h v w
  refine ⟨?_, place.trans (samePlace_afterOutput c.nudge), ?_⟩
  · rw [place.isError]
    exact isError_nudge ok
  · intro hb
    obtain ⟨x, xs, hout, -⟩ := output_behind_equals hb h v
    rw [hout]
    exact List.cons_ne_nil x xs

/-- A list in an event handler without quotes, with text that could close the handler's tag. -/
theorem advance_output_handler :
    let c := Context.start.advance "<a onclick=".toList
    let out := Escaper.apply [.jsValue, .htmlAttrUnquoted] (.array [.string "'></a>", .null])
    (c.advance out).isError = false ∧ (c.advance out).SamePlace c.nudge.afterOutput ∧ out ≠ [] := by
  have opened : Context.start.advance "<a onclick=".toList =
      { state := .beforeValue, attr := .script } := by decide +kernel
  have admits : (Context.start.advance "<a onclick=".toList).nudge.escapers =
      .ok [.jsValue, .htmlAttrUnquoted] := by rw [opened]; rfl
  obtain ⟨ok, place, filled⟩ := advance_output (.advance _ .start) (by rw [opened]; rfl) admits
    (.array [.string "'></a>", .null]) .compact
  exact ⟨ok, place, filled (by rw [opened])⟩

end Context

end Stencil.Markup
