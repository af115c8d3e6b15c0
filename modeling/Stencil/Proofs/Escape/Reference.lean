import Stencil.Escape.Markup
import Stencil.Markup.Entity

/-!
# Reading escaped markup back

A scan replaces the character references of a value before it reads what the value holds. That
undoes the rules for markup, whichever of them wrote the value: every character comes back as it
was, and a null as the replacement character (`decodeEntities_htmlAttr` and its siblings).
-/

set_option autoImplicit false

namespace Stencil.Escape

open Stencil.Markup

/-- A character as markup can hold it. -/
def withoutNull (c : Char) : Char :=
  if c = '\x00' then '\ufffd' else c

theorem withoutNull_of_ne {c : Char} (h : c ≠ '\x00') : withoutNull c = c := if_neg h

theorem map_withoutNull {cs : List Char} (h : '\x00' ∉ cs) : cs.map withoutNull = cs := by
  have same : cs.map withoutNull = cs.map id := by
    apply List.map_congr_left
    intro c hc
    apply withoutNull_of_ne
    intro heq
    exact h (heq ▸ hc)
  rw [same, List.map_id]

variable {c d : Char} {cs rest : List Char}

theorem decodeEntities_cons_of_ne (h : c ≠ '&') (rest : List Char) :
    decodeEntities (c :: rest) = c :: decodeEntities rest := by
  rw [decodeEntities, if_neg h]

/-- A text without an ampersand is what it stands for. -/
theorem decodeEntities_of_not_mem (h : '&' ∉ cs) : decodeEntities cs = cs := by
  induction cs with
  | nil => rw [decodeEntities]
  | cons c cs ih =>
    rw [List.mem_cons, not_or] at h
    rw [decodeEntities_cons_of_ne (Ne.symm h.1), ih h.2]

theorem decodeEntities_reference (h : reference? cs = some (d, rest)) :
    decodeEntities ('&' :: cs) = d :: decodeEntities rest := by
  rw [decodeEntities, if_pos rfl]
  split
  · next heq =>
    rw [h] at heq
    cases heq
    rfl
  · next heq =>
    rw [h] at heq
    cases heq

/-- Text comes back one character at a time. -/
theorem decodeEntities_htmlChar (c : Char) (rest : List Char) :
    decodeEntities (htmlChar c ++ rest) = withoutNull c :: decodeEntities rest := by
  unfold htmlChar
  split
  · exact decodeEntities_reference rfl
  · exact decodeEntities_reference rfl
  · exact decodeEntities_reference rfl
  · exact decodeEntities_reference rfl
  · exact decodeEntities_reference rfl
  · exact decodeEntities_cons_of_ne (by decide) rest
  · next hamp _ _ _ _ hnull =>
    rw [withoutNull_of_ne hnull]
    exact decodeEntities_cons_of_ne hamp rest

theorem decodeEntities_htmlAttrChar (c : Char) (rest : List Char) :
    decodeEntities (htmlAttrChar c ++ rest) = withoutNull c :: decodeEntities rest := by
  unfold htmlAttrChar
  split
  · exact decodeEntities_reference rfl
  · exact decodeEntities_htmlChar c rest

theorem decodeEntities_htmlUnquotedChar (c : Char) (rest : List Char) :
    decodeEntities (htmlUnquotedChar c ++ rest) = withoutNull c :: decodeEntities rest := by
  unfold htmlUnquotedChar
  split
  case h_8 => exact decodeEntities_htmlAttrChar c rest
  all_goals exact decodeEntities_reference rfl

/-- What comes back one character at a time comes back as a whole. -/
theorem decodeEntities_flatMap {rule : Char → List Char}
    (h : ∀ c rest, decodeEntities (rule c ++ rest) = withoutNull c :: decodeEntities rest)
    (cs : List Char) : decodeEntities (cs.flatMap rule) = cs.map withoutNull := by
  induction cs with
  | nil => rw [List.flatMap_nil, decodeEntities, List.map_nil]
  | cons c cs ih => rw [List.flatMap_cons, h, ih, List.map_cons]

theorem decodeEntities_html (cs : List Char) : decodeEntities (html cs) = cs.map withoutNull :=
  decodeEntities_flatMap decodeEntities_htmlChar cs

theorem decodeEntities_htmlAttr (cs : List Char) :
    decodeEntities (htmlAttr cs) = cs.map withoutNull :=
  decodeEntities_flatMap decodeEntities_htmlAttrChar cs

/-- A value without quotes comes back if it is not empty. -/
theorem decodeEntities_htmlAttrUnquoted (h : cs ≠ []) :
    decodeEntities (htmlAttrUnquoted cs) = cs.map withoutNull := by
  rw [htmlAttrUnquoted, if_neg h]
  exact decodeEntities_flatMap decodeEntities_htmlUnquotedChar cs

/-- What stands for an empty value holds no references. -/
theorem decodeEntities_refused : decodeEntities (htmlAttrUnquoted []) = refused := by
  rw [htmlAttrUnquoted, if_pos rfl]
  exact decodeEntities_of_not_mem (by decide)

end Stencil.Escape
