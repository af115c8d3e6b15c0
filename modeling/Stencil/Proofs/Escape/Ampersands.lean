import Stencil.Proofs.Escape.Reference
import Stencil.Proofs.Escape.Signs

/-!
# Ampersands in escaped markup

The rules for markup write an ampersand only where a reference of their own starts
(`ampersandsStart_flatMap`). Each rule has its table of references: that of a quoted value adds one
to the table for text, that of a value without quotes those for what would end it.

Together with the readers of references this is what the three rules are good for: what they write
holds no sign of its place, stands for the text that was written, and leaves nothing that a reader
could take for a reference of the text itself (`escaped_readsBack`). A text that is escaped already
or that holds half a reference is no exception, since its ampersands are written as references too.
-/

set_option autoImplicit false

namespace Stencil.Escape

open Stencil.Markup Stencil.Text

/-- The references that text is written with. -/
def textReferences : List (List Char) :=
  ["&amp;".toList, "&lt;".toList, "&gt;".toList, "&quot;".toList, "&#39;".toList]

/-- The references that a quoted value is written with. -/
def quotedReferences : List (List Char) := "&#43;".toList :: textReferences

/-- The references that a value without quotes is written with. -/
def unquotedReferences : List (List Char) :=
  ["&#9;".toList, "&#10;".toList, "&#12;".toList, "&#13;".toList, "&#32;".toList, "&#61;".toList,
    "&#96;".toList] ++ quotedReferences

/-- Every ampersand of a text starts one of some references. -/
def AmpersandsStart (references : List (List Char)) (cs : List Char) : Prop :=
  ∀ after, '&' :: after <:+ cs → ∃ r ∈ references, r <+: '&' :: after

/-- What a rule may write for a character: another than an ampersand, or a reference. -/
def WrittenWith (references : List (List Char)) (cs : List Char) : Prop :=
  (∃ c, c ≠ '&' ∧ cs = [c]) ∨ cs ∈ references

variable {references : List (List Char)} {c : Char} {cs : List Char}

theorem WrittenWith.mono {more : List (List Char)} (h : WrittenWith references cs)
    (hsub : references ⊆ more) : WrittenWith more cs :=
  h.imp_right fun hmem => hsub hmem

theorem writtenWith_htmlChar (c : Char) : WrittenWith textReferences (htmlChar c) := by
  unfold htmlChar
  split
  case h_6 => exact .inl ⟨'\ufffd', by decide, rfl⟩
  case h_7 hamp _ _ _ _ _ => exact .inl ⟨c, hamp, rfl⟩
  all_goals exact .inr (by decide)

theorem writtenWith_htmlAttrChar (c : Char) : WrittenWith quotedReferences (htmlAttrChar c) := by
  unfold htmlAttrChar
  split
  · exact .inr (by decide)
  · exact (writtenWith_htmlChar c).mono (List.subset_cons_self _ _)

theorem writtenWith_htmlUnquotedChar (c : Char) :
    WrittenWith unquotedReferences (htmlUnquotedChar c) := by
  unfold htmlUnquotedChar
  split
  case h_8 => exact (writtenWith_htmlAttrChar c).mono (List.subset_append_right _ _)
  all_goals exact .inr (by decide)

/-- No end of a text that starts with a character starts inside a piece without it. -/
theorem suffix_of_not_mem {name rest after : List Char} (h : c ∉ name)
    (hs : c :: after <:+ name ++ rest) : c :: after <:+ rest := by
  induction name with
  | nil => exact hs
  | cons x xs ih =>
    rw [List.mem_cons, not_or] at h
    rw [List.cons_append, List.suffix_cons_iff] at hs
    rcases hs with heq | hs
    · exact absurd (List.cons.inj heq).1 h.1
    · exact ih h.2 hs

/-- A rule that writes other characters and references leaves no ampersand by itself. -/
theorem ampersandsStart_flatMap {rule : Char → List Char}
    (names : ∀ r ∈ references, ∃ name, r = '&' :: name ∧ '&' ∉ name)
    (written : ∀ c, WrittenWith references (rule c)) (cs : List Char) :
    AmpersandsStart references (cs.flatMap rule) := by
  induction cs with
  | nil =>
    intro after h
    exact absurd (List.suffix_nil.mp h) (List.cons_ne_nil _ _)
  | cons c cs ih =>
    intro after h
    rw [List.flatMap_cons] at h
    rcases written c with ⟨x, hx, heq⟩ | hmem
    · rw [heq] at h
      refine ih after (suffix_of_not_mem ?_ h)
      simpa using hx.symm
    · obtain ⟨name, hname, hnot⟩ := names _ hmem
      rw [hname, List.cons_append, List.suffix_cons_iff] at h
      rcases h with heq | h
      · -- the ampersand of the reference itself
        refine ⟨rule c, hmem, ?_⟩
        rw [hname, heq]
        exact List.cons_prefix_cons.mpr ⟨rfl, List.prefix_append _ _⟩
      · exact ih after (suffix_of_not_mem hnot h)

/-- A reference of the tables has one ampersand, the first. -/
theorem exists_name_of_mem (h : cs ∈ unquotedReferences) :
    ∃ name, cs = '&' :: name ∧ '&' ∉ name := by
  have all : ∀ r ∈ unquotedReferences, r.head? = some '&' ∧ '&' ∉ r.tail := by decide
  obtain ⟨hhead, htail⟩ := all cs h
  obtain ⟨name, rfl⟩ := List.head?_eq_some_iff.mp hhead
  exact ⟨name, rfl, htail⟩

theorem ampersandsStart_html (cs : List Char) : AmpersandsStart textReferences (html cs) :=
  ampersandsStart_flatMap
    (fun _ h => exists_name_of_mem (List.mem_append_right _ (List.mem_cons_of_mem _ h)))
    writtenWith_htmlChar cs

theorem ampersandsStart_htmlAttr (cs : List Char) :
    AmpersandsStart quotedReferences (htmlAttr cs) :=
  ampersandsStart_flatMap (fun _ h => exists_name_of_mem (List.mem_append_right _ h))
    writtenWith_htmlAttrChar cs

/-- The stand-in for an empty value has no ampersand. -/
theorem ampersandsStart_htmlAttrUnquoted (cs : List Char) :
    AmpersandsStart unquotedReferences (htmlAttrUnquoted cs) := by
  unfold htmlAttrUnquoted
  split
  · intro after h
    exact absurd (h.subset (List.mem_cons_self ..)) (by decide)
  · exact ampersandsStart_flatMap (fun _ h => exists_name_of_mem h) writtenWith_htmlUnquotedChar cs

/-- **Escaped markup reads back.** Each of the three rules writes a text that stands for the one it
was given, with a replacement character for each null; that holds none of the signs that end the
place it is written for; and that has no ampersands but those of the rule's references. -/
theorem escaped_readsBack (cs : List Char) :
    (decodeEntities (html cs) = cs.map withoutNull ∧
      decodeEntities (htmlAttr cs) = cs.map withoutNull ∧
      (cs ≠ [] → decodeEntities (htmlAttrUnquoted cs) = cs.map withoutNull)) ∧
    ((∀ x ∈ html cs, x ∉ ['<', '>', '"', '\'']) ∧
      (∀ x ∈ htmlAttr cs, x ∉ ['<', '>', '"', '\'']) ∧
      (∀ x ∈ htmlAttrUnquoted cs,
        x ∉ ['<', '>', '"', '\'', '\t', '\n', '\x0c', '\r', ' ', '=', '\x60'])) ∧
    AmpersandsStart textReferences (html cs) ∧
      AmpersandsStart quotedReferences (htmlAttr cs) ∧
      AmpersandsStart unquotedReferences (htmlAttrUnquoted cs) := by
  have sign {x : Char} (h : isMarkupSign x = false) : x ∉ ['<', '>', '"', '\''] := by
    intro hmem
    have meant : isMarkupSign x = true := prop_of_mem hmem (by decide)
    rw [meant] at h
    cases h
  have bare {x : Char} (h : isUnquotedSign x = false) :
      x ∉ ['<', '>', '"', '\'', '\t', '\n', '\x0c', '\r', ' ', '=', '\x60'] := by
    intro hmem
    have meant : isUnquotedSign x = true := prop_of_mem hmem (by decide)
    rw [meant] at h
    cases h
  refine ⟨⟨decodeEntities_html cs, decodeEntities_htmlAttr cs, decodeEntities_htmlAttrUnquoted⟩,
    ⟨?_, ?_, ?_⟩, ampersandsStart_html cs, ampersandsStart_htmlAttr cs,
    ampersandsStart_htmlAttrUnquoted cs⟩
  · intro x hx
    exact sign (isMarkupSign_of_mem_html hx)
  · intro x hx
    exact sign (isMarkupSign_of_mem_htmlAttr hx)
  · intro x hx
    exact bare (isUnquotedSign_of_mem_htmlAttrUnquoted hx)

/-- Half a reference and a sign that its digits could run into come back, with a null between
them. -/
theorem escaped_readsBack_halfReference :
    let cs := "&#3<9&lt\x00 =".toList
    (cs ≠ [] ∧ decodeEntities "&amp;#3&lt;9&amp;lt\ufffd&#32;&#61;".toList =
      "&#3<9&lt\ufffd =".toList) ∧
    ('&' ∈ html cs ∧ '&' ∉ ['<', '>', '"', '\'']) ∧
    "&#61;".toList <:+ htmlAttrUnquoted cs ∧ ∃ r ∈ unquotedReferences, r <+: "&#61;".toList := by
  intro cs
  have written : htmlAttrUnquoted cs = "&amp;#3&lt;9&amp;lt\ufffd&#32;&#61;".toList := by
    decide +kernel
  have nonempty : cs ≠ [] := by decide +kernel
  have sign : '&' ∈ html cs := by decide +kernel
  have behind : "&#61;".toList <:+ htmlAttrUnquoted cs := by decide +kernel
  obtain ⟨⟨-, -, back⟩, ⟨text, -, -⟩, -, -, ampersands⟩ := escaped_readsBack cs
  have back := back nonempty
  rw [written] at back
  refine ⟨⟨nonempty, back.trans (by decide +kernel)⟩, ⟨sign, text '&' sign⟩, behind, ?_⟩
  exact ampersands "#61;".toList behind

end Stencil.Escape
