import Stencil.Proofs.Markup.Shape
import Stencil.Proofs.Markup.Closing

/-!
# Values and bodies are left only at their end

What opens an end tag is said without a search (`OpensEndTag`); the search for one finds the first
if there is any (`cutEndTag_eq_none`, `cutEndTag_eq_some`). With that, where a scan leaves a value
or a body is a question about the text alone: a value at the first character that ends it, a body at
the first end tag of its element (`Reachable.left_only_at_end`). What the text means to the grammar
inside has no say in it. A character reference cannot end a value, since the end is looked for
before references are decoded, and an end tag ends a script also in a string, in a comment and
behind a slash of unknown meaning.
-/

set_option autoImplicit false

namespace Stencil.Markup

open Stencil.Text

/-! ## End tags in a text -/

/-- A text opens with an end tag: the name in any case, and behind it nothing that could belong to
a longer name. -/
def OpensEndTag (name cs after : List Char) : Prop :=
  ∃ written, cs = '<' :: '/' :: (written ++ after) ∧ written.map lower = name ∧
    after.head?.any isTagNamePart = false

theorem endTag?_eq_some {name cs after : List Char} :
    endTag? name cs = some after ↔ OpensEndTag name cs after := by
  constructor
  · intro h
    unfold endTag? at h
    split at h
    · next rest =>
      dsimp only at h
      split at h
      · next hopens =>
        cases h
        refine ⟨rest.take name.length, ?_, hopens.1, by simpa using hopens.2⟩
        rw [List.take_append_drop]
      · cases h
    · cases h
  · rintro ⟨written, rfl, hname, hafter⟩
    have hlen : name.length = written.length := by rw [← hname, List.length_map]
    rw [endTag?_cons_cons, hlen, List.take_left, List.drop_left]
    exact if_pos ⟨hname, by simp [hafter]⟩

theorem endTag?_eq_none {name cs : List Char} :
    endTag? name cs = none ↔ ∀ after, ¬ OpensEndTag name cs after := by
  simp only [← endTag?_eq_some, Option.eq_none_iff_forall_ne_some, ne_eq]

/-- No end tag opens at the end of a text. -/
theorem not_opensEndTag_nil {name after : List Char} : ¬ OpensEndTag name [] after :=
  fun ⟨_, h, _⟩ => nomatch h

/-- The search for an end tag fails where none opens at any place. -/
theorem cutEndTag_eq_none {name cs : List Char} :
    cutEndTag name cs = none ↔ ∀ u w after, cs = u ++ w → ¬ OpensEndTag name w after := by
  induction cs with
  | nil =>
    refine ⟨fun _ u w after h => ?_, fun _ => rfl⟩
    rw [(List.append_eq_nil_iff.mp h.symm).2]
    exact not_opensEndTag_nil
  | cons x xs ih =>
    unfold cutEndTag
    cases hx : endTag? name (x :: xs) with
    | some after =>
      constructor
      · intro h
        cases h
      · intro h
        exact absurd (endTag?_eq_some.mp hx) (h [] (x :: xs) after rfl)
    | none =>
      rw [endTag?_eq_none] at hx
      rw [Option.map_eq_none_iff, ih]
      constructor
      · intro h u w after heq
        cases u with
        | nil =>
          rw [List.nil_append] at heq
          exact heq ▸ hx after
        | cons y ys =>
          obtain ⟨-, rfl⟩ := List.cons.inj heq
          exact h ys w after rfl
      · intro h u w after heq
        exact h (x :: u) w after (by rw [heq, List.cons_append])

/-- The search for an end tag cuts a text at the first. -/
theorem cutEndTag_eq_some {name cs u after : List Char} :
    cutEndTag name cs = some (u, after) ↔
      ∃ w, cs = u ++ w ∧ OpensEndTag name w after ∧
        ∀ u' w' after', cs = u' ++ w' → OpensEndTag name w' after' → u.length ≤ u'.length := by
  induction cs generalizing u with
  | nil =>
    refine ⟨nofun, fun ⟨w, h, opens, _⟩ => ?_⟩
    rw [(List.append_eq_nil_iff.mp h.symm).2] at opens
    exact absurd opens not_opensEndTag_nil
  | cons x xs ih =>
    unfold cutEndTag
    cases hx : endTag? name (x :: xs) with
    | some rest =>
      have here : OpensEndTag name (x :: xs) rest := endTag?_eq_some.mp hx
      constructor
      · intro h
        cases h
        exact ⟨x :: xs, rfl, here, fun _ _ _ _ _ => Nat.zero_le _⟩
      · rintro ⟨w, heq, opens, first⟩
        have hu : u = [] := List.eq_nil_of_length_eq_zero (Nat.le_zero.mp (first [] _ _ rfl here))
        subst hu
        rw [← List.nil_append w, ← heq, ← endTag?_eq_some, hx] at opens
        rw [Option.some.inj opens]
    | none =>
      rw [endTag?_eq_none] at hx
      rw [Option.map_eq_some_iff]
      constructor
      · rintro ⟨⟨v, rest⟩, h, hcons⟩
        cases hcons
        obtain ⟨w, rfl, opens, first⟩ := ih.mp h
        refine ⟨w, rfl, opens, fun u' w' after' heq opens' => ?_⟩
        cases u' with
        | nil =>
          rw [List.nil_append] at heq
          exact absurd opens' (heq ▸ hx after')
        | cons y ys => exact Nat.succ_le_succ (first ys w' after' (List.cons.inj heq).2 opens')
      · rintro ⟨w, heq, opens, first⟩
        cases u with
        | nil =>
          rw [List.nil_append] at heq
          exact absurd opens (heq ▸ hx after)
        | cons y ys =>
          obtain ⟨rfl, rfl⟩ := List.cons.inj heq
          refine ⟨(ys, after), ih.mpr ⟨w, rfl, opens, fun u' w' after' h opens' => ?_⟩, rfl⟩
          have later := first (x :: u') w' after' (by rw [h, List.cons_append]) opens'
          exact Nat.le_of_succ_le_succ later

namespace Context

/-! ## Where a scan leaves -/

/-- In the body of an element with a body of its own: a script, a style sheet, or a text without
tags. -/
def InBody (c : Context) : Prop :=
  c.delim = .none ∧ (c.state.kind = .script ∨ c.state.kind = .style ∨ c.state = .rcdata)

variable {c : Context}

/-- A text inside a value or a body stays there, or ends in an error. -/
theorem advanceInner_stays (c : Context) (cs : List Char) :
    (c.advanceInner cs).isError = true ∨ c.Within (c.advanceInner cs) := by
  rcases advanceInner_within c cs with ⟨hf, -⟩ | hw
  · rw [hf]
    exact .inl rfl
  · exact .inr hw

/-- **Values and bodies are left only at their end.** A text without a character that ends the value
leaves an error or a place in the same value, and a text without an end tag of the element an error
or a place in the same body; a text that holds such a tag is read behind the first as from a fresh
end tag, whatever came before. -/
theorem Reachable.left_only_at_end (h : c.Reachable) (ok : c.isError = false) (cs : List Char) :
    (c.delim ≠ .none → (∀ x ∈ cs, c.delim.ends x = false) →
      (c.advance cs).isError = true ∨ c.Within (c.advance cs)) ∧
    (c.InBody → (∀ u w after, cs = u ++ w → ¬ OpensEndTag c.element.name.toList w after) →
      (c.advance cs).isError = true ∨ c.Within (c.advance cs)) ∧
    (c.InBody → ∀ u w after, cs = u ++ w → OpensEndTag c.element.name.toList w after →
      (∀ u' w' after', cs = u' ++ w' → OpensEndTag c.element.name.toList w' after' →
        u.length ≤ u'.length) →
      c.advance cs = endTagOpened.advance after) := by
  refine ⟨fun hd hopen => ?_, fun hb hnone => ?_, fun hb u w after heq opens first => ?_⟩
  · rw [advance_of_open ok hd hopen]
    exact advanceInner_stays c _
  · have body : c.inElementBody = true := h.shaped.inElementBody hb.1 hb.2
    rw [advance_of_body ok body (cutEndTag_eq_none.mpr hnone)]
    exact advanceInner_stays c cs
  · have body : c.inElementBody = true := h.shaped.inElementBody hb.1 hb.2
    exact advance_of_ended ok body (cutEndTag_eq_some.mpr ⟨w, heq, opens, first⟩)

/-- An encoded quote does not end a value, a tag whose name only starts like the element's does not
end a script, and one inside a string does. -/
theorem left_only_at_end_of_script :
    let value := start.advance "<p onclick=\"".toList
    let script := start.advance "<script>s = '".toList
    let call := "f(&quot;a/&#34;".toList
    let other := "</scripts></scrip".toList
    ((value.advance call).isError = true ∨ value.Within (value.advance call)) ∧
      ((script.advance other).isError = true ∨ script.Within (script.advance other)) ∧
      script.advance "</</SCRIPT >".toList = endTagOpened.advance " >".toList := by
  intro value script call other
  have hvalue : value.Reachable := .advance _ .start
  have hscript : script.Reachable := .advance _ .start
  have okValue : value.isError = false := by decide +kernel
  have okScript : script.isError = false := by decide +kernel
  have body : script.InBody := ⟨by decide +kernel, .inl (by decide +kernel)⟩
  refine ⟨?_, ?_, ?_⟩
  · have quoted : value.delim ≠ .none := by decide +kernel
    have passed : call.all (fun x => value.delim.ends x = false) = true := by decide +kernel
    refine (hvalue.left_only_at_end okValue _).1 quoted fun x hx => ?_
    exact of_decide_eq_true (List.all_eq_true.mp passed x hx)
  · refine (hscript.left_only_at_end okScript _).2.1 body (cutEndTag_eq_none.mp ?_)
    decide +kernel
  · have cut : cutEndTag script.element.name.toList "</</SCRIPT >".toList =
        some ("</".toList, " >".toList) := by decide +kernel
    obtain ⟨w, heq, opens, first⟩ := cutEndTag_eq_some.mp cut
    exact (hscript.left_only_at_end okScript _).2.2 body _ w _ heq opens first

end Context

end Stencil.Markup
