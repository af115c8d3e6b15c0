import Stencil.Proofs.Markup.Shape
import Stencil.Proofs.Markup.Output

/-!
# What the parts of a context tell of each other

In a shaped context (`Context.Shaped`) the parts tell the same thing twice over: a value is being
read exactly where the state is one of the grammar of a known attribute
(`Shaped.delim_ne_none_iff`), and an attribute is known exactly from the end of its name to the end
of its value (`Shaped.attr_ne_none_iff`). It follows that every output that a shaped context admits
is escaped: the one grammar without escapers of its own, that of plain values, stands inside a
value, whose delimiter has some (`Shaped.escapers_ne_nil`).

Both hold along every scan, and so of every reachable context (`Reachable.fits`).
-/

set_option autoImplicit false

namespace Stencil.Markup

/-- No part of an address goes without escapers. -/
theorem UrlPart.escapers_ne_nil {part : UrlPart} {rules : List Escaper}
    (h : part.escapers = .ok rules) : rules ≠ [] := by
  cases part <;> cases h
  all_goals exact List.cons_ne_nil _ _

/-- No value goes without escapers. -/
theorem Delim.escapers_ne_nil {delim : Delim} (h : delim ≠ .none) : delim.escapers ≠ [] := by
  cases delim with
  | none => exact absurd rfl h
  | _ => exact List.cons_ne_nil _ _

namespace Context

/-- Whether the state is one that the value of a known attribute is read in. The states of scripts
and style sheets are also those of the bodies of elements, where no attribute is known. -/
def InValue (c : Context) : Prop := c.attr ≠ .none ∧ c.state.kind = c.attr

variable {c : Context}

/-- A value is being read exactly where the state is one of the grammar of a known attribute. -/
theorem Shaped.delim_ne_none_iff (h : c.Shaped) : c.delim ≠ .none ↔ c.InValue := by
  constructor
  · intro hd
    exact (h.value hd).symm
  · rintro ⟨ha, hk⟩ hd
    -- outside of values an attribute is known only in states without a grammar
    have outside := (h.attr hd).mp ha
    refine ha (hk.symm.trans ?_)
    rcases outside with hs | hs <;> rw [hs] <;> rfl

/-- An attribute is known exactly from the end of its name to the end of its value. -/
theorem Shaped.attr_ne_none_iff (h : c.Shaped) :
    c.attr ≠ .none ↔ c.state = .afterName ∨ c.state = .beforeValue ∨ c.InValue := by
  by_cases hd : c.delim = .none
  · have notValue : ¬ c.InValue := fun hv => h.delim_ne_none_iff.mpr hv hd
    simpa [notValue] using h.attr hd
  · have value := h.delim_ne_none_iff.mp hd
    exact ⟨fun _ => .inr (.inr value), fun _ => value.1⟩

/-- The grammar that a context is in has escapers of its own, or it is that of plain values. -/
theorem innerEscapers_ne_nil {inner : List Escaper} (h : c.innerEscapers = .ok inner)
    (hs : c.state ≠ .attr) : inner ≠ [] := by
  unfold innerEscapers at h
  split at h
  case h_3 ha => exact absurd ha hs
  case h_4 | h_5 | h_6 | h_7 => exact UrlPart.escapers_ne_nil h
  all_goals cases h
  all_goals exact List.cons_ne_nil _ _

/-- What a shaped context admits, it escapes. -/
theorem Shaped.escapers_ne_nil (h : c.Shaped) {rules : List Escaper}
    (admits : c.escapers = .ok rules) : rules ≠ [] := by
  obtain ⟨inner, hinner, rfl⟩ := escapers_eq_ok.mp admits
  by_cases hs : c.state = .attr
  · have hd : c.delim ≠ .none := fun hd => (h.bare hd).1 (by rw [hs]; rfl)
    have comment : c.inComment = false := by rw [inComment, hs]
    rw [comment, if_neg nofun]
    exact List.append_ne_nil_of_right_ne_nil inner (Delim.escapers_ne_nil hd)
  · have ne := innerEscapers_ne_nil hinner hs
    split
    · exact ne
    · exact List.append_ne_nil_of_left_ne_nil ne _

/-- The parts of a context fit together, each as far as the others say, and whatever output the
context admits is escaped. -/
structure Fits (c : Context) : Prop extends c.Shaped where
  /-- A value is being read exactly in the states of the grammar of a known attribute. -/
  inValue : c.delim ≠ .none ↔ c.InValue
  /-- An attribute is known exactly behind its name, before its value and in it. -/
  known : c.attr ≠ .none ↔ c.state = .afterName ∨ c.state = .beforeValue ∨ c.InValue
  escaped : ∀ rules, c.escapers = .ok rules → rules ≠ []

/-- The parts of every reachable context fit together. -/
theorem Reachable.fits (h : c.Reachable) : c.Fits :=
  { h.shaped with
    inValue := h.shaped.delim_ne_none_iff
    known := h.shaped.attr_ne_none_iff
    escaped := fun _ => h.shaped.escapers_ne_nil }

/-- In an address in the style sheet of an attribute, behind branches that disagree on its part. -/
theorem Reachable.fits_style :
    Fits { state := .cssUrl, delim := .singleQuote, attr := .style, urlPart := .unknown } := by
  have opened : Reachable (Context.start.advance "<p style='background: url(".toList) :=
    .advance _ .start
  have written := opened.advance "/a".toList
  exact Reachable.fits (.join opened written (by decide +kernel))

end Context

end Stencil.Markup
