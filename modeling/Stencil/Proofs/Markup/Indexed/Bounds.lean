import Mathlib.Data.List.Chain
import Stencil.Proofs.Markup.Indexed.Steps

/-!
# The scan stays in bounds and ends

From any context, over any text: each call of a step that the loop of a scan makes has a result, so
every slice and every index it takes is in range, and it comes to a position between its own and the
end of the text. A call that stays where it is hands over to another part of the tag (`Handover`),
and which part that can be is told by the byte at hand. `Context.lag` counts how many such calls can
follow one another, so they never come back to a part before a byte is taken. Inside values and
bodies every call takes a byte.
-/

set_option autoImplicit false

namespace Stencil.Markup

open Stencil.Text Stencil.Escape

/-! ## Handing over -/

/-- The parts of a tag at whose end a step can stay at its position. -/
inductive Stage where
  /-- In a value without quotes. -/
  | value
  | tagName
  | tag
  | attrName
  | afterName
  | beforeValue
deriving DecidableEq

/-- The part of a tag that a context is in; a quoted value, a body and all that is outside of tags
are none. -/
def Context.stage? (c : Context) : Option Stage :=
  if c.delim = .spaceOrTagEnd then some .value
  else if c.delim ≠ .none then none
  else match c.state with
    | .tagName => some .tagName
    | .tag => some .tag
    | .attrName => some .attrName
    | .afterName => some .afterName
    | .beforeValue => some .beforeValue
    | _ => none

/-- A context in a part of a tag. -/
def Stage.sample : Stage → Context
  | .value => { delim := .spaceOrTagEnd }
  | .tagName => { state := .tagName }
  | .tag => { state := .tag }
  | .attrName => { state := .attrName }
  | .afterName => { state := .afterName }
  | .beforeValue => { state := .beforeValue }

/-- The parts that hand over to one another where a character is no part of the first. -/
inductive Handover (x : Char) : Stage → Stage → Prop where
  /-- A value ends. -/
  | valueEnd : Delim.spaceOrTagEnd.ends x = true → Handover x .value .tag
  | tagName : isTagNamePart x = false → Handover x .tagName .tag
  | tag : isTagFiller x = false → x ≠ '>' → Handover x .tag .attrName
  | attrName : isAttrNamePart x = false → Handover x .attrName .afterName
  | afterName : isSpace x = false → x ≠ '=' → Handover x .afterName .tag
  /-- The tag ends where a value could start. -/
  | noValue : x = '>' → Handover x .beforeValue .tag
  /-- A value without quotes is entered. -/
  | valueEntered : Delim.spaceOrTagEnd.ends x = false → x ≠ '"' → x ≠ '\'' →
      Handover x .beforeValue .value

namespace Context

variable {c d : Context} {x : Char}

theorem lag_of_stage {s : Stage} (h : c.stage? = some s) (x : Char) :
    c.lag x = s.sample.lag x := by
  unfold stage? at h
  split at h
  · next hd =>
    cases h
    simp [lag, hd, Stage.sample]
  split at h
  · cases h
  · next hd =>
    have hd : c.delim = .none := by simpa using hd
    split at h
    case h_6 => cases h
    all_goals
      next hs =>
      cases h
      simp [lag, hd, hs, inElementBody, Stage.sample]

theorem lag_of_no_stage (h : c.stage? = none) (x : Char) : c.lag x = 0 := by
  unfold stage? at h
  split at h
  · cases h
  · next hd =>
    unfold lag
    split
    · exact if_neg fun hends => hd hends.1
    · next hnone =>
      rw [if_neg hnone] at h
      split
      · rfl
      · revert h
        cases c.state
        all_goals simp

/-- The part of a tag tells how many steps stay at a position. -/
theorem lag_congr (h : c.stage? = d.stage?) (x : Char) : c.lag x = d.lag x := by
  cases hs : c.stage? with
  | none => rw [lag_of_no_stage hs, lag_of_no_stage (h.symm.trans hs)]
  | some s => rw [lag_of_stage hs, lag_of_stage (h.symm.trans hs)]

/-- The next step hands over to another part of the tag. -/
def HandsOver (c : Context) (x : Char) (xs : List Char) : Prop :=
  ∃ a b, c.stage? = some a ∧ (c.step (x :: xs)).1.stage? = some b ∧ Handover x a b

section

variable (h : 0 < c.lag x) (xs : List Char)

include h

theorem value_handsOver (hd : c.delim ≠ .none) : c.HandsOver x xs := by
  obtain ⟨unquoted, ends⟩ : c.delim = .spaceOrTagEnd ∧ c.delim.ends x = true := by
    by_contra hopen
    simp [lag, hd, hopen] at h
  have inside : c.advanceInner (decodeEntities []) = c := by rw [decodeEntities, advanceInner_nil]
  have left : c.valueStep ([] ++ x :: xs) =
      ((c.advanceInner (decodeEntities [])).leaveAttr,
        if (c.advanceInner (decodeEntities [])).delim = .spaceOrTagEnd then x :: xs else xs) :=
    valueStep_of_closed (fun _ h => absurd h List.not_mem_nil) ends
  rw [inside, List.nil_append] at left
  refine ⟨.value, .tag, by simp [stage?, unquoted], ?_, .valueEnd (unquoted ▸ ends)⟩
  rw [step, if_pos hd, left]
  rfl

variable (hd : c.delim = .none)

include hd

theorem tagName_handsOver (hs : c.state = .tagName) : c.HandsOver x xs := by
  have hx : isTagNamePart x = false := by
    rw [← Bool.not_eq_true]
    intro hx
    simp [lag, hd, hs, hx] at h
  refine ⟨.tagName, .tag, by simp [stage?, hd, hs], ?_, .tagName hx⟩
  simp [step, inElementBody, tagNameStep, hx, stage?, extendName, hd, hs]

theorem tag_handsOver (hs : c.state = .tag) : c.HandsOver x xs := by
  rw [lag_of_tag hd hs, tagLag] at h
  have hx : ¬ (isTagFiller x || x == '>') = true := by
    intro hx
    simp [hx] at h
  obtain ⟨hfiller, hend⟩ : isTagFiller x = false ∧ x ≠ '>' := by simpa using hx
  refine ⟨.tag, .attrName, by simp [stage?, hd, hs], ?_, .tag hfiller hend⟩
  rw [step_of_tag hd hs]
  simp [tagStep, hfiller, hend, stage?, hd]

theorem attrName_handsOver (hs : c.state = .attrName) : c.HandsOver x xs := by
  have hx : isAttrNamePart x = false := by
    rw [← Bool.not_eq_true]
    intro hx
    simp [lag, hd, hs, hx] at h
  refine ⟨.attrName, .afterName, by simp [stage?, hd, hs], ?_, .attrName hx⟩
  simp [step, inElementBody, attrNameStep, hx, stage?, extendName, hd, hs]

theorem afterName_handsOver (hs : c.state = .afterName) : c.HandsOver x xs := by
  have hx : ¬ (isSpace x = true ∨ x = '=') := by
    intro hx
    simp [lag, hd, hs, hx] at h
  obtain ⟨hspace, heq⟩ : isSpace x = false ∧ x ≠ '=' := by simpa using hx
  refine ⟨.afterName, .tag, by simp [stage?, hd, hs], ?_, .afterName hspace heq⟩
  simp [step, inElementBody, afterNameStep, hspace, heq, stage?, hd, hs]

theorem beforeValue_handsOver (hs : c.state = .beforeValue) : c.HandsOver x xs := by
  have hx : ¬ ((isSpace x = true ∨ x = '"') ∨ x = '\'') := by
    intro hx
    simp [lag, hd, hs, hx] at h
  obtain ⟨⟨hspace, hdouble⟩, hsingle⟩ : (isSpace x = false ∧ x ≠ '"') ∧ x ≠ '\'' := by
    simpa using hx
  by_cases hend : x = '>'
  · refine ⟨.beforeValue, .tag, by simp [stage?, hd, hs], ?_, .noValue hend⟩
    subst hend
    simp [step, inElementBody, beforeValueStep, hspace, stage?, hd, hs]
  · have inside : Delim.spaceOrTagEnd.ends x = false := by simp [Delim.ends, hspace, hend]
    refine ⟨.beforeValue, .value, by simp [stage?, hd, hs], ?_,
      .valueEntered inside hdouble hsingle⟩
    simp [step, inElementBody, beforeValueStep, hspace, hend, hdouble, hsingle, stage?, enterValue,
      hd, hs]

end

/-- A step that lags hands over. -/
theorem handsOver_of_lag (h : 0 < c.lag x) (xs : List Char) : c.HandsOver x xs := by
  by_cases hd : c.delim = .none
  · cases hs : c.state with
    | tagName => exact tagName_handsOver h xs hd hs
    | tag => exact tag_handsOver h xs hd hs
    | attrName => exact attrName_handsOver h xs hd hs
    | afterName => exact afterName_handsOver h xs hd hs
    | beforeValue => exact beforeValue_handsOver h xs hd hs
    | _ => simp [lag, hd, hs] at h
  · exact value_handsOver h xs hd

/-- A step leaves no more than it was given. -/
theorem length_step_le (c : Context) (x : Char) (xs : List Char) :
    (c.step (x :: xs)).2.length ≤ (x :: xs).length := by
  have less := steps_step c x xs
  cases hrest : (c.step (x :: xs)).2 with
  | nil => exact Nat.zero_le _
  | cons y ys =>
    have := c.lag_lt x
    rw [hrest, steps, steps] at less
    omega

/-- A step that takes no character lowers the lag. -/
theorem lag_step {xs : List Char} (h : (c.step (x :: xs)).2 = x :: xs) :
    (c.step (x :: xs)).1.lag x < c.lag x := by
  have less := steps_step c x xs
  rw [h, steps, steps] at less
  omega

end Context

theorem Handover.of_standsFor {x y : Char} {a b : Stage} (h : Handover x a b)
    (stands : StandsFor y x) : Handover y a b := by
  have ends := stands.same (Delim.ascii_ends .spaceOrTagEnd).flat
  have sign {z : Char} (hz : z.toNat < 0x80) : y ≠ z ↔ x ≠ z := not_congr (stands.eq_iff hz)
  cases h with
  | valueEnd h => exact .valueEnd (ends.trans h)
  | tagName h => exact .tagName ((stands.same ascii_isTagNamePart.flat).trans h)
  | tag h g =>
    exact .tag ((stands.same ascii_isTagFiller.flat).trans h) ((sign (by decide)).mpr g)
  | attrName h => exact .attrName ((stands.same flat_isAttrNamePart).trans h)
  | afterName h g =>
    exact .afterName ((stands.same ascii_isSpace.flat).trans h) ((sign (by decide)).mpr g)
  | noValue h => exact .noValue ((stands.eq_iff (by decide)).mpr h)
  | valueEntered h g k =>
    exact .valueEntered (ends.trans h) ((sign (by decide)).mpr g) ((sign (by decide)).mpr k)

theorem At.length_le {text cs ds : List Char} {i : Nat} (h : At text i cs) (g : At text i ds) :
    cs.length ≤ ds.length := by
  by_contra hlt
  exact Nat.lt_irrefl i (h.lt_of_length g (by omega))

/-- A position tells what is left. -/
theorem At.rest_unique {text cs ds : List Char} {i : Nat} (h : At text i cs) (g : At text i ds) :
    cs = ds :=
  (List.suffix_of_suffix_length_le h.suffix g.suffix (h.length_le g)).eq_of_length
    (Nat.le_antisymm (h.length_le g) (g.length_le h))

namespace Indexed

variable {text : List Char} {c d e : Context} {i : Nat}

/-! ## Calls -/

/-- The call of a step at a position takes no byte. -/
def Waits (s : List UInt8) (i : Nat) (d e : Context) : Prop :=
  i < s.length ∧ d.isError = false ∧ step d s i = some (e, i)

/-- A call comes to where the step over characters does: further on, or to the same place with less
lag. -/
theorem step_advances (d : Context) {x : Char} {xs : List Char} (h : At text i (x :: xs)) :
    ∃ j, step d (utf8 text) i = some ((d.step (x :: xs)).1, j) ∧
      At text j (d.step (x :: xs)).2 ∧
      (i < j ∨ j = i ∧ (d.step (x :: xs)).2 = x :: xs) := by
  obtain ⟨j, hstep, there⟩ := step_comes d h
  refine ⟨j, hstep, there, ?_⟩
  rcases Nat.lt_or_eq_of_le (d.length_step_le x xs) with hlt | heq
  · exact .inl (h.lt_of_length there hlt)
  · have inner := List.suffix_of_suffix_length_le there.suffix h.suffix (Nat.le_of_eq heq)
    have same := inner.eq_of_length heq
    rw [same] at there
    exact .inr ⟨there.pos_unique h, same⟩

/-- The loop is only ever between two characters, and each call lowers the steps that are left. -/
theorem Calls.place {n : Nat} (h : Calls step (utf8 text) c n d i) :
    ∃ rest, At text i rest ∧ n + d.steps rest ≤ c.steps text := by
  induction h with
  | start => exact ⟨text, .start text, Nat.le_of_eq (Nat.zero_add _)⟩
  | @next n i j d e _ inside _ hstep ih =>
    obtain ⟨rest, there, bound⟩ := ih
    obtain ⟨x, xs, rfl⟩ := List.exists_cons_of_ne_nil (there.lt_iff.mp inside)
    obtain ⟨j, hj, behind, -⟩ := step_advances _ there
    obtain ⟨rfl, rfl⟩ := Prod.mk.inj (Option.some.inj (hstep.symm.trans hj))
    have less := d.steps_step x xs
    exact ⟨_, behind, by omega⟩

/-- A call that takes no byte lowers the lag and hands over. -/
theorem Waits.handsOver {x : Char} {xs : List Char} (w : Waits (utf8 text) i d e)
    (h : At text i (x :: xs)) :
    e.lag x < d.lag x ∧ ∃ a b, d.stage? = some a ∧ e.stage? = some b ∧ Handover x a b := by
  obtain ⟨-, -, hstep⟩ := w
  obtain ⟨j, hj, there, -⟩ := step_advances d h
  obtain ⟨rfl, rfl⟩ := Prod.mk.inj (Option.some.inj (hstep.symm.trans hj))
  have less := Context.lag_step (there.rest_unique h)
  exact ⟨less, Context.handsOver_of_lag (by omega) xs⟩

/-- Calls that take no byte are no more than the lag at their start. -/
theorem length_le_lag {x : Char} {xs : List Char} (h : At text i (x :: xs)) {ds : List Context}
    (waits : (d :: ds).IsChain (Waits (utf8 text) i)) : ds.length ≤ d.lag x := by
  induction ds generalizing d with
  | nil => exact Nat.zero_le _
  | cons e es ih =>
    obtain ⟨first, rest⟩ := List.isChain_cons_cons.mp waits
    have less := (first.handsOver h).1
    have := ih rest
    rw [List.length_cons]
    omega

/-- They come to no part of a tag twice. -/
theorem nodup_stages {x : Char} {xs : List Char} (h : At text i (x :: xs)) {ds : List Context}
    (waits : ds.IsChain (Waits (utf8 text) i)) : (ds.map Context.stage?).Nodup := by
  have falls : (ds.map fun d => d.lag x).IsChain (· > ·) := by
    refine List.isChain_map_of_isChain (fun d => d.lag x) ?_ waits
    intro d e w
    exact (w.handsOver h).1
  rw [List.Nodup, List.pairwise_map]
  refine (List.pairwise_map.mp falls.pairwise).imp fun {d e} less same => ?_
  rw [Context.lag_congr same] at less
  exact Nat.lt_irrefl _ less

/-- A call inside a value or a body takes at least one byte. -/
theorem innerStep_advances (d : Context) {x : Char} {xs : List Char} (h : At text i (x :: xs)) :
    ∃ e j rest, innerStep d (utf8 text) i = some (e, j) ∧ At text j rest ∧ i < j := by
  by_cases hs : d.state = .css
  · obtain ⟨before, rfl, rfl⟩ := h
    obtain ⟨j, hstep, there⟩ := innerStep_comes_of_css hs before (x :: xs)
    have here : At (before ++ x :: xs) (utf8 before).length (x :: xs) := ⟨before, rfl, rfl⟩
    exact ⟨_, j, _, hstep, there, here.lt_of_length there (length_ruleStep d _ x xs)⟩
  · obtain ⟨j, hstep, there⟩ := innerStep_comes hs h
    exact ⟨_, j, _, hstep, there, h.lt_of_length there (length_innerStep d x xs)⟩

theorem Calls.place_inner {n : Nat} (h : Calls innerStep (utf8 text) c n d i) :
    ∃ rest, At text i rest := by
  induction h with
  | start => exact ⟨text, .start text⟩
  | @next n i j d e _ inside _ hstep ih =>
    obtain ⟨rest, there⟩ := ih
    obtain ⟨x, xs, rfl⟩ := List.exists_cons_of_ne_nil (there.lt_iff.mp inside)
    obtain ⟨e', j', tail, hj, behind, -⟩ := innerStep_advances d there
    obtain ⟨rfl, rfl⟩ := Prod.mk.inj (Option.some.inj (hstep.symm.trans hj))
    exact ⟨tail, behind⟩

theorem At.le {rest : List Char} (h : At text i rest) : i ≤ (utf8 text).length := by
  have := h.length_eq
  omega

/-- A call comes to a position between its own and the end of the text, and one that stays at its
position hands over. -/
theorem Calls.in_bounds {n : Nat} (h : Calls step (utf8 text) c n d i)
    (inside : i < (utf8 text).length) (ok : d.isError = false) :
    ∃ e j, step d (utf8 text) i = some (e, j) ∧ i ≤ j ∧ j ≤ (utf8 text).length ∧
      (j = i → ∃ x a b, byteAt? (utf8 text) i = some x ∧
        d.stage? = some a ∧ e.stage? = some b ∧ Handover x a b) := by
  obtain ⟨rest, here, -⟩ := h.place
  obtain ⟨x, xs, rfl⟩ := List.exists_cons_of_ne_nil (here.lt_iff.mp inside)
  obtain ⟨j, hstep, there, onward⟩ := step_advances d here
  refine ⟨_, j, hstep, ?_, At.le there, ?_⟩
  · rcases onward with hlt | ⟨rfl, -⟩
    · exact Nat.le_of_lt hlt
    · exact Nat.le_refl _
  · rintro rfl
    have waits : Waits (utf8 text) j d (d.step (x :: xs)).1 := ⟨inside, ok, hstep⟩
    obtain ⟨-, a, b, ha, hb, handover⟩ := waits.handsOver here
    obtain ⟨y, hy, stands⟩ := here.byteAt?_cons
    exact ⟨y, a, b, hy, ha, hb, handover.of_standsFor stands⟩

/-- Calls that stay at a position follow one another three times at most, and come to no part of the
tag twice. -/
theorem Calls.waits {n : Nat} (h : Calls step (utf8 text) c n d i) {ds : List Context}
    (waits : (d :: ds).IsChain (Waits (utf8 text) i)) :
    ds.length ≤ 3 ∧ ((d :: ds).map Context.stage?).Nodup := by
  obtain ⟨rest, here, -⟩ := h.place
  cases ds with
  | nil => exact ⟨Nat.zero_le _, by simp⟩
  | cons e es =>
    have inside := (List.isChain_cons_cons.mp waits).1.1
    obtain ⟨x, xs, rfl⟩ := List.exists_cons_of_ne_nil (here.lt_iff.mp inside)
    have bound := length_le_lag here waits
    have := d.lag_lt x
    exact ⟨by omega, nodup_stages here waits⟩

/-- The number of calls is bounded by the number of characters. -/
theorem Calls.count {n : Nat} (h : Calls step (utf8 text) c n d i) : n ≤ 4 * text.length + 3 := by
  obtain ⟨rest, -, bound⟩ := h.place
  have steps : c.steps text ≤ 4 * text.length + 3 := by
    cases text with
    | nil => exact Nat.zero_le _
    | cons x xs =>
      have := c.lag_lt x
      rw [Context.steps]
      omega
  omega

/-- The loop comes to its end, at the context of the scan. -/
theorem Calls.ends {n : Nat} {rest : List Char} (h : Calls step (utf8 text) c n d i)
    (there : At text i rest) :
    ∃ m j, Calls step (utf8 text) c m (d.advance rest) j ∧
      (j = (utf8 text).length ∨ (d.advance rest).isError = true) := by
  induction d, rest using Context.advance_induction generalizing n i with
  | nil d =>
    rw [Context.advance_nil]
    exact ⟨n, i, h, .inl there.eq_end⟩
  | stuck d x xs failed =>
    rw [Context.advance_of_isError failed]
    exact ⟨n, i, h, .inr failed⟩
  | step d x xs ok ih =>
    obtain ⟨j, hstep, behind, -⟩ := step_advances d there
    rw [Context.advance_cons ok]
    exact ih (h.next (there.lt_iff.mpr (List.cons_ne_nil x xs)) ok hstep) behind

/-- Inside a value or a body a call takes at least one byte. -/
theorem Calls.inner_in_bounds {n : Nat} (h : Calls innerStep (utf8 text) c n d i)
    (inside : i < (utf8 text).length) :
    ∃ e j, innerStep d (utf8 text) i = some (e, j) ∧ i < j ∧ j ≤ (utf8 text).length := by
  obtain ⟨rest, here⟩ := h.place_inner
  obtain ⟨x, xs, rfl⟩ := List.exists_cons_of_ne_nil (here.lt_iff.mp inside)
  obtain ⟨e, j, rest, hstep, there, hlt⟩ := innerStep_advances d here
  exact ⟨e, j, hstep, hlt, At.le there⟩

/-- The scan of a text stays in bounds and ends, from any context. -/
theorem advance_in_bounds (c : Context) (text : List Char) :
    -- a call of the loop has a result between its position and the end of the text, and one that
    -- stays at its position hands over to another part of the tag, as the byte there tells
    (∀ n d i, Calls step (utf8 text) c n d i → i < (utf8 text).length → d.isError = false →
      ∃ e j, step d (utf8 text) i = some (e, j) ∧ i ≤ j ∧ j ≤ (utf8 text).length ∧
        (j = i → ∃ x a b, byteAt? (utf8 text) i = some x ∧
          d.stage? = some a ∧ e.stage? = some b ∧ Handover x a b)) ∧
    -- three calls at most stay at a position one after the other, at no part of the tag twice
    (∀ n d i ds, Calls step (utf8 text) c n d i → (d :: ds).IsChain (Waits (utf8 text) i) →
      ds.length ≤ 3 ∧ ((d :: ds).map Context.stage?).Nodup) ∧
    -- so there are not more calls than that for each character, and the loop ends, at the end of
    -- the text or at a fault
    (∀ n d i, Calls step (utf8 text) c n d i → n ≤ 4 * text.length + 3) ∧
    (∃ n i, Calls step (utf8 text) c n (c.advance text) i ∧
      (i = (utf8 text).length ∨ (c.advance text).isError = true)) ∧
    -- inside a value or a body a call takes a byte, and that loop ends too
    (∀ n d i, Calls innerStep (utf8 text) c n d i → i < (utf8 text).length → d.isError = false →
      ∃ e j, innerStep d (utf8 text) i = some (e, j) ∧ i < j ∧ j ≤ (utf8 text).length) ∧
    advanceInner c (utf8 text) = some (c.advanceInner text) := by
  refine ⟨?_, ?_, ?_, Calls.start.ends (.start text), ?_, advanceInner_utf8 c text⟩
  · intro n d i calls inside ok
    exact calls.in_bounds inside ok
  · intro n d i ds calls waits
    exact calls.waits waits
  · intro n d i calls
    exact calls.count
  · intro n d i calls inside _
    exact calls.inner_in_bounds inside

/-- Between two attributes, a sign that is no part of a tag is handed on to the name of an
attribute. -/
theorem advance_in_bounds_tag :
    let c : Context := { state := .tag }
    let d : Context := { state := .attrName }
    (∃ e j, step c (utf8 ['=']) 0 = some (e, j) ∧ 0 ≤ j ∧ j ≤ (utf8 ['=']).length ∧
      (j = 0 → ∃ x a b, byteAt? (utf8 ['=']) 0 = some x ∧
        c.stage? = some a ∧ e.stage? = some b ∧ Handover x a b)) ∧
    (Waits (utf8 ['=']) 0 c d ∧ [d].length ≤ 3 ∧ ([c, d].map Context.stage?).Nodup) ∧
    (∃ e j, innerStep c (utf8 ['=']) 0 = some (e, j) ∧ 0 < j ∧ j ≤ (utf8 ['=']).length) := by
  intro c d
  obtain ⟨call, waits, -, -, inner, -⟩ := advance_in_bounds c ['=']
  have inside : 0 < (utf8 ['=']).length := by decide
  have handed : Waits (utf8 ['=']) 0 c d := ⟨inside, rfl, rfl⟩
  have chain : [c, d].IsChain (Waits (utf8 ['=']) 0) :=
    List.isChain_cons_cons.mpr ⟨handed, .singleton d⟩
  exact ⟨call 0 c 0 .start inside rfl, ⟨handed, waits 0 c 0 [d] .start chain⟩,
    inner 0 c 0 .start inside rfl⟩

end Indexed

end Stencil.Markup
