import Stencil.Proofs.Markup.Shape
import Stencil.Proofs.Markup.Closing
import Stencil.Proofs.Markup.Unknown

/-!
# What a join stands for

A join of two contexts as they stand covers both of them, so the escapers that are found behind a
text from the join are the ones that either side asks for. A join by a nudge covers the nudges of
the two sides instead. A text that starts from a side as from its nudge (`Context.startsAlike`)
cannot tell these apart: either it leaves contexts with the same nudge, or from the join it leads to
a place that admits no output (`admits_of_nudge`). With both, a join is sound for what follows
(`escapers_after_join`). A text that starts otherwise can tell them apart: behind an equals sign a
blank or a quote is no part of an unquoted value.
-/

set_option autoImplicit false

namespace Stencil.Markup.Context

open Stencil.Text

/-- Whether a text is read from a context as from its nudge. Behind an equals sign it opens neither
a value with a quote nor, after blanks, any value; behind a name it goes on with no equals sign. -/
def startsAlike (c : Context) (cs : List Char) : Bool :=
  match c.state with
  | .beforeValue =>
    match cs.dropWhile isSpace with
    | [] => true
    | x :: _ => x == '>' || !(cs.head?.any isSpace || x == '"' || x == '\'')
  | .afterName => (cs.dropWhile isSpace).head? != some '='
  | _ => true

/-! ## Blanks in a tag -/

theorem dropWhile_isTagFiller (cs : List Char) :
    (cs.dropWhile isSpace).dropWhile isTagFiller = cs.dropWhile isTagFiller := by
  induction cs with
  | nil => rfl
  | cons x xs ih =>
    by_cases hx : isSpace x = true
    · have hf : isTagFiller x = true := by simp [isTagFiller, hx]
      rw [List.dropWhile_cons, if_pos hx, List.dropWhile_cons, if_pos hf, ih]
    · rw [List.dropWhile_cons, if_neg hx]

/-- Between attributes, blanks at the start of a text change nothing. -/
theorem advance_dropWhile {c : Context} (hd : c.delim = .none) (hs : c.state = .tag)
    (cs : List Char) : c.advance (cs.dropWhile isSpace) = c.advance cs := by
  have ok : c.isError = false := by rw [isError, hs]; rfl
  have first (x : Char) (xs : List Char) : c.advance (x :: xs) =
      (c.tagStep (x :: xs)).1.advance (c.tagStep (x :: xs)).2 := by
    rw [advance_cons ok, step_of_tag hd hs]
  cases cs with
  | nil => rfl
  | cons x xs =>
    have same := dropWhile_isTagFiller (x :: xs)
    cases hrest : (x :: xs).dropWhile isSpace with
    | nil =>
      rw [hrest] at same
      rw [first, tagStep, ← same, List.dropWhile_nil]
    | cons y ys =>
      rw [hrest] at same
      rw [first, first, tagStep, tagStep, same]

/-! ## A side and its nudge -/

variable {c : Context} {cs : List Char} {rules : List Escaper}

/-- Behind a name, what is no equals sign starts something new. -/
theorem admits_of_nudge_of_afterName (shaped : c.Shaped) (hs : c.state = .afterName)
    (alike : c.startsAlike cs = true) : (c.advance cs).nudge = (c.nudge.advance cs).nudge := by
  have hd : c.delim = .none := shaped.delim_eq hs rfl
  have ok : c.isError = false := by rw [isError, hs]; rfl
  cases cs with
  | nil => rw [advance_nil, advance_nil, nudge_nudge]
  | cons x xs =>
    have hn : c.nudge = { c with state := .tag, attr := .none } := by rw [nudge, hs]
    have step : c.advance (x :: xs) =
        (c.afterNameStep (x :: xs)).1.advance (c.afterNameStep (x :: xs)).2 := by
      rw [advance_cons ok, Context.step, if_neg (by simp [hd]),
        if_neg (by simp [inElementBody, hs]), hs]
    rw [step, afterNameStep, ← advance_dropWhile (c := c.nudge) (by rw [hn]; exact hd) (by rw [hn])]
    unfold startsAlike at alike
    rw [hs] at alike
    cases hrest : (x :: xs).dropWhile isSpace with
    | nil =>
      dsimp only
      rw [advance_nil, advance_nil, nudge_nudge]
    | cons y ys =>
      have hy : y ≠ '=' := by
        rintro rfl
        simp [hrest] at alike
      dsimp only
      rw [if_neg hy, hn]

/-- A value that ends before it has begun leaves the tag as it is without the attribute. -/
theorem advance_nudge_of_ended (shaped : c.Shaped) (hs : c.state = .beforeValue) {x : Char}
    (hx : Delim.spaceOrTagEnd.ends x = true) (xs : List Char) :
    c.nudge.advance (x :: xs) =
      Context.advance { c with state := .tag, attr := .none } ((x :: xs).dropWhile isSpace) := by
  obtain ⟨hd, hu, hk⟩ := shaped.outside hs rfl
  have ok : c.isError = false := by rw [isError, hs]; rfl
  have hn : c.nudge = c.enterValue .spaceOrTagEnd := by rw [nudge, hs]
  have left : c.nudge.leaveAttr = { c with state := .tag, attr := .none } := by
    rw [hn, leaveAttr, enterValue, ← hd, ← hu, ← hk]
  have hne : c.nudge.delim ≠ .none := by
    rw [hn]
    intro h
    cases h
  have empty : ∀ y ∈ ([] : List Char), c.nudge.delim.ends y = false := by
    intro y hy
    cases hy
  have closed := advance_of_closed (isError_nudge ok) hne empty (by rw [hn]; exact hx) xs
  rw [List.nil_append, decodeEntities, advanceInner_nil, left, if_pos (by rw [hn]; rfl)] at closed
  rw [closed]
  exact (advance_dropWhile (by exact hd) rfl (x :: xs)).symm

/-- What is blank, or ends the tag after blanks, ends a value without quotes. -/
theorem ends_of_dropWhile {x : Char} {xs : List Char}
    (h : ((x :: xs).dropWhile isSpace).head?.all (· == '>') = true) :
    Delim.spaceOrTagEnd.ends x = true := by
  show (isSpace x || x == '>') = true
  by_cases hx : isSpace x = true
  · rw [hx, Bool.true_or]
  · rw [List.dropWhile_cons, if_neg hx] at h
    have hgt : (x == '>') = true := h
    rw [hgt, Bool.or_true]

/-- Behind an equals sign, what opens no value after blanks and no quoted one is read alike, or only
the side itself can still get a value. -/
theorem admits_of_nudge_of_beforeValue (shaped : c.Shaped) (hs : c.state = .beforeValue)
    (alike : c.startsAlike cs = true) (h : (c.nudge.advance cs).nudge.escapers = .ok rules) :
    (c.advance cs).nudge.escapers = .ok rules := by
  have hd : c.delim = .none := shaped.delim_eq hs rfl
  unfold startsAlike at alike
  rw [hs] at alike
  dsimp only at alike
  cases cs with
  | nil =>
    rw [advance_nil, nudge_nudge] at h
    rwa [advance_nil]
  | cons x xs =>
    cases hrest : (x :: xs).dropWhile isSpace with
    | nil =>
      have ended := ends_of_dropWhile (by rw [hrest]; rfl)
      rw [advance_nudge_of_ended shaped hs ended, hrest, advance_nil] at h
      exact absurd h (escapers_of_tag rfl rules)
    | cons y ys =>
      rw [hrest] at alike
      by_cases hy : y = '>'
      · have ended := ends_of_dropWhile (by rw [hrest, hy]; rfl)
        rw [advance_nudge_of_ended shaped hs ended, hrest] at h
        rw [advance_of_beforeValue hd hs, beforeValueStep, hrest]
        dsimp only
        rwa [if_pos hy]
      · have bare : isSpace x = false ∧ y ≠ '"' ∧ y ≠ '\'' := by
          simpa [hy, and_assoc] using alike
        obtain ⟨hx, hdouble, hsingle⟩ := bare
        rw [List.dropWhile_cons, if_neg (by simp [hx])] at hrest
        obtain ⟨rfl, rfl⟩ := List.cons.inj hrest
        rwa [advance_of_bare hd hs hx hy hdouble hsingle]

/-- What is admitted behind a text that starts alike from a side and from its nudge is admitted from
the side if it is from the nudge. -/
theorem admits_of_nudge (shaped : c.Shaped) (alike : c.startsAlike cs = true)
    (h : (c.nudge.advance cs).nudge.escapers = .ok rules) :
    (c.advance cs).nudge.escapers = .ok rules := by
  by_cases hb : c.state = .beforeValue
  · exact admits_of_nudge_of_beforeValue shaped hb alike h
  · by_cases ha : c.state = .afterName
    · rwa [admits_of_nudge_of_afterName shaped ha alike]
    · rwa [nudge_of_other hb ha] at h

/-! ## Joins -/

/-- What is admitted behind a text from a covering context is admitted from the covered one. -/
theorem Covers.admits {a : Context} (h : c.Covers a) (clear : c.meetsUnknownSlash cs = false)
    (admits : (c.advance cs).nudge.escapers = .ok rules) :
    (a.advance cs).nudge.escapers = .ok rules :=
  (h.advance cs clear).nudge.escapers admits

/-- The escapers found behind a text from a join are the ones that each side asks for, if the text
meets no slash of unknown meaning and, where only the nudges of the sides join, starts from the
sides as from their nudges. -/
theorem escapers_after_join {a b c : Context} (ha : a.Reachable) (hb : b.Reachable)
    (oka : a.isError = false) (okb : b.isError = false) (h : a.join b = some c) {cs : List Char}
    (clear : c.meetsUnknownSlash cs = false)
    (alike : a.joinDirect b = none → a.startsAlike cs = true ∧ b.startsAlike cs = true)
    {rules : List Escaper} (admits : (c.advance cs).nudge.escapers = .ok rules) :
    (a.advance cs).nudge.escapers = .ok rules ∧ (b.advance cs).nudge.escapers = .ok rules := by
  unfold join at h
  split at h
  · next hdirect =>
    cases h
    obtain ⟨hca, hcb⟩ := covers_of_joinDirect oka okb hdirect
    exact ⟨hca.admits clear admits, hcb.admits clear admits⟩
  · next hdirect =>
    obtain ⟨alikea, alikeb⟩ := alike hdirect
    split at h
    · obtain ⟨hca, hcb⟩ := covers_of_joinDirect (isError_nudge oka) (isError_nudge okb) h
      exact ⟨admits_of_nudge ha.shaped alikea (hca.admits clear admits),
        admits_of_nudge hb.shaped alikeb (hcb.admits clear admits)⟩
    · cases h

/-- The value of an event handler that one branch starts: the join is by a nudge. -/
theorem escapers_after_join_started :
    ((Context.start.advance "<a onclick=".toList).advance "x".toList).nudge.escapers =
        .ok [.jsValue, .htmlAttrUnquoted] ∧
      ((Context.start.advance "<a onclick=".toList).nudge.afterOutput.advance
        "x".toList).nudge.escapers = .ok [.jsValue, .htmlAttrUnquoted] := by
  let c : Context :=
    { state := .js, delim := .spaceOrTagEnd, attr := .script, slash := .unknown }
  have opened : Reachable (Context.start.advance "<a onclick=".toList) := .advance _ .start
  have joined : (Context.start.advance "<a onclick=".toList).join
      (Context.start.advance "<a onclick=".toList).nudge.afterOutput = some c := by decide +kernel
  have scanned : c.advance "x".toList = { c with slash := .division } := by decide +kernel
  exact escapers_after_join opened opened.nudge.afterOutput (by decide +kernel)
    (by decide +kernel) joined (by decide +kernel)
    (fun _ => ⟨by decide +kernel, by decide +kernel⟩) (by rw [scanned]; rfl)

/-- Behind an equals sign a blank ends the value that one side has started, and not the other. -/
theorem escapers_after_join_differ :
    ¬ ∀ a b c : Context, a.Reachable → b.Reachable → a.isError = false → b.isError = false →
      a.join b = some c → ∀ cs : List Char, '/' ∉ cs → (c.advance cs).isError = false →
        ∀ rules, (c.advance cs).nudge.escapers = .ok rules →
          (a.advance cs).nudge.escapers = .ok rules ∧
            (b.advance cs).nudge.escapers = .ok rules := by
  intro sound
  let c : Context :=
    { state := .js, delim := .spaceOrTagEnd, attr := .script, slash := .unknown }
  have opened : Reachable (Context.start.advance "<a onclick=".toList) := .advance _ .start
  have joined : (Context.start.advance "<a onclick=".toList).join
      (Context.start.advance "<a onclick=".toList).nudge.afterOutput = some c := by decide +kernel
  have scanned : c.advance " title=".toList =
      { state := .beforeValue, attr := .plain } := by decide +kernel
  have claimed := sound _ _ c opened opened.nudge.afterOutput (by decide +kernel)
    (by decide +kernel) joined " title=".toList (by decide) (by decide +kernel)
    [.htmlAttrUnquoted] (by rw [scanned]; rfl)
  have inside : (Context.start.advance "<a onclick=".toList).advance " title=".toList =
      { state := .js, delim := .spaceOrTagEnd, attr := .script } := by decide +kernel
  rw [inside] at claimed
  cases claimed.1

end Stencil.Markup.Context
