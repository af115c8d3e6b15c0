import Stencil.Proofs.Markup.Moves

/-!
# Texts that stay in their place

Each state inside a value or a body has texts that it **holds** (`State.Holds`): a string holds what
has no closing quote, an address in parentheses what has no closing one, code what closes every
string it opens (`ClosedCode`). A text that a state holds leaves the scan where it was
(`advanceInner_of_holds`): all that changes is the part of an address and the meaning of a slash
(`Context.SamePlace`).

That a search passes over a text, whatever follows it (`PassedBy`), is what makes such texts out of
smaller ones.
-/

set_option autoImplicit false

namespace Stencil.Markup

open Stencil.Text

/-- A text that a search passes over, whatever follows it. -/
def PassedBy (search : List Char → Option (List Char)) (cs : List Char) : Prop :=
  ∀ rest, search (cs ++ rest) = search rest

namespace PassedBy

variable {search : List Char → Option (List Char)} {as bs : List Char}

theorem nil : PassedBy search [] := by
  intro rest
  rfl

theorem append (ha : PassedBy search as) (hb : PassedBy search bs) :
    PassedBy search (as ++ bs) := by
  intro rest
  rw [List.append_assoc, ha, hb]

/-- A text is passed over if what each of its characters becomes is. -/
theorem flatMap {rule : Char → List Char} (h : ∀ c, PassedBy search (rule c)) (cs : List Char) :
    PassedBy search (cs.flatMap rule) := by
  induction cs with
  | nil => exact nil
  | cons c cs ih =>
    rw [List.flatMap_cons]
    exact (h c).append ih

/-- A text is passed over if each of its characters is. -/
theorem of_forall {cs : List Char} (h : ∀ c ∈ cs, PassedBy search [c]) : PassedBy search cs := by
  induction cs with
  | nil => exact nil
  | cons c cs ih =>
    have first := h c (List.mem_cons_self ..)
    refine first.append (ih ?_)
    intro x hx
    exact h x (List.mem_cons_of_mem c hx)

/-- What is passed over at the end of a text leaves nothing to be found. -/
theorem eq_end {cs : List Char} (h : PassedBy search cs) : search cs = search [] := by
  have := h []
  rwa [List.append_nil] at this

end PassedBy

variable {quote x : Char} {cs : List Char}

theorem passedBy_quote (hq : x ≠ quote) (hb : x ≠ '\\') : PassedBy (afterQuote? quote) [x] := by
  intro rest
  show afterQuote? quote (x :: rest) = _
  rw [afterQuote?, if_neg hq]
  · rintro rfl -
    exact hb rfl
  · rintro _ _ rfl -
    exact hb rfl

/-- A character behind a backslash closes nothing. -/
theorem passedBy_quote_escaped (quote x : Char) : PassedBy (afterQuote? quote) ['\\', x] := by
  intro rest
  show afterQuote? quote ('\\' :: x :: rest) = _
  rw [afterQuote?]

theorem passedBy_regexp {inClass : Bool} (hb : x ≠ '\\') (ho : x ≠ '[') (hc : x ≠ ']')
    (hs : x ≠ '/') : PassedBy (afterRegexp? inClass) [x] := by
  intro rest
  show afterRegexp? inClass (x :: rest) = _
  rw [afterRegexp?, if_neg ho, if_neg hc, if_neg fun h => hs h.1]
  · rintro rfl -
    exact hb rfl
  · rintro _ _ rfl -
    exact hb rfl

theorem passedBy_regexp_escaped (inClass : Bool) (x : Char) :
    PassedBy (afterRegexp? inClass) ['\\', x] := by
  intro rest
  show afterRegexp? inClass ('\\' :: x :: rest) = _
  rw [afterRegexp?]

/-- A text without a quote closes no string. -/
theorem afterQuote?_of_not_mem (h : quote ∉ cs) : afterQuote? quote cs = none := by
  fun_induction afterQuote? quote cs with
  | case1 => rfl
  | case2 => rfl
  | case3 x rest ih =>
    apply ih
    intro hm
    exact h (List.mem_cons_of_mem _ (List.mem_cons_of_mem x hm))
  | case4 rest => exact absurd (List.mem_cons_self ..) h
  | case5 x rest _ _ _ ih =>
    apply ih
    intro hm
    exact h (List.mem_cons_of_mem x hm)

/-! ## Code -/

/-- Code that closes the strings it opens and opens nothing else. -/
inductive ClosedCode : List Char → Prop where
  | code {cs : List Char} : (∀ x ∈ cs, startsScriptPart x = false) → ClosedCode cs
  | string {code inside rest : List Char} : (∀ x ∈ code, startsScriptPart x = false) →
      PassedBy (afterQuote? '"') inside → ClosedCode rest →
        ClosedCode (code ++ '"' :: (inside ++ '"' :: rest))

theorem ClosedCode.append {as bs : List Char} (ha : ClosedCode as) (hb : ClosedCode bs) :
    ClosedCode (as ++ bs) := by
  induction ha with
  | @code as plain =>
    cases hb with
    | code h =>
      apply ClosedCode.code
      intro x hx
      exact (List.mem_append.mp hx).elim (plain x) (h x)
    | @string code inside rest h closed hr =>
      rw [← List.append_assoc]
      refine .string ?_ closed hr
      intro x hx
      exact (List.mem_append.mp hx).elim (plain x) (h x)
  | string plain closed _ ih =>
    rw [List.append_assoc, List.cons_append, List.append_assoc, List.cons_append]
    exact .string plain closed ih

/-- A string is closed code. -/
theorem ClosedCode.quoted {inside : List Char} (h : PassedBy (afterQuote? '"') inside) :
    ClosedCode ('"' :: inside ++ ['"']) :=
  @ClosedCode.string [] inside [] nofun h (.code nofun)

/-- The texts that a state holds: they do not end the part of a script, of a style sheet or of an
address that is being read. -/
def State.Holds : State → List Char → Prop
  | .js, cs => ClosedCode cs
  | .jsDoubleQuoted, cs | .cssDoubleQuoted, cs => afterQuote? '"' cs = none
  | .jsSingleQuoted, cs | .cssSingleQuoted, cs => afterQuote? '\'' cs = none
  | .jsTemplate, cs => afterQuote? '\x60' cs = none
  | .jsRegexp, cs => afterRegexp? false cs = none
  | .jsLineComment, cs => after? ['\n'] cs = none
  | .jsBlockComment, cs | .cssComment, cs => after? ['*', '/'] cs = none
  | .css, cs => '"' ∉ cs ∧ '\'' ∉ cs ∧ '(' ∉ cs ∧ '/' ∉ cs
  | .cssDoubleQuotedUrl, cs => '"' ∉ cs
  | .cssSingleQuotedUrl, cs => '\'' ∉ cs
  | .cssUrl, cs => ')' ∉ cs
  | .text, _ | .rcdata, _ | .tagName, _ | .tag, _ | .attrName, _ | .afterName, _ | .beforeValue, _
  | .attr, _ | .url, _ | .comment, _ | .error, _ => True

namespace Context

/-- Two contexts differ at most in the part of an address and in the meaning of a slash. -/
def SamePlace (c d : Context) : Prop :=
  { c with urlPart := d.urlPart, slash := d.slash } = d

theorem SamePlace.refl (c : Context) : c.SamePlace c := rfl

theorem SamePlace.trans {c d e : Context} (h : c.SamePlace d) (g : d.SamePlace e) :
    c.SamePlace e := by
  unfold SamePlace at *
  rw [← g, ← h]

theorem SamePlace.isError {c d : Context} (h : c.SamePlace d) : c.isError = d.isError := by
  unfold SamePlace at h
  rw [← h]
  rfl

variable {c : Context}

/-! ## Staying -/

theorem leave_of_none {ending : Option (List Char)} (h : ending = none) (next : Context) :
    c.leave ending next = (c, []) := by
  rw [h, leave]

theorem ruleStep_of_not_mem {cs : List Char} (hd : '"' ∉ cs) (hs : '\'' ∉ cs) (ho : '(' ∉ cs)
    (hsl : '/' ∉ cs) (seen : List Char) : c.ruleStep seen cs = (c, []) := by
  induction cs generalizing seen with
  | nil => rfl
  | cons x xs ih =>
    rw [List.mem_cons, not_or] at hd hs ho hsl
    rw [ruleStep, if_neg fun h => ho.1 h.1.symm, if_neg fun h => hd.1 h.symm,
      if_neg fun h => hs.1 h.symm, if_neg fun h => hsl.1 h.1.symm,
      ih hd.2 hs.2 ho.2 hsl.2]

theorem addressEnd_of_not_mem {close : Char} {cs : List Char} (h : close ∉ cs) :
    c.addressEnd close cs = ({ c with urlPart := c.urlPart.advance cs }, []) := by
  have inside : (cs ++ []).takeWhile (· != close) = cs := by
    refine takeWhile_run ?_ rfl
    intro x hx
    have hne : x ≠ close := by
      intro heq
      exact h (heq ▸ hx)
    simpa using hne
  rw [List.append_nil] at inside
  unfold addressEnd
  dsimp only
  rw [inside, List.drop_length]

theorem codeStep_of_plain {cs : List Char} (h : ∀ x ∈ cs, startsScriptPart x = false) :
    c.codeStep cs = ({ c with slash := c.slash.after cs }, []) := by
  have code : (cs ++ []).takeWhile (fun x => !startsScriptPart x) = cs :=
    takeWhile_run (fun x hx => by rw [h x hx]; rfl) rfl
  rw [List.append_nil] at code
  unfold codeStep
  dsimp only
  rw [code, List.drop_length]

theorem codeStep_of_quote {code : List Char} (h : ∀ x ∈ code, startsScriptPart x = false)
    (rest : List Char) : c.codeStep (code ++ '"' :: rest) =
      ({ c with slash := c.slash.after code, state := .jsDoubleQuoted }, rest) := by
  have run : (code ++ '"' :: rest).takeWhile (fun x => !startsScriptPart x) = code :=
    takeWhile_run (fun x hx => by rw [h x hx]; rfl) rfl
  unfold codeStep
  dsimp only
  rw [run, List.drop_left]
  rfl

theorem advanceInner_closeString (hs : c.state = .jsDoubleQuoted) {cs rest : List Char}
    (h : afterQuote? '"' cs = some rest) :
    c.advanceInner cs = c.afterOperand.advanceInner rest := by
  cases cs with
  | nil => cases h
  | cons x xs =>
    have ok : c.isError = false := by rw [isError, hs]; rfl
    rw [advanceInner_cons ok, innerStep, hs]
    dsimp only
    rw [h, leave]

/-- Code that closes its strings ends as code. The induction is on the strings it has. -/
theorem advanceInner_of_closedCode (hs : c.state = .js) {cs : List Char} (h : ClosedCode cs) :
    (c.advanceInner cs).SamePlace c := by
  have step (c : Context) (hs : c.state = .js) {cs : List Char} (hne : cs ≠ []) :
      c.advanceInner cs = (c.codeStep cs).1.advanceInner (c.codeStep cs).2 := by
    obtain ⟨x, xs, rfl⟩ := List.exists_cons_of_ne_nil hne
    have ok : c.isError = false := by rw [isError, hs]; rfl
    rw [advanceInner_cons ok, innerStep, hs]
  induction h generalizing c with
  | @code cs plain =>
    by_cases hne : cs = []
    · rw [hne, advanceInner_nil]
      exact .refl c
    · rw [step c hs hne, codeStep_of_plain plain, advanceInner_nil]
      rfl
  | @string code inside rest plain closed _ ih =>
    have found : afterQuote? '"' (inside ++ '"' :: rest) = some rest := by
      rw [closed, afterQuote?]
      · rfl
      · intro h
        cases h
      · intro _ _ h
        cases h
    rw [step c hs (by simp), codeStep_of_quote plain, advanceInner_closeString rfl found]
    refine (ih rfl).trans ?_
    show SamePlace { c with state := .js, slash := .division } c
    unfold SamePlace
    rw [← hs]

/-- A text that its state holds leaves a scan in its place. -/
theorem advanceInner_of_holds {cs : List Char} (h : c.state.Holds cs) :
    (c.advanceInner cs).SamePlace c := by
  by_cases hjs : c.state = .js
  · rw [hjs] at h
    exact advanceInner_of_closedCode hjs h
  by_cases herr : c.isError = true
  · rw [advanceInner_of_isError herr]
    exact .refl c
  cases cs with
  | nil =>
    rw [advanceInner_nil]
    exact .refl c
  | cons x xs =>
    have stays : (c.innerStep x xs).2 = [] ∧ (c.innerStep x xs).1.SamePlace c := by
      unfold innerStep
      dsimp only
      split
      case h_1 => exact ⟨rfl, rfl⟩
      case h_2 hs => exact absurd hs hjs
      case h_9 hs =>
        rw [hs] at h
        obtain ⟨hd, hsq, ho, hsl⟩ := h
        rw [ruleStep_of_not_mem hd hsq ho hsl]
        exact ⟨rfl, rfl⟩
      case h_12 hs | h_13 hs | h_14 hs =>
        rw [hs] at h
        rw [addressEnd_of_not_mem h]
        exact ⟨rfl, rfl⟩
      case h_3 hs | h_4 hs | h_5 hs | h_6 hs | h_7 hs | h_8 hs | h_10 hs | h_11 hs | h_15 hs =>
        rw [hs] at h
        rw [leave_of_none h]
        exact ⟨rfl, rfl⟩
      all_goals exact ⟨rfl, rfl⟩
    rw [advanceInner_cons (Bool.eq_false_iff.mpr herr), stays.1, advanceInner_nil]
    exact stays.2

end Context

end Stencil.Markup
