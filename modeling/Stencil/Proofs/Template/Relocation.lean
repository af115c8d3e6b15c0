import Stencil.Proofs.Template.Seams

/-!
# Sources read at other places

The lexer cuts the same characters into tokens of the same kinds wherever they stand
(`Lexer.step_agree`), and its tokens are items: texts, and actions from their opening to their
closing (`Lexer.run_items`). So what a source is parsed to depends on the place that it starts at in
nothing but locations.
-/

set_option autoImplicit false

namespace Stencil.Lexer

open Stencil.Text
open Stencil.Parser (isInside)

/-- Steps over the same characters at two places. Between actions a step gives a text and perhaps
the opening of an action; inside one it gives tokens of the action and perhaps its closing. -/
inductive Step.Alike : Mode → Step → Step → Prop where
  | opens (trim : Bool) (content : List Char) (origin origin' opened opened' : Location)
      (size : Nat) :
      Alike (.text trim)
        ⟨textTokens content origin ++ [⟨.actionOpen, opened⟩], .action opened, size⟩
        ⟨textTokens content origin' ++ [⟨.actionOpen, opened'⟩], .action opened', size⟩
  | passes (trim : Bool) (content : List Char) (origin origin' : Location) (next : Bool)
      (size : Nat) :
      Alike (.text trim) ⟨textTokens content origin, .text next, size⟩
        ⟨textTokens content origin', .text next, size⟩
  | inside {tokens tokens' : List Token} (opened opened' : Location) (size : Nat) :
      Tokens.Alike tokens tokens' → (∀ t ∈ tokens, isInside t = true) →
      Alike (.action opened) ⟨tokens, .action opened, size⟩ ⟨tokens', .action opened', size⟩
  | closes {tokens tokens' : List Token} (opened stop stop' : Location) (trim : Bool) (size : Nat) :
      Tokens.Alike tokens tokens' → (∀ t ∈ tokens, isInside t = true) →
      Alike (.action opened) ⟨tokens ++ [⟨.actionClose, stop⟩], .text trim, size⟩
        ⟨tokens' ++ [⟨.actionClose, stop'⟩], .text trim, size⟩

/-! ## Steps -/

section

variable (opened opened' here here' : Location)

theorem comment_agree (body : List Char) :
    Agree Eq (comment opened body) (comment opened' body) := by
  unfold comment
  split
  · exact .error _ _
  · split
    · exact .error _ _
    · exact .ok rfl

theorem textStep_agree (trim : Bool) (cs : List Char) :
    Agree (Step.Alike (.text trim)) (textStep trim here cs) (textStep trim here' cs) := by
  unfold textStep
  dsimp only
  split
  · exact .ok (.passes trim _ _ _ false _)
  · split
    · exact .ok (.opens trim _ _ _ _ _ _)
    · refine (comment_agree _ _ _).bind fun r r' hr => ?_
      subst hr
      exact .ok (.passes trim _ _ _ _ _)

/-- One token of an action, which does not close it. -/
theorem Step.Alike.single {k : Token.Kind} (hk : k ≠ .actionClose) (size : Nat) :
    Step.Alike (.action opened) ⟨[⟨k, here⟩], .action opened, size⟩
      ⟨[⟨k, here'⟩], .action opened', size⟩ :=
  .inside opened opened' size (.cons rfl .nil) (by simpa [isInside] using hk)

theorem blankStep_alike (cs : List Char) :
    Step.Alike (.action opened) (blankStep opened here cs) (blankStep opened' here' cs) := by
  unfold blankStep
  dsimp only
  split
  · have blanks : Tokens.Alike [⟨.blank (String.ofList (cs.takeWhile isBlank)), here⟩]
        [⟨.blank (String.ofList (cs.takeWhile isBlank)), here'⟩] := .cons rfl .nil
    exact .closes opened _ _ true _ blanks (by simp [isInside])
  · exact .single opened opened' here here' (fun h => by cases h) _

theorem dotStep_alike (rest : List Char) :
    Step.Alike (.action opened) (dotStep opened here rest) (dotStep opened' here' rest) := by
  unfold dotStep
  dsimp only
  refine .inside opened opened' _ (.cons rfl ?_) ?_
  · split
    · exact .nil
    · exact .cons rfl .nil
  · split
    · simp [isInside]
    · simp [isInside]

theorem quotedStep_agree (rest : List Char) :
    Agree (Step.Alike (.action opened)) (quotedStep opened here rest)
      (quotedStep opened' here' rest) := by
  unfold quotedStep
  split
  · exact .ok (.single opened opened' here here' (by nofun) _)
  · exact .error _ _
  · exact .error _ _

theorem rawStep_agree (rest : List Char) :
    Agree (Step.Alike (.action opened)) (rawStep opened here rest)
      (rawStep opened' here' rest) := by
  unfold rawStep
  split
  · exact .ok (.single opened opened' here here' (by nofun) _)
  · exact .error _ _

theorem numberStep_agree (cs : List Char) :
    Agree (Step.Alike (.action opened)) (numberStep opened here cs)
      (numberStep opened' here' cs) := by
  unfold numberStep
  dsimp only
  split
  · exact .error _ _
  · exact .ok (.single opened opened' here here' (by nofun) _)

theorem nameStep_alike (cs : List Char) :
    Step.Alike (.action opened) (nameStep opened here cs) (nameStep opened' here' cs) := by
  unfold nameStep
  dsimp only
  refine .single opened opened' here here' ?_ _
  split
  · nofun
  · split <;> nofun

theorem actionStep_agree (c : Char) (rest : List Char) :
    Agree (Step.Alike (.action opened)) (actionStep opened here c rest)
      (actionStep opened' here' c rest) := by
  unfold actionStep
  split
  · exact .ok (.closes opened here here' false 2 .nil nofun)
  · exact .ok (dotStep_alike opened opened' here here' _)
  · exact .ok (.single opened opened' here here' (by nofun) 1)
  · exact .ok (.single opened opened' here here' (by nofun) 1)
  · exact quotedStep_agree opened opened' here here' _
  · exact rawStep_agree opened opened' here here' _
  · split
    · exact .ok (blankStep_alike opened opened' here here' _)
    · split
      · exact numberStep_agree opened opened' here here' _
      · split
        · exact .ok (nameStep_alike opened opened' here here' _)
        · exact .error _ _

end

/-- Modes that differ in where an action was opened. -/
inductive Mode.Alike : Mode → Mode → Prop where
  | text (trim : Bool) : Alike (.text trim) (.text trim)
  | action (opened opened' : Location) : Alike (.action opened) (.action opened')

theorem Mode.Alike.refl (mode : Mode) : mode.Alike mode := by
  cases mode with
  | text trim => exact .text trim
  | action opened => exact .action opened opened

/-- A step does not depend on where it starts but for locations. -/
theorem step_agree {mode mode' : Mode} (h : mode.Alike mode') (here here' : Location) (c : Char)
    (rest : List Char) :
    Agree (Step.Alike mode) (step mode here c rest) (step mode' here' c rest) := by
  cases h with
  | text trim => exact textStep_agree here here' trim (c :: rest)
  | action opened opened' => exact actionStep_agree opened opened' here here' c rest

theorem Step.Alike.mode {mode : Mode} {found found' : Step} (h : Step.Alike mode found found') :
    found.mode.Alike found'.mode := by
  cases h with
  | opens => exact .action _ _
  | passes => exact .text _
  | inside => exact .action _ _
  | closes => exact .text _

theorem Step.Alike.size {mode : Mode} {found found' : Step} (h : Step.Alike mode found found') :
    found.size = found'.size := by
  cases h <;> rfl

/-! ## Runs -/

section

variable (a b : String)

/-- Items behind what is left of an action, if one is open. -/
def ItemsFrom (mode : Mode) (ts ts' : List Token) : Prop :=
  match mode with
  | .text _ => Items a b ts ts'
  | .action _ => ∃ inside inside' stop stop' rest rest',
      ts = inside ++ ⟨.actionClose, stop⟩ :: rest ∧
      ts' = inside' ++ ⟨.actionClose, stop'⟩ :: rest' ∧
        Tokens.Alike inside inside' ∧ (∀ t ∈ inside, isInside t = true) ∧
          Items a b rest rest'

variable {a b}

theorem items_textTokens (content : List Char) (here here' : Location) {ts ts' : List Token}
    (h : Items a b ts ts') :
    Items a b (textTokens content here ++ ts) (textTokens content here' ++ ts') := by
  unfold textTokens
  split
  · exact h
  · exact .text _ here here' h

/-- The tokens of a step before the items that the steps behind it give. -/
theorem Step.Alike.items {mode : Mode} {found found' : Step} (h : Step.Alike mode found found')
    {ts ts' : List Token} (hts : ItemsFrom a b found.mode ts ts') :
    ItemsFrom a b mode (found.tokens ++ ts) (found'.tokens ++ ts') := by
  cases h with
  | opens trim content origin origin' opened opened' size =>
    obtain ⟨inside, inside', stop, stop', rest, rest', rfl, rfl, halike, hinside, hrest⟩ := hts
    dsimp only
    rw [List.append_assoc, List.append_assoc]
    exact items_textTokens content origin origin' (.action _ _ _ _ halike hinside hrest)
  | passes trim content origin origin' next size =>
    exact items_textTokens content origin origin' hts
  | inside opened opened' size halike hinside =>
    obtain ⟨inside, inside', stop, stop', rest, rest', rfl, rfl, halike', hinside', hrest⟩ := hts
    refine ⟨_, _, stop, stop', rest, rest', (List.append_assoc _ _ _).symm,
      (List.append_assoc _ _ _).symm, List.rel_append halike halike', ?_, hrest⟩
    exact List.forall_mem_append.mpr ⟨hinside, hinside'⟩
  | closes opened stop stop' trim size halike hinside =>
    exact ⟨_, _, stop, stop', ts, ts', List.append_assoc _ _ _, List.append_assoc _ _ _, halike,
      hinside, hts⟩

/-- The same characters at two places are cut into items that are alike, or are refused together. -/
theorem run_items {mode mode' : Mode} (h : mode.Alike mode') (here here' : Location)
    (cs : List Char) : Agree (ItemsFrom a b mode) (run mode here cs) (run mode' here' cs) := by
  induction mode, here, cs using run.induct generalizing mode' here' with
  | case1 here trim =>
    cases h
    rw [run, run]
    exact .ok (.eof here here')
  | case2 here opened =>
    cases h
    rw [run, run]
    exact .error _ _
  | case3 mode here c rest ih =>
    rw [run, run]
    refine (step_agree h here here' c rest).bind fun found found' hfound => ?_
    rw [← hfound.size]
    refine (ih found hfound.mode _).bind fun ts ts' hts => ?_
    exact .ok (hfound.items hts)

end

end Stencil.Lexer
