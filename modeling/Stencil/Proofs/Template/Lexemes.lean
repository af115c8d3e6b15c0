import Stencil.Proofs.Template.Positions

/-!
# Tokens at their own spellings

The source from a token's location on starts with the token's spelling: its content, its sign, or
the quote that opens a string (`Token.Kind.spellings`). Blanks that are trimmed, comments, minus
signs of trim markers and decoded escapes belong to no spelling, and yet no location is off by them
(`tokenize_spelled`).

The invariant is about one step of the lexer (`Lexer.Step.Spelled`): what it finds is spelled, one
token behind the other, in the characters that it takes. A spelling is not empty, so the tokens of
the steps behind it stand at greater offsets.
-/

set_option autoImplicit false

namespace Stencil

/-- What a token can start with where it stands. The end of a source has no spelling. -/
def Token.Kind.spellings : Token.Kind → List String
  | .text s | .identifier s | .number s | .blank s => [s]
  | .bool b => [if b then "true" else "false"]
  | .actionOpen => ["\x7b\x7b"]
  | .actionClose => ["\x7d\x7d"]
  | .dot => ["."]
  | .dollar => ["$"]
  | .pipe => ["|"]
  | .string _ => ["\"", "\x60"]
  | .eof => [""]

/-- A token is spelled in characters that start at a location. -/
def Token.SpelledIn (here : Location) (cs : List Char) (t : Token) : Prop :=
  ∃ before lexeme, before ++ lexeme <+: cs ∧ t.location = here.advance before ∧
    String.ofList lexeme ∈ t.kind.spellings

/-- A token is spelled in such characters, with one at least. -/
def Token.Occupies (here : Location) (cs : List Char) (t : Token) : Prop :=
  ∃ before lexeme, before ++ lexeme <+: cs ∧ lexeme ≠ [] ∧ t.location = here.advance before ∧
    String.ofList lexeme ∈ t.kind.spellings

/-- Tokens in the order of a source. -/
abbrev Tokens.Ascend (ts : List Token) : Prop :=
  ts.Pairwise fun t u => t.location.offset < u.location.offset

theorem Location.offset_le_advance (here : Location) (run : List Char) :
    here.offset ≤ (here.advance run).offset := by
  induction run generalizing here with
  | nil => exact Nat.le_refl _
  | cons c run ih =>
    have first := here.offset_next c
    have rest := ih (here.next c)
    rw [Location.advance_cons]
    omega

theorem Location.offset_lt_advance (here : Location) {run : List Char} (h : run ≠ []) :
    here.offset < (here.advance run).offset := by
  obtain ⟨c, run, rfl⟩ := List.exists_cons_of_ne_nil h
  have first := here.offset_next c
  have size := c.utf8Size_pos
  have rest := (here.next c).offset_le_advance run
  rw [Location.advance_cons]
  omega

/-- What is spelled in what is left behind some characters is spelled in all of them. -/
theorem Token.SpelledIn.behind {here : Location} {run cs : List Char} {t : Token}
    (h : t.SpelledIn (here.advance run) cs) : t.SpelledIn here (run ++ cs) := by
  obtain ⟨before, lexeme, hstarts, hlocation, hspelling⟩ := h
  refine ⟨run ++ before, lexeme, ?_, ?_, hspelling⟩
  · rw [List.append_assoc]
    exact (List.prefix_append_right_inj run).mpr hstarts
  · rw [hlocation, Location.advance_append]

theorem Token.Occupies.spelledIn {here : Location} {run cs : List Char} {t : Token}
    (h : t.Occupies here run) (hrun : run <+: cs) : t.SpelledIn here cs := by
  obtain ⟨before, lexeme, hstarts, -, hlocation, hspelling⟩ := h
  exact ⟨before, lexeme, hstarts.trans hrun, hlocation, hspelling⟩

/-- A token that is spelled in some characters stands before their end. -/
theorem Token.Occupies.offset_lt {here : Location} {cs : List Char} {t : Token}
    (h : t.Occupies here cs) : t.location.offset < (here.advance cs).offset := by
  obtain ⟨before, lexeme, ⟨rest, rfl⟩, hne, hlocation, -⟩ := h
  rw [hlocation, List.append_assoc, Location.advance_append]
  exact Location.offset_lt_advance _ (List.append_ne_nil_of_left_ne_nil hne rest)

theorem Token.SpelledIn.offset_le {here : Location} {cs : List Char} {t : Token}
    (h : t.SpelledIn here cs) : here.offset ≤ t.location.offset := by
  obtain ⟨before, lexeme, -, hlocation, -⟩ := h
  rw [hlocation]
  exact here.offset_le_advance before

namespace Lexer

open Stencil.Text

/-! ## Steps -/

/-- The tokens of a step are spelled one behind the other in the characters that it takes, which are
one at least. -/
structure Step.Spelled (here : Location) (cs : List Char) (found : Step) : Prop where
  tokens : ∀ t ∈ found.tokens, t.Occupies here (cs.take found.size)
  ascend : Tokens.Ascend found.tokens
  size : 0 < found.size

variable {opened here : Location}

/-- One token, which is spelled where a step starts. -/
theorem Step.Spelled.single {cs lexeme : List Char} {k : Token.Kind} {mode : Mode} {size : Nat}
    (hstarts : lexeme <+: cs) (hsize : lexeme.length ≤ size) (hne : lexeme ≠ [])
    (hspelling : String.ofList lexeme ∈ k.spellings) :
    Step.Spelled here cs ⟨[⟨k, here⟩], mode, size⟩ where
  tokens := List.forall_mem_singleton.mpr
    ⟨[], lexeme, List.prefix_take_iff.mpr ⟨hstarts, hsize⟩, hne, rfl, hspelling⟩
  ascend := List.pairwise_singleton _ _
  size := Nat.lt_of_lt_of_le (List.length_pos_of_ne_nil hne) hsize

/-- Two tokens, of which the second is spelled behind some characters. -/
theorem Step.Spelled.pair {cs first between second : List Char} {k k' : Token.Kind} {mode : Mode}
    {size : Nat} (hstarts : first ++ between ++ second <+: cs)
    (hsize : (first ++ between ++ second).length ≤ size) (hfirst : first ≠ [])
    (hsecond : second ≠ []) (hk : String.ofList first ∈ k.spellings)
    (hk' : String.ofList second ∈ k'.spellings) :
    Step.Spelled here cs ⟨[⟨k, here⟩, ⟨k', here.advance (first ++ between)⟩], mode, size⟩ where
  tokens := by
    have all := List.prefix_take_iff.mpr ⟨hstarts, hsize⟩
    have start : first <+: first ++ between ++ second := by
      rw [List.append_assoc]
      exact List.prefix_append _ _
    exact List.forall_mem_cons.mpr ⟨⟨[], first, start.trans all, hfirst, rfl, hk⟩,
      List.forall_mem_singleton.mpr ⟨first ++ between, second, all, hsecond, rfl, hk'⟩⟩
  ascend := by
    have later := here.offset_lt_advance (List.append_ne_nil_of_left_ne_nil hfirst between)
    exact List.pairwise_pair.mpr later
  size := Nat.lt_of_lt_of_le (List.length_pos_of_ne_nil (by simp [hfirst])) hsize

theorem prefix_trimEnd (p : Char → Bool) (cs : List Char) : trimEnd p cs <+: cs := by
  unfold trimEnd
  have suffix := List.reverse_prefix.mpr (List.dropWhile_suffix p (l := cs.reverse))
  rwa [List.reverse_reverse] at suffix

/-- A text behind some blanks is spelled in characters of which at least the text is taken. -/
theorem textTokens_occupy {blanks content cs : List Char} {size : Nat}
    (hstarts : blanks ++ content <+: cs) (hsize : blanks.length + content.length ≤ size) :
    ∀ t ∈ textTokens content (here.advance blanks), t.Occupies here (cs.take size) := by
  unfold textTokens
  split
  · exact List.forall_mem_nil _
  · next hcontent =>
    refine List.forall_mem_singleton.mpr ⟨blanks, content, ?_, hcontent, rfl,
      List.mem_singleton_self _⟩
    exact List.prefix_take_iff.mpr ⟨hstarts, by rwa [List.length_append]⟩

/-- A text stands before what is behind it. -/
theorem textTokens_ascend (here : Location) {content shown : List Char} (h : shown <+: content)
    {ts : List Token} (hts : Tokens.Ascend ts)
    (hbehind : ∀ t ∈ ts, t.location = here.advance content) :
    Tokens.Ascend (textTokens shown here ++ ts) := by
  unfold textTokens
  split
  · exact hts
  · next hshown =>
    refine List.pairwise_cons.mpr ⟨fun t ht => ?_, hts⟩
    rw [hbehind t ht]
    refine Location.offset_lt_advance _ fun hnil => hshown ?_
    rw [hnil] at h
    exact List.prefix_nil.mp h

/-- A text is spelled in front of what follows it, and so is the opening behind it. -/
theorem textStep_spelled {trim : Bool} {cs : List Char} {found : Step} (hne : cs ≠ [])
    (h : textStep trim here cs = .ok found) : Step.Spelled here cs found := by
  unfold textStep at h
  dsimp only at h
  generalize hblanks : (if trim then cs.takeWhile isBlank else []) = blanks at h
  have parts : blanks ++ cs.drop blanks.length = cs := by
    obtain ⟨rest, hrest⟩ : blanks <+: cs := by
      rw [← hblanks]
      split
      · exact List.takeWhile_prefix _
      · exact List.nil_prefix
    rw [← hrest, List.drop_left]
  have count := congrArg List.length parts
  rw [List.length_append] at count
  cases hcut : cut ['\x7b', '\x7b'] (cs.drop blanks.length) with
  | none =>
    rw [hcut] at h
    cases h
    have all : blanks ++ cs.drop blanks.length <+: cs := ⟨[], by rw [List.append_nil, parts]⟩
    have ascend := textTokens_ascend (here.advance blanks)
      (List.prefix_refl (cs.drop blanks.length)) .nil (List.forall_mem_nil _)
    rw [List.append_nil] at ascend
    exact ⟨textTokens_occupy all (Nat.le_of_eq count), ascend, List.length_pos_of_ne_nil hne⟩
  | some cutting =>
    obtain ⟨content, rest⟩ := cutting
    rw [hcut] at h
    dsimp only at h
    have opening : blanks ++ content ++ ['\x7b', '\x7b'] <+: cs := by
      rw [← parts, eq_of_cut hcut]
      exact ⟨rest, by simp⟩
    generalize hshown : (if isTrimMarker rest then trimEnd isBlank content else content) = shown
      at h
    -- the text may end before the opening
    have shorter : shown <+: content := by
      rw [← hshown]
      split
      · exact prefix_trimEnd isBlank content
      · exact List.prefix_rfl
    have text : blanks ++ shown <+: cs :=
      ((List.prefix_append_right_inj blanks).mpr shorter).trans
        ((List.prefix_append _ _).trans opening)
    have fits := shorter.length_le
    split at h
    · cases h
      refine ⟨List.forall_mem_append.mpr ⟨textTokens_occupy text (by dsimp only; omega), ?_⟩,
        textTokens_ascend _ shorter (List.pairwise_singleton _ _)
          (List.forall_mem_singleton.mpr rfl),
        by dsimp only; omega⟩
      refine List.forall_mem_singleton.mpr ⟨blanks ++ content, ['\x7b', '\x7b'], ?_,
        List.cons_ne_nil _ _, (Location.advance_append _ _ _).symm, List.mem_singleton_self _⟩
      refine List.prefix_take_iff.mpr ⟨opening, ?_⟩
      simp only [List.length_append, List.length_cons, List.length_nil]
      omega
    · obtain ⟨r, -, hpure⟩ := exists_of_bind_eq_ok h
      cases hpure
      have ascend := textTokens_ascend (here.advance blanks) shorter .nil
        (List.forall_mem_nil _)
      rw [List.append_nil] at ascend
      exact ⟨textTokens_occupy text (by dsimp only; omega), ascend, by dsimp only; omega⟩

theorem blankStep_spelled {c : Char} (hc : isBlank c = true) (rest : List Char) :
    Step.Spelled here (c :: rest) (blankStep opened here (c :: rest)) := by
  have blanks : (c :: rest).takeWhile isBlank ≠ [] := by
    rw [List.takeWhile_cons_of_pos hc]
    exact List.cons_ne_nil _ _
  unfold blankStep
  dsimp only
  split
  · next tail heq =>
    have close : (c :: rest).takeWhile isBlank ++ ['-'] ++ ['\x7d', '\x7d'] <+: c :: rest := by
      conv_rhs => rw [← List.takeWhile_append_dropWhile (p := isBlank) (l := c :: rest)]
      rw [← drop_takeWhile, heq]
      exact ⟨tail, by simp⟩
    exact .pair close (by simp) blanks (List.cons_ne_nil _ _) (List.mem_singleton_self _)
      (List.mem_singleton_self _)
  · exact .single (List.takeWhile_prefix _) (Nat.le_refl _) blanks (List.mem_singleton_self _)

theorem dotStep_spelled (rest : List Char) :
    Step.Spelled here ('.' :: rest) (dotStep opened here rest) := by
  unfold dotStep
  dsimp only
  split
  · exact .single (List.prefix_append ['.'] rest) (by simp) (List.cons_ne_nil _ _)
      (List.mem_singleton_self _)
  · next hdigits =>
    have index : ['.'] ++ [] ++ rest.takeWhile isDigit <+: '.' :: rest :=
      List.cons_prefix_cons.mpr ⟨rfl, List.takeWhile_prefix _⟩
    exact .pair index (by simp [Nat.add_comm]) (List.cons_ne_nil _ _) hdigits
      (List.mem_singleton_self _) (List.mem_singleton_self _)

theorem quotedStep_spelled {rest : List Char} {found : Step}
    (h : quotedStep opened here rest = .ok found) : Step.Spelled here ('"' :: rest) found := by
  unfold quotedStep at h
  split at h
  · cases h
    exact .single (List.prefix_append ['"'] rest) (by simp) (List.cons_ne_nil _ _)
      (List.mem_cons_self ..)
  · cases h
  · cases h

theorem rawStep_spelled {rest : List Char} {found : Step}
    (h : rawStep opened here rest = .ok found) : Step.Spelled here ('\x60' :: rest) found := by
  unfold rawStep at h
  split at h
  · cases h
    exact .single (List.prefix_append ['\x60'] rest) (by simp) (List.cons_ne_nil _ _)
      (List.mem_cons_of_mem _ (List.mem_singleton_self _))
  · cases h

theorem prefix_unsigned (cs : List Char) : Literal.unsigned cs <+: cs := by
  have whole : cs.takeWhile isDigit ++ cs.drop (cs.takeWhile isDigit).length = cs := by
    rw [drop_takeWhile, List.takeWhile_append_dropWhile]
  unfold Literal.unsigned
  dsimp only
  split
  · next d rest heq =>
    split
    · conv_rhs => rw [← whole, heq]
      exact (List.prefix_append_right_inj _).mpr
        (List.cons_prefix_cons.mpr ⟨rfl, List.takeWhile_prefix _⟩)
    · exact List.takeWhile_prefix _
  · exact List.takeWhile_prefix _

theorem prefix_number (cs : List Char) : Literal.number cs <+: cs := by
  unfold Literal.number
  split
  · exact List.cons_prefix_cons.mpr ⟨rfl, prefix_unsigned _⟩
  · exact List.cons_prefix_cons.mpr ⟨rfl, prefix_unsigned _⟩
  · exact prefix_unsigned _

theorem numberStep_spelled {cs : List Char} {found : Step} (hne : Literal.number cs ≠ [])
    (h : numberStep opened here cs = .ok found) : Step.Spelled here cs found := by
  unfold numberStep at h
  dsimp only at h
  split at h
  · cases h
  · cases h
    exact .single (prefix_number cs) (Nat.le_refl _) hne (List.mem_singleton_self _)

theorem nameStep_spelled {c : Char} (hc : isNameStart c = true) (rest : List Char) :
    Step.Spelled here (c :: rest) (nameStep opened here (c :: rest)) := by
  have name : (c :: rest).takeWhile isNamePart ≠ [] := by
    rw [List.takeWhile_cons_of_pos (isNamePart_of_isNameStart hc)]
    exact List.cons_ne_nil _ _
  unfold nameStep
  dsimp only
  refine .single (List.takeWhile_prefix _) (Nat.le_refl _) name ?_
  -- the words for truth values are spelled as they are
  split
  · next htrue => exact List.mem_singleton.mpr htrue
  · split
    · next hfalse => exact List.mem_singleton.mpr hfalse
    · exact List.mem_singleton_self _

theorem actionStep_spelled {c : Char} {rest : List Char} {found : Step}
    (h : actionStep opened here c rest = .ok found) : Step.Spelled here (c :: rest) found := by
  have sign {c : Char} {rest : List Char} {k : Token.Kind}
      (hspelling : String.ofList [c] ∈ k.spellings) :
      Step.Spelled here (c :: rest) ⟨[⟨k, here⟩], .action opened, 1⟩ :=
    .single (List.prefix_append [c] rest) (Nat.le_refl _) (List.cons_ne_nil _ _) hspelling
  unfold actionStep at h
  split at h
  · next rest =>
    cases h
    exact .single (List.prefix_append ['\x7d', '\x7d'] rest) (Nat.le_refl _) (List.cons_ne_nil _ _)
      (List.mem_singleton_self _)
  · cases h
    exact dotStep_spelled _
  · cases h
    exact sign (List.mem_singleton_self _)
  · cases h
    exact sign (List.mem_singleton_self _)
  · exact quotedStep_spelled h
  · exact rawStep_spelled h
  · split at h
    · next hc =>
      cases h
      exact blankStep_spelled hc rest
    · split at h
      · next hc => exact numberStep_spelled (number_ne_nil hc) h
      · split at h
        · next hc =>
          cases h
          exact nameStep_spelled hc rest
        · cases h

theorem step_spelled {mode : Mode} {c : Char} {rest : List Char} {found : Step}
    (h : step mode here c rest = .ok found) : Step.Spelled here (c :: rest) found := by
  cases mode with
  | text trim => exact textStep_spelled (List.cons_ne_nil _ _) h
  | action opened => exact actionStep_spelled h

/-! ## Runs -/

/-- The tokens of characters are spelled in them, one behind the other, and the last one is the mark
of their end. -/
theorem run_spelled {mode : Mode} {cs : List Char} {ts : List Token}
    (h : run mode here cs = .ok ts) : (∀ t ∈ ts, t.SpelledIn here cs) ∧ Tokens.Ascend ts ∧
      ∃ front, ts = front ++ [⟨.eof, here.advance cs⟩] := by
  induction mode, here, cs using run.induct generalizing ts with
  | case1 here trim =>
    rw [run] at h
    cases h
    refine ⟨List.forall_mem_singleton.mpr ?_, List.pairwise_singleton _ _, [], rfl⟩
    exact ⟨[], [], List.nil_prefix, rfl, List.mem_singleton_self _⟩
  | case2 here opened =>
    rw [run] at h
    cases h
  | case3 mode here c rest ih =>
    obtain ⟨found, later, hstep, hlater, rfl⟩ := exists_of_run_cons h
    obtain ⟨hspelled, hascend, hfront⟩ := ih found hlater
    obtain ⟨tokens, ascend, size⟩ := step_spelled hstep
    have parts : (c :: rest).take found.size ++ rest.drop (found.size - 1) = c :: rest := by
      rw [← List.drop_cons size, List.take_append_drop]
    refine ⟨List.forall_mem_append.mpr ⟨fun t ht => ?_, fun t ht => ?_⟩,
      List.pairwise_append.mpr ⟨ascend, hascend, fun t ht u hu => ?_⟩, ?_⟩
    · exact (tokens t ht).spelledIn (List.take_prefix _ _)
    · rw [← parts]
      exact (hspelled t ht).behind
    · -- what a later step finds stands behind all that this one takes
      exact Nat.lt_of_lt_of_le (tokens t ht).offset_lt (hspelled u hu).offset_le
    · obtain ⟨front, rfl⟩ := hfront
      refine ⟨found.tokens ++ front, ?_⟩
      rw [← Location.advance_append, parts, List.append_assoc]

end Lexer

/-- **Tokens point at their own spellings.** The tokens of a source stand at ascending offsets, and
the last one is the mark of the end, at the length of the source. The location of each counts what
precedes it, lines, characters of its line and bytes, and what follows there starts with the token's
spelling. -/
theorem tokenize_spelled {text : String} {ts : List Token} (h : tokenize text = .ok ts) :
    (ts.map (·.location.offset)).Pairwise (· < ·) ∧
      (∃ front stop, ts = front ++ [⟨.eof, stop⟩] ∧ stop.offset = text.utf8ByteSize) ∧
      ∀ t ∈ ts, ∃ before after, text.toList = before ++ after ∧ t.location.Counts before ∧
        ∃ spelling ∈ t.kind.spellings, spelling.toList <+: after := by
  obtain ⟨hspelled, hascend, front, hfront⟩ := Lexer.run_spelled h
  refine ⟨List.pairwise_map.mpr hascend, ⟨front, _, hfront, ?_⟩, fun t ht => ?_⟩
  · rw [(Location.counts_advance text.toList).offset, String.ofList_toList]
  · obtain ⟨before, lexeme, ⟨after, hparts⟩, hlocation, hspelling⟩ := hspelled t ht
    refine ⟨before, lexeme ++ after, ?_, ?_, _, hspelling, ?_⟩
    · rw [← hparts, List.append_assoc]
    · rw [hlocation]
      exact Location.counts_advance before
    · rw [String.toList_ofList]
      exact List.prefix_append _ _

/-- A source with trimmed blanks, a comment, an escape, and a text that runs over a line. -/
def markedSource : String :=
  "é\n \x7b\x7b- .rows.0 | print \"\\u00e9\" -\x7d\x7d\n\x7b\x7b/* c */\x7d\x7d!"

/-- Its tokens stand where they are spelled, the `!` on its third line among them. -/
theorem tokenize_spelled_markedSource : ∃ ts, tokenize markedSource = .ok ts ∧
    ts.map (·.location.offset) = [0, 4, 7, 8, 9, 13, 14, 15, 16, 17, 18, 23, 24, 32, 34, 48, 49] ∧
    (ts.map (·.location.offset)).Pairwise (· < ·) ∧
      (∃ front stop, ts = front ++ [⟨.eof, stop⟩] ∧ stop.offset = markedSource.utf8ByteSize) ∧
      ∀ t ∈ ts, ∃ before after, markedSource.toList = before ++ after ∧ t.location.Counts before ∧
        ∃ spelling ∈ t.kind.spellings, spelling.toList <+: after := by
  obtain ⟨ts, hts, offsets⟩ := exists_of_toOption_any (f := fun ts => ts.map (·.location.offset) ==
    [0, 4, 7, 8, 9, 13, 14, 15, 16, 17, 18, 23, 24, 32, 34, 48, 49])
    (by decide +kernel : (tokenize markedSource).toOption.any _ = true)
  exact ⟨ts, hts, beq_iff_eq.mp offsets, tokenize_spelled hts⟩

end Stencil
