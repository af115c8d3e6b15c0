import Stencil.Proofs.Template.Brackets
import Stencil.Proofs.Template.Comments
import Stencil.Proofs.Template.Spelling

/-!
# Segments of a source

The kinds of a source's tokens do not depend on where it stands (`Lexer.kindsOf?_run`), so a source
can be put together from segments, each with kinds of its own. Inside an action these are names and
keywords (`Lexer.inside?_name`), blanks, quoted strings, and the text of a pipeline up to the
closing (`Lexer.inside?_phrase`). Between actions it is a text that is a source by itself, with the
opening of an action behind it (`Lexer.exists_outside?`).

A text that ends in a brace loses it to that opening: the action is opened one character earlier,
and no action starts with a brace. Then nothing that starts with these segments is a source.
-/

set_option autoImplicit false

namespace Stencil.Lexer

open Stencil.Text
open Tokens (Inner inner_append)

/-! ## Kinds of a run -/

/-- The kinds of the tokens found, if there are any. -/
def kindsOf? (r : Except SourceError (List Token)) : Option (List Token.Kind) :=
  r.toOption.map (·.map (·.kind))

/-- The kinds of characters that start between actions. -/
def outside? (cs : List Char) : Option (List Token.Kind) := kindsOf? (run (.text false) .start cs)

/-- The kinds of characters that start inside an action. -/
def inside? (cs : List Char) : Option (List Token.Kind) := kindsOf? (run (.action .start) .start cs)

theorem kindsOf?_tokenize (text : String) : kindsOf? (tokenize text) = outside? text.toList := rfl

theorem exists_of_kindsOf? {r : Except SourceError (List Token)} {ks : List Token.Kind}
    (h : kindsOf? r = some ks) : ∃ ts, r = .ok ts ∧ ts.map (·.kind) = ks := by
  cases r with
  | error e => cases h
  | ok ts => exact ⟨ts, rfl, Option.some.inj h⟩

theorem kindsOf?_map (us : List Token) (r : Except SourceError (List Token)) :
    kindsOf? (r.map (us ++ ·)) = (kindsOf? r).map (us.map (·.kind) ++ ·) := by
  cases r with
  | error e => rfl
  | ok ts => exact congrArg some List.map_append

variable {mode mode' : Mode}

theorem textTokens_alike (content : List Char) (here here' : Location) :
    Tokens.Alike (textTokens content here) (textTokens content here') := by
  unfold textTokens
  split
  · exact .nil
  · exact .cons rfl .nil

theorem Step.Alike.tokens {found found' : Step} (h : Step.Alike mode found found') :
    Tokens.Alike found.tokens found'.tokens := by
  cases h with
  | opens trim content origin origin' opened opened' size =>
    exact List.rel_append (textTokens_alike content origin origin') (.cons rfl .nil)
  | passes trim content origin origin' next size => exact textTokens_alike content origin origin'
  | inside opened opened' size halike => exact halike
  | closes opened stop stop' trim size halike => exact List.rel_append halike (.cons rfl .nil)

/-- The same characters at two places are cut into tokens that are alike. -/
theorem run_alike (h : mode.Alike mode') (here here' : Location) (cs : List Char) :
    Agree Tokens.Alike (run mode here cs) (run mode' here' cs) := by
  induction mode, here, cs using run.induct generalizing mode' here' with
  | case1 here trim =>
    cases h
    rw [run, run]
    exact .ok (.cons rfl .nil)
  | case2 here opened =>
    cases h
    rw [run, run]
    exact .error _ _
  | case3 mode here c rest ih =>
    rw [run, run]
    refine (step_agree h here here' c rest).bind fun found found' hfound => ?_
    rw [← hfound.size]
    refine (ih found hfound.mode _).bind fun ts ts' hts => ?_
    exact .ok (List.rel_append hfound.tokens hts)

theorem kindsOf?_run (h : mode.Alike mode') (here here' : Location) (cs : List Char) :
    kindsOf? (run mode here cs) = kindsOf? (run mode' here' cs) := by
  have kinds {ts ts' : List Token} (hts : Tokens.Alike ts ts') :
      ts.map (·.kind) = ts'.map (·.kind) := by
    induction hts with
    | nil => rfl
    | cons ht _ ih => rw [List.map_cons, List.map_cons, ht, ih]
  have agree := run_alike h here here' cs
  generalize run mode here cs = x at *
  generalize run mode' here' cs = y at *
  cases x with
  | error e =>
    cases y with
    | error e' => rfl
    | ok ts' => exact agree.elim
  | ok ts =>
    cases y with
    | error e' => exact agree.elim
    | ok ts' => exact congrArg some (kinds agree)

/-! ## Inside an action -/

/-- A step inside an action gives the kinds of its tokens, and then those of what it leaves. -/
theorem inside?_cons {c : Char} {rest : List Char} {found : Step}
    (h : actionStep .start .start c rest = .ok found) (hmode : found.mode.Alike mode) :
    inside? (c :: rest) = (kindsOf? (run mode .start (rest.drop (found.size - 1)))).map
      (found.tokens.map (·.kind) ++ ·) := by
  have later := kindsOf?_run hmode (Location.start.advance ((c :: rest).take found.size)) .start
    (rest.drop (found.size - 1))
  rw [← later, ← kindsOf?_map, inside?, run]
  change kindsOf? (actionStep .start .start c rest >>= _) = _
  rw [h]
  dsimp only [bind, Except.bind]
  cases run found.mode _ (rest.drop (found.size - 1)) <;> rfl

theorem inside?_close (cs : List Char) :
    inside? ('\x7d' :: '\x7d' :: cs) = (outside? cs).map (.actionClose :: ·) := by
  have hstep : actionStep .start .start '\x7d' ('\x7d' :: cs) =
      .ok ⟨[⟨.actionClose, .start⟩], .text false, 2⟩ := rfl
  exact inside?_cons hstep (.text false)

/-- Nothing in an action starts with a brace or a slash. -/
theorem inside?_refused {c : Char} (h : c = '\x7b' ∨ c = '/') (cs : List Char) :
    inside? (c :: cs) = none := by
  have refused : actionStep .start .start c cs =
      .error (.lexical (.unexpectedCharacter c) .start) := by
    rcases h with rfl | rfl <;>
    · rw [actionStep_word (by decide) (by decide) (by decide) (by decide) (by decide)
        fun _ h => absurd h (by decide)]
      simp [isBlank, startsNumber, isDigit, isNameStart, isLetter]
  rw [inside?, run]
  change kindsOf? (actionStep .start .start c cs >>= _) = _
  rw [refused]
  rfl

/-- Keywords start with letters. -/
theorem exists_spelling (k : Keyword) :
    ∃ c rest, k.spelling.toList = c :: rest ∧ isNameStart c = true := by
  cases k <;> exact ⟨_, _, rfl, rfl⟩

theorem ne_of_isNameStart {c x : Char} (h : isNameStart c = true) (hx : isNameStart x = false) :
    c ≠ x := by
  rintro rfl
  rw [h] at hx
  cases hx

theorem isDigit_of_isNameStart {c : Char} (h : isNameStart c = true) : isDigit c = false := by
  rw [Bool.eq_false_iff]
  intro hdigit
  simp only [isNameStart, isLetter, isDigit, Bool.or_eq_true, Bool.and_eq_true, decide_eq_true_eq,
    beq_iff_eq] at h hdigit
  rcases h with hletter | rfl
  · simp only [Char.le_def] at hletter hdigit
    grind
  · exact absurd hdigit (by decide)

theorem isDigit_of_not_isNamePart {c : Char} (h : isNamePart c = false) : isDigit c = false := by
  unfold isNamePart isAlphanumeric at h
  simp only [Bool.or_eq_false_iff] at h
  exact h.1.2

theorem isBlank_of_isNameStart {c : Char} (h : isNameStart c = true) : isBlank c = false := by
  rw [Bool.eq_false_iff]
  intro hblank
  simp only [isBlank, Bool.or_eq_true, beq_iff_eq] at hblank
  rcases hblank with ((rfl | rfl) | rfl) | rfl <;> cases h

/-- A letter or underscore, with letters, digits and underscores behind it. -/
def isName : List Char → Bool
  | [] => false
  | c :: rest => isNameStart c && rest.all isNamePart

/-- A name, in front of what cannot belong to it. -/
theorem inside?_name {name : String} (h : isName name.toList = true) {c : Char}
    (hc : isNamePart c = false) (cs : List Char) :
    inside? (name.toList ++ c :: cs) =
      (inside? (c :: cs)).map ((Accessor.field name).kind :: ·) := by
  cases hname : name.toList with
  | nil =>
    rw [hname] at h
    cases h
  | cons first rest =>
    rw [hname] at h
    obtain ⟨hstart, hrest⟩ := Bool.and_eq_true_iff.mp h
    have apart (x : Char) : isNameStart x = false → first ≠ x := ne_of_isNameStart hstart
    have part : ∀ x ∈ first :: rest, isNamePart x = true :=
      List.forall_mem_cons.mpr ⟨isNamePart_of_isNameStart hstart, List.all_eq_true.mp hrest⟩
    have run : (first :: rest ++ c :: cs).takeWhile isNamePart = first :: rest :=
      takeWhile_run part hc
    have spelled : String.ofList (first :: rest) = name := by
      rw [← hname, String.ofList_toList]
    have number : startsNumber first (rest ++ c :: cs) = false := by
      simp [startsNumber, isDigit_of_isNameStart hstart, apart '-' rfl, apart '+' rfl]
    have hstep : actionStep .start .start first (rest ++ c :: cs) =
        .ok ⟨[⟨(Accessor.field name).kind, .start⟩], .action .start, (first :: rest).length⟩ := by
      rw [actionStep_word (apart _ rfl) (apart _ rfl) (apart _ rfl) (apart _ rfl) (apart _ rfl)
        fun _ h => absurd h (apart _ rfl), isBlank_of_isNameStart hstart, number, hstart,
        if_neg Bool.false_ne_true, if_neg Bool.false_ne_true, if_pos rfl, nameStep,
        ← List.cons_append, run, spelled]
      rfl
    have left : (rest ++ c :: cs).drop ((first :: rest).length - 1) = c :: cs := List.drop_left
    rw [List.cons_append, inside?_cons hstep (.action .start .start), left]
    rfl

/-- A keyword is a name, and none of the words for truth values. -/
theorem inside?_keyword (k : Keyword) {c : Char} (hc : isNamePart c = false) (cs : List Char) :
    inside? (k.spelling.toList ++ c :: cs) = (inside? (c :: cs)).map (k.kind :: ·) := by
  have name : isName k.spelling.toList = true := by cases k <;> decide
  have kind : (Accessor.field k.spelling).kind = k.kind := by cases k <;> rfl
  rw [inside?_name name hc, kind]

/-- Blanks in front of anything but the end of the action. -/
theorem inside?_blanks {blanks : List Char} (hne : blanks ≠ [])
    (h : ∀ x ∈ blanks, isBlank x = true) {c : Char} (hc : isBlank c = false) (hminus : c ≠ '-')
    (cs : List Char) : inside? (blanks ++ c :: cs) =
      (inside? (c :: cs)).map (.blank (String.ofList blanks) :: ·) := by
  obtain ⟨first, rest, rfl⟩ := List.exists_cons_of_ne_nil hne
  have run : (first :: rest ++ c :: cs).takeWhile isBlank = first :: rest := takeWhile_run h hc
  have hstep : actionStep .start .start first (rest ++ c :: cs) =
      .ok ⟨[⟨.blank (String.ofList (first :: rest)), .start⟩], .action .start,
        (first :: rest).length⟩ := by
    rw [actionStep_blank (h first List.mem_cons_self), blankStep, ← List.cons_append, run,
      List.drop_left]
    split
    · next heq => exact absurd (List.cons.inj heq).1 hminus
    · rfl
  have left : (rest ++ c :: cs).drop ((first :: rest).length - 1) = c :: cs := List.drop_left
  rw [List.cons_append, inside?_cons hstep (.action .start .start), left]
  rfl

/-- One blank. -/
theorem inside?_blank {c : Char} (hc : isBlank c = false) (hminus : c ≠ '-') (cs : List Char) :
    inside? (' ' :: c :: cs) = (inside? (c :: cs)).map (.blank " " :: ·) :=
  inside?_blanks (List.cons_ne_nil ' ' []) (List.forall_mem_singleton.mpr rfl) hc hminus cs

/-- Blanks in front of a trim marker that ends the action. -/
theorem inside?_marker {blanks : List Char} (hne : blanks ≠ [])
    (h : ∀ x ∈ blanks, isBlank x = true) (cs : List Char) :
    inside? (blanks ++ '-' :: '\x7d' :: '\x7d' :: cs) = (kindsOf? (run (.text true) .start cs)).map
      ([.blank (String.ofList blanks), .actionClose] ++ ·) := by
  obtain ⟨first, rest, rfl⟩ := List.exists_cons_of_ne_nil hne
  have run : (first :: rest ++ '-' :: '\x7d' :: '\x7d' :: cs).takeWhile isBlank = first :: rest :=
    takeWhile_run h rfl
  have hstep : actionStep .start .start first (rest ++ '-' :: '\x7d' :: '\x7d' :: cs) =
      .ok ⟨[⟨.blank (String.ofList (first :: rest)), .start⟩,
        ⟨.actionClose, Location.start.advance (first :: rest ++ ['-'])⟩], .text true,
        (first :: rest).length + 3⟩ := by
    rw [actionStep_blank (h first List.mem_cons_self), blankStep, ← List.cons_append, run,
      List.drop_left]
    rfl
  have left : (rest ++ '-' :: '\x7d' :: '\x7d' :: cs).drop (rest.length + 3) = cs := by
    rw [← List.drop_drop, List.drop_left]
    rfl
  have size : (first :: rest).length + 3 - 1 = rest.length + 3 := by
    simp only [List.length_cons]
    omega
  rw [List.cons_append, inside?_cons hstep (.text true), size, left]
  rfl

/-- A string between double quotes. -/
theorem inside?_quoted {body content : List Char}
    (h : Literal.quoted 0 body = .ok (content, body.length)) (cs : List Char) :
    inside? ('"' :: (body ++ cs)) =
      (inside? cs).map (.string (String.ofList content) :: ·) := by
  have hstep : actionStep .start .start '"' (body ++ cs) =
      .ok ⟨[⟨.string (String.ofList content), .start⟩], .action .start, 1 + body.length⟩ := by
    change quotedStep .start .start (body ++ cs) = _
    rw [quotedStep, (Literal.quoted_append h cs).1]
  have left : (body ++ cs).drop (1 + body.length - 1) = cs := by
    rw [Nat.add_sub_cancel_left, List.drop_left]
  rw [inside?_cons hstep (.action .start .start), left]
  rfl

/-- Where an action goes on with nothing but its own tokens, it does so whatever is behind it. -/
theorem Reaches.append {here here' : Location} {cs cs' : List Char} {us later : List Token}
    (h : Reaches mode here cs us mode' here' cs') (hmode : mode.isText = false) (hus : Inner us)
    (hlater : Lexer.run mode' here' cs' = .ok later) (more : List Char) :
    Reaches mode here (cs ++ more) us mode' here' (cs' ++ more) := by
  induction h with
  | refl => exact .refl _ _ _
  | @step mode mode' here here' c rest cs found ts hstep hreaches ih =>
    obtain ⟨hfound, hts⟩ := inner_append.mp hus
    cases mode with
    | text trim => cases hmode
    | action opened =>
      have stays : found.mode.isText = false := by
        cases step_shaped hstep with
        | inside => rfl
        | closes => exact ((inner_append.mp hfound).2 _ List.mem_cons_self).elim
      have behind : Lexer.run found.mode (here.advance ((c :: rest).take found.size))
          (rest.drop (found.size - 1)) = .ok (ts ++ later) := by
        rw [hreaches.run, hlater]
        rfl
      obtain ⟨hmore, hsize⟩ := step_append hstep nofun behind more
      rw [List.cons_append]
      refine .step hmore ?_
      rw [← List.cons_append, List.take_append_of_le_length hsize,
        List.drop_append_of_le_length (by omega)]
      exact ih stays hts hlater

/-- The tokens of an action up to its closing. -/
theorem inside?_phrase {cs : List Char} {ts : List Token} {here : Location}
    (h : Reaches (.action .start) .start (cs ++ ['\x7d', '\x7d']) ts (.action .start) here
      ['\x7d', '\x7d']) (hts : Inner ts) (more : List Char) :
    inside? (cs ++ '\x7d' :: '\x7d' :: more) =
      (outside? more).map (ts.map (·.kind) ++ .actionClose :: ·) := by
  have last : run (.action .start) here ['\x7d', '\x7d'] = .ok
      [⟨.actionClose, here⟩, ⟨.eof, here.advance ['\x7d', '\x7d']⟩] := by
    rw [run]
    change (run (.text false) _ [] >>= _) = _
    rw [run]
    rfl
  have reaches : Reaches (.action .start) .start (cs ++ '\x7d' :: '\x7d' :: more) ts
      (.action .start) here ('\x7d' :: '\x7d' :: more) := by
    simpa using h.append rfl hts last more
  have close := inside?_close more
  rw [inside?] at close ⊢
  rw [reaches.run, kindsOf?_map, kindsOf?_run (.action .start .start) here .start, close,
    Option.map_map]
  rfl

/-! ## Between actions -/

theorem map_kind_textTokens (content : List Char) (here here' : Location) :
    (textTokens content here).map (·.kind) = (textTokens content here').map (·.kind) := by
  unfold textTokens
  split <;> rfl

/-- A step over a text in front of an action that starts with neither a trim marker nor a
comment. -/
theorem textStep_opens {trim : Bool} {here : Location} {cs content rest : List Char} {c : Char}
    (hcut : cut ['\x7b', '\x7b'] (cs.drop (if trim then cs.takeWhile isBlank else []).length) =
      some (content, c :: rest)) (hminus : c ≠ '-') (hslash : c ≠ '/') :
    ∃ origin opened size, textStep trim here cs = .ok
        ⟨textTokens content origin ++ [⟨.actionOpen, opened⟩], .action opened, size⟩ ∧
      cs.drop size = c :: rest := by
  have plain : isTrimMarker (c :: rest) = false := by
    unfold isTrimMarker
    split
    · next heq => exact absurd (List.cons.inj heq).1 hminus
    · rfl
  have action : commentBody? false (c :: rest) = none := by
    unfold commentBody?
    dsimp only [List.length_nil, List.drop_zero]
    split
    · next heq => exact absurd (List.cons.inj heq).1 hslash
    · rfl
  unfold textStep
  dsimp only
  rw [hcut]
  dsimp only
  rw [plain, if_neg Bool.false_ne_true, List.drop_zero, action]
  exact ⟨_, _, _, rfl, drop_of_cut_drop hcut 0⟩

/-- The kinds of a text up to an action whose opening stands behind it. -/
theorem kindsOf?_opens {trim : Bool} {here : Location} {cs content rest : List Char} {c : Char}
    (hcut : cut ['\x7b', '\x7b'] (cs.drop (if trim then cs.takeWhile isBlank else []).length) =
      some (content, c :: rest)) (hminus : c ≠ '-') (hslash : c ≠ '/') :
    kindsOf? (run (.text trim) here cs) = (inside? (c :: rest)).map
      ((textTokens content .start).map (·.kind) ++ .actionOpen :: ·) := by
  obtain ⟨origin, opened, size, hstep, hleft⟩ := textStep_opens hcut hminus hslash
  rw [run_text, hstep]
  dsimp only [bind, Except.bind]
  rw [hleft, kindsOf?_map, kindsOf?_run (.action opened .start) _ .start, List.map_append,
    map_kind_textTokens content origin .start, inside?]
  simp

/-- The kinds of a text up to the end of the source. -/
theorem kindsOf?_ends {trim : Bool} {here : Location} {cs : List Char}
    (hcut : cut ['\x7b', '\x7b'] (cs.drop (if trim then cs.takeWhile isBlank else []).length) =
      none) : kindsOf? (run (.text trim) here cs) =
      some ((textTokens (cs.drop (if trim then cs.takeWhile isBlank else []).length) .start).map
        (·.kind) ++ [.eof]) := by
  rw [run_text, textStep]
  dsimp only
  rw [hcut]
  dsimp only [bind, Except.bind]
  rw [List.drop_length, run]
  exact congrArg some (List.map_append.trans
    (congrArg (· ++ _) (map_kind_textTokens _ _ .start)))

/-- An action at the start of a source. -/
theorem outside?_action {c : Char} (hminus : c ≠ '-') (hslash : c ≠ '/') (cs : List Char) :
    outside? ('\x7b' :: '\x7b' :: c :: cs) = (inside? (c :: cs)).map (.actionOpen :: ·) :=
  @kindsOf?_opens false .start ('\x7b' :: '\x7b' :: c :: cs) [] cs c rfl hminus hslash

/-- The text before an opening, where the opening is not found earlier. -/
theorem cut_opening {content : List Char} (h : ¬ ['\x7b', '\x7b'] <:+: content)
    (hlast : content.getLast? ≠ some '\x7b') (rest : List Char) :
    cut ['\x7b', '\x7b'] (content ++ '\x7b' :: '\x7b' :: rest) = some (content, rest) := by
  rw [cut_append_of_none (cut_eq_none h) (straddles_pair_eq_false fun heq => absurd heq hlast)]
  simp [cut]

/-- A text that is a source by itself has the same kinds in front of an action, or no action is read
behind it. -/
theorem exists_outside? {text : List Char} {ts : List Token}
    (h : run (.text false) .start text = .ok ts) :
    ∃ front : Option (List Token.Kind),
      (∀ ks, front = some ks → ts.map (·.kind) = ks ++ [.eof]) ∧
      ∀ c cs, c ≠ '-' → c ≠ '/' → outside? (text ++ '\x7b' :: '\x7b' :: c :: cs) =
        front.bind fun ks => (inside? (c :: cs)).map (ks ++ .actionOpen :: ·) := by
  obtain ⟨hcut, -, us, trim, here, reaches⟩ := exists_reaches h
  generalize lastText (.text false) .start text = last at *
  -- the last text, without the blanks that the action before it trims
  generalize hshown : last.drop (if trim then last.takeWhile isBlank else []).length = shown
  have absent {part : List Char} (hpart : part <:+: shown) : ¬ ['\x7b', '\x7b'] <:+: part := by
    intro hpair
    rw [← hshown] at hpart
    exact cut_ne_none ((hpair.trans hpart).trans (List.drop_suffix _ _).isInfix) hcut
  have plain : cut ['\x7b', '\x7b'] shown = none := cut_eq_none (absent List.infix_rfl)
  have whole : ts.map (·.kind) = us.map (·.kind) ++ (textTokens shown .start).map (·.kind) ++
      [.eof] := by
    have hrun := congrArg kindsOf? (reaches []).run
    rw [List.append_nil, List.append_nil, h, kindsOf?_map, kindsOf?_ends (hshown.symm ▸ plain),
      hshown, Option.map_some, ← List.append_assoc] at hrun
    exact Option.some.inj hrun
  have ahead (c : Char) (cs : List Char) :
      (last ++ '\x7b' :: '\x7b' :: c :: cs).drop (if trim then
        (last ++ '\x7b' :: '\x7b' :: c :: cs).takeWhile isBlank else []).length =
          shown ++ '\x7b' :: '\x7b' :: c :: cs := by
    rw [drop_blanks] at hshown ⊢
    cases trim with
    | false => exact congrArg (· ++ _) hshown
    | true =>
      have stays : ('\x7b' :: '\x7b' :: c :: cs).dropWhile isBlank = '\x7b' :: '\x7b' :: c :: cs :=
        List.dropWhile_cons_of_neg (by decide)
      rw [if_pos rfl] at hshown ⊢
      rw [List.dropWhile_append, hshown, stays]
      split
      · next hempty => rw [List.isEmpty_iff.mp hempty, List.nil_append]
      · rfl
  have kinds (c : Char) (cs : List Char) : outside? (text ++ '\x7b' :: '\x7b' :: c :: cs) =
      (kindsOf? (run (.text trim) here (last ++ '\x7b' :: '\x7b' :: c :: cs))).map
        (us.map (·.kind) ++ ·) := by
    rw [outside?, (reaches _).run, kindsOf?_map]
  by_cases hend : shown.getLast? = some '\x7b'
  · refine ⟨none, by simp, fun c cs _ _ => ?_⟩
    obtain ⟨front, rfl⟩ := List.getLast?_eq_some_iff.mp hend
    have hfront : front.getLast? ≠ some '\x7b' := by
      intro hlast
      obtain ⟨before, rfl⟩ := List.getLast?_eq_some_iff.mp hlast
      exact absent List.infix_rfl ⟨before, [], by simp⟩
    -- the opening is found one character earlier, with a brace behind it
    have found : cut ['\x7b', '\x7b'] (front ++ ['\x7b'] ++ '\x7b' :: '\x7b' :: c :: cs) =
        some (front, '\x7b' :: c :: cs) := by
      rw [List.append_assoc]
      exact cut_opening (absent (List.prefix_append front _).isInfix) hfront _
    rw [kinds, kindsOf?_opens ((congrArg _ (ahead c cs)).trans found) (by decide) (by decide),
      inside?_refused (.inl rfl)]
    rfl
  · refine ⟨some (us.map (·.kind) ++ (textTokens shown .start).map (·.kind)), ?_,
      fun c cs hminus hslash => ?_⟩
    · rintro _ ⟨⟩
      exact whole
    · have found := cut_opening (absent List.infix_rfl) hend (c :: cs)
      rw [kinds, kindsOf?_opens ((congrArg _ (ahead c cs)).trans found) hminus hslash,
        Option.map_map, Option.bind_some]
      refine congrArg (Option.map · _) (funext fun ks => ?_)
      simp

end Stencil.Lexer
