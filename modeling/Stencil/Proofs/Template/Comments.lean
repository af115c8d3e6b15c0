import Stencil.Proofs.Template.Ahead
import Stencil.Proofs.Template.Relocation

/-!
# A comment put into a source

A comment in the middle of a text drops out of the tokens, and leaves the text in two. Where a
source `p` can be cut into tokens by itself, a run over what `p` starts comes to the text that `p`
ends in (`exists_reaches`); there the comment is read by one step more, and what follows it is read
as it is without the comment, at another place (`tokenize_withComment`).

Trim markers would see the difference: a text loses its blanks next to them, and its two halves more
of them than the whole.
-/

set_option autoImplicit false

namespace Stencil

namespace Lexer

open Stencil.Text

/-! ## Points of a source -/

/-- Steps lead from one point of a source to another, and give tokens on the way. -/
inductive Reaches : Mode → Location → List Char → List Token → Mode → Location → List Char →
    Prop where
  | refl (mode : Mode) (here : Location) (cs : List Char) : Reaches mode here cs [] mode here cs
  | step {mode mode' : Mode} {here here' : Location} {c : Char} {rest cs : List Char}
      {found : Step} {ts : List Token} : step mode here c rest = .ok found →
      Reaches found.mode (here.advance ((c :: rest).take found.size)) (rest.drop (found.size - 1))
        ts mode' here' cs →
      Reaches mode here (c :: rest) (found.tokens ++ ts) mode' here' cs

/-- Whether the next character stands between actions. -/
def Mode.isText : Mode → Bool
  | .text _ => true
  | .action _ => false

/-- Whether the blanks of the text that starts here are trimmed, on either side. -/
def Mode.trims : Mode → List Char → Bool
  | .text trim, cs => trim || (cut ['\x7b', '\x7b'] cs).any fun parts => isTrimMarker parts.2
  | .action _, _ => false

/-- Whether some text of what is left is trimmed. -/
def trims (mode : Mode) (here : Location) : List Char → Bool
  | [] => mode.trims []
  | c :: rest =>
    mode.trims (c :: rest) ||
      match step mode here c rest with
      | .ok found =>
        trims found.mode (here.advance ((c :: rest).take found.size)) (rest.drop (found.size - 1))
      | .error _ => false
termination_by cs => cs.length
decreasing_by simp +arith

/-- The text that a source ends in. -/
def lastText (mode : Mode) (here : Location) : List Char → List Char
  | [] => []
  | c :: rest =>
    if mode.isText && (cut ['\x7b', '\x7b'] (c :: rest)).isNone then c :: rest
    else
      match step mode here c rest with
      | .ok found =>
        lastText found.mode (here.advance ((c :: rest).take found.size))
          (rest.drop (found.size - 1))
      | .error _ => []
termination_by cs => cs.length
decreasing_by simp +arith

section

variable {mode mode' : Mode} {here here' : Location} {cs cs' : List Char} {us : List Token}

/-- A run goes on from a point that is reached. -/
theorem Reaches.run (h : Reaches mode here cs us mode' here' cs') :
    run mode here cs = (Lexer.run mode' here' cs').map (us ++ ·) := by
  induction h with
  | refl mode here cs =>
    cases Lexer.run mode here cs <;> rfl
  | step hstep _ ih =>
    rw [Lexer.run, hstep]
    dsimp only [bind, Except.bind]
    rw [ih]
    cases Lexer.run _ _ _ with
    | error e => rfl
    | ok ts => exact congrArg Except.ok (List.append_assoc _ _ _).symm

theorem Reaches.trims (h : Reaches mode here cs us mode' here' cs')
    (htrims : trims mode here cs = false) : Lexer.trims mode' here' cs' = false := by
  induction h with
  | refl => exact htrims
  | step hstep _ ih =>
    rw [Lexer.trims, hstep] at htrims
    exact ih (Bool.or_eq_false_iff.mp htrims).2

theorem trims_start (h : Lexer.trims mode here cs = false) : mode.trims cs = false := by
  cases cs with
  | nil => rwa [Lexer.trims] at h
  | cons c rest =>
    rw [Lexer.trims] at h
    exact (Bool.or_eq_false_iff.mp h).1

/-- The tokens on the way are items in front of those behind it. -/
theorem Reaches.items {a b : String} (h : Reaches mode here cs us mode' here' cs')
    {ts ts' : List Token} (hts : ItemsFrom a b mode' ts ts') :
    ItemsFrom a b mode (us ++ ts) (us ++ ts') := by
  induction h with
  | refl => exact hts
  | @step mode mode' here here' c rest cs found us hstep _ ih =>
    have same : mode.Alike mode := by
      cases mode with
      | text trim => exact .text trim
      | action opened => exact .action opened opened
    have halike := step_agree same here here c rest
    rw [hstep] at halike
    rw [List.append_assoc, List.append_assoc]
    exact Step.Alike.items halike (ih hts)

/-- A run over a source that can be cut into tokens comes to the text that it ends in, whatever
follows the source. -/
theorem exists_reaches {ts : List Token} (h : Lexer.run mode here cs = .ok ts) :
    cut ['\x7b', '\x7b'] (lastText mode here cs) = none ∧ lastText mode here cs <:+ cs ∧
      ∃ us trim here', ∀ more,
        Reaches mode here (cs ++ more) us (.text trim) here' (lastText mode here cs ++ more) := by
  induction mode, here, cs using run.induct generalizing ts with
  | case1 here trim =>
    rw [lastText]
    exact ⟨rfl, List.suffix_rfl, [], trim, here, fun more => .refl _ _ _⟩
  | case2 here opened =>
    rw [Lexer.run] at h
    cases h
  | case3 mode here c rest ih =>
    obtain ⟨found, later, hstep, hlater, -⟩ := exists_of_run_cons h
    rw [lastText]
    split
    · next hlast =>
      obtain ⟨htext, hcut⟩ := Bool.and_eq_true_iff.mp hlast
      cases mode with
      | action opened => cases htext
      | text trim =>
        exact ⟨Option.isNone_iff_eq_none.mp hcut, List.suffix_rfl, [], trim, here,
          fun more => .refl _ _ _⟩
    · next hlast =>
      have opens (trim : Bool) (hmode : mode = .text trim) :
          cut ['\x7b', '\x7b'] ((c :: rest).drop
            (if trim then (c :: rest).takeWhile isBlank else []).length) ≠ none := by
        subst hmode
        have hcut : cut ['\x7b', '\x7b'] (c :: rest) ≠ none :=
          fun hnone => hlast (by rw [hnone]; rfl)
        rw [drop_blanks]
        split
        · exact cut_dropWhile_ne_none rfl hcut
        · exact hcut
      rw [hstep]
      dsimp only
      obtain ⟨hcut, hsuffix, us, trim, here', hreaches⟩ := ih found hlater
      refine ⟨hcut, hsuffix.trans ((List.drop_suffix _ _).trans (List.suffix_cons _ _)),
        found.tokens ++ us, trim, here', fun more => ?_⟩
      obtain ⟨hmore, hsize⟩ := step_append hstep opens hlater more
      rw [List.cons_append]
      refine .step hmore ?_
      rw [← List.cons_append, List.take_append_of_le_length hsize,
        List.drop_append_of_le_length (by omega)]
      exact hreaches more

end

/-! ## The comment -/

/-- Between actions a run is a step and what is left, also where nothing is left. -/
theorem run_text (trim : Bool) (here : Location) (cs : List Char) :
    Lexer.run (.text trim) here cs = textStep trim here cs >>= fun found =>
      (Lexer.run found.mode (here.advance (cs.take found.size)) (cs.drop found.size)).map
        (found.tokens ++ ·) := by
  cases cs with
  | nil =>
    have last : textStep trim here [] = .ok ⟨[], .text false, 0⟩ := by cases trim <;> rfl
    rw [last, Lexer.run]
    dsimp only [bind, Except.bind]
    rw [List.drop_nil, Lexer.run]
    rfl
  | cons c rest =>
    rw [Lexer.run]
    change (textStep trim here (c :: rest) >>= _) = _
    cases hstep : textStep trim here (c :: rest) with
    | error e => rfl
    | ok found =>
      dsimp only [bind, Except.bind]
      rw [List.drop_cons (textStep_size_pos hstep)]
      cases Lexer.run _ _ _ <;> rfl

/-- Where no text is trimmed a step takes the text up to the next action. -/
theorem textStep_of_cut {here : Location} {cs content rest : List Char}
    (hcut : cut ['\x7b', '\x7b'] cs = some (content, rest))
    (huntrimmed : isTrimMarker rest = false) :
    textStep false here cs =
      match commentBody? false rest with
      | none => .ok ⟨textTokens content here ++ [⟨.actionOpen, here.advance content⟩],
          .action (here.advance content), content.length + 2⟩
      | some (body, before) => comment (here.advance content) body >>= fun found =>
          .ok ⟨textTokens content here, .text found.1, content.length + 2 + before + found.2⟩ := by
  unfold textStep
  dsimp only
  rw [if_neg Bool.false_ne_true]
  simp only [List.length_nil, List.drop_zero, Location.advance_nil, hcut, huntrimmed,
    Bool.false_eq_true, if_false, Nat.zero_add, Nat.add_zero]
  cases commentBody? false rest with
  | none => rfl
  | some found => cases comment (here.advance content) found.1 <;> rfl

/-- Where no action follows a step takes all that is left. -/
theorem textStep_of_cut_none {here : Location} {cs : List Char}
    (hcut : cut ['\x7b', '\x7b'] cs = none) :
    textStep false here cs = .ok ⟨textTokens cs here, .text false, cs.length⟩ := by
  unfold textStep
  dsimp only
  rw [if_neg Bool.false_ne_true, List.length_nil, List.drop_zero, hcut, Location.advance_nil]

/-- A step over a text and a comment behind it. -/
theorem textStep_comment {a k q : List Char} (ha : cut ['\x7b', '\x7b'] a = none)
    (hend : a.getLast? ≠ some '\x7b') (hk : cut ['*', '/'] k = none) (here : Location) :
    textStep false here
        (a ++ '\x7b' :: '\x7b' :: '/' :: '*' :: (k ++ '*' :: '/' :: '\x7d' :: '\x7d' :: q)) =
      .ok ⟨textTokens a here, .text false, a.length + k.length + 8⟩ := by
  have hcut : cut ['\x7b', '\x7b']
      (a ++ '\x7b' :: '\x7b' :: '/' :: '*' :: (k ++ '*' :: '/' :: '\x7d' :: '\x7d' :: q)) =
        some (a, '/' :: '*' :: (k ++ '*' :: '/' :: '\x7d' :: '\x7d' :: q)) := by
    rw [cut_append_of_none ha (straddles_pair_eq_false fun h => absurd h hend)]
    simp [cut]
  have hclose : cut ['*', '/'] (k ++ '*' :: '/' :: '\x7d' :: '\x7d' :: q) =
      some (k, '\x7d' :: '\x7d' :: q) := by
    rw [cut_append_of_none hk (straddles_pair_eq_false fun _ => by simp)]
    simp [cut]
  have hcomment (opened : Location) :
      comment opened (k ++ '*' :: '/' :: '\x7d' :: '\x7d' :: q) =
        .ok (false, k.length + 2 + 2) := by
    rw [comment, hclose]
    rfl
  have size : a.length + 2 + 2 + (k.length + 2 + 2) = a.length + k.length + 8 := by omega
  have hopen (body : List Char) : commentBody? false ('/' :: '*' :: body) = some (body, 2) := rfl
  rw [textStep_of_cut hcut rfl, hopen]
  dsimp only
  rw [hcomment, ← size]
  rfl

/-- A run over a text and a comment behind it goes on behind the comment. -/
theorem run_comment {a k q : List Char} (ha : cut ['\x7b', '\x7b'] a = none)
    (hend : a.getLast? ≠ some '\x7b') (hk : cut ['*', '/'] k = none) (here : Location) :
    ∃ spot, Lexer.run (.text false) here
        (a ++ '\x7b' :: '\x7b' :: '/' :: '*' :: (k ++ '*' :: '/' :: '\x7d' :: '\x7d' :: q)) =
      (Lexer.run (.text false) spot q).map (textTokens a here ++ ·) := by
  rw [run_text, textStep_comment ha hend hk here]
  have parts : a ++ '\x7b' :: '\x7b' :: '/' :: '*' :: (k ++ '*' :: '/' :: '\x7d' :: '\x7d' :: q) =
      (a ++ ['\x7b', '\x7b', '/', '*'] ++ k ++ ['*', '/', '\x7d', '\x7d']) ++ q := by simp
  dsimp only [bind, Except.bind]
  have size : a.length + k.length + 8 =
      (a ++ ['\x7b', '\x7b', '/', '*'] ++ k ++ ['*', '/', '\x7d', '\x7d']).length := by
    simp only [List.length_append, List.length_cons, List.length_nil]
    omega
  rw [parts, size, List.drop_left]
  exact ⟨_, rfl⟩

/-- The text up to the next action. -/
def firstText (cs : List Char) : List Char :=
  match cut ['\x7b', '\x7b'] cs with
  | none => cs
  | some (content, _) => content

/-- A text in two pieces, of which either may be empty. -/
theorem items_halves {a b : List Char} (here first second : Location) {ts ts' : List Token}
    (h : Items (String.ofList a) (String.ofList b) ts ts') :
    Items (String.ofList a) (String.ofList b) (textTokens (a ++ b) here ++ ts)
      (textTokens a first ++ (textTokens b second ++ ts')) := by
  by_cases ha : a = []
  · subst ha
    exact items_textTokens b here second h
  by_cases hb : b = []
  · subst hb
    rw [List.append_nil]
    exact items_textTokens a here first h
  have hab : a ++ b ≠ [] := by simp [ha]
  unfold textTokens
  rw [if_neg ha, if_neg hb, if_neg hab, String.ofList_append]
  exact .cut here first second h

/-- A text that ends in front of some source is read with what the source starts with, or before
it. -/
theorem run_halves_agree {a q : List Char} (ha : cut ['\x7b', '\x7b'] a = none)
    (hend : a.getLast? ≠ some '\x7b')
    (htrims : (Mode.text false).trims (a ++ q) = false) (here here' first : Location) :
    Agree (fun ts ts' => Items (String.ofList a) (String.ofList (firstText q)) ts
        (textTokens a first ++ ts'))
      (Lexer.run (.text false) here (a ++ q)) (Lexer.run (.text false) here' q) := by
  have apart : straddles ['\x7b', '\x7b'] a q = false :=
    straddles_pair_eq_false fun h => absurd h hend
  have hcut := cut_append_of_none ha apart
  rw [run_text, run_text]
  rw [Mode.trims, Bool.false_or, hcut] at htrims
  unfold firstText
  cases hq : cut ['\x7b', '\x7b'] q with
  | none =>
    rw [hq, Option.map_none] at hcut
    rw [textStep_of_cut_none hcut, textStep_of_cut_none hq]
    dsimp only [bind, Except.bind]
    rw [List.drop_length, List.drop_length, Lexer.run, Lexer.run]
    exact .ok (items_halves here first here' (.eof _ _))
  | some parts =>
    obtain ⟨b, rest⟩ := parts
    rw [hq, Option.map_some] at hcut htrims
    have huntrimmed : isTrimMarker rest = false := htrims
    rw [textStep_of_cut hcut huntrimmed, textStep_of_cut hq huntrimmed]
    -- both runs go on with the same characters
    have later {mode mode' : Mode} (h : mode.Alike mode') (spot spot' : Location) (size size' : Nat)
        (hsize : size = a.length + size') :
        Agree (ItemsFrom (String.ofList a) (String.ofList b) mode)
          (Lexer.run mode spot ((a ++ q).drop size)) (Lexer.run mode' spot' (q.drop size')) := by
      rw [hsize, ← List.drop_drop, List.drop_left]
      exact run_items h spot spot' _
    dsimp only
    cases commentBody? false rest with
    | none =>
      have hsize : (a ++ b).length + 2 = a.length + (b.length + 2) := by
        rw [List.length_append, Nat.add_assoc]
      refine (later (.action _ _) _ _ _ _ hsize).map fun ts ts' hts => ?_
      obtain ⟨inside, inside', stop, stop', rest, rest', rfl, rfl, halike, hinside, hrest⟩ := hts
      rw [List.append_assoc, List.append_assoc]
      exact items_halves here first here' (.action _ _ _ _ halike hinside hrest)
    | some opening =>
      obtain ⟨body, before⟩ := opening
      have hcomment := comment_agree (here.advance (a ++ b)) (here'.advance b) body
      dsimp only
      rw [bind_assoc, bind_assoc]
      refine hcomment.bind fun found found' hfound => ?_
      subst hfound
      have hsize : (a ++ b).length + 2 + before + found.2 =
          a.length + (b.length + 2 + before + found.2) := by
        rw [List.length_append]
        omega
      refine (later (.text _) _ _ _ _ hsize).map fun ts ts' hts => ?_
      exact items_halves here first here' hts

end Lexer

/-! ## Sources -/

/-- Whether a trim marker stands beside some text of a source. -/
def hasTrimMarkers (source : String) : Bool :=
  Lexer.trims (.text false) .start source.toList

/-- The text that a source ends in, up to the last action or comment. -/
def textAtEnd (source : String) : String :=
  String.ofList (Lexer.lastText (.text false) .start source.toList)

/-- The text that a source starts with, up to the first action or comment. -/
def textAtStart (source : String) : String :=
  String.ofList (Lexer.firstText source.toList)

/-- Two sources with a comment between them. -/
def withComment (p k q : String) : String :=
  p ++ "\x7b\x7b/*" ++ k ++ "*/\x7d\x7d" ++ q

/-- A comment between two sources stands in a text of the two in one. -/
structure CommentInText (p k q : String) : Prop where
  readable : (tokenize p).isOk = true
  apart : p.toList.getLast? ≠ some '\x7b'
  untrimmed : hasTrimMarkers (p ++ q) = false
  closed : ¬ ['*', '/'] <:+: k.toList

open Lexer in
/-- A comment put into a text leaves the tokens as they are but for the text, which it leaves in two
pieces. -/
theorem tokenize_withComment {p k q : String} (h : CommentInText p k q) :
    Agree (Items (textAtEnd p) (textAtStart q)) (tokenize (p ++ q))
      (tokenize (withComment p k q)) := by
  obtain ⟨hreadable, hend, htrims, hclosed⟩ := h
  obtain ⟨ts, hp⟩ : ∃ ts, tokenize p = .ok ts := by
    cases hp : tokenize p with
    | error e =>
      rw [hp] at hreadable
      cases hreadable
    | ok ts => exact ⟨ts, rfl⟩
  have hk := Text.cut_eq_none hclosed
  obtain ⟨hcut, hsuffix, us, trim, here, hreaches⟩ := exists_reaches hp
  unfold textAtEnd textAtStart tokenize
  generalize lastText (.text false) .start p.toList = a at hcut hsuffix hreaches ⊢
  have hend' : a.getLast? ≠ some '\x7b' := by
    intro hlast
    obtain ⟨before, heq⟩ := hsuffix
    rw [← heq, List.getLast?_append, hlast] at hend
    exact hend rfl
  have source : (withComment p k q).toList = p.toList ++
      '\x7b' :: '\x7b' :: '/' :: '*' ::
        (k.toList ++ '*' :: '/' :: '\x7d' :: '\x7d' :: q.toList) := by
    simp [withComment]
  have plain := hreaches q.toList
  rw [hasTrimMarkers, String.toList_append] at htrims
  have huntrimmed := trims_start (plain.trims htrims)
  have htrim : trim = false := (Bool.or_eq_false_iff.mp huntrimmed).1
  subst htrim
  obtain ⟨spot, hcomment⟩ := run_comment hcut hend' hk (q := q.toList) here
  rw [source, String.toList_append, plain.run, (hreaches _).run, hcomment]
  have twice (r : Except SourceError (List Token)) :
      (r.map (textTokens a here ++ ·)).map (us ++ ·) =
        r.map fun ts => us ++ (textTokens a here ++ ts) := by
    cases r <;> rfl
  rw [twice]
  refine (run_halves_agree hcut hend' huntrimmed here spot here).map fun ts ts' hts => ?_
  exact plain.items hts

/-- So does it leave what the source is parsed to. -/
theorem Source.parse_withComment {p k q : String} (h : CommentInText p k q) (name : String) :
    Agree (Source.Alike (textAtEnd p) (textAtStart q)) (Source.parse name (p ++ q))
      (Source.parse name (withComment p k q)) :=
  (tokenize_withComment h).bind fun _ _ => Source.ofTokens_agree name

end Stencil
