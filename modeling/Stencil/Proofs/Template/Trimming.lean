import Stencil.Proofs.Template.Apart
import Stencil.Proofs.Template.Segments

/-!
# Trim markers

A trim marker is as good as trimming by hand: an action with markers has the tokens of the action
without them, between the texts that the markers leave (`tokenize_trimmed`).

The body of the action is read the same in front of either closing. Its steps end in front of the
blank that both start with (`Lexer.exists_inside?`), since the action would else be closed earlier,
and what stands behind an earlier closing shows in the tokens: a text that ends in a blank and two
braces is no comment (`Lexer.exists_outer`).
-/

set_option autoImplicit false

namespace Stencil

open Stencil.Text
open Tokens (Inner)

/-- A token that stands between actions, or opens one. -/
def Token.Kind.IsOuter : Token.Kind → Prop
  | .text _ | .actionOpen => True
  | _ => False

namespace Lexer

/-! ## Delimiters -/

/-- The opening of an action, with or without a trim marker. -/
def opening (marked : Bool) : String := if marked then "\x7b\x7b- " else "\x7b\x7b "

/-- The closing of an action, with or without a trim marker. -/
def closing (marked : Bool) : String := if marked then " -\x7d\x7d" else " \x7d\x7d"

/-- What is left of the text before an action. -/
def shownBefore (marked : Bool) (text : String) : String :=
  if marked then String.ofList (trimEnd isBlank text.toList) else text

/-- What is left of the text behind an action. -/
def shownBehind (marked : Bool) (text : String) : String :=
  if marked then String.ofList (text.toList.dropWhile isBlank) else text

/-! ## Comments -/

/-- A comment ends with two braces behind a slash or a minus sign. -/
theorem exists_of_comment {opened : Location} {body : List Char} {r : Bool × Nat}
    (h : comment opened body = .ok r) :
    ∃ d, d ≠ ' ' ∧ d :: '\x7d' :: '\x7d' :: body.drop r.2 <:+ body := by
  unfold comment at h
  split at h
  · cases h
  next inside rest hcut =>
  split at h
  · cases h
  next trim size hclose =>
  cases h
  have parts := eq_of_cut hcut
  have left (n : Nat) : body.drop (inside.length + 2 + n) = rest.drop n := drop_of_cut hcut n
  dsimp only
  rw [left]
  unfold commentClose? at hclose
  split at hclose
  · next tail =>
    cases hclose
    refine ⟨'-', by decide, inside ++ ['*', '/', ' '], ?_⟩
    rw [parts]
    simp
  · next tail =>
    cases hclose
    refine ⟨'/', by decide, inside ++ ['*'], ?_⟩
    rw [parts]
    simp
  · cases hclose

theorem eq_drop_of_commentBody? {trimmed : Bool} {cs body : List Char} {before : Nat}
    (h : commentBody? trimmed cs = some (body, before)) : body = cs.drop before := by
  unfold commentBody? at h
  dsimp only at h
  split at h
  · next heq =>
    cases h
    rw [← List.drop_drop, heq]
    rfl
  · cases h

theorem textTokens_eq_nil {content : List Char} {here : Location}
    (h : textTokens content here = []) : content = [] := by
  unfold textTokens at h
  split at h
  · next hempty => exact hempty
  · cases h

/-- A step between actions that finds no token takes blanks up to the end, or a comment. -/
theorem exists_of_textStep_nil {trim : Bool} {here : Location} {cs : List Char} {found : Step}
    (h : textStep trim here cs = .ok found) (hnil : found.tokens = []) :
    (∀ x ∈ cs, isBlank x = true) ∨
      ∃ d, d ≠ ' ' ∧ d :: '\x7d' :: '\x7d' :: cs.drop found.size <:+ cs := by
  unfold textStep at h
  dsimp only at h
  split at h
  · cases h
    have hempty := textTokens_eq_nil hnil
    rw [drop_blanks] at hempty
    cases trim with
    | false =>
      rw [if_neg Bool.false_ne_true] at hempty
      exact .inl (hempty ▸ List.forall_mem_nil _)
    | true => exact .inl (List.dropWhile_eq_nil_iff.mp hempty)
  next content rest hcut =>
  generalize hblanks : (if trim then cs.takeWhile isBlank else []) = blanks at *
  have left (n : Nat) : cs.drop (blanks.length + content.length + 2 + n) = rest.drop n :=
    drop_of_cut_drop hcut n
  split at h
  · cases h
    cases (List.append_eq_nil_iff.mp hnil).2
  next body before hbody =>
  obtain ⟨⟨next, length⟩, hcomment, hpure⟩ := exists_of_bind_eq_ok h
  cases hpure
  obtain ⟨d, hd, hsuffix⟩ := exists_of_comment hcomment
  have behind : cs.drop (blanks.length + content.length + 2 +
      (if isTrimMarker rest then 1 else 0) + before + length) = body.drop length := by
    rw [eq_drop_of_commentBody? hbody, List.drop_drop, List.drop_drop, ← left, Nat.add_assoc,
      Nat.add_assoc, Nat.add_assoc]
  have inside : body <:+ cs := by
    rw [eq_drop_of_commentBody? hbody, ← left]
    exact (List.drop_suffix _ _).trans (List.drop_suffix _ _)
  refine .inr ⟨d, hd, ?_⟩
  rw [behind]
  exact hsuffix.trans inside

/-- What ends in a blank and two braces does so behind two braces with something else before
them. -/
theorem ending_suffix {d : Char} {front rest : List Char} (hd : d ≠ ' ')
    (h : [' ', '\x7d', '\x7d'] <:+ front ++ d :: '\x7d' :: '\x7d' :: rest) :
    [' ', '\x7d', '\x7d'] <:+ rest := by
  rw [← List.reverse_prefix] at h ⊢
  have whole : (front ++ d :: '\x7d' :: '\x7d' :: rest).reverse =
      rest.reverse ++ '\x7d' :: '\x7d' :: d :: front.reverse := by simp
  rw [whole] at h
  generalize rest.reverse = back at h ⊢
  match back with
  | [] => simp [Ne.symm hd] at h
  | [x] => simp at h
  | [x, y] => simp at h
  | x :: y :: z :: back => simpa using h

/-- Behind a closing, a text that ends like one shows in the tokens. -/
theorem exists_outer {mode : Mode} {here : Location} {cs : List Char} {ts : List Token}
    (h : run mode here cs = .ok ts) (hmode : mode.isText = true)
    (hend : [' ', '\x7d', '\x7d'] <:+ cs) : ∃ t ∈ ts, t.kind.IsOuter := by
  induction mode, here, cs using run.induct generalizing ts with
  | case1 here trim => cases List.suffix_nil.mp hend
  | case2 here opened => cases hmode
  | case3 mode here c rest ih =>
    obtain ⟨found, later, hstep, hlater, rfl⟩ := exists_of_run_cons h
    cases mode with
    | action opened => cases hmode
    | text trim =>
      have first (hfound : ∃ t ∈ found.tokens, t.kind.IsOuter) :
          ∃ t ∈ found.tokens ++ later, t.kind.IsOuter := by
        obtain ⟨t, ht, houter⟩ := hfound
        exact ⟨t, List.mem_append_left _ ht, houter⟩
      have size : 0 < found.size := textStep_size_pos hstep
      cases step_shaped hstep with
      | opens trim opened size htexts => exact first ⟨_, List.mem_concat_self, trivial⟩
      | @passes trim texts next size htexts =>
        cases texts with
        | cons t texts =>
          obtain ⟨content, hkind, -⟩ := htexts t List.mem_cons_self
          exact first ⟨t, List.mem_cons_self, by rw [hkind]; trivial⟩
        | nil =>
          rcases exists_of_textStep_nil hstep rfl with hblanks | ⟨d, hd, front, hfront⟩
          · cases hblanks '\x7d' (hend.subset (by simp))
          · rw [← hfront] at hend
            have behind := ending_suffix hd hend
            rw [List.drop_cons size] at behind
            obtain ⟨t, ht, houter⟩ := ih _ hlater rfl behind
            exact ⟨t, ht, houter⟩

/-! ## The body of an action -/

/-- What is read inside an action is a step and what it leaves. -/
theorem exists_of_inside?_cons {c : Char} {rest : List Char} {ks : List Token.Kind}
    (h : inside? (c :: rest) = some ks) : ∃ found later,
      actionStep .start .start c rest = .ok found ∧
      kindsOf? (run found.mode .start (rest.drop (found.size - 1))) = some later ∧
      ks = found.tokens.map (·.kind) ++ later := by
  cases hstep : actionStep .start .start c rest with
  | error e =>
    rw [inside?, run] at h
    change kindsOf? (actionStep .start .start c rest >>= _) = _ at h
    rw [hstep] at h
    cases h
  | ok found =>
    rw [inside?_cons hstep (.refl found.mode)] at h
    obtain ⟨later, hlater, rfl⟩ := Option.map_eq_some_iff.mp h
    exact ⟨found, later, rfl, hlater, rfl⟩

/-- Blanks and the closing of an action. -/
theorem inside?_closing {blanks : List Char} (h : ∀ x ∈ blanks, isBlank x = true) (marked : Bool)
    (more : List Char) : inside? (blanks ++ ((closing marked).toList ++ more)) =
      (kindsOf? (run (.text marked) .start more)).map
        ([.blank (String.ofList (blanks ++ [' '])), .actionClose] ++ ·) := by
  have hne : blanks ++ [' '] ≠ [] := List.append_ne_nil_of_right_ne_nil _ (List.cons_ne_nil _ _)
  have all : ∀ x ∈ blanks ++ [' '], isBlank x = true :=
    List.forall_mem_append.mpr ⟨h, List.forall_mem_singleton.mpr rfl⟩
  cases marked with
  | false =>
    have chars : blanks ++ ((closing false).toList ++ more) =
        blanks ++ [' '] ++ '\x7d' :: '\x7d' :: more := by simp [closing]
    rw [chars, inside?_blanks hne all rfl (by decide), inside?_close, outside?, Option.map_map]
    rfl
  | true =>
    have chars : blanks ++ ((closing true).toList ++ more) =
        blanks ++ [' '] ++ '-' :: '\x7d' :: '\x7d' :: more := by simp [closing]
    rw [chars, inside?_marker hne all]

/-- The body of a single action is read the same in front of either closing and any text behind
it. -/
theorem exists_inside? {cs : List Char} {ks : List Token.Kind}
    (h : inside? (cs ++ [' ', '\x7d', '\x7d']) = some ks) (hks : ∀ k ∈ ks, ¬ k.IsOuter) :
    ∃ inside, ∀ marked more, inside? (cs ++ ((closing marked).toList ++ more)) =
      (kindsOf? (run (.text marked) .start more)).map (inside ++ .actionClose :: ·) := by
  by_cases hall : cs.all isBlank = true
  · exact ⟨[.blank (String.ofList (cs ++ [' ']))], fun marked more =>
      inside?_closing (List.all_eq_true.mp hall) marked more⟩
  have hall : cs.all isBlank = false := Bool.eq_false_iff.mpr hall
  match cs with
  | c :: rest =>
    rw [List.cons_append] at h
    obtain ⟨found, later, hstep, hlater, rfl⟩ := exists_of_inside?_cons h
    obtain ⟨alone, before⟩ := actionStep_in_front hstep hall (by decide) (by decide)
    have size := actionStep_size_le alone
    simp only [List.length_cons] at size
    have left (more : List Char) : (rest ++ more).drop (found.size - 1) =
        rest.drop (found.size - 1) ++ more := List.drop_append_of_le_length (by omega)
    rw [left] at hlater
    have inner := (List.forall_mem_append.mp hks).2
    cases actionStep_shaped hstep with
    | @inside tokens opened _ _ =>
      obtain ⟨inside, hinside⟩ := exists_inside? hlater inner
      refine ⟨tokens.map (·.kind) ++ inside, fun marked more => ?_⟩
      have chars : ∃ more', (closing marked).toList ++ more = ' ' :: more' := by
        cases marked <;> exact ⟨_, rfl⟩
      have next := hinside marked more
      obtain ⟨more', hmore⟩ := chars
      rw [hmore] at next ⊢
      rw [List.cons_append, inside?_cons (before more') (.action .start .start), left]
      rw [inside?] at next
      rw [next, Option.map_map]
      refine congrArg (Option.map · _) (funext fun ks => ?_)
      simp
    | closes opened stop trim _ _ =>
      -- the closing would come too early
      obtain ⟨ts, hrun, rfl⟩ := exists_of_kindsOf? hlater
      obtain ⟨t, ht, houter⟩ := exists_outer hrun rfl (List.suffix_append _ _)
      exact absurd houter (inner _ (List.mem_map_of_mem ht))
termination_by cs.length
decreasing_by simp +arith

/-! ## The texts around an action -/

/-- The kinds of a text without actions. -/
theorem kindsOf?_text {cs : List Char} (h : ¬ ['\x7b', '\x7b'] <:+: cs) (trim : Bool)
    (here : Location) : kindsOf? (run (.text trim) here cs) =
      some ((textTokens (if trim then cs.dropWhile isBlank else cs) .start).map (·.kind) ++
        [.eof]) := by
  have plain : cut ['\x7b', '\x7b']
      (cs.drop (if trim then cs.takeWhile isBlank else []).length) = none :=
    cut_eq_none fun hpair => h (hpair.trans (List.drop_suffix _ _).isInfix)
  rw [kindsOf?_ends plain, drop_blanks]

/-- Blanks in front of a comment are not read inside an action. -/
theorem commentBody?_eq_none {cs : List Char} {ks : List Token.Kind}
    (h : inside? (' ' :: (cs ++ [' ', '\x7d', '\x7d'])) = some ks) (marked : Bool)
    (more : List Char) : commentBody? true (' ' :: (cs ++ ((closing marked).toList ++ more))) =
      none := by
  unfold commentBody?
  dsimp only
  rw [if_pos rfl, drop_takeWhile, ← List.cons_append]
  split
  · next body heq =>
    rcases run_cases isBlank (' ' :: cs) ((closing marked).toList ++ more) with
      ⟨hne, -, hdrop⟩ | ⟨-, -, -, hdrop⟩
    · -- the slash stands in the action itself
      rw [hdrop] at heq
      obtain ⟨first, rest, hfirst⟩ := List.exists_cons_of_ne_nil hne
      rw [hfirst] at heq
      obtain ⟨rfl, -⟩ := List.cons.inj heq
      have parts : ' ' :: (cs ++ [' ', '\x7d', '\x7d']) = (' ' :: cs).takeWhile isBlank ++
          '/' :: (rest ++ [' ', '\x7d', '\x7d']) := by
        rw [← List.cons_append, ← List.cons_append, ← hfirst, ← List.append_assoc,
          List.takeWhile_append_dropWhile]
      have blanks : (' ' :: cs).takeWhile isBlank ≠ [] := by
        rw [List.takeWhile_cons_of_pos rfl]
        exact List.cons_ne_nil _ _
      rw [parts, inside?_blanks blanks (fun x hx => List.mem_takeWhile_imp hx) rfl (by decide),
        inside?_refused (.inr rfl)] at h
      cases h
    · rw [hdrop] at heq
      cases marked <;> cases heq
  · rfl

/-- A text in front of an action with a trim marker. -/
theorem outside?_marked {content : List Char} (h : ¬ ['\x7b', '\x7b'] <:+: content)
    (hlast : content.getLast? ≠ some '\x7b') {cs : List Char}
    (hcomment : commentBody? true (' ' :: cs) = none) :
    outside? (content ++ '\x7b' :: '\x7b' :: '-' :: ' ' :: cs) = (inside? (' ' :: cs)).map
      ((textTokens (trimEnd isBlank content) .start).map (·.kind) ++ .actionOpen :: ·) := by
  have hstep : textStep false .start (content ++ '\x7b' :: '\x7b' :: '-' :: ' ' :: cs) =
      .ok ⟨textTokens (trimEnd isBlank content) .start ++
        [⟨.actionOpen, Location.start.advance content⟩], .action (Location.start.advance content),
          content.length + 3⟩ := by
    have marker : isTrimMarker ('-' :: ' ' :: cs) = true := rfl
    unfold textStep
    dsimp only
    rw [if_neg Bool.false_ne_true, List.length_nil, List.drop_zero,
      cut_opening h hlast ('-' :: ' ' :: cs)]
    dsimp only
    rw [marker, if_pos rfl, if_pos rfl, List.drop_succ_cons, List.drop_zero, hcomment,
      Location.advance_nil, Nat.zero_add]
  have left : (content ++ '\x7b' :: '\x7b' :: '-' :: ' ' :: cs).drop (content.length + 3) =
      ' ' :: cs := by
    rw [← List.drop_drop, List.drop_left]
    rfl
  rw [outside?, run_text, hstep]
  dsimp only [bind, Except.bind]
  rw [left, kindsOf?_map, kindsOf?_run (.action _ .start) _ .start, List.map_append, inside?]
  simp

theorem getLast?_ne_of_trimEnd {cs : List Char}
    (h : (trimEnd isBlank cs).getLast? ≠ some '\x7b') : cs.getLast? ≠ some '\x7b' := by
  intro hlast
  obtain ⟨front, rfl⟩ := List.getLast?_eq_some_iff.mp hlast
  refine h ?_
  have kept : trimEnd isBlank (front ++ ['\x7b']) = front ++ ['\x7b'] := by
    rw [trimEnd, List.reverse_append, List.reverse_singleton, List.singleton_append,
      List.dropWhile_cons_of_neg (by decide), List.reverse_cons, List.reverse_reverse]
  rw [kept, hlast]

/-- A text in front of an action, and what its opening leaves of the text. -/
theorem outside?_opening {text : String} (h : ¬ ['\x7b', '\x7b'] <:+: text.toList)
    (hlast : text.toList.getLast? ≠ some '\x7b') {cs : List Char}
    (hcomment : commentBody? true (' ' :: cs) = none) (marked : Bool) :
    outside? (text.toList ++ ((opening marked).toList ++ cs)) = (inside? (' ' :: cs)).map
      ((textTokens (shownBefore marked text).toList .start).map (·.kind) ++ .actionOpen :: ·) := by
  cases marked with
  | false =>
    have chars : text.toList ++ ((opening false).toList ++ cs) =
        text.toList ++ '\x7b' :: '\x7b' :: ' ' :: cs := by simp [opening]
    rw [chars]
    exact @kindsOf?_opens false .start _ text.toList cs ' ' (cut_opening h hlast (' ' :: cs))
      (by decide) (by decide)
  | true =>
    have chars : text.toList ++ ((opening true).toList ++ cs) =
        text.toList ++ '\x7b' :: '\x7b' :: '-' :: ' ' :: cs := by simp [opening]
    rw [chars, outside?_marked h hlast hcomment]
    simp [shownBefore]

/-- What a text leaves behind an action. -/
theorem kindsOf?_shownBehind {text : String} (h : ¬ ['\x7b', '\x7b'] <:+: text.toList)
    (marked : Bool) : kindsOf? (run (.text marked) .start text.toList) =
      some ((textTokens (shownBehind marked text).toList .start).map (·.kind) ++ [.eof]) := by
  rw [kindsOf?_text h]
  cases marked with
  | false => rfl
  | true => rw [if_pos rfl, shownBehind, if_pos rfl, String.toList_ofList]

theorem shownBefore_plain {text : String} (h : ¬ ['\x7b', '\x7b'] <:+: text.toList)
    (marked : Bool) : ¬ ['\x7b', '\x7b'] <:+: (shownBefore marked text).toList := by
  cases marked with
  | false => exact h
  | true =>
    rw [shownBefore, if_pos rfl, String.toList_ofList]
    exact fun hpair => h (hpair.trans (prefix_trimEnd isBlank _).isInfix)

theorem shownBehind_plain {text : String} (h : ¬ ['\x7b', '\x7b'] <:+: text.toList)
    (marked : Bool) : ¬ ['\x7b', '\x7b'] <:+: (shownBehind marked text).toList := by
  cases marked with
  | false => exact h
  | true =>
    rw [shownBehind, if_pos rfl, String.toList_ofList]
    exact fun hpair => h (hpair.trans (List.dropWhile_suffix _).isInfix)

end Lexer

open Lexer

/-- Tokens of a single action. -/
def Tokens.IsAction (ts : List Token) : Prop :=
  ∃ start inside stop last, Inner inside ∧
    ts = ⟨.actionOpen, start⟩ :: (inside ++ [⟨.actionClose, stop⟩, ⟨.eof, last⟩])

/-- The body of a single action, behind the blank of its opening and in front of that of its
closing. -/
theorem Tokens.IsAction.exists_inside? {x : String} {ts : List Token} (haction : IsAction ts)
    (h : tokenize (opening false ++ x ++ closing false) = .ok ts) :
    ∃ ks, Lexer.inside? (' ' :: (x.toList ++ [' ', '\x7d', '\x7d'])) = some ks ∧
      ∀ k ∈ ks, ¬ k.IsOuter := by
  obtain ⟨start, inside, stop, last, hinside, rfl⟩ := haction
  have chars : (opening false ++ x ++ closing false).toList =
      '\x7b' :: '\x7b' :: ' ' :: (x.toList ++ [' ', '\x7d', '\x7d']) := by
    simp [opening, closing]
  have kinds : outside? (opening false ++ x ++ closing false).toList =
      some (.actionOpen :: (inside.map (·.kind) ++ [.actionClose, .eof])) := by
    rw [← kindsOf?_tokenize, h]
    simp [kindsOf?, Except.toOption]
  rw [chars, outside?_action (by decide) (by decide)] at kinds
  obtain ⟨ks, hks, heq⟩ := Option.map_eq_some_iff.mp kinds
  obtain rfl := (List.cons.inj heq).2
  refine ⟨_, hks, List.forall_mem_append.mpr ⟨List.forall_mem_map.mpr fun t ht houter => ?_, ?_⟩⟩
  · have inner := hinside t ht
    unfold Token.IsInner at inner
    unfold Token.Kind.IsOuter at houter
    cases hkind : t.kind <;> simp_all
  · exact List.forall_mem_cons.mpr ⟨id, List.forall_mem_singleton.mpr id⟩

/-- **Trim markers equal trimming by hand.** Between texts without openings, of which the first does
not end in a brace before blanks, an action with a trim marker on either side has the same tokens as
the action without it, with the blanks of the text on that side removed. -/
theorem tokenize_trimmed {a b x : String} (ha : ¬ ['\x7b', '\x7b'] <:+: a.toList)
    (hb : ¬ ['\x7b', '\x7b'] <:+: b.toList)
    (hbrace : (trimEnd isBlank a.toList).getLast? ≠ some '\x7b') {ts : List Token}
    (hx : tokenize (opening false ++ x ++ closing false) = .ok ts) (haction : Tokens.IsAction ts)
    (left right : Bool) : ∃ ks,
      kindsOf? (tokenize (a ++ opening left ++ x ++ closing right ++ b)) = some ks ∧
      kindsOf? (tokenize (shownBefore left a ++ opening false ++ x ++ closing false ++
        shownBehind right b)) = some ks := by
  obtain ⟨ks, hks, outer⟩ := haction.exists_inside? hx
  obtain ⟨inside, hinside⟩ := @Lexer.exists_inside? (' ' :: x.toList) ks hks outer
  have whole (before behind : String) (hbefore : ¬ ['\x7b', '\x7b'] <:+: before.toList)
      (hlast : before.toList.getLast? ≠ some '\x7b') (left right : Bool) :
      kindsOf? (tokenize (before ++ opening left ++ x ++ closing right ++ behind)) =
        (kindsOf? (run (.text right) .start behind.toList)).map fun ks =>
          (textTokens (shownBefore left before).toList .start).map (·.kind) ++
            .actionOpen :: (inside ++ .actionClose :: ks) := by
    have chars : (before ++ opening left ++ x ++ closing right ++ behind).toList =
        before.toList ++ ((opening left).toList ++ (x.toList ++
          ((closing right).toList ++ behind.toList))) := by simp
    have body := hinside right behind.toList
    rw [List.cons_append] at body
    rw [kindsOf?_tokenize, chars,
      outside?_opening hbefore hlast (commentBody?_eq_none hks right behind.toList), body,
      Option.map_map]
    rfl
  have last : (shownBefore left a).toList.getLast? ≠ some '\x7b' := by
    cases left with
    | false => exact getLast?_ne_of_trimEnd hbrace
    | true => rwa [shownBefore, if_pos rfl, String.toList_ofList]
  have marked := whole a b ha (getLast?_ne_of_trimEnd hbrace) left right
  have trimmed := whole (shownBefore left a) (shownBehind right b) (shownBefore_plain ha left) last
    false false
  rw [kindsOf?_shownBehind hb] at marked
  rw [kindsOf?_shownBehind (shownBehind_plain hb right)] at trimmed
  exact ⟨_, marked, trimmed⟩

/-- Markers beside a number with a sign, between texts of which one is nothing but blanks. -/
theorem tokenize_trimmed_sign : ∃ ts, tokenize "\x7b\x7b -3 \x7d\x7d" = .ok ts ∧
    Tokens.IsAction ts ∧ ¬ ['\x7b', '\x7b'] <:+: "Dear \n".toList ∧
    ¬ ['\x7b', '\x7b'] <:+: "\t ".toList ∧
    (trimEnd isBlank "Dear \n".toList).getLast? ≠ some '\x7b' ∧ ∃ ks,
      kindsOf? (tokenize "Dear \n\x7b\x7b- -3 -\x7d\x7d\t ") = some ks ∧
      kindsOf? (tokenize "Dear\x7b\x7b -3 \x7d\x7d") = some ks := by
  obtain ⟨ts, hts, kinds⟩ := exists_of_toOption_any (f := fun ts => ts ==
    [⟨.actionOpen, ⟨1, 1, 0⟩⟩, ⟨.blank " ", ⟨1, 3, 2⟩⟩, ⟨.number "-3", ⟨1, 4, 3⟩⟩,
      ⟨.blank " ", ⟨1, 6, 5⟩⟩, ⟨.actionClose, ⟨1, 7, 6⟩⟩, ⟨.eof, ⟨1, 9, 8⟩⟩])
    (by decide +kernel : (tokenize "\x7b\x7b -3 \x7d\x7d").toOption.any _ = true)
  have haction : Tokens.IsAction ts := by
    rw [beq_iff_eq.mp kinds]
    refine ⟨_, [⟨.blank " ", _⟩, ⟨.number "-3", _⟩, ⟨.blank " ", _⟩], _, _, ?_, rfl⟩
    exact List.forall_mem_cons.mpr ⟨trivial, List.forall_mem_cons.mpr
      ⟨trivial, List.forall_mem_singleton.mpr trivial⟩⟩
  have front : ¬ ['\x7b', '\x7b'] <:+: "Dear \n".toList := by decide +kernel
  have back : ¬ ['\x7b', '\x7b'] <:+: "\t ".toList := by decide +kernel
  have brace : (trimEnd isBlank "Dear \n".toList).getLast? ≠ some '\x7b' := by decide +kernel
  have source : "\x7b\x7b -3 \x7d\x7d" = opening false ++ "-3" ++ closing false := by
    decide +kernel
  rw [source] at hts
  have same := tokenize_trimmed front back brace hts haction true true
  have marked : "Dear \n" ++ opening true ++ "-3" ++ closing true ++ "\t " =
      "Dear \n\x7b\x7b- -3 -\x7d\x7d\t " := by decide +kernel
  have trimmed : shownBefore true "Dear \n" ++ opening false ++ "-3" ++ closing false ++
      shownBehind true "\t " = "Dear\x7b\x7b -3 \x7d\x7d" := by decide +kernel
  rw [marked, trimmed] at same
  rw [← source] at hts
  exact ⟨ts, hts, haction, front, back, brace, same⟩

end Stencil
