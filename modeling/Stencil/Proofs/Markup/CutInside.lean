import Stencil.Proofs.Markup.Place
import Stencil.Proofs.Text.Behind

/-!
# A cut inside a value or a body

A text inside a value or a body may come in two pieces. A context carries over what has been read:
the state, the part of an address and the meaning of a slash. It does not carry over half of an
escape, of a comment's end, of a word or of the opening of an address, nor that a class of
characters is open. Where the cut goes through none of these (`Context.uncutInside`), the pieces are
read as the whole is (`advanceInner_append`).
-/

set_option autoImplicit false

namespace Stencil.Markup

open Stencil.Text

/-! ## Searches -/

/-- A search that finds nothing in a text goes on behind it as it starts there. -/
def Resumes (search : List Char → Option (List Char)) (cs more : List Char) : Prop :=
  search (cs ++ more) = (search cs).elim (search more) fun rest => some (rest ++ more)

/-- Whether a search for a pattern ends in a text, or the pattern does not straddle its end. -/
def uncutPattern (pattern cs more : List Char) : Bool :=
  (after? pattern cs).isSome || !straddles pattern cs more

theorem resumes_after? {pattern cs more : List Char} (h : uncutPattern pattern cs more = true) :
    Resumes (after? pattern) cs more := by
  unfold uncutPattern after? at h
  unfold Resumes after?
  cases hcut : cut pattern cs with
  | none =>
    have apart : straddles pattern cs more = false := by simpa [hcut] using h
    rw [cut_append_of_none hcut apart, Option.map_map]
    rfl
  | some parts =>
    rw [cut_append hcut]
    rfl

/-- Whether a string reaches to the end of a text, and an escape starts there. -/
def endsInEscape (quote : Char) : List Char → Bool
  | [] => false
  | '\\' :: [] => true
  | '\\' :: _ :: rest => endsInEscape quote rest
  | c :: rest => c != quote && endsInEscape quote rest

/-- What is read as neither case of an escape is no backslash. -/
theorem ne_backslash {c : Char} {rest : List Char} (last : c = '\\' → rest = [] → False)
    (pair : ∀ x others, c = '\\' → rest = x :: others → False) : c ≠ '\\' := by
  intro hc
  cases rest with
  | nil => exact last hc rfl
  | cons x others => exact pair x others hc rfl

theorem afterQuote?_cons {quote c : Char} (hc : c ≠ '\\') (rest : List Char) :
    afterQuote? quote (c :: rest) = if c = quote then some rest else afterQuote? quote rest := by
  rw [afterQuote?]
  · rintro rfl
    exact absurd rfl hc
  · rintro _ _ rfl
    exact absurd rfl hc

theorem endsInEscape_cons {quote c : Char} (hc : c ≠ '\\') (rest : List Char) :
    endsInEscape quote (c :: rest) = (c != quote && endsInEscape quote rest) := by
  rw [endsInEscape]
  · rintro rfl
    exact absurd rfl hc
  · rintro _ _ rfl
    exact absurd rfl hc

theorem resumes_afterQuote? {quote : Char} {cs : List Char} (h : endsInEscape quote cs = false)
    (more : List Char) : Resumes (afterQuote? quote) cs more := by
  unfold Resumes
  induction cs using endsInEscape.induct with
  | case1 => rfl
  | case2 => rw [endsInEscape] at h; cases h
  | case3 x rest ih =>
    rw [endsInEscape] at h
    rw [List.cons_append, List.cons_append, afterQuote?, afterQuote?]
    exact ih h
  | case4 c rest hlast hpair ih =>
    have hc := ne_backslash hlast hpair
    rw [endsInEscape_cons hc] at h
    rw [List.cons_append, afterQuote?_cons hc, afterQuote?_cons hc]
    split
    · rfl
    · next hne => exact ih (by simpa [hne] using h)

/-- Whether a regular expression reaches to the end of a text, and an escape or a class of
characters is open there. -/
def endsInClass (inClass : Bool) : List Char → Bool
  | [] => inClass
  | '\\' :: [] => true
  | '\\' :: _ :: rest => endsInClass inClass rest
  | c :: rest =>
    if c = '[' then endsInClass true rest
    else if c = ']' then endsInClass false rest
    else if c = '/' ∧ inClass = false then false
    else endsInClass inClass rest

theorem afterRegexp?_cons {c : Char} (hc : c ≠ '\\') (inClass : Bool) (rest : List Char) :
    afterRegexp? inClass (c :: rest) =
      if c = '[' then afterRegexp? true rest
      else if c = ']' then afterRegexp? false rest
      else if c = '/' ∧ inClass = false then some rest
      else afterRegexp? inClass rest := by
  rw [afterRegexp?]
  · rintro rfl
    exact absurd rfl hc
  · rintro _ _ rfl
    exact absurd rfl hc

theorem endsInClass_cons {c : Char} (hc : c ≠ '\\') (inClass : Bool) (rest : List Char) :
    endsInClass inClass (c :: rest) =
      if c = '[' then endsInClass true rest
      else if c = ']' then endsInClass false rest
      else if c = '/' ∧ inClass = false then false
      else endsInClass inClass rest := by
  rw [endsInClass]
  · rintro rfl
    exact absurd rfl hc
  · rintro _ _ rfl
    exact absurd rfl hc

/-- Where no class is open, a search for the end of a regular expression goes on outside of classes.
-/
theorem afterRegexp?_append {inClass : Bool} {cs : List Char} (h : endsInClass inClass cs = false)
    (more : List Char) : afterRegexp? inClass (cs ++ more) =
      (afterRegexp? inClass cs).elim (afterRegexp? false more) fun rest => some (rest ++ more) := by
  induction inClass, cs using endsInClass.induct with
  | case1 inClass =>
    rw [endsInClass] at h
    rw [h]
    rfl
  | case2 => rw [endsInClass] at h; cases h
  | case3 inClass x rest ih =>
    rw [endsInClass] at h
    rw [List.cons_append, List.cons_append, afterRegexp?, afterRegexp?]
    exact ih h
  | case4 inClass rest _ _ ih =>
    rw [endsInClass_cons (by decide), if_pos rfl] at h
    rw [List.cons_append, afterRegexp?_cons (by decide), afterRegexp?_cons (by decide), if_pos rfl,
      if_pos rfl]
    exact ih h
  | case5 inClass rest _ _ _ ih =>
    rw [endsInClass_cons (by decide), if_neg (by decide), if_pos rfl] at h
    rw [List.cons_append, afterRegexp?_cons (by decide), if_neg (by decide), if_pos rfl,
      afterRegexp?_cons (by decide), if_neg (by decide), if_pos rfl]
    exact ih h
  | case6 inClass c rest hlast hpair hopen hclose hslash =>
    have hc := ne_backslash hlast hpair
    rw [List.cons_append, afterRegexp?_cons hc, afterRegexp?_cons hc, if_neg hopen, if_neg hopen,
      if_neg hclose, if_neg hclose, if_pos hslash, if_pos hslash]
    rfl
  | case7 inClass c rest hlast hpair hopen hclose hslash ih =>
    have hc := ne_backslash hlast hpair
    rw [endsInClass_cons hc, if_neg hopen, if_neg hclose, if_neg hslash] at h
    rw [List.cons_append, afterRegexp?_cons hc, afterRegexp?_cons hc, if_neg hopen, if_neg hopen,
      if_neg hclose, if_neg hclose, if_neg hslash, if_neg hslash]
    exact ih h

/-! ## Words and addresses -/

/-- Whether a cut through code goes through no word, number or doubled sign that tells what a slash
means behind it. -/
def uncutCode (code more : List Char) : Bool :=
  match more.reverse.dropWhile isSpace with
  | [] => true
  | last :: before =>
    if last = '+' ∨ last = '-' then !(last :: before).all (· == last) || code.getLast? != some last
    else if last = '.' then !before.isEmpty || !code.getLast?.any isDigit
    else !(last :: before).all isScriptNamePart || !code.getLast?.any isScriptNamePart

theorem Slash.after_append {code more : List Char} (h : uncutCode code more = true) (s : Slash) :
    s.after (code ++ more) = (s.after code).after more := by
  unfold uncutCode at h
  unfold Slash.after
  rw [List.reverse_append, List.dropWhile_append]
  cases hmore : more.reverse.dropWhile isSpace with
  | nil => rfl
  | cons last before =>
    rw [hmore] at h
    rw [if_neg (by simp)]
    dsimp only [List.cons_append] at h ⊢
    unfold Slash.afterLast
    split at h
    · next hsign =>
      have apart : (last :: before).all (· == last) = false ∨
          code.reverse.head?.any (· == last) = false := by
        rw [List.head?_reverse]
        cases hcode : code.getLast? with
        | none => exact .inr rfl
        | some x => simpa [hcode] using h
      rw [if_pos hsign, if_pos hsign, ← List.cons_append, takeWhile_append_apart apart]
    · next hsign =>
      rw [if_neg hsign, if_neg hsign]
      split at h
      · next hdot =>
        rw [if_pos hdot, if_pos hdot]
        cases before with
        | nil =>
          have none : code.getLast?.any isDigit = false := by simpa using h
          rw [List.nil_append, List.head?_reverse, none]
          rfl
        | cons x xs => rfl
      · next hdot =>
        have apart : (last :: before).all isScriptNamePart = false ∨
            code.reverse.head?.any isScriptNamePart = false := by
          rw [List.head?_reverse]
          simpa only [Bool.or_eq_true, Bool.not_eq_true'] using h
        rw [if_neg hdot, if_neg hdot, ← List.cons_append, takeWhile_append_apart apart]

theorem UrlPart.advance_append (part : UrlPart) (cs more : List Char) :
    part.advance (cs ++ more) = (part.advance cs).advance more := by
  unfold UrlPart.advance
  rw [List.any_append, List.any_append]
  generalize (cs.any fun c => c == '?' || c == '#') = query
  generalize (more.any fun c => c == '?' || c == '#') = query'
  generalize (cs.any fun c => !isSpace c) = filled
  generalize (more.any fun c => !isSpace c) = filled'
  -- a table of what the two texts hold
  cases part <;> revert query query' filled filled' <;> decide

/-- Whether a character can stand in the word that opens an address, or between it and its
parenthesis. -/
def isBeforeAddress (c : Char) : Bool :=
  isStyleNamePart c || isSpace c

theorem lower_ne_of_isBeforeAddress {x letter : Char} (hx : isBeforeAddress x = false)
    (hletter : isLetter letter = true) : (lower x == letter) = false := by
  have plain : isLetter x = false := by
    simp only [isBeforeAddress, isStyleNamePart, isAlphanumeric, Bool.or_eq_false_iff] at hx
    exact hx.1.1.1.1
  have same : lower x = x := by
    unfold lower
    split
    · next hcapital => simp [isLetter, hcapital] at plain
    · rfl
  rw [same, beq_eq_false_iff_ne]
  rintro rfl
  rw [plain] at hletter
  cases hletter

/-- What stands before a character that is no part of a word and no blank does not tell whether a
text behind it ends with the word `url`. -/
theorem endsWithUrl_append {x : Char} (hx : isBeforeAddress x = false)
    (behind before : List Char) :
    endsWithUrl (behind ++ x :: before) = endsWithUrl (behind ++ [x]) := by
  have hspace : isSpace x = false := (Bool.or_eq_false_iff.mp hx).2
  have blanks (tail : List Char) :
      (behind ++ x :: tail).dropWhile isSpace = behind.dropWhile isSpace ++ x :: tail := by
    rw [List.dropWhile_append]
    split
    · next hempty =>
      rw [List.isEmpty_iff.mp hempty, List.dropWhile_cons_of_neg (by simp [hspace])]
      rfl
    · rfl
  have noU : (lower x == 'u') = false := lower_ne_of_isBeforeAddress hx rfl
  have noR : (lower x == 'r') = false := lower_ne_of_isBeforeAddress hx rfl
  have noL : (lower x == 'l') = false := lower_ne_of_isBeforeAddress hx rfl
  unfold endsWithUrl
  rw [blanks, blanks]
  match behind.dropWhile isSpace with
  | [] =>
    cases before with
    | nil => rfl
    | cons r tail =>
      cases tail with
      | nil => rfl
      | cons u tail => simp [noL]
  | [l] =>
    cases before with
    | nil => rfl
    | cons u tail => simp [noR]
  | [l, r] => simp [noU]
  | l :: r :: u :: [] => rfl
  | l :: r :: u :: y :: tail => rfl

namespace Context

/-- Whether a cut through a rule goes through no word `url` before a parenthesis; `seen` is what
stands before the cut, in reverse. -/
def uncutAddress (seen more : List Char) : Bool :=
  let word := more.takeWhile isBeforeAddress
  (more.dropWhile isBeforeAddress).head? != some '(' ||
    endsWithUrl (word.reverse ++ seen) == endsWithUrl word.reverse

variable {c : Context}

/-- What stands before a character that is no part of a word and no blank changes nothing. -/
theorem ruleStep_behind {x : Char} (hx : isBeforeAddress x = false) (behind before cs : List Char) :
    c.ruleStep (behind ++ x :: before) cs = c.ruleStep (behind ++ [x]) cs := by
  induction cs generalizing behind with
  | nil => rfl
  | cons first rest ih =>
    rw [ruleStep, ruleStep, endsWithUrl_append hx, ← List.cons_append, ← List.cons_append,
      ih (first :: behind)]

/-- In the run up to the first other character, a parenthesis tells what stands before the cut;
behind that character nothing does. -/
theorem ruleStep_append_seen {behind seen more : List Char}
    (h : (more.dropWhile isBeforeAddress).head? = some '(' →
      endsWithUrl ((more.takeWhile isBeforeAddress).reverse ++ (behind ++ seen)) =
        endsWithUrl ((more.takeWhile isBeforeAddress).reverse ++ behind)) :
    c.ruleStep (behind ++ seen) more = c.ruleStep behind more := by
  induction more generalizing behind with
  | nil => rfl
  | cons first rest ih =>
    have opens : first = '(' → endsWithUrl (behind ++ seen) = endsWithUrl behind := by
      rintro rfl
      rw [List.dropWhile_cons_of_neg (by decide), List.takeWhile_cons_of_neg (by decide)] at h
      exact h rfl
    have later :
        c.ruleStep (first :: (behind ++ seen)) rest = c.ruleStep (first :: behind) rest := by
      by_cases hfirst : isBeforeAddress first = true
      · rw [← List.cons_append]
        apply ih
        rw [List.dropWhile_cons_of_pos hfirst, List.takeWhile_cons_of_pos hfirst] at h
        simpa using h
      · have hother : isBeforeAddress first = false := by simpa using hfirst
        have long := ruleStep_behind (c := c) hother [] (behind ++ seen) rest
        have short := ruleStep_behind (c := c) hother [] behind rest
        exact long.trans short.symm
    have opening : (first = '(' ∧ endsWithUrl (behind ++ seen) = true) ↔
        (first = '(' ∧ endsWithUrl behind = true) :=
      and_congr_right fun hfirst => by rw [opens hfirst]
    rw [ruleStep, ruleStep, later]
    simp only [opening]

/-- Where no word `url` is cut, what stands before the cut changes nothing. -/
theorem ruleStep_seen {seen more : List Char} (h : uncutAddress seen more = true) :
    c.ruleStep seen more = c.ruleStep [] more := by
  change c.ruleStep ([] ++ seen) more = c.ruleStep [] more
  refine ruleStep_append_seen fun hparen => ?_
  unfold uncutAddress at h
  simpa [hparen] using h

/-! ## Steps -/

/-- What a step makes of a text with more behind it. -/
inductive Carries (f : Context → List Char → Context × List Char) (c : Context)
    (cs more : List Char) : Prop where
  /-- It ends in the text, and leaves what is behind. -/
  | done : f c (cs ++ more) = ((f c cs).1, (f c cs).2 ++ more) → Carries f c cs more
  /-- It comes to the end of the text, and goes on in what is behind as a step from there. -/
  | onward (d : Context) : d.state = c.state → d.delim = c.delim → f c cs = (d, []) →
      f c (cs ++ more) = f d more → Carries f c cs more
  /-- It ends in a fault. -/
  | stuck (d : Context) : d.isError = true → f c cs = (d, []) → f c (cs ++ more) = (d, []) →
      Carries f c cs more

/-- Where a search goes on behind a text, so does the step that it ends. -/
theorem leave_carries {search : List Char → Option (List Char)} (next : Context → Context)
    {cs more : List Char} (h : Resumes search cs more) :
    Carries (fun d ys => d.leave (search ys) (next d)) c cs more := by
  unfold Resumes at h
  cases hcs : search cs with
  | none =>
    refine .onward c rfl rfl ?_ ?_
    · simp only [hcs, leave]
    · simp only [h, hcs, Option.elim]
  | some rest =>
    refine .done ?_
    simp only [h, hcs, Option.elim, leave]

theorem addressEnd_of_nil {close : Char} {cs : List Char} (h : cs.dropWhile (· != close) = []) :
    c.addressEnd close cs =
      ({ c with urlPart := c.urlPart.advance (cs.takeWhile (· != close)) }, []) := by
  unfold addressEnd
  dsimp only
  rw [drop_takeWhile, h]

theorem addressEnd_of_cons {close x : Char} {cs rest : List Char}
    (h : cs.dropWhile (· != close) = x :: rest) :
    c.addressEnd close cs = ({ c with state := .css, urlPart := .none }, rest) := by
  unfold addressEnd
  dsimp only
  rw [drop_takeWhile, h]

theorem addressEnd_carries (close : Char) (cs more : List Char) :
    Carries (fun d ys => d.addressEnd close ys) c cs more := by
  rcases run_cases (· != close) cs more with ⟨hdrop, -, hbehind⟩ | ⟨hdrop, hall, hrun, hbehind⟩
  · obtain ⟨x, rest, hx⟩ := List.exists_cons_of_ne_nil hdrop
    rw [hx, List.cons_append] at hbehind
    refine .done ?_
    simp only [addressEnd_of_cons hx, addressEnd_of_cons hbehind]
  · have plain := addressEnd_of_nil (c := c) hdrop
    rw [hall] at plain
    refine .onward { c with urlPart := c.urlPart.advance cs } rfl rfl plain ?_
    cases hmore : more.dropWhile (· != close) with
    | nil =>
      simp only [addressEnd_of_nil (hbehind.trans hmore), addressEnd_of_nil hmore, hrun,
        UrlPart.advance_append]
    | cons x rest => simp only [addressEnd_of_cons (hbehind.trans hmore), addressEnd_of_cons hmore]

/-- Whether a character would put an address between quotes, or is a blank before it. -/
def opensAddress (x : Char) : Bool :=
  isSpace x || x == '"' || x == '\''

theorem addressStep_of_nil {rest : List Char} (h : rest.dropWhile isSpace = []) :
    c.addressStep rest = ({ c with state := .cssUrl, urlPart := .none }, []) := by
  unfold addressStep
  rw [h]

theorem addressStep_of_cons {rest tail : List Char} {x : Char}
    (h : rest.dropWhile isSpace = x :: tail) :
    c.addressStep rest =
      if x = '"' then ({ c with state := .cssDoubleQuotedUrl, urlPart := .none }, tail)
      else if x = '\'' then ({ c with state := .cssSingleQuotedUrl, urlPart := .none }, tail)
      else ({ c with state := .cssUrl, urlPart := .none }, x :: tail) := by
  unfold addressStep
  rw [h]
  split
  · next heq =>
    cases heq
    rfl
  · next heq =>
    cases heq
    rfl
  · next hdouble hsingle =>
    have double : x ≠ '"' := by
      rintro rfl
      exact hdouble tail rfl
    have single : x ≠ '\'' := by
      rintro rfl
      exact hsingle tail rfl
    rw [if_neg double, if_neg single]

theorem addressStep_append {rest more : List Char}
    (h : rest.dropWhile isSpace ≠ [] ∨ more.head?.any opensAddress = false) :
    c.addressStep (rest ++ more) = ((c.addressStep rest).1, (c.addressStep rest).2 ++ more) := by
  rcases run_cases isSpace rest more with ⟨hdrop, -, hbehind⟩ | ⟨hdrop, -, -, hbehind⟩
  · obtain ⟨x, tail, hx⟩ := List.exists_cons_of_ne_nil hdrop
    rw [hx, List.cons_append] at hbehind
    rw [addressStep_of_cons hx, addressStep_of_cons hbehind]
    repeat' split
    all_goals rfl
  · have plain := h.resolve_left (absurd hdrop)
    rw [addressStep_of_nil hdrop]
    cases more with
    | nil => rw [List.append_nil, addressStep_of_nil hdrop, List.append_nil]
    | cons x tail =>
      simp only [List.head?_cons, Option.any_some, opensAddress, Bool.or_eq_false_iff,
        beq_eq_false_iff_ne] at plain
      rw [List.dropWhile_cons_of_neg (by simp [plain.1.1])] at hbehind
      rw [addressStep_of_cons hbehind, if_neg plain.1.2, if_neg plain.2]
      rfl

/-- Whether a cut through a rule goes through no opening of an address or of a comment; `seen` is
what stands before the text, in reverse. -/
def uncutRule (more seen : List Char) : List Char → Bool
  | [] => uncutAddress seen more
  | first :: rest =>
    if first = '(' ∧ endsWithUrl seen then
      !(rest.dropWhile isSpace).isEmpty || !more.head?.any opensAddress
    else if first = '"' ∨ first = '\'' then true
    else if first = '/' ∧ rest.head? = some '*' then true
    else
      (first != '/' || !rest.isEmpty || more.head? != some '*') &&
        uncutRule more (first :: seen) rest

theorem ruleStep_append {seen cs more : List Char} (h : uncutRule more seen cs = true) :
    c.ruleStep seen (cs ++ more) = ((c.ruleStep seen cs).1, (c.ruleStep seen cs).2 ++ more) ∨
      c.ruleStep seen cs = (c, []) ∧ c.ruleStep seen (cs ++ more) = c.ruleStep [] more := by
  induction cs generalizing seen with
  | nil => exact .inr ⟨rfl, ruleStep_seen h⟩
  | cons first rest ih =>
    rw [uncutRule] at h
    rw [List.cons_append, ruleStep, ruleStep]
    split at h
    · next hopen =>
      rw [if_pos hopen, if_pos hopen]
      refine .inl (addressStep_append ?_)
      simpa using h
    · next hopen =>
      rw [if_neg hopen, if_neg hopen]
      split at h
      · next hquote =>
        refine .inl ?_
        rcases hquote with rfl | rfl <;> rfl
      · next hquote =>
        obtain ⟨hdouble, hsingle⟩ := not_or.mp hquote
        rw [if_neg hdouble, if_neg hdouble, if_neg hsingle, if_neg hsingle]
        split at h
        · next hcomment =>
          obtain ⟨rfl, hstar⟩ := hcomment
          cases rest with
          | nil => cases hstar
          | cons second tail =>
            cases hstar
            exact .inl rfl
        · next hcomment =>
          obtain ⟨hslash, hrest⟩ := Bool.and_eq_true_iff.mp h
          have behind : ¬ (first = '/' ∧ (rest ++ more).head? = some '*') := by
            rintro ⟨rfl, hstar⟩
            cases rest with
            | nil =>
              have other : more.head? ≠ some '*' := by simpa using hslash
              exact other hstar
            | cons second tail => exact hcomment ⟨rfl, hstar⟩
          rw [if_neg hcomment, if_neg behind]
          exact ih hrest

theorem ruleStep_carries {cs more : List Char} (h : uncutRule more [] cs = true) :
    Carries (fun d ys => d.ruleStep [] ys) c cs more := by
  rcases ruleStep_append (c := c) h with hdone | ⟨hcs, hmore⟩
  · exact .done hdone
  · exact .onward c rfl rfl hcs hmore

/-- Whether a character makes a slash before it open a comment. -/
def opensComment (x : Char) : Bool :=
  x == '/' || x == '*'

theorem slashStep_of_head {rest : List Char} (h : rest.head?.any opensComment = false) :
    c.slashStep rest =
      match c.slash with
      | .regexp => ({ c with state := .jsRegexp }, rest)
      | .division => ({ c with slash := .regexp }, rest)
      | .unknown => (.failed .slash, []) := by
  unfold slashStep
  split
  · cases h
  · cases h
  · rfl

/-- What a slash opens is told by the character behind it. -/
theorem slashStep_append {rest more : List Char}
    (h : rest ≠ [] ∨ more.head?.any opensComment = false) :
    c.slashStep (rest ++ more) = ((c.slashStep rest).1, (c.slashStep rest).2 ++ more) ∨
      c.slashStep rest = (.failed .slash, []) ∧
        c.slashStep (rest ++ more) = (.failed .slash, []) := by
  have plain (hrest : rest.head?.any opensComment = false)
      (hboth : (rest ++ more).head?.any opensComment = false) :
      c.slashStep (rest ++ more) = ((c.slashStep rest).1, (c.slashStep rest).2 ++ more) ∨
        c.slashStep rest = (.failed .slash, []) ∧
          c.slashStep (rest ++ more) = (.failed .slash, []) := by
    rw [slashStep_of_head hrest, slashStep_of_head hboth]
    cases c.slash with
    | regexp => exact .inl rfl
    | division => exact .inl rfl
    | unknown => exact .inr ⟨rfl, rfl⟩
  cases rest with
  | nil => exact plain rfl (h.resolve_left fun hne => hne rfl)
  | cons x tail =>
    by_cases hx : opensComment x = true
    · have comment : x = '/' ∨ x = '*' := by simpa [opensComment] using hx
      rcases comment with rfl | rfl
      · exact .inl rfl
      · exact .inl rfl
    · exact plain (by simpa using hx) (by simpa using hx)

/-- Whether a cut through code goes through no opening of a comment, and through no word, number or
doubled sign before it. -/
def uncutOpening (cs more : List Char) : Bool :=
  match cs.dropWhile fun x => !startsScriptPart x with
  | [] => uncutCode cs (more.takeWhile fun x => !startsScriptPart x)
  | ['/'] => !more.head?.any opensComment
  | _ => true

/-- Code goes up to the next part of a script. -/
theorem codeStep_of_nil {cs : List Char} (h : cs.dropWhile (fun x => !startsScriptPart x) = []) :
    c.codeStep cs =
      ({ c with slash := c.slash.after (cs.takeWhile fun x => !startsScriptPart x) }, []) := by
  unfold codeStep
  dsimp only
  rw [drop_takeWhile, h]

theorem codeStep_of_cons {cs rest : List Char} {opening : Char}
    (h : cs.dropWhile (fun x => !startsScriptPart x) = opening :: rest) :
    c.codeStep cs =
      let d := { c with slash := c.slash.after (cs.takeWhile fun x => !startsScriptPart x) }
      if opening = '"' then ({ d with state := .jsDoubleQuoted }, rest)
      else if opening = '\'' then ({ d with state := .jsSingleQuoted }, rest)
      else if opening = '\x60' then ({ d with state := .jsTemplate }, rest)
      else d.slashStep rest := by
  unfold codeStep
  dsimp only
  rw [drop_takeWhile, h]

theorem codeStep_carries {cs more : List Char} (h : uncutOpening cs more = true) :
    Carries codeStep c cs more := by
  unfold uncutOpening at h
  rcases run_cases (fun x => !startsScriptPart x) cs more with
    ⟨hdrop, htake, hbehind⟩ | ⟨hdrop, hall, htake, hbehind⟩
  · obtain ⟨opening, rest, hopen⟩ := List.exists_cons_of_ne_nil hdrop
    rw [hopen] at h
    rw [hopen, List.cons_append] at hbehind
    have plain := codeStep_of_cons (c := c) hopen
    have both := codeStep_of_cons (c := c) hbehind
    rw [htake] at both
    dsimp only at plain both
    by_cases hdouble : opening = '"'
    · rw [if_pos hdouble] at plain both
      exact .done (by rw [both, plain])
    by_cases hsingle : opening = '\''
    · rw [if_neg hdouble, if_pos hsingle] at plain both
      exact .done (by rw [both, plain])
    by_cases htemplate : opening = '\x60'
    · rw [if_neg hdouble, if_neg hsingle, if_pos htemplate] at plain both
      exact .done (by rw [both, plain])
    rw [if_neg hdouble, if_neg hsingle, if_neg htemplate] at plain both
    have apart : rest ≠ [] ∨ more.head?.any opensComment = false := by
      cases rest with
      | cons x tail => exact .inl (List.cons_ne_nil x tail)
      | nil =>
        have starts := List.head?_dropWhile_not (fun x => !startsScriptPart x) cs
        rw [hopen] at starts
        have hslash : opening = '/' := by
          simpa [startsScriptPart, hdouble, hsingle, htemplate] using starts
        subst hslash
        exact .inr (by simpa using h)
    rcases slashStep_append (c := { c with
        slash := c.slash.after (cs.takeWhile fun x => !startsScriptPart x) }) apart with
      hdone | ⟨hfirst, hboth⟩
    · exact .done (by rw [both, plain, hdone])
    · exact .stuck (.failed .slash) rfl (plain.trans hfirst) (both.trans hboth)
  · rw [hdrop] at h
    have plain := codeStep_of_nil (c := c) hdrop
    rw [hall] at plain
    refine .onward { c with slash := c.slash.after cs } rfl rfl plain ?_
    cases hmore : more.dropWhile fun x => !startsScriptPart x with
    | nil =>
      rw [codeStep_of_nil (hbehind.trans hmore), codeStep_of_nil hmore, htake,
        Slash.after_append h]
    | cons opening rest =>
      rw [codeStep_of_cons (hbehind.trans hmore), codeStep_of_cons hmore, htake,
        Slash.after_append h]

/-- A step that leaves what it is in at the end of the text carries nothing but the context over. -/
theorem rest_carries (cs more : List Char) : Carries (fun d _ => (d, [])) c cs more :=
  .onward c rfl rfl rfl rfl

theorem address_carries (cs more : List Char) :
    Carries (fun d ys => ({ d with urlPart := d.urlPart.advance ys }, [])) c cs more := by
  refine .onward { c with urlPart := c.urlPart.advance cs } rfl rfl rfl ?_
  dsimp only
  rw [UrlPart.advance_append]

/-- A search for one character goes on behind any text. -/
theorem resumes_after?_singleton (x : Char) (cs more : List Char) :
    Resumes (after? [x]) cs more := by
  apply resumes_after?
  have apart : straddles [x] cs more = false := rfl
  rw [uncutPattern, apart]
  exact Bool.or_true _

/-- Whether a step inside a value or a body, over a text with more behind it, ends in the text or
reads the two as one. -/
def uncutInnerStep (c : Context) (more cs : List Char) : Bool :=
  match c.state with
  | .js => uncutOpening cs more
  | .jsDoubleQuoted | .cssDoubleQuoted => !endsInEscape '"' cs
  | .jsSingleQuoted | .cssSingleQuoted => !endsInEscape '\'' cs
  | .jsTemplate => !endsInEscape '\x60' cs
  | .jsRegexp => !endsInClass false cs
  | .jsBlockComment | .cssComment => uncutPattern ['*', '/'] cs more
  | .css => uncutRule more [] cs
  | .url | .jsLineComment | .cssDoubleQuotedUrl | .cssSingleQuotedUrl | .cssUrl | .text | .rcdata
  | .tagName | .tag | .attrName | .afterName | .beforeValue | .attr | .comment | .error => true

/-- What a step carries over, a text goes on from. -/
theorem Carries.advanceInner {f : Context → List Char → Context × List Char} {x : Char}
    {xs more : List Char} (ok : c.isError = false)
    (read : ∀ d : Context, d.state = c.state → ∀ y ys, d.innerStep y ys = f d (y :: ys))
    (h : Carries f c (x :: xs) more) :
    c.advanceInner (x :: xs ++ more) =
      (c.innerStep x xs).1.advanceInner ((c.innerStep x xs).2 ++ more) := by
  rw [List.cons_append, advanceInner_cons ok, read c rfl, read c rfl, ← List.cons_append]
  cases h with
  | done h => rw [h]
  | onward d hs hd hcs h =>
    have ok' : d.isError = false := by rwa [isError, hs]
    rw [hcs, h]
    cases more with
    | nil =>
      rw [List.append_nil, hcs] at h
      rw [← h, List.append_nil]
    | cons y ys => rw [List.nil_append, advanceInner_cons ok', read d hs]
  | stuck d hd hcs h => rw [h, hcs, advanceInner_of_isError hd, advanceInner_of_isError hd]

theorem innerStep_append {x : Char} {xs more : List Char} (ok : c.isError = false)
    (h : c.uncutInnerStep more (x :: xs) = true) :
    c.advanceInner (x :: xs ++ more) =
      (c.innerStep x xs).1.advanceInner ((c.innerStep x xs).2 ++ more) := by
  have carry {f : Context → List Char → Context × List Char} (s : State) (hs : c.state = s)
      (read : ∀ d : Context, d.state = s → ∀ y ys, d.innerStep y ys = f d (y :: ys))
      (carries : Carries f c (x :: xs) more) :=
    carries.advanceInner ok (hs ▸ read)
  unfold uncutInnerStep at h
  cases hs : c.state <;> rw [hs] at h
  case js => exact carry .js hs (fun d hd y ys => by rw [innerStep, hd]) (codeStep_carries h)
  case css => exact carry .css hs (fun d hd y ys => by rw [innerStep, hd]) (ruleStep_carries h)
  case jsDoubleQuoted | jsSingleQuoted | jsTemplate =>
    exact carry _ hs (fun d hd y ys => by rw [innerStep, hd])
      (leave_carries afterOperand (resumes_afterQuote? (by simpa using h) more))
  case jsRegexp =>
    exact carry _ hs (fun d hd y ys => by rw [innerStep, hd])
      (leave_carries afterOperand (afterRegexp?_append (by simpa using h) more))
  case jsLineComment =>
    exact carry _ hs (fun d hd y ys => by rw [innerStep, hd])
      (leave_carries (fun d => { d with state := .js }) (resumes_after?_singleton _ _ more))
  case jsBlockComment =>
    exact carry _ hs (fun d hd y ys => by rw [innerStep, hd])
      (leave_carries (fun d => { d with state := .js }) (resumes_after? h))
  case cssDoubleQuoted | cssSingleQuoted =>
    exact carry _ hs (fun d hd y ys => by rw [innerStep, hd])
      (leave_carries (fun d => { d with state := .css })
        (resumes_afterQuote? (by simpa using h) more))
  case cssComment =>
    exact carry _ hs (fun d hd y ys => by rw [innerStep, hd])
      (leave_carries (fun d => { d with state := .css }) (resumes_after? h))
  case cssDoubleQuotedUrl | cssSingleQuotedUrl | cssUrl =>
    exact carry _ hs (fun d hd y ys => by rw [innerStep, hd]) (addressEnd_carries _ _ more)
  case url => exact carry _ hs (fun d hd y ys => by rw [innerStep, hd]) (address_carries _ more)
  all_goals exact carry _ hs (fun d hd y ys => by rw [innerStep, hd]) (rest_carries _ more)

/-- Whether no step inside a value or a body, over a text with more behind it, reads the end of the
text and what is behind it as one. -/
def uncutInside (c : Context) (more : List Char) : List Char → Bool
  | [] => true
  | first :: rest =>
    c.isError || (c.uncutInnerStep more (first :: rest) &&
      (c.innerStep first rest).1.uncutInside more (c.innerStep first rest).2)
termination_by cs => cs.length
decreasing_by exact length_innerStep c first rest

/-- A text inside a value or a body is read in two pieces as in one, unless something is cut. -/
theorem advanceInner_append {cs more : List Char} (h : c.uncutInside more cs = true) :
    c.advanceInner (cs ++ more) = (c.advanceInner cs).advanceInner more := by
  induction c, cs using advanceInner_induction with
  | nil c => rw [List.nil_append, advanceInner_nil]
  | stuck c x xs he =>
    rw [advanceInner_of_isError he, advanceInner_of_isError he, advanceInner_of_isError he]
  | step c x xs ok ih =>
    rw [uncutInside, ok, Bool.false_or, Bool.and_eq_true] at h
    rw [innerStep_append ok h.1, advanceInner_cons ok]
    exact ih h.2

end Context

end Stencil.Markup
