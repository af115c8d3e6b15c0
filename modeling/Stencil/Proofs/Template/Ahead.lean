import Stencil.Proofs.Results
import Stencil.Proofs.Text.Behind
import Stencil.Template.Lexer

/-!
# How far the lexer looks ahead

What follows a source does not change how its tokens are cut, once the source can be cut into tokens
by itself: every action is then closed in it, and a lexeme of an action ends before the action does.
So a step between two points of such a source is the same step when more text follows the source
(`step_append`), unless it is over the text that the source ends with.
-/

set_option autoImplicit false

namespace Stencil

namespace Literal

open Stencil.Text Stencil.Numeral

theorem hexChar?_append {width : Nat} {cs : List Char} {c : Char} (h : hexChar? width cs = some c)
    (more : List Char) : hexChar? width (cs ++ more) = some c := by
  have digits : (cs ++ more).take width = cs.take width := by
    unfold hexChar? at h
    dsimp only at h
    split at h
    · next hd =>
      have : width ≤ cs.length := by
        have := hd.1
        rw [List.length_take] at this
        omega
      exact List.take_append_of_le_length this
    · cases h
  unfold hexChar? at h ⊢
  rw [digits]
  exact h

theorem hexChar?_length {width : Nat} {cs : List Char} {c : Char} (h : hexChar? width cs = some c) :
    width ≤ cs.length := by
  unfold hexChar? at h
  dsimp only at h
  split at h
  · next hd =>
    have := hd.1
    rw [List.length_take] at this
    omega
  · cases h

/-- An escape takes no more than there is, and stays the same when more follows. -/
theorem escape?_append {letter : Char} {rest : List Char} {c : Char} {size : Nat}
    (h : escape? letter rest = some (c, size)) (more : List Char) :
    escape? letter (rest ++ more) = some (c, size) ∧ size ≤ rest.length := by
  unfold escape? at h ⊢
  split at h
  case h_8 =>
    obtain ⟨x, hx, h₁⟩ := Option.bind_eq_some_iff.mp h
    rw [hexChar?_append hx, Option.bind_some]
    refine ⟨h₁, ?_⟩
    split at h₁
    · cases h₁
      exact hexChar?_length hx
    · cases h₁
  case h_9 =>
    obtain ⟨x, hx, heq⟩ := Option.map_eq_some_iff.mp h
    cases heq
    rw [hexChar?_append hx]
    exact ⟨rfl, hexChar?_length hx⟩
  case h_10 => cases h
  all_goals
    cases h
    exact ⟨rfl, Nat.zero_le _⟩

/-- A string that ends is the same when more follows. -/
theorem quoted_append {taken : Nat} {cs content : List Char} {size : Nat}
    (h : quoted taken cs = .ok (content, size)) (more : List Char) :
    quoted taken (cs ++ more) = .ok (content, size) ∧ size ≤ taken + cs.length := by
  induction taken, cs using quoted.induct generalizing content size with
  | case1 taken =>
    rw [quoted] at h
    cases h
  | case2 taken rest =>
    rw [quoted] at h
    cases h
    rw [List.cons_append, quoted]
    exact ⟨rfl, by simp⟩
  | case3 taken rest =>
    rw [quoted] at h
    cases h
  | case4 taken =>
    rw [quoted] at h
    cases h
  | case5 taken letter rest hnone =>
    rw [quoted, hnone] at h
    cases h
  | case6 taken letter rest c size' hsome ih =>
    rw [quoted, hsome] at h
    obtain ⟨⟨cs, total⟩, hrec, hpure⟩ := exists_of_bind_eq_ok h
    cases hpure
    obtain ⟨hescape, hle⟩ := escape?_append hsome more
    obtain ⟨hrest, hsize⟩ := ih hrec
    rw [List.cons_append, List.cons_append, quoted, hescape]
    dsimp only
    rw [List.drop_append_of_le_length hle, hrest]
    refine ⟨rfl, ?_⟩
    rw [List.length_drop] at hsize
    simp only [List.length_cons]
    omega
  | case7 taken c rest hquote hline hlast hescape ih =>
    have hback : c ≠ '\\' := by
      intro hc
      cases rest with
      | nil => exact hlast hc rfl
      | cons letter rest => exact hescape letter rest hc rfl
    rw [quoted] at h
    · obtain ⟨⟨cs, total⟩, hrec, hpure⟩ := exists_of_bind_eq_ok h
      cases hpure
      obtain ⟨hrest, hsize⟩ := ih hrec
      rw [List.cons_append, quoted, hrest]
      · refine ⟨rfl, ?_⟩
        simp only [List.length_cons]
        omega
      · exact hquote
      · exact hline
      · exact fun hc _ => hback hc
      · exact fun _ _ hc _ => hback hc
    all_goals assumption

theorem raw?_append {cs content : List Char} (h : raw? cs = some content) (more : List Char) :
    raw? (cs ++ more) = some content ∧ content.length < cs.length := by
  unfold raw? at h ⊢
  dsimp only at h ⊢
  split at h
  · next hlt =>
    cases h
    rw [takeWhile_append hlt]
    refine ⟨if_pos (Nat.lt_of_lt_of_le hlt ?_), hlt⟩
    rw [List.length_append]
    exact Nat.le_add_right _ _
  · cases h

/-- A number that is followed by two more characters is the same when more follows. -/
theorem unsigned_append {cs : List Char} (h : (unsigned cs).length + 2 ≤ cs.length)
    (more : List Char) : unsigned (cs ++ more) = unsigned cs := by
  have parts : cs = cs.takeWhile isDigit ++ cs.drop (cs.takeWhile isDigit).length := by
    rw [drop_takeWhile, List.takeWhile_append_dropWhile]
  have count := congrArg List.length parts
  rw [List.length_append] at count
  unfold unsigned at h ⊢
  dsimp only at h ⊢
  -- two characters follow the digits at least
  have whole : (cs.takeWhile isDigit).length + 2 ≤ cs.length := by
    split at h
    · split at h
      · simp only [List.length_append, List.length_cons] at h
        omega
      · exact h
    · exact h
  rw [takeWhile_append (by omega), List.drop_append_of_le_length (by omega)]
  generalize hrest : cs.drop (cs.takeWhile isDigit).length = rest at h count ⊢
  match rest with
  | [] => simp only [List.length_nil] at count; omega
  | [x] => simp only [List.length_cons, List.length_nil] at count; omega
  | x :: d :: rest =>
    by_cases hx : x = '.'
    · subst hx
      simp only [List.cons_append] at h ⊢
      split
      · next hd =>
        rw [if_pos hd] at h
        simp only [List.length_append, List.length_cons] at h count
        rw [← List.cons_append, takeWhile_append]
        simp only [List.length_cons]
        omega
      · rfl
    · simp [hx]

theorem number_append {cs : List Char} (h : (number cs).length + 2 ≤ cs.length)
    (more : List Char) : number (cs ++ more) = number cs := by
  cases cs with
  | nil => simp at h
  | cons c rest =>
    rw [List.cons_append]
    by_cases hm : c = '-'
    · subst hm
      rw [number] at h
      rw [number, number, unsigned_append]
      simpa using h
    by_cases hp : c = '+'
    · subst hp
      rw [number] at h
      rw [number, number, unsigned_append]
      simpa using h
    have plain (cs : List Char) : number (c :: cs) = unsigned (c :: cs) := by
      rw [number]
      · exact fun _ hc => hm (List.cons.inj hc).1
      · exact fun _ hc => hp (List.cons.inj hc).1
    rw [plain] at h
    rw [plain, plain, ← List.cons_append, unsigned_append h]

end Literal

namespace Lexer

open Stencil.Text

/-! ## Steps inside an action -/

variable {opened here : Location}

theorem dotStep_append {rest : List Char}
    (h : (dotStep opened here rest).size < rest.length + 1) (more : List Char) :
    dotStep opened here (rest ++ more) = dotStep opened here rest := by
  have shorter : (rest.takeWhile isDigit).length < rest.length := by
    unfold dotStep at h
    dsimp only at h
    omega
  unfold dotStep
  rw [takeWhile_append shorter]

theorem nameStep_append {cs : List Char} (h : (nameStep opened here cs).size < cs.length)
    (more : List Char) : nameStep opened here (cs ++ more) = nameStep opened here cs := by
  unfold nameStep
  rw [takeWhile_append h]

theorem quotedStep_append {rest : List Char} {found : Step}
    (h : quotedStep opened here rest = .ok found) (more : List Char) :
    quotedStep opened here (rest ++ more) = .ok found ∧ found.size ≤ rest.length + 1 := by
  unfold quotedStep at h ⊢
  split at h
  · next content size hquoted =>
    obtain ⟨happend, hsize⟩ := Literal.quoted_append hquoted more
    cases h
    rw [happend]
    exact ⟨rfl, by dsimp only; omega⟩
  · cases h
  · cases h

theorem rawStep_append {rest : List Char} {found : Step}
    (h : rawStep opened here rest = .ok found) (more : List Char) :
    rawStep opened here (rest ++ more) = .ok found ∧ found.size ≤ rest.length + 1 := by
  unfold rawStep at h ⊢
  split at h
  · next content hraw =>
    obtain ⟨happend, hsize⟩ := Literal.raw?_append hraw more
    cases h
    rw [happend]
    exact ⟨rfl, by dsimp only; omega⟩
  · cases h

theorem numberStep_append {cs : List Char} {found : Step}
    (h : numberStep opened here cs = .ok found) (two : found.size + 2 ≤ cs.length)
    (more : List Char) : numberStep opened here (cs ++ more) = .ok found := by
  unfold numberStep at h ⊢
  dsimp only at h ⊢
  split at h
  · cases h
  · next hnext =>
    cases h
    dsimp only at two
    have behind : ((cs ++ more).drop (Literal.number cs).length).head? =
        (cs.drop (Literal.number cs).length).head? := by
      rw [List.head?_drop, List.head?_drop, List.getElem?_append_left (by omega)]
    rw [Literal.number_append two, behind, hnext]

/-! ## What is left of an action -/

/-- What a run over a character and more consists of. -/
theorem exists_of_run_cons {mode : Mode} {c : Char} {rest : List Char} {ts : List Token}
    (h : run mode here (c :: rest) = .ok ts) : ∃ found later, step mode here c rest = .ok found ∧
      run found.mode (here.advance ((c :: rest).take found.size)) (rest.drop (found.size - 1)) =
        .ok later ∧ ts = found.tokens ++ later := by
  rw [run] at h
  obtain ⟨found, hstep, h₁⟩ := exists_of_bind_eq_ok h
  obtain ⟨later, hlater, h₂⟩ := exists_of_bind_eq_ok h₁
  cases h₂
  exact ⟨found, later, hstep, hlater, rfl⟩

/-- A literal does not close an action. -/
theorem quotedStep_mode {rest : List Char} {found : Step}
    (h : quotedStep opened here rest = .ok found) : found.mode = .action opened := by
  unfold quotedStep at h
  split at h <;> cases h
  rfl

theorem rawStep_mode {rest : List Char} {found : Step}
    (h : rawStep opened here rest = .ok found) : found.mode = .action opened := by
  unfold rawStep at h
  split at h <;> cases h
  rfl

theorem numberStep_mode {cs : List Char} {found : Step}
    (h : numberStep opened here cs = .ok found) : found.mode = .action opened := by
  unfold numberStep at h
  dsimp only at h
  split at h <;> cases h
  rfl

/-- Nor does one character. -/
theorem actionStep_nil_mode {c : Char} {found : Step}
    (h : actionStep opened here c [] = .ok found) : found.mode = .action opened := by
  unfold actionStep at h
  split at h
  · next heq => cases heq
  · cases h
    rfl
  · cases h
    rfl
  · cases h
    rfl
  · exact quotedStep_mode h
  · exact rawStep_mode h
  · split at h
    · next hblank =>
      cases h
      unfold blankStep
      simp [hblank]
    · split at h
      · exact numberStep_mode h
      · split at h <;> cases h
        rfl

/-- Two characters are left of an action at least. -/
theorem two_le_length_of_run {cs : List Char} {ts : List Token}
    (h : run (.action opened) here cs = .ok ts) : 2 ≤ cs.length := by
  match cs with
  | [] =>
    rw [run] at h
    cases h
  | [c] =>
    obtain ⟨found, later, hstep, hlater, -⟩ := exists_of_run_cons h
    rw [actionStep_nil_mode hstep, List.drop_nil, run] at hlater
    cases hlater
  | c :: d :: rest => simp

theorem minus_brace_unread (ts : List Token) :
    run (.action opened) here ['-', '\x7d'] ≠ .ok ts := by
  intro h
  obtain ⟨found, later, hstep, -, -⟩ := exists_of_run_cons h
  cases hstep

/-- A step over blanks sees whether they end the action, where what they leave can be read. -/
theorem blankStep_append {cs : List Char} {spot : Location} {later : List Token}
    (h : run (blankStep opened here cs).mode spot (cs.drop (blankStep opened here cs).size) =
      .ok later) (more : List Char) :
    blankStep opened here (cs ++ more) = blankStep opened here cs ∧
      (blankStep opened here cs).size ≤ cs.length := by
  have count := congrArg List.length (List.takeWhile_append_dropWhile (p := isBlank) (l := cs))
  rw [List.length_append, ← drop_takeWhile] at count
  unfold blankStep at h ⊢
  dsimp only at h ⊢
  split at h
  · next tail heq =>
    rw [heq] at count
    simp only [List.length_cons] at count
    rw [takeWhile_append (by omega), List.drop_append_of_le_length (by omega), heq]
    exact ⟨rfl, by dsimp only; omega⟩
  · next hopen =>
    dsimp only at h ⊢
    have two := two_le_length_of_run h
    rw [takeWhile_append (by omega), List.drop_append_of_le_length (by omega)]
    refine ⟨?_, by omega⟩
    split
    · next tail heq =>
      exfalso
      match hrest : cs.drop (cs.takeWhile isBlank).length with
      | [] | [c] => simp [hrest] at two
      | [c, d] =>
        rw [hrest] at heq
        simp only [List.cons_append, List.cons.injEq] at heq
        rw [hrest, heq.1, heq.2.1] at h
        exact minus_brace_unread _ h
      | c :: d :: e :: rest =>
        rw [hrest] at heq
        simp only [List.cons_append, List.cons.injEq] at heq
        rw [heq.1, heq.2.1, heq.2.2.1] at hrest
        exact hopen rest hrest
    · rfl

/-- Where no delimiter starts, a step inside an action is one over blanks, a number or a name. -/
theorem actionStep_word {c : Char} {rest : List Char} (hdot : c ≠ '.') (hdollar : c ≠ '$')
    (hpipe : c ≠ '|') (hquote : c ≠ '"') (hraw : c ≠ '\x60')
    (hclose : ∀ tail, c = '\x7d' → rest ≠ '\x7d' :: tail) :
    actionStep opened here c rest =
      if isBlank c then .ok (blankStep opened here (c :: rest))
      else if startsNumber c rest then numberStep opened here (c :: rest)
      else if isNameStart c then .ok (nameStep opened here (c :: rest))
      else .error (.lexical (.unexpectedCharacter c) here) := by
  rw [actionStep]
  all_goals assumption

theorem isNamePart_of_isNameStart {c : Char} (h : isNameStart c = true) : isNamePart c = true := by
  unfold isNameStart at h
  unfold isNamePart isAlphanumeric
  simp only [Bool.or_eq_true] at h ⊢
  exact h.imp_left .inl

theorem actionStep_blank {c : Char} (hc : isBlank c = true) (rest : List Char) :
    actionStep opened here c rest = .ok (blankStep opened here (c :: rest)) := by
  have other (d : Char) (hd : isBlank d = false) : c ≠ d := by
    rintro rfl
    rw [hc] at hd
    cases hd
  rw [actionStep_word (other '.' rfl) (other '$' rfl) (other '|' rfl) (other '"' rfl)
    (other '\x60' rfl) fun _ hclose => (other '\x7d' rfl hclose).elim, if_pos hc]

theorem blankStep_size_pos {c : Char} (hc : isBlank c = true) (rest : List Char) :
    0 < (blankStep opened here (c :: rest)).size := by
  unfold blankStep
  dsimp only
  rw [List.takeWhile_cons_of_pos hc]
  split <;> simp

/-- A step inside an action is the same when more follows, where what it leaves can be read. -/
theorem actionStep_append {c : Char} {rest : List Char} {found : Step} {spot : Location}
    {later : List Token} (h : actionStep opened here c rest = .ok found)
    (hlater : run found.mode spot (rest.drop (found.size - 1)) = .ok later)
    (more : List Char) :
    actionStep opened here c (rest ++ more) = .ok found ∧ found.size ≤ rest.length + 1 := by
  have hrest : rest ≠ [] := by
    rintro rfl
    rw [actionStep_nil_mode h, List.drop_nil, run] at hlater
    cases hlater
  have behind (o : Location) (hmode : found.mode = .action o) : found.size < rest.length := by
    rw [hmode] at hlater
    have := two_le_length_of_run hlater
    rw [List.length_drop] at this
    omega
  by_cases hdot : c = '.'
  · subst hdot
    cases h
    have ends : (dotStep opened here rest).size < rest.length + 1 :=
      Nat.lt_succ_of_lt (behind opened rfl)
    exact ⟨congrArg Except.ok (dotStep_append ends more), Nat.le_of_lt ends⟩
  by_cases hdollar : c = '$'
  · subst hdollar
    cases h
    exact ⟨rfl, by simp⟩
  by_cases hpipe : c = '|'
  · subst hpipe
    cases h
    exact ⟨rfl, by simp⟩
  by_cases hquote : c = '"'
  · subst hquote
    exact quotedStep_append h more
  by_cases hraw : c = '\x60'
  · subst hraw
    exact rawStep_append h more
  by_cases hclose : ∃ tail, c = '\x7d' ∧ rest = '\x7d' :: tail
  · obtain ⟨tail, rfl, rfl⟩ := hclose
    cases h
    exact ⟨rfl, by simp⟩
  have open₁ (tail : List Char) (hc : c = '\x7d') : rest ≠ '\x7d' :: tail :=
    fun heq => hclose ⟨tail, hc, heq⟩
  have open₂ (tail : List Char) (hc : c = '\x7d') : rest ++ more ≠ '\x7d' :: tail := by
    intro heq
    obtain ⟨d, others, rfl⟩ := List.exists_cons_of_ne_nil hrest
    obtain ⟨rfl, -⟩ := List.cons.inj heq
    exact open₁ others hc rfl
  have sign : startsNumber c (rest ++ more) = startsNumber c rest := by
    unfold startsNumber
    rw [List.head?_append_of_ne_nil rest hrest]
  rw [actionStep_word hdot hdollar hpipe hquote hraw open₁] at h
  rw [actionStep_word hdot hdollar hpipe hquote hraw open₂, sign, ← List.cons_append]
  split at h
  · next hblank =>
    cases h
    rw [← List.drop_cons (blankStep_size_pos hblank rest)] at hlater
    obtain ⟨same, hle⟩ := blankStep_append hlater more
    rw [if_pos hblank, same]
    exact ⟨rfl, hle⟩
  · next hblank =>
    rw [if_neg hblank]
    split at h
    · next hnumber =>
      have ends := behind opened (numberStep_mode h)
      rw [if_pos hnumber]
      exact ⟨numberStep_append h (Nat.succ_le_succ ends) more, by omega⟩
    · next hnumber =>
      rw [if_neg hnumber]
      split at h
      · next hname =>
        cases h
        have ends := behind opened rfl
        rw [if_pos hname, nameStep_append (Nat.lt_succ_of_lt ends)]
        exact ⟨rfl, by omega⟩
      · cases h

/-! ## Steps between actions -/

/-- Two characters behind its blanks are left of an action at least. -/
theorem two_le_length_dropWhile_of_run {cs : List Char} {ts : List Token}
    (h : run (.action opened) here cs = .ok ts) : 2 ≤ (cs.dropWhile isBlank).length := by
  have two := two_le_length_of_run h
  match cs with
  | c :: rest =>
    by_cases hc : isBlank c = true
    · obtain ⟨found, later, hstep, hlater, -⟩ := exists_of_run_cons h
      have heq : step (.action opened) here c rest = .ok (blankStep opened here (c :: rest)) :=
        actionStep_blank hc rest
      rw [heq] at hstep
      cases hstep
      rw [← List.drop_cons (blankStep_size_pos hc rest)] at hlater
      rw [← drop_takeWhile]
      unfold blankStep at hlater
      dsimp only at hlater
      split at hlater
      · next tail hclose =>
        rw [hclose]
        simp
      · exact two_le_length_of_run hlater
    · rwa [List.dropWhile_cons_of_neg hc]

theorem drop_blanks (trimmed : Bool) (cs : List Char) :
    cs.drop (if trimmed then cs.takeWhile isBlank else []).length =
      if trimmed then cs.dropWhile isBlank else cs := by
  cases trimmed with
  | false => rfl
  | true => exact drop_takeWhile isBlank cs

/-- Whether an action is a comment is seen from two characters behind its blanks. -/
theorem commentBody?_append {trimmed : Bool} {cs : List Char}
    (h : 2 ≤ (if trimmed then cs.dropWhile isBlank else cs).length) (more : List Char) :
    commentBody? trimmed (cs ++ more) =
      (commentBody? trimmed cs).map fun found => (found.1 ++ more, found.2) := by
  have count := congrArg List.length (List.takeWhile_append_dropWhile (p := isBlank) (l := cs))
  rw [List.length_append] at count
  have start : (if trimmed then (cs ++ more).takeWhile isBlank else []) =
      if trimmed then cs.takeWhile isBlank else [] := by
    cases trimmed with
    | false => rfl
    | true =>
      rw [if_pos rfl] at h ⊢
      rw [if_pos rfl, takeWhile_append (by omega)]
  have fits : (if trimmed then cs.takeWhile isBlank else []).length ≤ cs.length := by
    cases trimmed with
    | false => exact Nat.zero_le _
    | true => exact (List.takeWhile_sublist isBlank).length_le
  unfold commentBody?
  dsimp only
  rw [start, List.drop_append_of_le_length fits, drop_blanks]
  match hcs : if trimmed then cs.dropWhile isBlank else cs with
  | [] | [c] => simp [hcs] at h
  | c :: d :: rest =>
    by_cases hopen : c = '/' ∧ d = '*'
    · obtain ⟨rfl, rfl⟩ := hopen
      rfl
    · have closed (tail body : List Char) : c :: d :: tail ≠ '/' :: '*' :: body := by
        intro heq
        simp only [List.cons.injEq] at heq
        exact hopen ⟨heq.1, heq.2.1⟩
      clear start fits hcs
      generalize (if trimmed then cs.takeWhile isBlank else []).length = size
      split
      · next heq => exact (closed _ _ heq).elim
      · split
        · next heq => exact (closed _ _ heq).elim
        · rfl

theorem comment_append {body : List Char} {r : Bool × Nat} (h : comment opened body = .ok r)
    (more : List Char) : comment opened (body ++ more) = .ok r ∧ r.2 ≤ body.length := by
  unfold comment at h ⊢
  split at h
  · cases h
  · next inside rest hcut =>
    have count := length_of_cut hcut
    rw [cut_append hcut]
    dsimp only
    unfold commentClose? at h ⊢
    split at h
    · cases h
    · next trim size hclose =>
      cases h
      split at hclose
      · cases hclose
        simp only [List.length_cons, List.length_nil] at count
        exact ⟨rfl, by dsimp only; omega⟩
      · cases hclose
        simp only [List.length_cons, List.length_nil] at count
        exact ⟨rfl, by dsimp only; omega⟩
      · cases hclose

theorem isTrimMarker_append {cs : List Char} (h : 2 ≤ cs.length) (more : List Char) :
    isTrimMarker (cs ++ more) = isTrimMarker cs := by
  match cs with
  | c :: d :: rest =>
    by_cases hc : c = '-'
    · subst hc
      rfl
    · simp [isTrimMarker, hc]

/-- A comment opens with two characters behind the blanks. -/
theorem length_of_commentBody? {trimmed : Bool} {cs body : List Char} {before : Nat}
    (h : commentBody? trimmed cs = some (body, before)) :
    2 ≤ (if trimmed then cs.dropWhile isBlank else cs).length ∧
      cs.length = before + body.length := by
  unfold commentBody? at h
  dsimp only at h
  split at h
  · next heq =>
    cases h
    rw [← drop_blanks, heq]
    have count := congrArg List.length heq
    simp only [List.length_drop, List.length_cons] at count ⊢
    exact ⟨by omega, by omega⟩
  · cases h

/-- A step between actions is the same when more follows, where an action opens and what the step
leaves can be read. -/
theorem textStep_append {trim : Bool} {cs content rest : List Char} {found : Step} {spot : Location}
    {later : List Token} (h : textStep trim here cs = .ok found)
    (hcut : cut ['\x7b', '\x7b'] (cs.drop (if trim then cs.takeWhile isBlank else []).length) =
      some (content, rest))
    (hlater : run found.mode spot (cs.drop found.size) = .ok later) (more : List Char) :
    textStep trim here (cs ++ more) = .ok found ∧ found.size ≤ cs.length := by
  have count := length_of_cut hcut
  simp only [List.length_drop, List.length_cons, List.length_nil] at count
  have start : (if trim then (cs ++ more).takeWhile isBlank else []) =
      if trim then cs.takeWhile isBlank else [] := by
    cases trim with
    | false => rfl
    | true =>
      rw [if_pos rfl] at count ⊢
      rw [if_pos rfl, takeWhile_append (by omega)]
  unfold textStep at h ⊢
  dsimp only at h ⊢
  rw [hcut] at h
  rw [start, List.drop_append_of_le_length (by omega), cut_append hcut]
  dsimp only at h ⊢
  generalize (if trim then cs.takeWhile isBlank else []) = blanks at *
  -- what the opening of the action leaves
  have left (marker : Nat) : cs.drop (blanks.length + content.length + 2 + marker) =
      rest.drop marker := drop_of_cut_drop hcut marker
  generalize htrimmed : isTrimMarker rest = trimmed at h
  generalize hmarker : (if trimmed then 1 else 0) = marker at h
  have two : 2 ≤ (if trimmed then (rest.drop marker).dropWhile isBlank
      else rest.drop marker).length := by
    split at h
    · cases h
      rw [left] at hlater
      split
      · exact two_le_length_dropWhile_of_run hlater
      · exact two_le_length_of_run hlater
    · next hbody => exact (length_of_commentBody? hbody).1
  have fits : (if trimmed then (rest.drop marker).dropWhile isBlank
      else rest.drop marker).length ≤ (rest.drop marker).length := by
    split
    · exact (List.dropWhile_sublist isBlank).length_le
    · exact Nat.le_refl _
  rw [List.length_drop] at fits
  rw [isTrimMarker_append (by omega), htrimmed, hmarker, List.drop_append_of_le_length (by omega),
    commentBody?_append two]
  split at h
  · next hbody =>
    cases h
    rw [hbody]
    exact ⟨rfl, by dsimp only; omega⟩
  · next body before hbody =>
    obtain ⟨⟨trim, length⟩, hcomment, hpure⟩ := exists_of_bind_eq_ok h
    cases hpure
    obtain ⟨happend, hle⟩ := comment_append hcomment more
    have := (length_of_commentBody? hbody).2
    rw [List.length_drop] at this
    rw [hbody, Option.map_some]
    dsimp only at hle ⊢
    rw [happend]
    exact ⟨rfl, by omega⟩

theorem textStep_size_pos {trim : Bool} {c : Char} {rest : List Char} {found : Step}
    (h : textStep trim here (c :: rest) = .ok found) : 0 < found.size := by
  unfold textStep at h
  dsimp only at h
  split at h
  · cases h
    exact Nat.succ_pos _
  · split at h
    · cases h
      dsimp only
      omega
    · obtain ⟨r, -, hpure⟩ := exists_of_bind_eq_ok h
      cases hpure
      dsimp only
      omega

/-- A step is the same when more follows, unless it is over a text that ends with the source. -/
theorem step_append {mode : Mode} {c : Char} {rest : List Char} {found : Step} {spot : Location}
    {later : List Token} (h : step mode here c rest = .ok found)
    (opens : ∀ trim, mode = .text trim → cut ['\x7b', '\x7b'] ((c :: rest).drop
      (if trim then (c :: rest).takeWhile isBlank else []).length) ≠ none)
    (hlater : run found.mode spot (rest.drop (found.size - 1)) = .ok later)
    (more : List Char) :
    step mode here c (rest ++ more) = .ok found ∧ found.size ≤ rest.length + 1 := by
  cases mode with
  | action opened => exact actionStep_append h hlater more
  | text trim =>
    obtain ⟨⟨content, behind⟩, hcut⟩ := Option.ne_none_iff_exists'.mp (opens trim rfl)
    rw [← List.drop_cons (textStep_size_pos h)] at hlater
    exact textStep_append h hcut hlater more

end Lexer

end Stencil
