import Stencil.Proofs.Template.Lexemes

/-!
# Lexemes in front of a blank

A blank ends every lexeme of an action but a string, and a string ends with its quote. So a step
inside an action that ends in front of a blank is the same whatever stands behind the blank
(`Lexer.actionStep_in_front`). Only a step over blanks sees further: three characters behind them,
if they are the last of what is looked at.
-/

set_option autoImplicit false

namespace Stencil

/-! ## Literals -/

namespace Literal

open Stencil.Text Stencil.Numeral

theorem unsigned_blank (cs more : List Char) : unsigned (cs ++ ' ' :: more) = unsigned cs := by
  have digits : (cs ++ ' ' :: more).takeWhile isDigit = cs.takeWhile isDigit :=
    takeWhile_append_apart (.inr rfl)
  have fits : (cs.takeWhile isDigit).length ≤ cs.length :=
    (List.takeWhile_sublist isDigit).length_le
  unfold unsigned
  dsimp only
  rw [digits, List.drop_append_of_le_length fits]
  match cs.drop (cs.takeWhile isDigit).length with
  | [] => rfl
  | [x] =>
    by_cases hx : x = '.'
    · subst hx
      exact if_neg (by decide)
    · simp [hx]
  | x :: d :: rest =>
    by_cases hx : x = '.'
    · subst hx
      have fraction : (d :: rest ++ ' ' :: more).takeWhile isDigit =
          (d :: rest).takeWhile isDigit := takeWhile_append_apart (.inr rfl)
      simp only [List.cons_append] at fraction ⊢
      rw [fraction]
    · simp [hx]

/-- A number ends in front of a blank. -/
theorem number_blank (cs more : List Char) : number (cs ++ ' ' :: more) = number cs := by
  cases cs with
  | nil => exact unsigned_blank [] more
  | cons c rest =>
    rw [List.cons_append]
    by_cases hm : c = '-'
    · subst hm
      rw [number, number, unsigned_blank]
    by_cases hp : c = '+'
    · subst hp
      rw [number, number, unsigned_blank]
    have plain (cs : List Char) : number (c :: cs) = unsigned (c :: cs) := by
      rw [number]
      · exact fun _ hc => hm (List.cons.inj hc).1
      · exact fun _ hc => hp (List.cons.inj hc).1
    rw [plain, plain, ← List.cons_append, unsigned_blank]

theorem hexChar?_of_append {width : Nat} {cs more : List Char} {c : Char}
    (h : hexChar? width (cs ++ more) = some c) (hle : width ≤ cs.length) :
    hexChar? width cs = some c := by
  unfold hexChar? at h ⊢
  rwa [List.take_append_of_le_length hle] at h

/-- An escape is the same without what it does not take. -/
theorem escape?_of_append {letter : Char} {rest more : List Char} {c : Char} {size : Nat}
    (h : escape? letter (rest ++ more) = some (c, size)) (hle : size ≤ rest.length) :
    escape? letter rest = some (c, size) := by
  unfold escape? at h ⊢
  split at h
  case h_8 =>
    obtain ⟨x, hx, hchar⟩ := Option.bind_eq_some_iff.mp h
    have width : size = 2 := by
      split at hchar
      · exact (Prod.mk.inj (Option.some.inj hchar)).2.symm
      · cases hchar
    rw [hexChar?_of_append hx (width ▸ hle), Option.bind_some]
    exact hchar
  case h_9 =>
    obtain ⟨x, hx, heq⟩ := Option.map_eq_some_iff.mp h
    cases heq
    rw [hexChar?_of_append hx hle]
    rfl
  case h_10 => cases h
  all_goals exact h

/-- A string that is read ends with a quote. -/
theorem quote_mem_of_quoted {taken : Nat} {cs : List Char} {r : List Char × Nat}
    (h : quoted taken cs = .ok r) : '"' ∈ cs := by
  induction taken, cs using quoted.induct generalizing r with
  | case1 | case3 | case4 =>
    rw [quoted] at h
    cases h
  | case2 taken rest => exact List.mem_cons_self
  | case5 taken letter rest hnone =>
    rw [quoted, hnone] at h
    cases h
  | case6 taken letter rest c size hsome ih =>
    rw [quoted, hsome] at h
    obtain ⟨r, hrec, -⟩ := exists_of_bind_eq_ok h
    exact .tail _ (.tail _ (List.mem_of_mem_drop (ih hrec)))
  | case7 taken c rest hquote hline hlast hescape ih =>
    rw [quoted] at h
    · obtain ⟨r, hrec, -⟩ := exists_of_bind_eq_ok h
      exact .tail _ (ih hrec)
    all_goals assumption

/-- A string is the same without what stands behind its quote. -/
theorem quoted_of_append {taken : Nat} {cs more : List Char} {r : List Char × Nat}
    (h : quoted taken (cs ++ more) = .ok r) (hmore : '"' ∉ more) : quoted taken cs = .ok r := by
  induction taken, cs using quoted.induct generalizing r with
  | case1 taken => exact absurd (quote_mem_of_quoted h) hmore
  | case2 taken rest =>
    rw [List.cons_append, quoted] at h
    rw [quoted]
    exact h
  | case3 taken rest =>
    rw [List.cons_append, quoted] at h
    cases h
  | case4 taken =>
    rcases List.mem_cons.mp (quote_mem_of_quoted h) with heq | hmem
    · cases heq
    · exact absurd hmem hmore
  | case5 taken letter rest hnone =>
    rw [List.cons_append, List.cons_append, quoted] at h
    split at h
    · cases h
    · next c size hsome =>
      obtain ⟨r, hrec, -⟩ := exists_of_bind_eq_ok h
      by_cases hle : size ≤ rest.length
      · rw [escape?_of_append hsome hle] at hnone
        cases hnone
      · -- digits that reach over the end would leave no quote
        rw [List.drop_append, List.drop_of_length_le (by omega), List.nil_append] at hrec
        exact absurd (List.mem_of_mem_drop (quote_mem_of_quoted hrec)) hmore
  | case6 taken letter rest c size hsome ih =>
    obtain ⟨hescape, hle⟩ := escape?_append hsome more
    rw [List.cons_append, List.cons_append, quoted, hescape] at h
    obtain ⟨r, hrec, hr⟩ := exists_of_bind_eq_ok h
    rw [List.drop_append_of_le_length hle] at hrec
    rw [quoted, hsome]
    dsimp only
    rw [ih hrec]
    exact hr
  | case7 taken c rest hquote hline hlast hescape ih =>
    have hback : c ≠ '\\' := by
      intro hc
      cases rest with
      | nil => exact hlast hc rfl
      | cons letter rest => exact hescape letter rest hc rfl
    rw [List.cons_append, quoted] at h
    · obtain ⟨r, hrec, hr⟩ := exists_of_bind_eq_ok h
      rw [quoted]
      · rw [ih hrec]
        exact hr
      all_goals assumption
    · exact hquote
    · exact hline
    · exact fun hc _ => hback hc
    · exact fun _ _ hc _ => hback hc

theorem raw?_of_append {cs more content : List Char} (h : raw? (cs ++ more) = some content)
    (hmore : '\x60' ∉ more) : raw? cs = some content := by
  unfold raw? at h ⊢
  dsimp only at h ⊢
  rcases run_cases (· != '\x60') cs more with ⟨hdrop, htake, -⟩ | ⟨-, -, htake, -⟩
  · have count := congrArg List.length
      (List.takeWhile_append_dropWhile (p := (· != '\x60')) (l := cs))
    have positive := List.length_pos_iff.mpr hdrop
    rw [List.length_append] at count
    rw [htake] at h
    rw [if_pos (by omega)]
    split at h
    · exact h
    · cases h
  · have all : more.takeWhile (· != '\x60') = more :=
      List.takeWhile_eq_self_iff.mpr fun x hx => bne_iff_ne.mpr (ne_of_mem_of_not_mem hx hmore)
    rw [htake, all, if_neg (Nat.lt_irrefl _)] at h
    cases h

end Literal

namespace Lexer

open Stencil.Text

/-! ## Steps -/

variable {opened here : Location}

theorem dotStep_blank (rest more : List Char) :
    dotStep opened here (rest ++ ' ' :: more) = dotStep opened here rest := by
  have digits : (rest ++ ' ' :: more).takeWhile isDigit = rest.takeWhile isDigit :=
    takeWhile_append_apart (.inr rfl)
  unfold dotStep
  rw [digits]

theorem nameStep_blank (cs more : List Char) :
    nameStep opened here (cs ++ ' ' :: more) = nameStep opened here cs := by
  have name : (cs ++ ' ' :: more).takeWhile isNamePart = cs.takeWhile isNamePart :=
    takeWhile_append_apart (.inr rfl)
  unfold nameStep
  rw [name]

theorem numberStep_blank (cs more : List Char) :
    numberStep opened here (cs ++ ' ' :: more) = numberStep opened here cs := by
  have fits : (Literal.number cs).length ≤ cs.length := (prefix_number cs).length_le
  -- a blank behind a number is no part of a name
  have behind (rest : List Char) : ((rest ++ ' ' :: more).head?.filter isNamePart) =
      rest.head?.filter isNamePart := by
    cases rest with
    | nil => rfl
    | cons c rest => rfl
  unfold numberStep
  dsimp only
  rw [Literal.number_blank, List.drop_append_of_le_length fits, behind]

/-- A step over blanks in front of something else. -/
theorem blankStep_blank {cs : List Char} (h : cs.all isBlank = false) (more : List Char) :
    blankStep opened here (cs ++ ' ' :: more) = blankStep opened here cs := by
  have blanks : (cs ++ ' ' :: more).takeWhile isBlank = cs.takeWhile isBlank :=
    takeWhile_append_apart (.inl h)
  have fits : (cs.takeWhile isBlank).length ≤ cs.length :=
    (List.takeWhile_sublist isBlank).length_le
  unfold blankStep
  dsimp only
  rw [blanks, List.drop_append_of_le_length fits]
  match cs.drop (cs.takeWhile isBlank).length with
  | [] => rfl
  | [c] => by_cases hc : c = '-' <;> simp [hc]
  | [c, d] => by_cases hc : c = '-' <;> by_cases hd : d = '\x7d' <;> simp [hc, hd]
  | c :: d :: e :: rest =>
    by_cases hclose : c = '-' ∧ d = '\x7d' ∧ e = '\x7d'
    · obtain ⟨rfl, rfl, rfl⟩ := hclose
      rfl
    · have other (tail close : List Char) :
          c :: d :: e :: tail ≠ '-' :: '\x7d' :: '\x7d' :: close := by
        intro heq
        simp only [List.cons.injEq] at heq
        exact hclose ⟨heq.1, heq.2.1, heq.2.2.1⟩
      split
      · next heq => exact (other _ _ heq).elim
      · split
        · next heq => exact (other _ _ heq).elim
        · rfl

theorem startsNumber_blank (c : Char) (rest more : List Char) :
    startsNumber c (rest ++ ' ' :: more) = startsNumber c rest := by
  cases rest with
  | nil => simp [startsNumber, isDigit]
  | cons d rest => rfl

/-- A step is the same in front of a blank, but for strings. -/
theorem actionStep_behind_blank {c : Char} {rest : List Char} (hquote : c ≠ '"')
    (hraw : c ≠ '\x60') (h : (c :: rest).all isBlank = false) (more : List Char) :
    actionStep opened here c (rest ++ ' ' :: more) = actionStep opened here c rest := by
  by_cases hdot : c = '.'
  · subst hdot
    exact congrArg Except.ok (dotStep_blank rest more)
  by_cases hdollar : c = '$'
  · subst hdollar
    rfl
  by_cases hpipe : c = '|'
  · subst hpipe
    rfl
  by_cases hclose : ∃ tail, c = '\x7d' ∧ rest = '\x7d' :: tail
  · obtain ⟨tail, rfl, rfl⟩ := hclose
    rfl
  have open₁ (tail : List Char) (hc : c = '\x7d') : rest ≠ '\x7d' :: tail :=
    fun heq => hclose ⟨tail, hc, heq⟩
  have open₂ (tail : List Char) (hc : c = '\x7d') : rest ++ ' ' :: more ≠ '\x7d' :: tail := by
    intro heq
    cases rest with
    | nil => cases heq
    | cons d others =>
      obtain ⟨rfl, -⟩ := List.cons.inj heq
      exact open₁ others hc rfl
  rw [actionStep_word hdot hdollar hpipe hquote hraw open₁,
    actionStep_word hdot hdollar hpipe hquote hraw open₂, startsNumber_blank, ← List.cons_append,
    blankStep_blank h, numberStep_blank, nameStep_blank]

/-- A step inside an action takes no more than there is. -/
theorem actionStep_size_le {c : Char} {rest : List Char} {found : Step}
    (h : actionStep opened here c rest = .ok found) : found.size ≤ (c :: rest).length := by
  unfold actionStep at h
  split at h
  · cases h
    simp
  · cases h
    have digits := (List.takeWhile_sublist isDigit (l := rest)).length_le
    simp only [dotStep, List.length_cons]
    omega
  · cases h
    simp
  · cases h
    simp
  · have := (quotedStep_append h []).2
    simpa using this
  · have := (rawStep_append h []).2
    simpa using this
  · split at h
    · cases h
      have count := congrArg List.length
        (List.takeWhile_append_dropWhile (p := isBlank) (l := c :: rest))
      rw [List.length_append, ← drop_takeWhile] at count
      unfold blankStep
      dsimp only
      split
      · next heq =>
        rw [heq] at count
        simp only [List.length_cons] at count ⊢
        omega
      · dsimp only
        omega
    · split at h
      · unfold numberStep at h
        dsimp only at h
        split at h
        · cases h
        · cases h
          exact (prefix_number _).length_le
      · split at h
        · cases h
          exact (List.takeWhile_sublist isNamePart).length_le
        · cases h

/-- A step that starts in front of a blank is the same whatever stands behind the blank, unless a
quote there ends a string. -/
theorem actionStep_in_front {c : Char} {rest tail : List Char} {found : Step}
    (h : actionStep opened here c (rest ++ ' ' :: tail) = .ok found)
    (hall : (c :: rest).all isBlank = false) (hquote : '"' ∉ ' ' :: tail)
    (hraw : '\x60' ∉ ' ' :: tail) :
    actionStep opened here c rest = .ok found ∧
      ∀ more, actionStep opened here c (rest ++ ' ' :: more) = .ok found := by
  by_cases hc : c = '"'
  · subst hc
    have alone : quotedStep opened here rest = .ok found := by
      change quotedStep opened here (rest ++ ' ' :: tail) = .ok found at h
      unfold quotedStep at h ⊢
      split at h
      · next content size hread =>
        rw [Literal.quoted_of_append hread hquote]
        exact h
      · cases h
      · cases h
    exact ⟨alone, fun more => (quotedStep_append alone _).1⟩
  by_cases hc' : c = '\x60'
  · subst hc'
    have alone : rawStep opened here rest = .ok found := by
      change rawStep opened here (rest ++ ' ' :: tail) = .ok found at h
      unfold rawStep at h ⊢
      split at h
      · next content hread =>
        rw [Literal.raw?_of_append hread hraw]
        exact h
      · cases h
    exact ⟨alone, fun more => (rawStep_append alone _).1⟩
  rw [actionStep_behind_blank hc hc' hall] at h
  exact ⟨h, fun more => (actionStep_behind_blank hc hc' hall more).trans h⟩

end Lexer

end Stencil
