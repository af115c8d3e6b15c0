import Mathlib.Data.List.TakeWhile
import Stencil.Markup.Entity
import Stencil.Proofs.Escape.Signs
import Stencil.Proofs.Numeral.Reading

/-!
# Texts of style sheets read back

A style sheet reads the inside of a string with one kind of escape: a backslash and one to six
digits of base sixteen are the character with that number, and one blank behind the digits belongs
to the escape (`styleText`). So how far an escape goes depends on what follows it.

The rule for such strings looks at what follows in the value, and writes the blank where a digit or
a space does (`styleText_cssString_concat`). Behind the last character of the value it writes none,
whatever the text or the output is that comes next. A value therefore reads back together with what
follows it unless it ends in an escaped character and what follows starts with a digit or a blank,
and then it never does (`styleText_cssString_append`).
-/

set_option autoImplicit false

namespace Stencil.Escape

open Stencil.Text
open Stencil.Markup (charOfNumber)

/-! ## The reader -/

/-- The digits of an escape at the start of a text. -/
def leadingDigits (cs : List Char) : List Char := (cs.take 6).takeWhile Numeral.isHexDigit

/-- What is left behind the blank that ends an escape, if there is one. -/
def withoutGap : List Char → List Char
  | [] => []
  | c :: rest => if isSpace c then rest else c :: rest

theorem length_withoutGap (cs : List Char) : (withoutGap cs).length ≤ cs.length := by
  cases cs with
  | nil => exact Nat.le_refl _
  | cons c rest =>
    rw [withoutGap]
    split
    · exact Nat.le_succ _
    · exact Nat.le_refl _

/-- The characters that a text inside a string of a style sheet stands for. -/
def styleText : List Char → List Char
  | [] => []
  | c :: rest =>
    if c = '\\' ∧ leadingDigits rest ≠ [] then
      charOfNumber (Numeral.value 16 (leadingDigits rest)) ::
        styleText (withoutGap (rest.drop (leadingDigits rest).length))
    else c :: styleText rest
termination_by cs => cs.length
decreasing_by
  · have := length_withoutGap (rest.drop (leadingDigits rest).length)
    rw [List.length_drop] at this
    simp only [List.length_cons]
    omega
  · simp

/-- What a reader takes for a part of an escape before it. -/
def extendsEscape (c : Char) : Bool := Numeral.isHexDigit c || isSpace c

variable {c x : Char} {cs rest : List Char}

@[simp] theorem styleText_nil : styleText [] = [] := by
  rw [styleText]

theorem styleText_cons_of_ne (h : c ≠ '\\') (rest : List Char) :
    styleText (c :: rest) = c :: styleText rest := by
  rw [styleText, if_neg fun hc => h hc.1]

theorem styleText_escape (h : leadingDigits rest ≠ []) :
    styleText ('\\' :: rest) = charOfNumber (Numeral.value 16 (leadingDigits rest)) ::
      styleText (withoutGap (rest.drop (leadingDigits rest).length)) := by
  rw [styleText, if_pos ⟨rfl, h⟩]

/-- Characters other than a backslash stand for themselves. -/
theorem styleText_append (h : '\\' ∉ cs) (rest : List Char) :
    styleText (cs ++ rest) = cs ++ styleText rest := by
  induction cs with
  | nil => rfl
  | cons c cs ih =>
    rw [List.mem_cons, not_or] at h
    rw [List.cons_append, styleText_cons_of_ne (Ne.symm h.1), ih h.2]
    rfl

theorem withoutGap_of_head (h : rest.head?.any isSpace = false) : withoutGap rest = rest := by
  cases rest with
  | nil => rfl
  | cons c rest => exact if_neg (by simpa using h)

/-- The blank that ends an escape is lost. -/
theorem length_styleText_withoutGap (cs : List Char) :
    (styleText (withoutGap cs)).length +
      (if cs.head?.any isSpace then 1 else 0) = (styleText cs).length := by
  cases cs with
  | nil => simp [withoutGap]
  | cons c cs =>
    rw [withoutGap, List.head?_cons, Option.any_some]
    split
    · next hc =>
      have hne : c ≠ '\\' := by
        rintro rfl
        cases hc
      rw [styleText_cons_of_ne hne, List.length_cons]
    · rfl

/-! ## The rule for strings -/

theorem lt_of_isStyleStringSign (h : isStyleStringSign c = true) : c.toNat < 0x80 :=
  prop_of_mem (List.contains_iff_mem.mp h) (by decide)

theorem length_sign (h : isStyleStringSign c = true) :
    (Numeral.natural 16 c.toNat).length ≤ 2 := by
  have low := lt_of_isStyleStringSign h
  exact Numeral.length_natural_le (by decide) (by omega)

theorem isHexDigit_of_mem_natural {n : Nat} (h : c ∈ Numeral.natural 16 n) :
    Numeral.isHexDigit c = true :=
  prop_of_mem (Numeral.natural_subset (by decide) n h) (by decide)

/-- The escape of a sign takes the digits behind it along, as many as there is room for. -/
theorem leadingDigits_sign (h : isStyleStringSign c = true) (rest : List Char) :
    ∃ room, 4 ≤ room ∧ leadingDigits (Numeral.natural 16 c.toNat ++ rest) =
      Numeral.natural 16 c.toNat ++ (rest.take room).takeWhile Numeral.isHexDigit := by
  have short := length_sign h
  refine ⟨6 - (Numeral.natural 16 c.toNat).length, by omega, ?_⟩
  rw [leadingDigits, List.take_append, List.take_of_length_le (by omega),
    List.takeWhile_append_of_pos fun d => isHexDigit_of_mem_natural]

/-- An escape reads back that has no digit behind it, and takes a blank along. -/
theorem styleText_sign (h : isStyleStringSign c = true)
    (hr : rest.head?.any Numeral.isHexDigit = false) :
    styleText ('\\' :: (Numeral.natural 16 c.toNat ++ rest)) =
      c :: styleText (withoutGap rest) := by
  obtain ⟨room, hroom, leading⟩ := leadingDigits_sign h rest
  have ends : (rest.take room).takeWhile Numeral.isHexDigit = [] := by
    obtain ⟨room, rfl⟩ := Nat.exists_eq_add_of_le' hroom
    cases rest with
    | nil => rw [List.take_nil, List.takeWhile_nil]
    | cons x xs => exact List.takeWhile_cons_of_neg (by simpa using hr)
  have back : charOfNumber (Numeral.value 16 (Numeral.natural 16 c.toNat)) = c := by
    rw [Numeral.value_natural (by decide) (by decide), charOfNumber,
      if_pos (show c.toNat.isValidChar from c.valid), Char.ofNat_toNat]
  rw [ends, List.append_nil] at leading
  rw [styleText_escape (by rw [leading]; exact Numeral.natural_ne_nil 16 _), leading, back,
    List.drop_left]

theorem joinsEscape_of_sign (h : isStyleStringSign c = true) : joinsEscape c = false :=
  prop_of_mem (List.contains_iff_mem.mp h) (by decide)

/-- The blanks that could extend an escape are signs or the space. -/
theorem extendsEscape_eq_false (hs : isStyleStringSign c = false) (hj : joinsEscape c = false) :
    extendsEscape c = false := by
  rw [joinsEscape, Bool.or_eq_false_iff] at hj
  rw [extendsEscape, hj.1, Bool.false_or]
  apply Bool.eq_false_iff.mpr
  intro hspace
  simp only [isSpace, Bool.or_eq_true, beq_iff_eq] at hspace
  rcases hspace with (((rfl | rfl) | rfl) | rfl) | rfl
  · cases hj.2
  all_goals cases hs

theorem cssString_cons_of_sign (h : isStyleStringSign c = true) (cs : List Char) :
    cssString (c :: cs) = '\\' :: (Numeral.natural 16 c.toNat ++
      ((if cs.head?.any joinsEscape then [' '] else []) ++ cssString cs)) := by
  rw [cssString, if_pos h]
  dsimp only
  rw [List.cons_append, List.cons_append, List.append_assoc]

theorem cssString_cons_of_plain (h : isStyleStringSign c = false) (cs : List Char) :
    cssString (c :: cs) = c :: cssString cs := by
  rw [cssString, if_neg (by simp [h])]

/-- Behind a value that ends in a sign, the escape of the sign comes last. -/
theorem cssString_concat (h : isStyleStringSign c = true) (cs : List Char) :
    cssString (cs ++ [c]) = cssString cs ++ '\\' :: Numeral.natural 16 c.toNat := by
  induction cs with
  | nil =>
    rw [List.nil_append, cssString_cons_of_sign h]
    simp [cssString]
  | cons x cs ih =>
    have gap : (cs ++ [c]).head?.any joinsEscape = cs.head?.any joinsEscape := by
      cases cs with
      | nil => exact joinsEscape_of_sign h
      | cons y ys => rfl
    rw [List.cons_append]
    cases hx : isStyleStringSign x with
    | true =>
      rw [cssString_cons_of_sign hx, cssString_cons_of_sign hx, gap, ih]
      simp only [List.cons_append, List.append_assoc]
    | false =>
      rw [cssString_cons_of_plain hx, cssString_cons_of_plain hx, ih, List.cons_append]

/-- Nothing in a value extends an escape that has no gap behind it. -/
theorem head?_cssString {t : List Char} (hj : cs.head?.any joinsEscape = false)
    (ht : cs = [] → t.head?.any extendsEscape = false) :
    (cssString cs ++ t).head?.any extendsEscape = false := by
  cases cs with
  | nil => exact ht rfl
  | cons x xs =>
    cases hx : isStyleStringSign x with
    | true =>
      rw [cssString_cons_of_sign hx]
      rfl
    | false =>
      rw [cssString_cons_of_plain hx]
      exact extendsEscape_eq_false hx hj

theorem apart_of_extendsEscape (h : rest.head?.any extendsEscape = false) :
    rest.head?.any Numeral.isHexDigit = false ∧ rest.head?.any isSpace = false := by
  cases rest with
  | nil => exact ⟨rfl, rfl⟩
  | cons x xs => exact Bool.or_eq_false_iff.mp h

/-- A value reads back, unless it ends in a sign and what follows extends the sign's escape. -/
theorem styleText_cssString {cs t : List Char} (h : cs.getLast?.any isStyleStringSign = true →
    t.head?.any extendsEscape = false) : styleText (cssString cs ++ t) = cs ++ styleText t := by
  induction cs with
  | nil => rfl
  | cons c cs ih =>
    have later : cs.getLast?.any isStyleStringSign = true → t.head?.any extendsEscape = false := by
      cases cs with
      | nil => nofun
      | cons x xs => rwa [List.getLast?_cons_cons] at h
    cases hc : isStyleStringSign c with
    | true =>
      rw [cssString_cons_of_sign hc, List.cons_append, List.append_assoc, List.append_assoc,
        List.cons_append, ← ih later]
      cases hj : cs.head?.any joinsEscape with
      | true =>
        -- the gap ends the escape and is read with it
        exact styleText_sign hc rfl
      | false =>
        have head := head?_cssString (t := t) hj (by
          rintro rfl
          exact h hc)
        obtain ⟨digit, space⟩ := apart_of_extendsEscape head
        have read := styleText_sign hc digit
        rwa [withoutGap_of_head space] at read
    | false =>
      have hne : c ≠ '\\' := by
        rintro rfl
        cases hc
      rw [cssString_cons_of_plain hc, List.cons_append, styleText_cons_of_ne hne, ih later]
      rfl

/-- What extends the escape of a sign is lost to the reader. -/
theorem length_styleText_sign (h : isStyleStringSign c = true)
    (hr : rest.head?.any extendsEscape = true) :
    (styleText ('\\' :: (Numeral.natural 16 c.toNat ++ rest))).length <
      (c :: styleText rest).length := by
  obtain ⟨room, hroom, leading⟩ := leadingDigits_sign h rest
  generalize htaken : (rest.take room).takeWhile Numeral.isHexDigit = taken at leading
  have filled : leadingDigits (Numeral.natural 16 c.toNat ++ rest) ≠ [] := by
    rw [leading]
    exact List.append_ne_nil_of_left_ne_nil (Numeral.natural_ne_nil 16 _) _
  have whole : styleText rest = taken ++ styleText (rest.drop taken.length) := by
    have front : taken <+: rest :=
      htaken ▸ (List.takeWhile_prefix _).trans (List.take_prefix room rest)
    have plain : '\\' ∉ taken := by
      intro hmem
      have digit : Numeral.isHexDigit '\\' = true := List.mem_takeWhile_imp (htaken ▸ hmem)
      cases digit
    rw [← styleText_append plain, List.prefix_iff_eq_append.mp front]
  have gap := length_styleText_withoutGap (rest.drop taken.length)
  -- either a digit is taken, or the blank that `rest` starts with
  have lost : 0 < taken.length ∨ (rest.drop taken.length).head?.any isSpace = true := by
    obtain ⟨room, rfl⟩ := Nat.exists_eq_add_of_le' hroom
    cases rest with
    | nil => cases hr
    | cons x xs =>
      rw [List.take_succ_cons] at htaken
      cases hx : Numeral.isHexDigit x with
      | true =>
        left
        rw [← htaken, List.takeWhile_cons_of_pos hx]
        exact Nat.succ_pos _
      | false =>
        right
        rw [List.head?_cons, Option.any_some, extendsEscape, hx, Bool.false_or] at hr
        rw [← htaken, List.takeWhile_cons_of_neg (by simp [hx])]
        exact hr
  rw [styleText_escape filled, leading, List.length_append, List.drop_length_add_append, whole,
    List.length_cons, List.length_cons, List.length_append]
  rcases lost with digit | space
  · omega
  · rw [if_pos space] at gap
    omega

/-- **A value in a style sheet's string reads back as far as what follows it lets it.** It is read
as itself, and what follows as it is read on its own, exactly if the value does not end in an
escaped sign or what follows starts with no digit of base sixteen and no blank: the escape at the
end of a value has nothing behind it that would end it. -/
theorem styleText_cssString_append (cs t : List Char) :
    styleText (cssString cs ++ t) = cs ++ styleText t ↔
      ¬ (cs.getLast?.any isStyleStringSign = true ∧ t.head?.any extendsEscape = true) := by
  constructor
  · rintro same ⟨hlast, hext⟩
    rcases List.eq_nil_or_concat cs with rfl | ⟨init, c, rfl⟩
    · cases hlast
    rw [List.concat_eq_append, List.getLast?_concat, Option.any_some] at hlast
    rw [List.concat_eq_append, cssString_concat hlast, List.append_assoc, List.append_assoc,
      List.cons_append, styleText_cssString fun _ => rfl] at same
    have less := length_styleText_sign hlast hext
    rw [List.append_cancel_left same] at less
    exact absurd less (Nat.lt_irrefl _)
  · intro h
    apply styleText_cssString
    intro hlast
    exact Bool.eq_false_iff.mpr fun hext => h ⟨hlast, hext⟩

/-- So a text that follows a value can change what the value reads as: a digit behind a quote. -/
theorem not_readsBack_before_digit :
    ¬ ∀ cs t, styleText (cssString cs ++ t) = cs ++ styleText t := by
  intro expected
  have quote := expected ['"'] ['a']
  revert quote
  decide +kernel

end Stencil.Escape
