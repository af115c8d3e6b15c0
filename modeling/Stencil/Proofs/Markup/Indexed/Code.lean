import Stencil.Proofs.Markup.Indexed.Search

/-!
# Scripts by positions

What a slash in a script means is told by the code before it, which the scan by positions looks at
from behind: its last byte that is no blank, a run of signs or the word that ends there. The bytes
of a text from behind are those of its characters from behind in an encoding of its own
(`Encoding.reversed`), so what holds of runs from the front holds of these (`behindLast_utf8`).
-/

set_option autoImplicit false

namespace Stencil.Markup

open Stencil.Text Stencil.Escape

variable {text cs : List Char} {i : Nat}

/-! ## A text from behind -/

/-- The bytes of a text from behind. -/
theorem reverse_utf8_reverse (cs : List Char) :
    (utf8 cs.reverse).reverse = cs.flatMap fun c => (String.utf8EncodeChar c).reverse := by
  rw [utf8, List.reverse_flatMap, List.reverse_reverse]
  rfl

/-- The last byte of a text tells its last character. -/
theorem getLast?_utf8 (c : Char) (before : List Char) :
    ∃ b, (utf8 (c :: before).reverse).getLast? = some b ∧ StandsFor (byteChar b) c := by
  obtain ⟨x, hx, stands⟩ := encoding_utf8.reversed.head?_cons c before
  rw [← reverse_utf8_reverse, List.head?_reverse] at hx
  obtain ⟨b, hb, rfl⟩ := Option.map_eq_some_iff.mp hx
  exact ⟨b, hb, stands⟩

/-- The byte before a position tells the character before it. -/
theorem byteAt?_before {p : Char → Bool} (hp : Flat p) (c : Char) (before : List Char)
    (behind : List UInt8) :
    ∃ x, byteAt? (utf8 (c :: before).reverse ++ behind) ((utf8 (c :: before).reverse).length - 1) =
      some x ∧ p x = p c := by
  obtain ⟨b, hb, stands⟩ := getLast?_utf8 c before
  have inside : (utf8 (c :: before).reverse).length - 1 < (utf8 (c :: before).reverse).length := by
    have : 0 < (utf8 (c :: before).reverse).length := length_utf8_pos (by simp)
    omega
  refine ⟨byteChar b, ?_, stands.same hp⟩
  rw [byteAt?, List.getElem?_append_left inside, ← List.getLast?_eq_getElem?, hb]
  rfl

namespace Indexed

theorem behindLast_eq (s : List UInt8) (p : Char → Bool) :
    behindLast s p = (s.reverse.dropWhile fun b => !p (byteChar b)).length := by
  have split := congrArg List.length
    (List.takeWhile_append_dropWhile (p := fun b => !p (byteChar b)) (l := s.reverse))
  rw [List.length_append, List.length_reverse] at split
  rw [behindLast, findIdx?_eq]
  by_cases h : (s.reverse.dropWhile fun b => !p (byteChar b)) = []
  · rw [if_pos h, h]
    rfl
  · rw [if_neg h]
    simp only
    omega

/-- A text is cut behind its last character of a class. -/
theorem behindLast_utf8 {p : Char → Bool} (hp : Flat p) (cs : List Char) :
    slice? (utf8 cs) 0 (behindLast (utf8 cs) p) =
        some (utf8 (cs.reverse.dropWhile fun x => !p x).reverse) ∧
      from? (utf8 cs) (behindLast (utf8 cs) p) =
        some (utf8 (cs.reverse.takeWhile fun x => !p x).reverse) := by
  have whole := congrArg List.reverse
    (List.takeWhile_append_dropWhile (p := fun x => !p x) (l := cs.reverse))
  rw [List.reverse_append, List.reverse_reverse] at whole
  have size : behindLast (utf8 cs) p =
      0 + (utf8 (cs.reverse.dropWhile fun x => !p x).reverse).length := by
    have bytes := reverse_utf8_reverse cs.reverse
    rw [List.reverse_reverse] at bytes
    have run := encoding_utf8.reversed.dropWhile hp.not cs.reverse
    rw [behindLast_eq, bytes, run, ← reverse_utf8_reverse, List.length_reverse, Nat.zero_add]
  have there : At cs 0 ((cs.reverse.dropWhile fun x => !p x).reverse ++
      (cs.reverse.takeWhile fun x => !p x).reverse) := by
    rw [whole]
    exact .start cs
  rw [size]
  exact ⟨there.slice?_eq, there.forward.from?_eq⟩

/-! ## Slashes -/

theorem slashAfterLast_utf8 {x last : Char} (stands : StandsFor x last) (before : List Char) :
    slashAfterLast (utf8 (last :: before).reverse) x = some (Slash.afterLast last before) := by
  have plus : x = '+' ↔ last = '+' := stands.eq_iff (by decide)
  have minus : x = '-' ↔ last = '-' := stands.eq_iff (by decide)
  have dot : x = '.' ↔ last = '.' := stands.eq_iff (by decide)
  have signs : x ∈ expressionSigns ↔ last ∈ expressionSigns := by
    have ascii : Ascii fun y => decide (y ∈ expressionSigns) := by
      intro y hy
      exact prop_of_mem (p := fun y => y.toNat < 0x80) (of_decide_eq_true hy) (by decide)
    simpa using stands.same ascii.flat
  rw [slashAfterLast, Slash.afterLast]
  simp only [plus, minus, dot, signs]
  split
  · next hsign =>
    have low : last.toNat < 0x80 := by
      rcases hsign with rfl | rfl
      all_goals decide
    have same : x = last := by
      rcases hsign with rfl | rfl
      · exact plus.mpr rfl
      · exact minus.mpr rfl
    have run := encoding_utf8.reversed.takeWhile (ascii_beq low).flat (last :: before)
    have plain : ∀ y ∈ (last :: before).takeWhile (· == last), y.toNat < 0x80 := by
      intro y hy
      have : (y == last) = true := List.mem_takeWhile_imp (p := (· == last)) hy
      exact ascii_beq low y this
    have size := congrArg List.length (encoding_utf8.reversed.map_byteChar plain)
    rw [List.length_map] at size
    rw [same, reverse_utf8_reverse, run, size]
    rfl
  · split
    · next hdot =>
      subst hdot
      have whole : utf8 ('.' :: before).reverse = utf8 before.reverse ++ [0x2e] := by
        rw [List.reverse_cons, utf8_append]
        rfl
      have size : (utf8 before.reverse ++ [0x2e]).length = (utf8 before.reverse).length + 1 :=
        List.length_append
      rw [whole, size]
      cases before with
      | nil => rfl
      | cons y before =>
        have positive : 0 < (utf8 (y :: before).reverse).length := length_utf8_pos (by simp)
        obtain ⟨z, hz, same⟩ := byteAt?_before ascii_isDigit.flat y before [0x2e]
        rw [if_pos (by omega), Nat.add_sub_add_right _ 1 1, hz]
        simp only [Option.bind_eq_bind, Option.bind_some, same]
        rfl
    · split
      · rfl
      · have run := (behindLast_utf8 ascii_isScriptNamePart.flat.not (last :: before).reverse).2
        simp only [List.reverse_reverse, Bool.not_not] at run
        have plain : ∀ y ∈ ((last :: before).takeWhile isScriptNamePart).reverse,
            y.toNat < 0x80 := by
          intro y hy
          exact ascii_isScriptNamePart y (List.mem_takeWhile_imp (List.mem_reverse.mp hy))
        have spelled : (utf8 ((last :: before).takeWhile isScriptNamePart).reverse).map byteChar =
            ((last :: before).takeWhile isScriptNamePart).reverse :=
          encoding_utf8.map_byteChar plain
        rw [run]
        simp only [Option.bind_eq_bind, Option.bind_some, spelled]
        rfl

theorem slashAfter_utf8 (previous : Slash) (cs : List Char) :
    slashAfter previous (utf8 cs) = some (previous.after cs) := by
  have cutOff := (behindLast_utf8 ascii_isSpace.flat.not cs).1
  simp only [Bool.not_not] at cutOff
  rw [slashAfter, cutOff, Slash.after]
  cases cs.reverse.dropWhile isSpace with
  | nil => rfl
  | cons last before =>
    obtain ⟨b, hb, stands⟩ := getLast?_utf8 last before
    simp only [Option.bind_eq_bind, Option.bind_some, hb]
    exact slashAfterLast_utf8 stands before

theorem slashStep_comes (c : Context) {rest : List Char} (h : At text i ('/' :: rest)) :
    Comes text (some (slashStep c (utf8 text) i)) (c.slashStep rest) := by
  have there : At text (i + 1) rest := h.next (by decide)
  have line := there.byteAt?_eq_iff (x := '/') (by decide)
  have block := there.byteAt?_eq_iff (x := '*') (by decide)
  rw [slashStep]
  by_cases hline : rest.head? = some '/'
  · obtain ⟨tail, rfl⟩ := List.head?_eq_some_iff.mp hline
    rw [if_pos (line.mpr hline)]
    exact ⟨_, rfl, there.next (by decide)⟩
  by_cases hblock : rest.head? = some '*'
  · obtain ⟨tail, rfl⟩ := List.head?_eq_some_iff.mp hblock
    rw [if_neg (mt line.mp hline), if_pos (block.mpr hblock)]
    exact ⟨_, rfl, there.next (by decide)⟩
  have plain : rest.head?.any Context.opensComment = false := by
    cases rest with
    | nil => rfl
    | cons y tail => simpa [Context.opensComment] using And.intro hline hblock
  rw [if_neg (mt line.mp hline), if_neg (mt block.mp hblock), Context.slashStep_of_head plain]
  cases c.slash with
  | regexp => exact ⟨_, rfl, there⟩
  | division => exact ⟨_, rfl, there⟩
  | unknown => exact ⟨_, rfl, .ending text⟩

theorem codeStep_comes (c : Context) (h : At text i cs) :
    Comes text (codeStep c (utf8 text) i) (c.codeStep cs) := by
  have whole := List.takeWhile_append_dropWhile (p := fun x => !startsScriptPart x) (l := cs)
  rw [codeStep]
  rcases findByte_cases h ascii_startsScriptPart.flat with
    ⟨found, hrest⟩ | ⟨x, rest, hrest, hx, found, there⟩
  · rw [hrest, List.append_nil] at whole
    rw [Context.codeStep_of_nil hrest, whole, found]
    simp only [Option.bind_eq_bind, Option.bind_some, h.from?_eq, slashAfter_utf8]
    exact ⟨_, rfl, .ending text⟩
  · rw [hrest] at whole
    have code := (whole.symm ▸ h : At text i (_ ++ x :: rest)).slice?_eq
    have low := ascii_startsScriptPart x hx
    have opening := (there.byteAt?_eq_iff low).mpr rfl
    rw [Context.codeStep_of_cons hrest, found]
    simp only [Option.bind_eq_bind, Option.bind_some, code, slashAfter_utf8, opening]
    split
    · exact ⟨_, rfl, there.next low⟩
    split
    · exact ⟨_, rfl, there.next low⟩
    split
    · exact ⟨_, rfl, there.next low⟩
    · next hdouble hsingle hback =>
      have slash : x = '/' := by
        simpa [startsScriptPart, hdouble, hsingle, hback] using hx
      subst slash
      exact slashStep_comes _ there

end Indexed

end Stencil.Markup
