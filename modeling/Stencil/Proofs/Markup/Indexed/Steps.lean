import Stencil.Proofs.Markup.Indexed.Inner
import Stencil.Proofs.Markup.Indexed.References

/-!
# Steps of a scan by positions

Every step of the scan by positions has a result, and it comes to where the step over characters
comes (`step_comes`).
-/

set_option autoImplicit false

namespace Stencil.Markup

open Stencil.Text Stencil.Escape

variable {text cs : List Char} {i : Nat}

namespace Indexed

/-! ## Values and bodies -/

theorem valueStep_comes (c : Context) (h : At text i cs) :
    Comes text (valueStep c (utf8 text) i) (c.valueStep cs) := by
  obtain ⟨ending, found, inside⟩ := findByte_slice h c.delim.ascii_ends.flat
  rw [valueStep, found, Context.valueStep]
  simp only [Option.bind_eq_bind, Option.bind_some, inside, decode_utf8, advanceInner_utf8,
    drop_takeWhile]
  rcases findByte_cases h c.delim.ascii_ends.flat with
    ⟨found', hrest⟩ | ⟨x, rest, hrest, hx, found', there⟩
  · obtain rfl : ending = none := Option.some.inj (found.symm.trans found')
    rw [hrest]
    exact ⟨_, rfl, .ending text⟩
  · obtain rfl := Option.some.inj (found.symm.trans found')
    rw [hrest]
    refine ⟨_, rfl, ?_⟩
    dsimp only
    split
    · exact there
    · exact there.next (c.delim.ascii_ends x hx)

theorem Element.ascii_name (e : Element) : ∀ x ∈ e.name.toList, x.toNat < 0x80 := by
  cases e
  all_goals exact ascii_of_all (by decide)

theorem bodyStep_comes (c : Context) (h : At text i cs) :
    Comes text (bodyStep c (utf8 text) i) (c.bodyStep cs) := by
  rw [bodyStep, Context.bodyStep]
  rcases findEndTag_cases (Element.ascii_name c.element) h with
    ⟨found, hnone⟩ | ⟨before, after, hcut, hprefix, found, there⟩
  · have inside : slice? (utf8 text) i (utf8 text).length = some (utf8 cs) := h.from?_eq
    rw [found, hnone]
    simp only [Option.bind_eq_bind, Option.bind_some, Option.getD_none, inside, advanceInner_utf8]
    exact ⟨_, rfl, .ending text⟩
  · obtain ⟨behind, rfl⟩ := hprefix
    rw [found, hcut]
    simp only [Option.bind_eq_bind, Option.bind_some, Option.getD_some, h.slice?_eq,
      advanceInner_utf8]
    exact ⟨_, rfl, there⟩

/-! ## Text -/

/-- Text is passed up to a less-than sign. -/
theorem textStep_dropWhile (c : Context) (cs : List Char) :
    c.textStep cs = c.textStep (cs.dropWhile fun x => !(x == '<')) := by
  induction cs with
  | nil => rfl
  | cons x rest ih =>
    by_cases hx : x = '<'
    · rw [List.dropWhile_cons_of_neg (by simp [hx])]
    · rw [List.dropWhile_cons_of_pos (by simp [hx]), ← ih, Context.textStep, if_neg hx]

theorem nameAt_reads (c : Context) (endTag : Bool) (h : At text i cs) :
    Reads text (nameAt c endTag (utf8 text) i)
      (match cs with
        | [] => some (c.startTag endTag, [])
        | x :: rest => if isLetter x then some (c.startTag endTag, x :: rest) else none) := by
  rw [nameAt]
  cases cs with
  | nil =>
    rw [h.byteAt?_nil]
    exact .some (.ending text)
  | cons x rest =>
    obtain ⟨y, hy, stands⟩ := h.byteAt?_cons
    rw [hy]
    simp only [stands.same ascii_isLetter.flat]
    split
    · exact .some h
    · exact .none

theorem openedAt_reads (c : Context) {lt : Nat} {rest : List Char} (h : At text lt ('<' :: rest)) :
    ∃ opened, openedAt c (utf8 text) lt = some opened ∧ Reads text opened (c.opened? rest) := by
  have there : At text (lt + 1) rest := h.next (by decide)
  have slash := there.byteAt?_eq_iff (x := '/') (by decide)
  have comment : startsWith ['<', '!', '-', '-'] (utf8 ('<' :: rest)) =
      ['<', '!', '-', '-'].isPrefixOf ('<' :: rest) :=
    startsWith_utf8 (ascii_of_all (by decide)) _
  rw [openedAt, h.from?_eq]
  simp only [Option.bind_eq_bind, Option.bind_some, comment, slash]
  by_cases hcomment : ['<', '!', '-', '-'].isPrefixOf ('<' :: rest) = true
  · obtain ⟨tail, htail⟩ := List.isPrefixOf_iff_prefix.mp hcomment
    obtain rfl : '!' :: '-' :: '-' :: tail = rest := (List.cons.inj htail).2
    have sign : At text lt (['<', '!', '-', '-'] ++ tail) := h
    rw [if_pos hcomment]
    exact ⟨_, rfl, .some (sign.forward_ascii (ascii_of_all (by decide)))⟩
  rw [if_neg hcomment]
  by_cases hslash : rest.head? = some '/'
  · obtain ⟨tail, rfl⟩ := List.head?_eq_some_iff.mp hslash
    have named := nameAt_reads c true (there.next (by decide))
    rw [if_pos hslash]
    cases tail with
    | nil => exact ⟨_, rfl, named⟩
    | cons x rest => exact ⟨_, rfl, named⟩
  · have named := nameAt_reads c false there
    rw [if_neg hslash]
    cases rest with
    | nil => exact ⟨_, rfl, named⟩
    | cons x tail =>
      refine ⟨_, rfl, ?_⟩
      by_cases hbang : x = '!'
      · subst hbang
        have other : ¬ ['-', '-'].isPrefixOf tail = true := by simpa using hcomment
        rw [Context.opened?_bang, if_neg other]
        exact named
      · rw [Context.opened?_other (fun hx => hslash (by rw [hx]; rfl)) hbang tail]
        exact named

theorem textStep_comes (c : Context) (h : At text i cs) :
    Comes text (textStep c (utf8 text) i) (c.textStep cs) := by
  induction hn : cs.length using Nat.strongRecOn generalizing i cs with
  | _ n ih =>
    subst hn
    rw [textStep, textStep_dropWhile]
    rcases findByte_cases h (ascii_beq (x := '<') (by decide)).flat with
      ⟨found, hrest⟩ | ⟨x, rest, hrest, hx, found, there⟩
    · rw [found, hrest]
      exact ⟨_, rfl, .ending text⟩
    · obtain rfl : x = '<' := beq_iff_eq.mp hx
      obtain ⟨opened, hopened, reads⟩ := openedAt_reads c there
      have shorter : rest.length < cs.length := by
        have := (List.dropWhile_sublist (fun x => !(x == '<')) (l := cs)).length_le
        rw [hrest, List.length_cons] at this
        omega
      rw [found, hrest, Context.textStep, if_pos rfl]
      simp only [Option.bind_eq_bind, Option.bind_some, hopened]
      generalize c.opened? rest = wanted at reads
      cases reads with
      | none => exact ih _ shorter (there.next (by decide)) rfl
      | some behind => exact ⟨_, rfl, behind⟩

/-! ## Tags -/

theorem chars?_utf8 (cs : List Char) : chars? (utf8 cs) = some cs := by
  have valid : (utf8 cs).toByteArray.IsValidUTF8 := ByteArray.isValidUTF8_utf8Encode
  have read : String.fromUTF8? (utf8 cs).toByteArray = some (String.ofList cs) := dif_pos valid
  rw [chars?, read, Option.map_some, String.toList_ofList]

/-- Behind a name, a step goes on in the next context, unless the text has ended. -/
theorem name_comes {p : Char → Bool} (hp : Flat p) (h : At text i cs) (c next : Context) :
    Comes text
      (if i + (utf8 (cs.takeWhile p)).length = (utf8 text).length then
        some (c, i + (utf8 (cs.takeWhile p)).length)
      else some (next, i + (utf8 (cs.takeWhile p)).length))
      (match cs.dropWhile p with
        | [] => (c, [])
        | rest => (next, rest)) := by
  rcases h.behindRun hp with ⟨hrest, -, there⟩ | ⟨x, rest, y, hrest, -, -, there⟩
  · rw [hrest, if_pos there.eq_end]
    exact ⟨_, rfl, there⟩
  · have inside := there.lt_iff.mpr (List.cons_ne_nil x rest)
    rw [hrest, if_neg (Nat.ne_of_lt inside)]
    exact ⟨_, rfl, there⟩

theorem tagNameStep_comes (c : Context) (h : At text i cs) :
    Comes text (tagNameStep c (utf8 text) i) (c.tagNameStep cs) := by
  obtain ⟨run, name, -⟩ := h.run ascii_isTagNamePart.flat
  rw [tagNameStep, h.from?_eq, Context.tagNameStep]
  simp only [Option.bind_eq_bind, Option.bind_some, run, name, chars?_utf8, drop_takeWhile]
  exact name_comes ascii_isTagNamePart.flat h _ _

theorem attrNameStep_comes (c : Context) (h : At text i cs) :
    Comes text (attrNameStep c (utf8 text) i) (c.attrNameStep cs) := by
  obtain ⟨run, name, -⟩ := h.run flat_isAttrNamePart
  rw [attrNameStep, h.from?_eq, Context.attrNameStep]
  simp only [Option.bind_eq_bind, Option.bind_some, run, name, chars?_utf8, drop_takeWhile]
  exact name_comes flat_isAttrNamePart h _ _

theorem tagStep_comes (c : Context) (h : At text i cs) :
    Comes text (tagStep c (utf8 text) i) (c.tagStep cs) := by
  have run := (h.run ascii_isTagFiller.flat).1
  rw [tagStep, h.from?_eq, Context.tagStep]
  simp only [Option.bind_eq_bind, Option.bind_some, run]
  rcases h.behindRun ascii_isTagFiller.flat with
    ⟨hrest, hbyte, there⟩ | ⟨x, rest, y, hrest, hbyte, stands, there⟩
  · rw [hrest, hbyte]
    exact ⟨_, rfl, there⟩
  · rw [hrest, hbyte]
    simp only [stands.eq_iff (y := '>') (by decide)]
    split
    · next hend =>
      subst hend
      exact ⟨_, rfl, there.next (by decide)⟩
    · exact ⟨_, rfl, there⟩

theorem afterNameStep_comes (c : Context) (h : At text i cs) :
    Comes text (afterNameStep c (utf8 text) i) (c.afterNameStep cs) := by
  have run := (h.run ascii_isSpace.flat).1
  rw [afterNameStep, h.from?_eq, Context.afterNameStep]
  simp only [Option.bind_eq_bind, Option.bind_some, run]
  rcases h.behindRun ascii_isSpace.flat with
    ⟨hrest, hbyte, there⟩ | ⟨x, rest, y, hrest, hbyte, stands, there⟩
  · rw [hrest, hbyte]
    exact ⟨_, rfl, there⟩
  · rw [hrest, hbyte]
    simp only [stands.eq_iff (y := '=') (by decide)]
    split
    · next heq =>
      subst heq
      exact ⟨_, rfl, there.next (by decide)⟩
    · exact ⟨_, rfl, there⟩

theorem beforeValueStep_comes (c : Context) (h : At text i cs) :
    Comes text (beforeValueStep c (utf8 text) i) (c.beforeValueStep cs) := by
  have run := (h.run ascii_isSpace.flat).1
  rw [beforeValueStep, h.from?_eq, Context.beforeValueStep]
  simp only [Option.bind_eq_bind, Option.bind_some, run]
  rcases h.behindRun ascii_isSpace.flat with
    ⟨hrest, hbyte, there⟩ | ⟨x, rest, y, hrest, hbyte, stands, there⟩
  · rw [hrest, hbyte]
    exact ⟨_, rfl, there⟩
  · have close : y = '>' ↔ x = '>' := stands.eq_iff (by decide)
    have double : y = '"' ↔ x = '"' := stands.eq_iff (by decide)
    have single : y = '\'' ↔ x = '\'' := stands.eq_iff (by decide)
    rw [hrest, hbyte]
    simp only [close, double, single]
    split
    · exact ⟨_, rfl, there⟩
    split
    · next hdouble =>
      subst hdouble
      exact ⟨_, rfl, there.next (by decide)⟩
    split
    · next hsingle =>
      subst hsingle
      exact ⟨_, rfl, there.next (by decide)⟩
    · exact ⟨_, rfl, there⟩

theorem commentStep_comes (c : Context) (h : At text i cs) :
    Comes text (commentStep c (utf8 text) i) (c.commentStep cs) :=
  leave_comes (findPattern_found ['-', '-', '>'] (ascii_of_all (by decide)) nofun h) _ _

/-! ## All steps -/

/-- Every step has a result, and it comes to where the step over characters comes. -/
theorem step_comes (c : Context) (h : At text i cs) :
    Comes text (step c (utf8 text) i) (c.step cs) := by
  have inner : Comes text (do
      let rest ← from? (utf8 text) i
      let inner ← advanceInner c rest
      return (inner, (utf8 text).length)) (c.advanceInner cs, []) := by
    simp only [Option.bind_eq_bind, h.from?_eq, Option.bind_some, advanceInner_utf8]
    exact ⟨_, rfl, .ending text⟩
  unfold step Context.step
  split
  · exact valueStep_comes c h
  split
  · exact bodyStep_comes c h
  cases c.state with
  | text => exact textStep_comes c h
  | tagName => exact tagNameStep_comes c h
  | tag => exact tagStep_comes c h
  | attrName => exact attrNameStep_comes c h
  | afterName => exact afterNameStep_comes c h
  | beforeValue => exact beforeValueStep_comes c h
  | comment => exact commentStep_comes c h
  | _ => exact inner

end Indexed

end Stencil.Markup
