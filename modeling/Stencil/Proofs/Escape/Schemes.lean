import Mathlib.Data.List.TakeWhile
import Stencil.Proofs.Escape.InPlace

/-!
# Schemes of addresses

A reader of an address takes its scheme from the first characters: a letter and further parts of a
name, up to a colon (`leadingScheme?`). The filter for addresses judges something else, whatever
stands before the first colon of the raw text, without the blanks around it; and it judges it before
the address is percent-encoded, written as the value of an attribute and read back from there.

No later stage makes a scheme or moves a colon (`leadingScheme?_urlNormalize`,
`Markup.Delim.leadingScheme?_read`), so an output that starts an address has the scheme of the
printed value if that one is safe, and none otherwise (`Markup.Context.scheme_of_output`).
-/

set_option autoImplicit false

namespace Stencil.Escape

open Stencil.Text

/-- What the name of a scheme consists of. -/
def isSchemePart (c : Char) : Bool :=
  isAlphanumeric c || c == '+' || c == '-' || c == '.'

/-- The scheme that an address begins with: a letter and further parts of a name, up to a colon. -/
def leadingScheme? (cs : List Char) : Option (List Char) :=
  let name := cs.takeWhile isSchemePart
  if name.head?.any isLetter ∧ (cs.drop name.length).head? = some ':' then some name else none

/-- Whether a scheme, in letters of either case, is one that an address may have. -/
def isSafeScheme (scheme : List Char) : Bool :=
  String.ofList (scheme.map lower) ∈ safeSchemes

variable {x : Char} {cs s : List Char}

theorem leadingScheme?_eq_some : leadingScheme? cs = some s ↔
    (∀ x ∈ s, isSchemePart x = true) ∧ s.head?.any isLetter = true ∧ s ++ [':'] <+: cs := by
  unfold leadingScheme?
  dsimp only
  constructor
  · intro h
    split at h
    · next hname =>
      cases h
      obtain ⟨hletter, hcolon⟩ := hname
      rw [drop_takeWhile] at hcolon
      obtain ⟨rest, hrest⟩ := List.head?_eq_some_iff.mp hcolon
      refine ⟨fun x => List.mem_takeWhile_imp, hletter, rest, ?_⟩
      rw [List.append_assoc, List.singleton_append, ← hrest, List.takeWhile_append_dropWhile]
    · cases h
  · rintro ⟨hparts, hletter, rest, rfl⟩
    have ends : (':' :: rest).head?.any isSchemePart = false := rfl
    rw [List.append_assoc, List.singleton_append, takeWhile_run hparts ends, List.drop_left]
    exact if_pos ⟨hletter, rfl⟩

/-! ## The filter -/

theorem bounds_of_isSchemePart (h : isSchemePart x = true) : 0x2b ≤ x.toNat ∧ x.toNat ≤ 0x7a := by
  simp only [isSchemePart, isAlphanumeric, isLetter, isDigit, Bool.or_eq_true, Bool.and_eq_true,
    decide_eq_true_eq, beq_iff_eq, Char.le_def, UInt32.le_iff_toNat_le, Char.reduceVal,
    UInt32.reduceToNat] at h
  rcases h with ((((h | h) | h) | rfl) | rfl) | rfl
  case inr | inl.inr | inl.inl.inr => decide
  all_goals
    simp only [Char.toNat]
    omega

theorem isWhiteSpace_of_isSchemePart (h : isSchemePart x = true) : isWhiteSpace x = false := by
  have bounds := bounds_of_isSchemePart h
  apply Bool.eq_false_iff.mpr
  simp only [isWhiteSpace, ne_eq, Bool.or_eq_true, Bool.and_eq_true, decide_eq_true_eq, beq_iff_eq]
  omega

/-- A text is not shortened where it has nothing to trim. -/
theorem trim_of_forall {p : Char → Bool} (h : ∀ x ∈ cs, p x = false) : trim p cs = cs := by
  have kept := trim_around [] [] (fun x hx => h x (List.mem_of_mem_head? hx))
    (fun x hx => h x (List.mem_of_mem_getLast? hx)) nofun nofun
  rwa [List.nil_append, List.append_nil] at kept

theorem cut_of_not_mem {c : Char} {before : List Char} (h : c ∉ before) (after : List Char) :
    cut [c] (before ++ c :: after) = some (before, after) := by
  induction before with
  | nil => simp [cut, List.isPrefixOf]
  | cons x rest ih =>
    rw [List.mem_cons, not_or] at h
    rw [List.cons_append, cut, ih h.2, if_neg (by simp [List.isPrefixOf, h.1])]
    rfl

/-- The filter judges the scheme that an address begins with, if it begins with one. -/
theorem scheme?_of_leadingScheme? (h : leadingScheme? cs = some s) :
    scheme? cs = some s ∧ trim isWhiteSpace s = s := by
  obtain ⟨hparts, -, rest, rfl⟩ := leadingScheme?_eq_some.mp h
  have other {c : Char} (hc : isSchemePart c = false) : c ∉ s := by
    intro hmem
    rw [hparts c hmem] at hc
    cases hc
  refine ⟨?_, trim_of_forall fun x hx => isWhiteSpace_of_isSchemePart (hparts x hx)⟩
  unfold scheme?
  rw [List.append_assoc, List.singleton_append, cut_of_not_mem (other (by decide))]
  dsimp only
  rw [if_neg]
  simp only [List.any_eq_true, Bool.or_eq_true, beq_iff_eq, not_exists, not_and, not_or]
  intro x hx
  refine ⟨⟨?_, ?_⟩, ?_⟩
  all_goals
    rintro rfl
    exact other (by decide) hx

/-- The filter keeps the scheme of an address that it does not refuse, and a refused one has
none. -/
theorem leadingScheme?_urlFilter (cs : List Char) :
    leadingScheme? (urlFilter cs) = (leadingScheme? cs).filter isSafeScheme := by
  have refused : leadingScheme? ('#' :: refused) = none := by decide
  unfold urlFilter
  cases h : leadingScheme? cs with
  | none =>
    rw [Option.filter_none]
    split
    · split
      · exact h
      · exact refused
    · exact h
  | some s =>
    obtain ⟨hscheme, htrim⟩ := scheme?_of_leadingScheme? h
    rw [hscheme, Option.filter_some]
    dsimp only
    rw [htrim]
    by_cases hsafe : String.ofList (s.map lower) ∈ safeSchemes
    · rw [if_pos hsafe, isSafeScheme, if_pos (decide_eq_true hsafe)]
      exact h
    · rw [if_neg hsafe, isSafeScheme, if_neg (by simpa using hsafe)]
      exact refused

/-! ## Percent escapes -/

section

variable {keeps : Char → Bool} {start : List Char}

/-- What an address begins with up to its first percent sign, the raw text begins with. -/
theorem prefix_of_prefix_percentEncode (h : start <+: percentEncode keeps cs)
    (hp : '%' ∉ start) : start <+: cs := by
  induction cs generalizing start with
  | nil => exact h
  | cons c cs ih =>
    cases start with
    | nil => exact List.nil_prefix
    | cons x start =>
      rw [List.mem_cons, not_or] at hp
      rw [percentEncode, List.flatMap_cons, ← percentEncode] at h
      split at h
      · rw [List.singleton_append, List.cons_prefix_cons] at h
        exact List.cons_prefix_cons.mpr ⟨h.1, ih h.2 hp.2⟩
      · -- an escape begins with the sign
        obtain ⟨b, bytes, hbytes⟩ :=
          List.exists_cons_of_ne_nil (String.utf8EncodeChar_ne_nil (c := c))
        rw [hbytes, List.flatMap_cons, percent, List.cons_append, List.cons_append,
          List.cons_prefix_cons] at h
        exact absurd h.1.symm hp.1

theorem prefix_percentEncode (h : start <+: cs) (hk : ∀ x ∈ start, keeps x = true) :
    start <+: percentEncode keeps cs := by
  obtain ⟨rest, rfl⟩ := h
  induction start with
  | nil => exact List.nil_prefix
  | cons x start ih =>
    obtain ⟨hx, hstart⟩ := List.forall_mem_cons.mp hk
    rw [List.cons_append, percentEncode, List.flatMap_cons, if_pos hx]
    exact List.cons_prefix_cons.mpr ⟨rfl, ih hstart⟩

end

theorem kept_of_isSchemePart (h : isSchemePart x = true) :
    (isUnreserved x || isReserved x) = true := by
  simp only [isSchemePart, Bool.or_eq_true, beq_iff_eq] at h
  rcases h with ((h | rfl) | rfl) | rfl
  · simp [isUnreserved, h]
  all_goals decide

/-- Percent escapes neither make a scheme nor break one up. -/
theorem leadingScheme?_urlNormalize (cs : List Char) :
    leadingScheme? (urlNormalize cs) = leadingScheme? cs := by
  ext s
  rw [leadingScheme?_eq_some, leadingScheme?_eq_some]
  refine and_congr_right fun hparts => and_congr_right fun _ => ⟨fun h => ?_, fun h => ?_⟩
  · refine prefix_of_prefix_percentEncode h ?_
    intro hmem
    rcases List.mem_append.mp hmem with hmem | hmem
    · exact absurd (hparts _ hmem) (by decide)
    · exact absurd hmem (by decide)
  · refine prefix_percentEncode h ?_
    intro x hx
    rcases List.mem_append.mp hx with hx | hx
    · exact kept_of_isSchemePart (hparts x hx)
    · rw [List.mem_singleton.mp hx]
      decide

end Stencil.Escape

namespace Stencil.Markup

open Stencil.Escape Stencil.Text

/-- What a reader of the document finds where a text is written: in a value, the text without its
character references. -/
def Delim.read (d : Delim) (cs : List Char) : List Char :=
  if d = .none then cs else decodeEntities cs

/-- A value is read with the scheme that was written into it. -/
theorem Delim.leadingScheme?_read (d : Delim) {inner : List Escaper} {v : Value}
    (hnull : '\x00' ∉ Escaper.apply inner v) :
    leadingScheme? (d.read (Escaper.apply (inner ++ d.escapers) v)) =
      leadingScheme? (Escaper.apply inner v) := by
  cases d with
  | none => rw [Delim.read, if_pos rfl, Delim.escapers, List.append_nil]
  | doubleQuote | singleQuote =>
    rw [Delim.read, if_neg (by decide), Delim.escapers, apply_htmlAttr, decodeEntities_htmlAttr,
      map_withoutNull hnull]
  | spaceOrTagEnd =>
    rw [Delim.read, if_neg (by decide), Delim.escapers, apply_htmlAttrUnquoted]
    by_cases hempty : Escaper.apply inner v = []
    · rw [hempty, decodeEntities_refused]
      rfl
    · rw [decodeEntities_htmlAttrUnquoted hempty, map_withoutNull hnull]

namespace Context

variable {c : Context}

theorem escapers_of_isAddress (hs : c.state.isAddress = true) (hpart : c.urlPart = .none) :
    c.escapers = .ok ([.urlFilter, .urlNormalize] ++ c.delim.escapers) := by
  obtain ⟨hinner, hcomment⟩ : c.innerEscapers = .ok [.urlFilter, .urlNormalize] ∧
      c.inComment = false := by
    unfold innerEscapers inComment
    cases hc : c.state
    all_goals rw [hc] at hs
    case url | cssUrl | cssDoubleQuotedUrl | cssSingleQuotedUrl =>
      rw [hpart]
      exact ⟨rfl, rfl⟩
    all_goals cases hs
  exact escapers_eq_ok.mpr ⟨_, hinner, by rw [hcomment]; rfl⟩

/-- No foreign scheme comes through an output that starts an address. What is read where it is
written begins with the scheme that the printed value begins with, if that is one of the safe ones,
and with none otherwise. -/
theorem scheme_of_output (hs : c.nudge.state.isAddress = true) (hpart : c.nudge.urlPart = .none) :
    ∃ rules, c.nudge.escapers = .ok rules ∧ ∀ v : Value,
      leadingScheme? (c.nudge.delim.read (Escaper.apply rules v)) =
        (leadingScheme? v.chars).filter isSafeScheme ∧
      ∀ s, leadingScheme? (c.nudge.delim.read (Escaper.apply rules v)) = some s →
        String.ofList (s.map lower) ∈ ["http", "https", "mailto"] := by
  refine ⟨_, escapers_of_isAddress hs hpart, fun v => ?_⟩
  have address : Escaper.apply [.urlFilter, .urlNormalize] v = urlNormalize (urlFilter v.chars) :=
    rfl
  have hnull : '\x00' ∉ Escaper.apply [.urlFilter, .urlNormalize] v :=
    not_mem_apply_of_urlPart (c := { urlPart := .none }) rfl v (by decide)
  have same : leadingScheme? (c.nudge.delim.read
      (Escaper.apply ([.urlFilter, .urlNormalize] ++ c.nudge.delim.escapers) v)) =
      (leadingScheme? v.chars).filter isSafeScheme := by
    rw [Delim.leadingScheme?_read _ hnull, address, leadingScheme?_urlNormalize,
      leadingScheme?_urlFilter]
  refine ⟨same, fun s h => ?_⟩
  rw [same, Option.filter_eq_some_iff] at h
  exact of_decide_eq_true h.2

/-- Right behind an equals sign, script code is refused and a page is not. -/
theorem scheme_of_output_unquoted :
    let c := Context.start.advance "<a href=".toList
    ∃ rules, c.nudge.escapers = .ok rules ∧
      leadingScheme? (c.nudge.delim.read
        (Escaper.apply rules (.string "JavaScript:alert(1)"))) = none ∧
      leadingScheme? (c.nudge.delim.read
        (Escaper.apply rules (.string "HTTPS://host/a=b c"))) = some "HTTPS".toList := by
  have opened : Context.start.advance "<a href=".toList =
      { state := .beforeValue, attr := .url } := by decide +kernel
  obtain ⟨rules, hrules, hread⟩ := scheme_of_output
    (c := Context.start.advance "<a href=".toList) (by rw [opened]; rfl) (by rw [opened]; rfl)
  refine ⟨rules, hrules, ?_, ?_⟩
  · rw [(hread _).1]
    decide +kernel
  · rw [(hread _).1]
    decide +kernel

end Context

end Stencil.Markup
