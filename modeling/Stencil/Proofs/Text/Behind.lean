import Mathlib.Data.List.TakeWhile
import Stencil.Text.Cut

/-!
# Texts with more text behind them

What a cut or a run finds in a text, it finds there when more text follows (`cut_append`,
`run_cases`). What it does not find, it finds in the text behind, unless the pattern starts in the
one and ends in the other (`straddles`, `cut_append_of_none`).
-/

set_option autoImplicit false

namespace Stencil.Text

/-- Behind what is cut off and the pattern stands the rest. -/
theorem drop_of_cut {pattern cs before after : List Char}
    (h : cut pattern cs = some (before, after)) (n : Nat) :
    cs.drop (before.length + pattern.length + n) = after.drop n := by
  rw [← List.drop_drop, ← List.drop_drop, eq_of_cut h, List.append_assoc, List.drop_left,
    List.drop_left]

/-- The same behind characters that are skipped before the cut. -/
theorem drop_of_cut_drop {pattern cs before after : List Char} {skipped : Nat}
    (h : cut pattern (cs.drop skipped) = some (before, after)) (n : Nat) :
    cs.drop (skipped + before.length + pattern.length + n) = after.drop n := by
  rw [Nat.add_assoc skipped, Nat.add_assoc skipped, ← List.drop_drop, drop_of_cut h]

/-- What is cut off at a pattern is cut off when more follows. -/
theorem cut_append {pattern cs before after : List Char} (h : cut pattern cs = some (before, after))
    (more : List Char) : cut pattern (cs ++ more) = some (before, after ++ more) := by
  induction cs generalizing before with
  | nil =>
    rw [cut] at h
    split at h
    · next hp =>
      cases h
      subst hp
      cases more <;> rfl
    · cases h
  | cons c r ih =>
    rw [cut] at h
    rw [List.cons_append, cut]
    split at h
    · next hp =>
      cases h
      have longer : pattern.isPrefixOf (c :: (r ++ more)) = true :=
        List.isPrefixOf_iff_prefix.mpr
          ((List.isPrefixOf_iff_prefix.mp hp).trans (List.prefix_append (c :: r) more))
      rw [if_pos longer, ← List.cons_append,
        List.drop_append_of_le_length (List.isPrefixOf_iff_prefix.mp hp).length_le]
    · next hp =>
      obtain ⟨⟨b, a⟩, hba, heq⟩ := Option.map_eq_some_iff.mp h
      cases heq
      -- the pattern cannot start here and end behind, since it ends in what is cut
      have shorter : ¬ pattern.isPrefixOf (c :: (r ++ more)) = true := by
        intro hprefix
        have fits : pattern.length ≤ (c :: r).length := by
          have := length_of_cut hba
          simp only [List.length_cons]
          omega
        have := List.prefix_of_prefix_length_le (List.isPrefixOf_iff_prefix.mp hprefix)
          (List.prefix_append (c :: r) more) fits
        exact hp (List.isPrefixOf_iff_prefix.mpr this)
      rw [if_neg shorter, ih hba]
      rfl

/-- A pattern that a text does not hold is not found. -/
theorem cut_eq_none {pattern cs : List Char} (h : ¬ pattern <:+: cs) : cut pattern cs = none := by
  cases hcut : cut pattern cs with
  | none => rfl
  | some parts => exact absurd ⟨parts.1, parts.2, (eq_of_cut hcut).symm⟩ h

/-- A pattern that a text holds is found. -/
theorem cut_ne_none {pattern cs : List Char} (h : pattern <:+: cs) : cut pattern cs ≠ none := by
  obtain ⟨before, after, rfl⟩ := h
  rw [List.append_assoc]
  induction before with
  | nil =>
    cases hcs : pattern ++ after with
    | nil => simp [cut, (List.append_eq_nil_iff.mp hcs).1]
    | cons c rest =>
      rw [List.nil_append, cut,
        if_pos (List.isPrefixOf_iff_prefix.mpr ⟨after, hcs⟩)]
      exact Option.some_ne_none _
  | cons c before ih =>
    rw [List.cons_append, cut]
    split
    · exact Option.some_ne_none _
    · exact fun hnone => ih (Option.map_eq_none_iff.mp hnone)

/-- The text before the first occurrence of a pattern does not hold it. -/
theorem not_infix_of_cut {pattern cs before after : List Char} (hne : pattern ≠ [])
    (h : cut pattern cs = some (before, after)) : ¬ pattern <:+: before := by
  intro hinfix
  obtain ⟨⟨b, a⟩, hba⟩ := Option.ne_none_iff_exists'.mp (cut_ne_none hinfix)
  -- the pattern would be found earlier in the whole text
  have earlier := cut_append hba (pattern ++ after)
  rw [← List.append_assoc, ← eq_of_cut h, h] at earlier
  obtain ⟨rfl, -⟩ := Prod.mk.inj (Option.some.inj earlier)
  have count := length_of_cut hba
  have positive := List.length_pos_iff.mpr hne
  omega

/-- A pattern of a character that a class lacks is found behind a run of the class. -/
theorem cut_dropWhile_ne_none {p : Char → Bool} {x : Char} {pattern : List Char} (hx : p x = false)
    {cs : List Char} (h : cut (x :: pattern) cs ≠ none) :
    cut (x :: pattern) (cs.dropWhile p) ≠ none := by
  induction cs with
  | nil => exact h
  | cons c rest ih =>
    by_cases hc : p c = true
    · rw [List.dropWhile_cons_of_pos hc]
      refine ih fun hnone => h ?_
      have other : ¬ (x :: pattern).isPrefixOf (c :: rest) = true := by
        intro hprefix
        obtain ⟨tail, heq⟩ := List.isPrefixOf_iff_prefix.mp hprefix
        rw [← (List.cons.inj heq).1, hx] at hc
        cases hc
      rw [cut, if_neg other, hnone, Option.map_none]
    · rwa [List.dropWhile_cons_of_neg hc]

/-- Whether a pattern could start in a text and end in the text behind it. -/
def straddles (pattern cs more : List Char) : Bool :=
  (List.range pattern.length).any fun n =>
    0 < n && (pattern.take n).isSuffixOf cs && (pattern.drop n).isPrefixOf more

theorem straddles_cons_eq_false {pattern cs more : List Char} {c : Char}
    (h : straddles pattern (c :: cs) more = false) : straddles pattern cs more = false := by
  rw [straddles, List.any_eq_false] at h ⊢
  intro n hn hstraddles
  simp only [Bool.and_eq_true, List.isSuffixOf_iff_suffix] at hstraddles
  refine h n hn ?_
  simp only [Bool.and_eq_true, List.isSuffixOf_iff_suffix]
  exact ⟨⟨hstraddles.1.1, hstraddles.1.2.trans (List.suffix_cons c cs)⟩, hstraddles.2⟩

/-- A pattern that starts a text and the text behind it starts the one, or straddles. -/
theorem prefix_or_straddles {pattern cs more : List Char} (hcs : cs ≠ [])
    (h : pattern <+: cs ++ more) : pattern <+: cs ∨ straddles pattern cs more = true := by
  by_cases hlen : pattern.length ≤ cs.length
  · exact .inl (List.prefix_of_prefix_length_le h (List.prefix_append cs more) hlen)
  · obtain ⟨tail, htail⟩ := h
    have split : pattern = cs ++ pattern.drop cs.length := by
      have := congrArg (List.take pattern.length) htail
      rw [List.take_left, List.take_append, List.take_of_length_le (by omega)] at this
      rw [this, List.drop_left]
    have take : pattern.take cs.length = cs := by
      rw [split, List.take_left]
    have drop : pattern.drop cs.length <+: more := by
      refine ⟨tail, ?_⟩
      rw [split, List.append_assoc] at htail
      exact List.append_cancel_left htail
    have positive := List.length_pos_iff.mpr hcs
    refine .inr (List.any_eq_true.mpr ⟨cs.length, List.mem_range.mpr (by omega), ?_⟩)
    rw [take]
    simp only [Bool.and_eq_true, decide_eq_true_eq, List.isSuffixOf_iff_suffix,
      List.isPrefixOf_iff_prefix]
    exact ⟨⟨positive, List.suffix_rfl⟩, drop⟩

/-- A pattern of two characters straddles where the one text ends in the first and the other starts
with the second. -/
theorem straddles_pair_eq_false {x y : Char} {cs more : List Char}
    (h : cs.getLast? = some x → more.head? ≠ some y) : straddles [x, y] cs more = false := by
  rw [straddles, List.any_eq_false]
  intro n hn hstraddles
  have two : n < 2 := List.mem_range.mp hn
  simp only [Bool.and_eq_true, decide_eq_true_eq, List.isSuffixOf_iff_suffix,
    List.isPrefixOf_iff_prefix] at hstraddles
  obtain ⟨⟨positive, before, rfl⟩, after, rfl⟩ := hstraddles
  obtain rfl : n = 1 := by omega
  exact h (by simp) rfl

/-- A pattern that a text does not hold, and that does not straddle its end, is found where it is
found behind the text. -/
theorem cut_append_of_none {pattern cs more : List Char} (h : cut pattern cs = none)
    (apart : straddles pattern cs more = false) :
    cut pattern (cs ++ more) = (cut pattern more).map fun parts => (cs ++ parts.1, parts.2) := by
  induction cs with
  | nil => simp
  | cons c rest ih =>
    rw [cut] at h
    split at h
    · cases h
    · next hprefix =>
      have other : ¬ pattern.isPrefixOf (c :: (rest ++ more)) = true := by
        intro hp
        rcases prefix_or_straddles (List.cons_ne_nil c rest) (List.isPrefixOf_iff_prefix.mp hp) with
          here | hstraddles
        · exact hprefix (List.isPrefixOf_iff_prefix.mpr here)
        · rw [apart] at hstraddles
          cases hstraddles
      rw [List.cons_append, cut, if_neg other,
        ih (Option.map_eq_none_iff.mp h) (straddles_cons_eq_false apart), Option.map_map]
      rfl

theorem takeWhile_append {p : Char → Bool} {cs : List Char}
    (h : (cs.takeWhile p).length < cs.length) (more : List Char) :
    (cs ++ more).takeWhile p = cs.takeWhile p := by
  rw [List.takeWhile_append, if_neg (Nat.ne_of_lt h)]

/-- A run ends in a text, or goes on in the text behind it. -/
theorem run_cases (p : Char → Bool) (cs more : List Char) :
    cs.dropWhile p ≠ [] ∧ (cs ++ more).takeWhile p = cs.takeWhile p ∧
        (cs ++ more).dropWhile p = cs.dropWhile p ++ more ∨
      cs.dropWhile p = [] ∧ cs.takeWhile p = cs ∧
        (cs ++ more).takeWhile p = cs ++ more.takeWhile p ∧
          (cs ++ more).dropWhile p = more.dropWhile p := by
  by_cases h : cs.dropWhile p = []
  · have all := List.dropWhile_eq_nil_iff.mp h
    refine .inr ⟨h, List.takeWhile_eq_self_iff.mpr all, ?_, ?_⟩
    · exact List.takeWhile_append_of_pos all
    · exact List.dropWhile_append_of_pos all
  · have count := congrArg List.length (List.takeWhile_append_dropWhile (p := p) (l := cs))
    have positive := List.length_pos_iff.mpr h
    rw [List.length_append] at count
    refine .inl ⟨h, takeWhile_append (by omega) more, ?_⟩
    rw [List.dropWhile_append, if_neg (by simpa using h)]

/-- A run ends in a text if the text holds more than the run, or the text behind it starts with
something else. -/
theorem takeWhile_append_apart {p : Char → Bool} {cs more : List Char}
    (h : cs.all p = false ∨ more.head?.any p = false) :
    (cs ++ more).takeWhile p = cs.takeWhile p := by
  rcases run_cases p cs more with ⟨-, htake, -⟩ | ⟨hdrop, hall, htake, -⟩
  · exact htake
  · have all : cs.all p = true := by
      rw [← hall]
      simp
    rcases h with hcs | hmore
    · rw [all] at hcs
      cases hcs
    · have none : more.takeWhile p = [] := by
        cases more with
        | nil => rfl
        | cons x xs => exact List.takeWhile_cons_of_neg (by simpa using hmore)
      rw [htake, none, List.append_nil, hall]

/-- A text that holds a character of a class, up to the first one. -/
theorem exists_first {p : Char → Bool} {cs : List Char} (h : cs.any p = true) :
    ∃ run d rest, cs = run ++ d :: rest ∧ (∀ x ∈ run, p x = false) ∧ p d = true := by
  induction cs with
  | nil => cases h
  | cons x xs ih =>
    by_cases hx : p x = true
    · exact ⟨[], x, xs, rfl, nofun, hx⟩
    · have hx : p x = false := by simpa using hx
      rw [List.any_cons, hx, Bool.false_or] at h
      obtain ⟨run, d, rest, rfl, hrun, hd⟩ := ih h
      exact ⟨x :: run, d, rest, rfl, List.forall_mem_cons.mpr ⟨hx, hrun⟩, hd⟩

end Stencil.Text
