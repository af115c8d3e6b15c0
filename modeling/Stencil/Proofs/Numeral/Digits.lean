import Stencil.Numeral.Layout

/-!
# The characters of numerals

A numeral holds digits of its base and nothing else, whatever its width (`natural_subset`,
`hexadecimal_subset`); an integer has at most a minus sign before them. A spelled float holds
decimal digits, a point and the parts of an exponent (`spell_subset`).
-/

set_option autoImplicit false

namespace Stencil.Numeral

/-- The digits of a base. -/
def digits (base : Nat) : List Char := (List.range base).map digit

/-- The characters of a finite float. -/
def floatParts : List Char := ['.', 'e', '+', '-'] ++ digits 10

theorem digit_mem_digits {base d : Nat} (h : d < base) : digit d ∈ digits base :=
  List.mem_map.mpr ⟨d, List.mem_range.mpr h, rfl⟩

theorem natural_subset {base : Nat} (low : 2 ≤ base) (n : Nat) : natural base n ⊆ digits base := by
  fun_induction natural base n with
  | case1 n hn => exact List.cons_subset.mpr ⟨digit_mem_digits (by omega), List.nil_subset _⟩
  | case2 n hn ih =>
    apply List.append_subset.mpr
    refine ⟨ih, List.cons_subset.mpr ⟨?_, List.nil_subset _⟩⟩
    exact digit_mem_digits (Nat.mod_lt _ (by omega))

/-- Zeros that fill up a numeral are digits too. -/
theorem zeros_subset (k : Nat) {base : Nat} (low : 2 ≤ base) :
    List.replicate k '0' ⊆ digits base :=
  List.replicate_subset.mpr (.inr (digit_mem_digits (d := 0) (by omega)))

theorem hexadecimal_subset (width n : Nat) : hexadecimal width n ⊆ digits 16 := by
  unfold hexadecimal
  exact List.append_subset.mpr ⟨zeros_subset _ (by omega), natural_subset (by omega) n⟩

theorem decimal_subset (n : Nat) : decimal n ⊆ digits 10 :=
  natural_subset (by omega) n

theorem integer_subset (n : Int) : integer n ⊆ '-' :: digits 10 := by
  have digits (n : Nat) : decimal n ⊆ '-' :: digits 10 :=
    List.Subset.trans (decimal_subset n) (List.subset_cons_self ..)
  unfold integer
  split
  · exact List.cons_subset.mpr ⟨List.mem_cons_self .., digits _⟩
  · exact digits _

/-! ## Floats -/

theorem digits_subset_floatParts : digits 10 ⊆ floatParts := List.subset_append_right _ _

variable {cs : List Char}

/-- Digits with a point are parts of a float. -/
theorem Layout.place_subset {l : Layout} {exponent : Int} (hd : cs ⊆ digits 10) :
    l.place cs exponent ⊆ floatParts := by
  have parts : cs ⊆ floatParts := List.Subset.trans hd digits_subset_floatParts
  have zeros (k : Nat) : List.replicate k '0' ⊆ floatParts :=
    List.Subset.trans (zeros_subset k (by omega)) digits_subset_floatParts
  have front (n k : Nat) : cs.take n ++ List.replicate k '0' ⊆ floatParts :=
    List.append_subset.mpr ⟨List.Subset.trans (List.take_subset ..) parts, zeros k⟩
  unfold Layout.place
  dsimp only
  split
  · have start : ['0', '.'] ⊆ floatParts := by decide
    exact List.append_subset.mpr ⟨List.append_subset.mpr ⟨start, zeros _⟩, parts⟩
  split
  · apply List.append_subset.mpr
    refine ⟨front _ _, List.cons_subset.mpr ⟨by decide, ?_⟩⟩
    exact List.Subset.trans (List.drop_subset ..) parts
  split
  · exact List.append_subset.mpr ⟨front _ _, by decide⟩
  · exact front _ _

theorem Layout.scientific_subset {exponent : Int} (hd : cs ⊆ digits 10) :
    Layout.scientific cs exponent ⊆ floatParts := by
  have parts : cs ⊆ floatParts := List.Subset.trans hd digits_subset_floatParts
  unfold Layout.scientific
  dsimp only
  apply List.append_subset.mpr
  constructor
  · split
    · obtain ⟨first, rest⟩ := List.cons_subset.mp parts
      exact List.cons_subset.mpr ⟨first, List.cons_subset.mpr ⟨by decide, rest⟩⟩
    · exact parts
  · refine List.cons_subset.mpr ⟨by decide, List.cons_subset.mpr ⟨?_, ?_⟩⟩
    · split <;> decide
    · exact List.Subset.trans (decimal_subset _) digits_subset_floatParts

theorem leading_subset (coefficient : Nat) (scale : Int) :
    (leading coefficient scale).1 ⊆ digits 10 := by
  have trimmed := (List.dropWhile_sublist (· == '0')
    (l := (decimal coefficient).reverse)).reverse.subset
  rw [List.reverse_reverse] at trimmed
  exact List.Subset.trans trimmed (decimal_subset coefficient)

theorem Layout.magnitude_subset (l : Layout) (mantissa : Nat) (exponent : Int) :
    l.magnitude mantissa exponent ⊆ floatParts := by
  unfold Layout.magnitude
  split
  · exact place_subset (by decide)
  · let found := shortest l.tie mantissa exponent
    let first := leading found.1 found.2
    have either (positional : Bool) : (if positional then l.place first.1 first.2
        else scientific first.1 first.2) ⊆ floatParts := by
      split
      · exact place_subset (leading_subset ..)
      · exact scientific_subset (leading_subset ..)
    exact either _

/-- A finite float is spelled with the parts of one. -/
theorem Layout.spell_subset (l : Layout) {x : Float} (h : isFinite x = true) :
    l.spell x ⊆ floatParts := by
  unfold isFinite at h
  unfold Layout.spell
  cases hx : Binary64.ofFloat x with
  | notANumber | infinite =>
    rw [hx] at h
    cases h
  | finite negative mantissa exponent =>
    dsimp only
    split
    · exact List.cons_subset.mpr ⟨by decide, magnitude_subset ..⟩
    · exact magnitude_subset ..

end Stencil.Numeral
