import Mathlib.Algebra.Group.Nat.Defs
import Stencil.Proofs.Numeral.Digits

/-!
# Numerals read back

The readers of whole numbers undo their writers: a word of 64 bits, an integer and a signed word are
read from their decimal numerals (`word?_decimal`, `integer?_integer`, `int64?_toInt`). A numeral of
four digits in base sixteen, as escapes have it, holds every number of sixteen bits
(`exists_hexadecimal_eq`).
-/

set_option autoImplicit false

namespace Stencil.Numeral

open Stencil.Text

theorem isDigit_of_mem_decimal {n : Nat} {c : Char} (h : c ∈ decimal n) : isDigit c = true := by
  have all : (digits 10).all isDigit = true := by decide
  exact List.all_eq_true.mp all c (decimal_subset n h)

theorem natural_ne_nil (base n : Nat) : natural base n ≠ [] := by
  unfold natural
  split
  · exact List.cons_ne_nil _ _
  · exact List.concat_ne_nil _ _

theorem decimal_ne_nil (n : Nat) : decimal n ≠ [] := natural_ne_nil 10 n

theorem integer_ne_nil (n : Int) : integer n ≠ [] := by
  unfold integer
  split
  · exact List.cons_ne_nil _ _
  · exact decimal_ne_nil _

/-- An integer ends in a digit. -/
theorem exists_integer_eq (n : Int) : ∃ cs c, integer n = cs ++ [c] ∧ isDigit c = true := by
  have last (n : Nat) : ∃ cs c, decimal n = cs ++ [c] ∧ isDigit c = true := by
    rcases List.eq_nil_or_concat (decimal n) with heq | ⟨cs, c, heq⟩
    · exact absurd heq (decimal_ne_nil n)
    · rw [List.concat_eq_append] at heq
      exact ⟨cs, c, heq, isDigit_of_mem_decimal (heq ▸ List.mem_concat_self)⟩
  obtain ⟨cs, c, heq, digit⟩ := last n.natAbs
  unfold integer
  split
  · exact ⟨'-' :: cs, c, congrArg _ heq, digit⟩
  · exact ⟨cs, c, heq, digit⟩

theorem decimal?_decimal (n : Nat) : decimal? (decimal n) = some n := by
  have digits : (decimal n).all isDigit = true :=
    List.all_eq_true.mpr fun _ => isDigit_of_mem_decimal
  rw [decimal?, if_pos ⟨decimal_ne_nil n, digits⟩, decimal, value_natural (by decide) (by decide)]

/-- A numeral without a sign starts with a digit. -/
theorem decimal_ne_cons {c : Char} (h : isDigit c = false) (n : Nat) (rest : List Char) :
    decimal n ≠ c :: rest := by
  intro heq
  have digit := isDigit_of_mem_decimal (heq ▸ List.mem_cons_self)
  rw [h] at digit
  cases digit

theorem word?_decimal {n : Nat} (h : n ≤ maxWord) : word? (decimal n) = some n := by
  unfold word?
  split
  · next rest heq => exact absurd heq (decimal_ne_cons rfl n rest)
  · dsimp only
    rw [decimal?_decimal, Option.filter_some, if_pos (decide_eq_true h)]

theorem integer?_decimal (n : Nat) : integer? (decimal n) = some (n : Int) := by
  unfold integer?
  split
  · next rest heq => exact absurd heq (decimal_ne_cons rfl n rest)
  · next rest heq => exact absurd heq (decimal_ne_cons rfl n rest)
  · rw [decimal?_decimal]
    rfl

theorem integer?_integer (n : Int) : integer? (integer n) = some n := by
  unfold integer
  split
  · next negative =>
    have same : -(n.natAbs : Int) = n := by omega
    rw [integer?, decimal?_decimal]
    exact congrArg some same
  · next positive =>
    have same : (n.natAbs : Int) = n := by omega
    rw [integer?_decimal, same]

theorem int64?_toInt (n : Int64) : int64? n.toInt = some n := by
  have low := n.le_toInt
  have high := n.toInt_lt
  rw [int64?, if_pos (by omega), Int64.ofInt_toInt]

/-- No numeral starts with a zero but that of zero. -/
theorem head?_natural {base n : Nat} (low : 2 ≤ base) (high : base ≤ 16) (h : 0 < n) :
    (natural base n).head? ≠ some '0' := by
  fun_induction natural base n with
  | case1 n hn =>
    intro heq
    have same : digit n = '0' := Option.some.inj heq
    have back := digitValue?_digit (show n < 16 by omega)
    rw [same] at back
    have zero : 0 = n := Option.some.inj back
    omega
  | case2 n hn ih =>
    have more : 0 < n / base := Nat.div_pos (by omega) (by omega)
    obtain ⟨x, xs, heq⟩ := List.exists_cons_of_ne_nil (natural_ne_nil base (n / base))
    have ih := ih more
    rw [heq] at ih ⊢
    exact ih

/-! ## Numerals of a fixed width -/

theorem length_natural_le {base : Nat} (low : 2 ≤ base) {k n : Nat} (h : n < base ^ (k + 1)) :
    (natural base n).length ≤ k + 1 := by
  induction k generalizing n with
  | zero =>
    rw [Nat.zero_add, Nat.pow_one] at h
    rw [natural, if_pos (.inr h)]
    exact Nat.le_refl 1
  | succ k ih =>
    rw [natural]
    split
    · exact Nat.le_add_left 1 _
    · have less : n / base < base ^ (k + 1) := by
        rw [Nat.div_lt_iff_lt_mul (by omega), ← Nat.pow_succ]
        exact h
      rw [List.length_append, List.length_singleton]
      exact Nat.succ_le_succ (ih less)

/-- Zeros in front change nothing. -/
theorem value_zeros (base k : Nat) (cs : List Char) :
    value base (List.replicate k '0' ++ cs) = value base cs := by
  have zero : value base (List.replicate k '0') = 0 := by
    induction k with
    | zero => rfl
    | succ k ih =>
      rw [List.replicate_succ', value_append_digit, ih]
      rfl
  unfold value at zero ⊢
  rw [List.foldl_append, zero]

theorem isHexDigit_of_mem_hexadecimal {width n : Nat} {c : Char} (h : c ∈ hexadecimal width n) :
    isHexDigit c = true :=
  prop_of_mem (hexadecimal_subset width n h) (by decide)

theorem length_hexadecimal {width n : Nat} (h : n < 16 ^ (width + 1)) :
    (hexadecimal (width + 1) n).length = width + 1 := by
  have short := length_natural_le (by decide) h
  rw [hexadecimal, List.length_append, List.length_replicate]
  omega

theorem value_hexadecimal (width n : Nat) : value 16 (hexadecimal width n) = n := by
  rw [hexadecimal, value_zeros, value_natural (by decide) (by decide)]

/-- A number of sixteen bits has four digits, which read back. -/
theorem exists_hexadecimal_eq {n : Nat} (h : n < 0x10000) :
    ∃ a b c d, hexadecimal 4 n = [a, b, c, d] ∧ [a, b, c, d].all isHexDigit = true ∧
      value 16 [a, b, c, d] = n := by
  have length : (hexadecimal 4 n).length = 4 := length_hexadecimal h
  have digits : (hexadecimal 4 n).all isHexDigit = true :=
    List.all_eq_true.mpr fun _ => isHexDigit_of_mem_hexadecimal
  have back := value_hexadecimal 4 n
  match heq : hexadecimal 4 n, length with
  | [a, b, c, d], _ =>
    rw [heq] at digits back
    exact ⟨a, b, c, d, rfl, digits, back⟩

/-! ## Digits in either case -/

theorem digitValue?_lower (c : Char) : digitValue? (lower c) = digitValue? c := by
  unfold lower
  split
  · next h =>
    have all : ∀ n : Fin 26, digitValue? (Char.ofNat (n.val + 65 + 32)) =
        digitValue? (Char.ofNat (n.val + 65)) := by decide
    have low : 65 ≤ c.toNat := h.1
    have high : c.toNat ≤ 90 := h.2
    have letter := all ⟨c.toNat - 65, by omega⟩
    dsimp only at letter
    rwa [Nat.sub_add_cancel low, Char.ofNat_toNat] at letter
  · rfl

theorem isHexDigit_lower (c : Char) : isHexDigit (lower c) = isHexDigit c := by
  rw [isHexDigit, digitValue?_lower, isHexDigit]

theorem value_lower (base : Nat) (digits : List Char) :
    value base (digits.map lower) = value base digits := by
  rw [value, List.foldl_map]
  simp only [digitValue?_lower]
  rfl

end Stencil.Numeral
