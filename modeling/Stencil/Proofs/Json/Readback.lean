import Stencil.Json.Reader
import Stencil.Value.Json
import Stencil.Proofs.Json.Tokens
import Stencil.Proofs.Numeral.Reading
import Stencil.Text.Cut

/-!
# Values read back from JSON texts

What the reader of JSON texts does with each form of a value: a string whose characters are written
in any way that is read as one character (`ReadsAs`), a whole number in base ten, and lists and
records whose items are read. The reader takes no more than the value, so every law is about a text
with anything that can stand behind it; only the digits of a number need something there that closes
it (`Closes`).

The bound on the reader's steps goes down by one at every value and between two items. The laws are
stated for any bound that is left, and who applies them counts the steps.
-/

set_option autoImplicit false

namespace Stencil

namespace Json

open Stencil.Text Stencil.Numeral

variable {w rest : List Char} {c : Char}

/-! ## Strings -/

/-- Inside a string, some characters are read as one, whatever follows. -/
def ReadsAs (w : List Char) (c : Char) : Prop :=
  ∀ bound rest, string? (bound + 1) (w ++ rest) =
    (string? bound rest).map fun found => (c :: found.1, found.2)

theorem ReadsAs.plain (low : 0x20 ≤ c.toNat) (hq : c ≠ '"') (hb : c ≠ '\\') : ReadsAs [c] c := by
  intro bound rest
  rw [List.singleton_append, string?]
  · rw [if_neg (by omega)]
    cases string? bound rest <;> rfl
  · rintro rfl
    exact absurd rfl hq
  · rintro rfl
    exact absurd rfl hb

theorem ReadsAs.escape (h : ∀ rest, escape? (w ++ rest) = some (c, rest)) :
    ReadsAs ('\\' :: w) c := by
  intro bound rest
  rw [List.cons_append, string?, h, Option.bind_eq_bind, Option.bind_some]
  dsimp only
  cases string? bound rest <;> rfl

/-- The numbered escape of a character of sixteen bits. -/
theorem ReadsAs.unit (h : c.toNat < 0x10000) :
    ReadsAs ('\\' :: 'u' :: hexadecimal 4 c.toNat) c := by
  obtain ⟨a, b, d, e, heq, digits, back⟩ := exists_hexadecimal_eq h
  refine ReadsAs.escape fun rest => ?_
  have unit : unit? ([a, b, d, e] ++ rest) = some (c.toNat, rest) := by
    change (if [a, b, d, e].all isHexDigit then some (value 16 [a, b, d, e], rest) else none) = _
    rw [if_pos digits, back]
  -- a character is no surrogate
  have valid : c.toNat < 0xd800 ∨ 0xdfff < c.toNat ∧ c.toNat < 0x110000 := c.valid
  rw [heq, List.cons_append, escape?, unit]
  dsimp only
  rw [if_neg (by omega), if_neg (by omega), Char.ofNat_toNat]

/-- Nothing is read from nothing. -/
theorem ReadsAs.length_pos (h : ReadsAs w c) : 0 < w.length := by
  cases w with
  | nil => cases h 0 ['"']
  | cons x xs => exact Nat.succ_pos _

/-- A string is read character by character up to its closing quote. -/
theorem string?_flatMap {rule : Char → List Char} (h : ∀ c, ReadsAs (rule c) c) {bound : Nat}
    {cs : List Char} (hb : cs.length < bound) (rest : List Char) :
    string? bound (cs.flatMap rule ++ '"' :: rest) = some (cs, rest) := by
  induction cs generalizing bound with
  | nil =>
    obtain ⟨bound, rfl⟩ := Nat.exists_eq_add_one_of_ne_zero (Nat.ne_of_gt hb)
    rfl
  | cons c cs ih =>
    rw [List.length_cons] at hb
    obtain ⟨bound, rfl⟩ := Nat.exists_eq_add_one_of_ne_zero (Nat.ne_of_gt (Nat.zero_lt_of_lt hb))
    rw [List.flatMap_cons, List.append_assoc, h c, ih (Nat.lt_of_succ_lt_succ hb)]
    rfl

/-- A string between its quotes. -/
theorem quoted?_flatMap {rule : Char → List Char} (h : ∀ c, ReadsAs (rule c) c) (s : String)
    (rest : List Char) :
    quoted? ('"' :: (s.toList.flatMap rule ++ '"' :: rest)) = some (s, rest) := by
  have long : s.toList.length ≤ (s.toList.flatMap rule).length := by
    induction s.toList with
    | nil => exact Nat.zero_le _
    | cons c cs ih =>
      rw [List.flatMap_cons, List.length_cons, List.length_append]
      have := (h c).length_pos
      omega
  rw [quoted?, string?_flatMap h]
  · simp
  · rw [List.length_append]
    omega

/-! ## Numbers -/

/-- What may follow a value in a JSON text. -/
def Closes (rest : List Char) : Prop :=
  rest = [] ∨ ∃ x ∈ [',', ']', '\x7d'], ∃ more, rest = x :: more

theorem digits?_decimal (n : Nat) (h : Closes rest) :
    digits? (decimal n ++ rest) = some (decimal n, rest) := by
  have ends : rest.head?.any isDigit = false := by
    rcases h with rfl | ⟨x, hx, more, rfl⟩
    · rfl
    · have apart : isDigit x = false := prop_of_mem hx (by decide)
      exact apart
  have run : (decimal n ++ rest).takeWhile isDigit = decimal n :=
    takeWhile_run (fun _ => isDigit_of_mem_decimal) ends
  rw [digits?, run, if_neg (decimal_ne_nil n), ← drop_takeWhile, run, List.drop_left]

/-- A whole number is read from its digits, up to what closes it. -/
theorem number?_decimal {negative : Bool} {n : Nat} (hn : negative = true → n ≠ 0)
    (h : Closes rest) : number? negative (decimal n ++ rest) =
      some (.int (if negative then -(n : Int) else n), rest) := by
  have whole : ¬ ((decimal n).length ≠ 1 ∧ (decimal n).head? = some '0') := by
    rintro ⟨length, zero⟩
    rcases Nat.eq_zero_or_pos n with rfl | hpos
    · exact length (by simp [decimal, natural])
    · exact head?_natural (by decide) (by decide) hpos zero
  have tail : fraction? rest = some ([], rest) ∧ exponent? rest = some (none, rest) := by
    rcases h with rfl | ⟨x, hx, more, rfl⟩
    · exact ⟨rfl, rfl⟩
    · simp only [List.mem_cons, List.not_mem_nil, or_false] at hx
      rcases hx with rfl | rfl | rfl
      all_goals exact ⟨rfl, rfl⟩
  have back : value 10 (decimal n) = n := value_natural (by decide) (by decide) n
  rw [number?, digits?_decimal n h]
  simp only [Option.bind_eq_bind, Option.bind_some, if_neg whole, tail.1, tail.2,
    List.append_nil, back]
  exact if_pos ⟨trivial, trivial, fun zero => hn zero.1 zero.2⟩

/-! ## Values -/

theorem skipBlanks_cons {x : Char} (h : isBlank x = false) (xs : List Char) :
    skipBlanks (x :: xs) = x :: xs :=
  List.dropWhile_cons_of_neg (by simp [h])

/-- The characters that start a value other than a number without a sign. -/
def openings : List Char := ['n', 't', 'f', '"', '[', '\x7b', '-']

theorem value?_other {x : Char} (hb : isBlank x = false) (hx : x ∉ openings) (bound : Nat)
    (xs : List Char) : value? (bound + 1) (x :: xs) = number? false (x :: xs) := by
  rw [value?, skipBlanks_cons hb]
  split
  case h_8 => rfl
  all_goals
    next heq =>
      cases heq
      exact absurd (by decide) hx

/-- A whole number is read as a value. -/
theorem value?_integer (bound : Nat) (k : Int) (h : Closes rest) :
    value? (bound + 1) (integer k ++ rest) = some (.int k, rest) := by
  unfold integer
  split
  · next hneg =>
    have same : -(k.natAbs : Int) = k := by omega
    have nonzero : k.natAbs ≠ 0 := by omega
    rw [List.cons_append, value?, skipBlanks_cons rfl]
    change number? true (decimal k.natAbs ++ rest) = _
    rw [number?_decimal (fun _ => nonzero) h, if_pos rfl, same]
  · next hpos =>
    have same : (k.natAbs : Int) = k := by omega
    obtain ⟨x, xs, heq⟩ := List.exists_cons_of_ne_nil (decimal_ne_nil k.natAbs)
    have digit : x ∈ digits 10 := decimal_subset k.natAbs (heq ▸ List.mem_cons_self)
    have unsigned : false = true → k.natAbs ≠ 0 := nofun
    have number := number?_decimal unsigned h
    rw [if_neg Bool.false_ne_true, same] at number
    have opens : isBlank x = false ∧ x ∉ openings := prop_of_mem digit (by decide)
    rw [← number, heq]
    exact value?_other opens.1 opens.2 bound (xs ++ rest)

theorem value?_string {bound : Nat} {cs : List Char} {s : String}
    (h : quoted? ('"' :: cs) = some (s, rest)) :
    value? (bound + 1) ('"' :: cs) = some (.string s, rest) := by
  rw [value?, skipBlanks_cons rfl]
  change (quoted? ('"' :: cs)).map _ = _
  rw [h]
  rfl

/-- An array that is not empty. -/
theorem value?_array {bound : Nat} {x : Char} {xs : List Char} {items : List Json}
    (hb : isBlank x = false) (hx : x ≠ ']') (h : items? bound (x :: xs) = some (items, rest)) :
    value? (bound + 1) ('[' :: x :: xs) = some (.array items, rest) := by
  rw [value?, skipBlanks_cons rfl]
  split
  case h_5 heq =>
    cases heq
    rw [skipBlanks_cons hb]
    split
    · next heq =>
      cases heq
      exact absurd rfl hx
    · rw [h]
      rfl
  case h_8 other _ _ => exact absurd rfl (other _)
  all_goals
    next heq => cases heq

/-- An object that is not empty. -/
theorem value?_object {bound : Nat} {x : Char} {xs : List Char} {pairs : List (String × Json)}
    (hb : isBlank x = false) (hx : x ≠ '\x7d') (h : fields? bound (x :: xs) = some (pairs, rest)) :
    value? (bound + 1) ('\x7b' :: x :: xs) = some (ofPairs pairs, rest) := by
  rw [value?, skipBlanks_cons rfl]
  split
  case h_6 heq =>
    cases heq
    rw [skipBlanks_cons hb]
    split
    · next heq =>
      cases heq
      exact absurd rfl hx
    · rw [h]
      rfl
  case h_8 _ other _ => exact absurd rfl (other _)
  all_goals
    next heq => cases heq

theorem items?_last {bound : Nat} {cs : List Char} {item : Json}
    (h : value? bound cs = some (item, ']' :: rest)) :
    items? (bound + 1) cs = some ([item], rest) := by
  rw [items?, h]
  rfl

theorem items?_next {bound : Nat} {cs more : List Char} {item : Json} {items : List Json}
    (h : value? bound cs = some (item, ',' :: more)) (hm : items? bound more = some (items, rest)) :
    items? (bound + 1) cs = some (item :: items, rest) := by
  rw [items?, h]
  change (items? bound more >>= fun found => pure (item :: found.1, found.2)) = _
  rw [hm]
  rfl

theorem fields?_last {bound : Nat} {cs more : List Char} {name : String} {item : Json}
    (hname : quoted? ('"' :: cs) = some (name, ':' :: more))
    (h : value? bound more = some (item, '\x7d' :: rest)) :
    fields? (bound + 1) ('"' :: cs) = some ([(name, item)], rest) := by
  rw [fields?, skipBlanks_cons rfl, hname]
  change (value? bound more >>= _) = _
  rw [h]
  rfl

theorem fields?_next {bound : Nat} {cs more others : List Char} {name : String} {item : Json}
    {fields : List (String × Json)} (hname : quoted? ('"' :: cs) = some (name, ':' :: more))
    (h : value? bound more = some (item, ',' :: others))
    (hm : fields? bound others = some (fields, rest)) :
    fields? (bound + 1) ('"' :: cs) = some ((name, item) :: fields, rest) := by
  rw [fields?, skipBlanks_cons rfl, hname]
  change (value? bound more >>= _) = _
  rw [h]
  change (fields? bound others >>= fun found => pure ((name, item) :: found.1, found.2)) = _
  rw [hm]
  rfl

end Json

end Stencil
