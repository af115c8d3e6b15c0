import Mathlib.Data.List.Basic
import Stencil.Proofs.Escape.Signs

/-!
# Percent escapes read back

A reader of an address takes a percent sign with two digits of base sixteen behind it for the byte
that the digits stand for, and copies a percent sign that starts no such escape (`percentDecode`).
It reads the same bytes from an address as the rules write it and from the raw text
(`percentDecode_urlNormalize`); from a value in a query it reads the value itself
(`percentDecode_urlQuery`).

A whole address keeps its percent signs, those that start no escape too. That nothing is lost then
is a matter of what stands behind such a sign: a byte that is written as an escape is no digit, and
its escape starts with a percent sign, which is no digit either. So the writer completes no half
escape and breaks up no whole one (`escapedByte?_encodeBytes`).
-/

set_option autoImplicit false

namespace Stencil.Escape

open Stencil.Text

/-! ## The reader -/

/-- The bytes of a text. -/
def utf8 (cs : List Char) : List UInt8 := cs.flatMap String.utf8EncodeChar

/-- The byte of a percent sign. -/
def percentSign : UInt8 := 0x25

/-- The number that a byte stands for as a digit of base sixteen, with letters in either case. -/
def byteDigit? (b : UInt8) : Option Nat := Numeral.digitValue? (Char.ofNat b.toNat)

/-- The byte whose two digits some bytes start with, and what follows the digits. -/
def escapedByte? : List UInt8 → Option (UInt8 × List UInt8)
  | high :: low :: rest =>
    match byteDigit? high, byteDigit? low with
    | some h, some l => some (UInt8.ofNat (16 * h + l), rest)
    | _, _ => none
  | _ => none

theorem length_of_escapedByte? {bs after : List UInt8} {b : UInt8}
    (h : escapedByte? bs = some (b, after)) : after.length ≤ bs.length := by
  unfold escapedByte? at h
  split at h
  · split at h
    · cases h
      simp only [List.length_cons]
      omega
    · cases h
  · cases h

/-- Bytes with their percent escapes replaced. A percent sign that starts no escape stands for
itself. -/
def percentDecode : List UInt8 → List UInt8
  | [] => []
  | b :: rest =>
    if b = percentSign then
      match _found : escapedByte? rest with
      | some (escaped, after) => escaped :: percentDecode after
      | none => b :: percentDecode rest
    else b :: percentDecode rest
termination_by bs => bs.length
decreasing_by
  · have := length_of_escapedByte? _found
    simp only [List.length_cons]
    omega
  · simp
  · simp

variable {b : UInt8} {bs after : List UInt8}

@[simp] theorem percentDecode_nil : percentDecode [] = [] := by
  rw [percentDecode]

theorem percentDecode_cons_of_ne (h : b ≠ percentSign) (bs : List UInt8) :
    percentDecode (b :: bs) = b :: percentDecode bs := by
  rw [percentDecode, if_neg h]

theorem percentDecode_escape (h : escapedByte? bs = some (b, after)) :
    percentDecode (percentSign :: bs) = b :: percentDecode after := by
  rw [percentDecode, if_pos rfl]
  split
  · next heq =>
    rw [h] at heq
    cases heq
    rfl
  · next heq =>
    rw [h] at heq
    cases heq

theorem percentDecode_malformed (h : escapedByte? bs = none) :
    percentDecode (percentSign :: bs) = percentSign :: percentDecode bs := by
  rw [percentDecode, if_pos rfl]
  split
  · next heq =>
    rw [h] at heq
    cases heq
  · rfl

/-! ## The writer, byte by byte -/

/-- The digit of an escape that stands for a number below sixteen. -/
def escapeDigit (d : Nat) : UInt8 :=
  if d < 10 then UInt8.ofNat (48 + d) else UInt8.ofNat (55 + d)

theorem byteDigit?_escapeDigit {d : Nat} (h : d < 16) : byteDigit? (escapeDigit d) = some d := by
  have all : ∀ d : Fin 16, byteDigit? (escapeDigit d) = some d.val := by decide
  exact all ⟨d, h⟩

theorem utf8_flatMap {α : Type} (f : α → List Char) (xs : List α) :
    utf8 (xs.flatMap f) = xs.flatMap fun x => utf8 (f x) :=
  List.flatMap_assoc

/-- An escape is a percent sign and the two digits of its byte. -/
theorem utf8_percent (b : UInt8) :
    utf8 (percent b) =
      [percentSign, escapeDigit (b.toNat / 16), escapeDigit (b.toNat % 16)] := by
  have digit : ∀ d : Fin 16,
      String.utf8EncodeChar (if d.val < 10 then Char.ofNat (48 + d) else Char.ofNat (55 + d)) =
        [escapeDigit d] := by decide
  have hb := b.toNat_lt
  have high := digit ⟨b.toNat / 16, by omega⟩
  have low := digit ⟨b.toNat % 16, by omega⟩
  simp only [utf8, percent, List.flatMap_cons, List.flatMap_nil, high, low]
  rfl

theorem escapedByte?_digits (b : UInt8) (bs : List UInt8) :
    escapedByte? (escapeDigit (b.toNat / 16) :: escapeDigit (b.toNat % 16) :: bs) =
      some (b, bs) := by
  have hb := b.toNat_lt
  have high := byteDigit?_escapeDigit (d := b.toNat / 16) (by omega)
  have low := byteDigit?_escapeDigit (d := b.toNat % 16) (by omega)
  have whole : 16 * (b.toNat / 16) + b.toNat % 16 = b.toNat := by omega
  simp only [escapedByte?, high, low, whole, UInt8.ofNat_toNat]

/-- Bytes as an address holds them, those outside of a class as escapes. -/
def encodeBytes (keeps : UInt8 → Bool) (bs : List UInt8) : List UInt8 :=
  bs.flatMap fun b => if keeps b then [b] else utf8 (percent b)

section

variable {keeps : UInt8 → Bool}

theorem encodeBytes_cons_of_kept (h : keeps b = true) (bs : List UInt8) :
    encodeBytes keeps (b :: bs) = b :: encodeBytes keeps bs := by
  rw [encodeBytes, List.flatMap_cons, if_pos h, List.singleton_append, encodeBytes]

theorem encodeBytes_cons_of_escaped (h : keeps b = false) (bs : List UInt8) :
    encodeBytes keeps (b :: bs) = percentSign :: escapeDigit (b.toNat / 16) ::
      escapeDigit (b.toNat % 16) :: encodeBytes keeps bs := by
  rw [encodeBytes, List.flatMap_cons, if_neg (by simp [h]), utf8_percent, encodeBytes]
  rfl

/-- An escape that the writer inserts reads back. -/
theorem percentDecode_encodeBytes_cons (h : keeps b = false) (bs : List UInt8) :
    percentDecode (encodeBytes keeps (b :: bs)) = b :: percentDecode (encodeBytes keeps bs) := by
  rw [encodeBytes_cons_of_escaped h]
  exact percentDecode_escape (escapedByte?_digits b _)

/-- Where every percent sign is escaped, the bytes read back as they were. -/
theorem percentDecode_encodeBytes_of_escaped (hp : keeps percentSign = false) (bs : List UInt8) :
    percentDecode (encodeBytes keeps bs) = bs := by
  induction bs with
  | nil => exact percentDecode_nil
  | cons b bs ih =>
    by_cases hb : keeps b = true
    · have hne : b ≠ percentSign := by
        rintro rfl
        rw [hp] at hb
        cases hb
      rw [encodeBytes_cons_of_kept hb, percentDecode_cons_of_ne hne, ih]
    · rw [percentDecode_encodeBytes_cons (by simpa using hb), ih]

/-- The writer neither makes nor breaks up an escape: the two bytes behind a percent sign are digits
in what it writes exactly if they were before. -/
theorem escapedByte?_encodeBytes (hd : ∀ b, (byteDigit? b).isSome = true → keeps b = true)
    (bs : List UInt8) :
    escapedByte? (encodeBytes keeps bs) =
      (escapedByte? bs).map fun found => (found.1, encodeBytes keeps found.2) := by
  have sign : byteDigit? percentSign = none := by decide
  have other {b : UInt8} (h : keeps b = false) : byteDigit? b = none := by
    rw [← Option.not_isSome_iff_eq_none]
    intro hsome
    rw [hd b hsome] at h
    cases h
  match bs with
  | [] => rfl
  | [x] =>
    by_cases hx : keeps x = true
    · rw [encodeBytes_cons_of_kept hx]
      rfl
    · rw [encodeBytes_cons_of_escaped (by simpa using hx)]
      simp only [escapedByte?, sign, Option.map_none]
  | x :: y :: rest =>
    by_cases hx : keeps x = true
    · rw [encodeBytes_cons_of_kept hx]
      by_cases hy : keeps y = true
      · rw [encodeBytes_cons_of_kept hy]
        simp only [escapedByte?]
        split <;> rfl
      · have hy : keeps y = false := by simpa using hy
        rw [encodeBytes_cons_of_escaped hy]
        simp only [escapedByte?, sign, other hy]
        cases byteDigit? x <;> rfl
    · have hx : keeps x = false := by simpa using hx
      rw [encodeBytes_cons_of_escaped hx]
      simp only [escapedByte?, sign, other hx, Option.map_none]

/-- Where percent signs and digits are kept, what is read stays the same. The induction is on the
reader's steps over the raw bytes. -/
theorem percentDecode_encodeBytes_of_kept (hp : keeps percentSign = true)
    (hd : ∀ b, (byteDigit? b).isSome = true → keeps b = true) (bs : List UInt8) :
    percentDecode (encodeBytes keeps bs) = percentDecode bs := by
  induction bs using percentDecode.induct with
  | case1 => rfl
  | case2 rest b after found ih =>
    have written : escapedByte? (encodeBytes keeps rest) = some (b, encodeBytes keeps after) := by
      rw [escapedByte?_encodeBytes hd, found]
      rfl
    rw [encodeBytes_cons_of_kept hp, percentDecode_escape written, percentDecode_escape found, ih]
  | case3 rest found ih =>
    have written : escapedByte? (encodeBytes keeps rest) = none := by
      rw [escapedByte?_encodeBytes hd, found]
      rfl
    rw [encodeBytes_cons_of_kept hp, percentDecode_malformed written, percentDecode_malformed found,
      ih]
  | case4 b rest hne ih =>
    rw [percentDecode_cons_of_ne hne, ← ih]
    by_cases hb : keeps b = true
    · rw [encodeBytes_cons_of_kept hb, percentDecode_cons_of_ne hne]
    · exact percentDecode_encodeBytes_cons (by simpa using hb) rest

end

/-! ## The rules for addresses -/

/-- Every byte of a character outside of ASCII is above the bytes of ASCII. -/
theorem le_of_mem_utf8EncodeChar {c : Char} (hc : 0x80 ≤ c.toNat)
    (h : b ∈ String.utf8EncodeChar c) : 0x80 ≤ b.toNat := by
  have hval : 0x80 ≤ c.val.toNat := hc
  unfold String.utf8EncodeChar at h
  dsimp only at h
  rw [if_neg (by omega)] at h
  split at h
  · simp only [List.mem_cons, List.not_mem_nil, or_false] at h
    rcases h with h | h <;> rw [h, UInt8.toNat_ofNat'] <;> omega
  split at h
  · simp only [List.mem_cons, List.not_mem_nil, or_false] at h
    rcases h with h | h | h <;> rw [h, UInt8.toNat_ofNat'] <;> omega
  · simp only [List.mem_cons, List.not_mem_nil, or_false] at h
    rcases h with h | h | h | h <;> rw [h, UInt8.toNat_ofNat'] <;> omega

theorem utf8EncodeChar_of_lt {c : Char} (hc : c.toNat < 0x80) :
    String.utf8EncodeChar c = [UInt8.ofNat c.toNat] := by
  have hval : c.val.toNat ≤ 0x7f := Nat.le_of_lt_succ hc
  unfold String.utf8EncodeChar
  exact if_pos hval

theorem ofNat_toNat_of_lt {c : Char} (hc : c.toNat < 0x80) :
    Char.ofNat (UInt8.ofNat c.toNat).toNat = c := by
  rw [UInt8.toNat_ofNat', Nat.mod_eq_of_lt (by omega), Char.ofNat_toNat]

theorem toNat_ofNat_byte (b : UInt8) : (Char.ofNat b.toNat).toNat = b.toNat := by
  have hb := b.toNat_lt
  have valid : b.toNat.isValidChar := .inl (by omega)
  rw [Char.ofNat, dif_pos valid]
  rfl

/-- A rule that keeps no characters but those of ASCII is a rule on bytes. -/
theorem utf8_percentEncode {keeps : Char → Bool} (ascii : ∀ c, keeps c = true → c.toNat < 0x80)
    (cs : List Char) :
    utf8 (percentEncode keeps cs) =
      encodeBytes (fun b => keeps (Char.ofNat b.toNat)) (utf8 cs) := by
  rw [percentEncode, utf8_flatMap, utf8, encodeBytes, List.flatMap_assoc]
  congr 1
  funext c
  by_cases hc : c.toNat < 0x80
  · rw [utf8EncodeChar_of_lt hc, List.flatMap_singleton, List.flatMap_singleton,
      ofNat_toNat_of_lt hc]
    split
    · rw [utf8, List.flatMap_singleton, utf8EncodeChar_of_lt hc]
    · rfl
  · have outside : keeps c = false := by
      rw [← Bool.not_eq_true]
      exact fun hk => hc (ascii c hk)
    rw [if_neg (by simp [outside]), utf8_flatMap]
    apply List.flatMap_congr
    intro b hb
    have hbyte := le_of_mem_utf8EncodeChar (by omega) hb
    rw [if_neg]
    intro hk
    have := ascii _ hk
    rw [toNat_ofNat_byte] at this
    omega

/-- The characters that a whole address keeps. -/
def isAddressSign (c : Char) : Bool := isUnreserved c || isReserved c

/-- The signs in print that an address holds as escapes only. -/
def addressBreaks : List Char :=
  ['"', '\'', '(', ')', '<', '>', '\\', '\x60', '\x7b', '|', '\x7d', '^']

theorem bounds_of_isAlphanumeric {c : Char} (h : isAlphanumeric c = true) :
    0x30 ≤ c.toNat ∧ c.toNat ≤ 0x7a := by
  simp only [isAlphanumeric, isLetter, isDigit, Bool.or_eq_true, Bool.and_eq_true,
    decide_eq_true_eq, Char.le_def, UInt32.le_iff_toNat_le, Char.reduceVal,
    UInt32.reduceToNat] at h
  simp only [Char.toNat]
  omega

/-- What an address keeps is printed ASCII and none of the signs that could end it. -/
theorem plain_of_isAddressSign {c : Char} (h : isAddressSign c = true) :
    (0x20 < c.toNat ∧ c.toNat < 0x7f) ∧ c ∉ addressBreaks := by
  constructor
  · simp only [isAddressSign, isUnreserved, Bool.or_eq_true, beq_iff_eq] at h
    rcases h with unreserved | reserved
    · rcases unreserved with (((alphanumeric | rfl) | rfl) | rfl) | rfl
      · have := bounds_of_isAlphanumeric alphanumeric
        omega
      all_goals decide
    · exact prop_of_mem (List.contains_iff_mem.mp reserved) (by decide)
  · intro hmem
    have outside : isAddressSign c = false := prop_of_mem hmem (by decide)
    rw [outside] at h
    cases h

/-- The signs and digits of escapes are kept, so that escapes are. -/
theorem isAddressSign_of_mem_percentParts {c : Char} (h : c ∈ percentParts) :
    isAddressSign c = true :=
  prop_of_mem h (by decide)

theorem isAddressSign_of_mem_urlNormalize {c : Char} {cs : List Char} (h : c ∈ urlNormalize cs) :
    isAddressSign c = true := by
  rcases mem_percentParts_of_mem_percentEncode h with h | h
  · exact h
  · exact isAddressSign_of_mem_percentParts h

/-- A text that holds nothing to escape is written as it is. -/
theorem percentEncode_of_forall {keeps : Char → Bool} {cs : List Char}
    (h : ∀ c ∈ cs, keeps c = true) : percentEncode keeps cs = cs := by
  have same : cs.flatMap (fun c => if keeps c then [c] else
      (String.utf8EncodeChar c).flatMap percent) = cs.flatMap fun c => [c] :=
    List.flatMap_congr fun c hc => if_pos (h c hc)
  rw [percentEncode, same, List.flatMap_singleton']

theorem isAlphanumeric_of_isHexDigit {c : Char} (h : Numeral.isHexDigit c = true) :
    isAlphanumeric c = true := by
  unfold Numeral.isHexDigit Numeral.digitValue? at h
  simp only [isAlphanumeric, isLetter, isDigit, Bool.or_eq_true, Bool.and_eq_true,
    decide_eq_true_eq]
  split at h
  · next hc => exact .inr hc
  split at h
  · next hc => exact .inl (.inl ⟨hc.1, Char.le_trans hc.2 (by decide)⟩)
  split at h
  · next hc => exact .inl (.inr ⟨hc.1, Char.le_trans hc.2 (by decide)⟩)
  · cases h

/-- Texts of unreserved characters and percent escapes with capital digits. -/
inductive QueryText : List Char → Prop where
  | nil : QueryText []
  | plain {c : Char} {rest : List Char} : isUnreserved c = true → QueryText rest →
      QueryText (c :: rest)
  | escape {high low : Char} {rest : List Char} : high ∈ escapeDigits → low ∈ escapeDigits →
      QueryText rest → QueryText ('%' :: high :: low :: rest)

theorem QueryText.percent (b : UInt8) {rest : List Char} (h : QueryText rest) :
    QueryText (percent b ++ rest) := by
  obtain ⟨high, hhigh, low, hlow, heq⟩ := exists_percent_eq b
  rw [heq]
  exact .escape hhigh hlow h

theorem QueryText.flatMap_percent (bs : List UInt8) {rest : List Char} (h : QueryText rest) :
    QueryText (bs.flatMap Escape.percent ++ rest) := by
  induction bs with
  | nil => exact h
  | cons b bs ih =>
    rw [List.flatMap_cons, List.append_assoc]
    exact ih.percent b

/-- A value in a query is written with unreserved characters and escapes. -/
theorem queryText_urlQuery (cs : List Char) : QueryText (urlQuery cs) := by
  unfold urlQuery percentEncode
  induction cs with
  | nil => exact .nil
  | cons c cs ih =>
    rw [List.flatMap_cons]
    split
    · next hc => exact .plain hc ih
    · exact ih.flatMap_percent _

theorem percentDecode_urlQuery (cs : List Char) : percentDecode (utf8 (urlQuery cs)) = utf8 cs := by
  have ascii : ∀ c, isUnreserved c = true → c.toNat < 0x80 := by
    intro c hc
    have := (plain_of_isAddressSign (c := c) (by simp [isAddressSign, hc])).1
    omega
  rw [urlQuery, utf8_percentEncode ascii]
  exact percentDecode_encodeBytes_of_escaped (by decide) _

theorem percentDecode_urlNormalize (cs : List Char) :
    percentDecode (utf8 (urlNormalize cs)) = percentDecode (utf8 cs) := by
  have ascii : ∀ c, isAddressSign c = true → c.toNat < 0x80 := by
    intro c hc
    have := (plain_of_isAddressSign hc).1
    omega
  have digits : ∀ b, (byteDigit? b).isSome = true → isAddressSign (Char.ofNat b.toNat) = true := by
    intro b hb
    have := isAlphanumeric_of_isHexDigit hb
    simp [isAddressSign, isUnreserved, this]
  have bytes : utf8 (urlNormalize cs) =
      encodeBytes (fun b => isAddressSign (Char.ofNat b.toNat)) (utf8 cs) :=
    utf8_percentEncode ascii cs
  rw [bytes]
  exact percentDecode_encodeBytes_of_kept (by decide) digits _

/-- An address that is written as one stays as it is. -/
theorem urlNormalize_urlNormalize (cs : List Char) :
    urlNormalize (urlNormalize cs) = urlNormalize cs :=
  percentEncode_of_forall fun _ => isAddressSign_of_mem_urlNormalize

/-- **The rules for addresses keep what is meant.** A value in a query is written with unreserved
characters and escapes alone and read back as its own bytes. A whole address is written in plain
ASCII, written again it stays as it is, and a reader finds in it the bytes that it finds in the raw
text, whatever stands behind the percent signs of either. -/
theorem urlEncoders_keep_meaning (cs : List Char) :
    (QueryText (urlQuery cs) ∧ percentDecode (utf8 (urlQuery cs)) = utf8 cs) ∧
    urlNormalize (urlNormalize cs) = urlNormalize cs ∧
    (∀ c ∈ urlNormalize cs, (0x20 < c.toNat ∧ c.toNat < 0x7f) ∧ c ∉ addressBreaks) ∧
    percentDecode (utf8 (urlNormalize cs)) = percentDecode (utf8 cs) :=
  ⟨⟨queryText_urlQuery cs, percentDecode_urlQuery cs⟩, urlNormalize_urlNormalize cs,
    fun _ h => plain_of_isAddressSign (isAddressSign_of_mem_urlNormalize h),
    percentDecode_urlNormalize cs⟩

/-- Half escapes stand before a character that is escaped, before another percent sign and at the
end; a whole one stands between them. -/
theorem urlEncoders_keep_meaning_halfEscapes :
    let cs := "%4|\u00e9%2%41%".toList
    (QueryText "%254%7C%C3%A9%252%2541%25".toList ∧
      percentDecode (utf8 "%254%7C%C3%A9%252%2541%25".toList) = utf8 cs) ∧
    urlNormalize "%4%7C%C3%A9%2%41%".toList = "%4%7C%C3%A9%2%41%".toList ∧
    '%' ∈ urlNormalize cs ∧ '%' ∉ addressBreaks ∧
    percentDecode (utf8 "%4%7C%C3%A9%2%41%".toList) = percentDecode (utf8 cs) ∧
    percentDecode (utf8 cs) = utf8 "%4|\u00e9%2A%".toList := by
  intro cs
  have query : urlQuery cs = "%254%7C%C3%A9%252%2541%25".toList := by decide +kernel
  have whole : urlNormalize cs = "%4%7C%C3%A9%2%41%".toList := by decide +kernel
  have sign : '%' ∈ urlNormalize cs := by decide +kernel
  have law := urlEncoders_keep_meaning cs
  rw [query] at law
  refine ⟨law.1, ?_, sign, (law.2.2.1 '%' sign).2, ?_, by decide +kernel⟩
  · rw [← whole]
    exact law.2.1
  · rw [← whole]
    exact law.2.2.2

end Stencil.Escape
