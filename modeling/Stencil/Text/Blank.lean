/-!
# Classes of characters

The three sets of blanks that templates, markup and addresses use, and the ASCII classes that names
are made of. They differ: an action is separated by four blanks, markup knows the form feed as well,
and an address is trimmed of every character with the Unicode property White_Space.
-/

set_option autoImplicit false

namespace Stencil.Text

/-- The blanks that separate words in an action and that trim markers remove. -/
def isBlank (c : Char) : Bool :=
  c == ' ' || c == '\t' || c == '\r' || c == '\n'

/-- The blanks of markup, scripts and style sheets. -/
def isSpace (c : Char) : Bool :=
  c == ' ' || c == '\t' || c == '\n' || c == '\x0c' || c == '\r'

/-- The Unicode property White_Space. -/
def isWhiteSpace (c : Char) : Bool :=
  let n := c.toNat
  (0x09 ≤ n && n ≤ 0x0d) || n == 0x20 || n == 0x85 || n == 0xa0 || n == 0x1680 ||
    (0x2000 ≤ n && n ≤ 0x200a) || n == 0x2028 || n == 0x2029 || n == 0x202f || n == 0x205f ||
    n == 0x3000

/-- An ASCII digit. -/
def isDigit (c : Char) : Bool :=
  '0' ≤ c && c ≤ '9'

/-- An ASCII letter. -/
def isLetter (c : Char) : Bool :=
  ('a' ≤ c && c ≤ 'z') || ('A' ≤ c && c ≤ 'Z')

/-- An ASCII letter or digit. -/
def isAlphanumeric (c : Char) : Bool :=
  isLetter c || isDigit c

/-- The lower-case form of an ASCII capital; any other character is its own. -/
def lower (c : Char) : Char :=
  if 'A' ≤ c ∧ c ≤ 'Z' then Char.ofNat (c.toNat + 32) else c

/-- Removes the characters of a class from both ends. -/
def trim (inClass : Char → Bool) (cs : List Char) : List Char :=
  ((cs.dropWhile inClass).reverse.dropWhile inClass).reverse

/-- Trimming takes away what stands around a text that starts and ends outside of a class. -/
theorem trim_around {p : Char → Bool} {text : List Char} (front back : List Char)
    (hhead : ∀ x ∈ text.head?, p x = false) (hlast : ∀ x ∈ text.getLast?, p x = false)
    (hfront : ∀ x ∈ front, p x = true) (hback : ∀ x ∈ back, p x = true) :
    trim p (front ++ text ++ back) = text := by
  have kept {cs : List Char} (h : ∀ x ∈ cs.head?, p x = false) : cs.dropWhile p = cs := by
    cases cs with
    | nil => rfl
    | cons x xs => exact List.dropWhile_cons_of_neg (by simpa using h)
  have last : ∀ x ∈ text.reverse.head?, p x = false := by
    rwa [List.head?_reverse]
  rw [trim, List.append_assoc, List.dropWhile_append_of_pos hfront]
  cases text with
  | nil =>
    have gone : (back ++ []).dropWhile p = [] := List.dropWhile_append_of_pos hback
    rw [List.append_nil] at gone
    rw [List.nil_append, gone]
    rfl
  | cons x xs =>
    have whole : (x :: xs ++ back).dropWhile p = x :: xs ++ back := kept hhead
    rw [whole, List.reverse_append,
      List.dropWhile_append_of_pos fun y hy => hback y (List.mem_reverse.mp hy), kept last,
      List.reverse_reverse]

/-- Removes the characters of a class from the end. -/
def trimEnd (inClass : Char → Bool) (cs : List Char) : List Char :=
  (cs.reverse.dropWhile inClass).reverse

/-- A property of finitely many characters is checked one by one. -/
@[elab_as_elim]
theorem prop_of_mem {p : Char → Prop} [DecidablePred p] {cs : List Char} {c : Char} (hc : c ∈ cs)
    (h : (cs.all fun c => decide (p c)) = true) : p c :=
  of_decide_eq_true (List.all_eq_true.mp h c hc)

end Stencil.Text
