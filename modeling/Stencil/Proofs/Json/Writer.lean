import Stencil.Json.Printer
import Stencil.Proofs.Numeral.Digits

/-!
# Writers of JSON values

A **writer** gives the compact text of a JSON value: words, whole numbers in decimal, strings that
escape the quote, the backslash and the controls, and items and fields with commas between them and
no blanks. How a float is written is left open but for its characters. What is proved of every
writer is proved of `Json.chars` (`Writer.compact`), and does not depend on where a float has its
point or its exponent.
-/

set_option autoImplicit false

namespace Stencil.Json

/-- A way to write JSON values, with what is relied on in its texts. -/
structure Writer where
  write : Json → List Char
  null : write .null = ['n', 'u', 'l', 'l']
  bool : ∀ b, write (.bool b) = if b then ['t', 'r', 'u', 'e'] else ['f', 'a', 'l', 's', 'e']
  int : ∀ n, write (.int n) = Numeral.integer n
  /-- JSON has numbers for finite floats only. -/
  float : ∀ x, Numeral.isFinite x = true → write (.float x) ⊆ Numeral.floatParts
  string : ∀ s, write (.string s) = quote s.toList
  array : ∀ items, write (.array items) = '[' :: [','].intercalate (items.map write) ++ [']']
  object : ∀ fields, write (.object fields) = '\x7b' :: [','].intercalate
    (fields.map fun field => quote field.1.toList ++ ':' :: write field.2) ++ ['\x7d']

/-- A text of a list that is given for one item, and for an item before others, has a comma between
two items. -/
theorem eq_intercalate {α : Type} {texts : List α → List Char} {text : α → List Char}
    (empty : texts [] = []) (single : ∀ item, texts [item] = text item)
    (more : ∀ item second rest,
      texts (item :: second :: rest) = text item ++ ',' :: texts (second :: rest))
    (items : List α) : texts items = [','].intercalate (items.map text) := by
  induction items with
  | nil => exact empty
  | cons item rest ih =>
    cases rest with
    | nil => rw [single, List.map_singleton, List.intercalate_singleton]
    | cons second rest =>
      simp only [more, ih, List.map_cons, List.intercalate_cons_cons, List.append_assoc,
        List.singleton_append]

theorem charsItems_eq (items : List Json) :
    charsItems items = [','].intercalate (items.map chars) :=
  eq_intercalate rfl (fun _ => rfl) (fun _ _ _ => rfl) items

theorem charsFields_eq (fields : List (String × Json)) :
    charsFields fields = [','].intercalate
      (fields.map fun field => quote field.1.toList ++ ':' :: chars field.2) :=
  eq_intercalate rfl (fun _ => rfl) (fun _ _ _ => rfl) fields

/-- The shortest digits for floats, placed by `floatLayout`. -/
def Writer.compact : Writer where
  write := chars
  null := rfl
  bool b := by cases b <;> rfl
  int _ := rfl
  float _ h := floatLayout.spell_subset h
  string _ := rfl
  array items := by rw [chars, charsItems_eq]
  object fields := by rw [chars, charsFields_eq]

end Stencil.Json
