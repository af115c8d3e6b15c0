import Stencil.Text.Printable
import Stencil.Numeral.Natural

/-!
# Quotations in messages

A text quoted for a reader: double quotes and backslashes are escaped, the three line and tabulation
controls and the null have short escapes, and every other character that is not printable is shown
by its number. Single quotes and printable characters of any script stand for themselves.
-/

set_option autoImplicit false

namespace Stencil.Text

/-- A character inside a quotation. -/
def quotedChar (c : Char) : List Char :=
  match c with
  | '\x00' => ['\\', '0']
  | '\t' => ['\\', 't']
  | '\n' => ['\\', 'n']
  | '\r' => ['\\', 'r']
  | '"' => ['\\', '"']
  | '\\' => ['\\', '\\']
  | c =>
    if isPrintable c then [c]
    else ['\\', 'u', '\x7b'] ++ Numeral.natural 16 c.toNat ++ ['\x7d']

/-- A text between double quotes. -/
def quoted (s : String) : String :=
  String.ofList ('"' :: s.toList.flatMap quotedChar ++ ['"'])

end Stencil.Text
