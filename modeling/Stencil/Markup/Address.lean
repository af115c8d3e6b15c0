import Stencil.Markup.Context
import Stencil.Text.Blank

/-!
# Addresses

How text moves the part of an address: a question mark or a number sign anywhere opens the query or
the fragment, and the first character that is no blank closes the scheme's place.
-/

set_option autoImplicit false

namespace Stencil.Markup

open Stencil.Text

/-- The part of an address after more text. -/
def UrlPart.advance (part : UrlPart) (cs : List Char) : UrlPart :=
  if cs.any fun c => c == '?' || c == '#' then .queryOrFragment
  else if part = .none ∧ cs.any (fun c => !isSpace c) then .preQuery
  else part

end Stencil.Markup
