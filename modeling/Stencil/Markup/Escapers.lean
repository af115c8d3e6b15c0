import Stencil.Markup.Join
import Stencil.Escape.Basic

/-!
# What a context asks for

The escapers for an output in a context, innermost first: those of the grammar the context is in,
and around them those of the attribute whose value it is in. Some contexts admit no output at all
(`Refusal`).
-/

set_option autoImplicit false

namespace Stencil.Markup

/-- Why a context admits no output. -/
inductive Refusal where
  | tagName
  | betweenAttributes
  /-- Branches disagree on the part of an address. -/
  | unknownUrlPart
  /-- The text before has a fault, which may have been lost. -/
  | failed (fault : Option Fault)
deriving DecidableEq, Repr

/-- The wording of a refusal. -/
def Refusal.message : Refusal → String
  | .tagName => "action in a tag name"
  | .betweenAttributes => "action in an attribute name or between attributes"
  | .unknownUrlPart => "cannot tell which part of a URL the action is in"
  | .failed (some fault) => fault.message
  | .failed none => "action in an unknown context"

/-- The escapers for a part of an address. -/
def UrlPart.escapers : UrlPart → Except Refusal (List Escaper)
  | .none => .ok [.urlFilter, .urlNormalize]
  | .preQuery => .ok [.urlNormalize]
  | .queryOrFragment => .ok [.urlQuery]
  | .unknown => .error .unknownUrlPart

/-- The escapers for a value with a delimiter. -/
def Delim.escapers : Delim → List Escaper
  | .none => []
  | .spaceOrTagEnd => [.htmlAttrUnquoted]
  | .doubleQuote | .singleQuote => [.htmlAttr]

namespace Context

/-- The escapers for the grammar that a context is in. -/
def innerEscapers (c : Context) : Except Refusal (List Escaper) :=
  match c.state with
  | .text | .rcdata => .ok [.htmlText]
  | .attr => .ok []
  | .url | .cssDoubleQuotedUrl | .cssSingleQuotedUrl | .cssUrl => c.urlPart.escapers
  | .js => .ok [.jsValue]
  | .jsDoubleQuoted | .jsSingleQuoted | .jsTemplate => .ok [.jsString]
  | .jsRegexp => .ok [.jsRegexp]
  | .css => .ok [.cssValue]
  | .cssDoubleQuoted | .cssSingleQuoted => .ok [.cssString]
  | .comment | .jsLineComment | .jsBlockComment | .cssComment => .ok [.comment]
  | .tagName => .error .tagName
  | .tag | .attrName | .afterName | .beforeValue => .error .betweenAttributes
  | .error => .error (.failed c.error)

/-- Whether a context is in a comment of any grammar. -/
def inComment (c : Context) : Bool :=
  match c.state with
  | .comment | .jsLineComment | .jsBlockComment | .cssComment => true
  | _ => false

/-- The escapers for an output in a context, innermost first. Nothing is written in a comment, so
none are needed around it. -/
def escapers (c : Context) : Except Refusal (List Escaper) := do
  let inner ← c.innerEscapers
  pure (if c.inComment then inner else inner ++ c.delim.escapers)

end Context

end Stencil.Markup
