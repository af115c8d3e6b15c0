import Stencil.Escape.Address
import Stencil.Escape.Script
import Stencil.Escape.Style

/-!
# Escapers

The rules by which a value is made safe for its place in a document. A place can need several, from
the innermost grammar outwards: an address in an attribute is first made an address and then the
value of an attribute. `apply` runs them over a value.
-/

set_option autoImplicit false

namespace Stencil

/-- A rule for one grammar. -/
inductive Escaper where
  | htmlText
  | htmlAttr
  | htmlAttrUnquoted
  | urlFilter
  | urlNormalize
  | urlQuery
  | jsValue
  | jsString
  | jsRegexp
  | cssValue
  | cssString
  /-- Nothing is written in a comment. -/
  | comment
  /-- Everything is written as it is. -/
  | verbatim
deriving DecidableEq, Repr

namespace Escaper

/-- All rules. -/
def all : List Escaper :=
  [.htmlText, .htmlAttr, .htmlAttrUnquoted, .urlFilter, .urlNormalize, .urlQuery, .jsValue,
   .jsString, .jsRegexp, .cssValue, .cssString, .comment, .verbatim]

/-- The name of a rule. -/
def name : Escaper → String
  | .htmlText => "html_text"
  | .htmlAttr => "html_attr"
  | .htmlAttrUnquoted => "html_attr_unquoted"
  | .urlFilter => "url_filter"
  | .urlNormalize => "url_normalize"
  | .urlQuery => "url_query"
  | .jsValue => "js_value"
  | .jsString => "js_string"
  | .jsRegexp => "js_regexp"
  | .cssValue => "css_value"
  | .cssString => "css_string"
  | .comment => "comment"
  | .verbatim => "verbatim"

/-- The rule with a name. -/
def ofName? (s : String) : Option Escaper :=
  all.find? fun e => e.name == s

/-- A rule applied to text. -/
def text : Escaper → List Char → List Char
  | .htmlText, cs => Escape.html cs
  | .htmlAttr, cs => Escape.htmlAttr cs
  | .htmlAttrUnquoted, cs => Escape.htmlAttrUnquoted cs
  | .urlFilter, cs => Escape.urlFilter cs
  | .urlNormalize, cs => Escape.urlNormalize cs
  | .urlQuery, cs => Escape.urlQuery cs
  | .jsValue, cs => Escape.jsValue (.string (String.ofList cs))
  | .jsString, cs => Escape.jsString cs
  | .jsRegexp, cs => Escape.jsRegexp cs
  | .cssValue, cs => Escape.cssValue cs
  | .cssString, cs => Escape.cssString cs
  | .comment, _ => []
  | .verbatim, cs => cs

/-- A rule applied to a value; only a script's expression looks at more than its printed form. -/
def value (e : Escaper) (v : Value) (write : Json → List Char := Json.chars) : List Char :=
  match e with
  | .jsValue => Escape.jsValue v write
  | e => e.text v.chars

/-- Rules applied to a value, the innermost first, with a way to write JSON values. -/
def apply (rules : List Escaper) (v : Value) (write : Json → List Char := Json.chars) :
    List Char :=
  match rules with
  | [] => v.chars
  | first :: rest => rest.foldl (fun cs e => e.text cs) (first.value v write)

end Escaper

end Stencil
