import Stencil.Text.Quoted

/-!
# Markup contexts

A **context** says where in a document a piece of text ends: in which part of a tag, attribute,
script or style sheet, and what is needed to go on from there. Text moves a context forward; what
may be written in a context depends on the context alone.

Two of the parts can be unknown, where branches of a template disagree: the part of an address that
is being written (`UrlPart`) and what a slash in a script would mean (`Slash`).
-/

set_option autoImplicit false

namespace Stencil.Markup

/-- Where a text ends. -/
inductive State where
  /-- Text of a document. -/
  | text
  /-- Body of an element that holds text and no tags. -/
  | rcdata
  | tagName
  /-- Inside a tag, between attributes. -/
  | tag
  | attrName
  /-- After an attribute's name, before an equals sign. -/
  | afterName
  /-- After the equals sign, before the value. -/
  | beforeValue
  /-- In a value without a grammar of its own. -/
  | attr
  /-- In a value that is an address. -/
  | url
  | js
  | jsDoubleQuoted
  | jsSingleQuoted
  | jsTemplate
  | jsRegexp
  | jsLineComment
  | jsBlockComment
  | css
  | cssDoubleQuoted
  | cssSingleQuoted
  /-- In an address between double quotes. -/
  | cssDoubleQuotedUrl
  /-- In an address between single quotes. -/
  | cssSingleQuotedUrl
  /-- In an address without quotes. -/
  | cssUrl
  | cssComment
  | comment
  /-- Nothing can safely be written here. -/
  | error
deriving DecidableEq, Repr

namespace State

/-- All states. -/
def all : List State :=
  [.text, .rcdata, .tagName, .tag, .attrName, .afterName, .beforeValue, .attr, .url, .js,
   .jsDoubleQuoted, .jsSingleQuoted, .jsTemplate, .jsRegexp, .jsLineComment, .jsBlockComment, .css,
   .cssDoubleQuoted, .cssSingleQuoted, .cssDoubleQuotedUrl, .cssSingleQuotedUrl, .cssUrl,
   .cssComment, .comment, .error]

/-- A state as messages name it. -/
def label : State → String
  | .text => "Text"
  | .rcdata => "Rcdata"
  | .tagName => "TagName"
  | .tag => "Tag"
  | .attrName => "AttrName"
  | .afterName => "AfterName"
  | .beforeValue => "BeforeValue"
  | .attr => "Attr"
  | .url => "Url"
  | .js => "Js"
  | .jsDoubleQuoted => "JsDqStr"
  | .jsSingleQuoted => "JsSqStr"
  | .jsTemplate => "JsBqStr"
  | .jsRegexp => "JsRegexp"
  | .jsLineComment => "JsLineCmt"
  | .jsBlockComment => "JsBlockCmt"
  | .css => "Css"
  | .cssDoubleQuoted => "CssDqStr"
  | .cssSingleQuoted => "CssSqStr"
  | .cssDoubleQuotedUrl => "CssDqUrl"
  | .cssSingleQuotedUrl => "CssSqUrl"
  | .cssUrl => "CssUrl"
  | .cssComment => "CssCmt"
  | .comment => "HtmlCmt"
  | .error => "Error"

end State

/-- How the attribute value being read ends. -/
inductive Delim where
  /-- No value is being read. -/
  | none
  | doubleQuote
  | singleQuote
  | spaceOrTagEnd
deriving DecidableEq, Repr

namespace Delim

/-- All ways for a value to end. -/
def all : List Delim := [.none, .doubleQuote, .singleQuote, .spaceOrTagEnd]

/-- A delimiter as messages name it. -/
def label : Delim → String
  | .none => "None"
  | .doubleQuote => "DoubleQuote"
  | .singleQuote => "SingleQuote"
  | .spaceOrTagEnd => "SpaceOrTagEnd"

end Delim

/-- What the value of an attribute is. -/
inductive AttrKind where
  /-- No attribute is being read. -/
  | none
  | plain
  | url
  | script
  | style
deriving DecidableEq, Repr

namespace AttrKind

/-- All kinds of attributes. -/
def all : List AttrKind := [.none, .plain, .url, .script, .style]

/-- A kind of attribute as messages name it. -/
def label : AttrKind → String
  | .none => "None"
  | .plain => "Plain"
  | .url => "Url"
  | .script => "Script"
  | .style => "Style"

/-- The state in which the value of an attribute starts. -/
def valueState : AttrKind → State
  | .url => .url
  | .script => .js
  | .style => .css
  | .none | .plain => .attr

end AttrKind

/-- Elements whose body is no text of a document. -/
inductive Element where
  | none
  | script
  | style
  | textarea
  | title
deriving DecidableEq, Repr

namespace Element

/-- All such elements. -/
def all : List Element := [.none, .script, .style, .textarea, .title]

/-- An element as messages name it. -/
def label : Element → String
  | .none => "None"
  | .script => "Script"
  | .style => "Style"
  | .textarea => "Textarea"
  | .title => "Title"

/-- The name in the tags of an element. -/
def name : Element → String
  | .none => ""
  | .script => "script"
  | .style => "style"
  | .textarea => "textarea"
  | .title => "title"

/-- The element whose tag has a name. -/
def ofName : String → Element
  | "script" => .script
  | "style" => .style
  | "textarea" => .textarea
  | "title" => .title
  | _ => .none

/-- The state in which the body of an element starts. -/
def bodyState : Element → State
  | .none => .text
  | .script => .js
  | .style => .css
  | .textarea | .title => .rcdata

end Element

/-- How far an address has been written. -/
inductive UrlPart where
  /-- Nothing is written and the scheme is open. -/
  | none
  /-- In the scheme, the authority or the path. -/
  | preQuery
  | queryOrFragment
  /-- Branches disagree. -/
  | unknown
deriving DecidableEq, Repr

namespace UrlPart

/-- All parts of an address. -/
def all : List UrlPart := [.none, .preQuery, .queryOrFragment, .unknown]

/-- A part of an address as messages name it. -/
def label : UrlPart → String
  | .none => "None"
  | .preQuery => "PreQuery"
  | .queryOrFragment => "QueryOrFrag"
  | .unknown => "Unknown"

end UrlPart

/-- What a slash would be at this point of a script. -/
inductive Slash where
  | regexp
  | division
  /-- Branches disagree. -/
  | unknown
deriving DecidableEq, Repr

namespace Slash

/-- All meanings of a slash. -/
def all : List Slash := [.regexp, .division, .unknown]

/-- A meaning of a slash as messages name it. -/
def label : Slash → String
  | .regexp => "Regexp"
  | .division => "DivOp"
  | .unknown => "Unknown"

end Slash

/-- Why a text leaves no context. -/
inductive Fault where
  /-- A slash was met where its meaning is unknown. -/
  | slash
deriving DecidableEq, Repr

/-- The wording of a fault. -/
def Fault.message : Fault → String
  | .slash => "'/' could start a division or a regexp"

/-- Where in a document a text ends. -/
structure Context where
  state : State := .text
  delim : Delim := .none
  attr : AttrKind := .none
  element : Element := .none
  urlPart : UrlPart := .none
  slash : Slash := .regexp
  /-- The part of a tag's or an attribute's name that has been read, in lower case. -/
  pendingName : String := ""
  /-- The tag being read is an end tag. -/
  endTag : Bool := false
  error : Option Fault := none
deriving DecidableEq, Repr, Inhabited

namespace Context

/-- The start of a document. -/
def start : Context := {}

/-- The context behind a fault. -/
def failed (fault : Fault) : Context := { state := .error, error := some fault }

/-- Whether nothing can be written any more. -/
def isError (c : Context) : Bool := c.state == .error

/-- A context as messages show it: the state, and what differs from the start of a document. -/
def describe (c : Context) : String :=
  let part (shown : Bool) (s : String) : String := if shown then s else ""
  "\x7b" ++ c.state.label ++
    part (c.delim ≠ .none) (" delim=" ++ c.delim.label) ++
    part (c.attr ≠ .none) (" attr=" ++ c.attr.label) ++
    part (c.element ≠ .none) (" element=" ++ c.element.label) ++
    part (c.urlPart ≠ .none) (" url=" ++ c.urlPart.label) ++
    part (c.slash ≠ .regexp) (" js=" ++ c.slash.label) ++
    part (c.pendingName ≠ "") (" name=" ++ Text.quoted c.pendingName) ++ "\x7d"

end Context

end Stencil.Markup
