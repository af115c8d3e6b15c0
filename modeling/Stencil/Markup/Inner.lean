import Stencil.Markup.Style

/-!
# Text inside values and bodies

Scripts, style sheets and addresses are read alike whether they stand in the value of an attribute
or in the body of an element. `innerStep` reads one part and takes at least one character
(`length_innerStep`); `Context.advanceInner` reads a whole text and stops at a fault.
-/

set_option autoImplicit false

namespace Stencil.Markup

/-- One step inside a value or a body, from the character `first` on: the context behind it, and
the text that is left. -/
def Context.innerStep (c : Context) (first : Char) (rest : List Char) : Context × List Char :=
  let cs := first :: rest
  match c.state with
  | .url => ({ c with urlPart := c.urlPart.advance cs }, [])
  | .js => c.codeStep cs
  | .jsDoubleQuoted => c.leave (afterQuote? '"' cs) c.afterOperand
  | .jsSingleQuoted => c.leave (afterQuote? '\'' cs) c.afterOperand
  | .jsTemplate => c.leave (afterQuote? '\x60' cs) c.afterOperand
  | .jsRegexp => c.leave (afterRegexp? false cs) c.afterOperand
  | .jsLineComment => c.leave (after? ['\n'] cs) { c with state := .js }
  | .jsBlockComment => c.leave (after? ['*', '/'] cs) { c with state := .js }
  | .css => c.ruleStep [] cs
  | .cssDoubleQuoted => c.leave (afterQuote? '"' cs) { c with state := .css }
  | .cssSingleQuoted => c.leave (afterQuote? '\'' cs) { c with state := .css }
  | .cssDoubleQuotedUrl => c.addressEnd '"' cs
  | .cssSingleQuotedUrl => c.addressEnd '\'' cs
  | .cssUrl => c.addressEnd ')' cs
  | .cssComment => c.leave (after? ['*', '/'] cs) { c with state := .css }
  | .text | .rcdata | .tagName | .tag | .attrName | .afterName | .beforeValue | .attr | .comment
  | .error => (c, [])

/-- A step takes at least one character. -/
theorem length_innerStep (c : Context) (first : Char) (rest : List Char) :
    (c.innerStep first rest).2.length < (first :: rest).length := by
  unfold Context.innerStep
  dsimp only
  split
  · simp
  · exact length_codeStep _ _ _
  · exact length_leave (by simp) fun _ => length_of_afterQuote?
  · exact length_leave (by simp) fun _ => length_of_afterQuote?
  · exact length_leave (by simp) fun _ => length_of_afterQuote?
  · exact length_leave (by simp) fun _ => length_of_afterRegexp?
  · exact length_leave (by simp) fun _ => length_of_after? (by simp)
  · exact length_leave (by simp) fun _ => length_of_after? (by simp)
  · exact length_ruleStep _ _ _ _
  · exact length_leave (by simp) fun _ => length_of_afterQuote?
  · exact length_leave (by simp) fun _ => length_of_afterQuote?
  · exact length_addressEnd _ _ _ _
  · exact length_addressEnd _ _ _ _
  · exact length_addressEnd _ _ _ _
  · exact length_leave (by simp) fun _ => length_of_after? (by simp)
  all_goals simp

/-- The context behind a text inside a value or a body. -/
def Context.advanceInner (c : Context) : List Char → Context
  | [] => c
  | first :: rest =>
    if c.isError then c
    else
      let next := c.innerStep first rest
      next.1.advanceInner next.2
termination_by cs => cs.length
decreasing_by exact length_innerStep c first rest

end Stencil.Markup
