import Stencil.Markup.Advance

/-!
# Outputs and joins

What a context becomes when something is written in it, and when two ways through a template meet.

A value written right after an equals sign starts a value without quotes, and one written after an
attribute's name starts something new (`Context.nudge`). Two contexts join when they agree, when
they differ only in the part of an address or in the meaning of a slash, which then becomes unknown,
or when they agree after a nudge.
-/

set_option autoImplicit false

namespace Stencil.Markup.Context

/-- The context in which an output is written. -/
def nudge (c : Context) : Context :=
  match c.state with
  | .beforeValue => c.enterValue .spaceOrTagEnd
  | .afterName => { c with state := .tag, attr := .none }
  | _ => c

/-- The context behind an output. -/
def afterOutput (c : Context) : Context :=
  if c.state = .js then { c with slash := .division } else c

/-- The join of two contexts as they stand. -/
def joinDirect (a b : Context) : Option Context :=
  if a.isError then some a
  else if b.isError then some b
  else if a = b then some a
  else if { a with urlPart := b.urlPart } = b then some { a with urlPart := .unknown }
  else if { a with slash := b.slash } = b then some { a with slash := .unknown }
  else none

/-- The context in which two ways meet, if they can be reconciled. -/
def join (a b : Context) : Option Context :=
  match joinDirect a b with
  | some c => some c
  | none =>
    if a.nudge ≠ a ∨ b.nudge ≠ b then joinDirect a.nudge b.nudge else none

end Stencil.Markup.Context
