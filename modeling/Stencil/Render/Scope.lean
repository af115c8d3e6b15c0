import Stencil.Config
import Stencil.Error

/-!
# Scopes

The data in reach of a template: the value it was rendered with, and the values that have become the
current one in loops and `with` blocks, the innermost first. A path is resolved step by step; under
the lenient setting a missing name ends it with null.
-/

set_option autoImplicit false

namespace Stencil

/-- The data in reach. -/
structure Scope where
  root : Value
  /-- The values that have become the current one, the innermost first. -/
  dots : List Value
  missingKey : MissingKey

namespace Scope

/-- The scope of a template rendered with a value. -/
def start (root : Value) (missingKey : MissingKey) : Scope := ⟨root, [], missingKey⟩

/-- The current value. -/
def dot (s : Scope) : Value := s.dots.headD s.root

/-- Makes a value the current one. -/
def push (s : Scope) (v : Value) : Scope := { s with dots := v :: s.dots }

/-- Makes the value before the current one current again. -/
def pop (s : Scope) : Scope := { s with dots := s.dots.tail }

/-- Follows the steps of a path from a value. -/
def walk (missingKey : MissingKey) (path : Path) : Value → List Accessor → Except Error Value
  | v, [] => .ok v
  | v, step :: rest =>
    match v.step step with
    | .ok next => walk missingKey path next rest
    | .error miss =>
      if miss = .missingKey ∧ missingKey = .empty then .ok .null
      else .error (.execution (.ofMiss miss step path) path.location)

/-- The value that a path leads to. -/
def resolve (s : Scope) (path : Path) : Except Error Value :=
  let first := match path.root with
    | .dot => s.dot
    | .dollar => s.root
  walk s.missingKey path first path.accessors

end Scope

end Stencil
