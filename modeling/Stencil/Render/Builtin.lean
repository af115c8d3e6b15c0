import Stencil.Error

/-!
# Functions

What the functions of a pipeline compute from values. Two values compare when they are of one kind
or both numbers, and null compares with everything; lists and records compare with null alone. The
printing functions join their arguments, with a blank between two of which neither is a string.
-/

set_option autoImplicit false

namespace Stencil

/-- Whether two values are equal, if they can be compared. -/
def Value.equal? (a b : Value) : Option Bool :=
  match a, b with
  | .null, .null => some true
  | .null, _ | _, .null => some false
  | .bool x, .bool y => some (x == y)
  | .integer x, .integer y => some (x == y)
  | .float x, .float y => some (x == y)
  | .integer x, .float y | .float y, .integer x => some (x.toFloat == y)
  | .string x, .string y => some (x == y)
  | _, _ => none

/-- Whether a value is a string. -/
def Value.isString : Value → Bool
  | .string _ => true
  | _ => false

/-- The number of bytes of a string, items of a list or fields of a record. -/
def Value.length? : Value → Option Nat
  | .string s => some s.utf8ByteSize
  | .array items => some items.length
  | .object fields => some fields.toList.length
  | _ => none

/-- Values printed one after another. -/
def Value.joined : List Value → List Char
  | [] => []
  | [v] => v.chars
  | v :: w :: rest =>
    let gap := if v.isString || w.isString then [] else [' ']
    v.chars ++ gap ++ Value.joined (w :: rest)

namespace Builtin

/-- Whether two values are equal, for a function that compares them. -/
def compare (f : Builtin) (a b : Value) : Except ExecutionFault Bool :=
  match a.equal? b with
  | some same => .ok same
  | none => .error (.incomparable f a.kind b.kind)

/-- Whether a value equals one of some others; looking stops at the first that does. -/
def equalsAny (first : Value) : List Value → Except ExecutionFault Bool
  | [] => .ok false
  | other :: rest => do
    if ← compare .eq first other then pure true else equalsAny first rest

/-- The first value that decides a chain of conditions, or else the last one. -/
def deciding (stop : Bool) : List Value → Value
  | [] => .null
  | [v] => v
  | v :: w :: rest => if v.isTruthy == stop then v else deciding stop (w :: rest)

/-- The printed arguments under a rule, as a string. -/
def printed (rule : List Char → List Char) (args : List Value) : Value :=
  .string (String.ofList (rule (Value.joined args)))

/-- The value of a function for its arguments. -/
def apply (f : Builtin) (args : List Value) : Except ExecutionFault Value :=
  match f, args with
  | .not, [v] => .ok (.bool (!v.isTruthy))
  | .and, args => .ok (deciding false args)
  | .or, args => .ok (deciding true args)
  | .eq, first :: second :: rest => .bool <$> equalsAny first (second :: rest)
  | .ne, [a, b] => (compare .ne a b).map fun same => .bool !same
  | .len, [v] =>
    match v.length? with
    | some n => .ok (.integer (Int64.ofNat n))
    | none => .error (.noLength v.kind)
  | .html, args => .ok (printed Escape.html args)
  | .js, args => .ok (printed Escape.jsString args)
  | .urlquery, args => .ok (printed Escape.urlQuery args)
  | .print, args => .ok (printed id args)
  | f, args => .error (.wrongCount f args.length)

end Builtin

end Stencil
