import Stencil.Numeral.Natural

/-!
# Positions in a source text

A **location** names a point between two characters three times over: by line and column for a
reader, and by byte offset for a tool. Lines and columns count from one, columns count characters,
offsets count the bytes of the text's UTF-8 form. All three come from one fold over the characters
before the point (`Location.advance`), so the location of a point is a function of what precedes it
(`Location.advance_append`).
-/

set_option autoImplicit false

namespace Stencil

/-- A point in a source text. -/
structure Location where
  line : Nat
  column : Nat
  offset : Nat
deriving DecidableEq, Repr, Inhabited

namespace Location

/-- The point before the first character. -/
def start : Location := ⟨1, 1, 0⟩

/-- The place of what no source text holds, such as the name of an entry asked for by a caller. -/
def outside : Location := ⟨0, 0, 0⟩

/-- The point after one more character; a line feed opens a new line. -/
def next (here : Location) (c : Char) : Location :=
  if c = '\n' then ⟨here.line + 1, 1, here.offset + c.utf8Size⟩
  else ⟨here.line, here.column + 1, here.offset + c.utf8Size⟩

/-- The point after a run of characters. -/
def advance (here : Location) (run : List Char) : Location :=
  run.foldl next here

@[simp] theorem advance_nil (here : Location) : here.advance [] = here := rfl

@[simp] theorem advance_cons (here : Location) (c : Char) (run : List Char) :
    here.advance (c :: run) = (here.next c).advance run := rfl

@[simp] theorem advance_append (here : Location) (first second : List Char) :
    here.advance (first ++ second) = (here.advance first).advance second := by
  simp [advance, List.foldl_append]

/-- The location as messages word it. -/
def phrase (here : Location) : String :=
  "line " ++ Numeral.text here.line ++ ", column " ++ Numeral.text here.column

end Location

end Stencil
