import Stencil.Proofs.Template.Texts

/-!
# Reading into an arena

Another reading of tokens, which makes no trees (`Parser.Filling.run`). Every item becomes a row as
soon as it is complete, at the end of one list of rows that all open lists share, and a list is the
numbers of its rows. For the body of a definition this list of rows is put aside, and an empty one
takes its place.

It refuses what the parser refuses, with the same error, and otherwise its rows and numbers are the
listings of the parser's templates (`Parser.Filling.run_of`). So what is known of listings is known
of rows that were filled in this way, whatever definitions were open in between
(`Source.ofTokens_proper`).
-/

set_option autoImplicit false

namespace Stencil

namespace Parser.Filling

/-- An open block or definition, with numbers for what has been read. -/
structure Frame where
  opener : Opener
  location : Location
  body : Option (List Nat)
  /-- The numbers in the list that it interrupts, last first. -/
  before : List Nat
  /-- The rows that a definition puts aside. -/
  outer : List (Row Piece)

/-- The state between two items. -/
structure State where
  rows : List (Row Piece)
  /-- The numbers in the list being read, last first. -/
  current : List Nat
  frames : List Frame
  /-- The definitions that are done, with their names and locations. -/
  defines : List (String × Listing Piece × Location)

/-- The state before the first token. -/
def State.initial : State := ⟨[], [], [], []⟩

/-- Adds a row, and its number to the list being read. -/
def State.push (σ : State) (row : Row Piece) : State :=
  { σ with rows := σ.rows ++ [row], current := σ.rows.length :: σ.current }

/-- Puts the list being read aside, and for a definition the rows as well. -/
def State.open (σ : State) (opener : Opener) (here : Location) : State :=
  if opener.isBlock then
    { σ with current := [], frames := ⟨opener, here, none, σ.current, []⟩ :: σ.frames }
  else
    { σ with
      rows := []
      current := []
      frames := ⟨opener, here, none, σ.current, σ.rows⟩ :: σ.frames }

/-- The row of a block. -/
def Frame.row (f : Frame) (kind : BlockKind) (subject : Pipeline) (read : List Nat) : Row Piece :=
  match f.body with
  | none => .block kind subject read none f.location
  | some body => .block kind subject body (some read) f.location

/-- Adds the row of the block on top, and those of the blocks that it is chained to. -/
def closeChain (rows : List (Row Piece)) (chained : Bool) (row : Row Piece) (before : List Nat) :
    List Frame → List (Row Piece) × List Nat × List Frame
  | [] => (rows ++ [row], rows.length :: before, [])
  | f :: frames =>
    match chained, f.opener with
    | true, .block kind subject outer =>
      closeChain (rows ++ [row]) outer (f.row kind subject [rows.length]) f.before frames
    | _, _ => (rows ++ [row], rows.length :: before, f :: frames)

/-- Ends what the top frame opened. -/
def State.close (σ : State) (here : Location) : Except SourceError State :=
  match σ.frames with
  | [] => structural .strayEnd here
  | f :: frames =>
    let read := σ.current.reverse
    match f.opener with
    | .block kind subject chained =>
      let (rows, current, frames) :=
        closeChain σ.rows chained (f.row kind subject read) f.before frames
      .ok ⟨rows, current, frames, σ.defines⟩
    | .define name =>
      .ok ⟨f.outer, f.before, frames, σ.defines ++ [(name, ⟨σ.rows, read⟩, f.location)]⟩
    | .slot name data =>
      let defines := σ.defines ++ [(name, ⟨σ.rows, read⟩, f.location)]
      .ok (State.push ⟨f.outer, f.before, frames, defines⟩
        (.leaf (.embed name (some data) f.location)))

/-- Ends the body of the top frame, where its alternative starts. -/
def State.otherwise (σ : State) (subject : Option Pipeline) (here : Location) :
    Except SourceError State :=
  match σ.frames with
  | [] => structural .strayElse here
  | f :: frames =>
    match f.opener, f.body with
    | .block kind _ _, none =>
      let split := { f with body := some σ.current.reverse }
      let turned : State := { σ with current := [], frames := split :: frames }
      match subject, kind with
      | none, _ => .ok turned
      | some p, .cond => .ok (turned.open (.block .cond p true) here)
      | some _, _ => structural (.elseIfIn kind.keyword) here
    | opener, _ => structural (.secondElse opener.keyword) here

/-- Opens a definition, whose name must be new in the source called `main`. -/
def State.openDefinition (σ : State) (main : String) (opener : Opener) (name : String)
    (here : Location) : Except SourceError State :=
  if name = main ∨ σ.defines.any (·.1 = name) then structural (.redefined name) here
  else .ok (σ.open opener here)

/-- Does what an action at a location says. -/
def State.act (σ : State) (main : String) (action : Action) (here : Location) :
    Except SourceError State :=
  match action with
  | .output p => .ok (σ.push (.leaf (.output p here)))
  | .embed name data => .ok (σ.push (.leaf (.embed name data here)))
  | .opening kind subject => .ok (σ.open (.block kind subject false) here)
  | .otherwise => σ.otherwise none here
  | .otherwiseIf subject => σ.otherwise (some subject) here
  | .close => σ.close here
  | .define name => σ.openDefinition main (.define name) name here
  | .slot name data => σ.openDefinition main (.slot name data) name here

/-- The listings read, if nothing is left open, the main one first. -/
def State.finish (σ : State) (main : String) :
    Except SourceError (List (String × Listing Piece × Location)) :=
  match σ.frames with
  | [] => .ok ((main, ⟨σ.rows, σ.current.reverse⟩, .start) :: σ.defines)
  | f :: _ => structural (.unclosed f.opener.keyword) f.location

/-- Goes through the tokens of the source called `main`. -/
def run (main : String) (σ : State) :
    List Token → Except SourceError (List (String × Listing Piece × Location))
  | [] => σ.finish main
  | t :: rest =>
    match t.kind with
    | .eof => σ.finish main
    | .text content => run main (σ.push (.leaf (.text content t.location))) rest
    | .actionOpen => do
      let split := splitAction rest
      let action ← Action.ofTokens split.1 σ.frames.isEmpty t.location split.2.1
      let σ ← σ.act main action t.location
      run main σ split.2.2
    | _ => unexpected .item t
termination_by ts => ts.length
decreasing_by
  · simp
  · have := length_splitAction rest
    simp only [List.length_cons]
    omega

end Parser.Filling

namespace Tree

variable {α : Type}

theorem sizes_append (first second : List (Tree α)) :
    sizes (first ++ second) = sizes first + sizes second := by
  induction first with
  | nil => simp [sizes]
  | cons t rest ih => rw [List.cons_append, sizes, sizes, ih, Nat.add_assoc]

theorem ids_append (start : Nat) (first second : List (Tree α)) :
    ids start (first ++ second) = ids start first ++ ids (start + sizes first) second := by
  induction first generalizing start with
  | nil => simp [ids, sizes]
  | cons t rest ih => rw [List.cons_append, ids, ids, ih, sizes, Nat.add_assoc, List.cons_append]

theorem rowsOf_append (start : Nat) (first second : List (Tree α)) :
    rowsOf start (first ++ second) = rowsOf start first ++ rowsOf (start + sizes first) second := by
  induction first generalizing start with
  | nil => simp [rowsOf, sizes]
  | cons t rest ih =>
    rw [List.cons_append, rowsOf, rowsOf, ih, sizes, Nat.add_assoc, List.append_assoc]

end Tree

namespace Parser.Filling

open Stencil.Tree (ids rowsOf sizes)

/-! ## The filling of a parser's state -/

/-- The numbers of the trees read behind some others, with the last one first in both lists. -/
def numbers (before read : List (Tree Piece)) : List Nat :=
  (ids (sizes before) read.reverse).reverse

/-- A frame of the parser, with other frames below it, as rows and numbers. -/
def Frame.of (f : Parser.Frame) (frames : List Parser.Frame) : Frame where
  opener := f.opener
  location := f.location
  body := f.body.map (ids (sizes ((spread frames).1 ++ f.before.reverse)))
  before := numbers (spread frames).1 f.before
  outer := if f.opener.isBlock then [] else rowsOf 0 ((spread frames).1 ++ f.before.reverse)

/-- Frames of the parser as rows and numbers. -/
def Frame.all : List Parser.Frame → List Frame
  | [] => []
  | f :: frames => Frame.of f frames :: Frame.all frames

/-- A template as a listing, with its name and location. -/
def listing (t : Template) : String × Listing Piece × Location :=
  (t.name, .ofTrees t.body, t.location)

/-- A state of the parser as rows and numbers: what has been read of the innermost template is in
the rows. -/
def State.of (σ : Parser.State) : State where
  rows := rowsOf 0 ((spread σ.frames).1 ++ σ.current.reverse)
  current := numbers (spread σ.frames).1 σ.current
  frames := Frame.all σ.frames
  defines := σ.defines.map listing

@[simp] theorem numbers_nil (before : List (Tree Piece)) : numbers before [] = [] := rfl

theorem reverse_numbers (before read : List (Tree Piece)) :
    (numbers before read).reverse = ids (sizes before) read.reverse :=
  List.reverse_reverse _

/-- The last tree of a list has the number of its last row. -/
theorem numbers_cons (before read : List (Tree Piece)) (t : Tree Piece) :
    numbers before (t :: read) =
      (sizes (before ++ read.reverse) + t.size - 1) :: numbers before read := by
  simp [numbers, Tree.ids_append, Tree.sizes_append, ids]

theorem State.of_push (σ : Parser.State) (item : Piece) :
    (State.of σ).push (.leaf item) = State.of (σ.push (.leaf item)) := by
  simp [State.of, State.push, Parser.State.push, numbers_cons, Tree.rowsOf_append, rowsOf,
    Tree.rows, Tree.size, Tree.sizes_append]

theorem State.of_open (σ : Parser.State) (opener : Opener) (here : Location) :
    (State.of σ).open opener here = State.of (σ.open opener here) := by
  cases h : opener.isBlock <;>
    simp [State.of, State.open, Parser.State.open, Frame.all, Frame.of, spread, h, rowsOf]

/-- The block of a frame adds one row to those of its body and of the list just read. -/
theorem rowsOf_block (f : Parser.Frame) (frames : List Parser.Frame) (kind : BlockKind)
    (subject : Pipeline) (read : List (Tree Piece)) :
    rowsOf 0 ((spread frames).1 ++ f.before.reverse ++ [f.block kind subject read]) =
      rowsOf 0 ((spread frames).1 ++ f.before.reverse ++ f.body.getD [] ++ read) ++
        [(Frame.of f frames).row kind subject
          (ids (sizes ((spread frames).1 ++ f.before.reverse ++ f.body.getD [])) read)] := by
  cases h : f.body with
  | none =>
    simp [Parser.Frame.block, Frame.row, Frame.of, h, Tree.rowsOf_append, Tree.sizes_append, rowsOf,
      Tree.rows]
  | some body =>
    simp [Parser.Frame.block, Frame.row, Frame.of, h, Tree.rowsOf_append, Tree.sizes_append, rowsOf,
      Tree.rows, Nat.add_assoc]

/-- A row added for a tree has the number of this tree. -/
theorem length_of_added {before : List (Tree Piece)} {t : Tree Piece} {rows : List (Row Piece)}
    {row : Row Piece} (added : rows ++ [row] = rowsOf 0 (before ++ [t])) :
    rows.length = sizes before + t.size - 1 := by
  have length := congrArg List.length added
  simp only [List.length_append, List.length_singleton, Tree.length_rowsOf, Tree.sizes_append,
    sizes] at length
  omega

/-- A tree whose row is added joins the list before it. -/
theorem joined_of_added {frames : List Parser.Frame} {before : List (Tree Piece)} {t : Tree Piece}
    {rows : List (Row Piece)} {row : Row Piece}
    (added : rows ++ [row] = rowsOf 0 ((spread frames).1 ++ before.reverse ++ [t])) :
    (rows ++ [row], rows.length :: numbers (spread frames).1 before, Frame.all frames) =
      (rowsOf 0 ((spread frames).1 ++ (t :: before).reverse),
        numbers (spread frames).1 (t :: before), Frame.all frames) := by
  rw [numbers_cons, length_of_added added, added, List.reverse_cons, List.append_assoc]

/-- The rows of a chain of blocks are added one by one. -/
theorem closeChain_of {chained : Bool} {t : Tree Piece} {before : List (Tree Piece)}
    {frames : List Parser.Frame} {rows : List (Row Piece)} {row : Row Piece}
    (start : chained = true → before = []) (starts : ∀ f ∈ frames, f.AtStart)
    (added : rows ++ [row] = rowsOf 0 ((spread frames).1 ++ before.reverse ++ [t])) :
    closeChain rows chained row (numbers (spread frames).1 before) (Frame.all frames) =
      let closed := Parser.closeChain chained t before frames
      (rowsOf 0 ((spread closed.2).1 ++ closed.1.reverse), numbers (spread closed.2).1 closed.1,
        Frame.all closed.2) := by
  have joined := joined_of_added added
  induction frames generalizing chained t before rows row with
  | nil => exact joined
  | cons f frames ih =>
    cases chained with
    | false => exact joined
    | true =>
      cases hopener : f.opener with
      | define name =>
        simpa [closeChain, Parser.closeChain, Frame.all, Frame.of, hopener] using joined
      | slot name data =>
        simpa [closeChain, Parser.closeChain, Frame.all, Frame.of, hopener] using joined
      | block kind subject outer =>
        obtain ⟨hstart, hrest⟩ := List.forall_mem_cons.mp starts
        have first (houter : outer = true) : f.before = [] := hstart (by rw [hopener]; exact houter)
        obtain rfl := start rfl
        have base : (spread (f :: frames)).1 =
            (spread frames).1 ++ f.before.reverse ++ f.body.getD [] := by
          simp [spread, hopener, Opener.isBlock]
        rw [base, List.reverse_nil, List.append_nil] at added
        have number : [rows.length] =
            ids (sizes ((spread frames).1 ++ f.before.reverse ++ f.body.getD [])) [t] := by
          rw [length_of_added added]
          rfl
        have next : (rows ++ [row]) ++ [(Frame.of f frames).row kind subject [rows.length]] =
            rowsOf 0 ((spread frames).1 ++ f.before.reverse ++ [f.block kind subject [t]]) := by
          rw [rowsOf_block, added, number]
        have closed := ih first hrest next (joined_of_added next)
        simpa [closeChain, Parser.closeChain, Frame.all, Frame.of, hopener] using closed

/-! ## The steps of the two readings -/

theorem State.of_otherwise (σ : Parser.State) (subject : Option Pipeline) (here : Location) :
    (State.of σ).otherwise subject here = (σ.otherwise subject here).map State.of := by
  obtain ⟨current, frames, defines⟩ := σ
  cases frames with
  | nil => rfl
  | cons f frames =>
    obtain ⟨opener, start, body, before⟩ := f
    cases opener with
    | define name => rfl
    | slot name data => rfl
    | block kind outer chained =>
      cases body with
      | some body => rfl
      | none =>
        let f : Parser.Frame := ⟨.block kind outer chained, start, none, before⟩
        let split : Parser.Frame := { f with body := some current.reverse }
        let read := (numbers (spread (f :: frames)).1 current).reverse
        have whole : { Frame.of f frames with body := some read } = Frame.of split frames := by
          simp [Frame.of, spread, Opener.isBlock, reverse_numbers, read, split, f]
        have turned : { State.of ⟨current, f :: frames, defines⟩ with
              current := []
              frames := { Frame.of f frames with body := some read } :: Frame.all frames } =
            State.of ⟨[], split :: frames, defines⟩ := by
          rw [whole]
          simp [State.of, Frame.all, spread, Opener.isBlock, split, f]
        cases subject with
        | none => exact congrArg Except.ok turned
        | some p =>
          cases kind with
          | cond =>
            have opened := State.of_open ⟨[], split :: frames, defines⟩ (.block .cond p true) here
            rw [← turned] at opened
            exact congrArg Except.ok opened
          | each => rfl
          | within => rfl

theorem State.of_openDefinition (σ : Parser.State) (main : String) (opener : Opener) (name : String)
    (here : Location) :
    (State.of σ).openDefinition main opener name here =
      (σ.openDefinition main opener name here).map State.of := by
  have named : (State.of σ).defines.any (·.1 = name) = σ.defines.any (·.name = name) := by
    rw [State.of, List.any_map]
    rfl
  unfold State.openDefinition Parser.State.openDefinition
  rw [named]
  split
  · rfl
  · exact congrArg Except.ok (State.of_open σ opener here)

theorem State.of_close {σ : Parser.State} (starts : ∀ f ∈ σ.frames, f.AtStart) (here : Location) :
    (State.of σ).close here = (σ.close here).map State.of := by
  obtain ⟨current, frames, defines⟩ := σ
  cases frames with
  | nil => rfl
  | cons f frames =>
    obtain ⟨hstart, hrest⟩ := List.forall_mem_cons.mp starts
    obtain ⟨opener, start, body, before⟩ := f
    cases opener with
    | block kind subject chained =>
      let f : Parser.Frame := ⟨.block kind subject chained, start, body, before⟩
      have base : (spread (f :: frames)).1 =
          (spread frames).1 ++ f.before.reverse ++ f.body.getD [] := rfl
      have added := rowsOf_block f frames kind subject current.reverse
      rw [← base, ← reverse_numbers] at added
      have first : chained = true → f.before = [] := hstart
      have closed := closeChain_of first hrest added.symm
      exact congrArg (fun closed : List (Row Piece) × List Nat × List Frame =>
        Except.ok (⟨closed.1, closed.2.1, closed.2.2, defines.map listing⟩ : State)) closed
    | define name =>
      simp [State.of, State.close, Parser.State.close, Frame.all, Frame.of, spread, Opener.isBlock,
        reverse_numbers, listing, Listing.ofTrees, Except.map, sizes]
    | slot name data =>
      let τ : Parser.State := ⟨before, frames, defines ++ [⟨name, current.reverse, start⟩]⟩
      have pushed := State.of_push τ (.embed name (some data) start)
      refine Eq.trans ?_ (congrArg Except.ok pushed)
      simp [State.of, State.close, Frame.all, Frame.of, spread, Opener.isBlock,
        reverse_numbers, listing, Listing.ofTrees, sizes, τ]

/-- An action does the same in both readings. -/
theorem State.of_act {σ : Parser.State} (starts : ∀ f ∈ σ.frames, f.AtStart) (main : String)
    (action : Action) (here : Location) :
    (State.of σ).act main action here = (σ.act main action here).map State.of := by
  cases action with
  | output p => exact congrArg Except.ok (State.of_push σ (.output p here))
  | embed name data => exact congrArg Except.ok (State.of_push σ (.embed name data here))
  | opening kind subject =>
    exact congrArg Except.ok (State.of_open σ (.block kind subject false) here)
  | otherwise => exact State.of_otherwise σ none here
  | otherwiseIf subject => exact State.of_otherwise σ (some subject) here
  | close => exact State.of_close starts here
  | define name => exact State.of_openDefinition σ main (.define name) name here
  | slot name data => exact State.of_openDefinition σ main (.slot name data) name here

theorem State.of_finish (σ : Parser.State) (main : String) :
    (State.of σ).finish main =
      (σ.finish main).map fun source => (source.main :: source.defines).map listing := by
  obtain ⟨current, frames, defines⟩ := σ
  cases frames with
  | nil =>
    simp [State.of, State.finish, Parser.State.finish, Frame.all, spread, sizes, reverse_numbers,
      listing, Listing.ofTrees, Except.map]
  | cons f frames => rfl

/-- Both readings refuse the same tokens, and one makes the listings of what the other makes. -/
theorem run_of {σ : Parser.State} {items : List (String × Location)} (h : σ.Reads items)
    (main : String) (ts : List Token) :
    run main (State.of σ) ts =
      (Parser.run main σ ts).map fun source => (source.main :: source.defines).map listing := by
  induction σ, ts using Parser.run.induct generalizing items with
  | case1 σ =>
    rw [run, Parser.run]
    exact State.of_finish σ main
  | case2 σ t rest heof =>
    rw [run, Parser.run, heof]
    exact State.of_finish σ main
  | case3 σ t rest content htext ih =>
    rw [run, Parser.run, htext]
    dsimp only
    rw [State.of_push]
    exact ih (h.text content t.location)
  | @case4 σ t rest hopen split ih =>
    rw [run, Parser.run, hopen]
    have top : (State.of σ).frames.isEmpty = σ.frames.isEmpty := by
      cases hf : σ.frames <;> simp [State.of, Frame.all, hf]
    dsimp only
    rw [top]
    cases Action.ofTokens split.1 σ.frames.isEmpty t.location split.2.1 with
    | error e => rfl
    | ok action =>
      have same := State.of_act h.starts main action t.location
      cases hact : σ.act main action t.location with
      | error e =>
        rw [hact] at same
        simp [same, hact, Except.map, bind, Except.bind]
      | ok τ =>
        rw [hact] at same
        simpa [same, hact, Except.map, bind, Except.bind] using ih τ (h.act hact)
  | case5 σ t rest heof htext hopen =>
    rw [run, Parser.run]
    split <;> simp_all [unexpected, structural, Except.map]

end Parser.Filling

/-- The templates of a source are proper forests, and filling an arena makes the same ones. A walk
through each meets all its leaves in the order of its rows, and the texts of the tokens are dealt
out to these walks. -/
theorem Source.ofTokens_proper {name : String} {tokens : List Token} {last : Token}
    {source : Source} (inside : ∀ t ∈ tokens, t.kind ≠ .eof) (ends : last.kind = .eof)
    (accepted : Source.ofTokens name (tokens ++ [last]) = .ok source) :
    Parser.Filling.run name .initial (tokens ++ [last]) =
        .ok ((source.main :: source.defines).map Parser.Filling.listing) ∧
      (∀ t ∈ source.main :: source.defines, (Listing.ofTrees t.body).Proper ∧
        (Listing.ofTrees t.body).leaves = (Listing.ofTrees t.body).walk) ∧
      Dealt (Tokens.texts tokens) ((source.main :: source.defines).map fun t =>
        (Listing.ofTrees t.body).walk.filterMap Piece.text?) := by
  have start := Parser.State.reads_initial
  refine ⟨?_, fun t _ => ⟨Listing.ofTrees_proper t.body, ?_⟩, ?_⟩
  · have filled := Parser.Filling.run_of start name (tokens ++ [last])
    rw [show Parser.run name .initial (tokens ++ [last]) = .ok source from accepted] at filled
    exact filled
  · rw [Listing.leaves_ofTrees, Listing.walk_ofTrees]
  · have all : Parser.upToEnd (tokens ++ [last]) = tokens := by
      rw [Parser.upToEnd, List.takeWhile_append_of_pos (by simpa using inside)]
      simp [ends]
    have dealt := Parser.run_dealt start accepted
    rw [List.nil_append, all] at dealt
    simpa only [Listing.walk_ofTrees, Pieces.texts] using dealt

/-- The tokens of a page that defines a template with a chain of blocks in it, and embeds
another. -/
def chainedTokens : List Token :=
  [.text "a", .actionOpen, .identifier "define", .blank " ", .string "list", .actionClose,
    .text "b", .actionOpen, .identifier "if", .blank " ", .dot, .actionClose, .text "c",
    .actionOpen, .identifier "else", .blank " ", .identifier "if", .blank " ", .dollar,
    .actionClose, .text "d", .actionOpen, .identifier "end", .actionClose, .text "e",
    .actionOpen, .identifier "end", .actionClose, .text "f",
    .actionOpen, .identifier "block", .blank " ", .string "foot", .blank " ", .dot, .actionClose,
    .text "g", .actionOpen, .identifier "end", .actionClose, .text "h"].mapIdx
      fun i kind => ⟨kind, 1, i + 1, i⟩

theorem Source.ofTokens_proper_chainedTokens : ∃ source,
    Source.ofTokens "page" (chainedTokens ++ [⟨.eof, .outside⟩]) = .ok source ∧
      ∀ t ∈ source.main :: source.defines, (Listing.ofTrees t.body).Proper := by
  have accepts : (Source.ofTokens "page" (chainedTokens ++ [⟨.eof, .outside⟩])).isOk = true := by
    decide +kernel
  cases accepted : Source.ofTokens "page" (chainedTokens ++ [⟨.eof, .outside⟩]) with
  | error e =>
    rw [accepted] at accepts
    cases accepts
  | ok source =>
    have proper := Source.ofTokens_proper (by decide) rfl accepted
    exact ⟨source, rfl, fun t ht => (proper.2.1 t ht).1⟩

end Stencil
