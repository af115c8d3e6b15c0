import Stencil.Proofs.Template.Numbering
import Stencil.Proofs.Template.Pipelines
import Stencil.Proofs.Template.Seams
import Stencil.Proofs.Template.Spelling

/-!
# Spelled sources

How trees and whole sources are spelled in tokens: the definitions one after the other, then the
main template, then the end (`Source.kinds`). Whatever trees a source has, the parser gives them
back from any tokens of these kinds, up to locations (`Source.readBack_of_kinds`).

The parser keeps open blocks in frames and the list being read in reverse, so the law that carries
the induction over trees is about any state: the tokens of a tree push that tree, whatever is open
and whatever follows (`Parser.run_tree`). The alternative of a block is spelled with a plain `else`,
also where it is a single block.
-/

set_option autoImplicit false

namespace Stencil

/-! ## Spelling -/

/-- The kinds of tokens that spell an action, with its delimiters. -/
def Action.item (a : Action) : List Token.Kind := .actionOpen :: a.kinds ++ [.actionClose]

/-- The kinds of tokens that spell a piece. -/
def Piece.kinds : Piece → List Token.Kind
  | .text content _ => [.text content]
  | .output p _ => (Action.output p).item
  | .embed name data _ => (Action.embed name data).item

namespace Tree

mutual

/-- The kinds of tokens that spell a tree. -/
def kinds : Tree Piece → List Token.Kind
  | .leaf x => x.kinds
  | .block kind subject body none _ =>
    (Action.opening kind subject).item ++ kindsOf body ++ Action.close.item
  | .block kind subject body (some alternative) _ =>
    (Action.opening kind subject).item ++ kindsOf body ++ Action.otherwise.item ++
      kindsOf alternative ++ Action.close.item

/-- The kinds of tokens that spell trees. -/
def kindsOf : List (Tree Piece) → List Token.Kind
  | [] => []
  | t :: rest => kinds t ++ kindsOf rest

end

end Tree

/-- The kinds of tokens that spell the definition of a template. -/
def Template.kinds (t : Template) : List Token.Kind :=
  (Action.define t.name).item ++ Tree.kindsOf t.body ++ Action.close.item

/-- The kinds of tokens that spell a source. -/
def Source.kinds (s : Source) : List Token.Kind :=
  s.defines.flatMap Template.kinds ++ Tree.kindsOf s.main.body ++ [.eof]

/-- A source that has a spelling: its templates have names of their own, and their pipelines
spellings. -/
structure Source.Spellable (s : Source) : Prop where
  names : ((s.main :: s.defines).map (·.name)).Nodup
  pipelines : ∀ t ∈ s.main :: s.defines, ∀ p ∈ piecePipelines t.body, p.Spellable

/-! ## Trees up to locations -/

/-- Parsed trees that differ in locations only. -/
abbrev Pieces.Same (ts ts' : List (Tree Piece)) : Prop :=
  Tree.AlikeAll Piece.Alike (fun _ _ _ => False) ts ts'

/-- Templates of the same name with such trees. -/
structure Template.Same (t t' : Template) : Prop where
  name : t.name = t'.name
  body : Pieces.Same t.body t'.body

/-- Sources of such templates, in the same order. -/
structure Source.Same (s s' : Source) : Prop where
  main : s.main.Same s'.main
  defines : List.Forall₂ Template.Same s.defines s'.defines

namespace Parser

variable (main : String) {ts : List Token}

/-! ## Runs -/

theorem isInside_of_kinds {a : Action} (hts : ts.map (·.kind) = a.kinds) :
    ∀ t ∈ ts, isInside t = true := by
  intro t ht
  have below := a.kinds_below t.kind (hts ▸ List.mem_map_of_mem ht)
  refine decide_eq_true fun hclose => ?_
  rw [hclose] at below
  exact absurd below (by decide)

/-- The tokens of an action do what the action says, up to locations. -/
theorem run_action (σ : State) (a : Action) (ha : a.Spellable)
    (hts : ts.map (·.kind) = a.item) (hfits : a.Fits σ.frames.isEmpty) (rest : List Token) :
    ∃ a' here, a.Alike a' ∧
      run main σ (ts ++ rest) = σ.act main a' here >>= fun τ => run main τ rest := by
  obtain ⟨⟨_, here⟩, behind, rfl, rfl, hbehind⟩ := List.map_eq_cons_iff.mp hts
  obtain ⟨inside, close, rfl, hinside, hclose⟩ := List.map_eq_append_iff.mp hbehind
  obtain ⟨⟨_, stop⟩, behind, rfl, rfl, hend⟩ := List.map_eq_cons_iff.mp hclose
  cases List.map_eq_nil_iff.mp hend
  obtain ⟨a', hread, halike⟩ := Action.ofTokens_of_kinds ha hfits hinside here stop
  refine ⟨a', here, halike, ?_⟩
  rw [List.cons_append, run, List.append_assoc, List.singleton_append]
  dsimp only
  rw [splitAction_append (isInside_of_kinds hinside), hread]
  rfl

/-- Puts trees behind those of the list being read. -/
def State.pushAll (σ : State) (ts : List (Tree Piece)) : State :=
  { σ with current := ts.reverse ++ σ.current }

theorem State.push_pushAll (σ : State) (t : Tree Piece) (ts : List (Tree Piece)) :
    (σ.push t).pushAll ts = σ.pushAll (t :: ts) := by
  simp [State.push, State.pushAll]

/-- A state in a block, behind some trees of its alternative if its body has ended, and of its body
if not. -/
def State.inBlock (σ : State) (kind : BlockKind) (subject : Pipeline) (here : Location)
    (body : Option (List (Tree Piece))) (ts : List (Tree Piece)) : State :=
  ⟨ts.reverse, ⟨.block kind subject false, here, body, σ.current⟩ :: σ.frames, σ.defines⟩

theorem State.pushAll_inBlock (σ : State) (kind : BlockKind) (subject : Pipeline)
    (here : Location) (body : Option (List (Tree Piece))) (ts : List (Tree Piece)) :
    (σ.inBlock kind subject here body []).pushAll ts = σ.inBlock kind subject here body ts := by
  simp [State.pushAll, State.inBlock]

/-- A block is opened for a pipeline that is the same up to locations. -/
theorem run_opening (σ : State) (kind : BlockKind) {subject : Pipeline}
    (hs : subject.Spellable) (hts : ts.map (·.kind) = (Action.opening kind subject).item)
    (rest : List Token) :
    ∃ subject' here, subject.bare = subject'.bare ∧
      run main σ (ts ++ rest) = run main (σ.inBlock kind subject' here none []) rest := by
  obtain ⟨a, here, halike, hrun⟩ := run_action main σ (.opening kind subject)
    (List.forall_mem_singleton.mpr hs) hts (.inr nofun) rest
  cases halike with
  | opening _ hsubject => exact ⟨_, here, hsubject, hrun⟩

theorem run_otherwise (σ : State) (kind : BlockKind) (subject : Pipeline)
    (here : Location) (read : List (Tree Piece))
    (hts : ts.map (·.kind) = Action.otherwise.item) (rest : List Token) :
    run main (σ.inBlock kind subject here none read) (ts ++ rest) =
      run main (σ.inBlock kind subject here (some read) []) rest := by
  obtain ⟨a, spot, halike, hrun⟩ := run_action main (σ.inBlock kind subject here none read)
    .otherwise nofun hts (.inr nofun) rest
  cases halike
  have turned : (σ.inBlock kind subject here none read).otherwise none spot =
      .ok (σ.inBlock kind subject here (some read) []) := by
    simp [State.otherwise, State.inBlock]
  rw [hrun, State.act, turned]
  rfl

theorem run_close (σ : State) (kind : BlockKind) (subject : Pipeline)
    (here : Location) (body : Option (List (Tree Piece))) (read : List (Tree Piece))
    (hts : ts.map (·.kind) = Action.close.item) (rest : List Token) :
    run main (σ.inBlock kind subject here body read) (ts ++ rest) =
      run main (σ.push (Frame.block ⟨.block kind subject false, here, body, σ.current⟩ kind subject
        read)) rest := by
  obtain ⟨a, spot, halike, hrun⟩ := run_action main (σ.inBlock kind subject here body read)
    .close nofun hts (.inr nofun) rest
  cases halike
  have plain (t : Tree Piece) : closeChain false t σ.current σ.frames =
      (t :: σ.current, σ.frames) := by
    cases σ.frames <;> rfl
  have closed : (σ.inBlock kind subject here body read).close spot =
      .ok (σ.push (Frame.block ⟨.block kind subject false, here, body, σ.current⟩ kind subject
        read)) := by
    simp [State.close, State.inBlock, State.push, plain, Frame.block]
  rw [hrun, State.act, closed]
  rfl

mutual

/-- The tokens of a tree push the tree, up to locations. -/
theorem run_tree : (t : Tree Piece) → (∀ p ∈ Tree.pipelines Piece.pipelines t, p.Spellable) →
    ∀ (σ : State) (ts rest : List Token), ts.map (·.kind) = Tree.kinds t →
      ∃ t', Tree.Alike Piece.Alike (fun _ _ _ => False) t t' ∧
        run main σ (ts ++ rest) = run main (σ.push t') rest
  | .leaf (.text content here), _, σ, ts, rest, hts => by
    rw [Tree.kinds, Piece.kinds] at hts
    obtain ⟨⟨_, spot⟩, behind, rfl, rfl, hend⟩ := List.map_eq_cons_iff.mp hts
    cases List.map_eq_nil_iff.mp hend
    refine ⟨.leaf (.text content spot), .leaf (.text content here spot), ?_⟩
    rw [List.singleton_append, run]
  | .leaf (.output p here), hs, σ, ts, rest, hts => by
    rw [Tree.kinds, Piece.kinds] at hts
    obtain ⟨a, spot, halike, hrun⟩ := run_action main σ (.output p) hs hts (.inr nofun) rest
    cases halike with
    | output hp => exact ⟨_, .leaf (.output here spot hp), hrun⟩
  | .leaf (.embed name data here), hs, σ, ts, rest, hts => by
    rw [Tree.kinds, Piece.kinds] at hts
    obtain ⟨a, spot, halike, hrun⟩ := run_action main σ (.embed name data) hs hts (.inr nofun) rest
    cases halike with
    | embed _ hd => exact ⟨_, .leaf (.embed name here spot hd), hrun⟩
  | .block kind subject body none here, hs, σ, ts, rest, hts => by
    rw [Tree.kinds] at hts
    obtain ⟨front, closing, rfl, hfront, hclosing⟩ := List.map_eq_append_iff.mp hts
    obtain ⟨opening, inner, rfl, hopening, hinner⟩ := List.map_eq_append_iff.mp hfront
    rw [Tree.pipelines, List.forall_mem_cons] at hs
    obtain ⟨subject', spot, hsubject, hopen⟩ := run_opening main σ kind hs.1 hopening
      (inner ++ (closing ++ rest))
    obtain ⟨body', hbody, hinside⟩ := run_trees body hs.2 (σ.inBlock kind subject' spot none [])
      inner (closing ++ rest) hinner
    rw [State.pushAll_inBlock] at hinside
    refine ⟨_, .block here spot hsubject hbody .none, ?_⟩
    simp only [List.append_assoc]
    rw [hopen, hinside, run_close main σ kind subject' spot none body' hclosing]
    rfl
  | .block kind subject body (some alternative) here, hs, σ, ts, rest, hts => by
    rw [Tree.kinds] at hts
    obtain ⟨front, closing, rfl, hfront, hclosing⟩ := List.map_eq_append_iff.mp hts
    obtain ⟨front, other, rfl, hfront, hother⟩ := List.map_eq_append_iff.mp hfront
    obtain ⟨front, turning, rfl, hfront, hturning⟩ := List.map_eq_append_iff.mp hfront
    obtain ⟨opening, inner, rfl, hopening, hinner⟩ := List.map_eq_append_iff.mp hfront
    rw [Tree.pipelines, List.forall_mem_cons, List.forall_mem_append] at hs
    obtain ⟨subject', spot, hsubject, hopen⟩ := run_opening main σ kind hs.1 hopening
      (inner ++ (turning ++ (other ++ (closing ++ rest))))
    -- the body is read with the alternative still ahead, and the alternative behind the body
    obtain ⟨body', hbody, hinside⟩ := run_trees body hs.2.1 (σ.inBlock kind subject' spot none [])
      inner (turning ++ (other ++ (closing ++ rest))) hinner
    rw [State.pushAll_inBlock] at hinside
    obtain ⟨other', halternative, hbeside⟩ := run_trees alternative hs.2.2
      (σ.inBlock kind subject' spot (some body') []) other (closing ++ rest) hother
    rw [State.pushAll_inBlock] at hbeside
    refine ⟨_, .block here spot hsubject hbody (.some halternative), ?_⟩
    simp only [List.append_assoc]
    rw [hopen, hinside, run_otherwise main σ kind subject' spot body' hturning, hbeside,
      run_close main σ kind subject' spot (some body') other' hclosing]
    rfl

/-- The tokens of trees push them one after the other, up to locations. -/
theorem run_trees : (ts : List (Tree Piece)) → (∀ p ∈ piecePipelines ts, p.Spellable) →
    ∀ (σ : State) (tokens rest : List Token), tokens.map (·.kind) = Tree.kindsOf ts →
      ∃ ts', Pieces.Same ts ts' ∧ run main σ (tokens ++ rest) = run main (σ.pushAll ts') rest
  | [], _, σ, tokens, rest, htokens => by
    cases List.map_eq_nil_iff.mp htokens
    exact ⟨[], .nil, rfl⟩
  | t :: ts, hs, σ, tokens, rest, htokens => by
    obtain ⟨ht, hts⟩ := forall_mem_piecePipelines_cons.mp hs
    obtain ⟨first, later, rfl, hfirst, hlater⟩ := List.map_eq_append_iff.mp htokens
    obtain ⟨t', halike, hrun⟩ := run_tree t ht σ first (later ++ rest) hfirst
    obtain ⟨ts', hsame, hruns⟩ := run_trees ts hts (σ.push t') later rest hlater
    refine ⟨t' :: ts', .cons halike hsame, ?_⟩
    rw [List.append_assoc, hrun, hruns, State.push_pushAll]

end

/-- The tokens of a definition add a template, if its name is new. -/
theorem run_definition (current : List (Tree Piece)) (defines : List Template) {t : Template}
    (hs : ∀ p ∈ piecePipelines t.body, p.Spellable)
    (hnew : t.name ∉ main :: defines.map (·.name)) (hts : ts.map (·.kind) = t.kinds)
    (rest : List Token) :
    ∃ t', t.Same t' ∧
      run main ⟨current, [], defines⟩ (ts ++ rest) =
        run main ⟨current, [], defines ++ [t']⟩ rest := by
  obtain ⟨front, closing, rfl, hfront, hclosing⟩ := List.map_eq_append_iff.mp hts
  obtain ⟨opening, inner, rfl, hopening, hinner⟩ := List.map_eq_append_iff.mp hfront
  obtain ⟨a, here, halike, hopen⟩ := run_action main ⟨current, [], defines⟩ (.define t.name) nofun
    hopening (.inl rfl) (inner ++ (closing ++ rest))
  cases halike
  obtain ⟨body, hbody, hinside⟩ := run_trees main t.body hs
    ⟨[], [⟨.define t.name, here, none, current⟩], defines⟩ inner (closing ++ rest) hinner
  obtain ⟨a, stop, halike, hclose⟩ := run_action main
    (State.pushAll ⟨[], [⟨.define t.name, here, none, current⟩], defines⟩ body) .close nofun
    hclosing (.inr nofun) rest
  cases halike
  have fresh : ¬ (t.name = main ∨ defines.any (·.name = t.name) = true) := by
    simpa using hnew
  have opened : State.openDefinition ⟨current, [], defines⟩ main (.define t.name) t.name here =
      .ok ⟨[], [⟨.define t.name, here, none, current⟩], defines⟩ := if_neg fresh
  have closed : (State.pushAll ⟨[], [⟨.define t.name, here, none, current⟩], defines⟩ body).close
      stop = .ok ⟨current, [], defines ++ [⟨t.name, body, here⟩]⟩ := by
    simp [State.pushAll, State.close]
  rw [State.act, opened] at hopen
  rw [State.act, closed] at hclose
  refine ⟨⟨t.name, body, here⟩, ⟨rfl, hbody⟩, ?_⟩
  simp only [List.append_assoc]
  exact hopen.trans (hinside.trans hclose)

/-- The tokens of definitions add their templates, in the same order. -/
theorem run_definitions (current : List (Tree Piece)) (defines : List Template)
    {given : List Template} (hs : ∀ t ∈ given, ∀ p ∈ piecePipelines t.body, p.Spellable)
    (hnew : (main :: (defines ++ given).map (·.name)).Nodup)
    (hts : ts.map (·.kind) = given.flatMap Template.kinds) (rest : List Token) :
    ∃ read, List.Forall₂ Template.Same given read ∧
      run main ⟨current, [], defines⟩ (ts ++ rest) =
        run main ⟨current, [], defines ++ read⟩ rest := by
  induction given generalizing ts defines with
  | nil =>
    cases List.map_eq_nil_iff.mp hts
    exact ⟨[], .nil, by rw [List.append_nil, List.nil_append]⟩
  | cons t given ih =>
    -- the names stay distinct as one definition after the other joins those that are done
    obtain ⟨ht, hgiven⟩ := List.forall_mem_cons.mp hs
    obtain ⟨first, later, rfl, hfirst, hlater⟩ := List.map_eq_append_iff.mp hts
    have fresh : t.name ∉ main :: defines.map (·.name) := by
      rw [List.map_append, ← List.cons_append, List.nodup_append] at hnew
      exact fun hmem => hnew.2.2 _ hmem _ List.mem_cons_self rfl
    obtain ⟨t', hsame, hrun⟩ := run_definition main current defines ht fresh hfirst (later ++ rest)
    have hnew' : (main :: ((defines ++ [t']) ++ given).map (·.name)).Nodup := by
      simpa [← hsame.name] using hnew
    obtain ⟨read, hread, hruns⟩ := ih (defines ++ [t']) hgiven hnew' hlater
    refine ⟨t' :: read, .cons hsame hread, ?_⟩
    rw [List.append_assoc, hrun, hruns, List.append_assoc, List.singleton_append]

end Parser

/-- The template that is read back from the listing of a template's trees. -/
def Template.readBack (t : Template) : Option Template :=
  (Listing.ofTrees t.body).trees?.map fun body => { t with body }

/-- The source that is read back from the listings of a source's templates. -/
def Source.readBack (s : Source) : Option Source := do
  let main ← s.main.readBack
  let defines ← s.defines.mapM Template.readBack
  pure ⟨main, defines⟩

theorem Template.readBack_eq (t : Template) : t.readBack = some t := by
  rw [readBack, Listing.trees?_ofTrees]
  rfl

theorem Source.readBack_eq (s : Source) : s.readBack = some s := by
  have defines : s.defines.mapM Template.readBack = some s.defines := by
    rw [funext Template.readBack_eq]
    exact List.mapM_pure.trans (congrArg some (List.map_id' _))
  rw [readBack, Template.readBack_eq, defines]
  rfl

/-- Parsing undoes spelling: from tokens that spell a source, wherever they stand, the parser gives
templates from whose listings the source is read back, up to locations. It has the same main
template and the same definitions, in their order. -/
theorem Source.readBack_of_kinds {given : Source} (h : given.Spellable) {tokens : List Token}
    (htokens : tokens.map (·.kind) = given.kinds) :
    ∃ source read, Source.ofTokens given.main.name tokens = .ok source ∧
      source.readBack = some read ∧ given.Same read := by
  obtain ⟨hmain, hdefines⟩ := List.forall_mem_cons.mp h.pipelines
  obtain ⟨front, last, rfl, hfront, hlast⟩ := List.map_eq_append_iff.mp htokens
  obtain ⟨definitions, body, rfl, hdefinitions, hbody⟩ := List.map_eq_append_iff.mp hfront
  obtain ⟨⟨_, stop⟩, behind, rfl, rfl, hend⟩ := List.map_eq_cons_iff.mp hlast
  cases List.map_eq_nil_iff.mp hend
  obtain ⟨read, hread, hrun⟩ := Parser.run_definitions given.main.name [] [] hdefines h.names
    hdefinitions (body ++ [⟨.eof, stop⟩])
  obtain ⟨trees, htrees, hruns⟩ := Parser.run_trees given.main.name given.main.body hmain
    ⟨[], [], read⟩ body [⟨.eof, stop⟩] hbody
  refine ⟨_, _, ?_, Source.readBack_eq ⟨⟨given.main.name, trees, .start⟩, read⟩,
    ⟨⟨rfl, htrees⟩, hread⟩⟩
  rw [Source.ofTokens, List.append_assoc]
  refine hrun.trans (hruns.trans ?_)
  rw [Parser.run]
  simp [Parser.State.finish, Parser.State.pushAll]

/-- The value at the end of some steps. -/
def stepsPipeline (steps : List Accessor) : Pipeline :=
  ⟨[.operand (.path ⟨.dot, steps, .outside⟩)], .outside⟩

theorem stepsPipeline_spellable {steps : List Accessor} (h : ∀ step ∈ steps, step.Spellable) :
    (stepsPipeline steps).Spellable where
  wellFormed := ⟨_, _, rfl, rfl, nofun⟩
  operands := List.forall_mem_singleton.mpr (List.forall_mem_singleton.mpr h)

/-- The name of a row and a number, escaped. -/
def cellPipeline : Pipeline :=
  let name : Operand := .path ⟨.dot, [.field "Name", .index 0], .outside⟩
  ⟨[.call .print [name, .literal (.int (-1))] .outside, .call .html [] .outside], .outside⟩

theorem cellPipeline_spellable : cellPipeline.Spellable where
  wellFormed := ⟨_, _, rfl, rfl, List.forall_mem_singleton.mpr rfl⟩
  operands := by
    simp [cellPipeline, Command.operands, Operand.Spellable, Accessor.Spellable]

/-- A list of rows, each by a template of its own, with a text in place of an empty list. -/
def rowsSource : Source where
  main := ⟨"main", [.block .each (stepsPipeline [.field "Rows"])
    [.leaf (.embed "row" (some (stepsPipeline [])) .outside)]
    (some [.leaf (.text "none" .outside)]) .outside], .outside⟩
  defines := [⟨"row", [.leaf (.text "<li>" .outside), .leaf (.output cellPipeline .outside)],
    .outside⟩]

theorem rowsSource_spellable : rowsSource.Spellable where
  names := by decide
  pipelines := by
    have rows : (stepsPipeline [.field "Rows"]).Spellable :=
      stepsPipeline_spellable (List.forall_mem_singleton.mpr trivial)
    have row : (stepsPipeline []).Spellable := stepsPipeline_spellable nofun
    simp [rowsSource, piecePipelines, Tree.pipelines, Piece.pipelines, rows, row,
      cellPipeline_spellable]

theorem Source.readBack_of_kinds_rowsSource : ∃ source read,
    Source.ofTokens "main" (Tokens.ofKinds rowsSource.kinds) = .ok source ∧
      source.readBack = some read ∧ rowsSource.Same read :=
  Source.readBack_of_kinds rowsSource_spellable (Tokens.map_kind_ofKinds _)

example : (Action.output cellPipeline).item =
    [.actionOpen, .identifier "print", .blank " ", .dot, .identifier "Name", .dot, .number "0",
      .blank " ", .number "-1", .blank " ", .pipe, .blank " ", .identifier "html",
      .actionClose] := by
  decide +kernel

end Stencil
