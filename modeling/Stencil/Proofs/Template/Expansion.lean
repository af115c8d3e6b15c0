import Stencil.Proofs.Template.Bodies

/-!
# Chains and blocks in tokens

An `else if` is read as a block of its own inside the alternative of the block it continues, and its
one `end` closes the whole chain. So a chain is read like blocks nested by hand, with an `end` for
each (`Parser.run_chain`): where the tokens of the chain have ended one chained block, those of the
nested blocks have ended the same block unchained and go on to end the one around it
(`Parser.run_finish_chained`).

A `block` at the top level is read like a definition followed by an action that embeds it
(`Parser.run_slot_agree`). Both read the pipeline, the one before the body and the other behind it.
-/

set_option autoImplicit false

namespace Stencil

open Tokens (Inner inner_nil inner_cons inner_append ofKinds Whole)

/-! ## Kinds of tokens -/

/-- The tokens of an action: a keyword, and what stands behind it. -/
def Keyword.item (k : Keyword) (inside : List Token.Kind) : List Token.Kind :=
  .actionOpen :: (k.kind :: inside ++ [.actionClose])

namespace Tokens

/-- The end of a block, behind its alternative if it has one. -/
def finish : Option (List Token.Kind) → List Token.Kind
  | none => Keyword.endWord.item []
  | some alternative =>
    Keyword.elseWord.item [] ++ alternative ++ Keyword.endWord.item []

/-- What continues an `if` behind its body: a chain of `else if`, each with a condition and a body,
and perhaps an `else`. -/
def chain : List (List Token.Kind × List Token.Kind) → Option (List Token.Kind) →
    List Token.Kind
  | [], last => finish last
  | (condition, body) :: links, last =>
    Keyword.elseWord.item (.blank " " :: Keyword.ifWord.kind :: condition) ++ body ++
      chain links last

/-- The alternative of an `if` in which the rest of a chain is nested. -/
def nested : List (List Token.Kind × List Token.Kind) → Option (List Token.Kind) →
    Option (List Token.Kind)
  | [], last => last
  | (condition, body) :: links, last =>
    some (Keyword.ifWord.item condition ++ body ++ finish (nested links last))

/-- A body that is whole and balanced. -/
structure IsBody (ks : List Token.Kind) : Prop where
  whole : Whole ks
  balanced : Balanced ks

/-- Conditions of inner tokens, and bodies. -/
structure AreLinks (links : List (List Token.Kind × List Token.Kind))
    (last : Option (List Token.Kind)) : Prop where
  links : ∀ link ∈ links, Inner (ofKinds link.1) ∧ IsBody link.2
  last : ∀ body, last = some body → IsBody body

theorem AreLinks.tail {link : List Token.Kind × List Token.Kind}
    {links : List (List Token.Kind × List Token.Kind)} {last : Option (List Token.Kind)}
    (h : AreLinks (link :: links) last) : AreLinks links last :=
  ⟨fun l hl => h.links l (List.mem_cons_of_mem _ hl), h.last⟩

theorem inner_none : Inner (ofKinds []) := inner_nil

theorem whole_item (k : Keyword) {inside : List Token.Kind} (h : Inner (ofKinds inside)) :
    Whole (k.item inside) :=
  .action (inner_cons.mpr ⟨trivial, h⟩) .nil

theorem depth?_item (k : Keyword) {inside : List Token.Kind} (h : Inner (ofKinds inside))
    (depth : Nat) : depth? depth (k.item inside) = Keyword.depth? depth (some k) := by
  have inner : Inner (ofKinds (k.kind :: inside)) := inner_cons.mpr ⟨trivial, h⟩
  have lead : leading? (k.kind :: inside) = some k := k.ofSpelling?_spelling
  rw [Keyword.item, depth?_action inner, lead]
  cases Keyword.depth? depth (some k) <;> rfl

/-- What an `if` opens is ended behind its body and its alternative. -/
theorem IsBody.ifBlock {condition body : List Token.Kind} (hcondition : Inner (ofKinds condition))
    (hbody : IsBody body) {alternative : Option (List Token.Kind)}
    (halternative : ∀ other, alternative = some other → IsBody other) :
    IsBody (Keyword.ifWord.item condition ++ body ++ finish alternative) := by
  have opening := whole_item .ifWord hcondition
  have stop := whole_item .endWord inner_none
  have depths := hbody.balanced.depth?_eq
  cases alternative with
  | none =>
    refine ⟨(opening.append hbody.whole).append stop, ?_⟩
    rw [Balanced, List.append_assoc, opening.depth?_append, depth?_item _ hcondition,
      Keyword.depth?, Option.bind_some, hbody.whole.depth?_append, depths, Option.bind_some,
      finish, depth?_item _ inner_none]
    rfl
  | some other =>
    obtain ⟨whole, balanced⟩ := halternative other rfl
    have turn := whole_item .elseWord inner_none
    refine ⟨(opening.append hbody.whole).append ((turn.append whole).append stop), ?_⟩
    rw [Balanced, List.append_assoc, opening.depth?_append, depth?_item _ hcondition,
      Keyword.depth?, Option.bind_some, hbody.whole.depth?_append, depths, Option.bind_some,
      finish, List.append_assoc, turn.depth?_append, depth?_item _ inner_none, Keyword.depth?,
      if_neg (Nat.succ_ne_zero 0), Option.bind_some, whole.depth?_append, balanced.depth?_eq,
      Option.bind_some, depth?_item _ inner_none]
    rfl

/-- The alternative that a chain is nested in is a body. -/
theorem AreLinks.nested {links : List (List Token.Kind × List Token.Kind)}
    {last : Option (List Token.Kind)} (h : AreLinks links last) :
    ∀ other, Tokens.nested links last = some other → IsBody other := by
  induction links with
  | nil => exact h.last
  | cons link links ih =>
    rintro _ ⟨⟩
    obtain ⟨hcondition, hbody⟩ := h.links link List.mem_cons_self
    exact hbody.ifBlock hcondition (ih h.tail)

end Tokens

/-! ## Pipelines -/

/-- A pipeline is read the same for every keyword, but for the fault of an action without one. -/
theorem Pipeline.ofTokens_agree_keyword (k k' : Option Keyword) (ts : List Token)
    (stop : Location) : Agree Eq (ofTokens k ts stop) (ofTokens k' ts stop) := by
  unfold ofTokens
  generalize Phrase.stages ts = stages
  obtain ⟨first, later⟩ := stages
  dsimp only
  cases Phrase.words first with
  | nil =>
    cases later with
    | nil => exact .error _ _
    | cons stage later => exact .error _ _
  | cons word words =>
    cases word with
    | nil =>
      cases later with
      | nil => exact .error _ _
      | cons stage later => exact .error _ _
    | cons t glued =>
      dsimp only
      cases Command.ofFirst t glued words >>= fun head => later.mapM Command.ofStage >>= fun rest =>
          pure (⟨head :: rest, t.location⟩ : Pipeline) with
      | error e => exact .error _ _
      | ok p => exact .ok rfl

theorem Pipeline.ofTokens_skipBlanks (k : Option Keyword) (ts : List Token) (stop : Location) :
    ofTokens k (Phrase.skipBlanks ts) stop = ofTokens k ts stop := by
  induction ts with
  | nil => rfl
  | cons t ts ih =>
    by_cases ht : t.isBlank = true
    · rw [Phrase.skipBlanks, List.dropWhile_cons_of_pos ht, ofTokens_blank_cons k ht]
      exact ih
    · rw [Phrase.skipBlanks, List.dropWhile_cons_of_neg ht]

/-- Where there is more than blanks, the data of an embedded template is a pipeline. -/
theorem Action.data_of_not_blank {ts : List Token} (h : ∃ t ∈ ts, t.isBlank = false)
    (stop : Location) :
    data ts stop = some <$> Pipeline.ofTokens (some .templateWord) ts stop := by
  obtain ⟨t, ht, hblank⟩ := h
  rw [← Pipeline.ofTokens_skipBlanks]
  unfold data
  split
  · next hnone =>
    rw [List.dropWhile_eq_nil_iff.mp hnone t ht] at hblank
    cases hblank
  · next heq => rw [heq]

namespace Parser

variable (main : String)

/-! ## Reading -/

theorem run_keyword (σ : State) (k : Keyword) {inside : List Token.Kind}
    (hinside : Inner (ofKinds inside)) (rest : List Token) :
    run main σ (ofKinds (k.item inside) ++ rest) =
      Action.ofKeyword k (ofKinds inside) σ.frames.isEmpty .outside .outside >>= fun a =>
        σ.act main a .outside >>= fun τ => run main τ rest := by
  have inner : Inner (ofKinds (k.kind :: inside)) := inner_cons.mpr ⟨trivial, hinside⟩
  rw [Keyword.item, run_item σ inner, Tokens.ofKinds_cons k.kind inside, Action.ofTokens_keyword]
  rfl

theorem run_end (σ : State) (rest : List Token) :
    run main σ (ofKinds (Keyword.endWord.item []) ++ rest) =
      σ.close .outside >>= fun τ => run main τ rest :=
  run_keyword main σ .endWord Tokens.inner_none rest

theorem run_else (σ : State) (rest : List Token) :
    run main σ (ofKinds (Keyword.elseWord.item []) ++ rest) =
      σ.otherwise none .outside >>= fun τ => run main τ rest :=
  run_keyword main σ .elseWord Tokens.inner_none rest

/-- An `if` at the start of the list that it stands in. -/
def Frame.ifAtStart (subject : Pipeline) (chained : Bool) (here : Location)
    (body : Option (List (Tree Piece))) : Frame :=
  ⟨.block .cond subject chained, here, body, []⟩

section

variable (current : List (Tree Piece)) (subject : Pipeline) (here : Location) {f : Frame}
  {kind : BlockKind} {outer : Pipeline} {chained : Bool}

/-- The end of a chained block is that of the block unchained and of the one that it continues. -/
theorem run_end_chained (body : Option (List (Tree Piece)))
    (hf : f.opener = .block kind outer chained) (frames : List Frame) (defines : List Template)
    (rest : List Token) :
    run main ⟨current, .ifAtStart subject true here body :: f :: frames, defines⟩
        (ofKinds (Keyword.endWord.item []) ++ rest) =
      run main ⟨current, .ifAtStart subject false here body :: f :: frames, defines⟩
        (ofKinds (Keyword.endWord.item []) ++ (ofKinds (Keyword.endWord.item []) ++ rest)) := by
  obtain ⟨_, spot, split, before⟩ := f
  subst hf
  rw [run_end, run_end]
  dsimp only [State.close, Frame.ifAtStart, bind, Except.bind]
  rw [run_end]
  rfl

/-- What ends a chained block, with an alternative or not, ends the block unchained as well, and
then the block that it continues is to be ended. -/
theorem run_finish_chained {alternative : Option (List Token.Kind)}
    (halternative : ∀ other, alternative = some other → Tokens.IsBody other)
    (hf : f.opener = .block kind outer chained) (frames : List Frame) (defines : List Template)
    (rest : List Token) :
    run main ⟨current, .ifAtStart subject true here none :: f :: frames, defines⟩
        (ofKinds (Tokens.finish alternative) ++ rest) =
      run main ⟨current, .ifAtStart subject false here none :: f :: frames, defines⟩
        (ofKinds (Tokens.finish alternative) ++
          (ofKinds (Keyword.endWord.item []) ++ rest)) := by
  cases alternative with
  | none => exact run_end_chained main current subject here none hf frames defines rest
  | some other =>
    obtain ⟨whole, balanced⟩ := halternative other rfl
    obtain ⟨r, reads⟩ := exists_run_body main whole balanced defines
    simp only [Tokens.finish, Tokens.ofKinds_append, List.append_assoc]
    rw [run_else, run_else]
    dsimp only [State.otherwise, Frame.ifAtStart, bind, Except.bind]
    rw [reads, reads]
    refine bind_congr fun read => ?_
    exact run_end_chained main read.1 subject here _ hf frames read.2 rest

/-- Behind a body, a chain is read like the alternative in which it is nested. -/
theorem run_chain {links : List (List Token.Kind × List Token.Kind)}
    {last : Option (List Token.Kind)} (h : Tokens.AreLinks links last)
    (hf : f.opener = .block .cond subject chained) (hbody : f.body = none) (frames : List Frame)
    (defines : List Template) (rest : List Token) :
    run main ⟨current, f :: frames, defines⟩ (ofKinds (Tokens.chain links last) ++ rest) =
      run main ⟨current, f :: frames, defines⟩
        (ofKinds (Tokens.finish (Tokens.nested links last)) ++ rest) := by
  induction links generalizing current subject chained f frames defines with
  | nil => rfl
  | cons link links ih =>
    obtain ⟨condition, body⟩ := link
    obtain ⟨opener, spot, split, before⟩ := f
    subst hf hbody
    obtain ⟨hcondition, hbody⟩ := h.links _ List.mem_cons_self
    obtain ⟨r, reads⟩ := exists_run_body main hbody.whole hbody.balanced defines
    have inner : Inner (ofKinds (.blank " " :: Keyword.ifWord.kind :: condition)) :=
      inner_cons.mpr ⟨trivial, inner_cons.mpr ⟨trivial, hcondition⟩⟩
    have read (stop : Location) :
        Action.ofElse (ofKinds (.blank " " :: Keyword.ifWord.kind :: condition)) stop =
          .otherwiseIf <$> Pipeline.ofTokens (some .ifWord) (ofKinds condition) stop := rfl
    simp only [Tokens.chain, Tokens.nested, Tokens.finish, Tokens.ofKinds_append,
      List.append_assoc]
    rw [run_keyword main _ .elseWord inner, run_else]
    dsimp only [Action.ofKeyword, State.otherwise, bind, Except.bind]
    rw [run_keyword main _ .ifWord hcondition, read]
    dsimp only [Action.ofKeyword]
    -- both read the same condition, from the same tokens
    cases Pipeline.ofTokens (some .ifWord) (ofKinds condition) .outside with
    | error e => rfl
    | ok p =>
      dsimp only [Functor.map, Except.map, State.act, State.otherwise, State.open, bind,
        Except.bind]
      rw [reads, reads]
      refine bind_congr fun read => ?_
      rw [ih read.1 p h.tail rfl rfl]
      exact run_finish_chained main read.1 p .outside h.tail.nested rfl frames read.2 rest

end

/-- An `if` with a chain behind its body is read like an `if` in which the chain is nested. -/
theorem run_ifChain {condition body : List Token.Kind} (hcondition : Inner (ofKinds condition))
    (hbody : Tokens.IsBody body) {links : List (List Token.Kind × List Token.Kind)}
    {last : Option (List Token.Kind)} (h : Tokens.AreLinks links last) (σ : State)
    (rest : List Token) :
    run main σ (ofKinds (Keyword.ifWord.item condition ++ body ++ Tokens.chain links last) ++
        rest) =
      run main σ (ofKinds (Keyword.ifWord.item condition ++ body ++
        Tokens.finish (Tokens.nested links last)) ++ rest) := by
  obtain ⟨r, reads⟩ := exists_run_body main hbody.whole hbody.balanced σ.defines
  simp only [Tokens.ofKinds_append, List.append_assoc]
  rw [run_keyword main _ .ifWord hcondition, run_keyword main _ .ifWord hcondition]
  dsimp only [Action.ofKeyword]
  cases Pipeline.ofTokens (some .ifWord) (ofKinds condition) .outside with
  | error e => rfl
  | ok p =>
    dsimp only [Functor.map, Except.map, State.act, State.open, bind, Except.bind]
    rw [reads, reads]
    exact bind_congr fun read => run_chain main read.1 p h rfl rfl σ.frames read.2 rest

/-- At the top level, a block that is filled in place is read like a definition and an action that
embeds it. -/
theorem run_slot_agree {data body : List Token.Kind} (hdata : Inner (ofKinds data))
    (hvalue : ∃ t ∈ ofKinds data, t.isBlank = false) (hbody : Tokens.IsBody body) (name : String)
    (current : List (Tree Piece)) (defines : List Template) (rest : List Token) :
    Agree Eq
      (run main ⟨current, [], defines⟩
        (ofKinds (Keyword.blockWord.item (.blank " " :: .string name :: data) ++ body ++
          Keyword.endWord.item []) ++ rest))
      (run main ⟨current, [], defines⟩
        (ofKinds (Keyword.defineWord.item [.blank " ", .string name] ++ body ++
          Keyword.endWord.item [] ++
            Keyword.templateWord.item (.blank " " :: .string name :: data)) ++ rest)) := by
  obtain ⟨r, reads⟩ := exists_run_body main hbody.whole hbody.balanced defines
  have given : Inner (ofKinds (.blank " " :: .string name :: data)) :=
    inner_cons.mpr ⟨trivial, inner_cons.mpr ⟨trivial, hdata⟩⟩
  have named : Inner (ofKinds [.blank " ", .string name]) :=
    inner_cons.mpr ⟨trivial, inner_cons.mpr ⟨trivial, inner_nil⟩⟩
  let known : Bool := name = main ∨ defines.any (·.name = name) = true
  let definition := if known then structural (.redefined name) .outside else r
  let embedded (read : List (Tree Piece) × List Template) (p : Pipeline) : State :=
    ⟨.leaf (.embed name (some p) .outside) :: current, [],
      read.2 ++ [⟨name, read.1.reverse, .outside⟩]⟩
  -- the body is read alike, and refused alike if the name is taken
  have reading (opener : Opener) (later : List Token) :
      (State.openDefinition ⟨current, [], defines⟩ main opener name .outside >>= fun τ =>
        run main τ (ofKinds body ++ later)) = definition >>= fun read =>
          run main ⟨read.1, [⟨opener, .outside, none, current⟩], read.2⟩ later := by
    by_cases hknown : name = main ∨ defines.any (·.name = name) = true
    · simp only [State.openDefinition, definition, known, hknown]
      rfl
    · simp only [State.openDefinition, definition, known, hknown]
      exact reads ⟨opener, .outside, none, current⟩ [] later
  have left : run main ⟨current, [], defines⟩
      (ofKinds (Keyword.blockWord.item (.blank " " :: .string name :: data) ++ body ++
          Keyword.endWord.item []) ++ rest) =
        Pipeline.ofTokens (some .blockWord) (ofKinds data) .outside >>= fun p =>
          definition >>= fun read => run main (embedded read p) rest := by
    have read : Action.ofKeyword .blockWord (ofKinds (.blank " " :: .string name :: data)) true
        .outside .outside =
          .slot name <$> Pipeline.ofTokens (some .blockWord) (ofKinds data) .outside := rfl
    simp only [Tokens.ofKinds_append, List.append_assoc]
    rw [run_keyword main _ .blockWord given]
    dsimp only [List.isEmpty_nil]
    rw [read]
    cases Pipeline.ofTokens (some .blockWord) (ofKinds data) .outside with
    | error e => rfl
    | ok p =>
      refine (reading (.slot name p) _).trans (bind_congr fun read => ?_)
      rw [run_end]
      rfl
  have right : run main ⟨current, [], defines⟩
      (ofKinds (Keyword.defineWord.item [.blank " ", .string name] ++ body ++
          Keyword.endWord.item [] ++
            Keyword.templateWord.item (.blank " " :: .string name :: data)) ++ rest) =
        definition >>= fun read =>
          Pipeline.ofTokens (some .templateWord) (ofKinds data) .outside >>= fun p =>
            run main (embedded read p) rest := by
    have read : Action.ofKeyword .templateWord (ofKinds (.blank " " :: .string name :: data)) true
        .outside .outside = .embed name <$> Action.data (ofKinds data) .outside := rfl
    simp only [Tokens.ofKinds_append, List.append_assoc]
    rw [run_keyword main _ .defineWord named]
    refine (reading (.define name) _).trans (bind_congr fun body => ?_)
    rw [run_end]
    dsimp only [State.close, bind, Except.bind]
    rw [run_keyword main _ .templateWord given]
    dsimp only [List.isEmpty_nil]
    rw [read, Action.data_of_not_blank hvalue]
    cases Pipeline.ofTokens (some .templateWord) (ofKinds data) .outside <;> rfl
  rw [left, right]
  refine Agree.trans ?_ (Agree.bind_comm _ definition _) fun _ _ _ => Eq.trans
  refine (Pipeline.ofTokens_agree_keyword _ _ _ _).bind fun p p' hp => ?_
  subst hp
  exact Agree.refl (fun _ => rfl) _

end Parser

end Stencil
