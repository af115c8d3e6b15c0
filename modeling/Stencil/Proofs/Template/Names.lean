import Mathlib.Data.List.ReduceOption
import Stencil.Proofs.Results
import Stencil.Template.Parser

/-!
# Names of definitions

The parser refuses a definition if its name is that of the main template or of a definition that has
ended. It does not look at the definitions that are still open. So the templates of a source have
names of their own exactly where no definition stands inside another of the same name
(`Source.parse_names`); where one does, the inner one ends first and the outer one is not checked
again.

Whether a definition stands inside another of the same name is read off the actions alone
(`nestsItself`): off what they open and close, whatever the parser keeps. The induction is on the
names of a state, those of its finished definitions and those of its open ones
(`Parser.State.names`): an action adds the name that it opens and takes none away.
-/

set_option autoImplicit false

namespace Stencil

/-! ## What actions open and close -/

/-- How an action changes what is open. -/
inductive Nesting where
  /-- Opens the definition of a name, or a block. -/
  | opens (definition : Option String)
  | closes
  | stays

namespace Nesting

/-- What is open behind an action, innermost first: definitions by their names, and blocks. -/
def after : Nesting → List (Option String) → List (Option String)
  | .opens definition, opened => definition :: opened
  | .closes, opened => opened.tail
  | .stays, opened => opened

/-- Whether an action opens a definition inside another of the same name. -/
def repeats : Nesting → List (Option String) → Bool
  | .opens (some name), opened => some name ∈ opened
  | _, _ => false

end Nesting

/-- How an action changes what is open. -/
def Action.nesting : Action → Nesting
  | .opening _ _ => .opens none
  | .define name | .slot name _ => .opens (some name)
  | .close => .closes
  | .output _ | .embed _ _ | .otherwise | .otherwiseIf _ => .stays

/-- How the actions of tokens change what is open, one by one. -/
def nestings : List Token → List Nesting
  | [] => []
  | t :: rest =>
    match t.kind with
    | .text _ => nestings rest
    | .actionOpen =>
      let split := Parser.splitAction rest
      match Action.ofTokens split.1 true t.location split.2.1 with
      | .ok action => action.nesting :: nestings split.2.2
      | .error _ => []
    | _ => []
termination_by ts => ts.length
decreasing_by
  · simp
  · have := Parser.length_splitAction rest
    simp only [List.length_cons]
    omega

/-- Whether a definition stands inside another of the same name, where some are open. -/
def repeatsInside (opened : List (Option String)) : List Nesting → Bool
  | [] => false
  | n :: rest => n.repeats opened || repeatsInside (n.after opened) rest

/-- Whether a definition of a source text stands inside another of the same name. -/
def Source.nestsItself (text : String) : Bool :=
  match tokenize text with
  | .ok ts => repeatsInside [] (nestings ts)
  | .error _ => false

/-- An action that is read in a block is read at the top level as well. -/
theorem Action.ofTokens_topLevel {ts : List Token} {topLevel : Bool} {start stop : Location}
    {a : Action} (h : ofTokens ts topLevel start stop = .ok a) :
    ofTokens ts true start stop = .ok a := by
  unfold ofTokens at h ⊢
  split at h
  · cases h
  · split at h
    · next k _ =>
      cases k with
      | defineWord =>
        cases topLevel with
        | true => exact h
        | false => cases h
      | _ => exact h
    · exact h

namespace Parser

/-! ## What is open in a state -/

/-- What an opener leaves open. A chained block is ended with the block that it continues. -/
def Opener.opened : Opener → List (Option String)
  | .block _ _ chained => if chained then [] else [none]
  | .define name | .slot name _ => [some name]

/-- What is open, innermost first. -/
def opened (frames : List Frame) : List (Option String) :=
  frames.flatMap fun f => f.opener.opened

/-- Whether an opener opens a block. -/
def Opener.isBlock : Opener → Bool
  | .block .. => true
  | _ => false

/-- Whether an opener continues the block around it. -/
def Opener.isChained : Opener → Bool
  | .block _ _ chained => chained
  | _ => false

/-- A block that can be chained to the one on top. -/
def Links (chained : Bool) (frames : List Frame) : Prop :=
  chained = true → frames.head?.any (·.opener.isBlock) = true

/-- Every chained block stands in the block that it continues. -/
def Linked : List Frame → Prop
  | [] => True
  | f :: frames => Links f.opener.isChained frames ∧ Linked frames

/-- The names of the definitions of a state, those that have ended and those that are open. -/
def State.names (σ : State) : List String :=
  σ.defines.map (·.name) ++ (opened σ.frames).reduceOption

@[simp] theorem opened_nil : opened [] = [] := rfl

@[simp] theorem opened_cons (f : Frame) (frames : List Frame) :
    opened (f :: frames) = f.opener.opened ++ opened frames := List.flatMap_cons

/-- The end of a block takes away one block of what is open, with all that is chained to it. -/
theorem opened_closeChain {chained : Bool} {frames : List Frame} (hlinks : Links chained frames)
    (hlinked : Linked frames) (t : Tree Piece) (before : List (Tree Piece)) :
    (if chained then [] else [none]) ++ opened frames =
        none :: opened (closeChain chained t before frames).2 ∧
      Linked (closeChain chained t before frames).2 := by
  induction frames generalizing chained t before with
  | nil =>
    cases chained with
    | true => cases hlinks rfl
    | false => exact ⟨rfl, trivial⟩
  | cons f frames ih =>
    cases chained with
    | false => exact ⟨rfl, hlinked⟩
    | true =>
      obtain ⟨opener, here, body, earlier⟩ := f
      cases opener with
      | block kind subject outer => exact ih hlinked.1 hlinked.2 _ earlier
      | define name => cases hlinks rfl
      | slot name data => cases hlinks rfl

/-! ## Steps -/

/-- A step keeps blocks linked, changes what is open by a nesting, and keeps names distinct unless
the nesting repeats one. -/
structure Renames (main : String) (σ : State) (n : Nesting) (τ : State) : Prop where
  linked : Linked τ.frames
  nesting : opened τ.frames = n.after (opened σ.frames)
  names : (main :: τ.names).Nodup ↔
    (main :: σ.names).Nodup ∧ n.repeats (opened σ.frames) = false

variable {main : String} {σ τ : State} {here : Location}

/-- A step that opens and ends nothing. -/
theorem Renames.stays (hlinked : Linked τ.frames) (hopened : opened τ.frames = opened σ.frames)
    (hdefines : τ.defines = σ.defines) : Renames main σ .stays τ where
  linked := hlinked
  nesting := hopened
  names := by
    rw [State.names, State.names, hopened, hdefines]
    exact (and_iff_left rfl).symm

theorem State.close_renames (hlinked : Linked σ.frames) (h : σ.close here = .ok τ) :
    Renames main σ .closes τ := by
  obtain ⟨current, frames, defines⟩ := σ
  cases frames with
  | nil => cases h
  | cons f frames =>
    obtain ⟨opener, start, body, before⟩ := f
    obtain ⟨hlinks, hrest⟩ := hlinked
    cases opener with
    | block kind subject chained =>
      cases h
      obtain ⟨hopened, hlinked'⟩ := opened_closeChain hlinks hrest
        (Frame.block ⟨.block kind subject chained, start, body, before⟩ kind subject
          current.reverse) before
      have same : opened (⟨.block kind subject chained, start, body, before⟩ :: frames) =
          none :: opened (closeChain chained _ before frames).2 := hopened
      refine ⟨hlinked', ?_, ?_⟩
      · rw [same]
        rfl
      · rw [State.names, State.names, same, List.reduceOption_cons_of_none]
        exact (and_iff_left rfl).symm
    | define name | slot name data =>
      cases h
      refine ⟨hrest, rfl, ?_⟩
      rw [State.names, State.names, opened_cons, Opener.opened, List.singleton_append,
        List.reduceOption_cons_of_some, List.map_append, List.append_assoc]
      exact (and_iff_left rfl).symm

theorem State.otherwise_renames (hlinked : Linked σ.frames) (subject : Option Pipeline)
    (h : σ.otherwise subject here = .ok τ) : Renames main σ .stays τ := by
  obtain ⟨current, frames, defines⟩ := σ
  cases frames with
  | nil => cases h
  | cons f frames =>
    obtain ⟨opener, start, body, before⟩ := f
    cases opener with
    | define name => cases h
    | slot name data => cases h
    | block kind outer chained =>
      cases body with
      | some body => cases h
      | none =>
        cases subject with
        | none =>
          cases h
          exact .stays hlinked rfl rfl
        | some p =>
          cases kind with
          | cond =>
            cases h
            exact .stays ⟨fun _ => rfl, hlinked⟩ rfl rfl
          | each => cases h
          | within => cases h

theorem State.openDefinition_renames (hlinked : Linked σ.frames) {name : String} {opener : Opener}
    (hopener : opener.opened = [some name]) (hchained : opener.isChained = false)
    (h : σ.openDefinition main opener name here = .ok τ) :
    Renames main σ (.opens (some name)) τ := by
  unfold State.openDefinition at h
  split at h
  · cases h
  · next hnew =>
    cases h
    rw [not_or, List.any_eq_true] at hnew
    obtain ⟨hmain, hdefines⟩ := hnew
    refine ⟨⟨fun hc => ?_, hlinked⟩, ?_, ?_⟩
    · rw [hchained] at hc
      cases hc
    · rw [State.open, opened_cons, hopener]
      rfl
    · have fresh : name ∉ σ.defines.map (·.name) := by
        simpa using hdefines
      rw [State.names, State.open, opened_cons, hopener, List.singleton_append,
        List.reduceOption_cons_of_some]
      have moved : (main :: (σ.defines.map (·.name) ++
          name :: (opened σ.frames).reduceOption)).Perm (name :: main :: σ.names) :=
        (List.perm_middle.cons main).trans (.swap name main _)
      rw [moved.nodup_iff, List.nodup_cons, and_comm]
      refine and_congr_right fun _ => ?_
      rw [List.mem_cons, State.names, List.mem_append, List.reduceOption_mem_iff]
      simp [Nesting.repeats, hmain, fresh]

/-- An action adds the name that it opens to those of the state, and takes none away. -/
theorem State.act_renames (hlinked : Linked σ.frames) {action : Action}
    (h : σ.act main action here = .ok τ) : Renames main σ action.nesting τ := by
  cases action with
  | output p | embed name data =>
    cases h
    exact .stays hlinked rfl rfl
  | opening kind subject =>
    cases h
    exact ⟨⟨nofun, hlinked⟩, rfl, (and_iff_left rfl).symm⟩
  | otherwise => exact State.otherwise_renames hlinked none h
  | otherwiseIf subject => exact State.otherwise_renames hlinked (some subject) h
  | close => exact State.close_renames hlinked h
  | define name => exact State.openDefinition_renames hlinked rfl rfl h
  | slot name data => exact State.openDefinition_renames hlinked rfl rfl h

/-! ## Runs -/

/-- Behind a run, names are distinct if they were and no definition repeats the name of one around
it. -/
theorem run_names (hlinked : Linked σ.frames) {ts : List Token} {source : Source}
    (h : run main σ ts = .ok source) : source.main.name = main ∧
      (((source.main :: source.defines).map (·.name)).Nodup ↔
        (main :: σ.names).Nodup ∧ repeatsInside (opened σ.frames) (nestings ts) = false) := by
  have finished {σ : State} (hf : σ.finish main = .ok source) : source.main.name = main ∧
      (((source.main :: source.defines).map (·.name)).Nodup ↔ (main :: σ.names).Nodup ∧
        repeatsInside (opened σ.frames) [] = false) := by
    unfold State.finish at hf
    split at hf
    · next hframes =>
      cases hf
      refine ⟨rfl, ?_⟩
      rw [State.names, hframes, opened_nil, List.reduceOption_nil, List.append_nil]
      exact (and_iff_left rfl).symm
    · cases hf
  induction σ, ts using run.induct with
  | case1 σ =>
    rw [run] at h
    rw [nestings]
    exact finished h
  | case2 σ t rest heof =>
    rw [run, heof] at h
    rw [nestings, heof]
    exact finished h
  | case3 σ t rest content htext ih =>
    rw [run, htext] at h
    rw [nestings, htext]
    exact ih hlinked h
  | case4 σ t rest hopen split ih =>
    rw [run, hopen] at h
    obtain ⟨action, haction, h₁⟩ := exists_of_bind_eq_ok h
    obtain ⟨τ, hact, h₂⟩ := exists_of_bind_eq_ok h₁
    have step := State.act_renames hlinked hact
    obtain ⟨hname, hnames⟩ := ih τ step.linked h₂
    refine ⟨hname, ?_⟩
    rw [nestings, hopen]
    dsimp only
    rw [Action.ofTokens_topLevel haction, hnames, step.names, step.nesting, repeatsInside,
      Bool.or_eq_false_iff, and_assoc]
  | case5 σ t rest heof htext hopen =>
    rw [run] at h
    split at h <;> simp_all [unexpected, structural]

end Parser

/-- The templates of a source have names of their own exactly where no definition stands inside
another of the same name. -/
theorem Source.parse_names {name text : String} {source : Source}
    (h : Source.parse name text = .ok source) : source.main.name = name ∧
      (((source.main :: source.defines).map (·.name)).Nodup ↔ nestsItself text = false) := by
  obtain ⟨ts, hts, hrun⟩ := exists_of_bind_eq_ok h
  have hlinked : Parser.Linked Parser.State.initial.frames := trivial
  obtain ⟨hname, hnames⟩ := Parser.run_names hlinked hrun
  refine ⟨hname, ?_⟩
  rw [hnames, nestsItself, hts]
  exact and_iff_right (List.nodup_cons.mpr ⟨nofun, List.nodup_nil⟩)

end Stencil
