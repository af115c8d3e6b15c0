import Stencil.Proofs.Template.Places
import Stencil.Template.Parser

/-!
# Templates with a text in two pieces

Two sources may differ in where their tokens stand and in one more thing: a text of the first may be
two texts of the second, one behind the other (`Items`). What they parse to differs in the same way
and in no other (`Source.ofTokens_agree`): the blocks are the same, and so are outputs and embedded
templates up to locations (`Tree.AlikeAll`).

The relation of trees is one of their leaves, and of the leaves that stand for two, so that compiled
trees can be compared by it as well. It is kept by every move of the parser (`State.act_agree`),
which holds the trees being read in reverse.
-/

set_option autoImplicit false

namespace Stencil

/-! ## Trees -/

section

variable {α : Type} (leaf : α → α → Prop) (cut : α → α → α → Prop)

mutual

/-- Trees of the same blocks, up to locations, over related leaves. -/
inductive Tree.Alike : Tree α → Tree α → Prop where
  | leaf {x y : α} : leaf x y → Alike (.leaf x) (.leaf y)
  | block {kind : BlockKind} {subject subject' : Pipeline} {body body' : List (Tree α)}
      {alternative alternative' : Option (List (Tree α))} (here here' : Location) :
      subject.bare = subject'.bare → AlikeAll body body' → AlikeElse alternative alternative' →
      Alike (.block kind subject body alternative here)
        (.block kind subject' body' alternative' here')

/-- Lists of such trees, where a leaf of the first list may be two leaves of the second. -/
inductive Tree.AlikeAll : List (Tree α) → List (Tree α) → Prop where
  | nil : AlikeAll [] []
  | cons {t t' : Tree α} {rest rest' : List (Tree α)} :
      Alike t t' → AlikeAll rest rest' → AlikeAll (t :: rest) (t' :: rest')
  | cut {x y z : α} {rest rest' : List (Tree α)} :
      cut x y z → AlikeAll rest rest' → AlikeAll (.leaf x :: rest) (.leaf y :: .leaf z :: rest')

/-- What stands in place of a body on both sides, if anything does. -/
inductive Tree.AlikeElse : Option (List (Tree α)) → Option (List (Tree α)) → Prop where
  | none : AlikeElse none none
  | some {ts ts' : List (Tree α)} : AlikeAll ts ts' → AlikeElse (some ts) (some ts')

end

end

namespace Tree.AlikeAll

variable {α : Type} {leaf : α → α → Prop} {cut : α → α → α → Prop}

theorem singleton {t t' : Tree α} (h : Tree.Alike leaf cut t t') :
    Tree.AlikeAll leaf cut [t] [t'] := .cons h .nil

protected theorem append {ts ts' us us' : List (Tree α)} (h : Tree.AlikeAll leaf cut ts ts')
    (hu : Tree.AlikeAll leaf cut us us') :
    Tree.AlikeAll leaf cut (ts ++ us) (ts' ++ us') := by
  match ts, ts', h with
  | _, _, .nil => exact hu
  | _, _, .cons ht hrest => exact .cons ht (hrest.append hu)
  | _, _, .cut hc hrest => exact .cut hc (hrest.append hu)

end Tree.AlikeAll

/-! ## Pieces -/

section

variable (a b : String)

/-- Pieces that are the same up to locations. -/
inductive Piece.Alike : Piece → Piece → Prop where
  | text (content : String) (here here' : Location) :
      Alike (.text content here) (.text content here')
  | output {p p' : Pipeline} (here here' : Location) : p.bare = p'.bare →
      Alike (.output p here) (.output p' here')
  | embed (name : String) {data data' : Option Pipeline} (here here' : Location) :
      data.map Pipeline.bare = data'.map Pipeline.bare →
      Alike (.embed name data here) (.embed name data' here')

/-- The text of `a` and `b` together, and the two texts. -/
inductive Piece.Cut : Piece → Piece → Piece → Prop where
  | text (here first second : Location) :
      Cut (.text (a ++ b) here) (.text a first) (.text b second)

/-- Parsed trees that differ in locations and in a text that is in two pieces. -/
abbrev Pieces.Alike (ts ts' : List (Tree Piece)) : Prop :=
  Tree.AlikeAll Piece.Alike (Piece.Cut a b) ts ts'

/-- Templates of the same name, with such trees. -/
structure Template.Alike (t t' : Template) : Prop where
  name : t.name = t'.name
  body : Pieces.Alike a b t.body t'.body

/-- Sources of such templates. -/
structure Source.Alike (s s' : Source) : Prop where
  main : s.main.Alike a b s'.main
  defines : List.Forall₂ (Template.Alike a b) s.defines s'.defines

/-! ## Tokens -/

/-- Tokens of texts and whole actions, where a text of the first list may be two of the second. -/
inductive Items : List Token → List Token → Prop where
  | eof (here here' : Location) : Items [⟨.eof, here⟩] [⟨.eof, here'⟩]
  | text {ts ts' : List Token} (content : String) (here here' : Location) : Items ts ts' →
      Items (⟨.text content, here⟩ :: ts) (⟨.text content, here'⟩ :: ts')
  | cut {ts ts' : List Token} (here first second : Location) : Items ts ts' →
      Items (⟨.text (a ++ b), here⟩ :: ts) (⟨.text a, first⟩ :: ⟨.text b, second⟩ :: ts')
  | action {inside inside' ts ts' : List Token} (here here' stop stop' : Location) :
      Tokens.Alike inside inside' → (∀ t ∈ inside, Parser.isInside t = true) → Items ts ts' →
      Items (⟨.actionOpen, here⟩ :: (inside ++ ⟨.actionClose, stop⟩ :: ts))
        (⟨.actionOpen, here'⟩ :: (inside' ++ ⟨.actionClose, stop'⟩ :: ts'))

end

/-! ## Parsing -/

namespace Parser

section

variable (a b : String)

/-- Openers of the same kind, up to locations. -/
inductive Opener.Alike : Opener → Opener → Prop where
  | block (kind : BlockKind) {subject subject' : Pipeline} (chained : Bool) :
      subject.bare = subject'.bare →
      Alike (.block kind subject chained) (.block kind subject' chained)
  | define (name : String) : Alike (.define name) (.define name)
  | slot (name : String) {data data' : Pipeline} : data.bare = data'.bare →
      Alike (.slot name data) (.slot name data')

/-- Frames of such openers, which hold such trees. -/
structure Frame.Alike (f f' : Frame) : Prop where
  opener : f.opener.Alike f'.opener
  body : Tree.AlikeElse Piece.Alike (Piece.Cut a b) f.body f'.body
  before : Pieces.Alike a b f.before.reverse f'.before.reverse

/-- States that hold such trees. -/
structure State.Alike (σ σ' : State) : Prop where
  current : Pieces.Alike a b σ.current.reverse σ'.current.reverse
  frames : List.Forall₂ (Frame.Alike a b) σ.frames σ'.frames
  defines : List.Forall₂ (Template.Alike a b) σ.defines σ'.defines

end

variable {a b : String} {σ σ' : State}

theorem State.alike_initial : State.initial.Alike a b .initial :=
  ⟨.nil, .nil, .nil⟩

theorem State.Alike.push (h : σ.Alike a b σ') {t t' : Tree Piece}
    (ht : Tree.Alike Piece.Alike (Piece.Cut a b) t t') :
    (σ.push t).Alike a b (σ'.push t') where
  current := by
    rw [State.push, State.push, List.reverse_cons, List.reverse_cons]
    exact h.current.append (.singleton ht)
  frames := h.frames
  defines := h.defines

/-- Two texts on one side are pushed where one is on the other. -/
theorem State.Alike.push_cut (h : σ.Alike a b σ') (here first second : Location) :
    (σ.push (.leaf (.text (a ++ b) here))).Alike a b
      ((σ'.push (.leaf (.text a first))).push (.leaf (.text b second))) where
  current := by
    simp only [State.push, List.reverse_cons, List.append_assoc]
    exact h.current.append (.cut (.text here first second) .nil)
  frames := h.frames
  defines := h.defines

theorem State.Alike.open (h : σ.Alike a b σ') {opener opener' : Opener}
    (ho : opener.Alike opener') (here here' : Location) :
    (σ.open opener here).Alike a b (σ'.open opener' here') where
  current := .nil
  frames := .cons ⟨ho, .none, h.current⟩ h.frames
  defines := h.defines

/-- Frames of two blocks give blocks that are alike. -/
theorem Frame.Alike.block {f f' : Frame} (h : f.Alike a b f') (kind : BlockKind)
    {subject subject' : Pipeline} (hs : subject.bare = subject'.bare)
    {read read' : List (Tree Piece)}
    (hr : Pieces.Alike a b read read') :
    Tree.Alike Piece.Alike (Piece.Cut a b) (f.block kind subject read)
      (f'.block kind subject' read') := by
  obtain ⟨opener, here, body, before⟩ := f
  obtain ⟨opener', here', body', before'⟩ := f'
  cases h.body with
  | none => exact .block here here' hs hr .none
  | some hbody => exact .block here here' hs hbody (.some hr)

theorem closeChain_alike {frames frames' : List Frame}
    (h : List.Forall₂ (Frame.Alike a b) frames frames') (chained : Bool) {t t' : Tree Piece}
    (ht : Tree.Alike Piece.Alike (Piece.Cut a b) t t') {before before' : List (Tree Piece)}
    (hb : Pieces.Alike a b before.reverse before'.reverse) :
    Pieces.Alike a b (closeChain chained t before frames).1.reverse
        (closeChain chained t' before' frames').1.reverse ∧
      List.Forall₂ (Frame.Alike a b) (closeChain chained t before frames).2
        (closeChain chained t' before' frames').2 := by
  have joined {t t' : Tree Piece} {before before' : List (Tree Piece)}
      (ht : Tree.Alike Piece.Alike (Piece.Cut a b) t t')
      (hb : Pieces.Alike a b before.reverse before'.reverse) :
      Pieces.Alike a b (t :: before).reverse (t' :: before').reverse := by
    rw [List.reverse_cons, List.reverse_cons]
    exact hb.append (.singleton ht)
  induction h generalizing chained t t' before before' with
  | nil => exact ⟨joined ht hb, .nil⟩
  | @cons f f' frames frames' hf hframes ih =>
    have ho := hf.opener
    obtain ⟨opener, here, body, earlier⟩ := f
    obtain ⟨opener', here', body', earlier'⟩ := f'
    cases chained with
    | false =>
      unfold closeChain
      exact ⟨joined ht hb, .cons hf hframes⟩
    | true =>
      dsimp only at ho
      cases ho with
      | block kind outer hs =>
        unfold closeChain
        exact ih outer (hf.block kind hs (.singleton ht)) hf.before
      | define name =>
        unfold closeChain
        exact ⟨joined ht hb, .cons hf hframes⟩
      | slot name hd =>
        unfold closeChain
        exact ⟨joined ht hb, .cons hf hframes⟩

theorem State.close_agree (h : σ.Alike a b σ') (here here' : Location) :
    Agree (State.Alike a b) (σ.close here) (σ'.close here') := by
  obtain ⟨current, frames, defines⟩ := σ
  obtain ⟨current', frames', defines'⟩ := σ'
  obtain ⟨hcurrent, hframes, hdefines⟩ := h
  cases hframes with
  | nil => exact structural_agree _ _ _
  | @cons f f' rest rest' hf hrest =>
    have ho := hf.opener
    have hbefore := hf.before
    obtain ⟨opener, start, body, before⟩ := f
    obtain ⟨opener', start', body', before'⟩ := f'
    have done (name : String) : List.Forall₂ (Template.Alike a b)
        (defines ++ [⟨name, current.reverse, start⟩])
        (defines' ++ [⟨name, current'.reverse, start'⟩]) :=
      List.rel_append hdefines (.cons ⟨rfl, hcurrent⟩ .nil)
    dsimp only at ho hbefore
    cases ho with
    | block kind chained hs =>
      obtain ⟨hclosed, hopen⟩ :=
        closeChain_alike hrest chained (hf.block kind hs hcurrent) hbefore
      exact .ok ⟨hclosed, hopen, hdefines⟩
    | define name => exact .ok ⟨hbefore, hrest, done name⟩
    | slot name hd =>
      refine .ok ⟨?_, hrest, done name⟩
      rw [List.reverse_cons, List.reverse_cons]
      exact hbefore.append (.singleton (.leaf (.embed name start start' (congrArg some hd))))

theorem State.otherwise_agree (h : σ.Alike a b σ') (subject subject' : Option Pipeline)
    (hs : subject.map Pipeline.bare = subject'.map Pipeline.bare) (here here' : Location) :
    Agree (State.Alike a b) (σ.otherwise subject here) (σ'.otherwise subject' here') := by
  obtain ⟨current, frames, defines⟩ := σ
  obtain ⟨current', frames', defines'⟩ := σ'
  obtain ⟨hcurrent, hframes, hdefines⟩ := h
  cases hframes with
  | nil => exact structural_agree _ _ _
  | @cons f f' rest rest' hf hrest =>
    have ho := hf.opener
    have hbody := hf.body
    have hbefore := hf.before
    obtain ⟨opener, start, body, before⟩ := f
    obtain ⟨opener', start', body', before'⟩ := f'
    dsimp only at ho hbody hbefore
    cases ho with
    | define name => cases hbody <;> exact structural_agree _ _ _
    | slot name hd => cases hbody <;> exact structural_agree _ _ _
    | block kind chained hsubject =>
      cases hbody with
      | some _ => exact structural_agree _ _ _
      | none =>
        have turned : State.Alike a b
            ⟨[], ⟨.block kind _ chained, start, some current.reverse, before⟩ :: rest, defines⟩
            ⟨[], ⟨.block kind _ chained, start', some current'.reverse, before'⟩ :: rest',
              defines'⟩ :=
          ⟨.nil, .cons ⟨.block kind chained hsubject, .some hcurrent, hbefore⟩ hrest, hdefines⟩
        cases subject with
        | none =>
          cases subject' with
          | none => exact .ok turned
          | some p' => cases hs
        | some p =>
          cases subject' with
          | none => cases hs
          | some p' =>
            cases kind with
            | cond => exact .ok (turned.open (.block .cond true (Option.some.inj hs)) here here')
            | each => exact structural_agree _ _ _
            | within => exact structural_agree _ _ _

theorem State.openDefinition_agree (h : σ.Alike a b σ') (main name : String)
    {opener opener' : Opener} (ho : opener.Alike opener') (here here' : Location) :
    Agree (State.Alike a b) (σ.openDefinition main opener name here)
      (σ'.openDefinition main opener' name here') := by
  have names : (σ.defines.any (·.name = name)) = σ'.defines.any (·.name = name) := by
    have := h.defines
    generalize σ.defines = ts at this
    generalize σ'.defines = ts' at this
    induction this with
    | nil => rfl
    | cons ht _ ih => rw [List.any_cons, List.any_cons, ht.name, ih]
  unfold State.openDefinition
  rw [names]
  split
  · exact structural_agree _ _ _
  · exact .ok (h.open ho here here')

/-- Actions that are the same up to locations keep states alike, or fail together. -/
theorem State.act_agree (h : σ.Alike a b σ') (main : String) {action action' : Action}
    (ha : action.Alike action') (here here' : Location) :
    Agree (State.Alike a b) (σ.act main action here) (σ'.act main action' here') := by
  cases ha with
  | output hp => exact .ok (h.push (.leaf (.output here here' hp)))
  | opening kind hp => exact .ok (h.open (.block kind false hp) here here')
  | otherwise => exact State.otherwise_agree h none none rfl here here'
  | otherwiseIf hp =>
    exact State.otherwise_agree h (some _) (some _) (congrArg some hp) here here'
  | close => exact State.close_agree h here here'
  | embed name hd => exact .ok (h.push (.leaf (.embed name here here' hd)))
  | define name => exact State.openDefinition_agree h main name (.define name) here here'
  | slot name hp => exact State.openDefinition_agree h main name (.slot name hp) here here'

theorem State.finish_agree (h : σ.Alike a b σ') (main : String) :
    Agree (Source.Alike a b) (σ.finish main) (σ'.finish main) := by
  obtain ⟨current, frames, defines⟩ := σ
  obtain ⟨current', frames', defines'⟩ := σ'
  obtain ⟨hcurrent, hframes, hdefines⟩ := h
  cases hframes with
  | nil => exact .ok ⟨⟨rfl, hcurrent⟩, hdefines⟩
  | cons _ _ => exact .error _ _

/-- The tokens of an action end where it is closed. -/
theorem splitAction_append {inside : List Token} (h : ∀ t ∈ inside, isInside t = true)
    (stop : Location) (rest : List Token) :
    splitAction (inside ++ ⟨.actionClose, stop⟩ :: rest) = (inside, stop, rest) := by
  have taken : (inside ++ (⟨.actionClose, stop⟩ : Token) :: rest).takeWhile isInside = inside := by
    rw [List.takeWhile_append_of_pos h, List.takeWhile_cons_of_neg (by simp [isInside]),
      List.append_nil]
  unfold splitAction
  rw [taken]
  dsimp only
  rw [List.drop_left]

/-- Items are parsed to templates that are alike, or are refused together. -/
theorem run_agree (main : String) {ts ts' : List Token} (hts : Items a b ts ts')
    (h : σ.Alike a b σ') :
    Agree (Source.Alike a b) (run main σ ts) (run main σ' ts') := by
  induction hts generalizing σ σ' with
  | eof here here' =>
    rw [run, run]
    exact State.finish_agree h main
  | text content here here' _ ih =>
    rw [run, run]
    exact ih (h.push (.leaf (.text content here here')))
  | cut here first second _ ih =>
    rw [run, run]
    dsimp only
    rw [run]
    exact ih (h.push_cut here first second)
  | @action inside inside' ts ts' here here' stop stop' halike hinside _ ih =>
    have hinside' : ∀ t ∈ inside', isInside t = true := by
      clear ih
      induction halike with
      | nil => exact List.forall_mem_nil _
      | @cons t t' _ _ ht _ ih =>
        obtain ⟨hfirst, hrest⟩ := List.forall_mem_cons.mp hinside
        refine List.forall_mem_cons.mpr ⟨?_, ih hrest⟩
        rw [isInside, ← ht]
        exact hfirst
    have empty : σ.frames.isEmpty = σ'.frames.isEmpty := by
      have frames := h.frames
      generalize σ.frames = fs at frames
      generalize σ'.frames = fs' at frames
      cases frames <;> rfl
    rw [run, run]
    dsimp only
    rw [splitAction_append hinside, splitAction_append hinside', empty]
    refine (Action.ofTokens_agree halike _ here here' stop stop').bind fun action action' ha => ?_
    exact (State.act_agree h main ha here here').bind fun τ τ' hτ => ih hτ

end Parser

/-- Items are parsed to sources that are alike, or are refused together. -/
theorem Source.ofTokens_agree {a b : String} (name : String)
    {ts ts' : List Token} (h : Items a b ts ts') :
    Agree (Source.Alike a b) (Source.ofTokens name ts) (Source.ofTokens name ts') :=
  Parser.run_agree name h Parser.State.alike_initial

end Stencil
