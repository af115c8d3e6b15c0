import Mathlib.Data.List.TakeWhile
import Stencil.Proofs.Template.Arena
import Stencil.Proofs.Template.Inside
import Stencil.Proofs.Template.Names

/-!
# The texts of a source

The parser loses no text and moves none out of order (`Parser.run_dealt`). The texts of the tokens
are dealt out to the templates of the source (`Dealt`): each goes to one template, and each template
has its own in the order of the tokens.

The invariant is one of the parser's states. While definitions are open there are several lists to
which a text may go, and what has been read of a template lies scattered over the frames; put
together (`Parser.State.parts`) it is a list of trees, and ending a block does not change its
leaves. Opening a definition starts a new list, and ending one moves its list behind those that are
done.
-/

set_option autoImplicit false

namespace Stencil

/-! ## Dealing out -/

section

variable {α : Type}

/-- A list is dealt out to others: every item has an owner, and the list of an owner is what it
owns, in order. -/
def Dealt (items : List α) (shares : List (List α)) : Prop :=
  ∃ owned : List (Nat × α), owned.map Prod.snd = items ∧ (∀ x ∈ owned, x.1 < shares.length) ∧
    ∀ (k : Nat) (share : List α), shares[k]? = some share →
      (owned.filter (·.1 = k)).map Prod.snd = share

namespace Dealt

variable {items share : List α} {shares : List (List α)}

theorem nil : Dealt ([] : List α) [[]] := by
  refine ⟨[], rfl, nofun, fun k share h => ?_⟩
  rcases k with _ | k
  · cases h
    rfl
  · cases h

/-- One item more goes to the first list. -/
theorem next (h : Dealt items (share :: shares)) (a : α) :
    Dealt (items ++ [a]) ((share ++ [a]) :: shares) := by
  obtain ⟨owned, hitems, hbound, hshares⟩ := h
  refine ⟨owned ++ [(0, a)], by rw [List.map_append, hitems]; rfl, ?_, fun k s hs => ?_⟩
  · rw [List.forall_mem_append, List.forall_mem_singleton]
    exact ⟨hbound, Nat.succ_pos _⟩
  · rw [List.filter_append, List.map_append]
    rcases k with _ | k
    · cases hs
      rw [hshares 0 share rfl]
      rfl
    · rw [hshares (k + 1) s hs]
      exact List.append_nil s

/-- Owners under other numbers. -/
theorem renumber {owned : List (Nat × α)} (f : Nat → Nat) {k j : Nat}
    (h : ∀ x ∈ owned, f x.1 = k ↔ x.1 = j) :
    ((owned.map fun x => (f x.1, x.2)).filter (·.1 = k)).map Prod.snd =
      (owned.filter (·.1 = j)).map Prod.snd := by
  rw [List.filter_map, List.map_map]
  have same : owned.filter ((fun x : Nat × α => decide (x.1 = k)) ∘ fun x => (f x.1, x.2)) =
      owned.filter (·.1 = j) :=
    List.filter_congr fun x hx => by simpa using h x hx
  rw [same]
  rfl

/-- A new list in front has nothing. -/
theorem fresh (h : Dealt items shares) : Dealt items ([] :: shares) := by
  obtain ⟨owned, hitems, hbound, hshares⟩ := h
  refine ⟨owned.map fun x => (x.1 + 1, x.2), ?_, ?_, fun k s hs => ?_⟩
  · rw [List.map_map]
    exact hitems
  · rw [List.forall_mem_map]
    exact fun x hx => Nat.succ_lt_succ (hbound x hx)
  · rcases k with _ | k
    · cases hs
      rw [List.map_eq_nil_iff, List.filter_eq_nil_iff, List.forall_mem_map]
      simp
    · rw [renumber (· + 1) (j := k) fun x _ => by simp]
      exact hshares k s hs

/-- The first list becomes the last one. -/
theorem rotate (h : Dealt items (share :: shares)) : Dealt items (shares ++ [share]) := by
  obtain ⟨owned, hitems, hbound, hshares⟩ := h
  let f (i : Nat) : Nat := if i = 0 then shares.length else i - 1
  refine ⟨owned.map fun x => (f x.1, x.2), ?_, ?_, fun k s hs => ?_⟩
  · rw [List.map_map]
    exact hitems
  · rw [List.forall_mem_map]
    intro x hx
    have := hbound x hx
    simp only [f, List.length_append, List.length_cons] at this ⊢
    split <;> omega
  · rw [List.getElem?_append] at hs
    split at hs
    · next hk =>
      rw [renumber f (j := k + 1) fun x hx => by simp only [f]; split <;> omega]
      exact hshares (k + 1) s (by simpa using hs)
    · next hk =>
      obtain ⟨hlast, rfl⟩ : k = shares.length ∧ share = s := by
        rw [List.getElem?_singleton] at hs
        split at hs
        · exact ⟨by omega, Option.some.inj hs⟩
        · cases hs
      subst hlast
      rw [renumber f (j := 0) fun x hx => ?_]
      · exact hshares 0 share rfl
      · have := hbound x hx
        simp only [f, List.length_cons] at this ⊢
        split <;> omega

end Dealt

end

/-! ## Texts -/

/-- The text of a token, with its location. -/
def Token.text? (t : Token) : Option (String × Location) :=
  match t.kind with
  | .text content => some (content, t.location)
  | _ => none

/-- The text of a piece, with its location. -/
def Piece.text? : Piece → Option (String × Location)
  | .text content here => some (content, here)
  | _ => none

namespace Tokens

/-- The texts of tokens. -/
abbrev texts (ts : List Token) : List (String × Location) := ts.filterMap Token.text?

/-- No text stands inside an action. -/
theorem Inner.texts {ts : List Token} (h : Inner ts) : texts ts = [] := by
  refine List.filterMap_eq_nil_iff.mpr fun t ht => ?_
  have inner := h t ht
  unfold Token.IsInner at inner
  unfold Token.text?
  split
  · next heq => simp [heq] at inner
  · rfl

end Tokens

namespace Tree

variable {α : Type}

@[simp] theorem leavesOf_nil : leavesOf ([] : List (Tree α)) = [] := by
  rw [leavesOf]

@[simp] theorem leavesOf_cons (t : Tree α) (ts : List (Tree α)) :
    leavesOf (t :: ts) = leaves t ++ leavesOf ts := by
  rw [leavesOf]

@[simp] theorem leavesOf_append (first second : List (Tree α)) :
    leavesOf (first ++ second) = leavesOf first ++ leavesOf second := by
  induction first with
  | nil => simp
  | cons t rest ih => simp [ih]

end Tree

namespace Pieces

/-- The texts of trees. -/
def texts (ts : List (Tree Piece)) : List (String × Location) :=
  (Tree.leavesOf ts).filterMap Piece.text?

@[simp] theorem texts_append (first second : List (Tree Piece)) :
    texts (first ++ second) = texts first ++ texts second := by
  simp [texts]

@[simp] theorem texts_leaf (item : Piece) : texts [.leaf item] = item.text?.toList := by
  cases item <;> simp [texts, Tree.leaves, Piece.text?]

end Pieces

namespace Parser

open Pieces (texts)

/-! ## What a state has read -/

/-- The block of a frame has the texts of its body and of the list just read. -/
@[simp] theorem Frame.texts_block (f : Frame) (kind : BlockKind) (subject : Pipeline)
    (read : List (Tree Piece)) :
    texts [f.block kind subject read] = texts (f.body.getD []) ++ texts read := by
  unfold Frame.block
  split
  · next h => simp [h, texts, Tree.leaves]
  · next body h => simp [h, texts, Tree.leaves]

/-- The trees that stand in frames: those before the list being read in its template, and those of
the other open templates, innermost first. What an open block has is among its surroundings. -/
def spread : List Frame → List (Tree Piece) × List (List (Tree Piece))
  | [] => ([], [])
  | f :: frames =>
    let (before, others) := spread frames
    if f.opener.isBlock then (before ++ f.before.reverse ++ f.body.getD [], others)
    else ([], (before ++ f.before.reverse) :: others)

/-- What has been read of each template: of those that are open, innermost first and the main one
last, and of the definitions that are done. -/
def State.parts (σ : State) : List (List (Tree Piece)) :=
  ((spread σ.frames).1 ++ σ.current.reverse) :: (spread σ.frames).2 ++ σ.defines.map Template.body

/-- A chained block stands at the start of its list. -/
def Frame.AtStart (f : Frame) : Prop := f.opener.isChained = true → f.before = []

/-- A state in which texts have been read. -/
structure State.Reads (σ : State) (items : List (String × Location)) : Prop where
  starts : ∀ f ∈ σ.frames, f.AtStart
  dealt : Dealt items (σ.parts.map texts)

namespace State

variable {σ τ : State} {items : List (String × Location)} {main : String} {here : Location}

theorem reads_initial : initial.Reads [] := ⟨nofun, .nil⟩

/-- A tree joins what has been read of the innermost template. -/
theorem map_texts_push (σ : State) (t : Tree Piece) : (σ.push t).parts.map texts =
    (texts ((spread σ.frames).1 ++ σ.current.reverse) ++ texts [t]) ::
      ((spread σ.frames).2 ++ σ.defines.map Template.body).map texts := by
  simp [parts, push]

theorem Reads.text (h : σ.Reads items) (content : String) (here : Location) :
    (σ.push (.leaf (.text content here))).Reads (items ++ [(content, here)]) := by
  refine ⟨h.starts, ?_⟩
  rw [map_texts_push]
  exact h.dealt.next (content, here)

/-- Where a state changes to one of the same texts, nothing is lost. -/
theorem Reads.same (h : σ.Reads items) (starts : ∀ f ∈ τ.frames, f.AtStart)
    (same : τ.parts.map texts = σ.parts.map texts) : τ.Reads items :=
  ⟨starts, same ▸ h.dealt⟩

theorem Reads.push (h : σ.Reads items) {t : Tree Piece} (none_in : texts [t] = []) :
    (σ.push t).Reads items := by
  refine h.same h.starts ?_
  rw [map_texts_push, none_in, List.append_nil]
  rfl

/-- Opening a block puts what has been read aside. -/
theorem Reads.open (h : σ.Reads items) (kind : BlockKind) (subject : Pipeline) (chained : Bool)
    (here : Location) (start : chained = true → σ.current = []) :
    (σ.open (.block kind subject chained) here).Reads items := by
  refine h.same (List.forall_mem_cons.mpr ⟨start, h.starts⟩) ?_
  simp [parts, State.open, spread, Opener.isBlock]

/-- Opening a definition starts a list of its own. -/
theorem Reads.openDefinition (h : σ.Reads items) {opener : Opener} {name : String}
    (block : opener.isBlock = false) (chained : opener.isChained = false)
    (hc : σ.openDefinition main opener name here = .ok τ) : τ.Reads items := by
  unfold State.openDefinition at hc
  split at hc
  · cases hc
  · cases hc
    refine ⟨List.forall_mem_cons.mpr ⟨fun hchained => ?_, h.starts⟩, ?_⟩
    · rw [chained] at hchained
      cases hchained
    · have opened : (σ.open opener here).parts = [] :: σ.parts := by
        simp [parts, State.open, spread, block]
      rw [opened]
      exact h.dealt.fresh

/-- An `else` puts the body aside, and with a subject opens a block at the start of the
alternative. -/
theorem Reads.otherwise (h : σ.Reads items) (subject : Option Pipeline)
    (hc : σ.otherwise subject here = .ok τ) : τ.Reads items := by
  obtain ⟨current, frames, defines⟩ := σ
  cases frames with
  | nil => cases hc
  | cons f frames =>
    obtain ⟨opener, start, body, before⟩ := f
    cases opener with
    | define name => cases hc
    | slot name data => cases hc
    | block kind outer chained =>
      cases body with
      | some body => cases hc
      | none =>
        obtain ⟨hstart, hrest⟩ := List.forall_mem_cons.mp h.starts
        have turned : State.Reads ⟨[], ⟨.block kind outer chained, start, some current.reverse,
            before⟩ :: frames, defines⟩ items := by
          refine h.same (List.forall_mem_cons.mpr ⟨hstart, hrest⟩) ?_
          simp [parts, spread, Opener.isBlock]
        cases subject with
        | none =>
          cases hc
          exact turned
        | some p =>
          cases kind with
          | cond =>
            cases hc
            exact turned.open .cond p true here fun _ => rfl
          | each => cases hc
          | within => cases hc

end State

/-- The end of a chain of blocks leaves the texts where they are. -/
theorem closeChain_texts {chained : Bool} {t : Tree Piece} {before : List (Tree Piece)}
    {frames : List Frame} (start : chained = true → before = [])
    (starts : ∀ f ∈ frames, f.AtStart) :
    texts ((spread (closeChain chained t before frames).2).1 ++
        (closeChain chained t before frames).1.reverse) =
      texts ((spread frames).1 ++ (t :: before).reverse) ∧
    (spread (closeChain chained t before frames).2).2 = (spread frames).2 ∧
    ∀ f ∈ (closeChain chained t before frames).2, f.AtStart := by
  induction frames generalizing chained t before with
  | nil => exact ⟨rfl, rfl, nofun⟩
  | cons f frames ih =>
    unfold closeChain
    split
    · next kind subject outer ho =>
      obtain ⟨hstart, hrest⟩ := List.forall_mem_cons.mp starts
      have first (houter : outer = true) : f.before = [] := hstart (by rw [ho]; exact houter)
      obtain ⟨htexts, hothers, hframes⟩ := ih (t := f.block kind subject [t]) first hrest
      have block : f.opener.isBlock = true := by rw [ho]; rfl
      refine ⟨?_, ?_, hframes⟩
      · rw [htexts, start rfl]
        simp [spread, block]
      · rw [hothers]
        simp [spread, block]
    · exact ⟨rfl, rfl, starts⟩

namespace State

variable {σ τ : State} {items : List (String × Location)} {main : String} {here : Location}

/-- The end of a block keeps its texts in place; the end of a definition moves its list behind those
that are done. -/
theorem Reads.close (h : σ.Reads items) (hc : σ.close here = .ok τ) : τ.Reads items := by
  obtain ⟨current, frames, defines⟩ := σ
  cases frames with
  | nil => cases hc
  | cons f frames =>
    obtain ⟨hstart, hrest⟩ := List.forall_mem_cons.mp h.starts
    obtain ⟨opener, start, body, before⟩ := f
    cases opener with
    | block kind subject chained =>
      cases hc
      let f : Frame := ⟨.block kind subject chained, start, body, before⟩
      have first : chained = true → before = [] := hstart
      obtain ⟨htexts, hothers, hframes⟩ :=
        closeChain_texts (t := f.block kind subject current.reverse) first hrest
      refine h.same hframes ?_
      rw [parts, parts, List.cons_append, List.cons_append, List.map_cons, List.map_cons]
      rw [htexts, hothers]
      simp [spread, Opener.isBlock, f]
    | define name =>
      cases hc
      refine ⟨hrest, ?_⟩
      have moved := h.dealt
      simp only [parts, spread, Opener.isBlock] at moved
      simpa [parts] using moved.rotate
    | slot name data =>
      cases hc
      refine ⟨hrest, ?_⟩
      have moved := h.dealt
      simp only [parts, spread, Opener.isBlock] at moved
      simpa [parts, Piece.text?] using moved.rotate

/-- No action changes what has been read. -/
theorem Reads.act (h : σ.Reads items) {action : Action} (hc : σ.act main action here = .ok τ) :
    τ.Reads items := by
  cases action with
  | output p | embed name data =>
    cases hc
    exact h.push (by simp [Piece.text?])
  | opening kind subject =>
    cases hc
    exact h.open kind subject false here nofun
  | otherwise => exact h.otherwise none hc
  | otherwiseIf subject => exact h.otherwise (some subject) hc
  | close => exact h.close hc
  | define name => exact h.openDefinition rfl rfl hc
  | slot name data => exact h.openDefinition rfl rfl hc

end State

/-! ## Runs -/

/-- The tokens up to the end of the source. -/
def upToEnd (ts : List Token) : List Token :=
  ts.takeWhile fun t => t.kind ≠ .eof

/-- Tokens are those of an action, its closing and what follows, or all belong to an action that is
not closed. -/
theorem exists_splitAction (ts : List Token) :
    (∃ close : Token, close.kind = .actionClose ∧
      ts = (splitAction ts).1 ++ close :: (splitAction ts).2.2) ∨
    (ts = (splitAction ts).1 ∧ (splitAction ts).2.2 = []) := by
  have whole := List.takeWhile_append_dropWhile (p := isInside) (l := ts)
  have behind : ts.drop (ts.takeWhile isInside).length = ts.dropWhile isInside := by
    have left := @List.drop_left _ (ts.takeWhile isInside) (ts.dropWhile isInside)
    rwa [whole] at left
  unfold splitAction
  dsimp only
  rw [behind]
  cases hrest : ts.dropWhile isInside with
  | nil =>
    rw [hrest, List.append_nil] at whole
    exact .inr ⟨whole.symm, rfl⟩
  | cons close rest =>
    refine .inl ⟨close, ?_, (hrest ▸ whole).symm⟩
    have outside := List.head_dropWhile_not isInside (by rw [hrest]; exact List.cons_ne_nil _ _)
    simpa [hrest, isInside] using outside

/-- What follows an action that is read has the texts that follow its opening. -/
theorem texts_splitAction {ts : List Token} (h : Tokens.Inner (splitAction ts).1) :
    Tokens.texts (upToEnd ts) = Tokens.texts (upToEnd (splitAction ts).2.2) := by
  have notEnd (t : Token) (ht : t ∈ (splitAction ts).1) : t.kind ≠ .eof := by
    intro heof
    have inner := h t ht
    simp [Token.IsInner, heof] at inner
  rcases exists_splitAction ts with ⟨close, hclose, hts⟩ | ⟨hts, hrest⟩
  · have split : upToEnd ts = (splitAction ts).1 ++ close :: upToEnd (splitAction ts).2.2 := by
      conv_lhs => rw [hts]
      rw [upToEnd, List.takeWhile_append_of_pos (by simpa using notEnd)]
      simp [hclose, upToEnd]
    have inside : (splitAction ts).1.filterMap Token.text? = [] := h.texts
    rw [split, Tokens.texts, List.filterMap_append, inside]
    simp [Token.text?, hclose]
  · have all : upToEnd ts = (splitAction ts).1 := by
      conv_lhs => rw [hts]
      exact List.takeWhile_eq_self_iff.mpr (by simpa using notEnd)
    rw [all, h.texts, hrest]
    rfl

/-- Behind a run, the texts before it and those of its tokens are dealt out to the templates. -/
theorem run_dealt {main : String} {σ : State} {items : List (String × Location)}
    (h : σ.Reads items) {ts : List Token} {source : Source} (hrun : run main σ ts = .ok source) :
    Dealt (items ++ Tokens.texts (upToEnd ts))
      ((source.main :: source.defines).map fun t => texts t.body) := by
  have finished {σ : State} {items : List (String × Location)} (h : σ.Reads items)
      (hf : σ.finish main = .ok source) :
      Dealt items ((source.main :: source.defines).map fun t => texts t.body) := by
    obtain ⟨current, frames, defines⟩ := σ
    cases frames with
    | nil =>
      cases hf
      simpa [State.parts, spread, Function.comp_def] using h.dealt
    | cons f frames => cases hf
  induction σ, ts using run.induct generalizing items with
  | case1 σ =>
    rw [run] at hrun
    simpa [upToEnd] using finished h hrun
  | case2 σ t rest heof =>
    rw [run, heof] at hrun
    simpa [upToEnd, heof] using finished h hrun
  | case3 σ t rest content htext ih =>
    rw [run, htext] at hrun
    have dealt := ih (h.text content t.location) hrun
    simpa [upToEnd, htext, Token.text?] using dealt
  | @case4 σ t rest hopen split ih =>
    rw [run, hopen] at hrun
    obtain ⟨action, haction, h₁⟩ := exists_of_bind_eq_ok hrun
    obtain ⟨τ, hact, h₂⟩ := exists_of_bind_eq_ok h₁
    have inner : Tokens.Inner (splitAction rest).1 := Action.ofTokens_inner haction
    have dealt := ih τ (h.act hact) h₂
    rw [← texts_splitAction inner] at dealt
    simpa [upToEnd, hopen, Token.text?] using dealt
  | case5 σ t rest heof htext hopen =>
    rw [run] at hrun
    split at hrun <;> simp_all [unexpected, structural]

end Parser

end Stencil
