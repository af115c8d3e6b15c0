import Stencil.Proofs.Program.Table
import Stencil.Proofs.Markup.Unknown

/-!
# A stricter analysis

A policy refines another if it agrees with it where it gives an answer, and may refuse more texts
and more joins (`Policy.Refines`). What compiles under it compiles under the other to the same
(`enter_refines`).

The guarded policy refuses two things that the contextual one lets pass: a text that meets a slash
of unknown meaning, even where that fault is lost, and a join of contexts of which only the nudges
join. A template that compiles under it is one whose analysis needed neither.
-/

set_option autoImplicit false

namespace Stencil

open Markup (Context)

/-- `p` answers as `q` does, or refuses. -/
structure Policy.Refines (p q : Policy) : Prop where
  text : ∀ c cs, (p.advance c cs).error = none → q.advance c cs = p.advance c cs
  nudge : q.nudge = p.nudge
  escapers : q.escapers = p.escapers
  afterOutput : q.afterOutput = p.afterOutput
  prepare : q.prepare = p.prepare
  join : ∀ a b c, p.join a b = some c → q.join a b = some c

/-- Outputs are escaped for the context they are written in; every slash that is met must have a
meaning, and contexts must join as they stand. -/
def Policy.guarded : Policy :=
  { Policy.contextual with
    advance := fun c cs => if c.meetsUnknownSlash cs then .failed .slash else c.advance cs
    join := Context.joinDirect }

theorem Policy.guarded_advance {c : Context} {cs : List Char}
    (h : (Policy.guarded.advance c cs).error = none) :
    c.meetsUnknownSlash cs = false ∧ Policy.guarded.advance c cs = c.advance cs := by
  unfold Policy.guarded at h ⊢
  dsimp only at h ⊢
  split at h
  · cases h
  · next hclear => exact ⟨by simpa using hclear, if_neg hclear⟩

theorem Policy.guarded_refines : Policy.guarded.Refines Policy.contextual where
  text _ _ h := (Policy.guarded_advance h).2.symm
  nudge := rfl
  escapers := rfl
  afterOutput := rfl
  prepare := rfl
  join a b c h := by
    show Context.join a b = some c
    unfold Context.join
    rw [show a.joinDirect b = some c from h]

/-- Under the guarded policy no context is an error. -/
theorem Policy.guarded_preserves :
    Policy.guarded.Preserves fun c => c.isError = false where
  text c cs ok h := by
    obtain ⟨-, heq⟩ := Policy.guarded_advance h
    rw [heq] at h ⊢
    refine Decidable.byContradiction fun he => ?_
    rw [Context.advance_of_isError_after ok (by simpa using he)] at h
    cases h
  output c _ ok _ := Context.isError_afterOutput (Context.isError_nudge ok)
  join a b c oka okb h := by
    rw [← (Context.covers_of_joinDirect oka okb h).1.isError]
    exact oka

namespace Analysis

/-- Where `x` ends well, `y` does the same. -/
def Step.Refines {α : Type} (x y : Step α) : Prop :=
  ∀ t r, x.run t = .ok r → y.run t = .ok r

theorem Step.Refines.refl {α : Type} (x : Step α) : Step.Refines x x := fun _ _ h => h

theorem Step.Refines.bind {α β : Type} {x y : Step α} {f g : α → Step β}
    (h : Step.Refines x y) (hf : ∀ a, Step.Refines (f a) (g a)) :
    Step.Refines (x >>= f) (y >>= g) := by
  rintro t ⟨b, t'⟩ hrun
  obtain ⟨a, t₁, hx, hfa⟩ := run_bind_eq_ok hrun
  rw [StateT.run_bind, h t _ hx]
  exact hf a t₁ _ hfa

theorem Step.Refines.of_fail {α : Type} (e : Error) (y : Step α) : Step.Refines (fail e) y :=
  fun _ _ h => by cases h

section

variable {p q : Policy}

theorem join_refines (h : p.Refines q) (a b : Context) (otherwise : Ambiguity) (here : Location) :
    Step.Refines (join p a b otherwise here) (join q a b otherwise here) := by
  unfold join
  split
  · next c hc =>
    rw [h.join a b c hc]
    exact .refl _
  · exact .of_fail _ _

/-- A way to embed that answers as another does, or refuses. -/
def Enter.Refines (enter enter' : Enter) : Prop :=
  ∀ name c here, Step.Refines (enter name c here) (enter' name c here)

variable {enter enter' : Enter}

theorem piece_refines (h : p.Refines q) (he : Enter.Refines enter enter') (c : Context)
    (item : Piece) : Step.Refines (piece p enter c item) (piece q enter' c item) := by
  unfold piece
  split
  · next content here =>
    dsimp only
    split
    · exact .of_fail _ _
    · next hfault =>
      rw [h.text c content.toList hfault, hfault]
      exact .refl _
  · rw [h.nudge, h.escapers, h.prepare, h.afterOutput]
    exact .refl _
  · split
    · exact .refl _
    · exact .bind (he _ _ _) fun _ => .refl _

mutual

theorem tree_refines (h : p.Refines q) (he : Enter.Refines enter enter') (c : Context) :
    ∀ x : Tree Piece, Step.Refines (tree p enter c x) (tree q enter' c x)
  | .leaf item => by
    rw [tree, tree]
    exact .bind (piece_refines h he c item) fun _ => .refl _
  | .block kind subject body alternative here => by
    by_cases hk : kind = .each
    · subst hk
      rw [tree_each, tree_each]
      refine .bind (trees_refines h he c body) fun ⟨once, stop⟩ => ?_
      refine .bind (join_refines h _ _ _ _) fun start => .bind ?_ fun compiled => ?_
      · unfold loopBody
        split
        · exact .refl _
        · refine .bind (trees_refines h he start body) fun ⟨twice, again⟩ => ?_
          dsimp only
          split
          · next hfix =>
            rw [if_pos (h.join _ _ _ hfix)]
            exact .refl _
          · exact .of_fail _ _
      · cases alternative with
        | none => exact .refl _
        | some alternative =>
          refine .bind (trees_refines h he c alternative) fun ⟨other, otherStop⟩ => ?_
          exact .bind (join_refines h _ _ _ _) fun _ => .refl _
    · rw [tree, tree]
      · refine .bind (trees_refines h he c body) fun ⟨compiled, stop⟩ => ?_
        cases alternative with
        | none => exact .bind (join_refines h _ _ _ _) fun _ => .refl _
        | some alternative =>
          refine .bind (trees_refines h he c alternative) fun ⟨other, otherStop⟩ => ?_
          exact .bind (join_refines h _ _ _ _) fun _ => .refl _
      · exact hk
      · exact hk

theorem trees_refines (h : p.Refines q) (he : Enter.Refines enter enter') (c : Context) :
    ∀ xs : List (Tree Piece), Step.Refines (trees p enter c xs) (trees q enter' c xs)
  | [] => by
    rw [trees, trees]
    exact .refl _
  | x :: rest => by
    rw [trees, trees]
    refine .bind (tree_refines h he c x) fun ⟨u, next⟩ => ?_
    exact .bind (trees_refines h he next rest) fun _ => .refl _

end

/-- What compiles under a policy compiles under one that it refines, to the same. -/
theorem enter_refines (h : p.Refines q) (templates : List (String × Template)) (room : Nat) :
    Enter.Refines (Analysis.enter p templates room) (Analysis.enter q templates room) := by
  induction room with
  | zero =>
    intro name c here
    rw [Analysis.enter, Analysis.enter]
    exact .refl _
  | succ room ih =>
    intro name c here
    rw [Analysis.enter, Analysis.enter]
    refine .bind (.refl _) fun table => ?_
    split
    · exact .refl _
    split
    · exact .refl _
    split
    · exact .refl _
    · dsimp only
      refine .bind (.refl _) fun _ => .bind (trees_refines h ih c _) fun _ => .refl _

end

end Analysis

end Stencil
