import Stencil.Proofs.Program.Table
import Stencil.Proofs.Results

/-!
# What the analysis never complains about

The analysis refuses texts, outputs, branches and loops, but it never reports an output without
escapers (`enter_careful`): that message is left to the check of the finished program.
-/

set_option autoImplicit false

namespace Stencil

open Markup (Context)

/-- An output was left without escapers. -/
def Ambiguity.IsUnescaped : Ambiguity → Prop
  | .unescaped _ => True
  | _ => False

/-- The error of an output that was left without escapers. -/
def Error.IsUnescaped : Error → Prop
  | .ambiguous a _ => a.IsUnescaped
  | _ => False

namespace Analysis

/-- No output without escapers is reported, whatever the table. -/
def Step.Careful {α : Type} (x : Step α) : Prop :=
  ∀ t : Table, Avoids Error.IsUnescaped (x.run t)

namespace Step.Careful

variable {α β : Type}

protected theorem pure (a : α) : Careful (pure a) := fun t => .ok (a, t)

protected theorem bind {x : Step α} {f : α → Step β} (hx : Careful x) (hf : ∀ a, Careful (f a)) :
    Careful (x >>= f) := by
  intro t
  rw [StateT.run_bind]
  exact (hx t).bind fun r _ => hf r.1 r.2

theorem ambiguous {a : Ambiguity} (h : ¬ a.IsUnescaped) (here : Location) :
    Careful (ambiguous a here : Step α) := fun _ => .error h

theorem join (policy : Policy) (a b : Context) {otherwise : Ambiguity}
    (h : ¬ otherwise.IsUnescaped) (here : Location) :
    Careful (join policy a b otherwise here) := by
  unfold Analysis.join
  split
  · exact .pure _
  · exact ambiguous h here

end Step.Careful

variable {policy : Policy} {enter : Enter}

/-- Embedding a template reports no output without escapers. -/
def Enter.Careful (enter : Enter) : Prop :=
  ∀ name c here, Step.Careful (enter name c here)

theorem piece_careful (embeds : enter.Careful) (c : Context) (item : Piece) :
    (piece policy enter c item).Careful := by
  unfold piece
  split
  · dsimp only
    split
    · exact .ambiguous id _
    · exact .pure _
  · dsimp only
    split
    · exact .ambiguous id _
    · exact .pure _
  · split
    · exact .ambiguous id _
    · exact (embeds _ _ _).bind fun _ => .pure _

theorem loopBody_careful {body : List (Tree Piece)}
    (hbody : ∀ c, (trees policy enter c body).Careful) (c start : Context)
    (once : List (Tree Instruction)) (here : Location) :
    (loopBody policy enter c start body once here).Careful := by
  unfold loopBody
  split
  · exact .pure _
  · refine (hbody start).bind fun _ => ?_
    dsimp only
    split
    · exact .pure _
    · exact .ambiguous id here

mutual

theorem tree_careful (embeds : enter.Careful) (c : Context) :
    (x : Tree Piece) → (tree policy enter c x).Careful
  | .leaf item => by
    rw [tree]
    exact (piece_careful embeds c item).bind fun _ => .pure _
  | .block .each subject body none here => by
    rw [tree_each]
    exact (trees_careful embeds c body).bind fun _ =>
      (Step.Careful.join policy _ _ id here).bind fun _ =>
        (loopBody_careful (trees_careful embeds · body) _ _ _ here).bind fun _ => .pure _
  | .block .each subject body (some alternative) here => by
    rw [tree_each]
    exact (trees_careful embeds c body).bind fun _ =>
      (Step.Careful.join policy _ _ id here).bind fun _ =>
        (loopBody_careful (trees_careful embeds · body) _ _ _ here).bind fun _ =>
          (trees_careful embeds c alternative).bind fun _ =>
            (Step.Careful.join policy _ _ id here).bind fun _ => .pure _
  | .block .cond subject body none here | .block .within subject body none here => by
    rw [tree]
    · exact (trees_careful embeds c body).bind fun _ =>
        (Step.Careful.join policy _ _ id here).bind fun _ => .pure _
    · nofun
  | .block .cond subject body (some alternative) here
  | .block .within subject body (some alternative) here => by
    rw [tree]
    · exact (trees_careful embeds c body).bind fun _ =>
        (trees_careful embeds c alternative).bind fun _ =>
          (Step.Careful.join policy _ _ id here).bind fun _ => .pure _
    · nofun

theorem trees_careful (embeds : enter.Careful) (c : Context) :
    (xs : List (Tree Piece)) → (trees policy enter c xs).Careful
  | [] => by
    rw [trees]
    exact .pure _
  | x :: rest => by
    rw [trees]
    exact (tree_careful embeds c x).bind fun _ =>
      (trees_careful embeds _ rest).bind fun _ => .pure _

end

/-- No embedding reports an output without escapers. -/
theorem enter_careful (templates : List (String × Template)) (room : Nat) :
    Enter.Careful (Analysis.enter policy templates room) := by
  induction room with
  | zero =>
    intro name c here
    rw [Analysis.enter]
    exact .ambiguous id here
  | succ room ih =>
    intro name c here
    have get : Step.Careful (get : Step Table) := fun t => .ok (t, t)
    have modify (f : Table → Table) : Step.Careful (modify f : Step PUnit) :=
      fun t => .ok (PUnit.unit, f t)
    rw [Analysis.enter]
    refine get.bind fun table => ?_
    split
    · unfold revisit
      refine get.bind fun table => ?_
      split
      · exact .pure _
      · exact (modify _).bind fun _ => .pure _
    split
    · exact fun t => .error id
    split
    · exact .ambiguous id here
    · refine Step.Careful.bind (fun _ => .ok (PUnit.unit, _)) fun _ => ?_
      refine (trees_careful ih c _).bind fun _ => get.bind fun table => ?_
      split
      · exact .ambiguous id _
      · exact (modify _).bind fun _ => .pure _

end Analysis

end Stencil
