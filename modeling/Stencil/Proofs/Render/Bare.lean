import Stencil.Proofs.Results
import Stencil.Proofs.Template.Places
import Stencil.Render.Eval

/-!
# Values of pipelines at other places

Where a pipeline stands shows in the errors it ends in and in nothing else: without locations its
value is the same, and so is the error (`Pipeline.eval_bare`).
-/

set_option autoImplicit false

namespace Stencil

/-- A fault without the locations of paths. -/
def ExecutionFault.bare : ExecutionFault → ExecutionFault
  | .missingKey step path => .missingKey step path.bare
  | .outOfRange step length path => .outOfRange step length path.bare
  | .nil step path => .nil step path.bare
  | .notIndexable step kind path => .notIndexable step kind path.bare
  | f => f

/-- An error of a run without locations. -/
def Error.bare : Error → Error
  | .execution f _ => .execution f.bare .outside
  | .undefined name _ => .undefined name .outside
  | e => e

/-- A result whose error, if it is one, has no locations. -/
abbrev Bare {α : Type} (r : Except Error α) : Except Error α := r.mapError Error.bare

theorem bare_bind {α β : Type} (x : Except Error α) (f : α → Except Error β) :
    Bare (x >>= f) = Bare x >>= fun a => Bare (f a) := by
  cases x <;> rfl

/-! ## Functions -/

namespace Builtin

/-- The faults of functions name no paths. -/
def Pathless {α : Type} (r : Except ExecutionFault α) : Prop :=
  Avoids (fun f => f.bare ≠ f) r

theorem compare_pathless (f : Builtin) (a b : Value) : Pathless (compare f a b) := by
  unfold compare
  split
  · exact .ok _
  · exact .error fun h => h rfl

theorem equalsAny_pathless (first : Value) (others : List Value) :
    Pathless (equalsAny first others) := by
  induction others with
  | nil => exact .ok false
  | cons other rest ih =>
    refine (compare_pathless .eq first other).bind fun same _ => ?_
    split
    · exact .ok true
    · exact ih

theorem apply_pathless (f : Builtin) (args : List Value) : Pathless (f.apply args) := by
  unfold apply
  split
  · exact .ok _
  · exact .ok _
  · exact .ok _
  · exact (equalsAny_pathless _ _).map _
  · exact (compare_pathless .ne _ _).map _
  · split
    · exact .ok _
    · exact .error fun h => h rfl
  · exact .ok _
  · exact .ok _
  · exact .ok _
  · exact .ok _
  · exact .error fun h => h rfl

end Builtin

/-! ## Pipelines -/

theorem Scope.walk_bare (missingKey : MissingKey) (path : Path) (v : Value)
    (steps : List Accessor) :
    walk missingKey path.bare v steps = Bare (walk missingKey path v steps) := by
  induction steps generalizing v with
  | nil => rfl
  | cons step rest ih =>
    unfold walk
    split
    · exact ih _
    · next miss _ =>
      split
      · rfl
      · cases miss <;> rfl

theorem Operand.eval_bare (s : Scope) (o : Operand) : o.bare.eval s = Bare (o.eval s) := by
  cases o with
  | path p => exact Scope.walk_bare _ p _ _
  | literal l => rfl

theorem Operand.evalDeciding_bare (s : Scope) (stop : Bool) (piped : Option Value) (last : Value)
    (args : List Operand) :
    evalDeciding s stop piped last (args.map Operand.bare) =
      Bare (evalDeciding s stop piped last args) := by
  induction args generalizing last with
  | nil => rfl
  | cons o rest ih =>
    rw [List.map_cons, evalDeciding, evalDeciding, bare_bind, Operand.eval_bare]
    congr
    funext v
    split
    · rfl
    · exact ih v

theorem Operand.mapM_eval_bare (s : Scope) (args : List Operand) :
    (args.map Operand.bare).mapM (Operand.eval s) = Bare (args.mapM (Operand.eval s)) := by
  induction args with
  | nil => rfl
  | cons o rest ih =>
    rw [List.map_cons, List.mapM_cons, List.mapM_cons, bare_bind, Operand.eval_bare]
    congr
    funext v
    rw [bare_bind, ih]
    rfl

theorem Command.evalCall_bare (s : Scope) (f : Builtin) (args : List Operand) (here : Location)
    (piped : Option Value) :
    evalCall s f (args.map Operand.bare) .outside piped = Bare (evalCall s f args here piped) := by
  -- the two functions that stop at the first deciding argument are computed in their own way
  by_cases deciding : f = .and ∨ f = .or
  · rcases deciding with rfl | rfl <;> exact Operand.evalDeciding_bare s _ piped .null args
  · rw [not_or] at deciding
    rw [evalCall, evalCall, bare_bind, Operand.mapM_eval_bare]
    · congr
      funext values
      have pathless := Builtin.apply_pathless f (values ++ piped.toList)
      cases h : f.apply (values ++ piped.toList) with
      | ok v => rfl
      | error fault =>
        have same : fault.bare = fault := not_not.mp (pathless fault h)
        change _ = Except.error (Error.execution fault.bare .outside)
        rw [same]
    all_goals
      intro heq
      simp [heq] at deciding

theorem Command.eval_bare (s : Scope) (piped : Option Value) (c : Command) :
    c.bare.eval s piped = Bare (c.eval s piped) := by
  cases c with
  | operand o => exact Operand.eval_bare s o
  | call f args here => exact Command.evalCall_bare s f args here piped

theorem Command.evalAll_bare (s : Scope) (piped : Option Value) (cs : List Command) :
    evalAll s piped (cs.map Command.bare) = Bare (evalAll s piped cs) := by
  induction cs generalizing piped with
  | nil => rfl
  | cons c rest ih =>
    rw [List.map_cons, evalAll, evalAll, bare_bind, Command.eval_bare]
    congr
    funext v
    exact ih (some v)

/-- A pipeline without locations has the value of the pipeline, or its error without locations. -/
theorem Pipeline.eval_bare (s : Scope) (p : Pipeline) : p.bare.eval s = Bare (p.eval s) := by
  unfold Pipeline.eval
  rw [Pipeline.bare, Command.evalAll_bare]
  cases Command.evalAll s none p.commands <;> rfl

end Stencil
