import Stencil.Proofs.Results
import Stencil.Render.Basic

/-!
# Errors of pipelines

A pipeline makes errors of two kinds only: a path that leads nowhere, and a function that refuses
its arguments. So it makes no error of a sort that has neither (`Pipeline.eval_avoids`). The limit
on embedded templates is one of these: no pipeline, and no loop over its value, ends in it.
-/

set_option autoImplicit false

namespace Stencil

/-- A sort of errors that has none of a pipeline's: neither of paths nor of functions. -/
structure Error.OutsidePipelines (bad : Error → Prop) : Prop where
  path : ∀ miss step (path : Path) here, ¬ bad (.execution (.ofMiss miss step path) here)
  call : ∀ (f : Builtin) args fault here, f.apply args = .error fault →
    ¬ bad (.execution fault here)

namespace Error.OutsidePipelines

variable {bad : Error → Prop} (h : Error.OutsidePipelines bad)
include h

theorem walk (missingKey : MissingKey) (path : Path) (v : Value) (steps : List Accessor) :
    Avoids bad (Scope.walk missingKey path v steps) := by
  induction steps generalizing v with
  | nil => exact .ok v
  | cons step rest ih =>
    unfold Scope.walk
    split
    · exact ih _
    · split
      · exact .ok _
      · exact .error (h.path _ step path path.location)

theorem operand (s : Scope) (o : Operand) : Avoids bad (o.eval s) := by
  cases o with
  | path p => exact h.walk _ p _ p.accessors
  | literal l => exact .ok _

theorem deciding (s : Scope) (stop : Bool) (piped : Option Value) (last : Value)
    (args : List Operand) : Avoids bad (Operand.evalDeciding s stop piped last args) := by
  induction args generalizing last with
  | nil => exact .ok _
  | cons o rest ih =>
    refine (h.operand s o).bind fun v _ => ?_
    split
    · exact .ok v
    · exact ih v

theorem command (s : Scope) (piped : Option Value) (c : Command) : Avoids bad (c.eval s piped) := by
  cases c with
  | operand o => exact h.operand s o
  | call f args here =>
    unfold Command.eval Command.evalCall
    dsimp only
    split
    · exact h.deciding s _ piped .null args
    · exact h.deciding s _ piped .null args
    · refine (Avoids.mapM (h.operand s) args).bind fun values _ => ?_
      split
      · exact .ok _
      · next fault hfault => exact .error (h.call f _ fault here hfault)

theorem commands (s : Scope) (piped : Option Value) (cs : List Command) :
    Avoids bad (Command.evalAll s piped cs) := by
  induction cs generalizing piped with
  | nil => exact .ok piped
  | cons c rest ih => exact (h.command s piped c).bind fun v _ => ih (some v)

end Error.OutsidePipelines

/-- No pipeline ends in an error of a sort that is not of pipelines. -/
theorem Pipeline.eval_avoids {bad : Error → Prop} (h : Error.OutsidePipelines bad) (s : Scope)
    (p : Pipeline) : Avoids bad (p.eval s) :=
  (h.commands s none p.commands).map _

theorem Render.data_avoids {bad : Error → Prop} (h : Error.OutsidePipelines bad) (s : Scope)
    (data : Option Pipeline) : Avoids bad (Render.data s data) := by
  cases data with
  | none => exact .ok _
  | some p => exact p.eval_avoids h s

/-! ## The limit on embedded templates -/

/-- Templates embed one another too deeply. -/
def Error.IsTooDeep : Error → Prop
  | .execution f _ => f.kind = .includeDepthExceeded
  | _ => False

instance : DecidablePred Error.IsTooDeep
  | .execution f _ => inferInstanceAs (Decidable (f.kind = .includeDepthExceeded))
  | .source _ | .ambiguous .. | .undefined .. | .data | .sink _ => .isFalse id

namespace Builtin

theorem compare_kind (f : Builtin) (a b : Value) :
    Avoids (ExecutionFault.kind · = .includeDepthExceeded) (compare f a b) := by
  unfold compare
  split
  · exact .ok _
  · exact .error nofun

theorem equalsAny_kind (first : Value) (others : List Value) :
    Avoids (ExecutionFault.kind · = .includeDepthExceeded) (equalsAny first others) := by
  induction others with
  | nil => exact .ok false
  | cons other rest ih =>
    refine (compare_kind .eq first other).bind fun same _ => ?_
    split
    · exact .ok true
    · exact ih

/-- No function refuses its arguments because templates are embedded too deeply. -/
theorem apply_kind (f : Builtin) (args : List Value) :
    Avoids (ExecutionFault.kind · = .includeDepthExceeded) (f.apply args) := by
  unfold apply
  split
  case h_4 first second rest => exact (equalsAny_kind first (second :: rest)).map _
  case h_5 a b => exact (compare_kind .ne a b).map _
  case h_6 v =>
    split
    · exact .ok _
    · exact .error nofun
  case h_11 => exact .error nofun
  all_goals exact .ok _

end Builtin

theorem Error.IsTooDeep.outsidePipelines : Error.OutsidePipelines Error.IsTooDeep where
  path miss step path here := by cases miss <;> exact nofun
  call f args fault _ hfault := f.apply_kind args fault hfault

theorem Render.items_shallow (s : Scope) (p : Pipeline) (here : Location) :
    Avoids Error.IsTooDeep (Render.items s p here) := by
  refine (p.eval_avoids Error.IsTooDeep.outsidePipelines s).bind fun v _ => ?_
  split
  · exact .ok _
  · exact .error nofun

end Stencil
