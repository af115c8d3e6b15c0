import Stencil.Render.Eval

/-!
# The value piped into a call

A value that is piped into a call is its last argument: the call gives what it would give if the
operand of that value were written behind its arguments (`Command.evalCall_piped`). Operands are
computed from left to right in both forms, so where one of the arguments fails, both fail with its
error.

The calls of `and` and `or` stop at the first argument that decides them. What is written behind it
is not computed (`Operand.evalDeciding_decided`), whether it would fail or not, and a value that is
piped in stands behind all of it.
-/

set_option autoImplicit false

namespace Stencil

/-- The truth value that decides a chain of conditions, for the functions that are one. -/
def Builtin.decidedBy? : Builtin → Option Bool
  | .and => some false
  | .or => some true
  | _ => none

namespace Operand

variable {s : Scope}

/-- A value piped into a chain of conditions is its last one. -/
theorem evalDeciding_piped {x : Operand} {v : Value} (hx : x.eval s = .ok v) (stop : Bool)
    (last : Value) (args : List Operand) :
    evalDeciding s stop (some v) last args = evalDeciding s stop none last (args ++ [x]) := by
  induction args generalizing last with
  | nil =>
    -- the last condition is the result, whether it decides the chain or not
    rw [List.nil_append, evalDeciding, evalDeciding, hx]
    cases hv : v.isTruthy == stop <;> simp [bind, Except.bind, hv, evalDeciding, pure, Except.pure]
  | cons o rest ih =>
    rw [List.cons_append, evalDeciding, evalDeciding]
    cases o.eval s with
    | error e => rfl
    | ok w =>
      change (if w.isTruthy == stop then pure w else evalDeciding s stop (some v) w rest) =
        if w.isTruthy == stop then pure w else evalDeciding s stop none w (rest ++ [x])
      rw [ih w]

/-- A chain of conditions gives the first one that decides it, whatever stands behind. -/
theorem evalDeciding_decided {stop : Bool} {before : List Operand} {o : Operand} {w : Value}
    (hbefore : ∀ b ∈ before, ∃ u, b.eval s = .ok u ∧ u.isTruthy ≠ stop) (ho : o.eval s = .ok w)
    (hw : w.isTruthy = stop) (piped : Option Value) (last : Value) (after : List Operand) :
    evalDeciding s stop piped last (before ++ o :: after) = .ok w := by
  induction before generalizing last with
  | nil =>
    rw [List.nil_append, evalDeciding, ho]
    exact if_pos (beq_iff_eq.mpr hw)
  | cons b before ih =>
    obtain ⟨⟨u, hu, undecided⟩, hrest⟩ := List.forall_mem_cons.mp hbefore
    rw [List.cons_append, evalDeciding, hu]
    change (if u.isTruthy == stop then pure u else _) = _
    rw [if_neg (by simpa using undecided)]
    exact ih hrest u

end Operand

namespace Command

variable {s : Scope}

/-- A value piped into a call is its last argument. -/
theorem evalCall_piped {x : Operand} {v : Value} (hx : x.eval s = .ok v) (f : Builtin)
    (args : List Operand) (here : Location) :
    evalCall s f args here (some v) = evalCall s f (args ++ [x]) here none := by
  cases f with
  | and => exact Operand.evalDeciding_piped hx false .null args
  | or => exact Operand.evalDeciding_piped hx true .null args
  | _ =>
    have written : (args ++ [x]).mapM (Operand.eval s) =
        args.mapM (Operand.eval s) >>= fun values => .ok (values ++ [v]) := by
      rw [List.mapM_append, List.mapM_cons, List.mapM_nil, hx]
      rfl
    unfold evalCall
    rw [written]
    cases args.mapM (Operand.eval s) with
    | error e => rfl
    | ok values => simp [bind, Except.bind]

theorem evalCall_decided {f : Builtin} {stop : Bool} (hf : f.decidedBy? = some stop)
    {before : List Operand} {o : Operand} {w : Value}
    (hbefore : ∀ b ∈ before, ∃ u, b.eval s = .ok u ∧ u.isTruthy ≠ stop) (ho : o.eval s = .ok w)
    (hw : w.isTruthy = stop) (after : List Operand) (here : Location) (piped : Option Value) :
    evalCall s f (before ++ o :: after) here piped = .ok w := by
  cases f with
  | and | or =>
    cases hf
    exact Operand.evalDeciding_decided hbefore ho hw piped .null after
  | _ => cases hf

end Command

namespace Pipeline

/-- A pipeline of one command has its value. -/
theorem eval_single (s : Scope) (c : Command) (start : Location) :
    Pipeline.eval s ⟨[c], start⟩ = c.eval s none := by
  change ((c.eval s none >>= fun v => .ok (some v)).map _ : Except Error Value) = _
  cases c.eval s none <;> rfl

/-- A pipeline of a bare value and one more command has the value of that command, with the first
one piped in. -/
theorem eval_pair {s : Scope} {x : Operand} {v : Value} (hx : x.eval s = .ok v) (c : Command)
    (start : Location) : Pipeline.eval s ⟨[.operand x, c], start⟩ = c.eval s (some v) := by
  change ((x.eval s >>= fun u => c.eval s (some u) >>= fun v => .ok (some v)).map _ :
    Except Error Value) = _
  rw [hx]
  change ((c.eval s (some v) >>= fun v => .ok (some v)).map _ : Except Error Value) = _
  cases c.eval s (some v) <;> rfl

/-- **Piping is passing the last argument.** An operand that has a value, piped into a call, gives
what the call gives with the operand behind its arguments: the same value, or the same error. Where
the function is a chain of conditions, both give the first argument that decides it, whatever is
written behind that one. -/
theorem eval_piped {s : Scope} {x : Operand} {v : Value} (hx : x.eval s = .ok v) (f : Builtin)
    (args : List Operand) (here start : Location) :
    Pipeline.eval s ⟨[.operand x, .call f args here], start⟩ =
        Pipeline.eval s ⟨[.call f (args ++ [x]) here], start⟩ ∧
      ∀ stop, f.decidedBy? = some stop → ∀ before o w,
        (∀ b ∈ before, ∃ u, b.eval s = .ok u ∧ u.isTruthy ≠ stop) →
        o.eval s = .ok w → w.isTruthy = stop → ∀ after,
          Pipeline.eval s ⟨[.operand x, .call f (before ++ o :: after) here], start⟩ = .ok w ∧
            Pipeline.eval s ⟨[.call f (before ++ o :: after) here], start⟩ = .ok w := by
  refine ⟨?_, fun stop hf before o w hbefore ho hw after => ?_⟩
  · rw [eval_pair hx, eval_single]
    exact Command.evalCall_piped hx f args here
  · rw [eval_pair hx, eval_single]
    have decided := Command.evalCall_decided hf hbefore ho hw after here
    exact ⟨decided (some v), decided none⟩

/-- A member without a name: it has a number, and nothing is found under `name`. -/
def namelessScope : Scope := .start (.object (.ofPairs [("number", .integer 7)])) .refuse

/-- The step to a field of the current value. -/
def fieldOperand (name : String) : Operand := .path ⟨.dot, [.field name], .outside⟩

/-- An `or` that is decided by its second argument. The third one fails, and the number of the
member is piped in behind it. -/
theorem eval_piped_namelessScope : ∃ e, (fieldOperand "name").eval namelessScope = .error e ∧
    Pipeline.eval namelessScope ⟨[.operand (fieldOperand "number"),
        .call .or [.literal (.bool false), .literal (.string "guest"), fieldOperand "name"]
          .outside], .outside⟩ =
      Pipeline.eval namelessScope ⟨[.call .or ([.literal (.bool false), .literal (.string "guest"),
        fieldOperand "name"] ++ [fieldOperand "number"]) .outside], .outside⟩ ∧
    Pipeline.eval namelessScope ⟨[.operand (fieldOperand "number"),
        .call .or [.literal (.bool false), .literal (.string "guest"), fieldOperand "name"]
          .outside], .outside⟩ = .ok (.string "guest") := by
  have number : (fieldOperand "number").eval namelessScope = .ok (.integer 7) := by rfl
  have undecided : ∀ b ∈ [Operand.literal (.bool false)],
      ∃ u, b.eval namelessScope = .ok u ∧ u.isTruthy ≠ true :=
    List.forall_mem_singleton.mpr ⟨.bool false, rfl, Bool.false_ne_true⟩
  obtain ⟨same, decided⟩ := eval_piped number .or
    [.literal (.bool false), .literal (.string "guest"), fieldOperand "name"] .outside .outside
  refine ⟨_, rfl, same, ?_⟩
  exact (decided true rfl _ (.literal (.string "guest")) (.string "guest") undecided rfl rfl
    [fieldOperand "name"]).1

end Pipeline

end Stencil
