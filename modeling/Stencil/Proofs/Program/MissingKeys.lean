import Stencil.Proofs.Program.Settings
import Stencil.Proofs.Render.UpTo

/-!
# The setting for missing names

What a path stands for when the data lacks one of its names is decided when the path is followed,
and nowhere before: a set compiles to the same variants under either setting. In a run it does not
show before the first missing name (`TemplateSet.missingKey_upTo`): a strict run that meets none is
the lenient run, with its output and its end, and one that meets a missing name stops in the middle
of what the lenient run writes.

Behind the first missing name nothing is claimed: the lenient run goes on with null in its place,
takes other branches and may end in an error of another kind.
-/

set_option autoImplicit false

namespace Stencil

/-- An error of a name that the data lacks. -/
def Error.IsMissingKey : Error → Prop
  | .execution f _ => f.kind = .fieldNotFound
  | _ => False

instance : DecidablePred Error.IsMissingKey := fun e =>
  match e with
  | .execution f _ => inferInstanceAs (Decidable (f.kind = .fieldNotFound))
  | .source _ | .ambiguous _ _ | .undefined _ _ | .data | .sink _ => .isFalse id

/-! ## Scopes -/

/-- The same scope under the lenient setting. -/
def Scope.Loosened (s s' : Scope) : Prop :=
  s.missingKey = .refuse ∧ s' = { s with missingKey := .empty }

theorem Scope.walk_loosened (path : Path) (v : Value) (steps : List Accessor) :
    UpTo Error.IsMissingKey (walk .refuse path v steps) (walk .empty path v steps) := by
  induction steps generalizing v with
  | nil => exact .refl _
  | cons step rest ih =>
    rw [walk, walk]
    split
    · exact ih _
    · next miss _ =>
      by_cases h : miss = .missingKey
      · subst h
        exact .of_error (by trivial) _
      · rw [if_neg fun c => h c.1, if_neg fun c => h c.1]
        exact .refl _

section

variable {s s' : Scope} (h : s.Loosened s')

include h

theorem Operand.eval_loosened (o : Operand) :
    UpTo Error.IsMissingKey (o.eval s) (o.eval s') := by
  obtain ⟨hstrict, rfl⟩ := h
  cases o with
  | path p =>
    unfold Operand.eval Scope.resolve
    rw [hstrict]
    exact Scope.walk_loosened p _ _
  | literal l => exact .refl _

theorem Operand.evalDeciding_loosened (stop : Bool) (piped : Option Value) (last : Value)
    (os : List Operand) : UpTo Error.IsMissingKey (evalDeciding s stop piped last os)
      (evalDeciding s' stop piped last os) := by
  induction os generalizing last with
  | nil => exact .refl _
  | cons o rest ih =>
    rw [evalDeciding, evalDeciding]
    refine (o.eval_loosened h).bind fun v => ?_
    split
    · exact .refl _
    · exact ih v

theorem Command.evalCall_loosened (f : Builtin) (args : List Operand) (here : Location)
    (piped : Option Value) :
    UpTo Error.IsMissingKey (evalCall s f args here piped) (evalCall s' f args here piped) := by
  unfold evalCall
  split
  · exact Operand.evalDeciding_loosened h false piped .null args
  · exact Operand.evalDeciding_loosened h true piped .null args
  · exact (UpTo.mapM (Operand.eval_loosened h) args).bind fun _ => .refl _

theorem Command.evalAll_loosened (piped : Option Value) (cs : List Command) :
    UpTo Error.IsMissingKey (evalAll s piped cs) (evalAll s' piped cs) := by
  induction cs generalizing piped with
  | nil => exact .refl _
  | cons c rest ih =>
    have first : UpTo Error.IsMissingKey (c.eval s piped) (c.eval s' piped) := by
      cases c with
      | operand o => exact o.eval_loosened h
      | call f args here => exact Command.evalCall_loosened h f args here piped
    rw [evalAll, evalAll]
    exact first.bind fun v => ih (some v)

theorem Pipeline.eval_loosened (p : Pipeline) :
    UpTo Error.IsMissingKey (p.eval s) (p.eval s') :=
  (Command.evalAll_loosened h none p.commands).map _

end

theorem Render.scopesUpTo_loosened : ScopesUpTo Error.IsMissingKey Scope.Loosened where
  eval h p := p.eval_loosened h
  push h v := ⟨h.1, by rw [h.2]; rfl⟩

/-! ## Programs -/

/-- The same settings, but for missing names. -/
def Config.withMissingKey (config : Config) (m : MissingKey) : Config :=
  { config with missingKey := m }

section

variable {p : Program} {config : Config} (strict : p.config.missingKey = .refuse)
  (lenient : config = p.config.withMissingKey .empty)

include strict lenient

/-- Embedded templates run as under the lenient setting up to a missing name, down to any depth. -/
theorem Program.embed_loosened (more : Nat) :
    Render.EmbedUpTo Error.IsMissingKey Scope.Loosened (Render.embed p more)
      (Render.embed (p.withConfig config) more) := by
  induction more with
  | zero =>
    intro s s' target name data here h
    rw [Render.embed, Render.embed, lenient]
    exact .refl _
  | succ more ih =>
    intro s s' target name data here h
    rw [Render.embed, Render.embed, variants_withConfig]
    cases p.variants[target]? with
    | none => exact .refl _
    | some v =>
      have hdata := Render.data_upTo Render.scopesUpTo_loosened h data
      have started (root : Value) : (Scope.start root p.config.missingKey).Loosened
          (.start root config.missingKey) := ⟨strict, by rw [lenient]; rfl⟩
      refine (Run.UpTo.refl _).bind fun _ => (Run.UpTo.ofExcept hdata).bind fun root => ?_
      exact (Render.trees_upTo Render.scopesUpTo_loosened ih (started root) v.body).bind
        fun _ => .refl _

/-- A run is the same as under the lenient setting up to a missing name. -/
theorem Program.run_loosened (root : Value) :
    (p.run root).UpTo Error.IsMissingKey ((p.withConfig config).run root) := by
  have depth : config.maxDepth = p.config.maxDepth := by rw [lenient]; rfl
  have started : (Scope.start root p.config.missingKey).Loosened
      (.start root config.missingKey) := ⟨strict, by rw [lenient]; rfl⟩
  unfold Program.run
  rw [variants_withConfig, entry_withConfig, name_withConfig]
  cases p.variants[p.entry]? with
  | none => exact .refl _
  | some v =>
    rw [config_withConfig, depth]
    exact Render.trees_upTo Render.scopesUpTo_loosened (p.embed_loosened strict lenient _) started
      v.body

end

/-- The same templates under another setting for missing names. -/
def TemplateSet.withMissingKey (set : TemplateSet) (m : MissingKey) : TemplateSet :=
  set.withConfig (set.config.withMissingKey m)

/-- The same program under another setting for missing names. -/
def Program.withMissingKey (p : Program) (m : MissingKey) : Program :=
  p.withConfig (p.config.withMissingKey m)

theorem TemplateSet.compile_withMissingKey (set : TemplateSet) (entry : String) (m : MissingKey) :
    (set.withMissingKey m).compile entry =
      (set.compile entry).map (·.withConfig (set.config.withMissingKey m)) :=
  compile_withConfig set entry (set.config.withMissingKey m) rfl

/-- Under either setting for missing names a set compiles to the same program or ends in the same
error. A strict run that ends in no missing name is the lenient run, whether it ends well or in an
error; one that does stops in the middle of what the lenient run writes. -/
theorem TemplateSet.missingKey_upTo (set : TemplateSet) (entry : String) :
    (set.withMissingKey .empty).compile entry =
        ((set.withMissingKey .refuse).compile entry).map (·.withMissingKey .empty) ∧
      ∀ p, (set.withMissingKey .refuse).compile entry = .ok p → ∀ root,
        ((p.run root).outcome = .ok () →
          ((p.withMissingKey .empty).run root).outcome = .ok () ∧
            ((p.withMissingKey .empty).run root).written = (p.run root).written) ∧
        ∀ e, (p.run root).outcome = .error e →
          (¬ e.IsMissingKey → ((p.withMissingKey .empty).run root).outcome = .error e ∧
            ((p.withMissingKey .empty).run root).written = (p.run root).written) ∧
          (e.IsMissingKey → ∃ more,
            ((p.withMissingKey .empty).run root).written = (p.run root).written ++ more) := by
  rw [compile_withMissingKey, compile_withMissingKey]
  cases set.compile entry with
  | error e => exact ⟨rfl, nofun⟩
  | ok q =>
    refine ⟨rfl, ?_⟩
    rintro p ⟨⟩ root
    have upTo := Program.run_loosened (p := q.withConfig (set.config.withMissingKey .refuse)) rfl
      rfl root
    refine ⟨fun ok => ?_, fun e error => ⟨fun other => ?_, fun _ => upTo.exists_written⟩⟩
    · have same := upTo.same (ok ▸ .ok ())
      rw [Program.withMissingKey, same]
      exact ⟨ok, rfl⟩
    · have same := upTo.same (error ▸ .error other)
      rw [Program.withMissingKey, same]
      exact ⟨error, rfl⟩

/-- A letter to someone without a name: the strict run stops in front of the name. -/
theorem TemplateSet.missingKey_upTo_letter :
    ∃ set p e more, (TemplateSet.empty .standard).add "main" "Dear \x7b\x7b.Name\x7d\x7d, hello" =
        .ok set ∧ (set.withMissingKey .refuse).compile "main" = .ok p ∧
      (p.run (.object .nil)).outcome = .error e ∧ e.IsMissingKey ∧
        ((p.withMissingKey .empty).run (.object .nil)).written =
          (p.run (.object .nil)).written ++ more := by
  have stops : (((TemplateSet.empty .standard).add "main"
      "Dear \x7b\x7b.Name\x7d\x7d, hello").bind fun set =>
        (set.withMissingKey .refuse).compile "main").toOption.any (fun p =>
          decide (¬ Avoids Error.IsMissingKey (p.run (.object .nil)).outcome)) = true := by
    decide +kernel
  cases hset : (TemplateSet.empty .standard).add "main" "Dear \x7b\x7b.Name\x7d\x7d, hello" with
  | error e =>
    rw [hset] at stops
    cases stops
  | ok set =>
    rw [hset, Except.bind] at stops
    cases hp : (set.withMissingKey .refuse).compile "main" with
    | error e =>
      rw [hp] at stops
      cases stops
    | ok p =>
      rw [hp] at stops
      obtain ⟨e, he, missing⟩ := exists_of_not_avoids (of_decide_eq_true stops)
      have under := ((set.missingKey_upTo "main").2 p hp (.object .nil)).2 e he
      obtain ⟨more, hmore⟩ := under.2 missing
      exact ⟨set, p, e, more, rfl, hp, he, missing, hmore⟩

end Stencil
