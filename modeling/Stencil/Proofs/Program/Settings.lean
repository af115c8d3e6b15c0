import Stencil.Proofs.Program.Structure

/-!
# Settings that compiling does not look at

Of the settings only the one for escaping decides what a set compiles to: the others are handed on
to the program, which reads them when it runs (`TemplateSet.compile_withConfig`).
-/

set_option autoImplicit false

namespace Stencil

/-- A program under other settings. -/
def Program.withConfig (p : Program) (config : Config) : Program := { p with config }

/-- A set of templates under other settings. -/
def TemplateSet.withConfig (set : TemplateSet) (config : Config) : TemplateSet :=
  { set with config }

@[simp] theorem Program.variants_withConfig (p : Program) (config : Config) :
    (p.withConfig config).variants = p.variants := rfl

@[simp] theorem Program.entry_withConfig (p : Program) (config : Config) :
    (p.withConfig config).entry = p.entry := rfl

@[simp] theorem Program.name_withConfig (p : Program) (config : Config) :
    (p.withConfig config).name = p.name := rfl

@[simp] theorem Program.config_withConfig (p : Program) (config : Config) :
    (p.withConfig config).config = config := rfl

theorem Program.checked_withConfig (p : Program) (config : Config) :
    (p.withConfig config).checked = p.checked.map (·.withConfig config) := by
  unfold checked
  rw [variants_withConfig]
  dsimp only [bind, Except.bind]
  cases p.variants.forM fun v => v.check p.variants.length <;> rfl

theorem Program.unchecked_withConfig (templates : List (String × Template)) (entry : String)
    {config config' : Config} (same : config'.autoescape = config.autoescape) :
    unchecked templates entry config' =
      (unchecked templates entry config).map (·.withConfig config') := by
  have policy : config'.policy = config.policy := by
    unfold Config.policy
    rw [same]
  unfold unchecked
  rw [policy]
  cases (Analysis.enter config.policy templates (Analysis.room templates) entry .start
    .outside).run [] <;> rfl

/-- Settings that agree on escaping give the same variants, or the same error. -/
theorem TemplateSet.compile_withConfig (set : TemplateSet) (entry : String) (config : Config)
    (same : config.autoescape = set.config.autoescape) :
    (set.withConfig config).compile entry = (set.compile entry).map (·.withConfig config) := by
  unfold compile
  change (if set.contains entry then Program.compile set.templates entry config else _) = _
  split
  · rw [Program.compile_eq, Program.compile_eq, Program.unchecked_withConfig _ _ same]
    cases Program.unchecked set.templates entry set.config with
    | error e => rfl
    | ok p => exact p.checked_withConfig config
  · rfl

end Stencil
