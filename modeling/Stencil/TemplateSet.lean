import Stencil.Template.Parser
import Stencil.Program.Analysis
import Stencil.Render.Basic
import Stencil.Value.Json

/-!
# Sets of templates

Templates under their names, from one or more sources, with the settings they are compiled with. A
source that defines a name the set already has is refused as a whole, so a set never loses a
template. `TemplateSet.compile` gives the program of an entry.
-/

set_option autoImplicit false

namespace Stencil

/-- Named templates and the settings for them. -/
structure TemplateSet where
  config : Config
  /-- The templates in ascending order of their names. -/
  templates : List (String × Template)

namespace TemplateSet

/-- A set without templates. -/
def empty (config : Config) : TemplateSet := ⟨config, []⟩

/-- The template with a name. -/
def get? (set : TemplateSet) (name : String) : Option Template :=
  Record.get? set.templates name

/-- Whether a template with a name is in the set. -/
def contains (set : TemplateSet) (name : String) : Bool :=
  (set.get? name).isSome

/-- The set with a template under its own name. -/
def insert (set : TemplateSet) (t : Template) : TemplateSet :=
  { set with templates := Record.insert t.name t set.templates }

/-- The set with the templates of a parsed source; the first name that the set already has is
refused. -/
def addSource (set : TemplateSet) (source : Source) : Except SourceError TemplateSet :=
  let added := source.defines ++ [source.main]
  match added.find? fun t => set.contains t.name with
  | some t => structural (.redefined t.name) t.location
  | none => .ok (added.foldl insert set)

/-- The set with the templates of a source text, the main one with a name. -/
def add (set : TemplateSet) (name text : String) : Except Error TemplateSet :=
  match (do set.addSource (← Source.parse name text) : Except SourceError TemplateSet) with
  | .ok set => .ok set
  | .error e => .error (.source e)

/-- The program of the template with a name. -/
def compile (set : TemplateSet) (entry : String) : Except Error Program :=
  if set.contains entry then Program.compile set.templates entry set.config
  else .error (.undefined entry .outside)

end TemplateSet

/-- The program of a single source text. -/
def compile (name text : String) (config : Config) : Except Error Program := do
  let set ← (TemplateSet.empty config).add name text
  set.compile name

/-- The output of a single source text for JSON data, under the standard settings. -/
def render (text : String) (data : Json) : Except Error String := do
  let program ← compile "main" text .standard
  program.render (.ofJson data)

end Stencil
