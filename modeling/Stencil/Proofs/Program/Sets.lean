import Stencil.TemplateSet
import Stencil.Proofs.Template.Counts

/-!
# Sets built from sources

The sets that a caller can come by are those built from the empty one by adding sources
(`TemplateSet.Reachable`). Every template of such a set is one of a parsed source, under its own
name; so what holds of all templates of parsed sources holds of all templates of the set
(`Reachable.get?_of`). In particular their pipelines are well formed (`Reachable.wellFormed`).
-/

set_option autoImplicit false

namespace Stencil.TemplateSet

/-- The sets that are built by adding sources. -/
inductive Reachable : TemplateSet → Prop where
  | empty (config : Config) : Reachable (.empty config)
  | add {set set' : TemplateSet} {name text : String} :
      Reachable set → set.add name text = .ok set' → Reachable set'

/-- A source that is added has been parsed, and its templates are put into the set. -/
theorem exists_of_add_eq_ok {set set' : TemplateSet} {name text : String}
    (h : set.add name text = .ok set') : ∃ source, Source.parse name text = .ok source ∧
      set' = (source.defines ++ [source.main]).foldl insert set := by
  unfold add at h
  split at h
  · next added hadd =>
    cases h
    obtain ⟨source, hparse, hsource⟩ := exists_of_bind_eq_ok hadd
    refine ⟨source, hparse, ?_⟩
    unfold addSource at hsource
    dsimp only at hsource
    split at hsource
    · cases hsource
    · cases hsource
      rfl
  · cases h

theorem config_foldl_insert (ts : List Template) (set : TemplateSet) :
    (ts.foldl insert set).config = set.config := by
  induction ts generalizing set with
  | nil => rfl
  | cons t rest ih => exact ih (set.insert t)

/-- Sources do not change the settings. -/
theorem config_of_add_eq_ok {set set' : TemplateSet} {name text : String}
    (h : set.add name text = .ok set') : set'.config = set.config := by
  obtain ⟨source, -, rfl⟩ := exists_of_add_eq_ok h
  exact config_foldl_insert _ set

theorem get?_insert (set : TemplateSet) (t : Template) (name : String) :
    (set.insert t).get? name = if name = t.name then some t else set.get? name :=
  Record.get?_insert set.templates t.name name t

/-- What a set has under a name after some insertions was inserted under that name or there
before. -/
theorem get?_foldl_insert {ts : List Template} {set : TemplateSet} {name : String} {t : Template}
    (h : (ts.foldl insert set).get? name = some t) :
    t ∈ ts ∧ t.name = name ∨ set.get? name = some t := by
  induction ts generalizing set with
  | nil => exact .inr h
  | cons u rest ih =>
    rcases ih h with ⟨hmem, hname⟩ | hget
    · exact .inl ⟨List.mem_cons_of_mem u hmem, hname⟩
    · rw [get?_insert] at hget
      split at hget
      · next same =>
        cases hget
        exact .inl ⟨List.mem_cons_self, same.symm⟩
      · exact .inr hget

/-- A property of all templates of parsed sources. -/
def OfSources (Q : Template → Prop) : Prop :=
  ∀ name text source, Source.parse name text = .ok source →
    ∀ t ∈ source.defines ++ [source.main], Q t

/-- A template of a set that is built from sources has the name that it is found under, and what
holds of all templates of sources. -/
theorem Reachable.get?_of {Q : Template → Prop} (hQ : OfSources Q) {set : TemplateSet}
    (h : set.Reachable) {name : String} {t : Template} (hget : set.get? name = some t) :
    t.name = name ∧ Q t := by
  induction h with
  | empty config => cases hget
  | @add set set' main text hset hadd ih =>
    obtain ⟨source, hparse, rfl⟩ := exists_of_add_eq_ok hadd
    rcases get?_foldl_insert hget with ⟨hmem, hname⟩ | hold
    · exact ⟨hname, hQ main text source hparse t hmem⟩
    · exact ih hold

/-- All pipelines of parsed templates are well formed. -/
def WellFormed (set : TemplateSet) : Prop :=
  ∀ name t, set.get? name = some t → ∀ p ∈ piecePipelines t.body, p.WellFormed

theorem Reachable.wellFormed {set : TemplateSet} (h : set.Reachable) : set.WellFormed := by
  have parsed : OfSources fun t => ∀ p ∈ piecePipelines t.body, p.WellFormed := by
    intro main text source hparse
    obtain ⟨hmain, hdefines⟩ := Source.parse_all Pipeline.ofTokens_wellFormed hparse
    exact List.forall_mem_append.mpr ⟨hdefines, List.forall_mem_singleton.mpr hmain⟩
  exact fun name t hget => (h.get?_of parsed hget).2

end Stencil.TemplateSet

namespace Stencil

/-- A page that embeds a template of its own, whose output ends in an escaper. -/
def memberPage : String :=
  let action (body : String) := "\x7b\x7b" ++ body ++ "\x7d\x7d"
  action "define \"row\"" ++ action ". | html" ++ action "end" ++
    "<b>" ++ action "template \"row\" .Name" ++ "</b>"

theorem memberPage_compiles :
    ∃ set p, (TemplateSet.empty .standard).add "main" memberPage = .ok set ∧
      set.compile "main" = .ok p := by
  have compiles : (((TemplateSet.empty .standard).add "main" memberPage).bind
      (·.compile "main")).isOk = true := by decide +kernel
  cases hset : (TemplateSet.empty .standard).add "main" memberPage with
  | error e =>
    rw [hset] at compiles
    cases compiles
  | ok set =>
    rw [hset, Except.bind] at compiles
    cases hp : set.compile "main" with
    | error e =>
      rw [hp] at compiles
      cases compiles
    | ok p => exact ⟨set, p, rfl, hp⟩

end Stencil
