import Stencil.Proofs.Program.Sets
import Stencil.Proofs.Template.Names

/-!
# Additions to a set

What an addition does to a set in place (`addInPlace`): the source is parsed, its names are looked
up, and only then its templates are put into the set one by one. So an addition that fails leaves
the set as it was, and one that succeeds puts all templates of the source in and takes none away;
two additions that succeed in one order succeed in the other and give the same set
(`additions_atomic`).

A template of a source can be lost in its own addition only to another of the same name from the
same source, which takes a definition inside another of the same name
(`Source.distinct_unless_nested`).
-/

set_option autoImplicit false

namespace Stencil

/-- The templates of a source, in the order in which they are put into a set. -/
abbrev Source.templates (source : Source) : List Template := source.defines ++ [source.main]

namespace TemplateSet

/-! ## Insertions -/

/-- After some insertions a name has the last template of that name, or what it had before. -/
theorem get?_foldl_insert_eq (ts : List Template) (set : TemplateSet) (name : String) :
    (ts.foldl insert set).get? name =
      (ts.reverse.find? fun t => name = t.name).or (set.get? name) := by
  induction ts generalizing set with
  | nil => rfl
  | cons t rest ih =>
    rw [List.foldl_cons, ih, get?_insert, List.reverse_cons, List.find?_append, Option.or_assoc]
    congr 1
    by_cases h : name = t.name
    · simp [h]
    · simp [h]

/-- Insertions leave what is under other names. -/
theorem get?_foldl_insert_of_not_mem {ts : List Template} {name : String}
    (h : name ∉ ts.map (·.name)) (set : TemplateSet) :
    (ts.foldl insert set).get? name = set.get? name := by
  have none : (ts.reverse.find? fun t => name = t.name) = none := by
    rw [List.find?_eq_none]
    intro t ht
    simp only [decide_eq_true_eq]
    rintro rfl
    exact h (List.mem_map_of_mem (List.mem_reverse.mp ht))
  rw [get?_foldl_insert_eq, none, Option.none_or]

/-- Templates that have names of their own are all kept. -/
theorem get?_foldl_insert_of_nodup {ts : List Template} (h : (ts.map (·.name)).Nodup)
    (set : TemplateSet) {t : Template} (ht : t ∈ ts) :
    (ts.foldl insert set).get? t.name = some t := by
  induction ts generalizing set with
  | nil => cases ht
  | cons u rest ih =>
    rw [List.map_cons, List.nodup_cons] at h
    rw [List.foldl_cons]
    rcases List.mem_cons.mp ht with rfl | hrest
    · rw [get?_foldl_insert_of_not_mem h.1, get?_insert, if_pos rfl]
    · exact ih h.2 _ hrest

theorem contains_foldl_insert (ts : List Template) (set : TemplateSet) (name : String) :
    (ts.foldl insert set).contains name = true ↔
      set.contains name = true ∨ name ∈ ts.map (·.name) := by
  have found : (ts.reverse.find? fun t => name = t.name).isSome = true ↔
      name ∈ ts.map (·.name) := by
    simp only [List.find?_isSome, List.mem_reverse, decide_eq_true_eq, List.mem_map,
      eq_comm (a := name)]
  rw [contains, get?_foldl_insert_eq, Option.isSome_or, Bool.or_eq_true, found, or_comm, contains]

theorem insert_comm {t u : Template} (h : t.name ≠ u.name) (set : TemplateSet) :
    (set.insert t).insert u = (set.insert u).insert t := by
  unfold insert
  rw [Record.insert_comm h.symm]

theorem foldl_insert_insert {t : Template} {us : List Template}
    (h : ∀ u ∈ us, t.name ≠ u.name) (set : TemplateSet) :
    us.foldl insert (set.insert t) = (us.foldl insert set).insert t := by
  induction us generalizing set with
  | nil => rfl
  | cons u us ih =>
    obtain ⟨hu, hus⟩ := List.forall_mem_cons.mp h
    rw [List.foldl_cons, List.foldl_cons, insert_comm hu, ih hus]

/-- Insertions under different names can be made in either order. -/
theorem foldl_insert_comm {ts us : List Template}
    (h : ∀ t ∈ ts, ∀ u ∈ us, t.name ≠ u.name) (set : TemplateSet) :
    us.foldl insert (ts.foldl insert set) = ts.foldl insert (us.foldl insert set) := by
  induction ts generalizing set with
  | nil => rfl
  | cons t ts ih =>
    obtain ⟨ht, hts⟩ := List.forall_mem_cons.mp h
    rw [List.foldl_cons, List.foldl_cons, ih hts, foldl_insert_insert ht]

/-! ## Additions -/

theorem add_of_parse {set : TemplateSet} {name text : String} {source : Source}
    (h : Source.parse name text = .ok source) :
    set.add name text = (set.addSource source).mapError .source := by
  unfold add
  rw [h]
  dsimp only [bind, Except.bind]
  cases set.addSource source <;> rfl

/-- An addition succeeds where the source parses and the set has none of its names. -/
theorem add_eq_ok {set set' : TemplateSet} {name text : String} :
    set.add name text = .ok set' ↔ ∃ source, Source.parse name text = .ok source ∧
      (∀ t ∈ source.templates, set.contains t.name = false) ∧
        set' = source.templates.foldl insert set := by
  constructor
  · intro h
    obtain ⟨source, hparse, rfl⟩ := exists_of_add_eq_ok h
    refine ⟨source, hparse, ?_, rfl⟩
    rw [add_of_parse hparse, addSource] at h
    split at h
    · cases h
    · next hnone =>
      rw [List.find?_eq_none] at hnone
      exact fun t ht => Bool.eq_false_iff.mpr (hnone t ht)
  · rintro ⟨source, hparse, hnew, rfl⟩
    have hnone : (source.templates.find? fun t => set.contains t.name) = none :=
      List.find?_eq_none.mpr fun t ht => Bool.eq_false_iff.mp (hnew t ht)
    rw [add_of_parse hparse, addSource, hnone]
    rfl

/-- An addition fails where the source does not parse or the set has one of its names. -/
theorem add_eq_error {set : TemplateSet} {name text : String} {e : Error}
    (h : set.add name text = .error e) :
    (∃ fault, Source.parse name text = .error fault ∧ e = .source fault) ∨
      ∃ source, Source.parse name text = .ok source ∧ ∃ t ∈ source.templates,
        set.contains t.name = true ∧ e = .source (.structural (.redefined t.name) t.location) := by
  cases hparse : Source.parse name text with
  | error fault =>
    unfold add at h
    rw [hparse] at h
    cases h
    exact .inl ⟨fault, rfl, rfl⟩
  | ok source =>
    refine .inr ⟨source, rfl, ?_⟩
    rw [add_of_parse hparse, addSource] at h
    split at h
    · next t ht =>
      cases h
      have found := List.find?_some ht
      exact ⟨t, List.mem_of_find?_eq_some ht, found, rfl⟩
    · cases h

/-- Additions that succeed one after the other succeed in the other order and give the same set. -/
theorem add_comm {set first both : TemplateSet} {name text name' text' : String}
    (h : set.add name text = .ok first) (h' : first.add name' text' = .ok both) :
    ∃ other, set.add name' text' = .ok other ∧ other.add name text = .ok both := by
  obtain ⟨source, hparse, hnew, rfl⟩ := add_eq_ok.mp h
  obtain ⟨source', hparse', hnew', rfl⟩ := add_eq_ok.mp h'
  have fresh (u : Template) (hu : u ∈ source'.templates) :
      set.contains u.name = false ∧ u.name ∉ source.templates.map (·.name) := by
    have := Bool.eq_false_iff.mp (hnew' u hu)
    rw [ne_eq, contains_foldl_insert, not_or, Bool.not_eq_true] at this
    exact this
  have apart (t : Template) (ht : t ∈ source.templates) (u : Template)
      (hu : u ∈ source'.templates) : t.name ≠ u.name := by
    intro same
    exact (fresh u hu).2 (same ▸ List.mem_map_of_mem ht)
  refine ⟨source'.templates.foldl insert set,
    add_eq_ok.mpr ⟨source', hparse', fun u hu => (fresh u hu).1, rfl⟩,
    add_eq_ok.mpr ⟨source, hparse, fun t ht => ?_, foldl_insert_comm apart set⟩⟩
  rw [Bool.eq_false_iff, ne_eq, contains_foldl_insert, not_or]
  refine ⟨Bool.eq_false_iff.mp (hnew t ht), fun hmem => ?_⟩
  obtain ⟨u, hu, same⟩ := List.mem_map.mp hmem
  exact apart t ht u hu same.symm

/-! ## Additions in place -/

/-- Puts the templates of a parsed source into a set in place. All names are looked up before the
first template is put in. -/
def addSourceInPlace (source : Source) : EStateM Error TemplateSet PUnit := do
  let set ← get
  match source.templates.find? fun t => set.contains t.name with
  | some t => throw (.source (.structural (.redefined t.name) t.location))
  | none => source.templates.forM fun t => modify (·.insert t)

/-- Adds a source text to a set in place. -/
def addInPlace (name text : String) : EStateM Error TemplateSet PUnit :=
  match Source.parse name text with
  | .error e => throw (.source e)
  | .ok source => addSourceInPlace source

theorem run_forM_insert (ts : List Template) (set : TemplateSet) :
    (ts.forM fun t => modify (·.insert t) : EStateM Error TemplateSet PUnit).run set =
      .ok ⟨⟩ (ts.foldl insert set) := by
  induction ts generalizing set with
  | nil => rfl
  | cons t ts ih => exact ih (set.insert t)

theorem run_addSourceInPlace (set : TemplateSet) (source : Source) :
    (addSourceInPlace source).run set =
      match set.addSource source with
      | .ok set' => .ok ⟨⟩ set'
      | .error e => .error (.source e) set := by
  change EStateM.run (match source.templates.find? fun t => set.contains t.name with
    | some t => throw (Error.source (.structural (.redefined t.name) t.location))
    | none => source.templates.forM fun t => modify (·.insert t)) set = _
  unfold addSource
  dsimp only
  cases source.templates.find? fun t => set.contains t.name with
  | some t => rfl
  | none => exact run_forM_insert source.templates set

/-- In place, an addition gives the set that it gives otherwise, or leaves the set as it was. -/
theorem run_addInPlace (set : TemplateSet) (name text : String) :
    (addInPlace name text).run set =
      match set.add name text with
      | .ok set' => .ok ⟨⟩ set'
      | .error e => .error e set := by
  unfold addInPlace
  cases hparse : Source.parse name text with
  | error e =>
    unfold add
    rw [hparse]
    rfl
  | ok source =>
    rw [add_of_parse hparse]
    dsimp only
    rw [run_addSourceInPlace]
    cases set.addSource source <;> rfl

theorem run_addInPlace_eq_ok {set set' : TemplateSet} {name text : String} :
    (addInPlace name text).run set = .ok ⟨⟩ set' ↔ set.add name text = .ok set' := by
  rw [run_addInPlace]
  cases set.add name text with
  | error e => exact ⟨nofun, nofun⟩
  | ok added => simp

theorem run_addInPlace_eq_error {set set' : TemplateSet} {name text : String} {e : Error} :
    (addInPlace name text).run set = .error e set' ↔
      set' = set ∧ set.add name text = .error e := by
  rw [run_addInPlace]
  cases set.add name text with
  | error e => simp [eq_comm, and_comm]
  | ok added => simp

/-- Additions are all or nothing, and two of them can be made in either order. One that fails leaves
the set as it was, and fails because the source does not parse or the set has one of its names. One
that succeeds keeps all templates and the settings, and the set then has its old names and those of
the source. -/
theorem additions_atomic (set : TemplateSet) (name text : String) :
    (∀ e set', (addInPlace name text).run set = .error e set' → set' = set ∧
      ((∃ fault, Source.parse name text = .error fault ∧ e = .source fault) ∨
        ∃ source, Source.parse name text = .ok source ∧ ∃ t ∈ source.templates,
          set.contains t.name = true ∧
            e = .source (.structural (.redefined t.name) t.location))) ∧
    (∀ set', (addInPlace name text).run set = .ok ⟨⟩ set' → set'.config = set.config ∧
      (∀ x t, set.get? x = some t → set'.get? x = some t) ∧
      ∃ source, Source.parse name text = .ok source ∧ ∀ x, set'.contains x = true ↔
        set.contains x = true ∨ x ∈ source.templates.map (·.name)) ∧
    ∀ name' text' first both, (addInPlace name text).run set = .ok ⟨⟩ first →
      (addInPlace name' text').run first = .ok ⟨⟩ both →
        ∃ other both', (addInPlace name' text').run set = .ok ⟨⟩ other ∧
          (addInPlace name text).run other = .ok ⟨⟩ both' ∧ both' = both ∧
            ∀ entry, both'.compile entry = both.compile entry := by
  refine ⟨fun e set' h => ?_, fun set' h => ?_, fun name' text' first both h h' => ?_⟩
  · obtain ⟨rfl, hadd⟩ := run_addInPlace_eq_error.mp h
    exact ⟨rfl, add_eq_error hadd⟩
  · have hadd := run_addInPlace_eq_ok.mp h
    obtain ⟨source, hparse, hnew, rfl⟩ := add_eq_ok.mp hadd
    refine ⟨config_of_add_eq_ok hadd, fun x t hx => ?_, source, hparse,
      contains_foldl_insert source.templates set⟩
    have old : x ∉ source.templates.map (·.name) := by
      intro hmem
      obtain ⟨u, hu, rfl⟩ := List.mem_map.mp hmem
      have := hnew u hu
      rw [contains, hx] at this
      cases this
    rw [get?_foldl_insert_of_not_mem old, hx]
  · obtain ⟨other, hother, hboth⟩ :=
      add_comm (run_addInPlace_eq_ok.mp h) (run_addInPlace_eq_ok.mp h')
    exact ⟨other, both, run_addInPlace_eq_ok.mpr hother, run_addInPlace_eq_ok.mpr hboth, rfl,
      fun _ => rfl⟩

/-- A page and another text, added in either order; the page is not added twice. -/
theorem additions_atomic_memberPage :
    ∃ first both other,
      (addInPlace "main" memberPage).run (.empty .standard) = .ok ⟨⟩ first ∧
      (addInPlace "note" "text").run first = .ok ⟨⟩ both ∧
      (addInPlace "note" "text").run (.empty .standard) = .ok ⟨⟩ other ∧
      (addInPlace "main" memberPage).run other = .ok ⟨⟩ both ∧
      first.contains "row" = true ∧
      ∃ e, (addInPlace "row" memberPage).run first = .error e first := by
  have added : (((TemplateSet.empty .standard).add "main" memberPage).bind
      fun first => first.add "note" "text").isOk = true := by decide +kernel
  have refused : (((TemplateSet.empty .standard).add "main" memberPage).bind
      fun first => first.add "row" memberPage).isOk = false := by decide +kernel
  have named : ((Source.parse "main" memberPage).toOption.map fun source =>
      source.templates.map (·.name)) = some ["row", "main"] := by decide +kernel
  obtain ⟨-, accepts, swaps⟩ := additions_atomic (.empty .standard) "main" memberPage
  cases hfirst : (TemplateSet.empty .standard).add "main" memberPage with
  | error e =>
    rw [hfirst] at added
    cases added
  | ok first =>
    rw [hfirst, Except.bind] at added refused
    have run_first := run_addInPlace_eq_ok.mpr hfirst
    cases hboth : first.add "note" "text" with
    | error e =>
      rw [hboth] at added
      cases added
    | ok both =>
      obtain ⟨other, both', run_other, run_both, rfl, -⟩ :=
        swaps "note" "text" first both run_first (run_addInPlace_eq_ok.mpr hboth)
      obtain ⟨-, -, source, hparse, hcontains⟩ := accepts first run_first
      rw [hparse] at named
      have names : source.templates.map (·.name) = ["row", "main"] := Option.some.inj named
      refine ⟨first, both', other, run_first, run_addInPlace_eq_ok.mpr hboth, run_other, run_both,
        (hcontains "row").mpr (.inr (by rw [names]; exact List.mem_cons_self)), ?_⟩
      cases hrow : first.add "row" memberPage with
      | error e => exact ⟨e, run_addInPlace_eq_error.mpr ⟨rfl, hrow⟩⟩
      | ok third =>
        rw [hrow] at refused
        cases refused

end TemplateSet

/-! ## Names within a source -/

/-- The templates of a source have names of their own unless a definition stands inside another of
the same name, and then an addition keeps all of them. -/
theorem Source.distinct_unless_nested {name text : String} {source : Source}
    (h : Source.parse name text = .ok source) :
    ((source.templates.map (·.name)).Nodup ↔ nestsItself text = false) ∧
      (nestsItself text = false → ∀ set set', TemplateSet.add set name text = .ok set' →
        ∀ t ∈ source.templates, set'.get? t.name = some t) := by
  have order : (source.templates.map (·.name)).Perm
      ((source.main :: source.defines).map (·.name)) :=
    List.perm_append_singleton source.main source.defines |>.map _
  have distinct : (source.templates.map (·.name)).Nodup ↔ nestsItself text = false :=
    order.nodup_iff.trans (parse_names h).2
  refine ⟨distinct, fun hnested set set' hadd => ?_⟩
  obtain ⟨source', hparse, -, rfl⟩ := TemplateSet.add_eq_ok.mp hadd
  rw [h] at hparse
  cases hparse
  exact fun t => TemplateSet.get?_foldl_insert_of_nodup (distinct.mpr hnested) set

/-- A text that defines a template with another one embedded in it. -/
def slotInside (outer inner : String) : String :=
  "\x7b\x7bdefine \"" ++ outer ++ "\"\x7d\x7d<p>\x7b\x7bblock \"" ++ inner ++
    "\" .\x7d\x7dnone\x7b\x7bend\x7d\x7d</p>\x7b\x7bend\x7d\x7d"

theorem Source.distinct_unless_nested_slotInside : ∃ source,
    Source.parse "main" (slotInside "list" "item") = .ok source ∧
      (source.templates.map (·.name)).Nodup := by
  have parses : (Source.parse "main" (slotInside "list" "item")).isOk = true := by decide +kernel
  have apart : nestsItself (slotInside "list" "item") = false := by decide +kernel
  cases hparse : Source.parse "main" (slotInside "list" "item") with
  | error e =>
    rw [hparse] at parses
    cases parses
  | ok source => exact ⟨source, rfl, (distinct_unless_nested hparse).1.mpr apart⟩

/-- A definition inside another of the same name is accepted, and both are returned. -/
theorem Source.not_distinct_of_slotInside :
    ¬ ∀ name text source, Source.parse name text = .ok source →
      (source.templates.map (·.name)).Nodup := by
  intro distinct
  have names : ((Source.parse "main" (slotInside "list" "list")).toOption.map fun source =>
      source.templates.map (·.name)) = some ["list", "list", "main"] := by decide +kernel
  cases hparse : Source.parse "main" (slotInside "list" "list") with
  | error e =>
    rw [hparse] at names
    cases names
  | ok source =>
    rw [hparse] at names
    have hnodup := distinct _ _ _ hparse
    rw [show source.templates.map (·.name) = _ from Option.some.inj names] at hnodup
    exact absurd hnodup (by decide)

end Stencil
