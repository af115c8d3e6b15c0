import Stencil.Proofs.Program.Additions
import Stencil.Proofs.Program.Congruence
import Stencil.Proofs.Render.Located
import Stencil.Proofs.Template.Positions

/-!
# Where errors are reported

Every error that has a location is at a point of the source. A location is made once, by the lexer,
and carried along: into the pieces, blocks and pipelines of the parsed templates, from there through
the analysis into the compiled ones, and into the error of a run. Each of these keeps all of its
locations among those it was given, so what is reported is among those of the lexer
(`compile_reports`).

Two locations that no lexer made are harmless. An entry is asked for outside of all sources, but the
one entry of a source is always there, and its analysis does not look at the place where it is asked
for (`Analysis.enter_entry`). The main template starts where the source does, which is a point of
the source, if not that of a token.
-/

set_option autoImplicit false

namespace Stencil

open Markup (Context)

variable {L : Location → Prop}

/-! ## Compiled trees -/

theorem Command.ofEscaped_locations {args : List Operand} {here : Location} (hl : L here)
    (h : ∀ l ∈ args.flatMap Operand.locations, L l) :
    ∀ l ∈ (Command.ofEscaped args here).locations, L l := by
  unfold Command.ofEscaped
  split
  · exact fun l hmem => h l (List.mem_flatMap.mpr ⟨_, List.mem_singleton_self _, hmem⟩)
  · exact List.forall_mem_cons.mpr ⟨hl, h⟩

theorem Command.stripReversed_locations {here : Location} (hl : L here) {cs : List Command}
    (h : ∀ c ∈ cs, ∀ l ∈ c.locations, L l) :
    ∀ c ∈ Command.stripReversed here cs, ∀ l ∈ c.locations, L l := by
  induction cs with
  | nil => exact h
  | cons c earlier ih =>
    obtain ⟨hc, hearlier⟩ := List.forall_mem_cons.mp h
    cases c with
    | operand o => exact h
    | call f args spot =>
      unfold Command.stripReversed
      split
      · cases earlier with
        | nil =>
          have args := (List.forall_mem_cons.mp hc).2
          exact List.forall_mem_singleton.mpr (Command.ofEscaped_locations hl args)
        | cons d rest => exact ih hearlier
      · exact h

/-- A pipeline without the escapers at its end has no locations that it did not have. -/
theorem Pipeline.withoutEscapers_locations {p : Pipeline} (h : ∀ l ∈ p.locations, L l) :
    ∀ l ∈ p.withoutEscapers.locations, L l := by
  obtain ⟨hl, commands⟩ := List.forall_mem_cons.mp h
  rw [List.forall_mem_flatMap] at commands
  refine List.forall_mem_cons.mpr ⟨hl, ?_⟩
  rw [List.forall_mem_flatMap]
  intro c hc
  exact Command.stripReversed_locations hl (fun d hd => commands d (List.mem_reverse.mp hd)) c
    (List.mem_reverse.mp hc)

theorem Config.prepare_locations (config : Config) (p : Pipeline) (h : ∀ l ∈ p.locations, L l) :
    ∀ l ∈ (config.policy.prepare p).locations, L l := by
  unfold Config.policy
  split
  · exact Pipeline.withoutEscapers_locations h
  · exact h

namespace Analysis

section

variable {policy : Policy} {link : Link}

mutual

/-- A compiled tree stands where the tree does. -/
theorem Compiled.places {c next : Context} {x : Tree Piece} {u : Tree Instruction} :
    Compiled policy link c x u next → (∀ l ∈ Tree.places Piece.places x, L l) →
      ∀ l ∈ Tree.places Instruction.places u, L l
  | .text content here h, _ => List.forall_mem_nil _
  | .output p here h, placed => placed
  | .embed data here hin hlink, placed => placed
  | .branch subject here hk hbody helse hjoin, placed => by
    obtain ⟨hl, body, alternative⟩ := Tree.forall_mem_places_block.mp placed
    exact Tree.forall_mem_places_block.mpr ⟨hl, hbody.places body, helse.places alternative⟩
  | .loop subject here honce hjoin hbody hfix, placed => by
    obtain ⟨hl, body, -⟩ := Tree.forall_mem_places_block.mp placed
    exact Tree.forall_mem_places_block.mpr ⟨hl, hbody.places body, nofun⟩
  | .loopElse subject here honce hjoin hbody hfix helse hnext, placed => by
    obtain ⟨hl, body, alternative⟩ := Tree.forall_mem_places_block.mp placed
    refine Tree.forall_mem_places_block.mpr ⟨hl, hbody.places body, ?_⟩
    rintro _ ⟨⟩
    exact helse.places (alternative _ rfl)

theorem CompiledAll.places {c next : Context} {xs : List (Tree Piece)}
    {us : List (Tree Instruction)} :
    CompiledAll policy link c xs us next → (∀ l ∈ piecePlaces xs, L l) →
      ∀ l ∈ Tree.placesOf Instruction.places us, L l
  | .nil c, _ => List.forall_mem_nil _
  | .cons h hrest, placed => by
    obtain ⟨first, rest⟩ := Tree.forall_mem_placesOf_cons.mp placed
    exact Tree.forall_mem_placesOf_cons.mpr ⟨h.places first, hrest.places rest⟩

theorem CompiledElse.places {c next : Context} {xs : Option (List (Tree Piece))}
    {us : Option (List (Tree Instruction))} :
    CompiledElse policy link c xs us next →
      (∀ other, xs = some other → ∀ l ∈ piecePlaces other, L l) →
        ∀ other, us = some other → ∀ l ∈ Tree.placesOf Instruction.places other, L l
  | .none c, _, other, heq => by cases heq
  | .some h, placed, other, heq => by
    cases heq
    exact h.places (placed _ rfl)

end

end

/-! ## The analysis -/

variable (L) in
/-- Whatever the table, a step goes wrong at locations of a kind only. -/
def Step.Located {α : Type} (x : Step α) : Prop :=
  ∀ t : Table, Stencil.Located L (x.run t)

namespace Step.Located

variable {α β : Type}

protected theorem pure (a : α) : Step.Located L (pure a) := fun _ => .ok trivial

protected theorem bind {x : Step α} {f : α → Step β} (hx : Step.Located L x)
    (hf : ∀ a, Step.Located L (f a)) : Step.Located L (x >>= f) := by
  intro t
  rw [StateT.run_bind]
  exact (hx t).bind fun r _ => hf r.1 r.2

theorem ambiguous (a : Ambiguity) {here : Location} (h : L here) :
    Step.Located L (ambiguous a here : Step α) := fun _ => .error h

theorem get : Step.Located L (get : Step Table) := fun _ => .ok trivial

theorem modify (f : Table → Table) : Step.Located L (modify f : Step PUnit) := fun _ => .ok trivial

theorem congruence : Step.Congruence L fun {_} x _ => Step.Located L x where
  pure := .pure
  bind := .bind
  ambiguous a _ h := .ambiguous a h

end Step.Located

variable (L) in
/-- Templates at locations of a kind. -/
def Templates.Placed (templates : List (String × Template)) : Prop :=
  ∀ name template, Record.get? templates name = some template →
    L template.location ∧ Pieces.Placed L template.body

section

variable {policy : Policy} {templates : List (String × Template)}

/-- The analysis of a template that is embedded at a location of a kind goes wrong there only. -/
theorem enter_located (placed : Templates.Placed L templates) (room : Nat) (name : String)
    (c : Context) {here : Location} (hl : L here) :
    (Analysis.enter policy templates room name c here).Located L := by
  induction room generalizing name c here with
  | zero =>
    rw [Analysis.enter]
    exact .ambiguous _ hl
  | succ room ih =>
    rw [Analysis.enter]
    refine .bind .get fun table => ?_
    split
    · unfold revisit
      refine .bind .get fun table => ?_
      split
      · exact .pure _
      · exact .bind (.modify _) fun _ => .pure _
    split
    · exact fun _ => .error hl
    · next template hget =>
      obtain ⟨spot, pieces⟩ := placed name template hget
      have embeds : Enter.Related L (fun {_} x _ => Step.Located L x) (fun _ => True)
          (Analysis.enter policy templates room) (Analysis.enter policy templates room) :=
        fun name c _ _ h => ih name c h
      split
      · exact .ambiguous _ hl
      · refine .bind (fun _ => .ok trivial) fun _ => ?_
        have body :
            (trees policy (Analysis.enter policy templates room) c template.body).Located L :=
          trees_congr Step.Located.congruence embeds c template.body (fun _ _ _ _ => trivial)
            pieces.places
        refine body.bind fun _ => .bind .get fun table => ?_
        split
        · exact .ambiguous _ spot
        · exact .bind (.modify _) fun _ => .pure _

/-- A template that is there is entered first from wherever it is asked for. -/
theorem enter_entry {name : String} {template : Template}
    (hget : Record.get? templates name = some template) (room : Nat) (c : Context)
    (here here' : Location) :
    (Analysis.enter policy templates (room + 1) name c here).run [] =
      (Analysis.enter policy templates (room + 1) name c here').run [] := by
  have read : StateT.run (get : Step Table) [] = .ok ([], []) := rfl
  have unmet : Table.find? [] name c = none := rfl
  have few : ¬ contextLimit ≤ Table.count [] name := by simp [Table.count, contextLimit]
  rw [Analysis.enter, Analysis.enter, run_bind_of_ok read, run_bind_of_ok read, unmet, hget]
  dsimp only
  rw [if_neg few, if_neg few]

/-- The analysis of an entry that is there goes wrong at locations of the templates only. -/
theorem enter_located_entry (placed : Templates.Placed L templates) {name : String}
    {template : Template} (hget : Record.get? templates name = some template) (c : Context)
    (here : Location) :
    Stencil.Located L ((Analysis.enter policy templates (room templates) name c here).run []) := by
  unfold room
  rw [enter_entry hget _ c here template.location]
  exact enter_located placed _ name c (placed name template hget).1 []

/-- The variants of a complete table are at locations of the templates. -/
theorem Table.Complete.placed {P : Context → Prop} {t : Table}
    (complete : t.Complete policy templates P) (placed : Templates.Placed L templates)
    (prepared : ∀ p : Pipeline, (∀ l ∈ p.locations, L l) →
      ∀ l ∈ (policy.prepare p).locations, L l) :
    ∀ v ∈ t.variants policy, Instructions.Placed L v.body := by
  intro v hv
  obtain ⟨e, he, rfl⟩ := List.mem_map.mp hv
  obtain ⟨n, hn⟩ := List.getElem?_of_mem he
  obtain ⟨-, stop, -, -, template, hget, hbody⟩ := complete n e hn
  obtain ⟨-, pieces⟩ := placed e.name template hget
  exact ⟨hbody.places pieces.places, hbody.pipelines prepared pieces.pipelines⟩

end

end Analysis

open Analysis

variable {templates : List (String × Template)}

/-- The analysis of an entry that is there goes wrong at locations of the templates only. -/
theorem Program.unchecked_located (placed : Templates.Placed L templates) {entry : String}
    {template : Template} (hget : Record.get? templates entry = some template) (config : Config) :
    Located L (Program.unchecked templates entry config) :=
  (enter_located_entry placed hget _ _).bind fun _ _ => .ok trivial

/-- What is compiled is at locations of the templates. -/
theorem Program.placed_of_unchecked (placed : Templates.Placed L templates) {entry : String}
    {config : Config} {p : Program} (h : Program.unchecked templates entry config = .ok p) :
    ∀ v ∈ p.variants, Instructions.Placed L v.body := by
  obtain ⟨number, next, t, hrun, rfl⟩ := Program.unchecked_eq_ok h
  have kept : config.policy.Preserves fun _ => True :=
    ⟨fun _ _ _ _ => trivial, fun _ _ _ _ => trivial, fun _ _ _ _ _ _ => trivial⟩
  exact (enter_compiled kept trivial hrun).2.placed placed config.prepare_locations

/-! ## Sources -/

/-- A source is parsed to templates at its points, or refused at one. -/
theorem Source.parse_placed (name text : String) :
    Ends (·.location.IsIn text) (Source.Placed (·.IsIn text)) (Source.parse name text) := by
  unfold Source.parse
  cases h : tokenize text with
  | error e =>
    have lexical := (tokenize_placed text).of_error h
    cases e with
    | lexical fault here => exact lexical
    | structural fault here => exact lexical.elim
  | ok ts => exact Source.ofTokens_placed h ((tokenize_placed text).of_ok h) name

/-- Where the tokens of a source are no template, one of them tells where. -/
theorem Source.location_of_structural {name text : String} {fault : StructuralFault}
    {here : Location} (h : Source.parse name text = .error (.structural fault here)) :
    ∃ ts, tokenize text = .ok ts ∧ ∃ t ∈ ts, t.location = here := by
  unfold Source.parse at h
  cases hts : tokenize text with
  | error e =>
    have lexical := (tokenize_placed text).of_error hts
    rw [hts] at h
    cases h
    exact lexical.elim
  | ok ts =>
    have placed := Source.ofTokens_placed (L := fun l => ∃ t ∈ ts, t.location = l) hts
      (fun t ht => ⟨t, ht, rfl⟩) name
    rw [hts] at h
    exact ⟨ts, rfl, placed.of_error h⟩

/-- The start of a text is a point of it. -/
theorem Location.start_isIn (text : String) : Location.start.IsIn text :=
  ⟨[], List.nil_prefix, Location.counts_advance []⟩

/-- A source that is added to the empty set can be refused for what is wrong in it alone. -/
theorem TemplateSet.parse_of_add_empty {config : Config} {name text : String} {e : Error}
    (h : (TemplateSet.empty config).add name text = .error e) :
    ∃ fault, Source.parse name text = .error fault ∧ e = .source fault := by
  rcases add_eq_error h with parsed | ⟨source, -, t, -, known, -⟩
  · exact parsed
  · cases known

/-- The templates of a source that is added to the empty set are at its points. -/
theorem TemplateSet.placed_of_add_empty {config : Config} {name text : String} {set : TemplateSet}
    (h : (TemplateSet.empty config).add name text = .ok set) :
    Templates.Placed (·.IsIn text) set.templates ∧
      ∃ template, Record.get? set.templates name = some template := by
  obtain ⟨source, hparse, -, rfl⟩ := add_eq_ok.mp h
  obtain ⟨start, main, defines⟩ := (Source.parse_placed name text).of_ok hparse
  refine ⟨fun other template hget => ?_, ?_⟩
  · rcases get?_foldl_insert hget with ⟨hmem, -⟩ | hget
    · rcases List.mem_append.mp hmem with hdefine | hmain
      · exact defines template hdefine
      · rw [List.mem_singleton.mp hmain]
        exact ⟨start ▸ Location.start_isIn text, main⟩
    · cases hget
  · have named : name ∈ source.templates.map (·.name) := by
      rw [← (Source.parse_names hparse).1]
      exact List.mem_map_of_mem (List.mem_append_right _ (List.mem_singleton_self _))
    have found := (contains_foldl_insert source.templates (TemplateSet.empty config) name).mpr
      (.inr named)
    exact Option.isSome_iff_exists.mp found

/-- Every error of a source is at a point of the source, if it is anywhere: one of its compilation,
whatever the settings, and one of a run of the program, whatever the data and the sink. An error of
the parser is where one of the tokens is. -/
theorem compile_reports (name text : String) (config : Config) :
    (∀ e here, compile name text config = .error e → e.location? = some here → here.IsIn text) ∧
    (∀ fault here, compile name text config = .error (.source (.structural fault here)) →
      ∃ ts, tokenize text = .ok ts ∧ ∃ t ∈ ts, t.location = here) ∧
    ∀ p, compile name text config = .ok p → ∀ root,
      (∀ e here, p.render root = .error e → e.location? = some here → here.IsIn text) ∧
      ∀ sink e here, (p.execute root sink).2 = .error e → e.location? = some here →
        here.IsIn text := by
  unfold compile
  cases hadd : (TemplateSet.empty config).add name text with
  | error e =>
    obtain ⟨fault, hparse, rfl⟩ := TemplateSet.parse_of_add_empty hadd
    refine ⟨?_, ?_, nofun⟩
    · rintro _ _ ⟨⟩ ⟨⟩
      exact (Source.parse_placed name text).of_error hparse
    · rintro fault here ⟨⟩
      exact Source.location_of_structural hparse
  | ok set =>
    obtain ⟨placed, template, hget⟩ := TemplateSet.placed_of_add_empty hadd
    have counts : set.WellFormed := (TemplateSet.Reachable.add (.empty config) hadd).wellFormed
    have known : set.contains name = true := Option.isSome_iff_exists.mpr ⟨template, hget⟩
    have analysed := Program.unchecked_located placed hget set.config
    change (∀ e here, set.compile name = _ → _) ∧ (∀ fault here, set.compile name = _ → _) ∧
      ∀ p, set.compile name = _ → _
    rw [counts.compile_unchecked, if_pos known]
    refine ⟨fun e here he => (analysed.of_error he).of_location?,
      fun fault here he => (analysed.of_error he).elim, fun p hp root => ?_⟩
    obtain ⟨v, hv, -⟩ := (Program.wellFormed_of_unchecked counts hp).entry
    have run := Program.run_located (Program.placed_of_unchecked placed hp) ⟨v, hv⟩ root
    refine ⟨fun e here he => ?_, fun sink e here he => ?_⟩
    · have rendered : Located (·.IsIn text) (p.render root) := run.map fun _ _ => trivial
      exact (rendered.of_error he).of_location?
    · exact ((Program.execute_located run sink).of_error he).of_location?

/-- Two sources that go wrong behind a letter of two bytes and a line feed: one does not parse, and
one needs a field of what may be null. -/
def faultyPages : String × String :=
  let action (body : String) := "\x7b\x7b" ++ body ++ "\x7d\x7d"
  ("é\n" ++ action "- /* a stray end */ -" ++ " " ++ action "end", "é\n " ++ action "- .a.b")

theorem compile_reports_faultyPages :
    (∃ fault here, compile "page" faultyPages.1 .standard =
        .error (.source (.structural fault here)) ∧ here = ⟨2, 27, 29⟩ ∧
      here.IsIn faultyPages.1 ∧
        ∃ ts, tokenize faultyPages.1 = .ok ts ∧ ∃ t ∈ ts, t.location = here) ∧
    ∃ p e here, compile "page" faultyPages.2 .standard = .ok p ∧
      p.render (.object (.ofPairs [("a", .null)])) = .error e ∧ e.location? = some here ∧
        here = ⟨2, 6, 8⟩ ∧ here.IsIn faultyPages.2 := by
  constructor
  · have stray : (compile "page" faultyPages.1 .standard).map (fun _ => ()) =
        .error (.source (.structural .strayEnd ⟨2, 27, 29⟩)) := by decide +kernel
    cases h : compile "page" faultyPages.1 .standard with
    | ok p =>
      rw [h] at stray
      cases stray
    | error e =>
      rw [h] at stray
      cases stray
      obtain ⟨within, token, -⟩ := compile_reports "page" faultyPages.1 .standard
      exact ⟨_, _, rfl, rfl, within _ _ h rfl, token _ _ h⟩
  · have dangling : (compile "page" faultyPages.2 .standard).map
        (fun p => (p.render (.object (.ofPairs [("a", .null)]))).map fun _ => ()) =
          .ok (.error (.execution
            (.nil (.field "b") ⟨.dot, [.field "a", .field "b"], ⟨2, 6, 8⟩⟩) ⟨2, 6, 8⟩)) := by
      decide +kernel
    cases hp : compile "page" faultyPages.2 .standard with
    | error e =>
      rw [hp] at dangling
      cases dangling
    | ok p =>
      rw [hp] at dangling
      have rendered : (p.render (.object (.ofPairs [("a", .null)]))).map (fun _ => ()) = _ :=
        Except.ok.inj dangling
      cases he : p.render (.object (.ofPairs [("a", .null)])) with
      | ok text =>
        rw [he] at rendered
        cases rendered
      | error e =>
        rw [he] at rendered
        cases rendered
        obtain ⟨-, -, runs⟩ := compile_reports "page" faultyPages.2 .standard
        exact ⟨p, _, _, rfl, he, rfl, rfl, (runs p hp _).1 _ _ he rfl⟩

end Stencil
