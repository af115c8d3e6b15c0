import Stencil.Proofs.Program.Settings
import Stencil.Proofs.Program.Sinks
import Stencil.Proofs.Render.UpTo

/-!
# Raising the limit on embedded templates

How many templates may be active inside one another decides how far a run gets, and nothing else: a
set compiles to the same variants under any limit, and a run that stays within a limit is the run
under every higher one (`TemplateSet.maxDepth_upTo`). A run that meets the limit stops in the middle
of what is written under a higher one, so what it has written is a first part of that.

Behind the meeting nothing is claimed: under the higher limit the run may go on, meet data that does
not fit, or meet that limit too.
-/

set_option autoImplicit false

namespace Stencil

/-- The same settings, but for the limit on embedded templates. -/
def Config.withMaxDepth (config : Config) (n : Nat) : Config :=
  { config with maxDepth := n }

/-- The same templates under another limit. -/
def TemplateSet.withMaxDepth (set : TemplateSet) (n : Nat) : TemplateSet :=
  set.withConfig (set.config.withMaxDepth n)

/-- The same program under another limit. -/
def Program.withMaxDepth (p : Program) (n : Nat) : Program :=
  p.withConfig (p.config.withMaxDepth n)

theorem TemplateSet.compile_withMaxDepth (set : TemplateSet) (entry : String) (n : Nat) :
    (set.withMaxDepth n).compile entry =
      (set.compile entry).map (·.withConfig (set.config.withMaxDepth n)) :=
  compile_withConfig set entry (set.config.withMaxDepth n) rfl

/-! ## Runs -/

theorem Render.embed_of_none {p : Program} {target : Nat} (h : p.variants[target]? = none)
    (more : Nat) (s : Scope) (name : String) (data : Option Pipeline) (here : Location) :
    embed p more s target name data here = Run.ofExcept (.error (.undefined name here)) := by
  unfold embed
  rw [h]

theorem Render.scopesUpTo_eq (bad : Error → Prop) : ScopesUpTo bad Eq where
  eval same p := by
    rw [same]
    exact .refl _
  push same v := by rw [same]

/-- Where more templates may become active, embedding one does the same up to the limit. -/
theorem Program.embed_deeper (p : Program) (n : Nat) {more more' : Nat} (h : more ≤ more') :
    Render.EmbedUpTo Error.IsTooDeep Eq (Render.embed p more)
      (Render.embed (p.withMaxDepth n) more') := by
  induction more generalizing more' with
  | zero =>
    rintro s _ target name data here rfl
    cases hv : p.variants[target]? with
    | none =>
      rw [Render.embed_of_none hv, Render.embed_of_none (p := p.withMaxDepth n) hv]
      exact .refl _
    | some v =>
      rw [Render.embed, hv]
      exact ⟨fun avoids => absurd rfl (avoids _ rfl), List.nil_prefix⟩
  | succ more ih =>
    obtain ⟨more', rfl⟩ := Nat.exists_eq_succ_of_ne_zero (Nat.ne_zero_of_lt h)
    rintro s _ target name data here rfl
    rw [Render.embed, Render.embed, withMaxDepth, variants_withConfig]
    cases p.variants[target]? with
    | none => exact .refl _
    | some v =>
      refine (Run.UpTo.refl _).bind fun _ => (Run.UpTo.refl _).bind fun root => ?_
      exact (Render.trees_upTo (Render.scopesUpTo_eq _) (ih (Nat.le_of_succ_le_succ h)) rfl
        v.body).bind fun _ => .refl _

/-- Under a higher limit a run is the same up to the limit. -/
theorem Program.run_deeper {p : Program} {n : Nat} (h : p.config.maxDepth ≤ n) (root : Value) :
    (p.run root).UpTo Error.IsTooDeep ((p.withMaxDepth n).run root) := by
  unfold Program.run
  rw [withMaxDepth, variants_withConfig, entry_withConfig, name_withConfig]
  cases p.variants[p.entry]? with
  | none => exact .refl _
  | some v => exact Render.trees_upTo (Render.scopesUpTo_eq _) (p.embed_deeper n h) rfl v.body

/-! ## Executions -/

/-- Programs whose runs write the same and end alike up to an error execute the same up to it, into
every sink: the second has taken all that the first has, where that stops at the error. -/
theorem Program.execute_upTo_of_bytes {bad : Error → Prop} {p q : Program} {root : Value}
    (same : Avoids bad (p.run root).outcome →
      Event.bytes (q.run root).events = Event.bytes (p.run root).events ∧
        (q.run root).outcome = (p.run root).outcome)
    (first : Event.bytes (p.run root).events <+: Event.bytes (q.run root).events) (s : Sink) :
    (Avoids bad (p.execute root s).2 → q.execute root s = p.execute root s) ∧
      (p.execute root s).1.taken <+: (q.execute root s).1.taken := by
  by_cases avoids : Avoids bad (p.run root).outcome
  · have same : q.execute root s = p.execute root s := by
      rw [execute_eq_write, execute_eq_write, (same avoids).1, (same avoids).2]
    exact ⟨fun _ => same, same ▸ List.prefix_rfl⟩
  obtain ⟨e, outcome, hbad⟩ := exists_of_not_avoids avoids
  obtain ⟨rest, hrest⟩ := first
  rw [execute_eq_write, execute_eq_write, ← hrest, Sink.write_append, outcome]
  rcases s.write (Event.bytes (p.run root).events) with ⟨s', _ | _⟩
  · exact ⟨fun _ => rfl, List.prefix_rfl⟩
  · refine ⟨fun ok => absurd hbad (ok e rfl), ?_⟩
    -- the first execution ends here, and the second goes on from this sink
    refine (Sink.Extends.write s' rest).taken.trans ?_
    dsimp only
    rcases s'.write rest with ⟨s'', _ | _⟩
    · exact List.prefix_rfl
    · exact (Sink.finish_taken s'' _).symm ▸ List.prefix_rfl

theorem Program.execute_upTo {bad : Error → Prop} {p q : Program} {root : Value}
    (h : (p.run root).UpTo bad (q.run root)) (s : Sink) :
    (Avoids bad (p.execute root s).2 → q.execute root s = p.execute root s) ∧
      (p.execute root s).1.taken <+: (q.execute root s).1.taken := by
  refine execute_upTo_of_bytes (fun avoids => ?_) ?_ s
  · rw [h.same avoids]
    exact ⟨rfl, rfl⟩
  · obtain ⟨rest, hrest⟩ := h.events
    rw [← hrest, Event.bytes, Event.bytes, List.flatMap_append]
    exact List.prefix_append _ _

/-- Under every limit a set compiles to the same program or ends in the same error. An execution
that does not fail for the limit is the one under every higher limit, with all that the sink has
taken and with its end; one that does has written a first part of what is written under the higher
limit. -/
theorem TemplateSet.maxDepth_upTo (set : TemplateSet) (entry : String) {d e : Nat} (h : d ≤ e) :
    (set.withMaxDepth e).compile entry =
        ((set.withMaxDepth d).compile entry).map (·.withMaxDepth e) ∧
      ∀ p, (set.withMaxDepth d).compile entry = .ok p → ∀ root,
        (Avoids Error.IsTooDeep (p.run root).outcome →
          (p.withMaxDepth e).run root = p.run root) ∧
        ∀ sink,
          (Avoids Error.IsTooDeep (p.execute root sink).2 →
            (p.withMaxDepth e).execute root sink = p.execute root sink) ∧
          (p.execute root sink).1.taken <+: ((p.withMaxDepth e).execute root sink).1.taken := by
  rw [compile_withMaxDepth, compile_withMaxDepth]
  cases set.compile entry with
  | error e => exact ⟨rfl, nofun⟩
  | ok q =>
    refine ⟨rfl, ?_⟩
    rintro p ⟨⟩ root
    have upTo := Program.run_deeper (p := q.withConfig (set.config.withMaxDepth d)) h root
    exact ⟨upTo.same, Program.execute_upTo upTo⟩

/-- A page that embeds itself as often as its data is nested. -/
def descentPage : String :=
  "a\x7b\x7bif .\x7d\x7d\x7b\x7btemplate \"main\" .Next\x7d\x7d\x7b\x7bend\x7d\x7d"

/-- Data that is nested twice: a limit of one stops the page in the middle, and under a limit of two
it is what it is under a limit of three. -/
theorem TemplateSet.maxDepth_upTo_descentPage :
    let nested : Value := .object (.ofPairs [("Next", .object (.ofPairs [("Next", .null)]))])
    let sink : Sink := .empty none false
    ∃ set p q, (TemplateSet.empty .standard).add "main" descentPage = .ok set ∧
      (set.withMaxDepth 1).compile "main" = .ok p ∧ (set.withMaxDepth 2).compile "main" = .ok q ∧
      ¬ Avoids Error.IsTooDeep (p.execute nested sink).2 ∧
      (p.execute nested sink).1.taken <+: ((p.withMaxDepth 3).execute nested sink).1.taken ∧
      Avoids Error.IsTooDeep (q.execute nested sink).2 ∧
      (q.withMaxDepth 3).execute nested sink = q.execute nested sink := by
  intro nested sink
  have compiles : (((TemplateSet.empty .standard).add "main" descentPage).bind fun set => do
      let p ← (set.withMaxDepth 1).compile "main"
      let q ← (set.withMaxDepth 2).compile "main"
      pure (p, q)).toOption.any (fun (p, q) =>
        decide (¬ Avoids Error.IsTooDeep (p.execute nested sink).2) &&
          decide (Avoids Error.IsTooDeep (q.execute nested sink).2)) = true := by
    decide +kernel
  cases hset : (TemplateSet.empty .standard).add "main" descentPage with
  | error e =>
    rw [hset] at compiles
    cases compiles
  | ok set =>
    rw [hset, Except.bind] at compiles
    cases hp : (set.withMaxDepth 1).compile "main" with
    | error e =>
      rw [hp] at compiles
      cases compiles
    | ok p =>
      cases hq : (set.withMaxDepth 2).compile "main" with
      | error e =>
        rw [hp, hq] at compiles
        cases compiles
      | ok q =>
        rw [hp, hq] at compiles
        obtain ⟨stops, ends⟩ := Bool.and_eq_true_iff.mp compiles
        have first :=
          ((set.maxDepth_upTo "main" (d := 1) (e := 3) (by decide)).2 p hp nested).2 sink
        have second :=
          ((set.maxDepth_upTo "main" (d := 2) (e := 3) (by decide)).2 q hq nested).2 sink
        exact ⟨set, p, q, rfl, hp, hq, of_decide_eq_true stops, first.2, of_decide_eq_true ends,
          second.1 (of_decide_eq_true ends)⟩

end Stencil
