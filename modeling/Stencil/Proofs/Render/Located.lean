import Stencil.Proofs.Program.Structure
import Stencil.Proofs.Template.Locations
import Stencil.Render.Sink

/-!
# Where runs go wrong

A run makes no locations of its own. What goes wrong in a pipeline is at one of the pipeline's
locations, and what goes wrong in a loop or an embedding is where that stands in the template. So
the run of a program all of whose locations are of a kind goes wrong at such locations only
(`Program.run_located`), and a sink adds errors without a location.
-/

set_option autoImplicit false

namespace Stencil

variable {L : Location → Prop}

variable (L) in
/-- An error that comes up behind the parser: at a location of a kind, or without one. -/
def Error.At : Error → Prop
  | .source _ => False
  | .ambiguous _ here | .undefined _ here | .execution _ here => L here
  | .data | .sink _ => True

theorem Error.At.of_location? {e : Error} (h : e.At L) {here : Location}
    (he : e.location? = some here) : L here := by
  cases e with
  | source e => exact h.elim
  | ambiguous a spot | undefined name spot | execution f spot =>
    cases he
    exact h
  | data | sink f => cases he

variable (L) in
/-- A result, or an error at a location of a kind or without one. -/
abbrev Located {α : Type} (r : Except Error α) : Prop := Ends (Error.At L) (fun _ => True) r

/-! ## Values of pipelines -/

theorem Scope.walk_located (missingKey : MissingKey) {path : Path} (h : L path.location)
    (v : Value) (steps : List Accessor) : Located L (Scope.walk missingKey path v steps) := by
  induction steps generalizing v with
  | nil => exact .ok trivial
  | cons step rest ih =>
    unfold Scope.walk
    split
    · exact ih _
    · split
      · exact .ok trivial
      · exact .error h

theorem Operand.eval_located (s : Scope) {o : Operand} (h : ∀ l ∈ o.locations, L l) :
    Located L (o.eval s) := by
  cases o with
  | path p => exact Scope.walk_located _ (List.forall_mem_singleton.mp h) _ p.accessors
  | literal l => exact .ok trivial

theorem Operand.evalDeciding_located (s : Scope) (stop : Bool) (piped : Option Value)
    (last : Value) {args : List Operand} (h : ∀ o ∈ args, ∀ l ∈ o.locations, L l) :
    Located L (Operand.evalDeciding s stop piped last args) := by
  induction args generalizing last with
  | nil => exact .ok trivial
  | cons o rest ih =>
    obtain ⟨ho, hrest⟩ := List.forall_mem_cons.mp h
    refine (Operand.eval_located s ho).bind fun v _ => ?_
    split
    · exact .ok trivial
    · exact ih v hrest

theorem Command.eval_located (s : Scope) (piped : Option Value) {c : Command}
    (h : ∀ l ∈ c.locations, L l) : Located L (c.eval s piped) := by
  cases c with
  | operand o => exact Operand.eval_located s h
  | call f args here =>
    obtain ⟨hl, hargs⟩ := List.forall_mem_cons.mp h
    rw [List.forall_mem_flatMap] at hargs
    unfold Command.eval Command.evalCall
    dsimp only
    split
    · exact Operand.evalDeciding_located s _ piped .null hargs
    · exact Operand.evalDeciding_located s _ piped .null hargs
    · refine (Ends.mapM fun o ho => Operand.eval_located s (hargs o ho)).bind fun values _ => ?_
      split
      · exact .ok trivial
      · exact .error hl

theorem Command.evalAll_located (s : Scope) (piped : Option Value) {cs : List Command}
    (h : ∀ c ∈ cs, ∀ l ∈ c.locations, L l) : Located L (Command.evalAll s piped cs) := by
  induction cs generalizing piped with
  | nil => exact .ok trivial
  | cons c rest ih =>
    obtain ⟨hc, hrest⟩ := List.forall_mem_cons.mp h
    exact (Command.eval_located s piped hc).bind fun v _ => ih (some v) hrest

/-- What goes wrong in a pipeline is at one of its locations. -/
theorem Pipeline.eval_located (s : Scope) {p : Pipeline} (h : ∀ l ∈ p.locations, L l) :
    Located L (p.eval s) := by
  have commands := (List.forall_mem_cons.mp h).2
  rw [List.forall_mem_flatMap] at commands
  exact (Command.evalAll_located s none commands).map fun _ _ => trivial

/-! ## Compiled trees -/

/-- Where an instruction stands; a text has forgotten it. -/
def Instruction.places : Instruction → List Location
  | .text _ => []
  | .output _ _ here | .embed _ _ _ here => [here]

variable (L) in
/-- Compiled trees with their instructions and blocks, and all that is in their pipelines, at
locations of a kind. -/
structure Instructions.Placed (us : List (Tree Instruction)) : Prop where
  places : ∀ l ∈ Tree.placesOf Instruction.places us, L l
  pipelines : ∀ p ∈ instructionPipelines us, ∀ l ∈ p.locations, L l

theorem Instructions.Placed.cons {u : Tree Instruction} {us : List (Tree Instruction)}
    (h : Instructions.Placed L (u :: us)) :
    Instructions.Placed L [u] ∧ Instructions.Placed L us := by
  obtain ⟨places, pipelines⟩ := h
  obtain ⟨first, rest⟩ := Tree.forall_mem_placesOf_cons.mp places
  rw [instructionPipelines, Tree.pipelinesOf_cons, List.forall_mem_append] at pipelines
  refine ⟨⟨?_, by simpa using pipelines.1⟩, rest, pipelines.2⟩
  exact Tree.forall_mem_placesOf_cons.mpr ⟨first, List.forall_mem_nil _⟩

theorem Instructions.Placed.block {kind : BlockKind} {subject : Pipeline}
    {body : List (Tree Instruction)} {alternative : Option (List (Tree Instruction))}
    {here : Location}
    (h : Instructions.Placed L [.block kind subject body alternative here]) :
    L here ∧ (∀ l ∈ subject.locations, L l) ∧ Instructions.Placed L body ∧
      ∀ other, alternative = some other → Instructions.Placed L other := by
  obtain ⟨hl, bodyPlaces, elsePlaces⟩ :=
    Tree.forall_mem_places_block.mp (Tree.forall_mem_placesOf_cons.mp h.places).1
  have pipelines (p : Pipeline) (hp : p ∈ Tree.pipelines Instruction.pipelines
      (.block kind subject body alternative here)) : ∀ l ∈ p.locations, L l :=
    h.pipelines p (by simpa using hp)
  simp only [Tree.mem_pipelines_block] at pipelines
  exact ⟨hl, pipelines subject (.inl rfl), ⟨bodyPlaces, fun p hp => pipelines p (.inr (.inl hp))⟩,
    fun other heq => ⟨elsePlaces other heq,
      fun p hp => pipelines p (.inr (.inr ⟨other, heq, hp⟩))⟩⟩

/-! ## Runs -/

theorem Run.located_bind {α β : Type} {r : Run α} {next : α → Run β} (hr : Located L r.outcome)
    (hnext : ∀ a, Located L (next a).outcome) : Located L (r >>= next).outcome := by
  cases h : r.outcome with
  | error e =>
    rw [bind_of_error h]
    rw [h] at hr
    exact hr
  | ok a =>
    rw [bind_of_ok h]
    exact hnext a

namespace Render

variable {embed : Embed}

variable (L) in
/-- Embedding a template, at a location of a kind and with data from a pipeline there, goes wrong
there only. -/
def Embed.Located (embed : Embed) : Prop :=
  ∀ s target name data here, L here → (∀ p ∈ Option.toList data, ∀ l ∈ p.locations, L l) →
    Stencil.Located L (embed s target name data here).outcome

theorem instruction_located (embeds : embed.Located L) (s : Scope) {i : Instruction}
    (places : ∀ l ∈ i.places, L l) (pipelines : ∀ p ∈ i.pipelines, ∀ l ∈ p.locations, L l) :
    Located L (instruction embed s i).outcome := by
  cases i with
  | text content => exact .ok trivial
  | output p rules here =>
    have hp : ∀ l ∈ p.locations, L l := pipelines p (List.mem_singleton_self p)
    exact Run.located_bind (Pipeline.eval_located s hp) fun _ => .ok trivial
  | embed name target data here =>
    exact embeds s target name data here (List.forall_mem_singleton.mp places) pipelines

theorem items_located (s : Scope) {p : Pipeline} (h : ∀ l ∈ p.locations, L l) {here : Location}
    (hl : L here) : Located L (items s p here) := by
  refine (Pipeline.eval_located s h).bind fun v _ => ?_
  split
  · exact .ok trivial
  · exact .error hl

theorem each_located {render : Value → Run Unit} (h : ∀ v, Located L (render v).outcome)
    (values : List Value) : Located L (each render values).outcome := by
  induction values with
  | nil => exact .ok trivial
  | cons v rest ih =>
    rw [each]
    exact Run.located_bind (h v) fun _ => ih

mutual

theorem tree_located (embeds : embed.Located L) (s : Scope) :
    (u : Tree Instruction) → Instructions.Placed L [u] → Located L (tree embed s u).outcome
  | .leaf i, h => by
    rw [tree]
    refine instruction_located embeds s (Tree.forall_mem_placesOf_cons.mp h.places).1 fun p hp =>
      h.pipelines p ?_
    simpa [Tree.pipelines] using hp
  | .block kind subject body alternative here, h => by
    obtain ⟨hl, hsubject, hbody, helse⟩ := h.block
    have rendered (s : Scope) : Located L (trees embed s body).outcome :=
      trees_located embeds s body hbody
    have otherwise : Located L (match alternative with
        | none => (pure () : Run Unit)
        | some alternative => trees embed s alternative).outcome := by
      match alternative with
      | none => exact .ok trivial
      | some other => exact trees_located embeds s other (helse other rfl)
    cases kind with
    | cond =>
      unfold tree
      refine Run.located_bind (Pipeline.eval_located s hsubject) fun v => ?_
      split
      · exact rendered s
      · exact otherwise
    | within =>
      unfold tree
      refine Run.located_bind (Pipeline.eval_located s hsubject) fun v => ?_
      split
      · exact rendered (s.push v)
      · exact otherwise
    | each =>
      unfold tree
      refine Run.located_bind (items_located s hsubject hl) fun values => ?_
      split
      · exact otherwise
      · exact each_located (fun v => rendered (s.push v)) _

theorem trees_located (embeds : embed.Located L) (s : Scope) :
    (us : List (Tree Instruction)) → Instructions.Placed L us →
      Located L (trees embed s us).outcome
  | [], _ => by
    rw [trees]
    exact .ok trivial
  | u :: rest, h => by
    rw [trees]
    exact Run.located_bind (tree_located embeds s u h.cons.1) fun _ =>
      trees_located embeds s rest h.cons.2

end

theorem data_located {data : Option Pipeline} (h : ∀ p ∈ data.toList, ∀ l ∈ p.locations, L l)
    (s : Scope) : Located L (Render.data s data) := by
  cases data with
  | none => exact .ok trivial
  | some p => exact Pipeline.eval_located s (h p (by simp))

/-- Embedding in a program at locations of a kind goes wrong there only, down to any depth. -/
theorem embed_located {p : Program} (h : ∀ v ∈ p.variants, Instructions.Placed L v.body)
    (more : Nat) : Embed.Located L (Render.embed p more) := by
  induction more with
  | zero =>
    intro s target name data here hl _
    rw [Render.embed]
    split
    · exact .error hl
    · exact .error hl
  | succ more ih =>
    intro s target name data here hl hdata
    rw [Render.embed]
    split
    · exact .error hl
    · next v hv =>
      have hbody := h v (List.mem_of_getElem? hv)
      refine Run.located_bind (.ok trivial) fun _ => ?_
      refine Run.located_bind (data_located hdata s) fun root => ?_
      exact Run.located_bind (trees_located ih _ v.body hbody) fun _ => .ok trivial

end Render

/-- A run of a program at locations of a kind goes wrong there only. -/
theorem Program.run_located {p : Program} (h : ∀ v ∈ p.variants, Instructions.Placed L v.body)
    (entry : ∃ v, p.variants[p.entry]? = some v) (root : Value) :
    Located L (p.run root).outcome := by
  obtain ⟨v, hv⟩ := entry
  unfold Program.run
  rw [hv]
  exact Render.trees_located (Render.embed_located h _) _ v.body (h v (List.mem_of_getElem? hv))

/-- What goes wrong in a sink has no location. -/
theorem Program.execute_located {p : Program} {root : Value}
    (h : Located L (p.run root).outcome) (sink : Sink) : Located L (p.execute root sink).2 := by
  unfold Program.execute
  dsimp only
  split
  · cases hr : (p.run root).outcome with
    | ok _ =>
      unfold Sink.finish Sink.flush
      dsimp only
      split
      · exact .error trivial
      · exact .ok trivial
    | error e =>
      rw [hr] at h
      exact h
  · exact .error trivial

end Stencil
