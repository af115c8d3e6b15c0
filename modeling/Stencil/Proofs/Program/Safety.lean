import Stencil.Proofs.Program.Structure
import Stencil.Render.Sink

/-!
# Programs do not go wrong by their structure

Two errors of a run would tell of a fault in the program and not in the data: that a template is
missing, and that a function is given a number of arguments that it does not take
(`Error.IsStructural`). No run of a complete program ends in one (`Program.WellFormed.run`): each
command of a well-formed pipeline is given as many values as it takes, whether written or piped in,
and each embedded template is found.

With what `Program.WellFormed` says of the program itself, this holds of all that a set built from
sources compiles to (`TemplateSet.Reachable.compiles_complete`).
-/

set_option autoImplicit false

namespace Stencil

/-- A function is given a number of arguments that it does not take. -/
def ExecutionFault.IsCount : ExecutionFault → Prop
  | .wrongCount .. => True
  | _ => False

/-- Errors that tell of a fault in a program's structure. -/
def Error.IsStructural : Error → Prop
  | .undefined .. => True
  | .execution f _ => f.IsCount
  | _ => False

/-- A result is no error of a program's structure. -/
abbrev Safe {α : Type} (r : Except Error α) : Prop := Avoids Error.IsStructural r

/-! ## Functions -/

namespace Builtin

theorem compare_avoids (f : Builtin) (a b : Value) :
    Avoids ExecutionFault.IsCount (compare f a b) := by
  unfold compare
  split
  · exact .ok _
  · exact .error id

theorem equalsAny_avoids (first : Value) (others : List Value) :
    Avoids ExecutionFault.IsCount (equalsAny first others) := by
  induction others with
  | nil => exact .ok false
  | cons other rest ih =>
    refine (compare_avoids .eq first other).bind fun same _ => ?_
    split
    · exact .ok true
    · exact ih

/-- A function does not complain about a number of arguments that it takes. -/
theorem apply_avoids {f : Builtin} {args : List Value} (h : f.takes args.length = true) :
    Avoids ExecutionFault.IsCount (f.apply args) := by
  obtain ⟨least, greatest⟩ := takes_eq_true.mp h
  cases f with
  | not =>
    obtain ⟨v, rfl⟩ := List.length_eq_one_iff.mp (Nat.le_antisymm (greatest 1 rfl) least)
    exact .ok _
  | len =>
    obtain ⟨v, rfl⟩ := List.length_eq_one_iff.mp (Nat.le_antisymm (greatest 1 rfl) least)
    rw [apply]
    split
    · exact .ok _
    · exact .error id
  | eq =>
    obtain ⟨first, second, rest, rfl⟩ : ∃ first second rest, args = first :: second :: rest := by
      match args, least with
      | first :: second :: rest, _ => exact ⟨first, second, rest, rfl⟩
    exact (equalsAny_avoids first (second :: rest)).map _
  | ne =>
    have two : args.length = 2 := Nat.le_antisymm (greatest 2 rfl) least
    obtain ⟨a, b, rfl⟩ : ∃ a b, args = [a, b] := by
      match args, two with
      | [a, b], _ => exact ⟨a, b, rfl⟩
    exact (compare_avoids .ne a b).map _
  | and | or | html | js | urlquery | print => exact .ok _

end Builtin

/-! ## Pipelines -/

theorem Scope.walk_safe (missingKey : MissingKey) (path : Path) (v : Value)
    (steps : List Accessor) : Safe (Scope.walk missingKey path v steps) := by
  induction steps generalizing v with
  | nil => exact .ok v
  | cons step rest ih =>
    unfold Scope.walk
    split
    · exact ih _
    · next miss _ =>
      split
      · exact .ok _
      · cases miss <;> exact .error id

theorem Operand.eval_safe (s : Scope) (o : Operand) : Safe (o.eval s) := by
  cases o with
  | path p => exact Scope.walk_safe _ _ _ _
  | literal l => exact .ok _

theorem Operand.evalDeciding_safe (s : Scope) (stop : Bool) (piped : Option Value) (last : Value)
    (args : List Operand) : Safe (Operand.evalDeciding s stop piped last args) := by
  induction args generalizing last with
  | nil => exact .ok _
  | cons o rest ih =>
    refine (o.eval_safe s).bind fun v _ => ?_
    split
    · exact .ok v
    · exact ih v

/-- A call with as many values as its function takes is safe. -/
theorem Command.evalCall_safe {s : Scope} {f : Builtin} {args : List Operand}
    {piped : Option Value} (h : f.takes (args.length + piped.toList.length) = true)
    (here : Location) : Safe (Command.evalCall s f args here piped) := by
  unfold Command.evalCall
  split
  · exact Operand.evalDeciding_safe s _ piped .null args
  · exact Operand.evalDeciding_safe s _ piped .null args
  · refine (Avoids.mapM (Operand.eval_safe s) args).bind fun values hvalues => ?_
    have takes : f.takes (values ++ piped.toList).length = true := by
      rwa [List.length_append, length_of_mapM hvalues]
    split
    · exact .ok _
    · next fault hfault => exact .error (Builtin.apply_avoids takes fault hfault)

theorem Command.eval_safe {s : Scope} (piped : Option Value) {c : Command}
    (h : c.Takes piped.toList.length) : Safe (c.eval s piped) := by
  cases c with
  | operand o => exact o.eval_safe s
  | call f args here => exact Command.evalCall_safe h here

theorem Command.evalAll_safe {s : Scope} {later : List Command} (h : ∀ c ∈ later, c.Takes 1)
    (v : Value) : Safe (Command.evalAll s (some v) later) := by
  induction later generalizing v with
  | nil => exact .ok _
  | cons c rest ih =>
    obtain ⟨hc, hrest⟩ := List.forall_mem_cons.mp h
    exact (Command.eval_safe (some v) hc).bind fun w _ => ih hrest w

theorem Pipeline.WellFormed.eval_safe {p : Pipeline} (h : p.WellFormed) (s : Scope) :
    Safe (p.eval s) := by
  obtain ⟨first, later, hcommands, hfirst, hlater⟩ := h
  unfold Pipeline.eval
  rw [hcommands]
  exact ((Command.eval_safe none hfirst).bind fun v _ => Command.evalAll_safe hlater v).map _

/-! ## Runs -/

namespace Run

variable {α β : Type}

theorem safe_bind {r : Run α} {next : α → Run β} (hr : Safe r.outcome)
    (hnext : ∀ a, Safe (next a).outcome) : Safe (r >>= next).outcome := by
  cases h : r.outcome with
  | error e =>
    rw [bind_of_error h]
    exact .error (hr e h)
  | ok a =>
    rw [bind_of_ok h]
    exact hnext a

end Run

namespace Render

/-- Embedding a template that is found, with a well-formed pipeline for its data, is safe. -/
def Embed.Safe (embed : Embed) (variants : List Variant) : Prop :=
  ∀ s target name data here, (∃ v, variants[target]? = some v ∧ v.name = name) →
    (∀ p ∈ Option.toList data, p.WellFormed) → Stencil.Safe (embed s target name data here).outcome

theorem items_safe {p : Pipeline} (h : p.WellFormed) (s : Scope) (here : Location) :
    Safe (items s p here) := by
  refine (h.eval_safe s).bind fun v _ => ?_
  split
  · exact .ok _
  · exact .error id

theorem each_safe {render : Value → Run Unit} (h : ∀ v, Safe (render v).outcome)
    (values : List Value) : Safe (each render values).outcome := by
  induction values with
  | nil => exact .ok ()
  | cons v rest ih =>
    rw [each]
    exact Run.safe_bind (h v) fun _ => ih

variable {variants : List Variant} {embed : Embed}

theorem instruction_safe (embeds : embed.Safe variants) (s : Scope) {i : Instruction}
    (complete : i.Complete variants) (counts : ∀ p ∈ i.pipelines, p.WellFormed) :
    Safe (instruction embed s i).outcome := by
  cases i with
  | text content => exact .ok ()
  | output p rules here =>
    have hp : p.WellFormed := counts p (List.mem_singleton_self p)
    exact Run.safe_bind (hp.eval_safe s) fun _ => .ok ()
  | embed name target data here => exact embeds s target name data here complete counts

/-- Compiled trees whose leaves are complete and whose pipelines are well formed. -/
structure Sound (variants : List Variant) (ts : List (Tree Instruction)) : Prop where
  complete : ∀ i ∈ Tree.leavesOf ts, i.Complete variants
  counts : ∀ p ∈ instructionPipelines ts, p.WellFormed

theorem Sound.cons {t : Tree Instruction} {rest : List (Tree Instruction)}
    (h : Sound variants (t :: rest)) : Sound variants [t] ∧ Sound variants rest := by
  obtain ⟨complete, counts⟩ := h
  rw [Tree.leavesOf, List.forall_mem_append] at complete
  rw [instructionPipelines, Tree.pipelinesOf_cons, List.forall_mem_append] at counts
  refine ⟨⟨?_, ?_⟩, complete.2, counts.2⟩
  · simpa [Tree.leavesOf] using complete.1
  · simpa using counts.1

theorem Sound.block {kind : BlockKind} {subject : Pipeline} {body : List (Tree Instruction)}
    {alternative : Option (List (Tree Instruction))} {here : Location}
    (h : Sound variants [.block kind subject body alternative here]) :
    subject.WellFormed ∧ Sound variants body ∧
      ∀ other, alternative = some other → Sound variants other := by
  have complete (i : Instruction)
      (hi : i ∈ Tree.leaves (.block kind subject body alternative here)) :
      i.Complete variants := h.complete i (by simpa [Tree.leavesOf] using hi)
  have counts (p : Pipeline) (hp : p ∈ Tree.pipelines Instruction.pipelines
      (.block kind subject body alternative here)) : p.WellFormed := h.counts p (by simpa using hp)
  simp only [Tree.mem_leaves_block] at complete
  simp only [Tree.mem_pipelines_block] at counts
  exact ⟨counts subject (.inl rfl),
    ⟨fun i hi => complete i (.inl hi), fun p hp => counts p (.inr (.inl hp))⟩,
    fun other heq => ⟨fun i hi => complete i (.inr ⟨other, heq, hi⟩),
      fun p hp => counts p (.inr (.inr ⟨other, heq, hp⟩))⟩⟩

mutual

theorem tree_safe (embeds : embed.Safe variants) (s : Scope) :
    (t : Tree Instruction) → Sound variants [t] → Safe (tree embed s t).outcome
  | .leaf i, h => by
    rw [tree]
    refine instruction_safe embeds s (h.complete i ?_) fun p hp => h.counts p ?_
    · simp [Tree.leavesOf, Tree.leaves]
    · simpa [Tree.pipelines] using hp
  | .block kind subject body alternative here, h => by
    obtain ⟨hsubject, hbody, helse⟩ := h.block
    have rendered (s : Scope) : Safe (trees embed s body).outcome := trees_safe embeds s body hbody
    have otherwise : Safe (match alternative with
        | none => (pure () : Run Unit)
        | some alternative => trees embed s alternative).outcome := by
      match alternative with
      | none => exact .ok ()
      | some other => exact trees_safe embeds s other (helse other rfl)
    cases kind with
    | cond =>
      unfold tree
      refine Run.safe_bind (hsubject.eval_safe s) fun v => ?_
      split
      · exact rendered s
      · exact otherwise
    | within =>
      unfold tree
      refine Run.safe_bind (hsubject.eval_safe s) fun v => ?_
      split
      · exact rendered (s.push v)
      · exact otherwise
    | each =>
      unfold tree
      refine Run.safe_bind (items_safe hsubject s here) fun values => ?_
      split
      · exact otherwise
      · exact each_safe (fun v => rendered (s.push v)) _

theorem trees_safe (embeds : embed.Safe variants) (s : Scope) :
    (ts : List (Tree Instruction)) → Sound variants ts → Safe (trees embed s ts).outcome
  | [], _ => by
    rw [trees]
    exact .ok ()
  | t :: rest, h => by
    rw [trees]
    exact Run.safe_bind (tree_safe embeds s t h.cons.1) fun _ => trees_safe embeds s rest h.cons.2

end

theorem data_safe {data : Option Pipeline} (h : ∀ p ∈ data.toList, p.WellFormed) (s : Scope) :
    Safe (Render.data s data) := by
  cases data with
  | none => exact .ok _
  | some p => exact (h p (by simp)).eval_safe s

end Render

theorem Program.WellFormed.sound {p : Program} (h : p.WellFormed) {v : Variant} {n : Nat}
    (hv : p.variants[n]? = some v) : Render.Sound p.variants v.body :=
  have mem := List.mem_of_getElem? hv
  ⟨h.complete v mem, h.counts v mem⟩

/-- Embedding in a complete program is safe, down to any depth. -/
theorem Program.WellFormed.embed {p : Program} (h : p.WellFormed) (more : Nat) :
    Render.Embed.Safe (Render.embed p more) p.variants := by
  induction more with
  | zero =>
    rintro s target name data here ⟨v, hv, -⟩ -
    rw [Render.embed, hv]
    exact .error id
  | succ more ih =>
    rintro s target name data here ⟨v, hv, -⟩ hdata
    rw [Render.embed, hv]
    refine Run.safe_bind (.ok ()) fun _ => Run.safe_bind (Render.data_safe hdata s) fun root => ?_
    exact Run.safe_bind (Render.trees_safe ih _ v.body (h.sound hv)) fun _ => .ok ()

/-- No run of a complete program ends in an error of its structure. -/
theorem Program.WellFormed.run {p : Program} (h : p.WellFormed) (root : Value) :
    Safe (p.run root).outcome := by
  obtain ⟨v, hv, -⟩ := h.entry
  unfold Program.run
  rw [hv]
  exact Render.trees_safe (h.embed _) _ v.body (h.sound hv)

/-- Whatever the sink, no run of a complete program into it ends in an error of its structure. -/
theorem Program.WellFormed.execute {p : Program} (h : p.WellFormed) (root : Value) (sink : Sink) :
    Safe (p.execute root sink).2 := by
  unfold Program.execute
  dsimp only
  split
  · cases hr : (p.run root).outcome with
    | ok _ =>
      unfold Sink.finish Sink.flush
      dsimp only
      split
      · exact .error id
      · exact .ok ()
    | error e => exact .error (h.run root e hr)
  · exact .error id

/-- Compiling an entry of a set built from sources never leaves an output without escapers: the
check at its end passes every program. What is compiled is complete, and no run of it ends in an
error of its structure. -/
theorem TemplateSet.Reachable.compiles_complete {set : TemplateSet} (h : set.Reachable)
    (entry : String) :
    (∀ p, Program.unchecked set.templates entry set.config = .ok p → p.checked = .ok p) ∧
    Avoids Error.IsUnescaped (set.compile entry) ∧
    ∀ p, set.compile entry = .ok p →
      p.WellFormed ∧ ∀ root sink, Safe (p.execute root sink).2 := by
  have whole (p : Program) (hp : Program.unchecked set.templates entry set.config = .ok p) :
      p.WellFormed := Program.wellFormed_of_unchecked h.wellFormed hp
  have analysed : Avoids Error.IsUnescaped
      (Program.unchecked set.templates entry set.config) :=
    (Analysis.enter_careful set.templates _ entry .start .outside []).bind fun _ _ => .ok _
  refine ⟨fun p hp => (whole p hp).checked, ?_, fun p hp => ?_⟩
  · unfold TemplateSet.compile
    split
    · rw [Program.compile_eq]
      refine analysed.bind fun p hp => ?_
      rw [(whole p hp).checked]
      exact .ok p
    · exact .error id
  · have complete := whole p (h.wellFormed.compile_eq_ok.mp hp).2
    exact ⟨complete, fun root sink => complete.execute root sink⟩

theorem TemplateSet.Reachable.compiles_complete_memberPage :
    ∃ set p, (TemplateSet.empty .standard).add "main" memberPage = .ok set ∧
      set.compile "main" = .ok p ∧ p.WellFormed ∧ ∀ root sink, Safe (p.execute root sink).2 := by
  obtain ⟨set, p, hset, hp⟩ := memberPage_compiles
  have built : set.Reachable := .add (.empty .standard) hset
  exact ⟨set, p, hset, hp, (built.compiles_complete "main").2.2 p hp⟩

end Stencil
