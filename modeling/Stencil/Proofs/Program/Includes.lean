import Stencil.Proofs.Program.Structure
import Stencil.Proofs.Render.Faults
import Stencil.Proofs.Render.Machine
import Stencil.TemplateSet

/-!
# The limit on embedded templates

A rendering always ends, also where templates embed themselves, and the limit on how many of them
may be active inside one another is exact (`TemplateSet.compile_limits`). It is a statement about
every moment of the rendering, so it is one about the machine of which the execution is the end
(`Machine.eval_start`): the count of active templates is that of the marks among the tasks, it never
passes the limit, and the error of the limit is made where a template is met with the count at the
limit, and nowhere else. Nothing is computed or written from there on.

What a step can do is said once (`Machine.Move`); the invariants are kept by each move.
-/

set_option autoImplicit false

namespace Stencil

open StateTransition

/-! ## Programs that embed only their own variants -/

/-- A template to embed is one of the variants of a program. -/
def Instruction.Linked (p : Program) : Instruction → Prop
  | .embed _ target _ _ => ∃ v, p.variants[target]? = some v
  | _ => True

/-- All templates that a program embeds are its variants. -/
def Program.Linked (p : Program) : Prop :=
  ∀ v ∈ p.variants, ∀ i ∈ Tree.leavesOf v.body, i.Linked p

/-- A program that passes its checks is linked. -/
theorem Program.linked_of_checked {p q : Program} (h : q.checked = .ok p) : p.Linked := by
  unfold Program.checked at h
  obtain ⟨_, passed, hp⟩ := exists_of_bind_eq_ok h
  cases hp
  intro v hv i hi
  have checked := forall_of_forM_eq_ok (forall_of_forM_eq_ok passed v hv) i hi
  cases i with
  | text content => trivial
  | output q rules here => trivial
  | embed name target data here =>
    by_cases within : target < p.variants.length
    · exact ⟨_, List.getElem?_eq_getElem within⟩
    · simp only [if_neg within] at checked
      cases checked

theorem TemplateSet.linked_of_compile {set : TemplateSet} {entry : String} {p : Program}
    (h : set.compile entry = .ok p) : p.Linked := by
  unfold TemplateSet.compile at h
  split at h
  · rw [Program.compile_eq] at h
    obtain ⟨q, -, hchecked⟩ := exists_of_bind_eq_ok h
    exact Program.linked_of_checked hchecked
  · cases h

/-! ## What a step can do -/

namespace Task

/-- Whether a task is the mark where an embedded template is left. -/
def isLeave : Task → Bool
  | .leave => true
  | _ => false

/-- What is written while a task is done. -/
def leaves : Task → List Instruction
  | .trees _ ts => Tree.leavesOf ts
  | .visit _ body _ => Tree.leavesOf body
  | .leave => []

/-- All templates that a task embeds are variants of a program. -/
def Linked (p : Program) (t : Task) : Prop :=
  ∀ i ∈ t.leaves, i.Linked p

/-- Tasks that are parts of a task. -/
def Parts (t : Task) (added : List Task) : Prop :=
  ∀ u ∈ added, u.isLeave = false ∧ u.leaves ⊆ t.leaves

theorem parts_nil (t : Task) : t.Parts [] :=
  List.forall_mem_nil _

/-- What is left of a task is linked if it is. -/
theorem linked_rest {p : Program} {s : Scope} {t : Tree Instruction} {ts : List (Tree Instruction)}
    {rest : List Task} (h : ∀ u ∈ .trees s (t :: ts) :: rest, Linked p u) :
    ∀ u ∈ .trees s ts :: rest, Linked p u := by
  rw [List.forall_mem_cons] at h ⊢
  refine ⟨fun i hi => h.1 i ?_, h.2⟩
  rw [leaves, Tree.leavesOf]
  exact List.mem_append_right _ hi

end Task

/-- A machine works on, or fails for another reason than the limit. -/
def Mode.Ordinary : Mode → Prop
  | .running => True
  | .failing e => ¬ e.IsTooDeep
  | _ => False

namespace Machine

/-- What one step makes of a machine. -/
inductive Move (p : Program) : Machine → Machine → Prop
  /-- A task is done in part, or fails. -/
  | work {t : Task} {rest : List Task} {active : Nat} {sink sink' : Sink} (mode : Mode)
      (added : List Task)
      (ordinary : mode.Ordinary) (plain : t.isLeave = false) (parts : t.Parts added) :
      Move p ⟨.running, t :: rest, active, sink⟩ ⟨mode, added ++ rest, active, sink'⟩
  /-- A template is met while as many as may be are active. -/
  | refuse {s : Scope} {name : String} {target : Nat} {data : Option Pipeline} {here : Location}
      {ts : List (Tree Instruction)} {rest : List Task} {active : Nat} {sink : Sink} {v : Variant}
      (found : p.variants[target]? = some v) (full : p.config.maxDepth ≤ active) :
      Move p ⟨.running, .trees s (.leaf (.embed name target data here) :: ts) :: rest, active, sink⟩
        ⟨.failing (.execution (.tooDeep p.config.maxDepth v.name) here), .trees s ts :: rest,
          active, sink⟩
  /-- A template is met while fewer are active. -/
  | meet {s : Scope} {name : String} {target : Nat} {data : Option Pipeline} {here : Location}
      {ts : List (Tree Instruction)} {rest : List Task} {active : Nat} {sink : Sink} {v : Variant}
      (found : p.variants[target]? = some v) (room : active < p.config.maxDepth) :
      Move p ⟨.running, .trees s (.leaf (.embed name target data here) :: ts) :: rest, active, sink⟩
        ⟨.entering s data v, .trees s ts :: rest, active, sink⟩
  /-- A template is started with its data. -/
  | enter {s s' : Scope} {data : Option Pipeline} {v : Variant} {tasks : List Task} {active : Nat}
      {sink : Sink} :
      Move p ⟨.entering s data v, tasks, active, sink⟩
        ⟨.running, .trees s' v.body :: .leave :: tasks, active + 1, sink⟩
  /-- The data of a template fails. -/
  | spoil {s : Scope} {data : Option Pipeline} {v : Variant} {tasks : List Task} {active : Nat}
      {sink : Sink} {e : Error} (ordinary : ¬ e.IsTooDeep) :
      Move p ⟨.entering s data v, tasks, active, sink⟩ ⟨.failing e, tasks, active, sink⟩
  /-- A template is left, well or failing. -/
  | leave {mode : Mode} {rest : List Task} {active : Nat} {sink : Sink}
      (here : mode = .running ∨ ∃ e, mode = .failing e) :
      Move p ⟨mode, .leave :: rest, active, sink⟩ ⟨mode, rest, active - 1, sink⟩
  /-- A task is given up. -/
  | drop {e : Error} {t : Task} {rest : List Task} {active : Nat} {sink : Sink}
      (plain : t.isLeave = false) :
      Move p ⟨.failing e, t :: rest, active, sink⟩ ⟨.failing e, rest, active, sink⟩
  /-- All is written. -/
  | finish {outcome : Except Error Unit} {active : Nat} {sink sink' : Sink}
      (ordinary : ∀ e, outcome = .error e → ¬ e.IsTooDeep) :
      Move p ⟨.running, [], active, sink⟩ ⟨.ended outcome, [], active, sink'⟩
  /-- All is given up. -/
  | stop {e : Error} {active : Nat} {sink : Sink} :
      Move p ⟨.failing e, [], active, sink⟩ ⟨.ended (.error e), [], active, sink⟩

section

variable {p : Program}

/-- Something put into the sink does not fail for the limit. -/
theorem move_put {t : Task} {added rest : List Task} (plain : t.isLeave = false)
    (parts : t.Parts added) (active : Nat) (sink : Sink) (content : String) :
    Move p ⟨.running, t :: rest, active, sink⟩
      (behind (added ++ rest) active (sink.put content)) := by
  unfold Sink.put
  rcases sink.write content.toUTF8.toList with ⟨sink', _ | _⟩
  · exact .work _ _ id plain parts
  · exact .work _ _ trivial plain parts

/-- A block does not fail for the limit before its trees are rendered. -/
theorem ofBlock_shallow {s : Scope} {kind : BlockKind} {subject : Pipeline}
    {body : List (Tree Instruction)} {alternative : Option (List (Tree Instruction))}
    {here : Location} {e : Error}
    (h : Task.ofBlock s kind subject body alternative here = .error e) : ¬ e.IsTooDeep := by
  have subjects := subject.eval_avoids Error.IsTooDeep.outsidePipelines s
  have visits := Render.items_shallow s subject here
  revert e
  change Avoids Error.IsTooDeep _
  unfold Task.ofBlock
  cases kind with
  | cond => exact subjects.bind fun _ _ => .ok _
  | within => exact subjects.bind fun _ _ => .ok _
  | each => exact visits.bind fun _ _ => .ok _

/-- The tasks of a block are parts of the task it stands in. -/
theorem parts_of_ofBlock {s : Scope} {kind : BlockKind} {subject : Pipeline}
    {body : List (Tree Instruction)} {alternative : Option (List (Tree Instruction))}
    {here : Location} (ts : List (Tree Instruction)) {added : List Task}
    (h : Task.ofBlock s kind subject body alternative here = .ok added) :
    (Task.trees s (.block kind subject body alternative here :: ts)).Parts
      (added ++ [.trees s ts]) := by
  have inside {i : Instruction} (hi : i ∈ Tree.leavesOf body ∨
      ∃ other, alternative = some other ∧ i ∈ Tree.leavesOf other) :
      i ∈ (Task.trees s (.block kind subject body alternative here :: ts)).leaves := by
    rw [Task.leaves, Tree.leavesOf, List.mem_append, Tree.mem_leaves_block]
    exact .inl hi
  have otherwise : ∀ u ∈ Task.ofAlternative s alternative, u.isLeave = false ∧
      u.leaves ⊆ (Task.trees s (.block kind subject body alternative here :: ts)).leaves := by
    cases alternative with
    | none => nofun
    | some other =>
      refine List.forall_mem_singleton.mpr ⟨rfl, fun i hi => inside (.inr ⟨other, rfl, hi⟩)⟩
  have last : Task.isLeave (.trees s ts) = false ∧ (Task.trees s ts).leaves ⊆
      (Task.trees s (.block kind subject body alternative here :: ts)).leaves := by
    refine ⟨rfl, fun i hi => ?_⟩
    rw [Task.leaves, Tree.leavesOf, List.mem_append]
    exact .inr hi
  have both (truth : Bool) (first : Task) (plain : first.isLeave = false)
      (leaves : first.leaves = Tree.leavesOf body) :
      ∀ u ∈ if truth then [first] else Task.ofAlternative s alternative, u.isLeave = false ∧
        u.leaves ⊆ (Task.trees s (.block kind subject body alternative here :: ts)).leaves := by
    cases truth with
    | true => exact List.forall_mem_singleton.mpr ⟨plain, fun i hi => inside (.inl (leaves ▸ hi))⟩
    | false => exact otherwise
  rw [Task.Parts, List.forall_mem_append, List.forall_mem_singleton]
  refine ⟨?_, last⟩
  cases kind with
  | cond =>
    obtain ⟨v, -, hadded⟩ := exists_of_bind_eq_ok h
    cases hadded
    exact both _ _ rfl rfl
  | within =>
    obtain ⟨v, -, hadded⟩ := exists_of_bind_eq_ok h
    cases hadded
    exact both _ _ rfl rfl
  | each =>
    obtain ⟨visited, -, hadded⟩ := exists_of_bind_eq_ok h
    cases hadded
    cases visited with
    | nil => exact otherwise
    | cons v values => exact both true _ rfl rfl

/-- Work on a tree is one of the moves. -/
theorem move_perform (s : Scope) (t : Tree Instruction) (ts : List (Tree Instruction))
    (rest : List Task) (active : Nat) (sink : Sink) :
    Move p ⟨.running, .trees s (t :: ts) :: rest, active, sink⟩
      (perform p s (.trees s ts :: rest) active sink t) := by
  have parts : (Task.trees s (t :: ts)).Parts [.trees s ts] := by
    simp [Task.Parts, Task.isLeave, Task.leaves, Tree.leavesOf]
  unfold perform
  split
  · exact move_put rfl parts active sink _
  · next q rules here =>
    split
    · next e he =>
      have ordinary := q.eval_avoids Error.IsTooDeep.outsidePipelines s e he
      exact .work (.failing e) [.trees s ts] ordinary rfl parts
    · exact move_put rfl parts active sink _
  · split
    · exact .work (.failing _) [.trees s ts] id rfl parts
    · split
      · exact .refuse ‹_› ‹_›
      · exact .meet ‹_› (Nat.lt_of_not_le ‹_›)
  · split
    · next e he =>
      exact .work (.failing e) [.trees s ts] (ofBlock_shallow he) rfl parts
    · next added hadded =>
      have all := parts_of_ofBlock ts hadded
      exact List.append_cons added _ rest ▸ .work .running _ trivial rfl all

/-- A step is one of the moves. -/
theorem Move.of_step {m m' : Machine} (h : step p m = some m') : Move p m m' := by
  obtain ⟨mode, tasks, active, sink⟩ := m
  cases mode with
  | running =>
    cases tasks with
    | nil =>
      cases h
      refine .finish fun e he => ?_
      unfold Sink.flush at he
      split at he
      · cases he
        exact id
      · cases he
    | cons t rest =>
      cases t with
      | leave =>
        cases h
        exact .leave (.inl rfl)
      | visit s body values =>
        cases values with
        | nil =>
          cases h
          exact .work .running [] trivial rfl (Task.parts_nil _)
        | cons v values =>
          cases h
          exact .work .running [.trees (s.push v) body, .visit s body values] trivial rfl
            (by simp [Task.Parts, Task.isLeave, Task.leaves])
      | trees s ts =>
        cases ts with
        | nil =>
          cases h
          exact .work .running [] trivial rfl (Task.parts_nil _)
        | cons t ts =>
          cases h
          exact move_perform s t ts rest active sink
  | entering s data v =>
    cases h
    unfold Machine.enter
    split
    · next e he => exact .spoil (Render.data_avoids Error.IsTooDeep.outsidePipelines s data e he)
    · exact .enter
  | failing e =>
    cases tasks with
    | nil =>
      cases h
      exact .stop
    | cons t rest =>
      cases t with
      | leave =>
        cases h
        exact .leave (.inr ⟨e, rfl⟩)
      | visit s body values =>
        cases h
        exact .drop rfl
      | trees s ts =>
        cases h
        exact .drop rfl
  | ended outcome => cases h

/-! ## Every moment of a rendering -/

/-- What holds of a machine at every moment. -/
structure Sound (p : Program) (m : Machine) : Prop where
  /-- The templates that are active are those of which the trees are being rendered. -/
  counted : m.active = m.tasks.countP Task.isLeave
  bounded : m.active ≤ p.config.maxDepth
  linked : ∀ t ∈ m.tasks, t.Linked p
  /-- There is room for a template whose data is about to be computed. -/
  room : ∀ s data v, m.mode = .entering s data v → v ∈ p.variants ∧ m.active < p.config.maxDepth

theorem Sound.start (linked : p.Linked) (root : Value) (sink : Sink) :
    Sound p (start p root sink) := by
  unfold Machine.start
  split
  · exact ⟨rfl, Nat.zero_le _, nofun, by rintro _ _ _ ⟨⟩⟩
  · next v hv =>
    refine ⟨rfl, Nat.zero_le _, List.forall_mem_singleton.mpr ?_, by rintro _ _ _ ⟨⟩⟩
    exact linked v (List.mem_of_getElem? hv)

theorem countP_isLeave_of_parts {t : Task} {added : List Task} (parts : t.Parts added) :
    added.countP Task.isLeave = 0 := by
  refine List.countP_eq_zero.mpr fun u hu => ?_
  simp [(parts u hu).1]

/-- One move keeps what holds of a machine at every moment. -/
theorem Sound.move (closed : p.Linked) {m m' : Machine} (h : Sound p m) (move : Move p m m') :
    Sound p m' := by
  obtain ⟨counted, bounded, linked, room⟩ := h
  cases move with
  | work _ _ ordinary plain parts =>
    rw [List.forall_mem_cons] at linked
    refine ⟨?_, bounded, List.forall_mem_append.mpr ⟨fun u hu => ?_, linked.2⟩, ?_⟩
    · rw [counted, List.countP_cons_of_neg (by simp [plain]), List.countP_append,
        countP_isLeave_of_parts parts, Nat.zero_add]
    · exact fun i hi => linked.1 i ((parts u hu).2 hi)
    · rintro s data v rfl
      exact ordinary.elim
  | refuse found full => exact ⟨counted, bounded, Task.linked_rest linked, by rintro _ _ _ ⟨⟩⟩
  | meet found free =>
    refine ⟨counted, bounded, Task.linked_rest linked, ?_⟩
    rintro _ _ _ ⟨⟩
    exact ⟨List.mem_of_getElem? found, free⟩
  | @enter s s' data v tasks active sink =>
    obtain ⟨mem, free⟩ := room s data v rfl
    refine ⟨?_, free, ?_, by rintro _ _ _ ⟨⟩⟩
    · rw [List.countP_cons_of_neg Bool.false_ne_true, List.countP_cons_of_pos rfl]
      exact congrArg (· + 1) counted
    · refine List.forall_mem_cons.mpr ⟨closed v mem, List.forall_mem_cons.mpr ⟨nofun, linked⟩⟩
  | spoil ordinary => exact ⟨counted, bounded, linked, by rintro _ _ _ ⟨⟩⟩
  | leave here =>
    refine ⟨?_, Nat.le_trans (Nat.sub_le _ _) bounded, (List.forall_mem_cons.mp linked).2, ?_⟩
    · rw [List.countP_cons_of_pos rfl] at counted
      exact Nat.sub_eq_of_eq_add counted
    · rintro s data v rfl
      simp at here
  | drop plain =>
    refine ⟨?_, bounded, (List.forall_mem_cons.mp linked).2, by rintro _ _ _ ⟨⟩⟩
    rw [counted, List.countP_cons_of_neg (by simp [plain])]
  | finish ordinary => exact ⟨counted, bounded, nofun, by rintro _ _ _ ⟨⟩⟩
  | stop => exact ⟨counted, bounded, nofun, by rintro _ _ _ ⟨⟩⟩

theorem Sound.reaches (closed : p.Linked) {m m' : Machine} (h : Sound p m) (run : Reaches p m m') :
    Sound p m' := by
  induction run with
  | refl => exact h
  | tail _ last ih => exact ih.move closed (.of_step last)

/-! ## The error of the limit -/

/-- A machine stands before a template to embed. -/
def Meets (m : Machine) (name : String) (target : Nat) (data : Option Pipeline) (here : Location) :
    Prop :=
  ∃ s ts rest, m.mode = .running ∧
    m.tasks = .trees s (.leaf (.embed name target data here) :: ts) :: rest

/-- A machine that has failed with an error, and writes nothing any more. -/
structure Failed (e : Error) (sink : Sink) (m : Machine) : Prop where
  mode : m.mode = .failing e ∨ m.mode = .ended (.error e)
  sink : m.sink = sink

theorem Failed.move {e : Error} {sink : Sink} {m m' : Machine} (h : Failed e sink m)
    (move : Move p m m') : Failed e sink m' := by
  obtain ⟨mode, written⟩ := h
  cases move with
  | leave here => exact ⟨mode, written⟩
  | drop plain => exact ⟨mode, written⟩
  | stop =>
    rcases mode with ⟨⟨⟩⟩ | ⟨⟨⟩⟩
    exact ⟨.inr rfl, written⟩
  | _ => rcases mode with ⟨⟨⟩⟩ | ⟨⟨⟩⟩

theorem Failed.reaches {e : Error} {sink : Sink} {m m' : Machine} (h : Failed e sink m)
    (run : Reaches p m m') : Failed e sink m' := by
  induction run with
  | refl => exact h
  | tail _ last ih => exact ih.move (.of_step last)

/-- From every moment of a run that ends, the end is reached. -/
theorem reaches_final {m m' : Machine} {r : Sink × Except Error Unit} (h : Reaches p m m')
    (whole : Reaches p m (final r)) : Reaches p m' (final r) := by
  rcases reaches_total h whole with run | run
  · exact run
  · rcases Relation.ReflTransGen.cases_head run with same | ⟨n, hstep, -⟩
    · exact same ▸ .refl
    · cases hstep

theorem start_ordinary {root : Value} {sink : Sink} {e : Error}
    (h : (start p root sink).mode = .failing e ∨ (start p root sink).mode = .ended (.error e)) :
    ¬ e.IsTooDeep := by
  unfold start at h
  split at h
  · rcases h with ⟨⟨⟩⟩ | ⟨⟨⟩⟩
    exact id
  · rcases h with ⟨⟨⟩⟩ | ⟨⟨⟩⟩

/-- Before a template to embed, with as many active as may be, a machine fails for the limit and
does nothing else. -/
theorem Meets.failed {m : Machine} (h : Sound p m) {name : String} {target : Nat}
    {data : Option Pipeline} {here : Location} (meets : m.Meets name target data here)
    (full : m.active = p.config.maxDepth) : ∃ v, p.variants[target]? = some v ∧
      ∀ n, Reaches p m n → n = m ∨
        Failed (.execution (.tooDeep p.config.maxDepth v.name) here) m.sink n := by
  obtain ⟨s, ts, rest, hmode, htasks⟩ := meets
  obtain ⟨mode, tasks, active, sink⟩ := m
  cases hmode
  cases htasks
  obtain ⟨v, found⟩ : ∃ v, p.variants[target]? = some v := by
    refine (List.forall_mem_cons.mp h.linked).1 (.embed name target data here) ?_
    simp [Task.leaves, Tree.leavesOf, Tree.leaves]
  have refused : step p ⟨.running, .trees s (.leaf (.embed name target data here) :: ts) :: rest,
      active, sink⟩ = some ⟨.failing (.execution (.tooDeep p.config.maxDepth v.name) here),
        .trees s ts :: rest, active, sink⟩ := by
    rw [step, perform, found]
    simp only [if_pos (Nat.le_of_eq full.symm)]
  refine ⟨v, found, fun n hn => ?_⟩
  rcases Relation.ReflTransGen.cases_head hn with same | ⟨m', hstep, run⟩
  · exact .inl same.symm
  · obtain rfl := Option.some.inj (refused.symm.trans hstep)
    have failed : Failed (.execution (.tooDeep p.config.maxDepth v.name) here) sink
        ⟨.failing (.execution (.tooDeep p.config.maxDepth v.name) here), .trees s ts :: rest,
          active, sink⟩ := ⟨.inl rfl, rfl⟩
    exact .inr (failed.reaches run)

/-- A machine that has failed for the limit has stood before a template to embed, with as many
active as may be. -/
theorem exists_meets_of_tooDeep (closed : p.Linked) {m m' : Machine} (h : Sound p m)
    (run : Reaches p m m') (ordinary : ∀ e, m.mode = .failing e ∨ m.mode = .ended (.error e) →
      ¬ e.IsTooDeep) {e : Error} (failed : m'.mode = .failing e ∨ m'.mode = .ended (.error e))
    (deep : e.IsTooDeep) : ∃ n name target data here, Reaches p m n ∧
      n.Meets name target data here ∧ n.active = p.config.maxDepth := by
  induction run generalizing e with
  | refl => exact absurd deep (ordinary e failed)
  | @tail n n' run last ih =>
    have sound : Sound p n := h.reaches closed run
    cases Move.of_step last with
    | work _ _ plain =>
      rcases failed with ⟨⟨⟩⟩ | ⟨⟨⟩⟩
      · exact absurd deep plain
      · exact plain.elim
    | @refuse s name target data here ts rest active sink v found full =>
      exact ⟨_, name, target, data, here, run, ⟨s, ts, rest, rfl, rfl⟩,
        Nat.le_antisymm sound.bounded full⟩
    | spoil plain =>
      rcases failed with ⟨⟨⟩⟩ | ⟨⟨⟩⟩
      exact absurd deep plain
    | leave here => exact ih failed deep
    | drop plain => exact ih failed deep
    | finish plain =>
      rcases failed with ⟨⟨⟩⟩ | ⟨⟨⟩⟩
      exact absurd deep (plain e rfl)
    | stop =>
      rcases failed with ⟨⟨⟩⟩ | ⟨⟨⟩⟩
      exact ih (.inl rfl) deep
    | _ => rcases failed with ⟨⟨⟩⟩ | ⟨⟨⟩⟩

end

end Machine

/-! ## Compiled programs -/

/-- The limit on embedded templates is kept in an execution, and is exact. -/
structure Program.KeepsLimit (p : Program) (root : Value) (sink : Sink) : Prop where
  /-- The execution ends, as the run of a machine, and no template is left active. -/
  ends : Machine.final (p.execute root sink) ∈ eval (Machine.step p) (.start p root sink)
  /-- At every moment the count of active templates is the number of those whose trees are being
  rendered, and no more than the limit. -/
  bounded : ∀ m, Machine.Reaches p (.start p root sink) m →
    m.active = m.tasks.countP Task.isLeave ∧ m.active ≤ p.config.maxDepth
  /-- The execution fails for the limit exactly if a template to embed is met at some moment with
  the count at the limit. -/
  exact : (∃ e, (p.execute root sink).2 = .error e ∧ e.IsTooDeep) ↔
    ∃ m name target data here, Machine.Reaches p (.start p root sink) m ∧
      m.Meets name target data here ∧ m.active = p.config.maxDepth
  /-- From such a moment on all is given up: the error names this template and the location of this
  action, no data is computed, and nothing more is written. -/
  refused : ∀ m name target data here, Machine.Reaches p (.start p root sink) m →
    m.Meets name target data here → m.active = p.config.maxDepth →
      ∃ v, p.variants[target]? = some v ∧
        p.execute root sink =
          (m.sink, .error (.execution (.tooDeep p.config.maxDepth v.name) here)) ∧
        ∀ n, Machine.Reaches p m n → n = m ∨
          n.Failed (.execution (.tooDeep p.config.maxDepth v.name) here) m.sink

/-- Every compiled program keeps the limit, also where templates embed themselves, for every value
and every sink. -/
theorem TemplateSet.compile_keepsLimit {set : TemplateSet} {entry : String} {p : Program}
    (compiled : set.compile entry = .ok p) (root : Value) (sink : Sink) :
    p.KeepsLimit root sink := by
  have closed : p.Linked := TemplateSet.linked_of_compile compiled
  have ends := Machine.eval_start p root sink
  obtain ⟨whole, -⟩ := mem_eval.mp ends
  have sound (m : Machine) (h : Machine.Reaches p (.start p root sink) m) : m.Sound p :=
    (Machine.Sound.start closed root sink).reaches closed h
  have refused : ∀ m name target data here, Machine.Reaches p (.start p root sink) m →
      m.Meets name target data here → m.active = p.config.maxDepth →
        ∃ v, p.variants[target]? = some v ∧
          p.execute root sink =
            (m.sink, .error (.execution (.tooDeep p.config.maxDepth v.name) here)) ∧
          ∀ n, Machine.Reaches p m n → n = m ∨
            n.Failed (.execution (.tooDeep p.config.maxDepth v.name) here) m.sink := by
    intro m name target data here reached meets full
    obtain ⟨v, found, after⟩ := meets.failed (sound m reached) full
    refine ⟨v, found, ?_, after⟩
    rcases after _ (Machine.reaches_final reached whole) with same | ⟨mode, written⟩
    · obtain ⟨s, ts, rest, running, -⟩ := meets
      rw [← same] at running
      cases running
    · obtain outcome : (p.execute root sink).2 = _ := by
        rcases mode with ⟨⟨⟩⟩ | mode
        exact Mode.ended.inj mode
      exact Prod.ext written outcome
  refine ⟨ends, fun m h => ⟨(sound m h).counted, (sound m h).bounded⟩, ⟨?_, ?_⟩, refused⟩
  · rintro ⟨e, he, deep⟩
    exact Machine.exists_meets_of_tooDeep closed (sound _ .refl) whole
      (fun e => Machine.start_ordinary) (.inr (congrArg Mode.ended he)) deep
  · rintro ⟨m, name, target, data, here, reached, meets, full⟩
    obtain ⟨v, -, outcome, -⟩ := refused m name target data here reached meets full
    exact ⟨_, congrArg Prod.snd outcome, rfl⟩

/-- A page that writes a letter and embeds itself, without an end, meets the limit. -/
theorem TemplateSet.compile_keepsLimit_letters :
    ∃ set p, (TemplateSet.empty ⟨.refuse, 3, true⟩).add "main"
        "a\x7b\x7btemplate \"main\" .\x7d\x7d" = .ok set ∧ set.compile "main" = .ok p ∧
      (∀ root, p.KeepsLimit root (.empty none false)) ∧
      ∃ m name target data here, Machine.Reaches p (.start p .null (.empty none false)) m ∧
        m.Meets name target data here ∧ m.active = p.config.maxDepth := by
  have stops : (((TemplateSet.empty ⟨.refuse, 3, true⟩).add "main"
      "a\x7b\x7btemplate \"main\" .\x7d\x7d").bind (·.compile "main")).toOption.any (fun p =>
        decide (¬ Avoids Error.IsTooDeep (p.execute .null (.empty none false)).2)) = true := by
    decide +kernel
  cases hset : (TemplateSet.empty ⟨.refuse, 3, true⟩).add "main"
      "a\x7b\x7btemplate \"main\" .\x7d\x7d" with
  | error e =>
    rw [hset] at stops
    cases stops
  | ok set =>
    rw [hset, Except.bind] at stops
    cases hp : set.compile "main" with
    | error e =>
      rw [hp] at stops
      cases stops
    | ok p =>
      rw [hp] at stops
      have keeps (root : Value) := TemplateSet.compile_keepsLimit hp root (.empty none false)
      have fails := exists_of_not_avoids (of_decide_eq_true stops)
      exact ⟨set, p, rfl, hp, keeps, (keeps .null).exact.mp fails⟩

end Stencil
