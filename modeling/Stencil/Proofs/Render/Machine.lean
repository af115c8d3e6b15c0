import Mathlib.Computability.StateTransition
import Stencil.Render.Sink

/-!
# Rendering step by step

A rendering as the run of a machine (`Machine.step`). A machine keeps a list of tasks, the number of
embedded templates that are active, and the sink it writes to. What it meets at the head of a task
is done at once, or becomes tasks of its own: the trees of a block, one round of a loop, the trees
of an embedded template with a mark behind them where the template is left. A machine that fails
gives up its tasks one by one, and counts down at each mark.

The machine gives what `Program.execute` gives (`Machine.eval_start`): from any start it comes to an
end, with the sink and the outcome of the execution, no task left and no template active. This is
proved over any tasks that wait behind what is rendered, by induction on how many templates may
still become active and, within one template, on its trees.
-/

set_option autoImplicit false

namespace Stencil

open StateTransition

/-! ## Machines -/

/-- What a machine has still to do. -/
inductive Task where
  /-- Trees are rendered. -/
  | trees (s : Scope) (ts : List (Tree Instruction))
  /-- Trees are rendered with each of some values as the current one. -/
  | visit (s : Scope) (body : List (Tree Instruction)) (values : List Value)
  /-- An embedded template is left. -/
  | leave

/-- What a machine is about to do. -/
inductive Mode where
  /-- Work on the first task. -/
  | running
  /-- Compute the data of an embedded template, and start it. -/
  | entering (s : Scope) (data : Option Pipeline) (v : Variant)
  /-- Give up all tasks. -/
  | failing (e : Error)
  /-- Nothing more. -/
  | ended (outcome : Except Error Unit)

/-- A rendering in the course of its work. -/
structure Machine where
  mode : Mode
  tasks : List Task
  /-- The number of embedded templates that are active. -/
  active : Nat
  sink : Sink

/-- The tasks of an alternative, if there is one. -/
def Task.ofAlternative (s : Scope) : Option (List (Tree Instruction)) → List Task
  | none => []
  | some other => [.trees s other]

/-- The tasks that a block comes to, by the value of its subject. -/
def Task.ofBlock (s : Scope) (kind : BlockKind) (subject : Pipeline)
    (body : List (Tree Instruction)) (alternative : Option (List (Tree Instruction)))
    (here : Location) : Except Error (List Task) :=
  match kind with
  | .cond => do
    let v ← subject.eval s
    pure (if v.isTruthy then [.trees s body] else ofAlternative s alternative)
  | .within => do
    let v ← subject.eval s
    pure (if v.isTruthy then [.trees (s.push v) body] else ofAlternative s alternative)
  | .each => do
    let visited ← Render.items s subject here
    pure (if visited.isEmpty then ofAlternative s alternative else [.visit s body visited])

/-- Writes a text. -/
def Sink.put (s : Sink) (content : String) : Sink × Except Error Unit :=
  match s.write content.toUTF8.toList with
  | (s, true) => (s, .ok ())
  | (s, false) => (s, .error (.sink .full))

namespace Machine

/-- A machine behind a part of its work: it works on, or fails, as the part ended. -/
def behind (tasks : List Task) (active : Nat) : Sink × Except Error Unit → Machine
  | (sink, .ok _) => ⟨.running, tasks, active, sink⟩
  | (sink, .error e) => ⟨.failing e, tasks, active, sink⟩

/-- Works on a tree, with some tasks behind it. Of a template to embed only its place and the limit
are looked at. -/
def perform (p : Program) (s : Scope) (tasks : List Task) (active : Nat) (sink : Sink) :
    Tree Instruction → Machine
  | .leaf (.text content) => behind tasks active (sink.put content)
  | .leaf (.output q rules _) =>
    match q.eval s with
    | .error e => ⟨.failing e, tasks, active, sink⟩
    | .ok v => behind tasks active (sink.put (String.ofList (Escaper.apply rules v)))
  | .leaf (.embed name target data here) =>
    match p.variants[target]? with
    | none => ⟨.failing (.undefined name here), tasks, active, sink⟩
    | some v =>
      if p.config.maxDepth ≤ active then
        ⟨.failing (.execution (.tooDeep p.config.maxDepth v.name) here), tasks, active, sink⟩
      else ⟨.entering s data v, tasks, active, sink⟩
  | .block kind subject body alternative here =>
    match Task.ofBlock s kind subject body alternative here with
    | .error e => ⟨.failing e, tasks, active, sink⟩
    | .ok added => ⟨.running, added ++ tasks, active, sink⟩

/-- Starts the trees of an embedded template with its data, and marks where it is left. -/
def enter (p : Program) (v : Variant) (tasks : List Task) (active : Nat) (sink : Sink) :
    Except Error Value → Machine
  | .error e => ⟨.failing e, tasks, active, sink⟩
  | .ok root => ⟨.running, .trees (.start root p.config.missingKey) v.body :: .leave :: tasks,
      active + 1, sink⟩

/-- One step of a machine. -/
def step (p : Program) : Machine → Option Machine
  | ⟨.running, [], active, sink⟩ => some ⟨.ended sink.flush.2, [], active, sink.flush.1⟩
  | ⟨.running, .trees _ [] :: rest, active, sink⟩ => some ⟨.running, rest, active, sink⟩
  | ⟨.running, .trees s (t :: ts) :: rest, active, sink⟩ =>
    some (perform p s (.trees s ts :: rest) active sink t)
  | ⟨.running, .visit _ _ [] :: rest, active, sink⟩ => some ⟨.running, rest, active, sink⟩
  | ⟨.running, .visit s body (v :: values) :: rest, active, sink⟩ =>
    some ⟨.running, .trees (s.push v) body :: .visit s body values :: rest, active, sink⟩
  | ⟨.running, .leave :: rest, active, sink⟩ => some ⟨.running, rest, active - 1, sink⟩
  | ⟨.entering s data v, tasks, active, sink⟩ =>
    some (enter p v tasks active sink (Render.data s data))
  | ⟨.failing e, [], active, sink⟩ => some ⟨.ended (.error e), [], active, sink⟩
  | ⟨.failing e, .leave :: rest, active, sink⟩ => some ⟨.failing e, rest, active - 1, sink⟩
  | ⟨.failing e, _ :: rest, active, sink⟩ => some ⟨.failing e, rest, active, sink⟩
  | ⟨.ended _, _, _, _⟩ => none

/-- A machine that is to render a value into a sink. -/
def start (p : Program) (root : Value) (sink : Sink) : Machine :=
  match p.variants[p.entry]? with
  | none => ⟨.failing (.undefined p.name .outside), [], 0, sink⟩
  | some v => ⟨.running, [.trees (.start root p.config.missingKey) v.body], 0, sink⟩

/-- A machine that has come to an end. -/
def final (r : Sink × Except Error Unit) : Machine := ⟨.ended r.2, [], 0, r.1⟩

/-- The steps of a machine, any number of them. -/
abbrev Reaches (p : Program) : Machine → Machine → Prop := StateTransition.Reaches (step p)

end Machine

/-! ## Runs and sinks -/

namespace Sink

variable {α β : Type}

/-- The events of a run put into a sink, and how this ends. -/
def take (s : Sink) (r : Run α) : Sink × Except Error α :=
  match s.feed r.events with
  | (s, true) => (s, r.outcome)
  | (s, false) => (s, .error (.sink .full))

theorem feed_append (s : Sink) (es es' : List Event) :
    s.feed (es ++ es') = match s.feed es with
      | (s, true) => s.feed es'
      | (s, false) => (s, false) := by
  induction es generalizing s with
  | nil => rfl
  | cons e es ih =>
    rw [List.cons_append, feed, feed]
    split
    · exact ih _
    · rfl

/-- A run that goes on is put into a sink by putting its parts into it. -/
theorem take_bind (s : Sink) (r : Run α) (next : α → Run β) :
    s.take (r >>= next) = match s.take r with
      | (s, .ok a) => s.take (next a)
      | (s, .error e) => (s, .error e) := by
  cases houtcome : r.outcome with
  | error e =>
    rw [Run.bind_of_error houtcome, take, take, houtcome]
    rcases s.feed r.events with ⟨s, _ | _⟩ <;> rfl
  | ok a =>
    rw [Run.bind_of_ok houtcome, take, take, feed_append, houtcome]
    rcases s.feed r.events with ⟨s, _ | _⟩ <;> rfl

@[simp] theorem take_ofExcept (s : Sink) (r : Except Error α) : s.take (.ofExcept r) = (s, r) :=
  rfl

theorem take_emit (s : Sink) (e : Event) : s.take (.emit e) = s.put e.written := by
  rw [take, put, Run.emit, feed]
  rcases s.write e.written.toUTF8.toList with ⟨s, _ | _⟩ <;> rfl

/-- An event that writes nothing leaves a sink as it is. -/
theorem take_emit_of_written {e : Event} (h : e.written = "") (s : Sink) :
    s.take (.emit e) = (s, .ok ()) := by
  have none_written : e.written.toUTF8.toList = [] := by
    rw [h]
    simp [ByteArray.toList, ByteArray.toList.loop]
  have whole : s.write [] = (s, true) := by
    have fits : s.fitting [] = [] := by
      unfold fitting
      split <;> simp
    unfold write
    simp [fits]
  rw [take_emit, put, none_written, whole]

end Sink

/-- An execution is the run put into the sink, and finished. -/
theorem Program.execute_eq (p : Program) (root : Value) (s : Sink) :
    p.execute root s = (s.take (p.run root)).1.finish (s.take (p.run root)).2 := by
  unfold Program.execute Sink.take
  dsimp only
  rcases s.feed (p.run root).events with ⟨s, _ | _⟩ <;> rfl

/-! ## What a machine comes to -/

namespace Machine

variable {p : Program}

theorem Reaches.step {m m' : Machine} (h : m.step p = some m') : Reaches p m m' :=
  .single h

/-- Behind a part of the work, a task is done or given up. -/
theorem Reaches.bind {m : Machine} {t : Task} {rest : List Task} {active : Nat} {sink : Sink}
    {r r' : Run Unit} (first : Reaches p m (behind (t :: rest) active (sink.take r)))
    (second : ∀ sink : Sink,
      Reaches p ⟨.running, t :: rest, active, sink⟩ (behind rest active (sink.take r')))
    (mark : t ≠ .leave) : Reaches p m (behind rest active (sink.take (r >>= fun _ => r'))) := by
  rw [Sink.take_bind]
  rcases hr : sink.take r with ⟨sink', e | _⟩
  · rw [hr] at first
    refine first.tail ?_
    cases t with
    | leave => exact absurd rfl mark
    | trees s ts => rfl
    | visit s body values => rfl
  · rw [hr] at first
    exact first.trans (second sink')

/-- Where something is computed first, a machine goes on with it or fails. -/
theorem reaches_ofExcept {α : Type} {m : Machine} {tasks : List Task} {active : Nat} {sink : Sink}
    (x : Except Error α) (next : α → Run Unit)
    (error : ∀ e, x = .error e → Reaches p m ⟨.failing e, tasks, active, sink⟩)
    (ok : ∀ a, x = .ok a → Reaches p m (behind tasks active (sink.take (next a)))) :
    Reaches p m (behind tasks active (sink.take (Run.ofExcept x >>= next))) := by
  rw [Sink.take_bind, Sink.take_ofExcept]
  cases x with
  | error e => exact error e rfl
  | ok a => exact ok a rfl

/-- A machine does what embedding does, while a number of templates are active. -/
def Embeds (p : Program) (active : Nat) (embed : Render.Embed) : Prop :=
  ∀ s name target data here tasks sink,
    Reaches p (perform p s tasks active sink (.leaf (.embed name target data here)))
      (behind tasks active (sink.take (embed s target name data here)))

variable {active : Nat} {embed : Render.Embed}

/-- One of two ways to go on. -/
theorem reaches_choice {first second tasks : List Task} {sink : Sink} {r r' : Run Unit}
    (h : Reaches p ⟨.running, first ++ tasks, active, sink⟩ (behind tasks active (sink.take r)))
    (h' : Reaches p ⟨.running, second ++ tasks, active, sink⟩ (behind tasks active (sink.take r')))
    (truth : Bool) : Reaches p ⟨.running, (if truth then first else second) ++ tasks, active, sink⟩
      (behind tasks active (sink.take (if truth then r else r'))) := by
  cases truth with
  | true => exact h
  | false => exact h'

/-- A loop over some values. -/
theorem reaches_visit {s : Scope} {body : List (Tree Instruction)}
    (h : ∀ s tasks sink, Reaches p ⟨.running, .trees s body :: tasks, active, sink⟩
      (behind tasks active (sink.take (Render.trees embed s body))))
    (values : List Value) (tasks : List Task) (sink : Sink) :
    Reaches p ⟨.running, .visit s body values :: tasks, active, sink⟩
      (behind tasks active
        (sink.take (Render.each (fun v => Render.trees embed (s.push v) body) values))) := by
  induction values generalizing sink with
  | nil => exact .step rfl
  | cons v values ih =>
    rw [Render.each]
    exact .head rfl (Reaches.bind (h (s.push v) _ sink) ih nofun)

mutual

theorem reaches_tree (embeds : Embeds p active embed) (s : Scope) :
    (t : Tree Instruction) → ∀ tasks sink, Reaches p (perform p s tasks active sink t)
      (behind tasks active (sink.take (Render.tree embed s t)))
  | .leaf (.text content), tasks, sink => by
    rw [Render.tree, Render.instruction, Sink.take_emit]
    exact .refl
  | .leaf (.output q rules here), tasks, sink => by
    rw [Render.tree, Render.instruction, perform]
    refine reaches_ofExcept _ _ (fun e he => ?_) fun v hv => ?_
    · rw [he]
      exact .refl
    · rw [hv, Sink.take_emit]
      exact .refl
  | .leaf (.embed name target data here), tasks, sink => by
    rw [Render.tree, Render.instruction]
    exact embeds s name target data here tasks sink
  | .block kind subject body alternative here, tasks, sink => by
    have rendered (s : Scope) (tasks : List Task) (sink : Sink) :=
      reaches_trees embeds s body tasks sink
    have otherwise : Reaches p ⟨.running, Task.ofAlternative s alternative ++ tasks, active, sink⟩
        (behind tasks active (sink.take (match alternative with
          | none => pure ()
          | some alternative => Render.trees embed s alternative))) := by
      match alternative with
      | none => exact .refl
      | some other => exact reaches_trees embeds s other tasks sink
    rw [perform]
    cases kind with
    | cond =>
      unfold Render.tree
      rw [Task.ofBlock]
      refine reaches_ofExcept _ _ (fun e he => ?_) fun v hv => ?_
      · rw [he]
        exact .refl
      · rw [hv]
        exact reaches_choice (rendered s tasks sink) otherwise v.isTruthy
    | within =>
      unfold Render.tree
      rw [Task.ofBlock]
      refine reaches_ofExcept _ _ (fun e he => ?_) fun v hv => ?_
      · rw [he]
        exact .refl
      · rw [hv]
        exact reaches_choice (rendered (s.push v) tasks sink) otherwise v.isTruthy
    | each =>
      unfold Render.tree
      rw [Task.ofBlock]
      refine reaches_ofExcept _ _ (fun e he => ?_) fun visited hvisited => ?_
      · rw [he]
        exact .refl
      · rw [hvisited]
        cases visited with
        | nil => exact otherwise
        | cons v values => exact reaches_visit rendered (v :: values) tasks sink

/-- Trees at the head of the tasks are rendered, whatever waits behind them. -/
theorem reaches_trees (embeds : Embeds p active embed) (s : Scope) :
    (ts : List (Tree Instruction)) → ∀ tasks sink,
      Reaches p ⟨.running, .trees s ts :: tasks, active, sink⟩
        (behind tasks active (sink.take (Render.trees embed s ts)))
  | [], tasks, sink => by
    rw [Render.trees]
    exact .step rfl
  | t :: ts, tasks, sink => by
    rw [Render.trees]
    exact .head rfl (Reaches.bind (reaches_tree embeds s t _ sink)
      (fun sink => reaches_trees embeds s ts tasks sink) nofun)

end

/-- A machine embeds as deeply as rendering does. -/
theorem embeds_embed (more : Nat) (total : active + more = p.config.maxDepth) :
    Embeds p active (Render.embed p more) := by
  induction more generalizing active with
  | zero =>
    intro s name target data here tasks sink
    have full : p.config.maxDepth ≤ active := by omega
    rw [perform, Render.embed]
    cases p.variants[target]? with
    | none => exact .refl
    | some v =>
      simp only [if_pos full]
      exact .refl
  | succ more ih =>
    intro s name target data here tasks sink
    have room : ¬ p.config.maxDepth ≤ active := by omega
    rw [perform, Render.embed]
    cases p.variants[target]? with
    | none => exact .refl
    | some v =>
      simp only [if_neg room]
      rw [Sink.take_bind, Sink.take_emit_of_written rfl]
      refine reaches_ofExcept _ _ (fun e he => .step ?_) fun root hroot => ?_
      · rw [step, he, enter]
      · have entered : step p ⟨.entering s data v, tasks, active, sink⟩ =
            some ⟨.running, .trees (.start root p.config.missingKey) v.body :: .leave :: tasks,
              active + 1, sink⟩ := by
          rw [step, hroot, enter]
        refine .head entered ((reaches_trees (ih (by omega)) _ v.body _ sink).trans ?_)
        -- the template is left, whether it ended well or not
        rw [Sink.take_bind]
        rcases sink.take _ with ⟨sink, e | _⟩
        · exact Reaches.step rfl
        · have quiet : sink.take (.emit .leave) = (sink, .ok ()) :=
            Sink.take_emit_of_written rfl sink
          simp only [quiet]
          exact Reaches.step rfl

/-- A machine comes to an end, with what the execution of its program gives. -/
theorem eval_start (p : Program) (root : Value) (sink : Sink) :
    final (p.execute root sink) ∈ eval (step p) (start p root sink) := by
  have finished (r : Sink × Except Error Unit) :
      step p (behind [] 0 r) = some (final (r.1.finish r.2)) := by
    obtain ⟨sink, e | _⟩ := r
    · rfl
    · rfl
  have rendered : Reaches p (start p root sink) (behind [] 0 (sink.take (p.run root))) := by
    unfold start Program.run
    cases p.variants[p.entry]? with
    | none => exact .refl
    | some v => exact reaches_trees (embeds_embed _ (Nat.zero_add _)) _ v.body [] sink
  rw [Program.execute_eq]
  exact mem_eval.mpr ⟨rendered.tail (finished _), rfl⟩

end Machine

end Stencil
