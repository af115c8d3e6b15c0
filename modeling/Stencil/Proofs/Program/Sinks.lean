import Stencil.Proofs.Program.Includes

/-!
# Sinks with a bound

A sink that takes a number of bytes and then fails has taken, at the end of an execution, the first
bytes of what the execution writes where nothing bounds it (`Program.execute_bounded`). Whether the
execution fails for its sink is decided by the length of that output alone, and a flush is asked for
only where all of it has been taken and the program has ended well.

The pieces in which a run writes do not matter for this: putting its events into a sink is one write
of all their bytes (`Sink.feed_eq_write`), with pieces that fit only in part and empty ones at the
bound. The machine of an execution computes and writes in turns; it only adds to what its sink has
taken, and flushes it in its last step (`Machine.Touch`).
-/

set_option autoImplicit false

namespace Stencil

open StateTransition

/-- The bytes that events write. -/
def Event.bytes (es : List Event) : List UInt8 :=
  es.flatMap fun e => e.written.toUTF8.toList

namespace Sink

/-- Whether a sink still takes all of some bytes. -/
def Fits (s : Sink) (bytes : List UInt8) : Prop :=
  ∀ n, s.capacity = some n → bytes.length ≤ n - s.taken.length

theorem fits_of_unbounded {s : Sink} (h : s.capacity = none) (bytes : List UInt8) :
    s.Fits bytes := by
  intro n hn
  rw [h] at hn
  cases hn

theorem write_of_fits {s : Sink} {bytes : List UInt8} (h : s.Fits bytes) :
    s.write bytes = ({ s with taken := s.taken ++ bytes }, true) := by
  have whole : s.fitting bytes = bytes := by
    unfold fitting
    split
    · rfl
    · next n hn => exact List.take_of_length_le (h n hn)
  unfold write
  simp [whole]

theorem write_of_not_fits {s : Sink} {bytes : List UInt8} {n : Nat} (hn : s.capacity = some n)
    (h : n - s.taken.length < bytes.length) :
    s.write bytes = ({ s with taken := s.taken ++ bytes.take (n - s.taken.length) }, false) := by
  have part : s.fitting bytes = bytes.take (n - s.taken.length) := by
    unfold fitting
    rw [hn]
  have short : (bytes.take (n - s.taken.length)).length ≠ bytes.length := by
    rw [List.length_take]
    omega
  unfold write
  simp only [part]
  rw [beq_false_of_ne short]

/-- Bytes are written by writing a first part of them and, if that is taken, the rest. -/
theorem write_append (s : Sink) (first second : List UInt8) :
    s.write (first ++ second) = match s.write first with
      | (s, true) => s.write second
      | (s, false) => (s, false) := by
  by_cases fits : s.Fits first
  · rw [write_of_fits fits]
    dsimp only
    by_cases rest : Fits { s with taken := s.taken ++ first } second
    · have all : s.Fits (first ++ second) := by
        intro n hn
        have := fits n hn
        have := rest n hn
        simp only [List.length_append] at this ⊢
        omega
      rw [write_of_fits rest, write_of_fits all, List.append_assoc]
    · simp only [Fits, not_forall, not_le] at rest
      obtain ⟨n, hn, short⟩ := rest
      have room := fits n hn
      have all : n - s.taken.length < (first ++ second).length := by
        simp only [List.length_append] at short ⊢
        omega
      have part := write_of_not_fits (s := { s with taken := s.taken ++ first }) hn short
      rw [part, write_of_not_fits hn all, List.take_append, List.take_of_length_le room]
      simp [Nat.sub_sub]
  · simp only [Fits, not_forall, not_le] at fits
    obtain ⟨n, hn, short⟩ := fits
    have all : n - s.taken.length < (first ++ second).length := by
      rw [List.length_append]
      omega
    rw [write_of_not_fits hn short, write_of_not_fits hn all,
      List.take_append_of_le_length (Nat.le_of_lt short)]

/-- Putting events into a sink is one write of their bytes. -/
theorem feed_eq_write (s : Sink) (es : List Event) : s.feed es = s.write (Event.bytes es) := by
  induction es generalizing s with
  | nil => rw [feed, Event.bytes, List.flatMap_nil, write_of_fits fun _ _ => Nat.zero_le _,
      List.append_nil]
  | cons e rest ih =>
    rw [feed, Event.bytes, List.flatMap_cons, write_append]
    rcases s.write e.written.toUTF8.toList with ⟨s', _ | _⟩
    · rfl
    · exact ih s'

/-- What became of a sink that has taken more, and has not been flushed. -/
structure Extends (s s' : Sink) : Prop where
  taken : s.taken <+: s'.taken
  flushed : s'.flushed = s.flushed

namespace Extends

protected theorem refl (s : Sink) : s.Extends s := ⟨List.prefix_rfl, rfl⟩

protected theorem write (s : Sink) (bytes : List UInt8) : s.Extends (s.write bytes).1 :=
  ⟨List.prefix_append _ _, rfl⟩

protected theorem put (s : Sink) (content : String) : s.Extends (s.put content).1 := by
  have same : (s.put content).1 = (s.write content.toUTF8.toList).1 := by
    unfold Sink.put
    rcases s.write content.toUTF8.toList with ⟨s', _ | _⟩ <;> rfl
  exact same ▸ Extends.write s _

end Extends

end Sink

/-! ## The machine -/

/-- Whether nothing is left to do. -/
def Mode.isEnded : Mode → Bool
  | .ended _ => true
  | _ => false

namespace Machine

variable {p : Program}

/-- What one step does to the sink: more is put into it, or the last step flushes it. -/
inductive Touch : Machine → Machine → Prop where
  | extend {m m' : Machine} (h : m.sink.Extends m'.sink) (unfinished : m.mode.isEnded = false) :
      Touch m m'
  | flush (active : Nat) (sink : Sink) :
      Touch ⟨.running, [], active, sink⟩ ⟨.ended sink.flush.2, [], active, sink.flush.1⟩

theorem extends_behind (tasks : List Task) (active : Nat) {sink : Sink}
    {r : Sink × Except Error Unit} (h : sink.Extends r.1) :
    sink.Extends (behind tasks active r).sink := by
  obtain ⟨sink', e | _⟩ := r
  · exact h
  · exact h

/-- Work on a tree puts more into the sink. -/
theorem extends_perform (s : Scope) (tasks : List Task) (active : Nat) (sink : Sink)
    (t : Tree Instruction) : sink.Extends (perform p s tasks active sink t).sink := by
  unfold perform
  split
  · exact extends_behind tasks active (.put sink _)
  · split
    · exact .refl sink
    · exact extends_behind tasks active (.put sink _)
  · split
    · exact .refl sink
    · split
      · exact .refl sink
      · exact .refl sink
  · split
    · exact .refl sink
    · exact .refl sink

theorem Touch.of_step {m m' : Machine} (h : step p m = some m') : Touch m m' := by
  obtain ⟨mode, tasks, active, sink⟩ := m
  cases mode with
  | running =>
    cases tasks with
    | nil =>
      cases h
      exact .flush active sink
    | cons t rest =>
      cases t with
      | leave =>
        cases h
        exact .extend (.refl sink) rfl
      | visit s body values =>
        cases values with
        | nil | cons v values =>
          cases h
          exact .extend (.refl sink) rfl
      | trees s ts =>
        cases ts with
        | nil =>
          cases h
          exact .extend (.refl sink) rfl
        | cons t ts =>
          cases h
          exact .extend (extends_perform s _ active sink t) rfl
  | entering s data v =>
    cases h
    refine .extend ?_ rfl
    unfold Machine.enter
    split
    · exact .refl sink
    · exact .refl sink
  | failing e =>
    cases tasks with
    | nil =>
      cases h
      exact .extend (.refl sink) rfl
    | cons t rest =>
      cases t with
      | leave | visit s body values | trees s ts =>
        cases h
        exact .extend (.refl sink) rfl
  | ended outcome => cases h

/-- At every moment of a run the sink has taken a first part of what it has taken in the end. -/
theorem taken_prefix_of_reaches {m m' : Machine} (h : Reaches p m m') :
    m.sink.taken <+: m'.sink.taken := by
  induction h with
  | refl => exact List.prefix_rfl
  | tail _ last ih =>
    refine ih.trans ?_
    cases Touch.of_step last with
    | extend h _ => exact h.taken
    | flush active sink => exact List.prefix_rfl

/-- A machine that starts with a sink that has not been flushed flushes it when it ends. -/
theorem ended_of_flushed {m m' : Machine} (h : Reaches p m m') (fresh : m.sink.flushed = false)
    (flushed : m'.sink.flushed = true) : m'.mode.isEnded = true := by
  induction h with
  | refl =>
    rw [fresh] at flushed
    cases flushed
  | tail _ last ih =>
    cases Touch.of_step last with
    | extend h unfinished =>
      rw [ih (h.flushed ▸ flushed)] at unfinished
      cases unfinished
    | flush active sink => rfl

end Machine

/-! ## Executions -/

/-- An execution into a sink that takes everything. -/
def Program.unbounded (p : Program) (root : Value) : Sink × Except Error Unit :=
  p.execute root (.empty none false)

/-- An execution is one write of all that its run writes, and the end of the run. -/
theorem Program.execute_eq_write (p : Program) (root : Value) (s : Sink) :
    p.execute root s = match s.write (Event.bytes (p.run root).events) with
      | (s, true) => s.finish (p.run root).outcome
      | (s, false) => (s, .error (.sink .full)) := by
  rw [← Sink.feed_eq_write]
  rfl

theorem Program.execute_of_fits {p : Program} {root : Value} {s : Sink}
    (h : s.Fits (Event.bytes (p.run root).events)) : p.execute root s =
      Sink.finish { s with taken := s.taken ++ Event.bytes (p.run root).events }
        (p.run root).outcome := by
  rw [execute_eq_write, Sink.write_of_fits h]

theorem Program.unbounded_taken (p : Program) (root : Value) :
    (p.unbounded root).1.taken = Event.bytes (p.run root).events := by
  rw [unbounded, execute_of_fits (Sink.fits_of_unbounded rfl _)]
  cases (p.run root).outcome with
  | ok _ => exact List.nil_append _
  | error e => exact List.nil_append _

theorem Program.unbounded_outcome (p : Program) (root : Value) :
    (p.unbounded root).2 = (p.run root).outcome := by
  rw [unbounded, execute_of_fits (Sink.fits_of_unbounded rfl _)]
  cases (p.run root).outcome with
  | ok _ => rfl
  | error e => rfl

/-- An end where a flush, which is asked for if all went well, fails or not. -/
def Sink.afterFlush (failsFlush : Bool) (r : Except Error Unit) : Except Error Unit :=
  if failsFlush then r.bind fun _ => .error (.sink .flush) else r

theorem Sink.finish_outcome (s : Sink) (r : Except Error Unit) :
    (s.finish r).2 = afterFlush s.failsFlush r := by
  cases r with
  | error e =>
    cases h : s.failsFlush <;> rfl
  | ok _ =>
    rw [finish, flush, afterFlush]
    cases s.failsFlush <;> rfl

theorem Sink.finish_taken (s : Sink) (r : Except Error Unit) :
    (s.finish r).1.taken = s.taken := by
  cases r with
  | ok _ | error e => rfl

theorem Sink.finish_flushed {s : Sink} (fresh : s.flushed = false) (r : Except Error Unit) :
    (s.finish r).1.flushed = true ↔ r = .ok () := by
  cases r with
  | ok _ => simp [finish, flush]
  | error e => simp [finish, fresh]

theorem Machine.start_sink (p : Program) (root : Value) (sink : Sink) :
    (start p root sink).sink = sink := by
  unfold start
  split <;> rfl

/-- A machine that has ended takes no step. -/
theorem Machine.eq_of_ended {p : Program} {m m' : Machine} (ended : m.mode.isEnded = true)
    (h : Reaches p m m') : m' = m := by
  obtain ⟨mode, tasks, active, sink⟩ := m
  rcases Relation.ReflTransGen.cases_head h with same | ⟨n, hstep, -⟩
  · exact same.symm
  · cases mode with
    | ended r => cases hstep
    | running | entering s data v | failing e => cases ended

/-- An execution into a sink that has room for the output. -/
theorem Program.execute_of_le {p : Program} {root : Value} {n : Nat}
    (h : (p.unbounded root).1.taken.length ≤ n) (failsFlush : Bool) :
    p.execute root (.empty (some n) failsFlush) =
      Sink.finish ⟨some n, failsFlush, (p.unbounded root).1.taken, false⟩
        (p.unbounded root).2 := by
  rw [unbounded_taken] at h ⊢
  rw [unbounded_outcome, execute_of_fits]
  · rfl
  · rintro _ ⟨⟩
    exact h

/-- An execution into a sink that has no room for the output. -/
theorem Program.execute_of_lt {p : Program} {root : Value} {n : Nat}
    (h : n < (p.unbounded root).1.taken.length) (failsFlush : Bool) :
    p.execute root (.empty (some n) failsFlush) =
      (⟨some n, failsFlush, (p.unbounded root).1.taken.take n, false⟩, .error (.sink .full)) := by
  rw [unbounded_taken] at h ⊢
  rw [execute_eq_write, Sink.write_of_not_fits rfl (by simpa [Sink.empty] using h)]
  rfl

theorem Program.execute_taken (p : Program) (root : Value) (n : Nat) (failsFlush : Bool) :
    (p.execute root (.empty (some n) failsFlush)).1.taken =
      (p.unbounded root).1.taken.take n := by
  rcases Nat.lt_or_ge n (p.unbounded root).1.taken.length with h | h
  · rw [execute_of_lt h]
  · rw [execute_of_le h, Sink.finish_taken, List.take_of_length_le h]

theorem Program.execute_flushed (p : Program) (root : Value) (n : Nat) (failsFlush : Bool) :
    (p.execute root (.empty (some n) failsFlush)).1.flushed = true ↔
      (p.unbounded root).2 = .ok () ∧ (p.unbounded root).1.taken.length ≤ n := by
  rcases Nat.lt_or_ge n (p.unbounded root).1.taken.length with h | h
  · rw [execute_of_lt h]
    exact ⟨nofun, fun both => absurd both.2 (Nat.not_le_of_lt h)⟩
  · rw [execute_of_le h, Sink.finish_flushed rfl, and_iff_left h]

/-- The sink of an execution at a moment of it. -/
theorem Program.execute_moment {p : Program} {root : Value} {n : Nat} {failsFlush : Bool}
    {m : Machine} (h : Machine.Reaches p (.start p root (.empty (some n) failsFlush)) m) :
    m.sink.taken <+: (p.unbounded root).1.taken.take n ∧
      (m.sink.flushed = true → m.mode.isEnded = true ∧
        m.sink.taken = (p.unbounded root).1.taken ∧ (p.unbounded root).2 = .ok ()) := by
  obtain ⟨whole, -⟩ := mem_eval.mp (Machine.eval_start p root (.empty (some n) failsFlush))
  have rest := Machine.reaches_final h whole
  have taken := p.execute_taken root n failsFlush
  refine ⟨taken ▸ Machine.taken_prefix_of_reaches rest, fun hm => ?_⟩
  have ended : m.mode.isEnded = true :=
    Machine.ended_of_flushed h (by rw [Machine.start_sink]; rfl) hm
  -- what has ended is the execution itself
  have same : (p.execute root (.empty (some n) failsFlush)).1 = m.sink :=
    congrArg Machine.sink (Machine.eq_of_ended ended rest)
  obtain ⟨well, complete⟩ := (p.execute_flushed root n failsFlush).mp (same ▸ hm)
  refine ⟨ended, ?_, well⟩
  rw [← same, taken, List.take_of_length_le complete]

/-- What the bound of a sink does to an execution. -/
structure Program.Bounded (p : Program) (root : Value) (n : Nat) (failsFlush : Bool) : Prop where
  /-- The sink takes the first bytes of the output, as many as it has room for. -/
  taken : (p.execute root (.empty (some n) failsFlush)).1.taken = (p.unbounded root).1.taken.take n
  /-- An output that does not fit ends in the error of the sink. -/
  short : n < (p.unbounded root).1.taken.length →
    (p.execute root (.empty (some n) failsFlush)).2 = .error (.sink .full)
  /-- One that fits ends as without a bound, but for the flush. -/
  enough : (p.unbounded root).1.taken.length ≤ n →
    (p.execute root (.empty (some n) failsFlush)).2 =
      Sink.afterFlush failsFlush (p.unbounded root).2
  /-- A flush is asked for exactly where all went well and all was taken. -/
  flushed : (p.execute root (.empty (some n) failsFlush)).1.flushed = true ↔
    (p.unbounded root).2 = .ok () ∧ (p.unbounded root).1.taken.length ≤ n
  /-- The execution is the end of a machine that computes and writes in turns. -/
  ends : Machine.final (p.execute root (.empty (some n) failsFlush)) ∈
    eval (Machine.step p) (.start p root (.empty (some n) failsFlush))
  /-- At every moment of it the sink has taken a first part of these bytes, and it is not flushed
  before the output is complete. -/
  moments : ∀ m, Machine.Reaches p (.start p root (.empty (some n) failsFlush)) m →
    m.sink.taken <+: (p.unbounded root).1.taken.take n ∧
      (m.sink.flushed = true → m.mode.isEnded = true ∧
        m.sink.taken = (p.unbounded root).1.taken ∧ (p.unbounded root).2 = .ok ())

/-- Into a sink that takes `n` bytes and then fails, an execution writes the first `n` bytes of what
it writes into one without a bound, whatever is computed and written on the way. It fails for the
sink if there are more, and ends as without a bound if not; a flush is asked for only where all went
well and all was taken, and the error of a flush that fails is reported with all bytes taken. -/
theorem Program.execute_bounded (p : Program) (root : Value) :
    (∀ n failsFlush, p.Bounded root n failsFlush) ∧
      (p.execute root (.empty none true)).1.taken = (p.unbounded root).1.taken ∧
      (p.execute root (.empty none true)).2 = Sink.afterFlush true (p.unbounded root).2 := by
  refine ⟨fun n failsFlush => ⟨p.execute_taken root n failsFlush, fun short => ?_,
    fun enough => ?_, p.execute_flushed root n failsFlush, Machine.eval_start p root _,
    fun m => execute_moment⟩, ?_, ?_⟩
  · rw [execute_of_lt short]
  · rw [execute_of_le enough, Sink.finish_outcome]
  · rw [execute_of_fits (Sink.fits_of_unbounded rfl _), Sink.finish_taken, unbounded_taken]
    exact List.nil_append _
  · rw [execute_of_fits (Sink.fits_of_unbounded rfl _), Sink.finish_outcome, unbounded_outcome]
    rfl

end Stencil
