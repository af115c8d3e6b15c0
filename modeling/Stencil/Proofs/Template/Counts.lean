import Stencil.Program.Policy
import Stencil.Proofs.Template.Pipelines

/-!
# Numbers of arguments

A pipeline is well formed if it has a command, its first command takes what is written in it, and
every later one is a call that takes one value more, the one that is piped in
(`Pipeline.WellFormed`). The reader of pipelines gives no others (`Pipeline.ofTokens_wellFormed`),
so all pipelines of a source are well formed.

The calls of markup escapers at the end of a pipeline are dropped one by one, the last one first: a
call with a pipe before it goes away whole, and of a call without one its argument stays
(`Command.Drops`). A well-formed pipeline has no other calls of escapers there, since these take one
argument (`Pipeline.WellFormed.drops`), and what is left of it is well formed again
(`Pipeline.WellFormed.withoutEscapers`).
-/

set_option autoImplicit false

namespace Stencil

theorem Builtin.takes_eq_true {f : Builtin} {count : Nat} : f.takes count = true ↔
    f.least ≤ count ∧ ∀ n, f.greatest = some n → count ≤ n := by
  cases h : f.greatest <;> simp [takes, h]

/-- A command is complete where a number of values is piped into it: a bare value where none is, and
a call whose function takes that many arguments. -/
def Command.Takes (piped : Nat) : Command → Prop
  | .operand _ => piped = 0
  | .call f args _ => f.takes (args.length + piped) = true

/-- There is a first command, into which nothing is piped, and into each later one a value is. -/
def Pipeline.WellFormed (p : Pipeline) : Prop :=
  ∃ first later, p.commands = first :: later ∧ first.Takes 0 ∧ ∀ c ∈ later, c.Takes 1

/-! ## Reading -/

theorem Command.ofCall_takes {t : Token} {name : String} {glued : List Token}
    {words : List (List Token)} {piped : Nat} {c : Command}
    (h : Command.ofCall t name glued words piped = .ok c) : c.Takes piped := by
  unfold Command.ofCall at h
  split at h
  · cases h
  · cases h
  · split at h
    · cases h
    · obtain ⟨args, -, h₁⟩ := exists_of_bind_eq_ok h
      dsimp only at h₁
      split at h₁
      · next htakes =>
        cases h₁
        exact htakes
      · cases h₁

theorem Command.ofFirst_takes {t : Token} {glued : List Token} {words : List (List Token)}
    {c : Command} (h : Command.ofFirst t glued words = .ok c) : c.Takes 0 := by
  unfold Command.ofFirst at h
  split at h
  · exact Command.ofCall_takes h
  · obtain ⟨⟨o, rest⟩, -, h₁⟩ := exists_of_bind_eq_ok h
    dsimp only at h₁
    split at h₁
    · cases h₁
      rfl
    · cases h₁

theorem Command.ofStage_takes (stage : Token × List Token) (c : Command)
    (h : Command.ofStage stage = .ok c) : c.Takes 1 := by
  unfold Command.ofStage at h
  split at h
  · split at h
    · exact Command.ofCall_takes h
    · cases h
  · cases h

/-- Every pipeline that is read is well formed. -/
theorem Pipeline.ofTokens_wellFormed : Pipeline.OfTokens Pipeline.WellFormed := by
  intro action ts stop p h
  unfold Pipeline.ofTokens at h
  dsimp only at h
  split at h
  · obtain ⟨head, hhead, h₁⟩ := exists_of_bind_eq_ok h
    obtain ⟨rest, hrest, h₂⟩ := exists_of_bind_eq_ok h₁
    cases h₂
    exact ⟨head, rest, rfl, Command.ofFirst_takes hhead,
      forall_mem_of_mapM Command.ofStage_takes hrest⟩
  · cases h
  · cases h

/-! ## Dropping escapers -/

/-- An escaper takes one argument. -/
theorem Builtin.takes_escaper {f : Builtin} (hf : f.isEscaper = true) {count : Nat}
    (h : f.takes count = true) : count = 1 := by
  obtain ⟨least, greatest⟩ := takes_eq_true.mp h
  cases f with
  | html | urlquery => exact Nat.le_antisymm (greatest 1 rfl) least
  | _ => cases hf

namespace Command

/-- A chain does not end in the call of an escaper. -/
def EndsUnescaped (cs : List Command) : Prop :=
  ∀ f args spot, cs.getLast? = some (call f args spot) → f.isEscaper = false

/-- What is left of a chain without the escapers that it ends in, and these in the order in which
they are called. -/
inductive Drops : List Command → List Command → List Builtin → Prop where
  /-- Nothing is dropped from a chain that does not end in an escaper. -/
  | none {cs : List Command} : EndsUnescaped cs → Drops cs cs []
  /-- Of a lone call its argument stays. -/
  | alone {f : Builtin} (o : Operand) (spot : Location) :
    f.isEscaper = true → Drops [call f [o] spot] [operand o] [f]
  /-- A call into which a value is piped goes away. -/
  | piped {cs left : List Command} {fs : List Builtin} {f : Builtin} (spot : Location) :
    cs ≠ [] → f.isEscaper = true → Drops cs left fs →
      Drops (cs ++ [call f [] spot]) left (fs ++ [f])

namespace Drops

variable {cs left : List Command} {fs : List Builtin}

theorem endsUnescaped (h : Drops cs left fs) : EndsUnescaped left := by
  induction h with
  | none ends => exact ends
  | alone => exact nofun
  | piped _ _ _ _ ih => exact ih

theorem eq_of_nil (h : Drops cs left []) : left = cs := by
  generalize hfs : [] = fs at h
  cases h with
  | none => rfl
  | alone => cases hfs
  | piped => exact absurd hfs.symm (List.concat_ne_nil _ _)

/-- What is left of a well-formed chain is well formed. -/
theorem takes (h : Drops cs left fs) {first : Command} {later : List Command}
    (hcs : cs = first :: later) (hfirst : first.Takes 0) (hlater : ∀ c ∈ later, c.Takes 1) :
    ∃ first' later', left = first' :: later' ∧ first'.Takes 0 ∧ ∀ c ∈ later', c.Takes 1 := by
  induction h generalizing later with
  | none => exact ⟨first, later, hcs, hfirst, hlater⟩
  | alone o => exact ⟨.operand o, [], rfl, rfl, nofun⟩
  | piped _ hne _ _ ih =>
    obtain ⟨c, rest, rfl⟩ := List.exists_cons_of_ne_nil hne
    rw [List.cons_append] at hcs
    cases hcs
    exact ih rfl fun c hc => hlater c (List.mem_append_left _ hc)

end Drops

/-- A call behind other commands is dropped if it is one of an escaper. -/
theorem stripReversed_call {earlier : List Command} (h : earlier ≠ []) (here : Location)
    (f : Builtin) (args : List Operand) (spot : Location) :
    stripReversed here (.call f args spot :: earlier) =
      if f.isEscaper then stripReversed here earlier else .call f args spot :: earlier := by
  cases earlier with
  | nil => exact absurd rfl h
  | cons c rest => rfl

/-- Going through a well-formed chain from its end drops the escapers there; the commands are in
reverse. -/
theorem drops_stripReversed {first : Command} (hfirst : first.Takes 0) (here : Location)
    (later : List Command) (hlater : ∀ c ∈ later, c.Takes 1) :
    ∃ fs, Drops (later ++ [first]).reverse (stripReversed here (later ++ [first])).reverse fs := by
  have plain {f : Builtin} (hf : ¬ f.isEscaper = true) (args : List Operand) (spot : Location)
      (earlier : List Command) : EndsUnescaped (call f args spot :: earlier).reverse := by
    intro f' args' spot' hlast
    rw [List.getLast?_reverse, List.head?_cons] at hlast
    cases hlast
    exact Bool.eq_false_iff.mpr hf
  induction later with
  | nil =>
    rw [List.nil_append]
    cases first with
    | operand o => exact ⟨[], .none nofun⟩
    | call f args spot =>
      rw [stripReversed]
      split
      · next hf =>
        obtain ⟨o, rfl⟩ := List.length_eq_one_iff.mp (Builtin.takes_escaper hf hfirst)
        exact ⟨[f], .alone o spot hf⟩
      · next hf => exact ⟨[], .none (plain hf args spot [])⟩
  | cons c later ih =>
    obtain ⟨hc, hrest⟩ := List.forall_mem_cons.mp hlater
    cases c with
    | operand o => exact absurd hc Nat.one_ne_zero
    | call f args spot =>
      rw [List.cons_append, stripReversed_call (List.concat_ne_nil first later)]
      split
      · next hf =>
        have none_written : args = [] :=
          List.eq_nil_of_length_eq_zero (Nat.succ.inj (Builtin.takes_escaper hf hc))
        subst none_written
        obtain ⟨fs, drops⟩ := ih hrest
        rw [List.reverse_cons]
        exact ⟨fs ++ [f], drops.piped spot (by simp) hf⟩
      · next hf => exact ⟨[], .none (plain hf args spot _)⟩

end Command

namespace Pipeline

/-- The escapers at the end of a well-formed pipeline are dropped, and nothing else is. -/
theorem WellFormed.drops {p : Pipeline} (h : p.WellFormed) :
    ∃ fs, Command.Drops p.commands p.withoutEscapers.commands fs := by
  obtain ⟨first, later, hcommands, hfirst, hlater⟩ := h
  obtain ⟨fs, drops⟩ := Command.drops_stripReversed hfirst p.location later.reverse
    (by simpa using hlater)
  have whole : p.commands = (later.reverse ++ [first]).reverse := by
    rw [hcommands, List.reverse_append, List.reverse_reverse]
    rfl
  refine ⟨fs, ?_⟩
  rwa [Pipeline.withoutEscapers, whole, List.reverse_reverse]

/-- A pipeline stays well formed without the markup escapers at its end. -/
theorem WellFormed.withoutEscapers {p : Pipeline} (h : p.WellFormed) :
    p.withoutEscapers.WellFormed := by
  obtain ⟨fs, drops⟩ := h.drops
  obtain ⟨first, later, hcommands, hfirst, hlater⟩ := h
  exact drops.takes hcommands hfirst hlater

end Pipeline

end Stencil
