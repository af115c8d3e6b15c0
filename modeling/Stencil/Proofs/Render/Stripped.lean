import Stencil.Proofs.Template.Counts
import Stencil.Render.Eval

/-!
# Pipelines without the escapers at their ends

An escaper takes the value piped into it, or its one written argument, and never fails. So a chain
of commands gives what it gives without the escapers at its end, escaped by those that were dropped
(`Command.Drops.chain`), and dropping the calls drops what they compute and nothing else
(`Source.parse_withoutEscapers`): a pipeline fails exactly where it fails without them, and with the
same error.
-/

set_option autoImplicit false

namespace Stencil

/-- A value escaped by one of the functions that escape for markup. -/
def Builtin.escaped (f : Builtin) (v : Value) : Value :=
  match f with
  | .urlquery => printed Escape.urlQuery [v]
  | _ => printed Escape.html [v]

theorem Builtin.apply_escaper {f : Builtin} (hf : f.isEscaper = true) (v : Value) :
    f.apply [v] = .ok (f.escaped v) := by
  cases f <;> first | rfl | cases hf

/-- How a function that escapes for markup rewrites a printed text. -/
def Builtin.escapeText (f : Builtin) : List Char → List Char :=
  match f with
  | .urlquery => Escape.urlQuery
  | _ => Escape.html

theorem Builtin.escaped_eq (f : Builtin) (v : Value) :
    f.escaped v = .string (String.ofList (f.escapeText v.chars)) := by
  cases f <;> rfl

/-- Escapers one after another rewrite the printed value one after another. -/
theorem Builtin.foldl_escaped {fs : List Builtin} (h : fs ≠ []) (v : Value) :
    fs.foldl (fun v f => f.escaped v) v =
      .string (String.ofList (fs.foldl (fun cs f => f.escapeText cs) v.chars)) := by
  have texts (fs : List Builtin) (cs : List Char) :
      fs.foldl (fun v f => f.escaped v) (.string (String.ofList cs)) =
        .string (String.ofList (fs.foldl (fun cs f => f.escapeText cs) cs)) := by
    induction fs generalizing cs with
    | nil => rfl
    | cons f fs ih =>
      have printed : (Value.string (String.ofList cs)).chars = cs := String.toList_ofList
      rw [List.foldl_cons, escaped_eq, printed, ih, List.foldl_cons]
  cases fs with
  | nil => exact absurd rfl h
  | cons f fs => rw [List.foldl_cons, escaped_eq, texts, List.foldl_cons]

namespace Command

/-- A call of an escaper computes its arguments, written or piped in, and escapes them. -/
theorem evalCall_escaper (s : Scope) {f : Builtin} (hf : f.isEscaper = true)
    (args : List Operand) (here : Location) (piped : Option Value) :
    evalCall s f args here piped = (do
      let values ← args.mapM (Operand.eval s)
      match f.apply (values ++ piped.toList) with
      | .ok v => pure v
      | .error fault => .error (.execution fault here)) := by
  cases f with
  | html | urlquery => rfl
  | _ => cases hf

theorem evalAll_append (s : Scope) (piped : Option Value) (cs ds : List Command) :
    evalAll s piped (cs ++ ds) = evalAll s piped cs >>= fun v => evalAll s v ds := by
  induction cs generalizing piped with
  | nil => rfl
  | cons c rest ih =>
    rw [List.cons_append, evalAll, evalAll, bind_assoc]
    congr
    funext v
    exact ih (some v)

/-- The value of a chain of commands into which nothing is piped. -/
def chain (s : Scope) (cs : List Command) : Except Error Value :=
  (evalAll s none cs).map (·.getD .null)

theorem evalAll_eq_chain (s : Scope) {cs : List Command} (h : cs ≠ []) :
    evalAll s none cs = (chain s cs).map some := by
  have some_of (v : Value) (cs : List Command) :
      evalAll s (some v) cs = ((evalAll s (some v) cs).map (·.getD .null)).map some := by
    induction cs generalizing v with
    | nil => rfl
    | cons c rest ih =>
      rw [evalAll]
      cases c.eval s (some v) with
      | error e => rfl
      | ok w => exact ih w
  cases cs with
  | nil => exact absurd rfl h
  | cons c rest =>
    rw [chain, evalAll]
    cases c.eval s none with
    | error e => rfl
    | ok v => exact some_of v rest

/-- An escaper into which a value is piped escapes it, and nothing can fail. -/
theorem chain_append_escaper (s : Scope) {cs : List Command} (h : cs ≠ []) {f : Builtin}
    (hf : f.isEscaper = true) (spot : Location) :
    chain s (cs ++ [call f [] spot]) = (chain s cs).map f.escaped := by
  rw [chain, evalAll_append, evalAll_eq_chain s h]
  cases chain s cs with
  | error e => rfl
  | ok v =>
    have applied : evalCall s f [] spot (some v) = .ok (f.escaped v) := by
      rw [evalCall_escaper s hf, List.mapM_nil, pure_bind, Option.toList_some, List.nil_append,
        Builtin.apply_escaper hf]
      rfl
    change (evalCall s f [] spot (some v) >>= fun w => evalAll s (some w) []).map _ = _
    rw [applied]
    rfl

/-- An escaper at the start of a chain escapes its argument. -/
theorem chain_escaper (s : Scope) {f : Builtin} (hf : f.isEscaper = true) (o : Operand)
    (spot : Location) : chain s [call f [o] spot] = (chain s [operand o]).map f.escaped := by
  have left : chain s [operand o] = o.eval s := by
    change ((o.eval s >>= fun v => evalAll s (some v) []).map _ : Except Error Value) = _
    cases o.eval s <;> rfl
  rw [left]
  change ((evalCall s f [o] spot none >>= fun v => evalAll s (some v) []).map _ :
    Except Error Value) = _
  rw [evalCall_escaper s hf, List.mapM_cons, List.mapM_nil]
  cases o.eval s with
  | error e => rfl
  | ok v =>
    change ((match f.apply [v] with
      | .ok v => pure v
      | .error fault => .error (.execution fault spot) : Except Error Value) >>=
        fun v => evalAll s (some v) []).map _ = _
    rw [Builtin.apply_escaper hf]
    rfl

/-- A chain gives what is left of it gives, escaped by the functions that were dropped. -/
theorem Drops.chain {cs left : List Command} {fs : List Builtin} (h : Drops cs left fs)
    (s : Scope) :
    Command.chain s cs = (Command.chain s left).map (fs.foldl fun v f => f.escaped v) := by
  induction h with
  | none => cases Command.chain s _ <;> rfl
  | alone o spot hf => exact chain_escaper s hf o spot
  | piped spot hcs hf _ ih =>
    rw [chain_append_escaper s hcs hf, ih]
    cases Command.chain s _ with
    | error e => rfl
    | ok v => simp [Except.map]

end Command

namespace Pipeline

/-- A pipeline gives what it gives without the escapers that are dropped, escaped by these. -/
theorem eval_of_drops {p : Pipeline} {fs : List Builtin}
    (h : Command.Drops p.commands p.withoutEscapers.commands fs) (s : Scope) :
    p.eval s = (p.withoutEscapers.eval s).map (fs.foldl fun v f => f.escaped v) :=
  h.chain s

end Pipeline

/-- **Dropping the escapers at the end of a pipeline only drops these calls.** For every pipeline of
a source that parses there are escapers, in the order in which they are called, such that what is
left without them is a well-formed pipeline, which ends in no further one. It is the pipeline itself
if there are none, and it fails exactly where the pipeline fails and with the same error. If there
are some and it gives a value, then the pipeline gives the printed value, as the escapers rewrite it
one after another. -/
theorem Source.parse_withoutEscapers {name text : String} {source : Source}
    (h : Source.parse name text = .ok source) {t : Template}
    (ht : t ∈ source.main :: source.defines) {p : Pipeline} (hp : p ∈ piecePipelines t.body) :
    ∃ fs : List Builtin, Command.Drops p.commands p.withoutEscapers.commands fs ∧
      p.withoutEscapers.WellFormed ∧
      (∀ f ∈ [Builtin.html, .urlquery], ∀ args here,
        p.withoutEscapers.commands.getLast? ≠ some (.call f args here)) ∧
      (fs = [] → p.withoutEscapers = p) ∧
      ∀ s, (∀ e, p.withoutEscapers.eval s = .error e ↔ p.eval s = .error e) ∧
        (fs ≠ [] → ∀ v, p.withoutEscapers.eval s = .ok v → p.eval s =
          .ok (.string (String.ofList (fs.foldl (fun cs f => f.escapeText cs) v.chars)))) := by
  have wellFormed : p.WellFormed := by
    obtain ⟨main, defines⟩ := Source.parse_all Pipeline.ofTokens_wellFormed h
    rcases List.mem_cons.mp ht with rfl | ht
    · exact main p hp
    · exact defines t ht p hp
  obtain ⟨fs, drops⟩ := wellFormed.drops
  refine ⟨fs, drops, wellFormed.withoutEscapers, ?_, ?_, fun s => ?_⟩
  · intro f hf args here hlast
    have plain := drops.endsUnescaped f args here hlast
    rcases List.mem_pair.mp hf with rfl | rfl
    all_goals cases plain
  · rintro rfl
    have same : p.withoutEscapers = { p with commands := p.withoutEscapers.commands } := rfl
    rw [same, drops.eq_of_nil]
  · rw [Pipeline.eval_of_drops drops s]
    cases p.withoutEscapers.eval s with
    | error e =>
      exact ⟨fun e' => by simp [Except.map], nofun⟩
    | ok w =>
      refine ⟨fun e' => by simp [Except.map], fun hfs v hv => ?_⟩
      cases hv
      exact congrArg Except.ok (Builtin.foldl_escaped hfs w)

/-- A page that escapes a field twice, with a call that has a written argument and one that has a
piped one. -/
def escapedTwice : String := "\x7b\x7bhtml .a | urlquery\x7d\x7d"

theorem Source.parse_withoutEscapers_escapedTwice : ∃ source p fs s v,
    Source.parse "page" escapedTwice = .ok source ∧ p ∈ piecePipelines source.main.body ∧
      Command.Drops p.commands p.withoutEscapers.commands fs ∧ fs ≠ [] ∧
        p.withoutEscapers.eval s = .ok v ∧ v.text = "a&b" ∧ p.eval s =
          .ok (.string (String.ofList (fs.foldl (fun cs f => f.escapeText cs) v.chars))) := by
  let s : Scope := .start (.object (.ofPairs [("a", .string "a&b")])) .refuse
  have accepts : (Source.parse "page" escapedTwice).toOption.any (fun source =>
      (piecePipelines source.main.body).any fun p =>
        p.withoutEscapers.commands.length < p.commands.length &&
          (p.withoutEscapers.eval s).toOption.any (·.text == "a&b")) = true := by
    decide +kernel
  obtain ⟨source, parsed, found⟩ := exists_of_toOption_any accepts
  obtain ⟨p, hp, checked⟩ := List.any_eq_true.mp found
  obtain ⟨shorter, given⟩ := Bool.and_eq_true_iff.mp checked
  obtain ⟨v, hv, shown⟩ := exists_of_toOption_any given
  obtain ⟨fs, drops, -, -, whole, same⟩ :=
    Source.parse_withoutEscapers parsed (List.mem_cons_self ..) hp
  have some_dropped : fs ≠ [] := by
    intro hfs
    rw [whole hfs] at shorter
    exact absurd (of_decide_eq_true shorter) (Nat.lt_irrefl _)
  exact ⟨source, p, fs, s, v, parsed, hp, drops, some_dropped, hv, beq_iff_eq.mp shown,
    (same s).2 some_dropped v hv⟩

end Stencil
