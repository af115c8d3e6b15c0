import Stencil.Program.Analysis

/-!
# What the analysis derives

A compiled tree stands in a relation to its source that speaks of contexts and not of the order in
which they were found (`Compiled`): each text, output, block and loop is compiled in a context, and
an embedded template is linked to an entry of a table. A loop is compiled in a context that the end
of its body joins without a change, whether that context was found at once or on a second try.

The relation is one of a policy and of a way to link. It keeps where there are more links
(`Compiled.mono`), and what texts, outputs and joins keep (`Policy.Preserves`) holds all along it
(`Compiled.keeps`).
-/

set_option autoImplicit false

namespace Stencil

open Markup (Context)

/-- A property of contexts that texts, outputs and joins keep. -/
structure Policy.Preserves (policy : Policy) (P : Context → Prop) : Prop where
  text : ∀ c cs, P c → (policy.advance c cs).error = none → P (policy.advance c cs)
  output : ∀ c rules, P c → policy.escapers (policy.nudge c) = .ok rules →
    P (policy.afterOutput (policy.nudge c))
  join : ∀ a b c, P a → P b → policy.join a b = some c → P c

namespace Analysis

/-- Which entry a template's name in a context is linked to, and the context behind it. -/
abbrev Link := String → Context → Nat → Context → Prop

section

variable (policy : Policy) (link : Link)

mutual

/-- A tree in a context compiles to a tree, and to the context behind it. -/
inductive Compiled : Context → Tree Piece → Tree Instruction → Context → Prop where
  | text {c : Context} (content : String) (here : Location) :
      (policy.advance c content.toList).error = none →
      Compiled c (.leaf (.text content here)) (.leaf (.text content))
        (policy.advance c content.toList)
  | output {c : Context} {rules : List Escaper} (p : Pipeline) (here : Location) :
      policy.escapers (policy.nudge c) = .ok rules →
      Compiled c (.leaf (.output p here)) (.leaf (.output (policy.prepare p) rules here))
        (policy.afterOutput (policy.nudge c))
  | embed {c next : Context} {name : String} {target : Nat} (data : Option Pipeline)
      (here : Location) :
      insideTag c = false → link name c target next →
      Compiled c (.leaf (.embed name data here)) (.leaf (.embed name target data here)) next
  | branch {c stop otherStop next : Context} {kind : BlockKind} {body : List (Tree Piece)}
      {compiled : List (Tree Instruction)} {alternative : Option (List (Tree Piece))}
      {other : Option (List (Tree Instruction))} (subject : Pipeline) (here : Location) :
      kind ≠ .each → CompiledAll c body compiled stop →
      CompiledElse c alternative other otherStop → policy.join stop otherStop = some next →
      Compiled c (.block kind subject body alternative here)
        (.block kind subject compiled other here) next
  | loop {c stop start again : Context} {body : List (Tree Piece)}
      {once compiled : List (Tree Instruction)} (subject : Pipeline) (here : Location) :
      CompiledAll c body once stop → policy.join c stop = some start →
      CompiledAll start body compiled again → policy.join start again = some start →
      Compiled c (.block .each subject body none here) (.block .each subject compiled none here)
        start
  | loopElse {c stop start again otherStop next : Context} {body alternative : List (Tree Piece)}
      {once compiled other : List (Tree Instruction)} (subject : Pipeline) (here : Location) :
      CompiledAll c body once stop → policy.join c stop = some start →
      CompiledAll start body compiled again → policy.join start again = some start →
      CompiledAll c alternative other otherStop → policy.join start otherStop = some next →
      Compiled c (.block .each subject body (some alternative) here)
        (.block .each subject compiled (some other) here) next

/-- Trees in a context compile to trees, and to the context behind them. -/
inductive CompiledAll :
    Context → List (Tree Piece) → List (Tree Instruction) → Context → Prop where
  | nil (c : Context) : CompiledAll c [] [] c
  | cons {c next stop : Context} {t : Tree Piece} {rest : List (Tree Piece)}
      {compiled : Tree Instruction} {others : List (Tree Instruction)} :
      Compiled c t compiled next → CompiledAll next rest others stop →
      CompiledAll c (t :: rest) (compiled :: others) stop

/-- What stands in place of a body; nothing leaves the context as it is. -/
inductive CompiledElse :
    Context → Option (List (Tree Piece)) → Option (List (Tree Instruction)) → Context → Prop where
  | none (c : Context) : CompiledElse c none none c
  | some {c stop : Context} {alternative : List (Tree Piece)} {other : List (Tree Instruction)} :
      CompiledAll c alternative other stop → CompiledElse c (some alternative) (some other) stop

end

end

section

variable {policy : Policy} {link link' : Link}

mutual

/-- A derivation keeps where there are more links. -/
theorem Compiled.mono (more : ∀ name c n next, link name c n next → link' name c n next)
    {c next : Context} {t : Tree Piece} {u : Tree Instruction} :
    Compiled policy link c t u next → Compiled policy link' c t u next
  | .text content here h => .text content here h
  | .output p here h => .output p here h
  | .embed data here hin hlink => .embed data here hin (more _ _ _ _ hlink)
  | .branch subject here hk hbody helse hjoin =>
    .branch subject here hk (hbody.mono more) (helse.mono more) hjoin
  | .loop subject here honce hjoin hbody hfix =>
    .loop subject here (honce.mono more) hjoin (hbody.mono more) hfix
  | .loopElse subject here honce hjoin hbody hfix helse hnext =>
    .loopElse subject here (honce.mono more) hjoin (hbody.mono more) hfix (helse.mono more) hnext

theorem CompiledAll.mono (more : ∀ name c n next, link name c n next → link' name c n next)
    {c next : Context} {ts : List (Tree Piece)} {us : List (Tree Instruction)} :
    CompiledAll policy link c ts us next → CompiledAll policy link' c ts us next
  | .nil c => .nil c
  | .cons h hrest => .cons (h.mono more) (hrest.mono more)

theorem CompiledElse.mono (more : ∀ name c n next, link name c n next → link' name c n next)
    {c next : Context} {ts : Option (List (Tree Piece))} {us : Option (List (Tree Instruction))} :
    CompiledElse policy link c ts us next → CompiledElse policy link' c ts us next
  | .none c => .none c
  | .some h => .some (h.mono more)

end

variable {P : Context → Prop}

mutual

/-- What a policy keeps holds of the context behind a tree, if it holds before it. -/
theorem Compiled.keeps (kept : policy.Preserves P)
    (linked : ∀ name c n next, P c → link name c n next → P next) {c next : Context}
    {t : Tree Piece} {u : Tree Instruction} (hc : P c) :
    Compiled policy link c t u next → P next
  | .text content _ h => kept.text c content.toList hc h
  | .output _ _ h => kept.output c _ hc h
  | .embed _ _ _ hlink => linked _ c _ _ hc hlink
  | .branch _ _ _ hbody helse hjoin =>
    kept.join _ _ _ (hbody.keeps kept linked hc) (helse.keeps kept linked hc) hjoin
  | .loop _ _ honce hjoin _ _ => kept.join _ _ _ hc (honce.keeps kept linked hc) hjoin
  | .loopElse _ _ honce hjoin _ _ helse hnext =>
    kept.join _ _ _ (kept.join _ _ _ hc (honce.keeps kept linked hc) hjoin)
      (helse.keeps kept linked hc) hnext

theorem CompiledAll.keeps (kept : policy.Preserves P)
    (linked : ∀ name c n next, P c → link name c n next → P next) {c next : Context}
    {ts : List (Tree Piece)} {us : List (Tree Instruction)} (hc : P c) :
    CompiledAll policy link c ts us next → P next
  | .nil _ => hc
  | .cons h hrest => hrest.keeps kept linked (h.keeps kept linked hc)

theorem CompiledElse.keeps (kept : policy.Preserves P)
    (linked : ∀ name c n next, P c → link name c n next → P next) {c next : Context}
    {ts : Option (List (Tree Piece))} {us : Option (List (Tree Instruction))} (hc : P c) :
    CompiledElse policy link c ts us next → P next
  | .none _ => hc
  | .some h => h.keeps kept linked hc

end

end

end Analysis

end Stencil
