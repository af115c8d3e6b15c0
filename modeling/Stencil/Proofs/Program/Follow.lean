import Stencil.Proofs.Program.Guarded
import Stencil.TemplateSet

/-!
# Outputs are escaped for where they are written

A run of a program is a walk through its templates. The context that this walk is in moves on with
every text and output that is written (`Context.behind`), and the escapers of an output should be
the ones that this context asks for (`Context.Follows`). The analysis has fixed them without knowing
which way a run takes.

The invariant is that the context of the analysis covers that of the run (`Tracks`): it is kept by
each way through a block, by each turn of a loop, and by embedded templates down to the depth to
which they may become active. It needs the stricter analysis (`Policy.guarded`), since a join by a
nudge covers neither side, and a slash that is met in a covering context may be known in the run.
-/

set_option autoImplicit false

namespace Stencil

/-! ## The context of a run -/

namespace Markup.Context

/-- The context behind what a run writes. -/
def behind (c : Context) : List Event → Context
  | [] => c
  | .text s :: rest => (c.advance s.toList).behind rest
  | .output _ _ _ :: rest => c.nudge.afterOutput.behind rest
  | .enter _ :: rest | .leave :: rest => c.behind rest

/-- Every output of a run is under the rules that its context asks for. -/
def Follows (c : Context) : List Event → Prop
  | [] => True
  | .text s :: rest => (c.advance s.toList).Follows rest
  | .output _ rules _ :: rest =>
    c.nudge.escapers = .ok rules ∧ c.nudge.afterOutput.Follows rest
  | .enter _ :: rest | .leave :: rest => c.Follows rest

theorem behind_append (c : Context) (first second : List Event) :
    c.behind (first ++ second) = (c.behind first).behind second := by
  induction first generalizing c with
  | nil => rfl
  | cons e rest ih => cases e <;> exact ih _

theorem follows_append {c : Context} {first second : List Event} :
    c.Follows (first ++ second) ↔ c.Follows first ∧ (c.behind first).Follows second := by
  induction first generalizing c with
  | nil => exact ⟨fun h => ⟨trivial, h⟩, fun h => h.2⟩
  | cons e rest ih =>
    cases e with
    | text s => exact ih
    | output here rules s => exact (and_congr_right fun _ => ih).trans and_assoc.symm
    | enter name => exact ih
    | leave => exact ih

end Markup.Context

open Markup (Context)

/-- A run from any context that `c` covers is under the rules it asks for and, if it ends well, ends
in a context that `d` covers. -/
def Tracks (c d : Context) (r : Run Unit) : Prop :=
  ∀ a, c.Covers a → a.Follows r.events ∧ (r.outcome = .ok () → d.Covers (a.behind r.events))

namespace Tracks

variable {c d e : Context}

protected theorem pure (c : Context) : Tracks c c (pure ()) := fun _ h => ⟨trivial, fun _ => h⟩

theorem enter (c : Context) (name : String) : Tracks c c (Run.emit (.enter name)) :=
  fun _ h => ⟨trivial, fun _ => h⟩

theorem leave (c : Context) : Tracks c c (Run.emit .leave) := fun _ h => ⟨trivial, fun _ => h⟩

theorem of_error (err : Error) : Tracks c d (Run.ofExcept (.error err)) :=
  fun _ _ => ⟨trivial, nofun⟩

protected theorem bind {r s : Run Unit} (hr : Tracks c d r) (hs : Tracks d e s) :
    Tracks c e (r >>= fun _ => s) := by
  intro a ha
  obtain ⟨first, last⟩ := hr a ha
  cases h : r.outcome with
  | error err =>
    rw [Run.bind_of_error h]
    exact ⟨first, nofun⟩
  | ok _ =>
    rw [Run.bind_of_ok h, Context.follows_append, Context.behind_append]
    obtain ⟨rest, stop⟩ := hs _ (last h)
    exact ⟨⟨first, rest⟩, stop⟩

/-- What is computed on the way writes nothing. -/
theorem bind_ofExcept {α : Type} {x : Except Error α} {f : α → Run Unit}
    (h : ∀ v, x = .ok v → Tracks c d (f v)) : Tracks c d (Run.ofExcept x >>= f) := by
  cases x with
  | error err =>
    rw [Run.bind_of_error rfl]
    exact of_error err
  | ok v =>
    rw [Run.bind_of_ok rfl]
    exact h v rfl

/-- A run may start from less and end in more. -/
theorem weaken {c' d' : Context} {r : Run Unit} (h : Tracks c d r) (hc : c.Covers c')
    (hd : d'.Covers d) : Tracks c' d' r := by
  intro a ha
  obtain ⟨follows, stop⟩ := h a (hc.trans ha)
  exact ⟨follows, fun ok => hd.trans (stop ok)⟩

/-- What keeps a context can be done once for each value of a list. -/
theorem each {render : Value → Run Unit} (h : ∀ v, Tracks c c (render v)) (values : List Value) :
    Tracks c c (Render.each render values) := by
  induction values with
  | nil => exact .pure c
  | cons v rest ih =>
    rw [Render.each]
    exact (h v).bind ih

end Tracks

namespace Analysis

/-! ## Compiled trees -/

section

variable {link : Link} {embed : Render.Embed}

theorem text_tracks {c : Context} {content : String}
    (h : (Policy.guarded.advance c content.toList).error = none) :
    Tracks c (Policy.guarded.advance c content.toList) (Run.emit (.text content)) := by
  intro a ha
  obtain ⟨clear, heq⟩ := Policy.guarded_advance h
  rw [heq]
  exact ⟨trivial, fun _ => ha.advance content.toList clear⟩

/-- An output is written under the rules of its context, whatever its value. -/
theorem output_tracks {c : Context} {rules : List Escaper}
    (h : c.nudge.escapers = .ok rules) (here : Location) (s : String) :
    Tracks c c.nudge.afterOutput (Run.emit (.output here rules s)) := fun _ ha =>
  ⟨⟨ha.nudge.escapers h, trivial⟩, fun _ => ha.nudge.afterOutput⟩

/-- What is rendered in place of a body. -/
def renderElse (embed : Render.Embed) (s : Scope) : Option (List (Tree Instruction)) → Run Unit
  | none => pure ()
  | some alternative => Render.trees embed s alternative

section

variable {c next : Context} {compiled : List (Tree Instruction)}
  {other : Option (List (Tree Instruction))}

/-- Either way through a block is rendered. -/
theorem branch_tracks {kind : BlockKind} (hk : kind ≠ .each) (subject : Pipeline)
    (here : Location) (s : Scope) (body : ∀ s, Tracks c next (Render.trees embed s compiled))
    (alternative : Tracks c next (renderElse embed s other)) :
    Tracks c next (Render.tree embed s (.block kind subject compiled other here)) := by
  cases kind with
  | each => exact absurd rfl hk
  | cond =>
    unfold Render.tree
    refine .bind_ofExcept fun v _ => ?_
    split
    · exact body s
    · exact alternative
  | within =>
    unfold Render.tree
    refine .bind_ofExcept fun v _ => ?_
    split
    · exact body (s.push v)
    · exact alternative

/-- Every turn of a loop is rendered, or what stands in their place. -/
theorem loop_tracks {start : Context} (subject : Pipeline) (here : Location) (s : Scope)
    (body : ∀ s, Tracks start start (Render.trees embed s compiled)) (before : start.Covers c)
    (behind : next.Covers start) (alternative : Tracks c next (renderElse embed s other)) :
    Tracks c next (Render.tree embed s (.block .each subject compiled other here)) := by
  unfold Render.tree
  refine .bind_ofExcept fun values _ => ?_
  split
  · exact alternative
  · exact (Tracks.each (fun v => body (s.push v)) _).weaken before behind

end

mutual

/-- A compiled tree is rendered in the contexts that its compilation went through. -/
theorem Compiled.tracks
    (linked : ∀ name c n next, c.isError = false → link name c n next → next.isError = false)
    (embedded : ∀ s name c n next data here, link name c n next →
      Tracks c next (embed s n name data here))
    {c next : Context} {x : Tree Piece} {u : Tree Instruction} (ok : c.isError = false)
    (s : Scope) : Compiled .guarded link c x u next → Tracks c next (Render.tree embed s u)
  | .text content _ h => by
    rw [Render.tree]
    exact text_tracks h
  | .output p here h => by
    rw [Render.tree]
    exact .bind_ofExcept fun v _ => output_tracks h here _
  | .embed data here _ hlink => by
    rw [Render.tree]
    exact embedded s _ c _ _ data here hlink
  | .branch subject here hk hbody helse hjoin => by
    obtain ⟨taken, passed⟩ := Context.covers_of_joinDirect
      (hbody.keeps Policy.guarded_preserves linked ok)
      (helse.keeps Policy.guarded_preserves linked ok) hjoin
    exact branch_tracks hk subject here s
      (fun s => (hbody.tracks linked embedded ok s).weaken (.refl c) taken)
      ((helse.tracks linked embedded ok s).weaken (.refl c) passed)
  | .loop subject here honce hjoin hbody hfix => by
    have okStop := honce.keeps Policy.guarded_preserves linked ok
    have okStart := Policy.guarded_preserves.join _ _ _ ok okStop hjoin
    have okAgain := hbody.keeps Policy.guarded_preserves linked okStart
    have before := (Context.covers_of_joinDirect ok okStop hjoin).1
    have turn := (Context.covers_of_joinDirect okStart okAgain hfix).2
    exact loop_tracks subject here s
      (fun s => (hbody.tracks linked embedded okStart s).weaken (.refl _) turn) before (.refl _)
      ((Tracks.pure c).weaken (.refl c) before)
  | .loopElse subject here honce hjoin hbody hfix helse hnext => by
    have okStop := honce.keeps Policy.guarded_preserves linked ok
    have okStart := Policy.guarded_preserves.join _ _ _ ok okStop hjoin
    have okAgain := hbody.keeps Policy.guarded_preserves linked okStart
    have okOther := helse.keeps Policy.guarded_preserves linked ok
    have before := (Context.covers_of_joinDirect ok okStop hjoin).1
    have turn := (Context.covers_of_joinDirect okStart okAgain hfix).2
    obtain ⟨taken, passed⟩ := Context.covers_of_joinDirect okStart okOther hnext
    exact loop_tracks subject here s
      (fun s => (hbody.tracks linked embedded okStart s).weaken (.refl _) turn) before taken
      ((helse.tracks linked embedded ok s).weaken (.refl c) passed)

theorem CompiledAll.tracks
    (linked : ∀ name c n next, c.isError = false → link name c n next → next.isError = false)
    (embedded : ∀ s name c n next data here, link name c n next →
      Tracks c next (embed s n name data here))
    {c next : Context} {xs : List (Tree Piece)} {us : List (Tree Instruction)}
    (ok : c.isError = false) (s : Scope) :
    CompiledAll .guarded link c xs us next → Tracks c next (Render.trees embed s us)
  | .nil c => by
    rw [Render.trees]
    exact .pure c
  | .cons h hrest => by
    rw [Render.trees]
    have ok' := h.keeps Policy.guarded_preserves linked ok
    exact (h.tracks linked embedded ok s).bind (hrest.tracks linked embedded ok' s)

theorem CompiledElse.tracks
    (linked : ∀ name c n next, c.isError = false → link name c n next → next.isError = false)
    (embedded : ∀ s name c n next data here, link name c n next →
      Tracks c next (embed s n name data here))
    {c next : Context} {xs : Option (List (Tree Piece))}
    {us : Option (List (Tree Instruction))} (ok : c.isError = false) (s : Scope) :
    CompiledElse .guarded link c xs us next →
      Tracks c next (renderElse embed s us)
  | .none c => .pure c
  | .some h => h.tracks linked embedded ok s

end

end

/-! ## Compiled programs -/

/-- What a link of a complete table leads to is rendered in the contexts that it was compiled for,
down to any depth. -/
theorem link_tracks {t : Table} {p : Program} {templates : List (String × Template)}
    (variants : p.variants = t.map fun e => ⟨e.name, Policy.contextual.place e.context, e.body⟩)
    (complete : t.Complete .guarded templates fun c => c.isError = false)
    {name : String} {c next : Context} {n : Nat} (link : t.Links name c n next) :
    ∃ v, p.variants[n]? = some v ∧ ∀ more s,
      Tracks c next (Render.trees (Render.embed p more) s v.body) := by
  have linked (name : String) (c : Context) (m : Nat) (stop : Context) (_ : c.isError = false)
      (h : t.Links name c m stop) : stop.isError = false := (complete.link h).2.1
  obtain ⟨ok, -, e, template, hn, -, hbody⟩ := complete.link link
  refine ⟨_, by rw [variants, List.getElem?_map, hn]; rfl, fun more s => ?_⟩
  -- the body of any linked template can be embedded one level less deeply
  induction more generalizing s name c next n e template with
  | zero =>
    refine hbody.tracks linked (fun _ _ _ _ _ _ _ _ => ?_) ok s
    rw [Render.embed]
    split
    · exact .of_error _
    · exact .of_error _
  | succ more ih =>
    refine hbody.tracks linked (fun s name c m stop data here hlink => ?_) ok s
    obtain ⟨ok', -, e', template', hm, -, hbody'⟩ := complete.link hlink
    rw [Render.embed, variants, List.getElem?_map, hm]
    refine (Tracks.enter _ _).bind (.bind_ofExcept fun root _ => ?_)
    exact (ih hlink ok' e' template' hm hbody' _).bind (.leave stop)

end Analysis

/-- Whether the analysis of an entry goes through with joins of contexts as they stand only, and
with no text that meets a slash of unknown meaning. -/
def TemplateSet.analysesPlainly (set : TemplateSet) (entry : String) : Bool :=
  ((Analysis.enter .guarded set.templates (Analysis.room set.templates) entry .start .outside).run
    []).isOk

theorem Program.eq_of_checked {p q : Program} (h : q.checked = .ok p) : p = q := by
  unfold Program.checked at h
  cases hc : q.variants.forM fun v => v.check q.variants.length with
  | error e => rw [hc] at h; cases h
  | ok _ => rw [hc] at h; cases h; rfl

/-- A set of which the analysis of an entry goes through plainly compiles to the table of this
analysis. -/
theorem TemplateSet.compile_of_plain {set : TemplateSet} {entry : String} {p : Program}
    (escaping : set.config.autoescape = true) (compiled : set.compile entry = .ok p)
    (plain : set.analysesPlainly entry = true) : ∃ number next t,
      (Analysis.enter .guarded set.templates (Analysis.room set.templates) entry .start
        .outside).run [] = .ok ((number, next), t) ∧
      p.variants = t.map (fun e => ⟨e.name, Policy.contextual.place e.context, e.body⟩) ∧
      p.entry = number := by
  obtain ⟨⟨⟨number, next⟩, t⟩, hrun⟩ : ∃ r, (Analysis.enter .guarded set.templates
      (Analysis.room set.templates) entry .start .outside).run [] = .ok r := by
    unfold TemplateSet.analysesPlainly at plain
    generalize (Analysis.enter .guarded _ _ _ _ _).run [] = result at plain
    cases result with
    | ok r => exact ⟨r, rfl⟩
    | error e => cases plain
  have same := Analysis.enter_refines Policy.guarded_refines set.templates
    (Analysis.room set.templates) entry .start .outside [] _ hrun
  refine ⟨number, next, t, hrun, ?_⟩
  unfold TemplateSet.compile at compiled
  split at compiled
  · unfold Program.compile at compiled
    rw [escaping, if_pos rfl] at compiled
    dsimp only at compiled
    rw [same] at compiled
    rw [Program.eq_of_checked compiled]
    exact ⟨rfl, rfl⟩
  · cases compiled

/-- Whatever way a run takes, each output that it writes is under the rules that the context behind
all that was written before asks for. -/
theorem run_follows {set : TemplateSet} {entry : String} {p : Program}
    (escaping : set.config.autoescape = true) (compiled : set.compile entry = .ok p)
    (plain : set.analysesPlainly entry = true) (root : Value) :
    Context.start.Follows (p.run root).events := by
  obtain ⟨number, next, t, hrun, hvariants, hentry⟩ :=
    TemplateSet.compile_of_plain escaping compiled plain
  obtain ⟨link, complete⟩ := Analysis.enter_compiled Policy.guarded_preserves rfl hrun
  obtain ⟨v, hv, tracks⟩ := Analysis.link_tracks hvariants complete link
  unfold Program.run
  rw [hentry, hv]
  exact (tracks p.config.maxDepth _ .start (.refl _)).1

/-- A page whose script goes on behind branches that disagree on what a slash would mean. -/
def scriptPage : TemplateSet :=
  let dot : Pipeline := ⟨[.operand (.path ⟨.dot, [], .start⟩)], .start⟩
  ⟨.standard, [("page", ⟨"page", [.leaf (.text "<script>" .start),
    .block .cond dot [.leaf (.text "x" .start)] none .start, .leaf (.text ";" .start),
    .leaf (.output dot .start)], .start⟩)]⟩

theorem run_follows_scriptPage :
    ∃ p, scriptPage.compile "page" = .ok p ∧
      Context.start.Follows (p.run (.bool true)).events := by
  have compiles : (scriptPage.compile "page").isOk = true := by decide +kernel
  cases h : scriptPage.compile "page" with
  | error e => rw [h] at compiles; cases compiles
  | ok p => exact ⟨p, rfl, run_follows rfl h (by decide +kernel) _⟩

end Stencil
