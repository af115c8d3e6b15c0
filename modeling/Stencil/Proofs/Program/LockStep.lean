import Stencil.Proofs.Program.Follow
import Stencil.Proofs.Program.Structure
import Stencil.Proofs.Program.Verbatim
import Stencil.Proofs.Render.Stripped

/-!
# Escaping changes what outputs print, and nothing else

A program that is compiled with escaping by context and the one that is compiled without it run in
lock step (`LockStep`): the same texts, outputs and embedded templates one after the other, and the
same end. They differ in the rules of an output and in what it prints.

The two programs have different variants: one for each context that a template is embedded in, and
one for each template. What they have in common is the source, so the simulation follows the trees
of the source with a derivation of each side (`Compiled.lockStep`), and pairs any two links of one
name. The pipelines differ by the escapers at their ends, which can neither fail nor hide a failure
(`Pipeline.eval_of_drops`).
-/

set_option autoImplicit false

namespace Stencil

open Markup (Context)

/-- Events of the same place in a template, which may differ in what an output prints. -/
inductive Event.Alike : Event → Event → Prop where
  | text (s : String) : Alike (.text s) (.text s)
  | output (here : Location) (rules rules' : List Escaper) (s s' : String) :
      Alike (.output here rules s) (.output here rules' s')
  | enter (name : String) : Alike (.enter name) (.enter name)
  | leave : Alike .leave .leave

/-- Runs with like events one by one, which end in the same way. -/
structure LockStep (r r' : Run Unit) : Prop where
  events : List.Forall₂ Event.Alike r.events r'.events
  outcome : r.outcome = r'.outcome

namespace LockStep

protected theorem pure : LockStep (pure ()) (pure ()) := ⟨.nil, rfl⟩

theorem of_error (e : Error) : LockStep (Run.ofExcept (.error e)) (Run.ofExcept (.error e)) :=
  ⟨.nil, rfl⟩

theorem emit {e e' : Event} (h : e.Alike e') : LockStep (Run.emit e) (Run.emit e') :=
  ⟨.cons h .nil, rfl⟩

protected theorem bind {r r' s s' : Run Unit} (h : LockStep r r') (hs : LockStep s s') :
    LockStep (r >>= fun _ => s) (r' >>= fun _ => s') := by
  obtain ⟨events, outcome⟩ := h
  cases h : r.outcome with
  | error e =>
    rw [Run.bind_of_error h, Run.bind_of_error (outcome ▸ h)]
    exact ⟨events, rfl⟩
  | ok a =>
    rw [Run.bind_of_ok h, Run.bind_of_ok (outcome ▸ h)]
    exact ⟨List.rel_append events hs.events, hs.outcome⟩

/-- What is computed on the way is the same up to a function of its value. -/
theorem bind_ofExcept {α β : Type} (x : Except Error α) (g : α → β) {f : α → Run Unit}
    {f' : β → Run Unit} (h : ∀ v, LockStep (f v) (f' (g v))) :
    LockStep (Run.ofExcept x >>= f) (Run.ofExcept (x.map g) >>= f') := by
  cases x with
  | error e =>
    rw [Run.bind_of_error rfl, Run.bind_of_error rfl]
    exact of_error e
  | ok v =>
    rw [Run.bind_of_ok rfl, Run.bind_of_ok rfl]
    exact h v

/-- What is computed on the way is the same. -/
theorem bind_same {α : Type} (x : Except Error α) {f f' : α → Run Unit}
    (h : ∀ v, LockStep (f v) (f' v)) :
    LockStep (Run.ofExcept x >>= f) (Run.ofExcept x >>= f') := by
  have same : x.map id = x := by cases x <;> rfl
  have := bind_ofExcept x id h
  rwa [same] at this

theorem each {render render' : Value → Run Unit} (h : ∀ v, LockStep (render v) (render' v))
    (values : List Value) : LockStep (Render.each render values) (Render.each render' values) := by
  induction values with
  | nil => exact .pure
  | cons v rest ih =>
    rw [Render.each, Render.each]
    exact (h v).bind ih

end LockStep

namespace Analysis

/-! ## Compiled trees -/

section

variable {embed embed' : Render.Embed}

/-- An output of a pipeline and one of the same pipeline without the escapers at its end. -/
theorem output_lockStep {p : Pipeline} (h : p.WellFormed) (s : Scope) (rules rules' : List Escaper)
    (here : Location) :
    LockStep (Render.instruction embed s (.output p.withoutEscapers rules here))
      (Render.instruction embed' s (.output p rules' here)) := by
  obtain ⟨fs, drops⟩ := h.drops
  rw [Render.instruction, Render.instruction, Pipeline.eval_of_drops drops s]
  exact .bind_ofExcept _ _ fun v => .emit (.output ..)

/-- Blocks of the same kind and subject, whose bodies and alternatives are in lock step. -/
theorem block_lockStep (kind : BlockKind) (subject : Pipeline) (here : Location) (s : Scope)
    {body body' : List (Tree Instruction)} {other other' : Option (List (Tree Instruction))}
    (hbody : ∀ s, LockStep (Render.trees embed s body) (Render.trees embed' s body'))
    (helse : LockStep (renderElse embed s other) (renderElse embed' s other')) :
    LockStep (Render.tree embed s (.block kind subject body other here))
      (Render.tree embed' s (.block kind subject body' other' here)) := by
  cases kind with
  | cond =>
    unfold Render.tree
    refine .bind_same _ fun v => ?_
    split
    · exact hbody s
    · exact helse
  | within =>
    unfold Render.tree
    refine .bind_same _ fun v => ?_
    split
    · exact hbody (s.push v)
    · exact helse
  | each =>
    unfold Render.tree
    refine .bind_same _ fun values => ?_
    split
    · exact helse
    · exact .each (fun v => hbody (s.push v)) _

variable {link link' : Link}

/-- Two ways to link lead, for a name, to templates that are in lock step when they are embedded. -/
def EmbedsAlike (link link' : Link) (embed embed' : Render.Embed) : Prop :=
  ∀ s name c n next c' n' next' data here, link name c n next → link' name c' n' next' →
    LockStep (embed s n name data here) (embed' s n' name data here)

mutual

/-- A tree compiled with escaping and without it. -/
theorem Compiled.lockStep (embeds : EmbedsAlike link link' embed embed') {c next c' next' : Context}
    {x : Tree Piece} {u v : Tree Instruction}
    (counts : ∀ p ∈ Tree.pipelines Piece.pipelines x, p.WellFormed) (s : Scope) :
    Compiled .contextual link c x u next → Compiled .verbatim link' c' x v next' →
      LockStep (Render.tree embed s u) (Render.tree embed' s v)
  | .text content here h, h' => by
    cases h'
    rw [Render.tree, Render.tree]
    exact .emit (.text content)
  | .output p here h, h' => by
    cases h'
    rw [Render.tree, Render.tree]
    exact output_lockStep (counts p (by simp [Tree.pipelines, Piece.pipelines])) s _ _ here
  | .embed data here hin hlink, h' => by
    cases h' with
    | embed _ _ _ hlink' =>
      rw [Render.tree, Render.tree]
      exact embeds s _ _ _ _ _ _ _ data here hlink hlink'
  | .branch subject here hk hbody helse hjoin, h' => by
    simp only [Tree.mem_pipelines_block] at counts
    have body (p : Pipeline) (hp : p ∈ piecePipelines _) := counts p (.inr (.inl hp))
    have alternative other (heq : _ = some other) (p : Pipeline) (hp : p ∈ piecePipelines other) :=
      counts p (.inr (.inr ⟨other, heq, hp⟩))
    cases h' with
    | branch _ _ _ hbody' helse' hjoin' =>
      exact block_lockStep _ subject here s (fun s => hbody.lockStep embeds body s hbody')
        (helse.lockStep embeds alternative s helse')
    | loop => exact absurd rfl hk
    | loopElse => exact absurd rfl hk
  | .loop subject here honce hjoin hbody hfix, h' => by
    simp only [Tree.mem_pipelines_block] at counts
    have body (p : Pipeline) (hp : p ∈ piecePipelines _) := counts p (.inr (.inl hp))
    cases h' with
    | branch _ _ hk => exact absurd rfl hk
    | loop _ _ honce' hjoin' hbody' hfix' =>
      exact block_lockStep _ subject here s (fun s => hbody.lockStep embeds body s hbody') .pure
  | .loopElse subject here honce hjoin hbody hfix helse hnext, h' => by
    simp only [Tree.mem_pipelines_block] at counts
    have body (p : Pipeline) (hp : p ∈ piecePipelines _) := counts p (.inr (.inl hp))
    have alternative (p : Pipeline) (hp : p ∈ piecePipelines _) :=
      counts p (.inr (.inr ⟨_, rfl, hp⟩))
    cases h' with
    | branch _ _ hk => exact absurd rfl hk
    | loopElse _ _ honce' hjoin' hbody' hfix' helse' hnext' =>
      exact block_lockStep _ subject here s (fun s => hbody.lockStep embeds body s hbody')
        (helse.lockStep embeds alternative s helse')

theorem CompiledAll.lockStep (embeds : EmbedsAlike link link' embed embed')
    {c next c' next' : Context} {xs : List (Tree Piece)} {us vs : List (Tree Instruction)}
    (counts : ∀ p ∈ piecePipelines xs, p.WellFormed) (s : Scope) :
    CompiledAll .contextual link c xs us next → CompiledAll .verbatim link' c' xs vs next' →
      LockStep (Render.trees embed s us) (Render.trees embed' s vs)
  | .nil c, h' => by
    cases h'
    rw [Render.trees, Render.trees]
    exact .pure
  | .cons h hrest, h' => by
    rw [forall_mem_piecePipelines_cons] at counts
    cases h' with
    | cons h' hrest' =>
      rw [Render.trees, Render.trees]
      exact (h.lockStep embeds counts.1 s h').bind (hrest.lockStep embeds counts.2 s hrest')

theorem CompiledElse.lockStep (embeds : EmbedsAlike link link' embed embed')
    {c next c' next' : Context} {xs : Option (List (Tree Piece))}
    {us vs : Option (List (Tree Instruction))}
    (counts : ∀ other, xs = some other → ∀ p ∈ piecePipelines other, p.WellFormed) (s : Scope) :
    CompiledElse .contextual link c xs us next → CompiledElse .verbatim link' c' xs vs next' →
      LockStep (renderElse embed s us) (renderElse embed' s vs)
  | .none c, h' => by
    cases h'
    exact .pure
  | .some h, h' => by
    cases h' with
    | some h' => exact h.lockStep embeds (counts _ rfl) s h'

end

end

mutual

/-- Every template that a compiled tree embeds is linked. -/
theorem Compiled.embedsIn {policy : Policy} {link : Link} {c next : Context} {x : Tree Piece}
    {u : Tree Instruction} : Compiled policy link c x u next →
      EmbedsIn (fun name => ∃ c n next, link name c n next) [x]
  | .text content here h => by simp [EmbedsIn, Tree.leavesOf, Tree.leaves]
  | .output p here h => by simp [EmbedsIn, Tree.leavesOf, Tree.leaves]
  | .embed data here hin hlink => by
    simp only [EmbedsIn, Tree.leavesOf, Tree.leaves, List.append_nil, List.mem_singleton]
    rintro name data here ⟨⟩
    exact ⟨_, _, _, hlink⟩
  | .branch subject here hk hbody helse hjoin => embedsIn_block.mpr ⟨hbody.embedsIn, helse.embedsIn⟩
  | .loop subject here honce hjoin hbody hfix => embedsIn_block.mpr ⟨hbody.embedsIn, nofun⟩
  | .loopElse subject here honce hjoin hbody hfix helse hnext =>
    embedsIn_block.mpr ⟨hbody.embedsIn, fun _ heq => Option.some.inj heq ▸ helse.embedsIn⟩

theorem CompiledAll.embedsIn {policy : Policy} {link : Link} {c next : Context}
    {xs : List (Tree Piece)} {us : List (Tree Instruction)} :
    CompiledAll policy link c xs us next →
      EmbedsIn (fun name => ∃ c n next, link name c n next) xs
  | .nil c => by simp [EmbedsIn, Tree.leavesOf]
  | .cons h hrest => embedsIn_cons.mpr ⟨h.embedsIn, hrest.embedsIn⟩

theorem CompiledElse.embedsIn {policy : Policy} {link : Link} {c next : Context}
    {xs : Option (List (Tree Piece))} {us : Option (List (Tree Instruction))} :
    CompiledElse policy link c xs us next → ∀ other, xs = some other →
      EmbedsIn (fun name => ∃ c n next, link name c n next) other
  | .none c, other, heq => by cases heq
  | .some h, other, heq => by
    cases heq
    exact h.embedsIn

end

/-! ## Compiled programs -/

/-- A link of a complete table leads to a variant of its name, which the template of that name is
compiled to. -/
theorem Table.Complete.variant {policy : Policy} {templates : List (String × Template)}
    {P : Context → Prop} {t : Table} (complete : t.Complete policy templates P) {name : String}
    {c next : Context} {n : Nat} (link : t.Links name c n next) :
    ∃ v x, (t.variants policy)[n]? = some v ∧ v.name = name ∧
      Record.get? templates name = some x ∧
        CompiledAll policy t.Links c x.body v.body next := by
  obtain ⟨-, -, e, x, hn, hget, hbody⟩ := complete.link link
  obtain ⟨d, hd, hname, -⟩ := link
  obtain rfl : e = d := Option.some.inj (hn.symm.trans hd)
  exact ⟨⟨e.name, policy.place e.context, e.body⟩, x,
    by rw [Table.variants, List.getElem?_map, hn, Option.map_some], hname, hget, hbody⟩

/-- The programs of one set of templates that two complete tables give, one with escaping and one
without it. -/
structure Counterparts (templates : List (String × Template)) (t t' : Table) (p q : Program) :
    Prop where
  complete : ∃ P, t.Complete .contextual templates P
  complete' : ∃ P, t'.Complete .verbatim templates P
  variants : p.variants = t.variants .contextual
  variants' : q.variants = t'.variants .verbatim
  missingKey : p.config.missingKey = q.config.missingKey
  maxDepth : p.config.maxDepth = q.config.maxDepth
  counts : ∀ name x, Record.get? templates name = some x →
    ∀ r ∈ piecePipelines x.body, r.WellFormed

/-- What two links of a name lead to. -/
theorem Counterparts.links {templates : List (String × Template)} {t t' : Table} {p q : Program}
    (h : Counterparts templates t t' p q) {name : String} {c c' next next' : Context} {n n' : Nat}
    (link : t.Links name c n next) (link' : t'.Links name c' n' next') :
    ∃ v v', p.variants[n]? = some v ∧ q.variants[n']? = some v' ∧ v.name = name ∧ v'.name = name ∧
      ∀ {embed embed' : Render.Embed}, EmbedsAlike t.Links t'.Links embed embed' →
        ∀ s, LockStep (Render.trees embed s v.body) (Render.trees embed' s v'.body) := by
  obtain ⟨P, complete⟩ := h.complete
  obtain ⟨P', complete'⟩ := h.complete'
  obtain ⟨v, x, hv, hname, hget, hbody⟩ := complete.variant link
  obtain ⟨v', x', hv', hname', hget', hbody'⟩ := complete'.variant link'
  obtain rfl : x = x' := Option.some.inj (hget.symm.trans hget')
  exact ⟨v, v', h.variants ▸ hv, h.variants' ▸ hv', hname, hname',
    fun embeds s => hbody.lockStep embeds (h.counts name x hget) s hbody'⟩

/-- Templates of the same name are embedded in lock step, down to any depth. -/
theorem Counterparts.embeds {templates : List (String × Template)} {t t' : Table} {p q : Program}
    (h : Counterparts templates t t' p q) (more : Nat) :
    EmbedsAlike t.Links t'.Links (Render.embed p more) (Render.embed q more) := by
  induction more with
  | zero =>
    intro s name c n next c' n' next' data here link link'
    obtain ⟨v, v', hv, hv', hname, hname', -⟩ := h.links link link'
    rw [Render.embed, Render.embed, hv, hv']
    dsimp only
    rw [h.maxDepth, hname, hname']
    exact .of_error _
  | succ more ih =>
    intro s name c n next c' n' next' data here link link'
    obtain ⟨v, v', hv, hv', hname, hname', rendered⟩ := h.links link link'
    rw [Render.embed, Render.embed, hv, hv']
    dsimp only
    rw [h.missingKey, hname, hname']
    refine (LockStep.emit (.enter name)).bind (.bind_same _ fun root => ?_)
    exact (rendered ih _).bind (.emit .leave)

/-- The names of a complete table are those of templates that embed one another only. -/
theorem Table.Complete.closed {policy : Policy} {templates : List (String × Template)}
    {P : Context → Prop} {t : Table} (complete : t.Complete policy templates P) :
    Closed templates fun name => ∃ c n next, t.Links name c n next := by
  rintro name ⟨c, n, next, link⟩
  obtain ⟨v, x, -, -, hget, hbody⟩ := complete.variant link
  exact ⟨x, hget, hbody.embedsIn⟩

end Analysis

/-- The same templates and settings, but for escaping by context. -/
def TemplateSet.unescaped (set : TemplateSet) : TemplateSet :=
  { set with config := { set.config with autoescape := false } }

/-- What compiles with escaping compiles without it, and the two programs run in lock step on every
value: they differ in what outputs print, and in nothing else. -/
theorem TemplateSet.Reachable.lockStep_unescaped {set : TemplateSet} (h : set.Reachable)
    (escaping : set.config.autoescape = true) {entry : String} {p : Program}
    (compiled : set.compile entry = .ok p) :
    ∃ q, set.unescaped.compile entry = .ok q ∧ ∀ root, LockStep (p.run root) (q.run root) := by
  obtain ⟨hcontains, hunchecked⟩ := h.wellFormed.compile_eq_ok.mp compiled
  obtain ⟨⟨⟨number, next⟩, t⟩, hrun, hp⟩ := exists_of_bind_eq_ok hunchecked
  rw [Config.policy, if_pos escaping] at hrun hp
  cases hp
  obtain ⟨link, complete⟩ :=
    Analysis.enter_compiled Policy.contextual_preserves Context.shaped_start hrun
  obtain ⟨number', t', hrun', -, -⟩ := Analysis.enter_passes complete.closed
    (Analysis.room set.templates) entry .outside [] ⟨_, _, _, link⟩ Analysis.Table.plain_nil
    (by rw [Analysis.room, Analysis.contextLimit]; omega)
  obtain ⟨link', complete'⟩ :=
    Analysis.enter_compiled (Policy.verbatim_preserves fun _ => True) trivial hrun'
  let q : Program := ⟨entry, t'.variants .verbatim, number', set.unescaped.config⟩
  have wellFormed : set.unescaped.WellFormed := h.wellFormed
  refine ⟨q, wellFormed.compile_eq_ok.mpr ⟨hcontains, ?_⟩, fun root => ?_⟩
  · unfold Program.unchecked
    change ((Analysis.enter .verbatim set.templates (Analysis.room set.templates) entry .start
      .outside).run [] >>= _ : Except Error Program) = _
    rw [hrun']
    rfl
  · let p : Program := ⟨entry, t.variants .contextual, number, set.config⟩
    have counterparts : Analysis.Counterparts set.templates t t' p q :=
      ⟨⟨_, complete⟩, ⟨_, complete'⟩, rfl, rfl, rfl, rfl, h.wellFormed⟩
    obtain ⟨v, v', hv, hv', -, -, rendered⟩ := counterparts.links link link'
    change LockStep (p.run root) (q.run root)
    unfold Program.run
    rw [hv, hv']
    exact rendered (counterparts.embeds _) _

theorem TemplateSet.Reachable.lockStep_unescaped_memberPage :
    ∃ set p q, (TemplateSet.empty .standard).add "main" memberPage = .ok set ∧
      set.compile "main" = .ok p ∧ set.unescaped.compile "main" = .ok q ∧
        ∀ root, LockStep (p.run root) (q.run root) := by
  obtain ⟨set, p, hset, hp⟩ := memberPage_compiles
  have built : set.Reachable := .add (.empty .standard) hset
  have escaping : set.config.autoescape = true :=
    congrArg Config.autoescape (config_of_add_eq_ok hset)
  obtain ⟨q, hq, lockStep⟩ := built.lockStep_unescaped escaping hp
  exact ⟨set, p, q, hset, hp, hq, lockStep⟩

end Stencil
