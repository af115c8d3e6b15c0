import Stencil.Proofs.Markup.Parts
import Stencil.Proofs.Program.Sets
import Stencil.Proofs.Program.Unescaped
import Stencil.Proofs.Template.Numbering

/-!
# The structure of compiled programs

A compiled program is complete (`Program.WellFormed`): its entry is one of its variants, every
number in the listings of its variants is that of a row, every output has escapers, every embedded
template is linked to a variant of its name, and all pipelines are well formed.

The parts come from different places. The links are those of the table, which is complete when the
analysis ends (`Analysis.enter_compiled`); the escapers are those of a shaped context, which has
some (`Context.Shaped.escapers_ne_nil`); the pipelines are those of the sources, up to the escapers
at their ends. So the check at the end of a compilation finds nothing to refuse
(`Program.WellFormed.checked`), and a program is what it was before the check.
-/

set_option autoImplicit false

namespace Stencil

open Markup (Context)

/-- An output has escapers, and an embedded template is linked to a variant of its name. -/
def Instruction.Complete (variants : List Variant) : Instruction → Prop
  | .text _ => True
  | .output _ rules _ => rules ≠ []
  | .embed name target _ _ => ∃ v, variants[target]? = some v ∧ v.name = name

/-- The pipelines of an instruction. -/
def Instruction.pipelines : Instruction → List Pipeline
  | .text _ => []
  | .output p _ _ => [p]
  | .embed _ _ data _ => data.toList

/-- The pipelines of compiled trees. -/
abbrev instructionPipelines (ts : List (Tree Instruction)) : List Pipeline :=
  Tree.pipelinesOf Instruction.pipelines ts

/-- Nothing that a run of the program looks for is missing. -/
structure Program.WellFormed (p : Program) : Prop where
  entry : ∃ v, p.variants[p.entry]? = some v ∧ v.name = p.name
  numbered : ∀ v ∈ p.variants, (Listing.ofTrees v.body).InBounds
  complete : ∀ v ∈ p.variants, ∀ i ∈ Tree.leavesOf v.body, i.Complete p.variants
  counts : ∀ v ∈ p.variants, ∀ q ∈ instructionPipelines v.body, q.WellFormed

/-! ## Compiled trees -/

theorem Tree.mem_leaves_block {α : Type} {item : α} {kind : BlockKind} {subject : Pipeline}
    {body : List (Tree α)} {alternative : Option (List (Tree α))} {here : Location} :
    item ∈ Tree.leaves (.block kind subject body alternative here) ↔ item ∈ Tree.leavesOf body ∨
      ∃ other, alternative = some other ∧ item ∈ Tree.leavesOf other := by
  cases alternative with
  | none => simp [Tree.leaves]
  | some other => simp [Tree.leaves]

namespace Analysis

variable {policy : Policy} {link : Link} {P : Context → Prop} {variants : List Variant}

/-- The leaves that a policy and its links give are complete. -/
structure Completes (policy : Policy) (link : Link) (P : Context → Prop)
    (variants : List Variant) : Prop where
  kept : policy.Preserves P
  linked : ∀ name c n next, P c → link name c n next → P next
  escaped : ∀ c rules, P c → policy.escapers (policy.nudge c) = .ok rules → rules ≠ []
  found : ∀ name c n next, link name c n next → ∃ v, variants[n]? = some v ∧ v.name = name

mutual

/-- The leaves of a compiled tree are complete. -/
theorem Compiled.complete (h : Completes policy link P variants) {c next : Context}
    {x : Tree Piece} {u : Tree Instruction} (hc : P c) :
    Compiled policy link c x u next → ∀ i ∈ Tree.leaves u, i.Complete variants
  | .text content here _ => by
    rw [Tree.leaves, List.forall_mem_singleton]
    trivial
  | .output p here hrules => by
    rw [Tree.leaves, List.forall_mem_singleton]
    exact h.escaped c _ hc hrules
  | .embed data here hin hlink => by
    rw [Tree.leaves, List.forall_mem_singleton]
    exact h.found _ c _ _ hlink
  | .branch subject here hk hbody helse hjoin => fun i hi => by
    rcases Tree.mem_leaves_block.mp hi with hi | ⟨other, hother, hi⟩
    · exact hbody.complete h hc i hi
    · exact helse.complete h hc other hother i hi
  | .loop subject here honce hjoin hbody hfix => fun i hi => by
    have hstart := h.kept.join _ _ _ hc (honce.keeps h.kept h.linked hc) hjoin
    rcases Tree.mem_leaves_block.mp hi with hi | ⟨other, hother, hi⟩
    · exact hbody.complete h hstart i hi
    · cases hother
  | .loopElse subject here honce hjoin hbody hfix helse hnext => fun i hi => by
    have hstart := h.kept.join _ _ _ hc (honce.keeps h.kept h.linked hc) hjoin
    rcases Tree.mem_leaves_block.mp hi with hi | ⟨other, hother, hi⟩
    · exact hbody.complete h hstart i hi
    · cases hother
      exact helse.complete h hc i hi

theorem CompiledAll.complete (h : Completes policy link P variants) {c next : Context}
    {xs : List (Tree Piece)} {us : List (Tree Instruction)} (hc : P c) :
    CompiledAll policy link c xs us next → ∀ i ∈ Tree.leavesOf us, i.Complete variants
  | .nil c => by
    rw [Tree.leavesOf]
    nofun
  | .cons hx hrest => by
    rw [Tree.leavesOf, List.forall_mem_append]
    exact ⟨hx.complete h hc, hrest.complete h (hx.keeps h.kept h.linked hc)⟩

theorem CompiledElse.complete (h : Completes policy link P variants) {c next : Context}
    {xs : Option (List (Tree Piece))} {us : Option (List (Tree Instruction))} (hc : P c) :
    CompiledElse policy link c xs us next →
      ∀ other, us = some other → ∀ i ∈ Tree.leavesOf other, i.Complete variants
  | .none c, other, heq => by cases heq
  | .some hx, other, heq => by
    cases heq
    exact hx.complete h hc

end

variable {W : Pipeline → Prop}

mutual

/-- What holds of the pipelines of a tree holds of those of the compiled tree. -/
theorem Compiled.pipelines (prepared : ∀ p, W p → W (policy.prepare p)) {c next : Context}
    {x : Tree Piece} {u : Tree Instruction} :
    Compiled policy link c x u next → (∀ p ∈ Tree.pipelines Piece.pipelines x, W p) →
      ∀ p ∈ Tree.pipelines Instruction.pipelines u, W p
  | .text content here h, _ => by
    rw [Tree.pipelines]
    nofun
  | .output p here h, hW => by
    rw [Tree.pipelines] at hW ⊢
    exact List.forall_mem_singleton.mpr (prepared p (List.forall_mem_singleton.mp hW))
  | .embed data here hin hlink, hW => by
    rw [Tree.pipelines] at hW ⊢
    exact hW
  | .branch subject here hk hbody helse hjoin, hW => by
    simp only [Tree.mem_pipelines_block] at hW ⊢
    rintro p (rfl | hp | ⟨other, hother, hp⟩)
    · exact hW _ (.inl rfl)
    · exact hbody.pipelines prepared (fun q hq => hW q (.inr (.inl hq))) p hp
    · exact helse.pipelines prepared (fun _ h q hq => hW q (.inr (.inr ⟨_, h, hq⟩)))
        other hother p hp
  | .loop subject here honce hjoin hbody hfix, hW => by
    simp only [Tree.mem_pipelines_block] at hW ⊢
    rintro p (rfl | hp | ⟨other, ⟨⟩, hp⟩)
    · exact hW _ (.inl rfl)
    · exact hbody.pipelines prepared (fun q hq => hW q (.inr (.inl hq))) p hp
  | .loopElse subject here honce hjoin hbody hfix helse hnext, hW => by
    simp only [Tree.mem_pipelines_block] at hW ⊢
    rintro p (rfl | hp | ⟨other, ⟨⟩, hp⟩)
    · exact hW _ (.inl rfl)
    · exact hbody.pipelines prepared (fun q hq => hW q (.inr (.inl hq))) p hp
    · exact helse.pipelines prepared (fun q hq => hW q (.inr (.inr ⟨_, rfl, hq⟩))) p hp

theorem CompiledAll.pipelines (prepared : ∀ p, W p → W (policy.prepare p)) {c next : Context}
    {xs : List (Tree Piece)} {us : List (Tree Instruction)} :
    CompiledAll policy link c xs us next → (∀ p ∈ piecePipelines xs, W p) →
      ∀ p ∈ instructionPipelines us, W p
  | .nil c, _ => by
    rw [instructionPipelines, Tree.pipelinesOf_nil]
    nofun
  | .cons h hrest, hW => by
    rw [forall_mem_piecePipelines_cons] at hW
    rw [instructionPipelines, Tree.pipelinesOf_cons, List.forall_mem_append]
    exact ⟨h.pipelines prepared hW.1, hrest.pipelines prepared hW.2⟩

theorem CompiledElse.pipelines (prepared : ∀ p, W p → W (policy.prepare p)) {c next : Context}
    {xs : Option (List (Tree Piece))} {us : Option (List (Tree Instruction))} :
    CompiledElse policy link c xs us next →
      (∀ other, xs = some other → ∀ p ∈ piecePipelines other, W p) →
        ∀ other, us = some other → ∀ p ∈ instructionPipelines other, W p
  | .none c, _, other, heq => by cases heq
  | .some h, hW, other, heq => by
    cases heq
    exact h.pipelines prepared (hW _ rfl)

end

end Analysis

/-! ## Compiled programs -/

/-- The way to compile that the settings choose. -/
def Config.policy (config : Config) : Policy :=
  if config.autoescape then .contextual else .verbatim

/-- The variants of the entries of a table. -/
def Analysis.Table.variants (policy : Policy) (t : Analysis.Table) : List Variant :=
  t.map fun e => ⟨e.name, policy.place e.context, e.body⟩

/-- A program as it is before its check. -/
def Program.unchecked (templates : List (String × Template)) (entry : String) (config : Config) :
    Except Error Program := do
  let ((number, _), table) ← (Analysis.enter config.policy templates (Analysis.room templates)
    entry .start .outside).run []
  pure ⟨entry, Analysis.Table.variants config.policy table, number, config⟩

theorem Program.compile_eq (templates : List (String × Template)) (entry : String)
    (config : Config) :
    Program.compile templates entry config =
      Program.unchecked templates entry config >>= Program.checked := by
  unfold Program.unchecked
  rw [bind_assoc]
  rfl

/-- A program has the variants of the table that the analysis makes. -/
theorem Program.unchecked_eq_ok {templates : List (String × Template)} {entry : String}
    {config : Config} {p : Program} (h : Program.unchecked templates entry config = .ok p) :
    ∃ number next t, (Analysis.enter config.policy templates (Analysis.room templates) entry .start
        .outside).run [] = .ok ((number, next), t) ∧
      p = ⟨entry, Analysis.Table.variants config.policy t, number, config⟩ := by
  obtain ⟨⟨⟨number, next⟩, t⟩, hrun, hp⟩ := exists_of_bind_eq_ok h
  cases hp
  exact ⟨number, next, t, hrun, rfl⟩

/-- What a complete table gives for an entry is complete. -/
theorem Analysis.Table.Complete.wellFormed {policy : Policy} {templates : List (String × Template)}
    {P : Context → Prop} {t : Table} {entry : String} {c next : Context} {number : Nat}
    {config : Config} (complete : t.Complete policy templates P)
    (link : t.Links entry c number next) (kept : policy.Preserves P)
    (escaped : ∀ c rules, P c → policy.escapers (policy.nudge c) = .ok rules → rules ≠ [])
    (prepared : ∀ p : Pipeline, p.WellFormed → (policy.prepare p).WellFormed)
    (counts : ∀ name t, Record.get? templates name = some t →
      ∀ p ∈ piecePipelines t.body, p.WellFormed) :
    Program.WellFormed ⟨entry, t.variants policy, number, config⟩ := by
  have found (name : String) (c : Context) (n : Nat) (next : Context) (h : t.Links name c n next) :
      ∃ v, (t.variants policy)[n]? = some v ∧ v.name = name := by
    obtain ⟨e, hn, hname, -⟩ := h
    exact ⟨⟨e.name, policy.place e.context, e.body⟩, by
      rw [Table.variants, List.getElem?_map, hn, Option.map_some], hname⟩
  have completes : Completes policy t.Links P (t.variants policy) :=
    ⟨kept, fun _ _ _ _ _ h => (complete.link h).2.1, escaped, found⟩
  have bodies : ∀ v ∈ t.variants policy, ∃ c stop template, P c ∧
      Record.get? templates v.name = some template ∧
        CompiledAll policy t.Links c template.body v.body stop := by
    intro v hv
    obtain ⟨e, he, rfl⟩ := List.mem_map.mp hv
    obtain ⟨n, hn⟩ := List.getElem?_of_mem he
    obtain ⟨hc, stop, -, -, template, hget, hbody⟩ := complete n e hn
    exact ⟨e.context, stop, template, hc, hget, hbody⟩
  refine ⟨found _ _ _ _ link, fun v _ => Listing.ofTrees_inBounds v.body, fun v hv => ?_,
    fun v hv => ?_⟩
  · obtain ⟨c, stop, template, hc, -, hbody⟩ := bodies v hv
    exact hbody.complete completes hc
  · obtain ⟨c, stop, template, -, hget, hbody⟩ := bodies v hv
    exact hbody.pipelines prepared (counts _ _ hget)

theorem Policy.contextual_preserves : Policy.contextual.Preserves Context.Shaped where
  text _ cs h _ := h.advance cs
  output _ _ h _ := h.nudge.afterOutput
  join _ _ _ ha hb h := ha.join hb h

theorem Policy.verbatim_preserves (P : Context → Prop) : Policy.verbatim.Preserves P where
  text _ _ h _ := h
  output _ _ h _ := h
  join a b c ha _ h := by
    cases h
    exact ha

/-- A program is complete before its check. -/
theorem Program.wellFormed_of_unchecked {set : TemplateSet} (counts : set.WellFormed)
    {entry : String} {p : Program}
    (h : Program.unchecked set.templates entry set.config = .ok p) : p.WellFormed := by
  obtain ⟨number, next, t, hrun, rfl⟩ := Program.unchecked_eq_ok h
  cases hescape : set.config.autoescape with
  | true =>
    rw [Config.policy, if_pos hescape] at hrun ⊢
    obtain ⟨link, complete⟩ :=
      Analysis.enter_compiled Policy.contextual_preserves Context.shaped_start hrun
    refine complete.wellFormed link Policy.contextual_preserves (fun c rules hc hrules => ?_)
      (fun _ => Pipeline.WellFormed.withoutEscapers) counts
    exact hc.nudge.escapers_ne_nil hrules
  | false =>
    rw [Config.policy, if_neg (by rw [hescape]; nofun)] at hrun ⊢
    obtain ⟨link, complete⟩ :=
      Analysis.enter_compiled (Policy.verbatim_preserves fun _ => True) trivial hrun
    refine complete.wellFormed link (Policy.verbatim_preserves _) (fun c rules _ hrules => ?_)
      (fun _ => id) counts
    cases hrules
    exact List.cons_ne_nil _ _

/-- The check of a variant finds nothing to refuse where all leaves are complete. -/
theorem Variant.check_of_complete {v : Variant} {variants : List Variant}
    (h : ∀ i ∈ Tree.leavesOf v.body, i.Complete variants) :
    v.check variants.length = .ok () := by
  refine forM_eq_ok fun i hi => ?_
  have complete := h i hi
  cases i with
  | text content => rfl
  | output p rules here =>
    cases rules with
    | nil => exact absurd rfl complete
    | cons rule rules => rfl
  | embed name target data here =>
    obtain ⟨w, hw, -⟩ := complete
    exact if_pos (List.getElem?_eq_some_iff.mp hw).1

/-- The check of a complete program finds nothing to refuse. -/
theorem Program.WellFormed.checked {p : Program} (h : p.WellFormed) : p.checked = .ok p := by
  have all : (p.variants.forM fun v => v.check p.variants.length) = .ok () :=
    forM_eq_ok fun v hv => Variant.check_of_complete (h.complete v hv)
  unfold Program.checked
  rw [all]
  rfl

/-- In a well-formed set, the check of a program changes nothing. -/
theorem TemplateSet.WellFormed.compile_unchecked {set : TemplateSet} (counts : set.WellFormed)
    (entry : String) : set.compile entry =
      if set.contains entry then Program.unchecked set.templates entry set.config
      else .error (.undefined entry .outside) := by
  unfold TemplateSet.compile
  split
  · rw [Program.compile_eq]
    cases hp : Program.unchecked set.templates entry set.config with
    | error e => rfl
    | ok p => exact (Program.wellFormed_of_unchecked counts hp).checked
  · rfl

/-- Where all pipelines are well formed, an entry compiles to what it gives before the check. -/
theorem TemplateSet.WellFormed.compile_eq_ok {set : TemplateSet} (counts : set.WellFormed)
    {entry : String} {p : Program} : set.compile entry = .ok p ↔
      set.contains entry = true ∧ Program.unchecked set.templates entry set.config = .ok p := by
  rw [counts.compile_unchecked]
  split
  · next hcontains => exact (and_iff_right hcontains).symm
  · next hcontains => exact ⟨nofun, fun h => absurd h.1 hcontains⟩

end Stencil
