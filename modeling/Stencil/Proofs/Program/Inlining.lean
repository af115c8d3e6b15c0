import Stencil.Proofs.Program.Sparing
import Stencil.Proofs.Program.Structure
import Stencil.Proofs.Render.Shown

/-!
# Inlining an embedded template

A guest that a host embeds with the current value can be written out where it stands
(`TemplateSet.Reachable.inline`). That is what a compilation to variants promises: a variant is
compiled once for its context, and does there what its trees would do in place.

What was compiled with the embedding compiles without it (`Analysis.Inlines.enter`). The two tables
then agree on every template in every context, so the variants are compiled from the same trees to
the same instructions, up to the numbers of what they embed (`Analysis.CompiledAll.renumbered`); in
the host, the trees of the guest's variant stand for the embedding
(`Analysis.CompiledAll.replaced`). So the second program is the first with the guest inlined
(`Program.Inlined`), and its runs show the same (`Program.Inlined.run_showsUpTo`).

The limit on embedded templates is where the programs differ: the guest counts against it where it
is embedded, and does not where it is inlined.
-/

set_option autoImplicit false

namespace Stencil

open Analysis (EmbedsIn Leads Inlines enter_compiled)
open Markup (Context)

/-- Instructions that are the same but for the numbers of variants. -/
inductive Instruction.Renumbered (R : Nat → Nat → Prop) : Instruction → Instruction → Prop where
  | text (content : String) : Renumbered R (.text content) (.text content)
  | output (p : Pipeline) (rules : List Escaper) (here : Location) :
      Renumbered R (.output p rules here) (.output p rules here)
  | embed {n n' : Nat} (name : String) (data : Option Pipeline) (here : Location) : R n n' →
      Renumbered R (.embed name n data here) (.embed name n' data here)

namespace Analysis

/-! ## Compiled trees -/

section

variable {policy : Policy} {link link' : Link} {R : Nat → Nat → Prop}

/-- What two ways to link give for a template in a context has the same end, and related numbers. -/
def LinksAgree (link link' : Link) (R : Nat → Nat → Prop) : Prop :=
  ∀ name c n next n' next', link name c n next → link' name c n' next' → next = next' ∧ R n n'

mutual

/-- A tree compiles to one tree only, up to the numbers of what it embeds. -/
theorem Compiled.renumbered (agree : LinksAgree link link' R) {c next next' : Context}
    {x : Tree Piece} {u v : Tree Instruction} :
    Compiled policy link c x u next → Compiled policy link' c x v next' →
      next = next' ∧ Tree.Matches (Instruction.Renumbered R) u v
  | .text content here h, h' => by
    cases h'
    exact ⟨rfl, .leaf (.text content)⟩
  | .output p here h, h' => by
    cases h' with
    | output _ _ hrules =>
      rw [h] at hrules
      cases hrules
      exact ⟨rfl, .leaf (.output _ _ here)⟩
  | .embed data here hin hlink, h' => by
    cases h' with
    | embed _ _ _ hlink' =>
      obtain ⟨heq, hR⟩ := agree _ _ _ _ _ _ hlink hlink'
      exact ⟨heq, .leaf (.embed _ data here hR)⟩
  | .branch subject here hk hbody helse hjoin, h' => by
    cases h' with
    | branch _ _ _ hbody' helse' hjoin' =>
      obtain ⟨rfl, first⟩ := hbody.renumbered agree hbody'
      obtain ⟨rfl, second⟩ := helse.renumbered agree helse'
      rw [hjoin] at hjoin'
      exact ⟨Option.some.inj hjoin', .block _ subject here first second⟩
    | loop => exact absurd rfl hk
    | loopElse => exact absurd rfl hk
  | .loop subject here honce hjoin hbody hfix, h' => by
    cases h' with
    | branch _ _ hk => exact absurd rfl hk
    | loop _ _ honce' hjoin' hbody' hfix' =>
      obtain ⟨rfl, -⟩ := honce.renumbered agree honce'
      rw [hjoin] at hjoin'
      cases hjoin'
      exact ⟨rfl, .block _ subject here (hbody.renumbered agree hbody').2 .none⟩
  | .loopElse subject here honce hjoin hbody hfix helse hnext, h' => by
    cases h' with
    | branch _ _ hk => exact absurd rfl hk
    | loopElse _ _ honce' hjoin' hbody' hfix' helse' hnext' =>
      obtain ⟨rfl, -⟩ := honce.renumbered agree honce'
      rw [hjoin] at hjoin'
      cases hjoin'
      obtain ⟨rfl, second⟩ := helse.renumbered agree helse'
      rw [hnext] at hnext'
      cases hnext'
      exact ⟨rfl, .block _ subject here (hbody.renumbered agree hbody').2 (.some second)⟩

theorem CompiledAll.renumbered (agree : LinksAgree link link' R) {c next next' : Context}
    {xs : List (Tree Piece)} {us vs : List (Tree Instruction)} :
    CompiledAll policy link c xs us next → CompiledAll policy link' c xs vs next' →
      next = next' ∧ Tree.MatchesAll (Instruction.Renumbered R) us vs
  | .nil c, h' => by
    cases h'
    exact ⟨rfl, .nil⟩
  | .cons hx hrest, h' => by
    cases h' with
    | cons hx' hrest' =>
      obtain ⟨rfl, first⟩ := hx.renumbered agree hx'
      obtain ⟨rfl, others⟩ := hrest.renumbered agree hrest'
      exact ⟨rfl, .cons first others⟩

theorem CompiledElse.renumbered (agree : LinksAgree link link' R) {c next next' : Context}
    {xs : Option (List (Tree Piece))} {us vs : Option (List (Tree Instruction))} :
    CompiledElse policy link c xs us next → CompiledElse policy link' c xs vs next' →
      next = next' ∧ Tree.MatchesElse (Instruction.Renumbered R) us vs
  | .none c, h' => by
    cases h'
    exact ⟨rfl, .none⟩
  | .some h, h' => by
    cases h' with
    | some h' =>
      obtain ⟨heq, same⟩ := h.renumbered agree h'
      exact ⟨heq, .some same⟩

end

/-- Trees behind others are compiled in the context behind these. -/
theorem CompiledAll.exists_of_append {c next : Context} {xs ys : List (Tree Piece)}
    {vs : List (Tree Instruction)} (h : CompiledAll policy link c (xs ++ ys) vs next) :
    ∃ us ws mid, vs = us ++ ws ∧ CompiledAll policy link c xs us mid ∧
      CompiledAll policy link mid ys ws next := by
  induction xs generalizing c vs with
  | nil => exact ⟨[], vs, c, rfl, .nil c, h⟩
  | cons x xs ih =>
    cases h with
    | cons hx hrest =>
      obtain ⟨us, ws, mid, rfl, first, second⟩ := ih hrest
      exact ⟨_, ws, mid, rfl, .cons hx first, second⟩

/-- Trees in which an embedded template is replaced by trees compile as the trees before, up to
numbers, with what the new trees are compiled to in place of the embedding. -/
theorem CompiledAll.replaced (agree : LinksAgree link link' R) {guest : String}
    {data : Option Pipeline} {here : Location} {new : List (Tree Piece)}
    {W : Nat → List (Tree Instruction) → Prop}
    (linked : ∀ c n next, link guest c n next →
      ∃ ws, W n ws ∧ CompiledAll policy link c new ws next)
    {xs ys : List (Tree Piece)} (h : Tree.Replaced (.embed guest data here) new xs ys)
    {c next next' : Context} {us vs : List (Tree Instruction)}
    (hus : CompiledAll policy link c xs us next) (hvs : CompiledAll policy link' c ys vs next') :
    next = next' ∧ ∃ n ws mid, W n ws ∧ Tree.Replaced (.embed guest n data here) ws us mid ∧
      Tree.MatchesAll (Instruction.Renumbered R) mid vs := by
  induction h generalizing c next next' us vs with
  | here rest =>
    cases hus with
    | cons hx hrest =>
      cases hx with
      | embed _ _ _ hlink =>
        obtain ⟨ws, hW, hguest⟩ := linked _ _ _ hlink
        obtain ⟨ws', others', stop, rfl, hguest', hrest'⟩ := hvs.exists_of_append
        obtain ⟨rfl, first⟩ := hguest.renumbered agree hguest'
        obtain ⟨rfl, others⟩ := hrest.renumbered agree hrest'
        exact ⟨rfl, _, ws, _, hW, .here _, first.append others⟩
  | behind t _ ih =>
    cases hus with
    | cons hx hrest =>
      cases hvs with
      | cons hx' hrest' =>
        obtain ⟨rfl, first⟩ := hx.renumbered agree hx'
        obtain ⟨rfl, n, ws, mid, hW, replaced, others⟩ := ih hrest hrest'
        exact ⟨rfl, n, ws, _, hW, .behind _ replaced, .cons first others⟩
  | body subject alternative here rest _ ih =>
    cases hus with
    | cons hx hrest =>
      cases hvs with
      | cons hx' hrest' =>
        cases hx with
        | branch _ _ _ hbody helse hjoin =>
          cases hx' with
          | branch _ _ _ hbody' helse' hjoin' =>
            obtain ⟨rfl, n, ws, mid, hW, replaced, inner⟩ := ih hbody hbody'
            obtain ⟨rfl, second⟩ := helse.renumbered agree helse'
            rw [hjoin] at hjoin'
            cases hjoin'
            obtain ⟨rfl, others⟩ := hrest.renumbered agree hrest'
            exact ⟨rfl, n, ws, _, hW, .body subject _ here _ replaced,
              .cons (.block _ subject here inner second) others⟩
  | alternative kind subject body here rest _ ih =>
    cases hus with
    | cons hx hrest =>
      cases hvs with
      | cons hx' hrest' =>
        cases hx with
        | branch _ _ hk hbody helse hjoin =>
          cases helse with
          | some hother =>
            cases hx' with
            | branch _ _ _ hbody' helse' hjoin' =>
              cases helse' with
              | some hother' =>
                obtain ⟨rfl, first⟩ := hbody.renumbered agree hbody'
                obtain ⟨rfl, n, ws, mid, hW, replaced, inner⟩ := ih hother hother'
                rw [hjoin] at hjoin'
                cases hjoin'
                obtain ⟨rfl, others⟩ := hrest.renumbered agree hrest'
                exact ⟨rfl, n, ws, _, hW, .alternative kind subject _ here _ replaced,
                  .cons (.block _ subject here first (.some inner)) others⟩
            | loopElse => exact absurd rfl hk
        | loopElse _ _ honce hjoin hbody hfix hother hnext =>
          cases hx' with
          | branch _ _ hk => exact absurd rfl hk
          | loopElse _ _ honce' hjoin' hbody' hfix' hother' hnext' =>
            obtain ⟨rfl, -⟩ := honce.renumbered agree honce'
            rw [hjoin] at hjoin'
            cases hjoin'
            obtain ⟨-, first⟩ := hbody.renumbered agree hbody'
            obtain ⟨rfl, n, ws, mid, hW, replaced, inner⟩ := ih hother hother'
            rw [hnext] at hnext'
            cases hnext'
            obtain ⟨rfl, others⟩ := hrest.renumbered agree hrest'
            exact ⟨rfl, n, ws, _, hW, .alternative _ subject _ here _ replaced,
              .cons (.block _ subject here first (.some inner)) others⟩

end

end Analysis

/-! ## Programs -/

/-- Variants of two programs that are of one template at one place. -/
def Program.SameVariant (p q : Program) (n n' : Nat) : Prop :=
  ∃ v v', p.variants[n]? = some v ∧ q.variants[n']? = some v' ∧ v.name = v'.name ∧
    v.place = v'.place

/-- Trees of two programs that are the same but for the numbers of the variants they embed. -/
def Program.SameTrees (p q : Program) : List (Tree Instruction) → List (Tree Instruction) → Prop :=
  Tree.MatchesAll (Instruction.Renumbered (p.SameVariant q))

/-- The trees of the second program are those of the first, with an embedded guest replaced by the
trees of the variant that it is linked to. -/
def Program.InlinedTrees (p q : Program) (guest : String) (data : Option Pipeline)
    (here : Location) (ts us : List (Tree Instruction)) : Prop :=
  ∃ n w mid, p.variants[n]? = some w ∧ w.name = guest ∧
    Tree.Replaced (.embed guest n data here) w.body ts mid ∧ p.SameTrees q mid us

/-- The second program is the first with an embedded guest inlined in its host, at every place at
which the host is written. -/
structure Program.Inlined (host guest : String) (data : Option Pipeline) (here : Location)
    (p q : Program) : Prop where
  config : q.config = p.config
  entry : p.SameVariant q p.entry q.entry
  found : ∀ v' ∈ q.variants, ∃ v ∈ p.variants, v.name = v'.name ∧ v.place = v'.place
  hosts : ∀ v ∈ p.variants, ∀ v' ∈ q.variants, v.name = v'.name → v.place = v'.place →
    v.name = host → p.InlinedTrees q guest data here v.body v'.body
  others : ∀ v ∈ p.variants, ∀ v' ∈ q.variants, v.name = v'.name → v.place = v'.place →
    v.name ≠ host → p.SameTrees q v.body v'.body

namespace Analysis

section

variable {templates templates' : List (String × Template)} {host guest entry : String}
  {data : Option Pipeline} {here : Location} {new : List (Tree Piece)} {t t' : Table}
  {number number' : Nat} {config : Config} {B : String → Prop}

theorem Table.getElem?_variants {policy : Policy} {n : Nat} {v : Variant} :
    (t.variants policy)[n]? = some v ↔
      ∃ e, t[n]? = some e ∧ ⟨e.name, policy.place e.context, e.body⟩ = v := by
  rw [Table.variants, List.getElem?_map, Option.map_eq_some_iff]

/-- Links of two tables for one template in one context lead to variants that are the same. -/
theorem Table.Links.sameVariant {policy : Policy} {name : String} {c next next' : Context}
    {n n' : Nat} (link : t.Links name c n next) (link' : t'.Links name c n' next') :
    Program.SameVariant ⟨entry, t.variants policy, number, config⟩
      ⟨entry, t'.variants policy, number', config⟩ n n' := by
  obtain ⟨e, hn, hname, hc, -⟩ := link
  obtain ⟨e', hn', hname', hc', -⟩ := link'
  exact ⟨_, _, Table.getElem?_variants.mpr ⟨e, hn, rfl⟩, Table.getElem?_variants.mpr ⟨e', hn', rfl⟩,
    hname.trans hname'.symm, congrArg policy.place (hc.trans hc'.symm)⟩

/-- Complete tables for a host with and without an embedded guest give programs of which the second
is the first with the guest inlined. -/
theorem Paired.inlined (h : Inlines templates templates' host guest data here new)
    (paired : Paired .contextual templates templates' guest B t t')
    (complete : t.Complete .contextual templates fun _ => True)
    (complete' : t'.Complete .contextual templates' fun _ => True) {c next next' : Context}
    (link : t.Links entry c number next) (link' : t'.Links entry c number' next') :
    Program.Inlined host guest data here ⟨entry, t.variants .contextual, number, config⟩
      ⟨entry, t'.variants .contextual, number', config⟩ := by
  let p : Program := ⟨entry, t.variants .contextual, number, config⟩
  let q : Program := ⟨entry, t'.variants .contextual, number', config⟩
  have agree : LinksAgree t.Links t'.Links (p.SameVariant q) :=
    fun _ _ _ _ _ _ link link' => ⟨paired.links link link', link.sameVariant link'⟩
  -- what the variants of one template at one place are compiled from
  have compiled : ∀ v ∈ p.variants, ∀ v' ∈ q.variants, v.name = v'.name → v.place = v'.place →
      ∃ c stop stop' x x', Record.get? templates v.name = some x ∧
        Record.get? templates' v.name = some x' ∧
        CompiledAll .contextual t.Links c x.body v.body stop ∧
        CompiledAll .contextual t'.Links c x'.body v'.body stop' := by
    rintro v hv v' hv' hname hplace
    obtain ⟨e, he, rfl⟩ := List.mem_map.mp hv
    obtain ⟨e', he', rfl⟩ := List.mem_map.mp hv'
    obtain ⟨n, hn⟩ := List.getElem?_of_mem he
    obtain ⟨n', hn'⟩ := List.getElem?_of_mem he'
    obtain ⟨-, stop, -, -, x, hx, hbody⟩ := complete n e hn
    obtain ⟨-, stop', -, -, x', hx', hbody'⟩ := complete' n' e' hn'
    have hc : e.context = e'.context := Place.markup.inj hplace
    rw [← hc] at hbody'
    exact ⟨e.context, stop, stop', x, x', hx, hname ▸ hx', hbody, hbody'⟩
  refine ⟨rfl, link.sameVariant link', fun v' hv' => ?_, fun v hv v' hv' hname hplace hhost => ?_,
    fun v hv v' hv' hname hplace hne => ?_⟩
  · obtain ⟨e', he', rfl⟩ := List.mem_map.mp hv'
    obtain ⟨n', hn'⟩ := List.getElem?_of_mem he'
    have found := Table.lookup?_of_getElem? paired.budgeted'.distinct hn'
    obtain ⟨e, he, -⟩ := paired.spares.found _ e' found
    obtain ⟨hmem, hkey⟩ := Table.mem_of_lookup? he
    obtain ⟨hname, hc⟩ := Prod.mk.inj hkey
    exact ⟨_, List.mem_map_of_mem hmem, hname, congrArg Place.markup hc⟩
  · obtain ⟨c, stop, stop', x, x', hx, hx', hbody, hbody'⟩ := compiled v hv v' hv' hname hplace
    obtain ⟨y, y', hy, hy', replaced⟩ := h.replaced
    rw [hhost] at hx hx'
    obtain rfl := Option.some.inj (hx.symm.trans hy)
    obtain rfl := Option.some.inj (hx'.symm.trans hy')
    have linked (c : Context) (n : Nat) (next : Context) (link : t.Links guest c n next) :
        ∃ ws, (∃ w, p.variants[n]? = some w ∧ w.name = guest ∧ w.body = ws) ∧
          CompiledAll .contextual t.Links c new ws next := by
      obtain ⟨w, z, hw, hname, hz, hguest⟩ := complete.variant link
      obtain ⟨z', hz', rfl⟩ := h.embedded
      obtain rfl := Option.some.inj (hz.symm.trans hz')
      exact ⟨w.body, ⟨w, hw, hname, rfl⟩, hguest⟩
    obtain ⟨-, n, _, mid, ⟨w, hw, hname, rfl⟩, inlined, same⟩ :=
      CompiledAll.replaced agree linked replaced hbody hbody'
    exact ⟨n, w, mid, hw, hname, inlined, same⟩
  · obtain ⟨c, stop, stop', x, x', hx, hx', hbody, hbody'⟩ := compiled v hv v' hv' hname hplace
    rw [h.others _ hne] at hx'
    obtain rfl := Option.some.inj (hx.symm.trans hx')
    exact (hbody.renumbered agree hbody').2

end

end Analysis

/-! ## Runs -/

section

variable {host guest : String} {dot : Pipeline} {here : Location} {p q : Program}

/-- Where the leaves of the two programs show the same, variants of one template at one place do. -/
theorem Program.Inlined.bodies_show (h : Inlined host guest (some dot) here p q) (isDot : dot.IsDot)
    {more : Nat} (leaves : Render.LeavesShow Error.IsTooDeep
      (Instruction.Renumbered (p.SameVariant q)) (Render.embed p more) (Render.embed q more))
    {v v' : Variant} (hv : v ∈ p.variants) (hv' : v' ∈ q.variants) (hname : v.name = v'.name)
    (hplace : v.place = v'.place) (root : Value) :
    (Render.trees (Render.embed p more) (.start root p.config.missingKey) v.body).ShowsUpTo
      Error.IsTooDeep
      (Render.trees (Render.embed q more) (.start root p.config.missingKey) v'.body) := by
  by_cases hhost : v.name = host
  · obtain ⟨n, w, mid, hw, -, replaced, same⟩ := h.hosts v hv v' hv' hname hplace hhost
    have current : Render.data (.start root p.config.missingKey) (some dot) = .ok root :=
      isDot.eval _
    exact (Render.trees_replaced (p.embed_showsUpTo hw current more guest here) replaced).trans
      (Render.trees_matches leaves _ same)
  · exact Render.trees_matches leaves _ (h.others v hv v' hv' hname hplace hhost)

/-- Leaves of the two programs show the same, down to any depth. -/
theorem Program.Inlined.leaves_show (h : Inlined host guest (some dot) here p q) (isDot : dot.IsDot)
    (more : Nat) :
    Render.LeavesShow Error.IsTooDeep (Instruction.Renumbered (p.SameVariant q))
      (Render.embed p more) (Render.embed q more) := by
  induction more with
  | zero =>
    rintro s i i' (_ | _ | ⟨name, data, here, v, v', hv, hv', -⟩)
    · exact .refl _
    · exact .refl _
    · rw [Render.instruction, Render.embed, hv]
      exact ⟨fun avoids => absurd rfl (avoids _ rfl), List.nil_prefix⟩
  | succ more ih =>
    rintro s i i' (_ | _ | ⟨name, data, here, v, v', hv, hv', hname, hplace⟩)
    · exact .refl _
    · exact .refl _
    · rw [Render.instruction, Render.instruction, Render.embed, Render.embed, hv, hv']
      dsimp only
      rw [h.config, hname]
      refine (Run.ShowsUpTo.refl _).bind fun _ => (Run.ShowsUpTo.refl _).bind fun root => ?_
      exact (h.bodies_show isDot ih (List.mem_of_getElem? hv) (List.mem_of_getElem? hv') hname
        hplace root).bind fun _ => .refl _

/-- The run of a program shows the same with a guest inlined, up to the limit on embedded
templates. -/
theorem Program.Inlined.run_showsUpTo (h : Inlined host guest (some dot) here p q)
    (isDot : dot.IsDot) (root : Value) :
    (p.run root).ShowsUpTo Error.IsTooDeep (q.run root) := by
  obtain ⟨v, v', hv, hv', hname, hplace⟩ := h.entry
  unfold Program.run
  rw [hv, hv', h.config]
  exact h.bodies_show isDot (h.leaves_show isDot _) (List.mem_of_getElem? hv)
    (List.mem_of_getElem? hv') hname hplace root

end

/-! ## Sets -/

namespace TemplateSet

/-- A set stays well formed where a template with well-formed pipelines is put into it. -/
theorem WellFormed.insert {set : TemplateSet} (h : set.WellFormed) {t : Template}
    (counts : ∀ p ∈ piecePipelines t.body, p.WellFormed) : (set.insert t).WellFormed := by
  intro name u hu
  rw [get?_insert] at hu
  split at hu
  · cases hu
    exact counts
  · exact h name u hu

theorem contains_insert {set : TemplateSet} {name : String} (t : Template)
    (h : set.contains name = true) : (set.insert t).contains name = true := by
  unfold contains at h ⊢
  rw [get?_insert]
  split
  · rfl
  · exact h

/-- A set with a guest inlined in one of its templates. -/
theorem inlines_insert {set : TemplateSet} {host guest : String} {x d : Template}
    {body : List (Tree Piece)} {data : Option Pipeline} {here : Location} (named : x.name = host)
    (hx : set.get? host = some x) (hd : set.get? guest = some d)
    (once : EmbedsIn (fun other => ¬ Leads set.templates other guest) d.body)
    (replaced : Tree.Replaced (.embed guest data here) d.body x.body body) :
    Inlines set.templates (set.insert { x with body }).templates host guest data here d.body where
  embedded := ⟨d, hd, rfl⟩
  once := once
  replaced := ⟨x, { x with body }, hx, (get?_insert ..).trans (if_pos named.symm), replaced⟩
  others _ hne := (get?_insert ..).trans (if_neg (named ▸ hne))

/-- **Embedding a template is writing it out.** A guest can be inlined where it is embedded with the
current value, outside of loops and `with` blocks, if none of the templates that it embeds leads to
it; a guest that leads to its host would lead to itself. What compiles with the embedding compiles
without it. The outputs of the guest then have the escapers that they have in the variant that was
embedded, and a rendering that does not meet the limit on embedded templates stays what it is. -/
theorem Reachable.inline {set : TemplateSet} (h : set.Reachable)
    (escaping : set.config.autoescape = true) {entry host guest : String} {p : Program}
    (compiled : set.compile entry = .ok p) {x d : Template} (hx : set.get? host = some x)
    (hd : set.get? guest = some d)
    (once : EmbedsIn (fun other => ¬ Leads set.templates other guest) d.body) {dot : Pipeline}
    (isDot : dot.IsDot) {here : Location} {body : List (Tree Piece)}
    (replaced : Tree.Replaced (.embed guest (some dot) here) d.body x.body body) :
    ∃ q, (set.insert { x with body }).compile entry = .ok q ∧
      Program.Inlined host guest (some dot) here p q ∧ ∀ root,
        (Avoids Error.IsTooDeep (p.run root).outcome →
          (q.run root).written = (p.run root).written ∧
            (q.run root).outcome = (p.run root).outcome) ∧
        ∀ sink, Avoids Error.IsTooDeep (p.execute root sink).2 →
          q.execute root sink = p.execute root sink := by
  have counts := h.wellFormed
  have named : x.name = host := (h.get?_of (Q := fun _ => True) (fun _ _ _ _ _ _ => trivial) hx).1
  let set' := set.insert { x with body }
  have counts' : set'.WellFormed :=
    counts.insert (replaced.pipelinesOf (counts host x hx) (counts guest d hd))
  have inlines : Inlines set.templates set'.templates host guest (some dot) here d.body :=
    inlines_insert named hx hd once replaced
  obtain ⟨hcontains, hunchecked⟩ := counts.compile_eq_ok.mp compiled
  obtain ⟨number, next, t, hrun, rfl⟩ := Program.unchecked_eq_ok hunchecked
  rw [Config.policy, if_pos escaping] at hrun ⊢
  obtain ⟨number', t', hrun', paired⟩ := inlines.enter hrun
  have kept := Analysis.Policy.preserves_true .contextual
  obtain ⟨link, complete⟩ := enter_compiled kept trivial hrun
  obtain ⟨link', complete'⟩ := enter_compiled kept trivial hrun'
  let p : Program := ⟨entry, t.variants .contextual, number, set.config⟩
  let q : Program := ⟨entry, t'.variants .contextual, number', set.config⟩
  have inlined : Program.Inlined host guest (some dot) here p q :=
    paired.inlined inlines complete complete' link link'
  have hunchecked' : Program.unchecked set'.templates entry set'.config = .ok q := by
    have policy : set'.config.policy = .contextual := if_pos escaping
    unfold Program.unchecked
    rw [policy, hrun']
    rfl
  have compiled' : set'.compile entry = .ok q :=
    counts'.compile_eq_ok.mpr ⟨contains_insert _ hcontains, hunchecked'⟩
  refine ⟨q, compiled', inlined, fun root => ?_⟩
  have shows := inlined.run_showsUpTo isDot root
  refine ⟨fun avoids => ?_, fun sink => (Program.execute_showsUpTo shows sink).1⟩
  have same : (q.run root).shown = (p.run root).shown := shows.same avoids
  exact ⟨by rw [← Run.written_shown, same, Run.written_shown], (congrArg Run.outcome same :)⟩

/-- A page with a title that a template of its own writes, in the body of a condition. -/
def titledPage : String :=
  let action (body : String) := "\x7b\x7b" ++ body ++ "\x7d\x7d"
  action "define \"title\"" ++ action "." ++ action "end" ++
    "<p title=\"" ++ action "if ." ++ action "template \"title\" ." ++ action "end" ++ "\">"

/-- Whether trees are a text, a condition with an embedded template whose data is a dot, and a
text. -/
def isTitled : List (Tree Piece) → Bool
  | [.leaf (.text _ _), .block .cond _ [.leaf (.embed name (some ⟨[.operand (.path ⟨.dot, [], _⟩)],
      _⟩) _)] none _, .leaf (.text _ _)] => name = "title"
  | _ => false

/-- A titled body can have any trees in place of the embedded template. -/
theorem exists_replaced_of_isTitled {ts : List (Tree Piece)} (h : isTitled ts = true)
    (new : List (Tree Piece)) : ∃ dot here us, Pipeline.IsDot dot ∧
      Tree.Replaced (.embed "title" (some dot) here) new ts us := by
  unfold isTitled at h
  split at h
  · obtain rfl := of_decide_eq_true h
    exact ⟨_, _, _, ⟨_, rfl⟩, .behind _ (.body _ _ _ _ (.here _))⟩
  · cases h

/-- Whether trees are a single output. -/
def isOutput : List (Tree Piece) → Bool
  | [.leaf (.output _ _)] => true
  | _ => false

theorem embedsIn_of_isOutput {ts : List (Tree Piece)} (h : isOutput ts = true)
    (S : String → Prop) : EmbedsIn S ts := by
  unfold isOutput at h
  split at h
  · simp [EmbedsIn, Tree.leavesOf, Tree.leaves]
  · cases h

/-- The title of the page inlined: its output keeps the escaper of an attribute. -/
theorem Reachable.inline_titledPage :
    let title : Value := .string "<"
    ∃ set p x d body q dot here, (TemplateSet.empty .standard).add "main" titledPage = .ok set ∧
      set.compile "main" = .ok p ∧ set.get? "main" = some x ∧ set.get? "title" = some d ∧
      Tree.Replaced (.embed "title" (some dot) here) d.body x.body body ∧
      (set.insert { x with body }).compile "main" = .ok q ∧
      Program.Inlined "main" "title" (some dot) here p q ∧
      (q.run title).written = "<p title=\"&lt;\">" := by
  intro title
  have compiles : ((TemplateSet.empty .standard).add "main" titledPage).toOption.any (fun set =>
      (set.compile "main").toOption.any (fun p =>
        decide (Avoids Error.IsTooDeep (p.run title).outcome) &&
          decide ((p.run title).written = "<p title=\"&lt;\">")) &&
      ((set.get? "main").any (isTitled ·.body) && (set.get? "title").any (isOutput ·.body))) = true
    := by decide +kernel
  obtain ⟨set, hset, shape⟩ := exists_of_toOption_any compiles
  obtain ⟨hp, bodies⟩ := Bool.and_eq_true_iff.mp shape
  obtain ⟨p, hp, ends⟩ := exists_of_toOption_any hp
  obtain ⟨avoids, written⟩ := Bool.and_eq_true_iff.mp ends
  obtain ⟨hx, hd⟩ := Bool.and_eq_true_iff.mp bodies
  obtain ⟨x, hx, titled⟩ := (Option.any_eq_true _ _).mp hx
  obtain ⟨d, hd, output⟩ := (Option.any_eq_true _ _).mp hd
  obtain ⟨dot, here, body, isDot, replaced⟩ := exists_replaced_of_isTitled titled d.body
  have built : set.Reachable := .add (.empty .standard) hset
  have escaping : set.config.autoescape = true :=
    congrArg Config.autoescape (config_of_add_eq_ok hset)
  obtain ⟨q, hq, inlined, runs⟩ :=
    built.inline escaping hp hx hd (embedsIn_of_isOutput output _) isDot replaced
  refine ⟨set, p, x, d, body, q, dot, here, hset, hp, hx, hd, replaced, hq, inlined, ?_⟩
  exact ((runs title).1 (of_decide_eq_true avoids)).1.trans (of_decide_eq_true written)

end TemplateSet

end Stencil
