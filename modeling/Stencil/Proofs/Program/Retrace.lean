import Stencil.Proofs.Program.Verbatim
import Stencil.Proofs.Template.Replacing

/-!
# Analyses that retrace another

An analysis retraces another if it succeeds wherever the other does, with the same context behind
it, and a relation of their tables is carried along (`Step.Carries`). Over the same trees, an
analysis retraces another if its embeddings do (`trees_carries`); over trees in which an embedded
template is replaced by trees, if besides the analysis of these retraces the embedding
(`replaced_carries`).

What an analysis has derived can be run again without it: where all links of a derivation are
answered from a table that the answers leave as it is, the analysis of its trees succeeds on that
table, leaves it as it is, and ends where the derivation ends (`CompiledAll.reruns`).
-/

set_option autoImplicit false

namespace Stencil.Analysis

open Markup (Context)

/-- Wherever the first step succeeds from a table, the second succeeds from a related one, with a
related result, and leaves a related table. -/
def Step.Carries (T : Table → Table → Prop) {α β : Type} (R : α → β → Prop) (x : Step α)
    (y : Step β) : Prop :=
  ∀ ⦃t t' : Table⦄ ⦃a : α⦄ ⦃t₁ : Table⦄, T t t' → x.run t = .ok (a, t₁) →
    ∃ b t₁', y.run t' = .ok (b, t₁') ∧ R a b ∧ T t₁ t₁'

/-- The same context behind two results. -/
def Ends {α β : Type} (r : α × Context) (r' : β × Context) : Prop := r.2 = r'.2

/-- Two ways to embed templates of some names, the second of which retraces the first. -/
def Enter.Carries (T : Table → Table → Prop) (S : String → Prop) (enter enter' : Enter) : Prop :=
  ∀ name c here, S name → Step.Carries T Ends (enter name c here) (enter' name c here)

namespace Step.Carries

variable {T : Table → Table → Prop} {α β γ δ : Type} {R : α → β → Prop} {Q : γ → δ → Prop}

protected theorem pure {a : α} {b : β} (h : R a b) : Carries T R (pure a) (pure b) := by
  intro t t' _ _ ht hrun
  cases hrun
  exact ⟨b, t', rfl, h, ht⟩

protected theorem bind {x : Step α} {y : Step β} {f : α → Step γ} {g : β → Step δ}
    (h : Carries T R x y) (hfg : ∀ a b, R a b → Carries T Q (f a) (g b)) :
    Carries T Q (x >>= f) (y >>= g) := by
  intro t t' r t₂ ht hrun
  obtain ⟨a, t₁, hx, hf⟩ := run_bind_eq_ok hrun
  obtain ⟨b, t₁', hy, hR, ht₁⟩ := h ht hx
  obtain ⟨s, t₂', hg, hQ, ht₂⟩ := hfg a b hR ht₁ hf
  exact ⟨s, t₂', (run_bind_of_ok hy g).trans hg, hQ, ht₂⟩

/-- A step that fails is retraced by any. -/
theorem of_fail (e : Error) (y : Step β) : Carries T R (fail e) y := by
  intro t t' a t₁ _ hrun
  cases hrun

theorem join {policy : Policy} (a b : Context) (otherwise : Ambiguity) (here : Location) :
    Carries T Eq (join policy a b otherwise here) (Analysis.join policy a b otherwise here) := by
  unfold Analysis.join
  split
  · exact .pure rfl
  · exact of_fail _ _

end Step.Carries

/-! ## Trees -/

section

variable {T : Table → Table → Prop} {policy : Policy} {enter enter' : Enter}

theorem piece_carries {S : String → Prop} (embeds : Enter.Carries T S enter enter') (c : Context)
    {item : Piece} (embedded : EmbedsIn S [.leaf item]) :
    Step.Carries T Ends (piece policy enter c item) (piece policy enter' c item) := by
  unfold piece
  cases item with
  | text content here =>
    dsimp only
    split
    · exact .of_fail _ _
    · exact .pure rfl
  | output p here =>
    dsimp only
    split
    · exact .of_fail _ _
    · exact .pure rfl
  | embed name data here =>
    have hs : S name := embedded name data here (by simp [Tree.leavesOf, Tree.leaves])
    dsimp only
    split
    · exact .of_fail _ _
    · refine (embeds name c here hs).bind fun r r' hr => ?_
      exact .pure hr

section Blocks

variable {kind : BlockKind} {body body' : List (Tree Piece)}
  {alternative alternative' : Option (List (Tree Piece))}
  (first : ∀ c, Step.Carries T Ends (trees policy enter c body) (trees policy enter' c body'))
  (otherwise : Option.Rel (fun other other' => ∀ c,
    Step.Carries T Ends (trees policy enter c other) (trees policy enter' c other'))
    alternative alternative')
include first otherwise

theorem loop_carries (subject : Pipeline) (here : Location) (c : Context) :
    Step.Carries T Ends (tree policy enter c (.block .each subject body alternative here))
      (tree policy enter' c (.block .each subject body' alternative' here)) := by
  rw [tree_each, tree_each]
  refine (first c).bind fun r r' hr => ?_
  obtain ⟨once, stop⟩ := r
  obtain ⟨once', stop'⟩ := r'
  obtain rfl : stop = stop' := hr
  refine (Step.Carries.join c stop _ here).bind fun start start' hstart => ?_
  subst hstart
  -- the bodies that are kept differ, but the contexts do not depend on them
  refine Step.Carries.bind (R := fun _ _ => True) ?_ fun compiled compiled' _ => ?_
  · unfold loopBody
    split
    · exact .pure trivial
    · refine (first start).bind fun r r' hr => ?_
      obtain ⟨again, stop⟩ := r
      obtain ⟨again', stop'⟩ := r'
      obtain rfl : stop = stop' := hr
      dsimp only
      split
      · exact .pure trivial
      · exact .of_fail _ _
  · unfold loopElse
    cases otherwise with
    | none => exact .pure rfl
    | some other =>
      refine (other c).bind fun r r' hr => ?_
      obtain ⟨other, stop⟩ := r
      obtain ⟨other', stop'⟩ := r'
      obtain rfl : stop = stop' := hr
      refine (Step.Carries.join start stop _ here).bind fun next next' hnext => ?_
      exact .pure hnext

theorem branch_carries (hk : kind ≠ .each) (subject : Pipeline) (here : Location) (c : Context) :
    Step.Carries T Ends (tree policy enter c (.block kind subject body alternative here))
      (tree policy enter' c (.block kind subject body' alternative' here)) := by
  rw [tree, tree]
  · refine (first c).bind fun r r' hr => ?_
    obtain ⟨compiled, stop⟩ := r
    obtain ⟨compiled', stop'⟩ := r'
    obtain rfl : stop = stop' := hr
    cases otherwise with
    | none =>
      refine (Step.Carries.join stop c _ here).bind fun next next' hnext => ?_
      exact .pure hnext
    | some other =>
      refine (other c).bind fun r r' hr => ?_
      obtain ⟨other, otherStop⟩ := r
      obtain ⟨other', otherStop'⟩ := r'
      obtain rfl : otherStop = otherStop' := hr
      refine (Step.Carries.join stop otherStop _ here).bind fun next next' hnext => ?_
      exact .pure hnext
  · exact hk
  · exact hk

theorem block_carries (subject : Pipeline) (here : Location) (c : Context) :
    Step.Carries T Ends (tree policy enter c (.block kind subject body alternative here))
      (tree policy enter' c (.block kind subject body' alternative' here)) := by
  by_cases hk : kind = .each
  · subst hk
    exact loop_carries first otherwise subject here c
  · exact branch_carries first otherwise hk subject here c

end Blocks

theorem cons_carries {x x' : Tree Piece} {rest rest' : List (Tree Piece)} {c : Context}
    (first : Step.Carries T Ends (tree policy enter c x) (tree policy enter' c x'))
    (others : ∀ c, Step.Carries T Ends (trees policy enter c rest) (trees policy enter' c rest')) :
    Step.Carries T Ends (trees policy enter c (x :: rest))
      (trees policy enter' c (x' :: rest')) := by
  rw [trees, trees]
  refine first.bind fun r r' hr => ?_
  obtain ⟨compiled, next⟩ := r
  obtain ⟨compiled', next'⟩ := r'
  obtain rfl : next = next' := hr
  refine (others next).bind fun s s' hs => ?_
  exact .pure hs

variable {S : String → Prop}

mutual

theorem tree_carries (embeds : Enter.Carries T S enter enter') :
    (x : Tree Piece) → EmbedsIn S [x] → ∀ c,
      Step.Carries T Ends (tree policy enter c x) (tree policy enter' c x)
  | .leaf item, embedded, c => by
    rw [tree, tree]
    refine (piece_carries embeds c embedded).bind fun r r' hr => ?_
    exact .pure hr
  | .block kind subject body alternative here, embedded, c => by
    obtain ⟨hbody, helse⟩ := embedsIn_block.mp embedded
    refine block_carries (fun c => trees_carries embeds body hbody c) ?_ subject here c
    cases alternative with
    | none => exact .none
    | some other => exact .some fun c => trees_carries embeds other (helse other rfl) c

/-- Over the same trees, an analysis retraces another if its embeddings do. -/
theorem trees_carries (embeds : Enter.Carries T S enter enter') :
    (xs : List (Tree Piece)) → EmbedsIn S xs → ∀ c,
      Step.Carries T Ends (trees policy enter c xs) (trees policy enter' c xs)
  | [], _, c => by
    rw [trees, trees]
    exact .pure rfl
  | x :: rest, embedded, c => by
    obtain ⟨hx, hrest⟩ := embedsIn_cons.mp embedded
    exact cons_carries (tree_carries embeds x hx c) fun c => trees_carries embeds rest hrest c

end

theorem trees_append (policy : Policy) (enter : Enter) (xs ys : List (Tree Piece)) (c : Context) :
    trees policy enter c (xs ++ ys) = (do
      let (first, next) ← trees policy enter c xs
      let (others, stop) ← trees policy enter next ys
      pure (first ++ others, stop)) := by
  induction xs generalizing c with
  | nil =>
    rw [List.nil_append, trees, pure_bind]
    exact (bind_pure _).symm
  | cons x xs ih =>
    rw [List.cons_append, trees, trees, bind_assoc]
    congr
    funext r
    obtain ⟨compiled, next⟩ := r
    dsimp only
    rw [ih]
    simp only [bind_assoc, pure_bind, List.cons_append]

/-- Over trees in which an embedded template is replaced by trees, an analysis retraces another if
its embeddings do, and if the analysis of the new trees retraces the embedding. -/
theorem replaced_carries (embeds : Enter.Carries T S enter enter') {name : String}
    {data : Option Pipeline} {here : Location} {new xs ys : List (Tree Piece)}
    (h : Tree.Replaced (.embed name data here) new xs ys)
    (inlined : ∀ c, Step.Carries T Ends (enter name c here) (trees policy enter' c new))
    (embedded : EmbedsIn S xs) (c : Context) :
    Step.Carries T Ends (trees policy enter c xs) (trees policy enter' c ys) := by
  induction h generalizing c with
  | here rest =>
    rw [trees_append, trees, tree, piece]
    split
    · exact .of_fail _ _
    · simp only [bind_assoc, pure_bind]
      refine (inlined c).bind fun r r' hr => ?_
      obtain ⟨target, next⟩ := r
      obtain ⟨compiled, next'⟩ := r'
      obtain rfl : next = next' := hr
      refine (trees_carries embeds rest (embedsIn_cons.mp embedded).2 next).bind fun s s' hs => ?_
      exact .pure hs
  | behind t _ ih =>
    obtain ⟨ht, hrest⟩ := embedsIn_cons.mp embedded
    exact cons_carries (tree_carries embeds t ht c) fun c => ih hrest c
  | body subject alternative here rest _ ih =>
    obtain ⟨ht, hrest⟩ := embedsIn_cons.mp embedded
    obtain ⟨hbody, helse⟩ := embedsIn_block.mp ht
    refine cons_carries (block_carries (fun c => ih hbody c) ?_ subject here c)
      fun c => trees_carries embeds rest hrest c
    cases alternative with
    | none => exact .none
    | some other => exact .some fun c => trees_carries embeds other (helse other rfl) c
  | alternative kind subject body here rest _ ih =>
    obtain ⟨ht, hrest⟩ := embedsIn_cons.mp embedded
    obtain ⟨hbody, helse⟩ := embedsIn_block.mp ht
    refine cons_carries (block_carries (fun c => trees_carries embeds body hbody c) (.some ?_)
      subject here c) fun c => trees_carries embeds rest hrest c
    exact fun c => ih (helse _ rfl) c

end

/-! ## Derivations -/

/-- A step that succeeds from a table, leaves the table as it is and ends in a context. -/
def Reruns {α : Type} (t : Table) (x : Step (α × Context)) (next : Context) : Prop :=
  ∃ a, x.run t = .ok ((a, next), t)

namespace Reruns

variable {α β : Type} {t : Table} {next stop : Context}

protected theorem pure (a : α) (next : Context) : Reruns t (pure (a, next)) next := ⟨a, rfl⟩

protected theorem bind {x : Step (α × Context)} {f : α × Context → Step (β × Context)}
    (hx : Reruns t x next) (hf : ∀ a, Reruns t (f (a, next)) stop) : Reruns t (x >>= f) stop := by
  obtain ⟨a, hrun⟩ := hx
  obtain ⟨b, hrun'⟩ := hf a
  exact ⟨b, (run_bind_of_ok hrun f).trans hrun'⟩

theorem join {policy : Policy} {a b c : Context} (h : policy.join a b = some c)
    (otherwise : Ambiguity) (here : Location) {f : Context → Step (β × Context)}
    (hf : Reruns t (f c) next) : Reruns t (join policy a b otherwise here >>= f) next := by
  unfold Analysis.join
  rwa [h, pure_bind]

theorem loopBody {policy : Policy} {enter : Enter} {c start again : Context}
    {body : List (Tree Piece)} (hbody : Reruns t (trees policy enter start body) again)
    (hfix : policy.join start again = some start) (once : List (Tree Instruction))
    (here : Location) {f : List (Tree Instruction) → Step (β × Context)}
    (hf : ∀ compiled, Reruns t (f compiled) next) :
    Reruns t (loopBody policy enter c start body once here >>= f) next := by
  unfold Analysis.loopBody
  split
  · rw [pure_bind]
    exact hf once
  · rw [bind_assoc]
    refine hbody.bind fun compiled => ?_
    dsimp only
    rw [if_pos hfix, pure_bind]
    exact hf compiled

end Reruns

/-- Embeddings that answer the links of some names from a table and leave it as it is. -/
def Enter.Answers (enter : Enter) (link : Link) (S : String → Prop) (t : Table) : Prop :=
  ∀ name c n next here, S name → link name c n next → Reruns t (enter name c here) next

section

variable {policy : Policy} {link : Link} {enter : Enter} {S : String → Prop} {t : Table}

mutual

theorem Compiled.reruns (answers : enter.Answers link S t) {c next : Context} {x : Tree Piece}
    {u : Tree Instruction} :
    Compiled policy link c x u next → EmbedsIn S [x] → Reruns t (tree policy enter c x) next
  | .text content here h, _ => by
    rw [tree, piece]
    dsimp only
    rw [h]
    exact .pure _ _
  | .output p here h, _ => by
    rw [tree, piece]
    dsimp only
    rw [h]
    exact .pure _ _
  | .embed data here hin hlink, embedded => by
    rw [tree, piece, if_neg (by simp [hin]), bind_assoc]
    refine (answers _ _ _ _ here (embedded _ data here ?_) hlink).bind fun _ => .pure _ _
    simp [Tree.leavesOf, Tree.leaves]
  | .branch subject here hk hbody (.none _) hjoin, embedded => by
    obtain ⟨embeddedBody, -⟩ := embedsIn_block.mp embedded
    rw [tree]
    · exact (hbody.reruns answers embeddedBody).bind fun _ => .join hjoin _ here (.pure _ _)
    · exact hk
  | .branch subject here hk hbody (.some hother) hjoin, embedded => by
    obtain ⟨embeddedBody, embeddedElse⟩ := embedsIn_block.mp embedded
    rw [tree]
    · refine (hbody.reruns answers embeddedBody).bind fun _ => ?_
      refine (hother.reruns answers (embeddedElse _ rfl)).bind fun _ => ?_
      exact .join hjoin _ here (.pure _ _)
    · exact hk
  | .loop subject here honce hjoin hbody hfix, embedded => by
    obtain ⟨embeddedBody, -⟩ := embedsIn_block.mp embedded
    rw [tree_each]
    refine (honce.reruns answers embeddedBody).bind fun once => .join hjoin _ here ?_
    exact .loopBody (hbody.reruns answers embeddedBody) hfix once here fun _ => .pure _ _
  | .loopElse subject here honce hjoin hbody hfix helse hnext, embedded => by
    obtain ⟨embeddedBody, embeddedElse⟩ := embedsIn_block.mp embedded
    rw [tree_each]
    refine (honce.reruns answers embeddedBody).bind fun once => .join hjoin _ here ?_
    refine .loopBody (hbody.reruns answers embeddedBody) hfix once here fun compiled => ?_
    refine (helse.reruns answers (embeddedElse _ rfl)).bind fun _ => ?_
    exact .join hnext _ here (.pure _ _)

/-- Trees that are derived are analysed again from a table that answers the links of the
derivation. -/
theorem CompiledAll.reruns (answers : enter.Answers link S t) {c next : Context}
    {xs : List (Tree Piece)} {us : List (Tree Instruction)} :
    CompiledAll policy link c xs us next → EmbedsIn S xs → Reruns t (trees policy enter c xs) next
  | .nil c, _ => by
    rw [trees]
    exact .pure _ _
  | .cons hx hrest, embedded => by
    obtain ⟨embeddedFirst, embeddedRest⟩ := embedsIn_cons.mp embedded
    rw [trees]
    refine (hx.reruns answers embeddedFirst).bind fun _ => ?_
    exact (hrest.reruns answers embeddedRest).bind fun _ => .pure _ _

end

end

end Stencil.Analysis
