import Stencil.Proofs.Program.Verbatim
import Stencil.Proofs.Template.Locations

/-!
# Relations that the analysis keeps

Over trees, the analysis does four things: it gives results, goes on with results, reports
ambiguities, and embeds templates. So a relation of steps that admits the first three
(`Step.Congruence`) holds of two analyses of the same trees wherever it holds of their ways to embed
a template (`trees_congr`): what is particular to a relation is said of embeddings alone.
-/

set_option autoImplicit false

namespace Stencil

namespace Analysis

open Markup (Context)

/-- A relation of steps that admits results, going on with them, and ambiguities at places of a
kind. -/
structure Step.Congruence (L : Location → Prop)
    (R : {α : Type} → Step α → Step α → Prop) : Prop where
  pure : ∀ {α : Type} (a : α), R (pure a) (pure a)
  bind : ∀ {α β : Type} {x y : Step α} {f g : α → Step β}, R x y → (∀ a, R (f a) (g a)) →
    R (x >>= f) (y >>= g)
  ambiguous : ∀ {α : Type} (a : Ambiguity) (here : Location), L here →
    R (ambiguous a here : Step α) (Analysis.ambiguous a here)

/-- Two ways to embed templates of some names, at places of a kind, that are in a relation. -/
def Enter.Related (L : Location → Prop) (R : {α : Type} → Step α → Step α → Prop)
    (S : String → Prop) (enter enter' : Enter) : Prop :=
  ∀ name c here, S name → L here → R (enter name c here) (enter' name c here)

section

variable {L : Location → Prop} {R : {α : Type} → Step α → Step α → Prop} {policy : Policy}
  {enter enter' : Enter} {S : String → Prop}

theorem join_congr (rel : Step.Congruence L R) (a b : Context) (otherwise : Ambiguity)
    {here : Location} (h : L here) :
    R (join policy a b otherwise here) (join policy a b otherwise here) := by
  unfold join
  split
  · exact rel.pure _
  · exact rel.ambiguous _ here h

theorem piece_congr (rel : Step.Congruence L R) (embeds : Enter.Related L R S enter enter')
    (c : Context) {item : Piece} (embedded : EmbedsIn S [.leaf item])
    (placed : ∀ l ∈ item.places, L l) :
    R (piece policy enter c item) (piece policy enter' c item) := by
  unfold piece
  cases item with
  | text content here =>
    dsimp only
    split
    · exact rel.ambiguous _ here (List.forall_mem_singleton.mp placed)
    · exact rel.pure _
  | output p here =>
    dsimp only
    split
    · exact rel.ambiguous _ here (List.forall_mem_singleton.mp placed)
    · exact rel.pure _
  | embed name data here =>
    have hs : S name := embedded name data here (by simp [Tree.leavesOf, Tree.leaves])
    have hl : L here := List.forall_mem_singleton.mp placed
    dsimp only
    split
    · exact rel.ambiguous _ here hl
    · exact rel.bind (embeds name c here hs hl) fun _ => rel.pure _

mutual

theorem tree_congr (rel : Step.Congruence L R) (embeds : Enter.Related L R S enter enter')
    (c : Context) : (x : Tree Piece) → EmbedsIn S [x] → (∀ l ∈ piecePlaces [x], L l) →
      R (tree policy enter c x) (tree policy enter' c x)
  | .leaf item, embedded, placed => by
    rw [tree, tree]
    have hl : ∀ l ∈ item.places, L l := (Tree.forall_mem_placesOf_cons.mp placed).1
    exact rel.bind (piece_congr rel embeds c embedded hl) fun _ => rel.pure _
  | .block kind subject body alternative here, embedded, placed => by
    obtain ⟨hbody, helse⟩ := embedsIn_block.mp embedded
    obtain ⟨hl, placedBody, placedElse⟩ :=
      Tree.forall_mem_places_block.mp (Tree.forall_mem_placesOf_cons.mp placed).1
    have first (c : Context) : R (trees policy enter c body) (trees policy enter' c body) :=
      trees_congr rel embeds c body hbody placedBody
    have otherwise (other : List (Tree Piece)) (heq : alternative = some other) :
        R (trees policy enter c other) (trees policy enter' c other) := by
      subst heq
      exact trees_congr rel embeds c other (helse other rfl) (placedElse other rfl)
    by_cases hk : kind = .each
    · subst hk
      rw [tree_each, tree_each]
      refine rel.bind (first c) fun ⟨once, stop⟩ => ?_
      refine rel.bind (join_congr rel c stop _ hl) fun start => rel.bind ?_ fun compiled => ?_
      · unfold loopBody
        split
        · exact rel.pure once
        · refine rel.bind (first start) fun ⟨again, stop⟩ => ?_
          dsimp only
          split
          · exact rel.pure again
          · exact rel.ambiguous _ here hl
      · unfold loopElse
        cases alternative with
        | none => exact rel.pure _
        | some other =>
          refine rel.bind (otherwise other rfl) fun ⟨other, stop⟩ => ?_
          exact rel.bind (join_congr rel start stop _ hl) fun _ => rel.pure _
    · rw [tree, tree]
      · refine rel.bind (first c) fun ⟨compiled, stop⟩ => ?_
        cases alternative with
        | none => exact rel.bind (join_congr rel stop c _ hl) fun _ => rel.pure _
        | some other =>
          refine rel.bind (otherwise other rfl) fun ⟨other, otherStop⟩ => ?_
          exact rel.bind (join_congr rel stop otherStop _ hl) fun _ => rel.pure _
      · exact hk
      · exact hk

/-- Two analyses of the same trees are in a relation if their embeddings are. -/
theorem trees_congr (rel : Step.Congruence L R) (embeds : Enter.Related L R S enter enter')
    (c : Context) : (xs : List (Tree Piece)) → EmbedsIn S xs → (∀ l ∈ piecePlaces xs, L l) →
      R (trees policy enter c xs) (trees policy enter' c xs)
  | [], _, _ => by
    rw [trees, trees]
    exact rel.pure _
  | x :: rest, embedded, placed => by
    obtain ⟨hx, hrest⟩ := embedsIn_cons.mp embedded
    obtain ⟨placedFirst, placedRest⟩ := Tree.forall_mem_placesOf_cons.mp placed
    have first : ∀ l ∈ piecePlaces [x], L l :=
      Tree.forall_mem_placesOf_cons.mpr ⟨placedFirst, List.forall_mem_nil _⟩
    rw [trees, trees]
    refine rel.bind (tree_congr rel embeds c x hx first) fun ⟨u, next⟩ => ?_
    exact rel.bind (trees_congr rel embeds next rest hrest placedRest) fun _ => rel.pure _

end

end

end Analysis

end Stencil
