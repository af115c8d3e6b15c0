import Stencil.Proofs.Template.Pipelines
import Stencil.Template.Listing

/-!
# Replacing a leaf by trees

A leaf of a list of trees gives way to trees, in the place where it stands (`Tree.Replaced`): in the
list itself, in the body of a condition, or in what stands in place of the body of a block. These
are the places in which the current value is that of the whole list; the bodies of loops and of
`with` blocks have another one.

Lists of the same trees over other leaves are compared leaf by leaf (`Tree.MatchesAll`).
-/

set_option autoImplicit false

namespace Stencil.Tree

variable {α β : Type}

/-- The first list with a leaf of it replaced by trees, outside of the bodies of loops and of `with`
blocks. -/
inductive Replaced (item : α) (new : List (Tree α)) : List (Tree α) → List (Tree α) → Prop where
  | here (rest : List (Tree α)) : Replaced item new (.leaf item :: rest) (new ++ rest)
  | behind (t : Tree α) {ts us : List (Tree α)} :
      Replaced item new ts us → Replaced item new (t :: ts) (t :: us)
  | body {body body' : List (Tree α)} (subject : Pipeline)
      (alternative : Option (List (Tree α))) (here : Location) (rest : List (Tree α)) :
      Replaced item new body body' →
      Replaced item new (.block .cond subject body alternative here :: rest)
        (.block .cond subject body' alternative here :: rest)
  | alternative {other other' : List (Tree α)} (kind : BlockKind) (subject : Pipeline)
      (body : List (Tree α)) (here : Location) (rest : List (Tree α)) :
      Replaced item new other other' →
      Replaced item new (.block kind subject body (some other) here :: rest)
        (.block kind subject body (some other') here :: rest)

section

variable (leaf : α → β → Prop)

mutual

/-- The same trees over related leaves. -/
inductive Matches : Tree α → Tree β → Prop where
  | leaf {x : α} {y : β} : leaf x y → Matches (.leaf x) (.leaf y)
  | block {body : List (Tree α)} {body' : List (Tree β)} {alternative : Option (List (Tree α))}
      {alternative' : Option (List (Tree β))} (kind : BlockKind) (subject : Pipeline)
      (here : Location) : MatchesAll body body' → MatchesElse alternative alternative' →
      Matches (.block kind subject body alternative here)
        (.block kind subject body' alternative' here)

/-- Lists of the same trees over related leaves. -/
inductive MatchesAll : List (Tree α) → List (Tree β) → Prop where
  | nil : MatchesAll [] []
  | cons {t : Tree α} {u : Tree β} {ts : List (Tree α)} {us : List (Tree β)} :
      Matches t u → MatchesAll ts us → MatchesAll (t :: ts) (u :: us)

/-- What stands in place of a body on both sides, if anything does. -/
inductive MatchesElse : Option (List (Tree α)) → Option (List (Tree β)) → Prop where
  | none : MatchesElse none none
  | some {ts : List (Tree α)} {us : List (Tree β)} :
      MatchesAll ts us → MatchesElse (some ts) (some us)

end

end

theorem MatchesAll.append {leaf : α → β → Prop} {ts ts' : List (Tree α)} {us us' : List (Tree β)}
    (h : MatchesAll leaf ts us) (h' : MatchesAll leaf ts' us') :
    MatchesAll leaf (ts ++ ts') (us ++ us') := by
  match ts, us, h with
  | _, _, .nil => exact h'
  | _, _, .cons ht hrest => exact .cons ht (hrest.append h')

namespace Replaced

variable {item : α} {new ts us : List (Tree α)}

/-- The leaf that is replaced is one of the list. -/
theorem mem_leavesOf (h : Replaced item new ts us) : item ∈ leavesOf ts := by
  induction h with
  | here rest => simp [leavesOf, leaves]
  | behind t _ ih =>
    rw [leavesOf]
    exact List.mem_append_right _ ih
  | body subject alternative here rest _ ih =>
    rw [leavesOf]
    refine List.mem_append_left _ ?_
    cases alternative with
    | none => simpa [leaves] using ih
    | some other =>
      rw [leaves]
      exact List.mem_append_left _ ih
  | alternative kind subject body here rest _ ih =>
    rw [leavesOf, leaves]
    exact List.mem_append_left _ (List.mem_append_right _ ih)

/-- The pipelines of the result are those of the list and of the new trees. -/
theorem pipelinesOf {ofLeaf : α → List Pipeline} {P : Pipeline → Prop}
    (h : Replaced item new ts us) (old : ∀ p ∈ Tree.pipelinesOf ofLeaf ts, P p)
    (added : ∀ p ∈ Tree.pipelinesOf ofLeaf new, P p) :
    ∀ p ∈ Tree.pipelinesOf ofLeaf us, P p := by
  induction h with
  | here rest =>
    rw [pipelinesOf_cons, List.forall_mem_append] at old
    rw [pipelinesOf_append, List.forall_mem_append]
    exact ⟨added, old.2⟩
  | behind t _ ih =>
    rw [pipelinesOf_cons, List.forall_mem_append] at old ⊢
    exact ⟨old.1, ih old.2⟩
  | body subject alternative here rest _ ih =>
    rw [pipelinesOf_cons, List.forall_mem_append] at old ⊢
    refine ⟨?_, old.2⟩
    simp only [mem_pipelines_block] at old ⊢
    rintro p (rfl | hp | hp)
    · exact old.1 _ (.inl rfl)
    · exact ih (fun q hq => old.1 q (.inr (.inl hq))) p hp
    · exact old.1 p (.inr (.inr hp))
  | alternative kind subject body here rest _ ih =>
    rw [pipelinesOf_cons, List.forall_mem_append] at old ⊢
    refine ⟨?_, old.2⟩
    simp only [mem_pipelines_block] at old ⊢
    rintro p (rfl | hp | ⟨other, ⟨⟩, hp⟩)
    · exact old.1 _ (.inl rfl)
    · exact old.1 p (.inr (.inl hp))
    · exact ih (fun q hq => old.1 q (.inr (.inr ⟨_, rfl, hq⟩))) p hp

end Replaced

end Stencil.Tree
