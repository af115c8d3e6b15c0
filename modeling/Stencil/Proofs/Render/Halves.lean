import Stencil.Proofs.Program.Follow
import Stencil.Proofs.Program.Halves
import Stencil.Proofs.Render.Bare

/-!
# Running templates with a text in two pieces

A text that is written in two pieces is written all the same. So programs of compiled trees that are
alike write the same on every value, and end in the same way up to locations (`Program.run_alike`).
-/

set_option autoImplicit false

namespace Stencil

/-! ## Runs -/

/-- Runs that write the same and end in the same way, up to locations. -/
structure Run.Alike (r r' : Run Unit) : Prop where
  written : r.written = r'.written
  outcome : Bare r.outcome = Bare r'.outcome

/-- Results that are the same without locations are errors together, or the same value. -/
theorem bare_cases {α : Type} {x x' : Except Error α} (h : Bare x = Bare x') :
    (∃ e e', x = .error e ∧ x' = .error e' ∧ e.bare = e'.bare) ∨ ∃ v, x = .ok v ∧ x' = .ok v := by
  cases x with
  | error e =>
    cases x' with
    | error e' => exact .inl ⟨e, e', rfl, rfl, Except.error.inj h⟩
    | ok v => cases h
  | ok v =>
    cases x' with
    | error e' => cases h
    | ok v' => exact .inr ⟨v, rfl, congrArg Except.ok (Except.ok.inj h).symm⟩

namespace Run.Alike

variable {r r' s s' : Run Unit}

protected theorem pure : Alike (pure ()) (pure ()) := ⟨rfl, rfl⟩

theorem emit {e e' : Event} (h : e.written = e'.written) : Alike (Run.emit e) (Run.emit e') := by
  refine ⟨?_, rfl⟩
  simp [Run.written, Run.emit, h]

theorem ofError {e e' : Error} (h : e.bare = e'.bare) :
    Alike (Run.ofExcept (.error e)) (Run.ofExcept (.error e')) :=
  ⟨rfl, congrArg Except.error h⟩

protected theorem bind (h : Alike r r') (hs : Alike s s') :
    Alike (r >>= fun _ => s) (r' >>= fun _ => s') := by
  obtain ⟨written, outcome⟩ := h
  rcases bare_cases outcome with ⟨e, e', he, he', hbare⟩ | ⟨v, hv, hv'⟩
  · rw [Run.bind_of_error he, Run.bind_of_error he']
    exact ⟨written, congrArg Except.error hbare⟩
  · rw [Run.bind_of_ok hv, Run.bind_of_ok hv']
    refine ⟨?_, hs.outcome⟩
    have hw := hs.written
    simp only [Run.written, List.map_append, String.join_append] at written hw ⊢
    rw [written, hw]

theorem bind_ofExcept {α : Type} {x x' : Except Error α} (h : Bare x = Bare x')
    {f f' : α → Run Unit} (hf : ∀ v, Alike (f v) (f' v)) :
    Alike (Run.ofExcept x >>= f) (Run.ofExcept x' >>= f') := by
  rcases bare_cases h with ⟨e, e', rfl, rfl, hbare⟩ | ⟨v, rfl, rfl⟩
  · rw [Run.bind_of_error rfl, Run.bind_of_error rfl]
    exact ofError hbare
  · rw [Run.bind_of_ok rfl, Run.bind_of_ok rfl]
    exact hf v

theorem each {render render' : Value → Run Unit} (h : ∀ v, Alike (render v) (render' v))
    (values : List Value) :
    Alike (Render.each render values) (Render.each render' values) := by
  induction values with
  | nil => exact .pure
  | cons v rest ih =>
    rw [Render.each, Render.each]
    exact (h v).bind ih

/-- A text that is written in two pieces. -/
theorem cut (a b : String) (h : Alike r r') :
    Alike (Run.emit (.text (a ++ b)) >>= fun _ => r)
      (Run.emit (.text a) >>= fun _ => Run.emit (.text b) >>= fun _ => r') := by
  rw [Run.bind_of_ok rfl, Run.bind_of_ok rfl, Run.bind_of_ok rfl]
  refine ⟨?_, h.outcome⟩
  have hw := h.written
  simp only [Run.written] at hw
  simp [Run.written, Run.emit, Event.written, hw, String.append_assoc]

end Run.Alike

theorem Pipeline.eval_alike {p p' : Pipeline} (h : p.bare = p'.bare) (s : Scope) :
    Bare (p.eval s) = Bare (p'.eval s) := by
  rw [← Pipeline.eval_bare, ← Pipeline.eval_bare, h]

namespace Render

theorem items_alike {p p' : Pipeline} (h : p.bare = p'.bare) (s : Scope) (here here' : Location) :
    Bare (items s p here) = Bare (items s p' here') := by
  unfold items
  rw [bare_bind, bare_bind, Pipeline.eval_alike h]
  congr
  funext v
  split <;> rfl

theorem data_alike {data data' : Option Pipeline}
    (h : data.map Pipeline.bare = data'.map Pipeline.bare) (s : Scope) :
    Bare (Render.data s data) = Bare (Render.data s data') := by
  cases data with
  | none =>
    cases data' with
    | none => rfl
    | some p' => cases h
  | some p =>
    cases data' with
    | none => cases h
    | some p' => exact Pipeline.eval_alike (Option.some.inj h) s

/-! ## Trees -/

/-- Two ways to embed a template that run alike with data that are the same up to locations. -/
def Embed.Alike (embed embed' : Embed) : Prop :=
  ∀ s n name data data' here here', data.map Pipeline.bare = data'.map Pipeline.bare →
    Run.Alike (embed s n name data here) (embed' s n name data' here')

variable {embed embed' : Embed} {a b : String}

theorem instruction_alike (embeds : embed.Alike embed') {i i' : Instruction} (h : i.Alike i')
    (s : Scope) : Run.Alike (instruction embed s i) (instruction embed' s i') := by
  cases h with
  | text content => exact .emit rfl
  | output rules here here' hp => exact .bind_ofExcept (Pipeline.eval_alike hp s) fun v => .emit rfl
  | embed name target here here' hdata => exact embeds s target name _ _ here here' hdata

open Analysis (renderElse)

/-- Blocks whose subjects are the same up to locations, and whose bodies run alike. -/
theorem block_alike (kind : BlockKind) {subject subject' : Pipeline}
    (hs : subject.bare = subject'.bare) (here here' : Location) (s : Scope)
    {body body' : List (Tree Instruction)} {other other' : Option (List (Tree Instruction))}
    (hbody : ∀ s, Run.Alike (trees embed s body) (trees embed' s body'))
    (helse : Run.Alike (renderElse embed s other) (renderElse embed' s other')) :
    Run.Alike (tree embed s (.block kind subject body other here))
      (tree embed' s (.block kind subject' body' other' here')) := by
  cases kind with
  | cond =>
    unfold tree
    refine .bind_ofExcept (Pipeline.eval_alike hs s) fun v => ?_
    split
    · exact hbody s
    · exact helse
  | within =>
    unfold tree
    refine .bind_ofExcept (Pipeline.eval_alike hs s) fun v => ?_
    split
    · exact hbody (s.push v)
    · exact helse
  | each =>
    unfold tree
    refine .bind_ofExcept (items_alike hs s here here') fun values => ?_
    split
    · exact helse
    · exact .each (fun v => hbody (s.push v)) _

mutual

theorem tree_alike (embeds : embed.Alike embed') (s : Scope) {u u' : Tree Instruction} :
    Tree.Alike Instruction.Alike (Instruction.Cut a b) u u' →
      Run.Alike (tree embed s u) (tree embed' s u')
  | .leaf hi => by
    rw [tree, tree]
    exact instruction_alike embeds hi s
  | .block here here' hs hbody helse =>
    block_alike _ hs here here' s (fun s => trees_alike embeds s hbody) (else_alike embeds s helse)

theorem trees_alike (embeds : embed.Alike embed') (s : Scope) {us us' : List (Tree Instruction)} :
    Instructions.Alike a b us us' → Run.Alike (trees embed s us) (trees embed' s us')
  | .nil => by
    rw [trees, trees]
    exact .pure
  | .cons hu hrest => by
    rw [trees, trees]
    exact (tree_alike embeds s hu).bind (trees_alike embeds s hrest)
  | .cut .text hrest => by
    rw [trees, trees, trees, tree, tree, tree]
    exact .cut a b (trees_alike embeds s hrest)

theorem else_alike (embeds : embed.Alike embed') (s : Scope)
    {other other' : Option (List (Tree Instruction))} :
    Tree.AlikeElse Instruction.Alike (Instruction.Cut a b) other other' →
      Run.Alike (renderElse embed s other) (renderElse embed' s other')
  | .none => .pure
  | .some h => trees_alike embeds s h

end

end Render

/-! ## Programs -/

/-- Variants of the same template and place, with bodies that are alike. -/
structure Variant.Alike (a b : String) (v v' : Variant) : Prop where
  name : v.name = v'.name
  place : v.place = v'.place
  body : Instructions.Alike a b v.body v'.body

/-- Programs that differ in locations and in a text that is in two pieces. -/
structure Program.Alike (a b : String) (p p' : Program) : Prop where
  name : p.name = p'.name
  entry : p.entry = p'.entry
  config : p.config = p'.config
  variants : List.Forall₂ (Variant.Alike a b) p.variants p'.variants

namespace Program.Alike

variable {a b : String} {p p' : Program}

theorem getElem? (h : p.Alike a b p') (n : Nat) :
    Option.Rel (Variant.Alike a b) p.variants[n]? p'.variants[n]? := by
  have variants := h.variants
  generalize p.variants = vs at variants
  generalize p'.variants = vs' at variants
  induction variants generalizing n with
  | nil => exact .none
  | cons hv _ ih =>
    cases n with
    | zero => exact .some hv
    | succ n => exact ih n

theorem embed (h : p.Alike a b p') (more : Nat) :
    (Render.embed p more).Alike (Render.embed p' more) := by
  induction more with
  | zero =>
    intro s n name data data' here here' hdata
    have found := h.getElem? n
    rw [Render.embed, Render.embed]
    generalize p.variants[n]? = x at found
    generalize p'.variants[n]? = x' at found
    cases found with
    | none => exact .ofError rfl
    | some hv =>
      dsimp only
      rw [h.config, hv.name]
      exact .ofError rfl
  | succ more ih =>
    intro s n name data data' here here' hdata
    have found := h.getElem? n
    rw [Render.embed, Render.embed]
    generalize p.variants[n]? = x at found
    generalize p'.variants[n]? = x' at found
    cases found with
    | none => exact .ofError rfl
    | some hv =>
      dsimp only
      rw [h.config, hv.name]
      refine (Run.Alike.emit rfl).bind (.bind_ofExcept (Render.data_alike hdata s) fun root => ?_)
      exact (Render.trees_alike ih _ hv.body).bind (.emit rfl)

/-- Programs that are alike run alike on every value. -/
theorem run (h : p.Alike a b p') (root : Value) : (p.run root).Alike (p'.run root) := by
  have found := h.getElem? p.entry
  unfold Program.run
  rw [← h.entry, h.name, h.config]
  generalize p.variants[p.entry]? = x at found
  generalize p'.variants[p.entry]? = x' at found
  cases found with
  | none => exact .ofError rfl
  | some hv => exact Render.trees_alike (h.embed _) _ hv.body

end Program.Alike

end Stencil
