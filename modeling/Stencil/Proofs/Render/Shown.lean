import Stencil.Proofs.Program.Depth
import Stencil.Proofs.Program.Follow
import Stencil.Proofs.Template.Replacing

/-!
# What a run shows

A run shows its texts and its outputs; that a template is entered or left does not show
(`Run.shown`), and what is written, into any sink, depends on what shows alone
(`Program.execute_showsUpTo`).

An embedded template whose data is the current value shows what its trees show where it stands, up
to the limit on embedded templates (`Program.embed_showsUpTo`): its own scope is then the scope
around it, as long as no loop and no `with` block has been entered, and its trees may embed one
template more inside one another than they could before. So trees in which the embedding is replaced
show the same (`Render.trees_replaced`). Trees over other leaves show the same if their leaves do
(`Render.trees_matches`).
-/

set_option autoImplicit false

namespace Stencil

variable {α β : Type}

/-- Whether an event is a text or an output. -/
def Event.shows : Event → Bool
  | .text _ | .output _ _ _ => true
  | .enter _ | .leave => false

/-- The texts and outputs of a run, and its end. -/
def Run.shown (r : Run α) : Run α := { r with events := r.events.filter Event.shows }

namespace Run

theorem shown_bind (r : Run α) (f : α → Run β) :
    (r >>= f).shown = r.shown >>= fun a => (f a).shown := by
  cases h : r.outcome with
  | error e =>
    have hs : r.shown.outcome = .error e := h
    rw [bind_of_error h, bind_of_error hs]
    rfl
  | ok a =>
    have hs : r.shown.outcome = .ok a := h
    rw [bind_of_ok h, bind_of_ok hs]
    simp only [shown, List.filter_append]

theorem written_of_not_shows {e : Event} (h : ¬ e.shows = true) : e.written = "" := by
  cases e with
  | text s => exact absurd rfl h
  | output here rules s => exact absurd rfl h
  | enter name => rfl
  | leave => rfl

/-- Only what shows is written. -/
theorem bytes_shown (r : Run α) : Event.bytes r.shown.events = Event.bytes r.events := by
  unfold shown Event.bytes
  dsimp only
  induction r.events with
  | nil => rfl
  | cons e rest ih =>
    by_cases h : e.shows = true
    · rw [List.filter_cons_of_pos h, List.flatMap_cons, List.flatMap_cons, ih]
    · rw [List.filter_cons_of_neg h, List.flatMap_cons, ih, written_of_not_shows h]
      simp

theorem written_shown (r : Run α) : r.shown.written = r.written := by
  unfold shown written
  dsimp only
  induction r.events with
  | nil => rfl
  | cons e rest ih =>
    rw [List.map_cons, String.join_cons]
    by_cases h : e.shows = true
    · rw [List.filter_cons_of_pos h, List.map_cons, String.join_cons, ih]
    · rw [List.filter_cons_of_neg h, ih, written_of_not_shows h, String.empty_append]

end Run

/-- The second run shows what the first shows, unless that ends in an error of a kind. -/
def Run.ShowsUpTo (bad : Error → Prop) (r r' : Run α) : Prop := r.shown.UpTo bad r'.shown

namespace Run

variable {bad : Error → Prop} {r r' r'' : Run α}

theorem UpTo.trans (h : r.UpTo bad r') (g : r'.UpTo bad r'') : r.UpTo bad r'' where
  same avoids := by
    have first : r' = r := h.same avoids
    rw [g.same (first ▸ avoids), first]
  events := h.events.trans g.events

theorem UpTo.shows (h : r.UpTo bad r') : r.ShowsUpTo bad r' where
  same avoids := congrArg Run.shown (h.same avoids)
  events := h.events.filter Event.shows

namespace ShowsUpTo

protected theorem refl (r : Run α) : r.ShowsUpTo bad r := UpTo.refl _

theorem trans (h : r.ShowsUpTo bad r') (g : r'.ShowsUpTo bad r'') : r.ShowsUpTo bad r'' :=
  UpTo.trans h g

protected theorem bind {f g : α → Run β} (h : r.ShowsUpTo bad r')
    (hfg : ∀ a, (f a).ShowsUpTo bad (g a)) : (r >>= f).ShowsUpTo bad (r' >>= g) := by
  unfold ShowsUpTo
  rw [shown_bind, shown_bind]
  exact UpTo.bind h hfg

theorem each {render render' : Value → Run Unit} (h : ∀ v, (render v).ShowsUpTo bad (render' v))
    (values : List Value) :
    (Render.each render values).ShowsUpTo bad (Render.each render' values) := by
  induction values with
  | nil => exact .refl _
  | cons v rest ih =>
    rw [Render.each, Render.each]
    exact (h v).bind fun _ => ih

end ShowsUpTo

end Run

namespace Render

open Analysis (renderElse)

variable {bad : Error → Prop} {embed embed' : Embed} {s : Scope}

theorem trees_append (embed : Embed) (s : Scope) (ts us : List (Tree Instruction)) :
    trees embed s (ts ++ us) = trees embed s ts >>= fun _ => trees embed s us := by
  induction ts with
  | nil => rw [List.nil_append, trees, pure_bind]
  | cons t rest ih => rw [List.cons_append, trees, trees, ih, bind_assoc]

/-! ## Trees over other leaves -/

/-- Blocks of the same kind and subject, whose bodies and alternatives show the same. -/
theorem block_showsUpTo (kind : BlockKind) (subject : Pipeline) (here : Location)
    {body body' : List (Tree Instruction)} {other other' : Option (List (Tree Instruction))}
    (hbody : ∀ s' : Scope, (kind = .cond → s' = s) →
      (trees embed s' body).ShowsUpTo bad (trees embed' s' body'))
    (helse : (renderElse embed s other).ShowsUpTo bad (renderElse embed' s other')) :
    (tree embed s (.block kind subject body other here)).ShowsUpTo bad
      (tree embed' s (.block kind subject body' other' here)) := by
  cases kind with
  | cond =>
    unfold tree
    refine (Run.ShowsUpTo.refl _).bind fun v => ?_
    split
    · exact hbody s fun _ => rfl
    · exact helse
  | within =>
    unfold tree
    refine (Run.ShowsUpTo.refl _).bind fun v => ?_
    split
    · exact hbody (s.push v) fun h => by cases h
    · exact helse
  | each =>
    unfold tree
    refine (Run.ShowsUpTo.refl _).bind fun values => ?_
    split
    · exact helse
    · exact .each (fun v => hbody (s.push v) fun h => by cases h) _

/-- Related leaves show the same in every scope. -/
def LeavesShow (bad : Error → Prop) (L : Instruction → Instruction → Prop)
    (embed embed' : Embed) : Prop :=
  ∀ s i i', L i i' → (instruction embed s i).ShowsUpTo bad (instruction embed' s i')

variable {L : Instruction → Instruction → Prop}

mutual

theorem tree_matches (leaves : LeavesShow bad L embed embed') (s : Scope)
    {t u : Tree Instruction} :
    Tree.Matches L t u → (tree embed s t).ShowsUpTo bad (tree embed' s u)
  | .leaf hi => by
    rw [tree, tree]
    exact leaves s _ _ hi
  | .block kind subject here hbody helse =>
    block_showsUpTo kind subject here (fun s' _ => trees_matches leaves s' hbody)
      (else_matches leaves s helse)

/-- Trees over leaves that show the same show the same. -/
theorem trees_matches (leaves : LeavesShow bad L embed embed') (s : Scope)
    {ts us : List (Tree Instruction)} :
    Tree.MatchesAll L ts us → (trees embed s ts).ShowsUpTo bad (trees embed' s us)
  | .nil => by
    rw [trees, trees]
    exact .refl _
  | .cons ht hrest => by
    rw [trees, trees]
    exact (tree_matches leaves s ht).bind fun _ => trees_matches leaves s hrest

theorem else_matches (leaves : LeavesShow bad L embed embed') (s : Scope)
    {ts us : Option (List (Tree Instruction))} :
    Tree.MatchesElse L ts us → (renderElse embed s ts).ShowsUpTo bad (renderElse embed' s us)
  | .none => .refl _
  | .some h => trees_matches leaves s h

end

/-! ## Replaced leaves -/

/-- Trees in which a leaf is replaced by trees that show the same show the same. -/
theorem trees_replaced {item : Instruction} {new ts us : List (Tree Instruction)}
    (node : (instruction embed s item).ShowsUpTo bad (trees embed s new))
    (h : Tree.Replaced item new ts us) :
    (trees embed s ts).ShowsUpTo bad (trees embed s us) := by
  induction h with
  | here rest =>
    rw [trees_append, trees, tree]
    exact node.bind fun _ => .refl _
  | behind t _ ih =>
    rw [trees, trees]
    exact (Run.ShowsUpTo.refl _).bind fun _ => ih
  | body subject alternative here rest _ ih =>
    rw [trees, trees]
    refine (block_showsUpTo .cond subject here (fun s' hs => ?_) (.refl _)).bind fun _ => .refl _
    rw [hs rfl]
    exact ih
  | alternative kind subject body here rest _ ih =>
    rw [trees, trees]
    refine (block_showsUpTo kind subject here (fun s' _ => ?_) ih).bind fun _ => .refl _
    exact .refl _

end Render

/-- Programs whose runs show the same up to an error execute the same up to it, into every sink. -/
theorem Program.execute_showsUpTo {bad : Error → Prop} {p q : Program} {root : Value}
    (h : (p.run root).ShowsUpTo bad (q.run root)) (s : Sink) :
    (Avoids bad (p.execute root s).2 → q.execute root s = p.execute root s) ∧
      (p.execute root s).1.taken <+: (q.execute root s).1.taken := by
  refine execute_upTo_of_bytes (fun avoids => ?_) ?_ s
  · have same : (q.run root).shown = (p.run root).shown := h.same avoids
    exact ⟨by rw [← Run.bytes_shown, same, Run.bytes_shown], (congrArg Run.outcome same :)⟩
  · obtain ⟨rest, hrest⟩ := h.events
    rw [← Run.bytes_shown, ← Run.bytes_shown (q.run root), ← hrest, Event.bytes, Event.bytes,
      List.flatMap_append]
    exact List.prefix_append _ _

/-! ## Embedded templates -/

/-- The pipeline of a dot alone. -/
def Pipeline.IsDot (p : Pipeline) : Prop :=
  ∃ here, p.commands = [.operand (.path ⟨.dot, [], here⟩)]

theorem Pipeline.IsDot.eval {p : Pipeline} (h : p.IsDot) (s : Scope) : p.eval s = .ok s.dot := by
  obtain ⟨here, hcommands⟩ := h
  unfold Pipeline.eval
  rw [hcommands]
  rfl

/-- Where one template more may become active, trees show the same up to the limit. -/
theorem Program.trees_deeper (p : Program) (more : Nat) (s : Scope) (ts : List (Tree Instruction)) :
    (Render.trees (Render.embed p more) s ts).ShowsUpTo Error.IsTooDeep
      (Render.trees (Render.embed p (more + 1)) s ts) :=
  (Render.trees_upTo (Render.scopesUpTo_eq _) (p.embed_deeper p.config.maxDepth (Nat.le_succ more))
    rfl ts).shows

/-- A template that is embedded with the value that the rendering started with shows what its trees
show in place. -/
theorem Program.embed_showsUpTo {p : Program} {target : Nat} {v : Variant}
    (hv : p.variants[target]? = some v) {data : Option Pipeline} {root : Value}
    (same : Render.data (.start root p.config.missingKey) data = .ok root) (more : Nat)
    (name : String) (here : Location) :
    (Render.embed p more (.start root p.config.missingKey) target name data here).ShowsUpTo
      Error.IsTooDeep
      (Render.trees (Render.embed p more) (.start root p.config.missingKey) v.body) := by
  cases more with
  | zero =>
    rw [Render.embed, hv]
    exact ⟨fun avoids => absurd rfl (avoids _ rfl), List.nil_prefix⟩
  | succ more =>
    have shown : (Render.embed p (more + 1) (.start root p.config.missingKey) target name data
        here).shown =
        (Render.trees (Render.embed p more) (.start root p.config.missingKey) v.body).shown := by
      have entered : (Run.emit (.enter v.name)).shown = pure () := rfl
      have left : (Run.emit .leave).shown = pure () := rfl
      have computed : (Run.ofExcept (.ok root)).shown = pure root := rfl
      rw [Render.embed, hv]
      dsimp only
      rw [same]
      simp only [Run.shown_bind, entered, left, computed, pure_bind, bind_pure_unit]
    unfold Run.ShowsUpTo
    rw [shown]
    exact p.trees_deeper more _ _

end Stencil
