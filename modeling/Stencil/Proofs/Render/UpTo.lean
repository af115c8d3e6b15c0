import Stencil.Proofs.Results
import Stencil.Render.Basic

/-!
# Runs that are the same up to an error

Settings that only decide whether some error is made do not show in a run before that error. Two
results are the same up to a kind of errors if the second is the first wherever that is no such
error (`UpTo`). Two runs are if, besides, the second starts with what happens in the first
(`Run.UpTo`): where the first stops at such an error, the second goes on.

Both are kept by binds, so a rendering is the same up to an error if what it computes from its
scopes is, and what it embeds (`Render.trees_upTo`). How the two scopes are related is left open:
what is asked of them is that pipelines are the same up to the error, and that a value can become
the current one in both.
-/

set_option autoImplicit false

namespace Stencil

variable {ε α β : Type}

/-- The second result is the first, unless that is an error of a kind. -/
def UpTo (bad : ε → Prop) (x y : Except ε α) : Prop :=
  Avoids bad x → y = x

namespace UpTo

variable {bad : ε → Prop} {x y : Except ε α}

protected theorem refl (x : Except ε α) : UpTo bad x x := fun _ => rfl

theorem of_error {e : ε} (h : bad e) (y : Except ε α) : UpTo bad (.error e) y :=
  fun avoids => absurd h (avoids e rfl)

protected theorem bind {f g : α → Except ε β} (h : UpTo bad x y) (hfg : ∀ a, UpTo bad (f a) (g a)) :
    UpTo bad (x >>= f) (y >>= g) := by
  intro avoids
  cases x with
  | error e =>
    have same : y = .error e := h (.error (avoids e rfl))
    rw [same]
    rfl
  | ok a =>
    have same : y = .ok a := h (.ok a)
    rw [same]
    exact hfg a avoids

protected theorem map (h : UpTo bad x y) (f : α → β) : UpTo bad (x.map f) (y.map f) := by
  intro avoids
  cases x with
  | error e =>
    have same : y = .error e := h (.error (avoids e rfl))
    rw [same]
  | ok a =>
    have same : y = .ok a := h (.ok a)
    rw [same]

protected theorem mapM {f g : α → Except ε β} (h : ∀ a, UpTo bad (f a) (g a)) (as : List α) :
    UpTo bad (as.mapM f) (as.mapM g) := by
  induction as with
  | nil => exact .refl _
  | cons a as ih =>
    rw [List.mapM_cons, List.mapM_cons]
    exact (h a).bind fun b => ih.bind fun rest => .refl _

end UpTo

/-- The second run is the first, unless that ends in an error of a kind; all that happens in the
first happens at the start of the second. -/
structure Run.UpTo (bad : Error → Prop) (r r' : Run α) : Prop where
  same : Avoids bad r.outcome → r' = r
  events : r.events <+: r'.events

namespace Run.UpTo

variable {bad : Error → Prop} {r r' : Run α}

protected theorem refl (r : Run α) : Run.UpTo bad r r := ⟨fun _ => rfl, List.prefix_rfl⟩

theorem ofExcept {x y : Except Error α} (h : Stencil.UpTo bad x y) :
    Run.UpTo bad (Run.ofExcept x) (Run.ofExcept y) :=
  ⟨fun avoids => congrArg Run.ofExcept (h avoids), List.prefix_rfl⟩

protected theorem bind {f g : α → Run β} (h : r.UpTo bad r') (hfg : ∀ a, (f a).UpTo bad (g a)) :
    (r >>= f).UpTo bad (r' >>= g) := by
  cases houtcome : r.outcome with
  | ok a =>
    obtain rfl : r' = r := h.same (houtcome ▸ .ok a)
    rw [bind_of_ok houtcome, bind_of_ok houtcome]
    refine ⟨fun avoids => ?_, List.prefix_append_right_inj _ |>.mpr (hfg a).events⟩
    rw [(hfg a).same avoids]
  | error e =>
    rw [bind_of_error houtcome]
    refine ⟨fun avoids => ?_, ?_⟩
    · obtain rfl : r' = r := h.same (houtcome ▸ .error (avoids e rfl))
      exact bind_of_error houtcome g
    · -- the second run may go on with what comes behind
      refine h.events.trans ?_
      cases houtcome' : r'.outcome with
      | ok a =>
        rw [bind_of_ok houtcome']
        exact List.prefix_append _ _
      | error e' =>
        have same : (r' >>= g).events = r'.events := by rw [bind_of_error houtcome']
        exact same ▸ List.prefix_rfl

theorem each {render render' : Value → Run Unit} (h : ∀ v, (render v).UpTo bad (render' v))
    (values : List Value) :
    Run.UpTo bad (Render.each render values) (Render.each render' values) := by
  induction values with
  | nil => exact .refl _
  | cons v rest ih =>
    rw [Render.each, Render.each]
    exact (h v).bind fun _ => ih

/-- What is written in the first run is written at the start of the second. -/
theorem exists_written (h : r.UpTo bad r') : ∃ more, r'.written = r.written ++ more := by
  obtain ⟨rest, hrest⟩ := h.events
  refine ⟨String.join (rest.map Event.written), ?_⟩
  rw [written, ← hrest, List.map_append, String.join_append]
  rfl

end Run.UpTo

namespace Render

variable {bad : Error → Prop} {R : Scope → Scope → Prop}

/-- Pipelines are the same up to an error in related scopes, and scopes stay related where a value
becomes the current one. -/
structure ScopesUpTo (bad : Error → Prop) (R : Scope → Scope → Prop) : Prop where
  eval : ∀ {s s'}, R s s' → ∀ p : Pipeline, UpTo bad (p.eval s) (p.eval s')
  push : ∀ {s s'}, R s s' → ∀ v, R (s.push v) (s'.push v)

/-- Two ways to embed a template that are the same up to an error in related scopes. -/
def EmbedUpTo (bad : Error → Prop) (R : Scope → Scope → Prop) (embed embed' : Embed) : Prop :=
  ∀ s s' target name data here, R s s' →
    (embed s target name data here).UpTo bad (embed' s' target name data here)

theorem data_upTo (scopes : ScopesUpTo bad R) {s s' : Scope} (h : R s s')
    (data : Option Pipeline) : UpTo bad (Render.data s data) (Render.data s' data) := by
  cases data with
  | none => exact .refl _
  | some p => exact scopes.eval h p

theorem items_upTo (scopes : ScopesUpTo bad R) {s s' : Scope} (h : R s s') (p : Pipeline)
    (here : Location) : UpTo bad (items s p here) (items s' p here) :=
  (scopes.eval h p).bind fun _ => .refl _

variable {embed embed' : Embed}

theorem instruction_upTo (scopes : ScopesUpTo bad R) (embeds : EmbedUpTo bad R embed embed')
    {s s' : Scope} (h : R s s') (i : Instruction) :
    (instruction embed s i).UpTo bad (instruction embed' s' i) := by
  cases i with
  | text content => exact .refl _
  | output p rules here => exact (Run.UpTo.ofExcept (scopes.eval h p)).bind fun _ => .refl _
  | embed name target data here => exact embeds s s' target name data here h

mutual

theorem tree_upTo (scopes : ScopesUpTo bad R) (embeds : EmbedUpTo bad R embed embed')
    {s s' : Scope} (h : R s s') :
    (t : Tree Instruction) → (tree embed s t).UpTo bad (tree embed' s' t)
  | .leaf i => by
    rw [tree, tree]
    exact instruction_upTo scopes embeds h i
  | .block kind subject body alternative here => by
    have rendered {s s'} (h : R s s') : (trees embed s body).UpTo bad (trees embed' s' body) :=
      trees_upTo scopes embeds h body
    have otherwise : Run.UpTo bad
        (match alternative with
          | none => (pure () : Run Unit)
          | some alternative => trees embed s alternative)
        (match alternative with
          | none => (pure () : Run Unit)
          | some alternative => trees embed' s' alternative) := by
      match alternative with
      | none => exact .refl _
      | some other => exact trees_upTo scopes embeds h other
    cases kind with
    | cond =>
      unfold tree
      refine (Run.UpTo.ofExcept (scopes.eval h subject)).bind fun v => ?_
      split
      · exact rendered h
      · exact otherwise
    | within =>
      unfold tree
      refine (Run.UpTo.ofExcept (scopes.eval h subject)).bind fun v => ?_
      split
      · exact rendered (scopes.push h v)
      · exact otherwise
    | each =>
      unfold tree
      refine (Run.UpTo.ofExcept (items_upTo scopes h subject here)).bind fun values => ?_
      split
      · exact otherwise
      · exact .each (fun v => rendered (scopes.push h v)) _

/-- A rendering is the same up to an error if pipelines and embedded templates are. -/
theorem trees_upTo (scopes : ScopesUpTo bad R) (embeds : EmbedUpTo bad R embed embed')
    {s s' : Scope} (h : R s s') :
    (ts : List (Tree Instruction)) → (trees embed s ts).UpTo bad (trees embed' s' ts)
  | [] => by
    rw [trees, trees]
    exact .refl _
  | t :: rest => by
    rw [trees, trees]
    exact (tree_upTo scopes embeds h t).bind fun _ => trees_upTo scopes embeds h rest

end

end Render

end Stencil
