import Mathlib.Data.List.Perm.Subperm
import Stencil.Proofs.Program.Table

/-!
# Compiling without escaping

Without escaping by context, the analysis can fail in one way: a template is embedded that is not
there. All texts, outputs and joins are admitted, and every template is met in the start context
alone (`Table.Plain`), so no template has more than one entry and the room for entries is never used
up. Where all templates that are embedded one by another are there (`Closed`), the analysis succeeds
(`enter_passes`).
-/

set_option autoImplicit false

namespace Stencil.Analysis

open Markup (Context)

/-- Every template that trees embed has a name with a property. -/
def EmbedsIn (S : String → Prop) (ts : List (Tree Piece)) : Prop :=
  ∀ name data here, .embed name data here ∈ Tree.leavesOf ts → S name

/-- Templates under some names, which embed one another only. -/
def Closed (templates : List (String × Template)) (S : String → Prop) : Prop :=
  ∀ name, S name → ∃ t, Record.get? templates name = some t ∧ EmbedsIn S t.body

/-- The table of an analysis without escaping: every entry is that of another template, met in the
start context and left in it. -/
structure Table.Plain (templates : List (String × Template)) (t : Table) : Prop where
  starts : ∀ e ∈ t, e.context = .start ∧ ∀ next, e.after = some next → next = .start
  names : (t.map Entry.name).Nodup
  defined : ∀ e ∈ t, ∃ template, Record.get? templates e.name = some template

variable {templates : List (String × Template)} {S : String → Prop} {t : Table}

theorem Table.plain_nil : Table.Plain templates [] where
  starts := by simp
  names := by simp
  defined := by simp

theorem mem_keys_of_get? {name : String} {template : Template}
    (h : Record.get? templates name = some template) : name ∈ templates.map Prod.fst := by
  induction templates with
  | nil => cases h
  | cons pair rest ih =>
    obtain ⟨key, other⟩ := pair
    rw [Record.get?_cons] at h
    split at h
    · next same =>
      rw [same]
      exact List.mem_cons_self
    · exact List.mem_cons_of_mem key (ih h)

/-- There are no more entries than templates. -/
theorem Table.Plain.length_le (h : t.Plain templates) : t.length ≤ templates.length := by
  have keys : t.map Entry.name ⊆ templates.map Prod.fst := by
    intro name hname
    obtain ⟨e, he, rfl⟩ := List.mem_map.mp hname
    obtain ⟨template, hget⟩ := h.defined e he
    exact mem_keys_of_get? hget
  simpa using (List.subperm_of_subset h.names keys).length_le

theorem Table.ne_of_find?_eq_none {name : String} {c : Context} (h : t.find? name c = none) :
    ∀ e ∈ t, e.context = c → e.name ≠ name := by
  intro e he hc hname
  have := List.findIdx?_eq_none_iff.mp h e he
  simp [hname, hc] at this

/-- The table of a template that is met first. -/
theorem Table.Plain.start (h : t.Plain templates) {name : String}
    (unmet : t.find? name .start = none) {template : Template}
    (hget : Record.get? templates name = some template) :
    Table.Plain templates (t ++ [⟨name, .start, none, false, []⟩]) where
  starts := by
    rw [List.forall_mem_append, List.forall_mem_singleton]
    refine ⟨h.starts, rfl, ?_⟩
    rintro _ ⟨⟩
  names := by
    rw [List.map_append, List.nodup_append]
    refine ⟨h.names, by simp, ?_⟩
    intro a ha b hb
    obtain ⟨e, he, rfl⟩ := List.mem_map.mp ha
    rw [List.map_singleton, List.mem_singleton] at hb
    rw [hb]
    exact Table.ne_of_find?_eq_none unmet e he (h.starts e he).1
  defined := by
    rw [List.forall_mem_append, List.forall_mem_singleton]
    exact ⟨h.defined, template, hget⟩

/-- A template that is met first is in no context yet. -/
theorem Table.Plain.count_eq_zero (h : t.Plain templates) {name : String}
    (unmet : t.find? name .start = none) : t.count name = 0 := by
  refine List.countP_eq_zero.mpr fun e he heq => ?_
  exact Table.ne_of_find?_eq_none unmet e he (h.starts e he).1 (of_decide_eq_true heq)

/-- A table stays plain where an entry is changed that keeps its name and its context. -/
theorem Table.Plain.modify (h : t.Plain templates) (n : Nat) {f : Entry → Entry}
    (name : ∀ e, (f e).name = e.name) (context : ∀ e, (f e).context = e.context)
    (after : ∀ e next, (f e).after = some next → e.after = some next ∨ next = .start) :
    Table.Plain templates (t.modify n f) := by
  have members : ∀ e ∈ t.modify n f, ∃ d ∈ t, e = d ∨ e = f d := by
    intro e he
    obtain ⟨m, hm⟩ := List.getElem?_of_mem he
    rw [List.getElem?_modify] at hm
    obtain ⟨d, hd, rfl⟩ := Option.map_eq_some_iff.mp hm
    refine ⟨d, List.mem_of_getElem? hd, ?_⟩
    split
    · exact .inr rfl
    · exact .inl rfl
  refine ⟨fun e he => ?_, ?_, fun e he => ?_⟩
  · obtain ⟨d, hd, rfl | rfl⟩ := members e he
    · exact h.starts e hd
    · obtain ⟨hcontext, hafter⟩ := h.starts d hd
      refine ⟨(context d).trans hcontext, fun next hnext => ?_⟩
      exact (after d next hnext).elim (hafter next) id
  · have same : (t.modify n f).map Entry.name = t.map Entry.name := by
      refine List.ext_getElem? fun m => ?_
      rw [List.getElem?_map, List.getElem?_map, List.getElem?_modify]
      cases t[m]? with
      | none => rfl
      | some d =>
        rw [Option.map_some]
        split
        · exact congrArg some (name d)
        · rfl
    rw [same]
    exact h.names
  · obtain ⟨d, hd, rfl | rfl⟩ := members e he
    · exact h.defined e hd
    · rw [name d]
      exact h.defined d hd

/-! ## Steps -/

theorem run_bind_of_ok {α β : Type} {x : Step α} {t t' : Table} {a : α}
    (h : x.run t = .ok (a, t')) (f : α → Step β) : (x >>= f).run t = (f a).run t' := by
  rw [StateT.run_bind, h]
  rfl

/-- A step from a plain table succeeds, ends where it starts and leaves a plain table that is no
shorter. -/
def Passes {α : Type} (templates : List (String × Template)) (x : Step (α × Context))
    (t : Table) : Prop :=
  ∃ a t', x.run t = .ok ((a, .start), t') ∧ t'.Plain templates ∧ t.length ≤ t'.length

namespace Passes

variable {α β : Type}

protected theorem pure (h : t.Plain templates) (a : α) :
    Passes templates (pure (a, Context.start)) t :=
  ⟨a, t, rfl, h, Nat.le_refl _⟩

protected theorem bind {x : Step (α × Context)} {f : α × Context → Step (β × Context)}
    (hx : Passes templates x t)
    (hf : ∀ a t', t'.Plain templates → t.length ≤ t'.length → Passes templates (f (a, .start)) t') :
    Passes templates (x >>= f) t := by
  obtain ⟨a, t₁, hrun, plain, hle⟩ := hx
  obtain ⟨b, t₂, hrun', plain', hle'⟩ := hf a t₁ plain hle
  exact ⟨b, t₂, (run_bind_of_ok hrun f).trans hrun', plain', Nat.le_trans hle hle'⟩

end Passes

/-- Embeddings of templates under some names pass, where the table has enough entries. -/
def Enter.Passes (templates : List (String × Template)) (S : String → Prop) (least : Nat)
    (enter : Enter) : Prop :=
  ∀ name here t, S name → Table.Plain templates t → least ≤ t.length →
    Analysis.Passes templates (enter name .start here) t

section

variable {least : Nat} {enter : Enter}

theorem embedsIn_cons {x : Tree Piece} {rest : List (Tree Piece)} :
    EmbedsIn S (x :: rest) ↔ EmbedsIn S [x] ∧ EmbedsIn S rest := by
  simp only [EmbedsIn, Tree.leavesOf, List.append_nil, List.mem_append, or_imp, forall_and]

theorem embedsIn_block {kind : BlockKind} {subject : Pipeline} {body : List (Tree Piece)}
    {alternative : Option (List (Tree Piece))} {here : Location} :
    EmbedsIn S [.block kind subject body alternative here] ↔
      EmbedsIn S body ∧ ∀ other, alternative = some other → EmbedsIn S other := by
  cases alternative with
  | none => simp [EmbedsIn, Tree.leavesOf, Tree.leaves]
  | some other =>
    simp [EmbedsIn, Tree.leavesOf, Tree.leaves, or_imp, forall_and]

mutual

theorem tree_passes (embeds : enter.Passes templates S least) :
    (x : Tree Piece) → EmbedsIn S [x] → ∀ t : Table, t.Plain templates → least ≤ t.length →
      Passes templates (tree .verbatim enter .start x) t
  | .leaf (.text content here), _, t, plain, _ => by
    rw [tree]
    exact .pure plain _
  | .leaf (.output p here), _, t, plain, _ => by
    rw [tree]
    exact .pure plain _
  | .leaf (.embed name data here), h, t, plain, hle => by
    have hname : S name := h name data here (by simp [Tree.leavesOf, Tree.leaves])
    rw [tree]
    refine Passes.bind ?_ fun _ _ plain _ => .pure plain _
    exact (embeds name here t hname plain hle).bind fun _ _ plain _ => .pure plain _
  | .block kind subject body alternative here, h, t, plain, hle => by
    obtain ⟨hbody, helse⟩ := embedsIn_block.mp h
    have first := trees_passes embeds body hbody t plain hle
    have otherwise (other : List (Tree Piece)) (heq : alternative = some other) (t' : Table)
        (plain' : t'.Plain templates) (hle' : t.length ≤ t'.length) :
        Passes templates (trees .verbatim enter .start other) t' := by
      subst heq
      exact trees_passes embeds other (helse other rfl) t' plain' (Nat.le_trans hle hle')
    by_cases hk : kind = .each
    · subst hk
      rw [tree_each]
      refine first.bind fun once t' plain' hle' => ?_
      change Passes templates
        (loopElse .verbatim enter .start .start subject once alternative here) t'
      cases alternative with
      | none => exact .pure plain' _
      | some other =>
        exact (otherwise other rfl t' plain' hle').bind fun _ _ plain _ => .pure plain _
    · rw [tree]
      · refine first.bind fun once t' plain' hle' => ?_
        cases alternative with
        | none => exact .pure plain' _
        | some other =>
          exact (otherwise other rfl t' plain' hle').bind fun _ _ plain _ => .pure plain _
      · exact hk

theorem trees_passes (embeds : enter.Passes templates S least) :
    (xs : List (Tree Piece)) → EmbedsIn S xs → ∀ t : Table, t.Plain templates → least ≤ t.length →
      Passes templates (trees .verbatim enter .start xs) t
  | [], _, t, plain, _ => by
    rw [trees]
    exact .pure plain _
  | x :: rest, h, t, plain, hle => by
    rw [trees]
    refine (tree_passes embeds x (embedsIn_cons.mp h).1 t plain hle).bind fun u t' plain' hle' => ?_
    have later := trees_passes embeds rest (embedsIn_cons.mp h).2 t' plain' (Nat.le_trans hle hle')
    refine later.bind ?_
    exact fun _ _ plain _ => .pure plain _

end

end

/-- An entry that is met again passes. -/
theorem revisit_passes (plain : t.Plain templates) (number : Nat) :
    Passes templates (revisit number .start) t := by
  unfold revisit
  have read : StateT.run (get : Step Table) t = .ok (t, t) := rfl
  cases h : t[number]?.bind Entry.after with
  | some next =>
    obtain ⟨e, he, hafter⟩ := Option.bind_eq_some_iff.mp h
    have hnext : next = .start := (plain.starts e (List.mem_of_getElem? he)).2 next hafter
    refine ⟨number, t, ?_, plain, Nat.le_refl _⟩
    rw [run_bind_of_ok read, h, hnext]
    rfl
  | none =>
    refine ⟨number, t.modify number fun e => { e with recursive := true }, ?_,
      plain.modify number (fun _ => rfl) (fun _ => rfl) (fun _ _ => .inl), by simp⟩
    rw [run_bind_of_ok read, h]
    rfl

/-- Without escaping, the analysis of templates that embed one another only succeeds, as long as
there is room for all templates. -/
theorem enter_passes (closed : Closed templates S) (room : Nat) :
    Enter.Passes templates S (templates.length + 1 - room)
      (Analysis.enter .verbatim templates room) := by
  induction room with
  | zero =>
    intro name here t _ plain hle
    exact absurd plain.length_le (by omega)
  | succ room ih =>
    intro name here t hname plain hle
    obtain ⟨template, hget, hbody⟩ := closed name hname
    have read (t : Table) : StateT.run (get : Step Table) t = .ok (t, t) := rfl
    rw [Analysis.enter]
    cases hfind : t.find? name .start with
    | some number =>
      obtain ⟨a, t', hrun, passed⟩ := revisit_passes plain number
      refine ⟨a, t', ?_, passed⟩
      rw [run_bind_of_ok (read t), hfind]
      exact hrun
    | none =>
      have count := plain.count_eq_zero hfind
      have started := plain.start hfind hget
      have hlen : (t ++ [(⟨name, .start, none, false, []⟩ : Entry)]).length = t.length + 1 :=
        List.length_append
      obtain ⟨body, t', hrun, plain', hle'⟩ :=
        trees_passes ih template.body hbody _ started (by omega)
      refine ⟨t.length, t'.modify t.length fun e => { e with after := some .start, body }, ?_,
        plain'.modify _ (fun _ => rfl) (fun _ => rfl) (fun _ _ h => .inr (Option.some.inj h).symm),
        by rw [List.length_modify]; omega⟩
      rw [run_bind_of_ok (read t), hfind, hget]
      dsimp only
      rw [if_neg (by rw [count]; decide)]
      -- the body ends in the start context, so no recursion is refused
      refine (run_bind_of_ok rfl _).trans ((run_bind_of_ok hrun _).trans ?_)
      refine (run_bind_of_ok (read t') _).trans ?_
      rw [if_neg fun h => h.2 rfl]
      rfl

end Stencil.Analysis
