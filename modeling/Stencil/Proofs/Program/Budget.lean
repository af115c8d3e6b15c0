import Mathlib.Algebra.Order.BigOperators.Group.Finset
import Mathlib.Algebra.BigOperators.Group.List.Lemmas
import Stencil.Proofs.Program.Congruence
import Stencil.Proofs.Program.Halves
import Stencil.Proofs.Program.LockStep

/-!
# The budget of the analysis

The analysis goes down into embedded templates by a number of entries that the table can still get.
That number is never used up. Where templates are embedded without such a number (`specialize`), one
may put anything at the bottom of a long enough descent: the analysis of an entry never gets there
(`enterUpTo_same`). For each level below another has an entry more, and a table has room for a
bounded number of entries only (`Table.Budgeted.length_le`): it has none twice, sixty-four of each
name at most, and the names are those of templates.

Loops are analysed twice, so the same embeddings are met again and again; the second time they find
their entry. What a table has besides, it has because the entry leads to it (`Leads`), and without
escaping all contexts are the same, so each such template has one entry.
-/

set_option autoImplicit false

namespace Stencil.Analysis

open Markup (Context)

/-! ## The descent -/

/-- Ends the compilation of a template at a location, given the number of its entry and what its
body is compiled to. -/
def conclude (name : String) (c : Context) (number : Nat) (here : Location)
    (r : List (Tree Instruction) × Context) : Step (Nat × Context) := do
  if (← get)[number]?.any Entry.recursive ∧ r.2 ≠ c then
    ambiguous (.recursive name c r.2) here
  else do
    modify (·.modify number fun e => { e with after := some r.2, body := r.1 })
    pure (number, r.2)

/-- Compiles a template for a context, where the templates that it embeds are compiled in some
way. -/
def specialize (policy : Policy) (templates : List (String × Template)) (embed : Enter) : Enter :=
  fun name c here => do
    let table ← get
    match table.find? name c with
    | some number => revisit number c
    | none =>
      match Record.get? templates name with
      | none => fail (.undefined name here)
      | some template =>
        if contextLimit ≤ table.count name then
          ambiguous (.tooManyContexts name contextLimit) here
        else do
          set (table ++ [(⟨name, c, none, false, []⟩ : Entry)])
          let compiled ← trees policy embed c template.body
          conclude name c table.length template.location compiled

/-- Compiles a template for a context, where the templates that are embedded more than a number of
levels below it are compiled in some way. -/
def enterUpTo (policy : Policy) (templates : List (String × Template)) (beyond : Enter) :
    Nat → Enter
  | 0 => beyond
  | n + 1 => specialize policy templates (enterUpTo policy templates beyond n)

/-- The analysis refuses what is embedded below its last level. -/
theorem enter_eq_enterUpTo (policy : Policy) (templates : List (String × Template)) (n : Nat) :
    Analysis.enter policy templates n = enterUpTo policy templates
      (fun name _ here => ambiguous (.tooManyContexts name contextLimit) here) n := by
  induction n with
  | zero =>
    funext name c here
    rw [Analysis.enter, enterUpTo]
  | succ n ih =>
    funext name c here
    rw [Analysis.enter, enterUpTo, ← ih]
    rfl

/-! ## Tables -/

/-- A table with entries for templates of some names that are there, for a limited number of
contexts each, and none twice. -/
structure Table.Budgeted (templates : List (String × Template)) (S : String → Prop) (t : Table) :
    Prop where
  defined : ∀ k ∈ t.keys, S k.1 ∧ ∃ template, Record.get? templates k.1 = some template
  limited : ∀ name, t.count name ≤ contextLimit
  distinct : t.keys.Nodup

theorem Table.length_keys (t : Table) : t.keys.length = t.length := List.length_map _

theorem Table.count_eq (t : Table) (name : String) :
    t.count name = (t.keys.map Prod.fst).count name := by
  unfold Table.count Table.keys
  rw [List.map_map, List.count, List.countP_map]
  exact List.countP_congr fun e _ => by simp

section

variable {templates : List (String × Template)} {S : String → Prop} {t t' : Table}

theorem Table.budgeted_nil : Table.Budgeted templates S [] where
  defined := by simp [Table.keys]
  limited := by simp [Table.count]
  distinct := by simp [Table.keys]

/-- Only the templates and contexts of the entries count. -/
theorem Table.Budgeted.of_keys (h : t.Budgeted templates S) (same : t'.keys = t.keys) :
    t'.Budgeted templates S where
  defined := same ▸ h.defined
  limited name := by
    rw [Table.count_eq, same, ← Table.count_eq]
    exact h.limited name
  distinct := same ▸ h.distinct

/-- There is room for a number of entries for each template. -/
theorem Table.Budgeted.length_le (h : t.Budgeted templates S) :
    t.length ≤ contextLimit * templates.length := by
  have names : (t.keys.map Prod.fst).toFinset ⊆ (templates.map Prod.fst).toFinset := by
    intro name hname
    obtain ⟨k, hk, rfl⟩ := List.mem_map.mp (List.mem_toFinset.mp hname)
    obtain ⟨-, template, hget⟩ := h.defined k hk
    exact List.mem_toFinset.mpr (mem_keys_of_get? hget)
  have few : (t.keys.map Prod.fst).toFinset.card ≤ templates.length :=
    calc (t.keys.map Prod.fst).toFinset.card
      _ ≤ (templates.map Prod.fst).toFinset.card := Finset.card_le_card names
      _ ≤ (templates.map Prod.fst).length := List.toFinset_card_le _
      _ = templates.length := List.length_map _
  calc t.length
    _ = (t.keys.map Prod.fst).length := by rw [List.length_map, Table.length_keys]
    _ = ∑ name ∈ (t.keys.map Prod.fst).toFinset, (t.keys.map Prod.fst).count name :=
      (List.sum_toFinset_count_eq_length _).symm
    _ ≤ (t.keys.map Prod.fst).toFinset.card • contextLimit := by
      refine Finset.sum_le_card_nsmul _ _ _ fun name _ => ?_
      rw [← Table.count_eq]
      exact h.limited name
    _ ≤ contextLimit * templates.length := by
      rw [Nat.nsmul_eq_mul, Nat.mul_comm]
      exact Nat.mul_le_mul_left _ few

/-- A table stays within the budget where a template is met in a new context. -/
theorem Table.Budgeted.start (h : t.Budgeted templates S) {name : String} {c : Context}
    (unmet : t.find? name c = none) (few : t.count name < contextLimit) (hs : S name)
    {template : Template} (hget : Record.get? templates name = some template) :
    Table.Budgeted templates S (t ++ [⟨name, c, none, false, []⟩]) := by
  have keys : Table.keys (t ++ [⟨name, c, none, false, []⟩]) = t.keys ++ [(name, c)] :=
    List.map_append
  refine ⟨?_, fun other => ?_, ?_⟩
  · rw [keys, List.forall_mem_append, List.forall_mem_singleton]
    exact ⟨h.defined, hs, template, hget⟩
  · rw [Table.count, List.countP_append, ← Table.count, List.countP_singleton]
    dsimp only
    by_cases same : name = other
    · rw [← same, if_pos (decide_eq_true rfl)]
      exact few
    · rw [if_neg (by simpa using same)]
      exact h.limited other
  · rw [keys, List.nodup_append]
    refine ⟨h.distinct, List.nodup_singleton _, fun k hk k' hk' => ?_⟩
    rw [List.mem_singleton.mp hk']
    rintro rfl
    obtain ⟨e, he, heq⟩ := List.mem_map.mp hk
    obtain ⟨rfl, rfl⟩ := Prod.mk.inj heq
    exact Table.ne_of_find?_eq_none unmet e he rfl rfl

end

/-! ## The bottom of a descent -/

/-- Steps that do the same from every table within the budget that has a number of entries, and that
leave such a table with no fewer. -/
def Step.SameFrom (templates : List (String × Template)) (S : String → Prop) (least : Nat)
    {α : Type} (x y : Step α) : Prop :=
  ∀ t, Table.Budgeted templates S t → least ≤ t.length →
    x.run t = y.run t ∧
      ∀ r, x.run t = .ok r → r.2.Budgeted templates S ∧ t.length ≤ r.2.length

section

variable {templates : List (String × Template)} {S : String → Prop} {least : Nat}

/-- A step that adds no entry. -/
theorem Step.SameFrom.of_keys {α : Type} {x : Step α}
    (h : ∀ t r, x.run t = .ok r → r.2.keys = t.keys) : x.SameFrom templates S least x := by
  intro t ht _
  refine ⟨rfl, fun r hr => ?_⟩
  have same := h t r hr
  refine ⟨ht.of_keys same, Nat.le_of_eq ?_⟩
  rw [← t.length_keys, ← r.2.length_keys, same]

theorem Step.SameFrom.fail {α : Type} (e : Error) :
    (Analysis.fail e : Step α).SameFrom templates S least (Analysis.fail e) :=
  .of_keys fun _ _ h => by cases h

theorem Step.sameFrom_congruence (templates : List (String × Template)) (S : String → Prop)
    (least : Nat) :
    Step.Congruence (fun _ => True) (Step.SameFrom templates S least) where
  pure a := .of_keys fun t r hr => by
    cases hr
    rfl
  bind hx hf := by
    intro t ht hle
    obtain ⟨same, kept⟩ := hx t ht hle
    rw [StateT.run_bind, StateT.run_bind, ← same]
    cases hrun : StateT.run _ t with
    | error e => exact ⟨rfl, nofun⟩
    | ok r =>
      obtain ⟨ht₁, hle₁⟩ := kept r hrun
      obtain ⟨same₁, kept₁⟩ := hf r.1 r.2 ht₁ (Nat.le_trans hle hle₁)
      refine ⟨same₁, fun s hs => ?_⟩
      obtain ⟨ht₂, hle₂⟩ := kept₁ s hs
      exact ⟨ht₂, Nat.le_trans hle₁ hle₂⟩
  ambiguous _ _ _ := .fail _

theorem get_sameFrom : (get : Step Table).SameFrom templates S least get :=
  .of_keys fun t r hr => by
    cases hr
    rfl

/-- Changing an entry in what it does not go by. -/
theorem modify_sameFrom (n : Nat) {f : Entry → Entry}
    (hf : ∀ e, (f e).name = e.name ∧ (f e).context = e.context) :
    (modify (fun t : Table => t.modify n f) : Step PUnit).SameFrom templates S least
      (modify fun t => t.modify n f) :=
  .of_keys fun t r hr => by
    cases hr
    exact Table.keys_modify t n f hf

theorem revisit_sameFrom (n : Nat) (c : Context) :
    (revisit n c).SameFrom templates S least (revisit n c) := by
  have rel := Step.sameFrom_congruence templates S least
  unfold revisit
  refine rel.bind get_sameFrom fun t => ?_
  split
  · exact rel.pure _
  · exact rel.bind (modify_sameFrom n fun _ => ⟨rfl, rfl⟩) fun _ => rel.pure _

theorem conclude_sameFrom (name : String) (c : Context) (n : Nat) (here : Location)
    (r : List (Tree Instruction) × Context) :
    (conclude name c n here r).SameFrom templates S least (conclude name c n here r) := by
  have rel := Step.sameFrom_congruence templates S least
  unfold conclude
  refine rel.bind get_sameFrom fun t => ?_
  split
  · exact rel.ambiguous _ here trivial
  · exact rel.bind (modify_sameFrom n fun _ => ⟨rfl, rfl⟩) fun _ => rel.pure _

/-- Templates of some names, which embed such templates only. -/
def ClosedUnder (templates : List (String × Template)) (S : String → Prop) : Prop :=
  ∀ name template, S name → Record.get? templates name = some template →
    EmbedsIn S template.body

variable {policy : Policy} {embed embed' : Enter}

/-- Two ways to embed that are the same from tables with an entry more make the same entries. -/
theorem specialize_sameFrom (closed : ClosedUnder templates S)
    (same : Enter.Related (fun _ => True) (Step.SameFrom templates S (least + 1)) S embed embed') :
    Enter.Related (fun _ => True) (Step.SameFrom templates S least) S
      (specialize policy templates embed) (specialize policy templates embed') := by
  intro name c here hs _ t ht hle
  have rel := Step.sameFrom_congruence templates S (least + 1)
  have read : StateT.run (get : Step Table) t = .ok (t, t) := rfl
  unfold specialize
  rw [run_bind_of_ok read, run_bind_of_ok read]
  cases hfind : t.find? name c with
  | some n => exact revisit_sameFrom n c t ht hle
  | none =>
    cases hget : Record.get? templates name with
    | none => exact Step.SameFrom.fail _ t ht hle
    | some template =>
      dsimp only
      split
      · exact Step.SameFrom.fail _ t ht hle
      · next few =>
        have started := ht.start hfind (Nat.lt_of_not_le few) hs hget
        have longer : t.length < (t ++ [(⟨name, c, none, false, []⟩ : Entry)]).length := by simp
        have body : (trees policy embed c template.body).SameFrom templates S (least + 1)
            (trees policy embed' c template.body) :=
          trees_congr rel same c template.body (closed name template hs hget) fun _ _ => trivial
        obtain ⟨hrun, kept⟩ := rel.bind body (conclude_sameFrom name c t.length template.location)
          _ started (Nat.lt_of_le_of_lt hle longer)
        exact ⟨hrun, fun r hr => ⟨(kept r hr).1, Nat.le_of_lt (longer.trans_le (kept r hr).2)⟩⟩

/-- What two descents do below their last levels does not matter to a table that has too many
entries for them to get there. -/
theorem enterUpTo_sameFrom (closed : ClosedUnder templates S) (beyond beyond' : Enter) {n n' : Nat}
    (deep : room templates ≤ least + n) (deep' : room templates ≤ least + n') :
    Enter.Related (fun _ => True) (Step.SameFrom templates S least) S
      (enterUpTo policy templates beyond n) (enterUpTo policy templates beyond' n') := by
  have full {t : Table} (ht : t.Budgeted templates S) : ¬ room templates ≤ t.length := by
    have := ht.length_le
    unfold room
    omega
  induction n generalizing n' least with
  | zero => exact fun _ _ _ _ _ t ht hle => absurd (deep.trans hle) (full ht)
  | succ n ih =>
    cases n' with
    | zero => exact fun _ _ _ _ _ t ht hle => absurd (deep'.trans hle) (full ht)
    | succ n' => exact specialize_sameFrom closed (ih (by omega) (by omega))

end

/-! ## What an entry leads to -/

/-- The templates that are embedded, one by another, from an entry on. -/
inductive Leads (templates : List (String × Template)) (entry : String) : String → Prop where
  | entry : Leads templates entry entry
  | embed {name other : String} {template : Template} {data : Option Pipeline} {here : Location} :
      Leads templates entry name → Record.get? templates name = some template →
      .embed other data here ∈ Tree.leavesOf template.body → Leads templates entry other

section

variable {templates : List (String × Template)} {entry : String} {policy : Policy} {t : Table}

theorem closedUnder_leads : ClosedUnder templates (Leads templates entry) :=
  fun _ _ led hget _ _ _ embedded => led.embed hget embedded

/-- The analysis of an entry does not depend on what it would do below its last level. -/
theorem enterUpTo_same (beyond : Enter) {n : Nat} (deep : room templates ≤ n) (c : Context)
    (here : Location) :
    (enterUpTo policy templates beyond n entry c here).run [] =
      (Analysis.enter policy templates (room templates) entry c here).run [] := by
  have least : room templates ≤ 0 + room templates := by omega
  rw [enter_eq_enterUpTo]
  exact (enterUpTo_sameFrom closedUnder_leads beyond _ (by omega) least entry c here .entry trivial
    [] Table.budgeted_nil (Nat.zero_le _)).1

/-- The analysis of an entry stays within the budget. -/
theorem enter_budgeted {c : Context} {here : Location} {r : Nat × Context}
    (h : (Analysis.enter policy templates (room templates) entry c here).run [] = .ok (r, t)) :
    t.Budgeted templates (Leads templates entry) := by
  have least : room templates ≤ 0 + room templates := by omega
  rw [enter_eq_enterUpTo] at h
  exact ((enterUpTo_sameFrom closedUnder_leads _ (fun _ _ _ => fail .data) least least entry c here
    .entry trivial [] Table.budgeted_nil (Nat.zero_le _)).2 _ h).1

/-- Whatever the entry leads to is in a complete table that has the entry. -/
theorem Table.Complete.mem_of_leads {P : Context → Prop} (complete : t.Complete policy templates P)
    {c next : Context} {n : Nat} (link : t.Links entry c n next) {name : String}
    (led : Leads templates entry name) : ∃ c n next, t.Links name c n next := by
  induction led with
  | entry => exact ⟨c, n, next, link⟩
  | embed _ hget embedded ih =>
    obtain ⟨template, hget', hbody⟩ := complete.closed _ ih
    obtain rfl := Option.some.inj (hget.symm.trans hget')
    exact hbody _ _ _ embedded

end

end Analysis

open Analysis

variable {templates : List (String × Template)} {entry : String} {t : Table}

/-- Variants are told apart by their templates and contexts. -/
theorem Analysis.Table.Budgeted.nodup_contextual {S : String → Prop}
    (h : t.Budgeted templates S) :
    ((t.variants .contextual).map fun v => (v.name, v.place)).Nodup := by
  have keys : ((t.variants .contextual).map fun v => (v.name, v.place)) =
      t.keys.map fun k => (k.1, Place.markup k.2) := by
    rw [Table.variants, Table.keys, List.map_map, List.map_map]
    rfl
  rw [keys]
  refine h.distinct.map fun k k' heq => ?_
  obtain ⟨hname, hplace⟩ := Prod.mk.inj heq
  exact Prod.ext hname (Place.markup.inj hplace)

/-- Where all contexts are the same, variants are told apart by their templates alone. -/
theorem Analysis.Table.Budgeted.nodup_names {S : String → Prop} {policy : Policy}
    (h : t.Budgeted templates S) (starts : ∀ e ∈ t, e.context = .start) :
    ((t.variants policy).map Variant.name).Nodup := by
  have keys : t.keys = ((t.variants policy).map Variant.name).map fun name =>
      (name, Markup.Context.start) := by
    rw [Table.variants, Table.keys, List.map_map, List.map_map]
    exact List.map_congr_left fun e he => Prod.ext rfl (starts e he)
  have distinct := h.distinct
  rw [keys] at distinct
  exact distinct.of_map _

theorem Analysis.Table.count_variants (policy : Policy) (t : Table) (name : String) :
    (t.variants policy).countP (·.name = name) = t.count name := by
  rw [Table.variants, List.countP_map]
  rfl

/-- The analysis of an entry ends, whatever the templates: with levels enough for the room of its
table, nothing that it might do below the last one makes a difference. No two variants of a program
are of one template at one place; with escaping by context there are sixty-four of a template at
most, and without it there is one of each template that the entry leads to, and none of others. -/
theorem Program.compile_within_budget (templates : List (String × Template)) (entry : String)
    (config : Config) :
    (∀ beyond n, room templates ≤ n →
      (enterUpTo config.policy templates beyond n entry .start .outside).run [] =
        (Analysis.enter config.policy templates (room templates) entry .start .outside).run []) ∧
    ∀ p, Program.compile templates entry config = .ok p →
      (p.variants.map fun v => (v.name, v.place)).Nodup ∧
      (config.autoescape = true → ∀ name, p.variants.countP (·.name = name) ≤ 64) ∧
      (config.autoescape = false → (p.variants.map Variant.name).Nodup ∧
        ∀ name, name ∈ p.variants.map Variant.name ↔ Leads templates entry name) := by
  refine ⟨fun beyond n deep => enterUpTo_same beyond deep .start .outside, fun p hp => ?_⟩
  rw [Program.compile_eq] at hp
  obtain ⟨q, hq, hchecked⟩ := exists_of_bind_eq_ok hp
  rw [Program.eq_of_checked hchecked]
  obtain ⟨number, next, t, hrun, rfl⟩ := Program.unchecked_eq_ok hq
  have within := enter_budgeted hrun
  dsimp only
  cases hescape : config.autoescape with
  | true =>
    rw [Config.policy, if_pos hescape]
    refine ⟨within.nodup_contextual, fun _ name => ?_,
      fun verbatim => absurd verbatim Bool.false_ne_true.symm⟩
    rw [Table.count_variants]
    exact within.limited name
  | false =>
    rw [Config.policy, if_neg (Bool.eq_false_iff.mp hescape)] at hrun ⊢
    obtain ⟨link, complete⟩ := enter_compiled (Policy.verbatim_preserves (· = .start)) rfl hrun
    have starts : ∀ e ∈ t, e.context = .start := by
      intro e he
      obtain ⟨n, hn⟩ := List.getElem?_of_mem he
      exact (complete n e hn).1
    have names : ((t.variants .verbatim).map Variant.name).Nodup := within.nodup_names starts
    have distinct : ((t.variants .verbatim).map fun v => (v.name, v.place)).Nodup :=
      .of_map Prod.fst (by rwa [List.map_map])
    refine ⟨distinct, fun contextual => absurd contextual Bool.false_ne_true,
      fun _ => ⟨names, fun name => ?_⟩⟩
    constructor
    · intro hname
      obtain ⟨v, hv, rfl⟩ := List.mem_map.mp hname
      obtain ⟨e, he, rfl⟩ := List.mem_map.mp hv
      exact (within.defined (e.name, e.context) (List.mem_map_of_mem he)).1
    · intro led
      obtain ⟨c, n, stop, e, hn, hname, -⟩ := complete.mem_of_leads link led
      refine List.mem_map.mpr ⟨_, List.mem_map_of_mem (List.mem_of_getElem? hn), hname⟩

/-- A page that embeds itself in a loop, and a label in two contexts, which embeds itself. -/
def ringPage : List (String × Template) :=
  let dot : Pipeline := ⟨[.operand (.path ⟨.dot, [], .start⟩)], .start⟩
  let label : Tree Piece := .leaf (.embed "label" (some dot) .start)
  [("label", ⟨"label", [.leaf (.output dot .start), .block .cond dot [label] none .start], .start⟩),
    ("page", ⟨"page", [.leaf (.text "<b title=\"" .start), label, .leaf (.text "\">" .start), label,
      .block .each dot [.leaf (.embed "page" (some dot) .start)] none .start,
      .leaf (.text "</b>" .start)], .start⟩)]

theorem Program.compile_within_budget_ringPage :
    (enterUpTo .contextual ringPage (fun _ _ _ => fail .data) 129 "page" .start .outside).run [] =
      (Analysis.enter .contextual ringPage 129 "page" .start .outside).run [] ∧
    ∃ p q, Program.compile ringPage "page" .standard = .ok p ∧
      Program.compile ringPage "page" { Config.standard with autoescape := false } = .ok q ∧
      (p.variants.map fun v => (v.name, v.place)).Nodup ∧
      (∀ name, p.variants.countP (·.name = name) ≤ 64) ∧
      (q.variants.map Variant.name).Nodup ∧
      ∀ name, name ∈ q.variants.map Variant.name ↔ Leads ringPage "page" name := by
  have escaped : (Program.compile ringPage "page" .standard).isOk = true := by decide +kernel
  have plain : (Program.compile ringPage "page"
    { Config.standard with autoescape := false }).isOk = true := by decide +kernel
  obtain ⟨ends, within⟩ := Program.compile_within_budget ringPage "page" .standard
  obtain ⟨-, within'⟩ := Program.compile_within_budget ringPage "page"
    { Config.standard with autoescape := false }
  refine ⟨ends _ 129 (by decide), ?_⟩
  cases hp : Program.compile ringPage "page" .standard with
  | error e => rw [hp] at escaped; cases escaped
  | ok p =>
    cases hq : Program.compile ringPage "page" { Config.standard with autoescape := false } with
    | error e => rw [hq] at plain; cases plain
    | ok q =>
      obtain ⟨distinct, few, -⟩ := within p hp
      obtain ⟨-, -, names⟩ := within' q hq
      exact ⟨p, q, rfl, rfl, distinct, few rfl, names rfl⟩

end Stencil
