import Stencil.Proofs.Program.Derivation

/-!
# Runs of the analysis

A run of the analysis derives what it compiles (`tree_compiled`, `trees_compiled`), where the links
are what the table promises (`Table.Promises`): an entry that is still being compiled promises to
end where it starts. This is checked before the entry is done, so a promise is never broken: not by
the steps of a run, which leave the entries that they find as they are but for their marks
(`Table.Grows`), nor by the end of an entry (`Table.Promises.finish`). Behind the whole analysis
every entry is done, and compiled with links to the others (`enter_compiled`).

All this holds of any policy and of any property of contexts that the policy keeps.
-/

set_option autoImplicit false

namespace Stencil.Analysis

open Markup (Context)

/-! ## Tables -/

/-- What a table gives for a template in a context: an entry that is done gives the context behind
it, and one that is not done promises to end where it starts. -/
def Table.Promises (t : Table) : Link := fun name c n next =>
  ∃ e, t[n]? = some e ∧ e.name = name ∧ e.context = c ∧
    (e.after = some next ∨ e.after = none ∧ e.recursive = true ∧ next = c)

/-- A later table: entries may be marked as recursive, and new ones are done. -/
structure Table.Grows (t t' : Table) : Prop where
  kept : ∀ (n : Nat) (e : Entry), t[n]? = some e →
    ∃ r, t'[n]? = some { e with recursive := r } ∧ (e.recursive = true → r = true)
  finished : ∀ (n : Nat) (e : Entry), t'[n]? = some e → t.length ≤ n → e.after ≠ none

theorem Table.Grows.refl (t : Table) : t.Grows t where
  kept _ e h := ⟨e.recursive, h, id⟩
  finished n e h hlen := by
    rw [List.getElem?_eq_none hlen] at h
    cases h

theorem Table.Grows.trans {t t' t'' : Table} (h : t.Grows t') (g : t'.Grows t'') :
    t.Grows t'' where
  kept n e hn := by
    obtain ⟨r, hr, hmark⟩ := h.kept n e hn
    obtain ⟨r', hr', hmark'⟩ := g.kept n _ hr
    exact ⟨r', hr', fun he => hmark' (hmark he)⟩
  finished n e hn hlen := by
    by_cases hlen' : t'.length ≤ n
    · exact g.finished n e hn hlen'
    · have hget := List.getElem?_eq_getElem (Nat.lt_of_not_le hlen')
      obtain ⟨r, hr, -⟩ := g.kept n _ hget
      rw [hr] at hn
      cases hn
      exact (h.finished n _ hget hlen :)

/-- A later table keeps what an earlier one has promised. -/
theorem Table.Grows.promises {t t' : Table} (h : t.Grows t') {name : String} {c next : Context}
    {n : Nat} : t.Promises name c n next → t'.Promises name c n next := by
  rintro ⟨e, hn, hname, hc, hafter⟩
  obtain ⟨r, hr, hmark⟩ := h.kept n e hn
  refine ⟨_, hr, hname, hc, ?_⟩
  rcases hafter with ha | ⟨ha, he, heq⟩
  · exact .inl ha
  · exact .inr ⟨ha, hmark he, heq⟩

section

variable (policy : Policy) (templates : List (String × Template)) (P : Context → Prop)

/-- An entry is compiled as far as it is done. -/
def Entry.Sound (link : Link) (e : Entry) : Prop :=
  P e.context ∧ ∀ next, e.after = some next → P next ∧
    ∃ template, Record.get? templates e.name = some template ∧
      CompiledAll policy link e.context template.body e.body next

/-- Every entry is compiled as far as it is done, with links that the table promises. -/
def Table.Sound (t : Table) : Prop :=
  ∀ (n : Nat) (e : Entry), t[n]? = some e → e.Sound policy templates P t.Promises

/-- Every embedding leaves a sound table which promises what it answers. -/
def Enter.Sound (enter : Enter) : Prop :=
  ∀ (name : String) (c : Context) (here : Location) (t t' : Table) (n : Nat) (next : Context),
    (enter name c here).run t = .ok ((n, next), t') → P c → t.Sound policy templates P →
      t.Grows t' ∧ t'.Sound policy templates P ∧ t'.Promises name c n next

end

section

variable {policy : Policy} {templates : List (String × Template)} {P : Context → Prop}

/-- A promise is a context that the policy keeps. -/
theorem Table.Sound.promised {t : Table} (h : t.Sound policy templates P) {name : String}
    {c next : Context} {n : Nat} (hp : t.Promises name c n next) : P next := by
  obtain ⟨e, hn, -, hc, ha | ⟨-, -, heq⟩⟩ := hp
  · exact ((h n e hn).2 next ha).1
  · rw [heq, ← hc]
    exact (h n e hn).1

theorem Entry.Sound.mono {link link' : Link}
    (more : ∀ name c n next, link name c n next → link' name c n next) {e : Entry}
    (h : e.Sound policy templates P link) : e.Sound policy templates P link' := by
  refine ⟨h.1, fun next hafter => ?_⟩
  obtain ⟨hnext, template, hget, hbody⟩ := h.2 next hafter
  exact ⟨hnext, template, hget, hbody.mono more⟩

/-- A sound table stays sound where promises are kept and any entry that is not an old one, up to
its mark, is sound. -/
theorem Table.Sound.change {t t' : Table} (h : t.Sound policy templates P)
    (keeps : ∀ name c n next, t.Promises name c n next → t'.Promises name c n next)
    (entries : ∀ (n : Nat) (e : Entry), t'[n]? = some e →
      (∃ r, t[n]? = some { e with recursive := r }) ∨ e.Sound policy templates P t'.Promises) :
    t'.Sound policy templates P := by
  intro n e hn
  rcases entries n e hn with ⟨r, hr⟩ | hs
  · exact (h n _ hr).mono keeps
  · exact hs

end

/-! ## Steps of the analysis -/

theorem run_bind_eq_ok {α β : Type} {x : Step α} {f : α → Step β} {t t' : Table} {b : β}
    (h : (x >>= f).run t = .ok (b, t')) :
    ∃ a t₁, x.run t = .ok (a, t₁) ∧ (f a).run t₁ = .ok (b, t') := by
  rw [StateT.run_bind] at h
  cases hx : x.run t with
  | error e => rw [hx] at h; cases h
  | ok r =>
    rw [hx] at h
    exact ⟨r.1, r.2, rfl, h⟩

theorem run_join_eq_ok {policy : Policy} {a b c : Context} {otherwise : Ambiguity}
    {here : Location} {t t' : Table} (h : (join policy a b otherwise here).run t = .ok (c, t')) :
    policy.join a b = some c ∧ t' = t := by
  unfold join at h
  split at h
  · next hc =>
    cases h
    exact ⟨hc, rfl⟩
  · cases h

/-- The body of a loop as it is kept: compiled where the loop starts. -/
def loopBody (policy : Policy) (enter : Enter) (c start : Context) (body : List (Tree Piece))
    (once : List (Tree Instruction)) (here : Location) : Step (List (Tree Instruction)) :=
  if start = c then pure once
  else do
    let (again, stop) ← trees policy enter start body
    if policy.join start stop = some start then pure again
    else ambiguous (.loop start stop) here

/-- What follows the body of a loop. -/
def loopElse (policy : Policy) (enter : Enter) (c start : Context) (subject : Pipeline)
    (compiled : List (Tree Instruction)) (alternative : Option (List (Tree Piece)))
    (here : Location) : Step (Tree Instruction × Context) :=
  match alternative with
  | none => pure (.block .each subject compiled none here, start)
  | some alternative => do
    let (other, stop) ← trees policy enter c alternative
    let next ← join policy start stop (.branches .each start stop) here
    pure (.block .each subject compiled (some other) here, next)

theorem tree_each (policy : Policy) (enter : Enter) (c : Context) (subject : Pipeline)
    (body : List (Tree Piece)) (alternative : Option (List (Tree Piece))) (here : Location) :
    tree policy enter c (.block .each subject body alternative here) = (do
      let (once, stop) ← trees policy enter c body
      let start ← join policy c stop (.loop c stop) here
      let compiled ← loopBody policy enter c start body once here
      loopElse policy enter c start subject compiled alternative here) := by
  rw [tree]
  congr
  funext ⟨once, stop⟩
  dsimp only
  congr
  funext start
  unfold loopBody
  by_cases heq : start = c
  · rw [if_pos heq, if_pos heq]
    rfl
  · rw [if_neg heq, if_neg heq, bind_assoc]
    congr
    funext ⟨again, stop⟩
    dsimp only
    split
    · rfl
    · rfl
section

variable {policy : Policy} {templates : List (String × Template)} {P : Context → Prop}
  {enter : Enter}

theorem piece_compiled (sound : Enter.Sound policy templates P enter) {item : Piece}
    {c next : Context} {t t' : Table} {u : Instruction}
    (h : (piece policy enter c item).run t = .ok ((u, next), t')) (hc : P c)
    (ht : t.Sound policy templates P) :
    t.Grows t' ∧ t'.Sound policy templates P ∧
      Compiled policy t'.Promises c (.leaf item) (.leaf u) next := by
  unfold piece at h
  split at h
  · next content here =>
    dsimp only at h
    split at h
    · cases h
    · next hfault =>
      cases h
      exact ⟨.refl t, ht, .text content here hfault⟩
  · next p here =>
    dsimp only at h
    split at h
    · cases h
    · next rules hrules =>
      cases h
      exact ⟨.refl t, ht, .output p here hrules⟩
  · next name data here =>
    split at h
    · cases h
    · next hin =>
      obtain ⟨⟨target, next⟩, t₁, hrun, hpure⟩ := run_bind_eq_ok h
      cases hpure
      obtain ⟨hgrows, hsound, hpromise⟩ := sound name c here t t' target next hrun hc ht
      exact ⟨hgrows, hsound, .embed data here (by simpa using hin) hpromise⟩

/-- Whatever the analysis makes of some trees is derived, with links that the table promises. -/
def Derives (policy : Policy) (templates : List (String × Template)) (P : Context → Prop)
    (enter : Enter) (xs : List (Tree Piece)) : Prop :=
  ∀ ⦃c next : Context⦄ ⦃t t' : Table⦄ ⦃us : List (Tree Instruction)⦄,
    (trees policy enter c xs).run t = .ok ((us, next), t') → P c → t.Sound policy templates P →
      t.Grows t' ∧ t'.Sound policy templates P ∧ CompiledAll policy t'.Promises c xs us next

section Blocks

variable {body : List (Tree Piece)} (derives : Derives policy templates P enter body)
  {c stop start next : Context} {once compiled : List (Tree Instruction)}
  {alternative : Option (List (Tree Piece))}
  (derivesElse : ∀ other, alternative = some other → Derives policy templates P enter other)
  {t t' : Table} {subject : Pipeline} {u : Tree Instruction} {here : Location}

include derives in
/-- The body of a loop is derived from where the loop starts, and leads there again. -/
theorem loopBody_compiled
    (h : (loopBody policy enter c start body once here).run t = .ok (compiled, t'))
    (first : CompiledAll policy t.Promises c body once stop)
    (hstart : policy.join c stop = some start) (hp : P start) (ht : t.Sound policy templates P) :
    t.Grows t' ∧ t'.Sound policy templates P ∧ ∃ again,
      CompiledAll policy t'.Promises start body compiled again ∧
        policy.join start again = some start := by
  unfold loopBody at h
  split at h
  · next heq =>
    cases h
    subst heq
    exact ⟨.refl t, ht, stop, first, hstart⟩
  · obtain ⟨⟨twice, again⟩, t₁, htwice, h₁⟩ := run_bind_eq_ok h
    dsimp only at h₁
    split at h₁
    · next hfix =>
      cases h₁
      obtain ⟨grows, sound, derived⟩ := derives htwice hp ht
      exact ⟨grows, sound, again, derived, hfix⟩
    · cases h₁

include derivesElse in
/-- What follows the body of a loop is derived from where the loop was met. -/
theorem loopElse_compiled {again : Context}
    (h : (loopElse policy enter c start subject compiled alternative here).run t =
      .ok ((u, next), t'))
    (first : CompiledAll policy t.Promises c body once stop)
    (hstart : policy.join c stop = some start)
    (fixed : CompiledAll policy t.Promises start body compiled again)
    (hfix : policy.join start again = some start) (hc : P c) (ht : t.Sound policy templates P) :
    t.Grows t' ∧ t'.Sound policy templates P ∧
      Compiled policy t'.Promises c (.block .each subject body alternative here) u next := by
  cases alternative with
  | none =>
    rw [loopElse] at h
    cases h
    exact ⟨.refl t, ht, .loop subject here first hstart fixed hfix⟩
  | some alternative =>
    rw [loopElse] at h
    obtain ⟨⟨other, otherStop⟩, t₁, hother, h₁⟩ := run_bind_eq_ok h
    obtain ⟨next, t₂, hjoin, h₂⟩ := run_bind_eq_ok h₁
    obtain ⟨hnext, rfl⟩ := run_join_eq_ok hjoin
    cases h₂
    obtain ⟨grows, sound, derived⟩ := derivesElse alternative rfl hother hc ht
    have more (name : String) (c : Context) (n : Nat) (next : Context) :
        t.Promises name c n next → t'.Promises name c n next := grows.promises
    exact ⟨grows, sound, .loopElse subject here (first.mono more) hstart (fixed.mono more) hfix
      derived hnext⟩

include derives derivesElse in
/-- A loop is derived if its body and what follows it are. -/
theorem loop_compiled (kept : policy.Preserves P)
    (h : (tree policy enter c (.block .each subject body alternative here)).run t =
      .ok ((u, next), t')) (hc : P c) (ht : t.Sound policy templates P) :
    t.Grows t' ∧ t'.Sound policy templates P ∧
      Compiled policy t'.Promises c (.block .each subject body alternative here) u next := by
  rw [tree_each] at h
  obtain ⟨⟨once, stop⟩, t₁, honce, h₁⟩ := run_bind_eq_ok h
  obtain ⟨start, t₂, hjoin, h₂⟩ := run_bind_eq_ok h₁
  obtain ⟨hstart, rfl⟩ := run_join_eq_ok hjoin
  obtain ⟨compiled, t₃, hbody, h₃⟩ := run_bind_eq_ok h₂
  obtain ⟨g₁, s₁, first⟩ := derives honce hc ht
  have hstop : P stop := first.keeps kept (fun _ _ _ _ _ hp => s₁.promised hp) hc
  obtain ⟨g₂, s₂, again, fixed, hfix⟩ :=
    loopBody_compiled derives hbody first hstart (kept.join c stop start hc hstop hstart) s₁
  have first' := first.mono fun _ _ _ _ => g₂.promises
  obtain ⟨g₃, s₃, derived⟩ := loopElse_compiled derivesElse h₃ first' hstart fixed hfix hc s₂
  exact ⟨(g₁.trans g₂).trans g₃, s₃, derived⟩

include derives derivesElse in
/-- A branch is derived if its body and what stands in its place are. -/
theorem branch_compiled {kind : BlockKind} (hk : kind ≠ .each)
    (h : (tree policy enter c (.block kind subject body alternative here)).run t =
      .ok ((u, next), t')) (hc : P c) (ht : t.Sound policy templates P) :
    t.Grows t' ∧ t'.Sound policy templates P ∧
      Compiled policy t'.Promises c (.block kind subject body alternative here) u next := by
  rw [tree] at h
  · obtain ⟨⟨compiled, stop⟩, t₁, hbody, h₁⟩ := run_bind_eq_ok h
    obtain ⟨g₁, s₁, d₁⟩ := derives hbody hc ht
    cases alternative with
    | none =>
      obtain ⟨next, t₂, hjoin, h₂⟩ := run_bind_eq_ok h₁
      obtain ⟨hnext, rfl⟩ := run_join_eq_ok hjoin
      cases h₂
      exact ⟨g₁, s₁, .branch subject here hk d₁ (.none c) hnext⟩
    | some alternative =>
      obtain ⟨⟨other, otherStop⟩, t₂, hother, h₂⟩ := run_bind_eq_ok h₁
      obtain ⟨next, t₃, hjoin, h₃⟩ := run_bind_eq_ok h₂
      obtain ⟨hnext, rfl⟩ := run_join_eq_ok hjoin
      cases h₃
      obtain ⟨g₂, s₂, d₂⟩ := derivesElse alternative rfl hother hc s₁
      have d₁' := d₁.mono fun _ _ _ _ => g₂.promises
      exact ⟨g₁.trans g₂, s₂, .branch subject here hk d₁' (.some d₂) hnext⟩
  · exact hk

end Blocks

mutual

/-- A tree that is compiled is derived, with links that the table promises. -/
theorem tree_compiled (kept : policy.Preserves P) (sound : Enter.Sound policy templates P enter)
    {x : Tree Piece} {c next : Context} {t t' : Table} {u : Tree Instruction}
    (h : (tree policy enter c x).run t = .ok ((u, next), t')) (hc : P c)
    (ht : t.Sound policy templates P) :
    t.Grows t' ∧ t'.Sound policy templates P ∧ Compiled policy t'.Promises c x u next := by
  match x with
  | .leaf item =>
    rw [tree] at h
    obtain ⟨⟨i, next⟩, t₁, hrun, hpure⟩ := run_bind_eq_ok h
    cases hpure
    exact piece_compiled sound hrun hc ht
  | .block kind subject body alternative here =>
    have derives : Derives policy templates P enter body := by
      intro c next t t' us h hc ht
      exact trees_compiled kept sound h hc ht
    have derivesElse : ∀ other, alternative = some other →
        Derives policy templates P enter other := by
      cases alternative with
      | none =>
        intro other heq
        cases heq
      | some other =>
        rintro _ ⟨⟩ c next t t' us h hc ht
        exact trees_compiled kept sound h hc ht
    by_cases hk : kind = .each
    · subst hk
      exact loop_compiled derives derivesElse kept h hc ht
    · exact branch_compiled derives derivesElse hk h hc ht

theorem trees_compiled (kept : policy.Preserves P) (sound : Enter.Sound policy templates P enter)
    {xs : List (Tree Piece)} {c next : Context} {t t' : Table} {us : List (Tree Instruction)}
    (h : (trees policy enter c xs).run t = .ok ((us, next), t')) (hc : P c)
    (ht : t.Sound policy templates P) :
    t.Grows t' ∧ t'.Sound policy templates P ∧ CompiledAll policy t'.Promises c xs us next := by
  match xs with
  | [] =>
    rw [trees] at h
    cases h
    exact ⟨.refl t, ht, .nil c⟩
  | x :: rest =>
    rw [trees] at h
    obtain ⟨⟨u, mid⟩, t₁, hx, h⟩ := run_bind_eq_ok h
    obtain ⟨⟨others, stop⟩, t₂, hrest, h⟩ := run_bind_eq_ok h
    cases h
    obtain ⟨g₁, s₁, d₁⟩ := tree_compiled kept sound hx hc ht
    have hmid : P mid := d₁.keeps kept (fun _ _ _ _ _ hp => s₁.promised hp) hc
    obtain ⟨g₂, s₂, d₂⟩ := trees_compiled kept sound hrest hmid s₁
    exact ⟨g₁.trans g₂, s₂, .cons (d₁.mono fun _ _ _ _ => g₂.promises) d₂⟩

end

/-! ## Entries -/

theorem Table.find?_eq_some {t : Table} {name : String} {c : Context} {n : Nat}
    (h : t.find? name c = some n) : ∃ e, t[n]? = some e ∧ e.name = name ∧ e.context = c := by
  obtain ⟨hlt, hfound, -⟩ := List.findIdx?_eq_some_iff_getElem.mp h
  exact ⟨t[n], List.getElem?_eq_getElem hlt, by simpa using hfound⟩

/-- An entry that is met again is promised. -/
theorem revisit_compiled {c next : Context} {t t' : Table} {name : String} {number n : Nat}
    {e : Entry} (hn : t[number]? = some e) (hname : e.name = name) (hc : e.context = c)
    (h : (revisit number c).run t = .ok ((n, next), t')) (ht : t.Sound policy templates P) :
    t.Grows t' ∧ t'.Sound policy templates P ∧ t'.Promises name c n next := by
  unfold revisit at h
  obtain ⟨_, t₁, hget, h₁⟩ := run_bind_eq_ok h
  cases hget
  rw [hn] at h₁
  cases hafter : e.after with
  | some stop =>
    simp only [Option.bind_some, hafter] at h₁
    cases h₁
    exact ⟨.refl t, ht, e, hn, hname, hc, .inl hafter⟩
  | none =>
    simp only [Option.bind_some, hafter] at h₁
    obtain ⟨_, t₂, hmod, h₂⟩ := run_bind_eq_ok h₁
    cases hmod
    cases h₂
    have grows : t.Grows (t.modify number fun e => { e with recursive := true }) := by
      constructor
      · intro m d hm
        rw [List.getElem?_modify, hm]
        by_cases heq : number = m
        · exact ⟨true, by simp [heq], fun _ => rfl⟩
        · exact ⟨d.recursive, by simp [heq], id⟩
      · intro m d hm hlen
        rw [List.getElem?_eq_none (by simpa using hlen)] at hm
        cases hm
    refine ⟨grows, ht.change (fun _ _ _ _ => grows.promises) fun m d hm => .inl ?_, ?_⟩
    · rw [List.getElem?_modify] at hm
      obtain ⟨d', hd', rfl⟩ := Option.map_eq_some_iff.mp hm
      refine ⟨d'.recursive, hd'.trans ?_⟩
      split <;> rfl
    · refine ⟨{ e with recursive := true }, ?_, hname, hc, .inr ⟨hafter, rfl, rfl⟩⟩
      rw [List.getElem?_modify, hn]
      simp

/-- A table stays sound where an entry is started. -/
theorem Table.Sound.start {t : Table} (h : t.Sound policy templates P) (name : String)
    {c : Context} (hc : P c) :
    Table.Sound policy templates P (t ++ [⟨name, c, none, false, []⟩]) := by
  have old {n : Nat} {e : Entry} (hn : t[n]? = some e) :
      (t ++ [⟨name, c, none, false, []⟩])[n]? = some e := by
    rw [List.getElem?_append_left (List.getElem?_eq_some_iff.mp hn).1, hn]
  refine h.change (fun _ _ _ _ ⟨e, hn, he⟩ => ⟨e, old hn, he⟩) fun n e hn => ?_
  by_cases hlt : n < t.length
  · rw [List.getElem?_append_left hlt] at hn
    exact .inl ⟨e.recursive, hn⟩
  · rw [List.getElem?_append_right (Nat.le_of_not_lt hlt)] at hn
    rw [List.getElem?_singleton] at hn
    split at hn
    · cases hn
      refine .inr ⟨hc, ?_⟩
      rintro _ ⟨⟩
    · cases hn

/-- The table in which an entry is done. -/
def Table.finish (t : Table) (number : Nat) (next : Context) (body : List (Tree Instruction)) :
    Table :=
  t.modify number fun e => { e with after := some next, body }

theorem Table.finish_self {t : Table} {number : Nat} {e : Entry} (hn : t[number]? = some e)
    (next : Context) (body : List (Tree Instruction)) :
    (t.finish number next body)[number]? = some { e with after := some next, body } := by
  rw [Table.finish, List.getElem?_modify, hn]
  simp

theorem Table.finish_other {t : Table} {number m : Nat} (hm : number ≠ m) (next : Context)
    (body : List (Tree Instruction)) : (t.finish number next body)[m]? = t[m]? := by
  rw [Table.finish, List.getElem?_modify]
  simp [hm]

/-- An entry that was started and is done is new and done. -/
theorem Table.Grows.finish {t t' : Table} {e e' : Entry} (g : Table.Grows (t ++ [e]) t')
    (hn : t'[t.length]? = some e') (next : Context) (body : List (Tree Instruction)) :
    t.Grows (t'.finish t.length next body) where
  kept n d hd := by
    have hlt := (List.getElem?_eq_some_iff.mp hd).1
    rw [Table.finish_other (Nat.ne_of_gt hlt)]
    exact g.kept n d ((List.getElem?_append_left hlt).trans hd)
  finished n d hd hlen := by
    by_cases heq : t.length = n
    · subst heq
      rw [Table.finish_self hn] at hd
      cases hd
      nofun
    · rw [Table.finish_other heq] at hd
      refine g.finished n d hd ?_
      rw [List.length_append]
      exact Nat.lt_of_le_of_ne hlen heq

section

variable {t : Table} {number : Nat} {e : Entry} {next : Context} {body : List (Tree Instruction)}

/-- What a table promises is kept where an entry is done that ends where it starts if it embeds
itself. -/
theorem Table.Promises.finish (hn : t[number]? = some e) (hopen : e.after = none)
    (hrec : e.recursive = true → next = e.context) {name : String} {c stop : Context} {m : Nat}
    (h : t.Promises name c m stop) : (t.finish number next body).Promises name c m stop := by
  obtain ⟨d, hm, hname, hc, hafter⟩ := h
  by_cases heq : number = m
  · subst heq
    rw [hn] at hm
    cases hm
    rcases hafter with ha | ⟨-, hr, hstop⟩
    · rw [hopen] at ha
      cases ha
    · have after : some next = some stop := by rw [hrec hr, hc, hstop]
      exact ⟨_, Table.finish_self hn next body, hname, hc, .inl after⟩
  · exact ⟨d, (Table.finish_other heq next body).trans hm, hname, hc, hafter⟩

/-- A table stays sound where such an entry is done. -/
theorem Table.Sound.finish (h : t.Sound policy templates P) (hn : t[number]? = some e)
    (hopen : e.after = none) (hrec : e.recursive = true → next = e.context) (hnext : P next)
    {template : Template} (hget : Record.get? templates e.name = some template)
    (hbody : CompiledAll policy t.Promises e.context template.body body next) :
    (t.finish number next body).Sound policy templates P := by
  have keeps (name : String) (c : Context) (m : Nat) (stop : Context) :
      t.Promises name c m stop → (t.finish number next body).Promises name c m stop :=
    Table.Promises.finish hn hopen hrec
  refine h.change keeps fun m d hm => ?_
  by_cases heq : number = m
  · subst heq
    rw [Table.finish_self hn] at hm
    cases hm
    refine .inr ⟨(h number e hn).1, ?_⟩
    rintro _ ⟨⟩
    exact ⟨hnext, template, hget, hbody.mono keeps⟩
  · rw [Table.finish_other heq] at hm
    exact .inl ⟨d.recursive, hm⟩

end

/-- Embeddings leave sound tables that promise what they answer. -/
theorem enter_sound (kept : policy.Preserves P) (room : Nat) :
    Enter.Sound policy templates P (Analysis.enter policy templates room) := by
  induction room with
  | zero =>
    intro name c here t t' n next h
    rw [Analysis.enter] at h
    cases h
  | succ room ih =>
    intro name c here t t' n next h hc ht
    rw [Analysis.enter] at h
    obtain ⟨_, _, hget, h₁⟩ := run_bind_eq_ok h
    cases hget
    dsimp only at h₁
    split at h₁
    · next number hfind =>
      obtain ⟨e, hn, hname, hcontext⟩ := Table.find?_eq_some hfind
      exact revisit_compiled hn hname hcontext h₁ ht
    split at h₁
    · cases h₁
    · next template htemplate =>
      split at h₁
      · cases h₁
      · obtain ⟨_, t₁, hset, h₂⟩ := run_bind_eq_ok h₁
        cases hset
        obtain ⟨⟨body, stop⟩, t₂, hbody, h₃⟩ := run_bind_eq_ok h₂
        dsimp only at h₃
        obtain ⟨_, _, hget, h₄⟩ := run_bind_eq_ok h₃
        cases hget
        obtain ⟨g, s, d⟩ := trees_compiled kept ih hbody hc (ht.start name hc)
        have first : (t ++ [(⟨name, c, none, false, []⟩ : Entry)])[t.length]? =
            some ⟨name, c, none, false, []⟩ := by simp
        obtain ⟨r, hr, -⟩ := g.kept _ _ first
        split at h₄
        · cases h₄
        · next hcheck =>
          obtain ⟨_, t₃, hmod, h₅⟩ := run_bind_eq_ok h₄
          cases hmod
          cases h₅
          have hrec : r = true → next = c := by
            rintro rfl
            simpa [hr] using hcheck
          have hnext : P next := d.keeps kept (fun _ _ _ _ _ hp => s.promised hp) hc
          exact ⟨Table.Grows.finish g hr next body, s.finish hr rfl hrec hnext htemplate d,
            _, Table.finish_self hr next body, rfl, rfl, .inl rfl⟩

/-! ## The whole analysis -/

/-- The entries of a table as links. -/
def Table.Links (t : Table) : Link := fun name c n next =>
  ∃ e, t[n]? = some e ∧ e.name = name ∧ e.context = c ∧ e.after = some next

/-- Every entry is done, and compiled with links to the others. -/
def Table.Complete (policy : Policy) (templates : List (String × Template)) (P : Context → Prop)
    (t : Table) : Prop :=
  ∀ (n : Nat) (e : Entry), t[n]? = some e → P e.context ∧ ∃ next, e.after = some next ∧ P next ∧
    ∃ template, Record.get? templates e.name = some template ∧
      CompiledAll policy t.Links e.context template.body e.body next

/-- A link of a complete table leads to a template that is compiled for its context. -/
theorem Table.Complete.link {t : Table} (h : t.Complete policy templates P) {name : String}
    {c next : Context} {n : Nat} (hlink : t.Links name c n next) : P c ∧ P next ∧
      ∃ e template, t[n]? = some e ∧ Record.get? templates name = some template ∧
        CompiledAll policy t.Links c template.body e.body next := by
  obtain ⟨e, hn, rfl, rfl, hafter⟩ := hlink
  obtain ⟨hc, stop, hstop, hnext, template, hget, hbody⟩ := h n e hn
  rw [hafter] at hstop
  cases hstop
  exact ⟨hc, hnext, e, template, hn, hget, hbody⟩

/-- An analysis that starts with an empty table leaves a complete one, with a link for what was
asked for. -/
theorem enter_compiled (kept : policy.Preserves P) {room : Nat} {name : String} {c : Context}
    {here : Location} {number : Nat} {next : Context} {t : Table} (hc : P c)
    (h : (Analysis.enter policy templates room name c here).run [] = .ok ((number, next), t)) :
    t.Links name c number next ∧ t.Complete policy templates P := by
  obtain ⟨grows, sound, promised⟩ := enter_sound kept room name c here [] t number next h hc
    (by intro n e hn; cases hn)
  have done {n : Nat} {e : Entry} (hn : t[n]? = some e) : e.after ≠ none :=
    grows.finished n e hn (Nat.zero_le n)
  have links (name : String) (c : Context) (n : Nat) (next : Context) :
      t.Promises name c n next → t.Links name c n next := by
    rintro ⟨e, hn, hname, hc, ha | ⟨ha, -, -⟩⟩
    · exact ⟨e, hn, hname, hc, ha⟩
    · exact absurd ha (done hn)
  refine ⟨links _ _ _ _ promised, fun n e hn => ?_⟩
  obtain ⟨hcontext, hdone⟩ := sound n e hn
  obtain ⟨stop, hstop⟩ := Option.ne_none_iff_exists'.mp (done hn)
  obtain ⟨hP, template, hget, hbody⟩ := hdone stop hstop
  exact ⟨hcontext, stop, hstop, hP, template, hget, hbody.mono links⟩

end

end Stencil.Analysis
