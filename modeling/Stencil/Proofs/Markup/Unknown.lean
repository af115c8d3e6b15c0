import Stencil.Proofs.Markup.Fault
import Stencil.Proofs.Markup.Output

/-!
# What is unknown stands for what is known

A context **covers** another if the two agree but for the part of an address and the meaning of a
slash, each of which is the same or unknown in the first (`Context.Covers`). A covering context
speaks for the ones it covers: where it admits an output, they ask for the same escapers
(`Covers.escapers`), and nudges, outputs and texts keep the relation (`Covers.nudge`,
`Covers.afterOutput`, `Covers.advance`). For a text this needs that the covering context meets no
slash of unknown meaning; the covered one may know what that slash means.
-/

set_option autoImplicit false

namespace Stencil.Markup

open Stencil.Text

theorem UrlPart.advance_covers {u v : UrlPart} (h : u = v ∨ u = .unknown) (cs : List Char) :
    u.advance cs = v.advance cs ∨ u.advance cs = .unknown := by
  rcases h with rfl | rfl
  · exact .inl rfl
  · unfold UrlPart.advance
    by_cases hq : (cs.any fun c => c == '?' || c == '#') = true
    · rw [if_pos hq, if_pos hq]
      exact .inl rfl
    · rw [if_neg hq, if_neg (by simp)]
      exact .inr rfl

theorem Slash.after_covers {s t : Slash} (h : s = t ∨ s = .unknown) (code : List Char) :
    s.after code = t.after code ∨ s.after code = .unknown := by
  unfold Slash.after
  split
  · exact h
  · exact .inl rfl

namespace Context

/-- `c` agrees with `a` but for parts that are unknown in `c`. -/
structure Covers (c a : Context) : Prop where
  same : { a with urlPart := c.urlPart, slash := c.slash } = c
  urlPart : c.urlPart = a.urlPart ∨ c.urlPart = .unknown
  slash : c.slash = a.slash ∨ c.slash = .unknown

theorem Covers.refl (c : Context) : c.Covers c := ⟨rfl, .inl rfl, .inl rfl⟩

theorem Covers.trans {c b a : Context} (h : c.Covers b) (g : b.Covers a) : c.Covers a where
  same := by rw [← h.same, ← g.same]
  urlPart := by
    rcases h.urlPart with hu | hu
    · rw [hu]; exact g.urlPart
    · exact .inr hu
  slash := by
    rcases h.slash with hs | hs
    · rw [hs]; exact g.slash
    · exact .inr hs

/-- A covered context is the covering one with its own part and its own meaning. -/
theorem Covers.exists_eq {c a : Context} (h : c.Covers a) :
    ∃ u k, a = { c with urlPart := u, slash := k } ∧
      (c.urlPart = u ∨ c.urlPart = .unknown) ∧ (c.slash = k ∨ c.slash = .unknown) :=
  ⟨a.urlPart, a.slash, by rw [← h.same], h.urlPart, h.slash⟩

theorem Covers.isError {c a : Context} (h : c.Covers a) : a.isError = c.isError := by
  rw [← h.same]
  rfl

/-- Two steps that leave the same text and contexts of which the first covers the second. -/
def CoversStep (r s : Context × List Char) : Prop := r.1.Covers s.1 ∧ r.2 = s.2

/-! ## Inside a value or a body -/

theorem covers_leave {c a next other : Context} (h : c.Covers a) (hn : next.Covers other)
    (ending : Option (List Char)) :
    CoversStep (c.leave ending next) (a.leave ending other) := by
  cases ending with
  | none => exact ⟨h, rfl⟩
  | some rest => exact ⟨hn, rfl⟩

theorem Covers.state_eq {c a : Context} (h : c.Covers a) : a.state = c.state :=
  (congrArg Context.state h.same :)

theorem Covers.withState {c a : Context} (h : c.Covers a) (s : State) :
    Covers { c with state := s } { a with state := s } := by
  obtain ⟨u, k, rfl, hu, hk⟩ := h.exists_eq
  exact ⟨rfl, hu, hk⟩

theorem Covers.afterOperand {c a : Context} (h : c.Covers a) :
    c.afterOperand.Covers a.afterOperand := by
  obtain ⟨u, k, rfl, hu, hk⟩ := h.exists_eq
  exact ⟨rfl, hu, .inl rfl⟩

theorem Covers.slashStep {c a : Context} (h : c.Covers a) (rest : List Char)
    (ok : (c.slashStep rest).1.isError = false) :
    CoversStep (c.slashStep rest) (a.slashStep rest) := by
  obtain ⟨u, k, rfl, hu, hk⟩ := h.exists_eq
  unfold Context.slashStep at ok ⊢
  split
  · exact ⟨h.withState _, rfl⟩
  · exact ⟨h.withState _, rfl⟩
  · rcases hk with rfl | hk
    · cases c.slash with
      | regexp => exact ⟨⟨rfl, hu, .inl rfl⟩, rfl⟩
      | division => exact ⟨⟨rfl, hu, .inl rfl⟩, rfl⟩
      | unknown => exact ⟨.refl _, rfl⟩
    · simp [hk] at ok

theorem Covers.codeStep {c a : Context} (h : c.Covers a) (cs : List Char)
    (ok : (c.codeStep cs).1.isError = false) : CoversStep (c.codeStep cs) (a.codeStep cs) := by
  obtain ⟨u, k, rfl, hu, hk⟩ := h.exists_eq
  unfold Context.codeStep at ok ⊢
  dsimp only at ok ⊢
  generalize cs.takeWhile (fun x => !startsScriptPart x) = code at ok ⊢
  have moved : Covers { c with slash := c.slash.after code }
      { c with urlPart := u, slash := k.after code } :=
    ⟨rfl, hu, Slash.after_covers hk code⟩
  split
  · exact ⟨moved, rfl⟩
  · next opening rest hdrop =>
    rw [hdrop] at ok
    dsimp only at ok
    split
    · exact ⟨moved.withState _, rfl⟩
    split
    · exact ⟨moved.withState _, rfl⟩
    split
    · exact ⟨moved.withState _, rfl⟩
    · next h1 h2 h3 =>
      rw [if_neg h1, if_neg h2, if_neg h3] at ok
      exact moved.slashStep rest ok

theorem Covers.addressStep {c a : Context} (h : c.Covers a) (rest : List Char) :
    CoversStep (c.addressStep rest) (a.addressStep rest) := by
  obtain ⟨u, k, rfl, hu, hk⟩ := h.exists_eq
  unfold Context.addressStep
  split
  all_goals exact ⟨⟨rfl, .inl rfl, hk⟩, rfl⟩

theorem Covers.ruleStep {c a : Context} (h : c.Covers a) (seen cs : List Char) :
    CoversStep (c.ruleStep seen cs) (a.ruleStep seen cs) := by
  induction cs generalizing seen with
  | nil => exact ⟨h, rfl⟩
  | cons x xs ih =>
    unfold Context.ruleStep
    split
    · exact h.addressStep xs
    split
    · exact ⟨h.withState _, rfl⟩
    split
    · exact ⟨h.withState _, rfl⟩
    split
    · exact ⟨h.withState _, rfl⟩
    · exact ih _

theorem Covers.addressEnd {c a : Context} (h : c.Covers a) (close : Char) (cs : List Char) :
    CoversStep (c.addressEnd close cs) (a.addressEnd close cs) := by
  obtain ⟨u, k, rfl, hu, hk⟩ := h.exists_eq
  unfold Context.addressEnd
  dsimp only
  split
  · exact ⟨⟨rfl, UrlPart.advance_covers hu _, hk⟩, rfl⟩
  · exact ⟨⟨rfl, .inl rfl, hk⟩, rfl⟩

theorem Covers.addressPart {c a : Context} (h : c.Covers a) (cs : List Char) :
    Covers { c with urlPart := c.urlPart.advance cs }
      { a with urlPart := a.urlPart.advance cs } := by
  obtain ⟨u, k, rfl, hu, hk⟩ := h.exists_eq
  exact ⟨rfl, UrlPart.advance_covers hu cs, hk⟩

/-- A step inside a value or a body that leaves no error keeps what is covered. -/
theorem Covers.innerStep {c a : Context} (h : c.Covers a) (first : Char) (rest : List Char)
    (ok : (c.innerStep first rest).1.isError = false) :
    CoversStep (c.innerStep first rest) (a.innerStep first rest) := by
  unfold Context.innerStep at ok ⊢
  dsimp only at ok ⊢
  rw [h.state_eq]
  split
  case h_1 =>
    have hp := h.addressPart (first :: rest)
    rw [h.state_eq] at hp
    exact ⟨hp, rfl⟩
  case h_2 hs => rw [hs] at ok; exact h.codeStep _ ok
  case h_3 | h_4 | h_5 | h_6 => exact covers_leave h h.afterOperand _
  case h_7 | h_8 | h_10 | h_11 | h_15 => exact covers_leave h (h.withState _) _
  case h_9 => exact h.ruleStep _ _
  case h_12 | h_13 | h_14 => exact h.addressEnd _ _
  all_goals exact ⟨h, rfl⟩

/-- A text inside a value or a body that leaves no error keeps what is covered. -/
theorem Covers.advanceInner {c a : Context} (h : c.Covers a) (cs : List Char)
    (ok : (c.advanceInner cs).isError = false) :
    (c.advanceInner cs).Covers (a.advanceInner cs) := by
  induction c, cs using advanceInner_induction generalizing a with
  | nil c => rwa [advanceInner_nil, advanceInner_nil]
  | stuck c x xs he =>
    rw [advanceInner_of_isError he, he] at ok
    cases ok
  | step c x xs he ih =>
    rw [advanceInner_cons he] at ok ⊢
    rw [advanceInner_cons (h.isError ▸ he)]
    have clear : (c.innerStep x xs).1.isError = false := by
      refine Decidable.byContradiction fun hn => ?_
      have hn : (c.innerStep x xs).1.isError = true := by simpa using hn
      rw [advanceInner_of_isError hn, hn] at ok
      cases ok
    obtain ⟨hcov, hrest⟩ := h.innerStep x xs clear
    rw [← hrest]
    exact ih hcov ok

/-! ## Outside of values and bodies -/

theorem Covers.delim_eq {c a : Context} (h : c.Covers a) : a.delim = c.delim :=
  (congrArg Context.delim h.same :)

theorem Covers.element_eq {c a : Context} (h : c.Covers a) : a.element = c.element :=
  (congrArg Context.element h.same :)

theorem Covers.inElementBody_eq {c a : Context} (h : c.Covers a) :
    a.inElementBody = c.inElementBody := by
  rw [← h.same]
  rfl

theorem Covers.leaveAttr {c a : Context} (h : c.Covers a) : c.leaveAttr.Covers a.leaveAttr := by
  obtain ⟨u, k, rfl, hu, hk⟩ := h.exists_eq
  exact .refl _

theorem Covers.enterValue {c a : Context} (h : c.Covers a) (delim : Delim) :
    (c.enterValue delim).Covers (a.enterValue delim) := by
  obtain ⟨u, k, rfl, hu, hk⟩ := h.exists_eq
  exact .refl _

theorem Covers.noValue {c a : Context} (h : c.Covers a) :
    Covers { c with state := .tag, attr := .none } { a with state := .tag, attr := .none } := by
  obtain ⟨u, k, rfl, hu, hk⟩ := h.exists_eq
  exact ⟨rfl, hu, hk⟩

theorem Covers.valueStep {c a : Context} (h : c.Covers a) (cs : List Char)
    (ok : (c.advanceInner
      (decodeEntities (cs.takeWhile fun x => !c.delim.ends x))).isError = false) :
    CoversStep (c.valueStep cs) (a.valueStep cs) := by
  unfold Context.valueStep
  dsimp only
  rw [h.delim_eq]
  generalize cs.takeWhile (fun x => !c.delim.ends x) = inside at ok ⊢
  have inner := h.advanceInner _ ok
  split
  · exact ⟨inner, rfl⟩
  · rw [inner.delim_eq]
    exact ⟨inner.leaveAttr, rfl⟩

theorem Covers.bodyStep {c a : Context} (h : c.Covers a) (cs : List Char)
    (ok : cutEndTag c.element.name.toList cs = none → (c.advanceInner cs).isError = false) :
    CoversStep (c.bodyStep cs) (a.bodyStep cs) := by
  unfold Context.bodyStep
  rw [h.element_eq]
  split
  · next hcut => exact ⟨h.advanceInner cs (ok hcut), rfl⟩
  · exact ⟨.refl _, rfl⟩

theorem Covers.opened? {c a : Context} (h : c.Covers a) (cs : List Char) :
    Option.Rel CoversStep (c.opened? cs) (a.opened? cs) := by
  obtain ⟨u, k, rfl, hu, hk⟩ := h.exists_eq
  unfold Context.opened?
  split
  · exact .some ⟨⟨rfl, hu, hk⟩, rfl⟩
  · exact .some ⟨⟨rfl, hu, hk⟩, rfl⟩
  · exact .some ⟨⟨rfl, hu, hk⟩, rfl⟩
  · split
    · exact .some ⟨⟨rfl, hu, hk⟩, rfl⟩
    · exact .none
  · split
    · exact .some ⟨⟨rfl, hu, hk⟩, rfl⟩
    · exact .none

theorem Covers.textStep {c a : Context} (h : c.Covers a) (cs : List Char) :
    CoversStep (c.textStep cs) (a.textStep cs) := by
  induction cs with
  | nil => exact ⟨h, rfl⟩
  | cons x xs ih =>
    unfold Context.textStep
    split
    · have rel := h.opened? xs
      generalize c.opened? xs = next, a.opened? xs = other at rel
      cases rel with
      | none => exact ih
      | some hn => exact hn
    · exact ih

theorem Covers.tagNameStep {c a : Context} (h : c.Covers a) (cs : List Char) :
    CoversStep (c.tagNameStep cs) (a.tagNameStep cs) := by
  obtain ⟨u, k, rfl, hu, hk⟩ := h.exists_eq
  unfold Context.tagNameStep
  dsimp only
  split
  all_goals exact ⟨⟨rfl, hu, hk⟩, rfl⟩

theorem Covers.tagStep {c a : Context} (h : c.Covers a) (cs : List Char) :
    CoversStep (c.tagStep cs) (a.tagStep cs) := by
  obtain ⟨u, k, rfl, hu, hk⟩ := h.exists_eq
  unfold Context.tagStep
  split
  · exact ⟨h, rfl⟩
  · split
    · exact ⟨.refl _, rfl⟩
    · exact ⟨⟨rfl, hu, hk⟩, rfl⟩

theorem Covers.attrNameStep {c a : Context} (h : c.Covers a) (cs : List Char) :
    CoversStep (c.attrNameStep cs) (a.attrNameStep cs) := by
  obtain ⟨u, k, rfl, hu, hk⟩ := h.exists_eq
  unfold Context.attrNameStep
  dsimp only
  split
  all_goals exact ⟨⟨rfl, hu, hk⟩, rfl⟩

theorem Covers.afterNameStep {c a : Context} (h : c.Covers a) (cs : List Char) :
    CoversStep (c.afterNameStep cs) (a.afterNameStep cs) := by
  unfold Context.afterNameStep
  split
  · exact ⟨h, rfl⟩
  · split
    · exact ⟨h.withState _, rfl⟩
    · exact ⟨h.noValue, rfl⟩

theorem Covers.beforeValueStep {c a : Context} (h : c.Covers a) (cs : List Char) :
    CoversStep (c.beforeValueStep cs) (a.beforeValueStep cs) := by
  unfold Context.beforeValueStep
  split
  · exact ⟨h, rfl⟩
  · split
    · exact ⟨h.noValue, rfl⟩
    split
    · exact ⟨h.enterValue _, rfl⟩
    split
    · exact ⟨h.enterValue _, rfl⟩
    · exact ⟨h.enterValue _, rfl⟩

/-- A step that meets no slash of unknown meaning keeps what is covered. -/
theorem Covers.step {c a : Context} (h : c.Covers a) (cs : List Char)
    (ok : (c.advanceInner (c.innerText cs)).isError = false) :
    CoversStep (c.step cs) (a.step cs) := by
  unfold Context.step
  unfold innerText at ok
  rw [h.delim_eq, h.inElementBody_eq, h.state_eq]
  split
  · next hd =>
    rw [if_pos hd] at ok
    exact h.valueStep cs ok
  · next hd =>
    rw [if_neg hd] at ok
    split
    · next hb =>
      rw [if_pos hb] at ok
      refine h.bodyStep cs fun hcut => ?_
      rw [hcut] at ok
      exact ok
    · next hb =>
      rw [if_neg hb] at ok
      split
      · exact h.textStep cs
      · exact h.tagNameStep cs
      · exact h.tagStep cs
      · exact h.attrNameStep cs
      · exact h.afterNameStep cs
      · exact h.beforeValueStep cs
      · exact covers_leave h (h.withState _) _
      · exact ⟨h.advanceInner cs ok, rfl⟩

/-- A text in which the covering context meets no slash of unknown meaning keeps what is covered. -/
theorem Covers.advance {c a : Context} (h : c.Covers a) (cs : List Char)
    (clear : c.meetsUnknownSlash cs = false) : (c.advance cs).Covers (a.advance cs) := by
  induction c, cs using advance_induction generalizing a with
  | nil c => rwa [advance_nil, advance_nil]
  | stuck c x xs he =>
    rw [advance_of_isError he, advance_of_isError (h.isError ▸ he)]
    exact h
  | step c x xs he ih =>
    rw [advance_cons he, advance_cons (h.isError ▸ he)]
    obtain ⟨first, rest⟩ := clear_cons he clear
    obtain ⟨hcov, htext⟩ := h.step (x :: xs) first
    rw [← htext]
    exact ih hcov rest

theorem Covers.nudge {c a : Context} (h : c.Covers a) : c.nudge.Covers a.nudge := by
  unfold Context.nudge
  rw [h.state_eq]
  split
  · exact h.enterValue _
  · exact h.noValue
  · exact h

theorem Covers.afterOutput {c a : Context} (h : c.Covers a) :
    c.afterOutput.Covers a.afterOutput := by
  obtain ⟨u, k, rfl, hu, hk⟩ := h.exists_eq
  unfold Context.afterOutput
  dsimp only
  split
  · exact ⟨rfl, hu, .inl rfl⟩
  · exact h

theorem Covers.innerEscapers {c a : Context} (h : c.Covers a) {inner : List Escaper}
    (admits : c.innerEscapers = .ok inner) : a.innerEscapers = .ok inner := by
  obtain ⟨u, k, rfl, hu, hk⟩ := h.exists_eq
  rcases hu with rfl | hu
  · exact admits
  · rw [← admits]
    unfold Context.innerEscapers at admits ⊢
    rw [hu] at admits
    cases hs : c.state <;> rw [hs] at admits <;> first | rfl | cases admits

/-- What a covering context admits, the covered ones admit with the same escapers. -/
theorem Covers.escapers {c a : Context} (h : c.Covers a) {rules : List Escaper}
    (admits : c.escapers = .ok rules) : a.escapers = .ok rules := by
  obtain ⟨inner, hinner, hrules⟩ := escapers_eq_ok.mp admits
  have comment : a.inComment = c.inComment := by
    unfold inComment
    rw [h.state_eq]
  refine escapers_eq_ok.mpr ⟨inner, h.innerEscapers hinner, ?_⟩
  rw [comment, h.delim_eq]
  exact hrules

/-- **What is unknown stands for what is known.** A context goes on to cover another through nudges,
outputs and every text in which it meets no slash of unknown meaning, and whatever escapers it asks
for, the covered one asks for too. -/
theorem Covers.stands_for {s p : Context} (h : s.Covers p) :
    s.nudge.Covers p.nudge ∧ s.afterOutput.Covers p.afterOutput ∧
      (∀ rules, s.escapers = .ok rules → p.escapers = .ok rules) ∧
      ∀ cs, s.meetsUnknownSlash cs = false → (s.advance cs).Covers (p.advance cs) :=
  ⟨h.nudge, h.afterOutput, fun _ => h.escapers, h.advance⟩

/-- In a script behind an output or a bracket, as a join may leave it: the code goes on with an
operator, divides, and the page with a link. -/
theorem covers_after_branches :
    let s : Context := { state := .js, element := .script, slash := .unknown }
    let p : Context := { state := .js, element := .script, slash := .division }
    let cs := "+ n / 2</script><a href=\"?q=".toList
    s.Covers p ∧ s.meetsUnknownSlash cs = false ∧ (s.advance cs).Covers (p.advance cs) ∧
      p.escapers = .ok [.jsValue] := by
  intro s p cs
  have covers : s.Covers p := ⟨rfl, .inl rfl, .inr rfl⟩
  have clear : s.meetsUnknownSlash cs = false := by decide +kernel
  obtain ⟨-, -, rules, text⟩ := covers.stands_for
  exact ⟨covers, clear, text cs clear, rules [.jsValue] rfl⟩

/-- A join of two contexts as they stand covers both of them. -/
theorem covers_of_joinDirect {a b c : Context} (ha : a.isError = false) (hb : b.isError = false)
    (h : joinDirect a b = some c) : c.Covers a ∧ c.Covers b := by
  unfold joinDirect at h
  rw [if_neg (by simp [ha]), if_neg (by simp [hb])] at h
  split at h
  · next heq =>
    cases h
    exact ⟨.refl a, heq ▸ .refl a⟩
  split at h
  · next heq =>
    cases h
    refine ⟨⟨rfl, .inr rfl, .inl rfl⟩, ?_⟩
    rw [← heq]
    exact ⟨rfl, .inr rfl, .inl rfl⟩
  split at h
  · next heq =>
    cases h
    refine ⟨⟨rfl, .inl rfl, .inr rfl⟩, ?_⟩
    rw [← heq]
    exact ⟨rfl, .inl rfl, .inr rfl⟩
  · cases h

end Context

end Stencil.Markup
