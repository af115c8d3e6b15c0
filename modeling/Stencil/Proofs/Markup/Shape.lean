import Stencil.Proofs.Markup.Moves

/-!
# The shape of a reachable context

The contexts that a template can meet are those reached from the start of a document by text,
outputs and joins (`Context.Reachable`). Their parts fit together (`Context.Shaped`): a value is
read in the grammar of its attribute, a script or a style sheet outside of a value is the body of
its element, and names, parts of an address and meanings of a slash stand only where they are being
read (`Reachable.shaped`).

A context behind a lost fault, which is no error any more but still names the fault, is reachable
too; its shape is that of any other.
-/

set_option autoImplicit false

namespace Stencil.Markup

theorem AttrKind.ofLocalName_ne_none (name : List Char) :
    AttrKind.ofLocalName name ≠ .none := by
  unfold AttrKind.ofLocalName
  repeat' split
  all_goals
    intro h
    cases h

/-- Every attribute has a kind. -/
theorem AttrKind.ofName_ne_none (name : String) : AttrKind.ofName name ≠ .none := by
  unfold AttrKind.ofName
  dsimp only
  split
  · split
    · intro h
      cases h
    · exact AttrKind.ofLocalName_ne_none _
  · exact AttrKind.ofLocalName_ne_none _

/-- The value of an attribute is read in the grammar of its kind. -/
theorem AttrKind.kind_valueState {kind : AttrKind} (h : kind ≠ .none) :
    kind.valueState.kind = kind := by
  cases kind <;> first | rfl | exact absurd rfl h

namespace Context

/-- Contexts reached from the start of a document. -/
inductive Reachable : Context → Prop where
  | start : Reachable .start
  | advance {c : Context} (cs : List Char) : Reachable c → Reachable (c.advance cs)
  | nudge {c : Context} : Reachable c → Reachable c.nudge
  | afterOutput {c : Context} : Reachable c → Reachable c.afterOutput
  | join {a b c : Context} : Reachable a → Reachable b → a.join b = some c → Reachable c

/-- The parts of a context fit together. -/
structure Shaped (c : Context) : Prop where
  /-- A value is read in the grammar of its attribute. -/
  value : c.delim ≠ .none → c.state.kind = c.attr ∧ c.attr ≠ .none
  /-- Outside of a value, an attribute is known from its name to its value. -/
  attr : c.delim = .none → (c.attr ≠ .none ↔ c.state = .afterName ∨ c.state = .beforeValue)
  script : c.delim = .none → c.state.kind = .script → c.element = .script
  style : c.delim = .none → c.state.kind = .style → c.element = .style
  bare : c.delim = .none → c.state.kind ≠ .plain ∧ c.state.kind ≠ .url
  rcdata : c.state = .rcdata → c.element = .textarea ∨ c.element = .title
  text : c.state = .text ∨ c.state = .comment → c.element = .none
  name : c.pendingName ≠ "" → c.state = .tagName ∨ c.state = .attrName
  urlPart : c.urlPart ≠ .none → c.state.isAddress = true
  slash : c.slash ≠ .regexp → c.state.kind = .script
  endTag : c.endTag = true → c.element = .none

/-- Where no value is read and the state has no grammar of its own, little has to fit. -/
theorem shaped_outside {c : Context} (hd : c.delim = .none) (hk : c.state.kind = .none)
    (hu : c.urlPart = .none) (hs : c.slash = .regexp)
    (attr : c.attr ≠ .none ↔ c.state = .afterName ∨ c.state = .beforeValue)
    (rcdata : c.state = .rcdata → c.element = .textarea ∨ c.element = .title)
    (text : c.state = .text ∨ c.state = .comment → c.element = .none)
    (name : c.pendingName ≠ "" → c.state = .tagName ∨ c.state = .attrName)
    (endTag : c.endTag = true → c.element = .none) : c.Shaped where
  value h := absurd hd h
  attr _ := attr
  script _ h := by rw [hk] at h; cases h
  style _ h := by rw [hk] at h; cases h
  bare _ := by rw [hk]; exact ⟨nofun, nofun⟩
  rcdata := rcdata
  text := text
  name := name
  urlPart h := absurd hu h
  slash h := absurd hs h
  endTag := endTag

/-- A tag between its attributes is shaped, whatever was lost before it. -/
theorem shaped_tag {c : Context} (hs : c.state = .tag) (hd : c.delim = .none)
    (ha : c.attr = .none) (hn : c.pendingName = "") (hu : c.urlPart = .none)
    (hk : c.slash = .regexp) (he : c.endTag = true → c.element = .none) : c.Shaped :=
  shaped_outside hd (by rw [hs]; rfl) hu hk (by simp [ha, hs]) (by rw [hs]; nofun)
    (by rw [hs]; nofun) (absurd hn) he

theorem shaped_start : Context.start.Shaped :=
  shaped_outside rfl rfl rfl rfl (by simp [start]) nofun (fun _ => rfl) (absurd rfl) nofun

theorem shaped_failed (f : Fault) : (failed f).Shaped :=
  shaped_outside rfl rfl rfl rfl (by simp [failed]) nofun (fun _ => rfl) (absurd rfl) nofun

section

variable {c : Context} {s : State} (h : c.Shaped) (hs : c.state = s)

include h hs

/-- Where no address is being read, no part of one is known. -/
theorem Shaped.urlPart_eq (ha : s.isAddress = false) : c.urlPart = .none := by
  subst hs
  apply Decidable.byContradiction
  intro hne
  rw [h.urlPart hne] at ha
  cases ha

/-- Outside of scripts nothing is known of a slash. -/
theorem Shaped.slash_eq (hk : s.kind ≠ .script) : c.slash = .regexp := by
  subst hs
  apply Decidable.byContradiction
  intro hne
  exact hk (h.slash hne)

/-- A state without a grammar of its own is outside of values. -/
theorem Shaped.delim_eq (hk : s.kind = .none) : c.delim = .none := by
  subst hs
  apply Decidable.byContradiction
  intro hne
  obtain ⟨hkind, hattr⟩ := h.value hne
  exact hattr (hkind ▸ hk)

/-- No attribute is known in a state that is neither before its value nor in it. -/
theorem Shaped.attr_eq (hd : c.delim = .none) (hn : s ≠ .afterName ∧ s ≠ .beforeValue) :
    c.attr = .none := by
  subst hs
  apply Decidable.byContradiction
  intro hne
  exact ((h.attr hd).mp hne).elim hn.1 hn.2

/-- No name is pending outside of names. -/
theorem Shaped.pendingName_eq (hn : s ≠ .tagName ∧ s ≠ .attrName) : c.pendingName = "" := by
  subst hs
  apply Decidable.byContradiction
  intro hne
  exact (h.name hne).elim hn.1 hn.2

/-- A context that is no value and has no grammar of its own keeps what goes with these. -/
theorem Shaped.outside (hk : s.kind = .none) :
    c.delim = .none ∧ c.urlPart = .none ∧ c.slash = .regexp := by
  refine ⟨h.delim_eq hs hk, h.urlPart_eq hs ?_, h.slash_eq hs ?_⟩
  · cases s <;> first | rfl | cases hk
  · rw [hk]
    decide

end

/-- Outside of a value, a script, a style sheet or a text without tags is the body of an element. -/
theorem Shaped.inElementBody {c : Context} (h : c.Shaped) (hd : c.delim = .none)
    (hs : c.state.kind = .script ∨ c.state.kind = .style ∨ c.state = .rcdata) :
    c.inElementBody = true := by
  have element : c.element ≠ .none := by
    rcases hs with hk | hk | hr
    · rw [h.script hd hk]
      decide
    · rw [h.style hd hk]
      decide
    · rcases h.rcdata hr with he | he <;> rw [he] <;> decide
  unfold Context.inElementBody
  rw [hd, bne_iff_ne.mpr element]
  cases hstate : c.state <;> rw [hstate] at hs <;> first | rfl | simp [State.kind] at hs

/-- A place in the same value or body is shaped alike. -/
theorem Shaped.within {c d : Context} (h : c.Shaped) (w : c.Within d) : d.Shaped where
  value hd := by
    rw [w.delim] at hd
    rw [w.kind, w.attr]
    exact h.value hd
  attr hd := by
    rw [w.delim] at hd
    rw [w.attr]
    by_cases hk : c.state.kind = .none
    · rw [w.fixed hk]
      exact h.attr hd
    · have outside : ∀ s : State, s.kind ≠ .none → s ≠ .afterName ∧ s ≠ .beforeValue := by
        intro s hs
        constructor <;> rintro rfl <;> exact hs rfl
      obtain ⟨hn, hb⟩ := outside d.state (w.kind ▸ hk)
      have ha : c.attr = .none := h.attr_eq rfl hd (outside _ hk)
      exact ⟨absurd ha, fun hs => (hs.elim hn hb).elim⟩
  script hd hk := by
    rw [w.delim] at hd
    rw [w.element]
    exact h.script hd (w.kind ▸ hk)
  style hd hk := by
    rw [w.delim] at hd
    rw [w.element]
    exact h.style hd (w.kind ▸ hk)
  bare hd := by
    rw [w.kind]
    exact h.bare (w.delim ▸ hd)
  rcdata hs := by
    have hk : c.state.kind = .none := by rw [← w.kind, hs]; rfl
    rw [w.element]
    exact h.rcdata (w.fixed hk ▸ hs)
  text hs := by
    have hk : c.state.kind = .none := by rw [← w.kind]; rcases hs with hs | hs <;> rw [hs] <;> rfl
    rw [w.element]
    exact h.text (w.fixed hk ▸ hs)
  name hn := by
    have hs := h.name (w.pendingName ▸ hn)
    have hk : c.state.kind = .none := by rcases hs with hs | hs <;> rw [hs] <;> rfl
    rw [w.fixed hk]
    exact hs
  urlPart := w.urlPart h.urlPart
  slash hne := by
    rw [w.kind]
    rcases w.slash with hs | hs
    · exact h.slash (hs ▸ hne)
    · exact hs
  endTag he := by
    rw [w.element]
    exact h.endTag (w.endTag ▸ he)

/-- A text inside a value or a body leaves a shaped context. -/
theorem Shaped.advanceInner {c : Context} (h : c.Shaped) (cs : List Char) :
    (c.advanceInner cs).Shaped := by
  rcases advanceInner_within c cs with ⟨hf, -⟩ | hw
  · rw [hf]
    exact shaped_failed _
  · exact h.within hw

/-- No name is pending at any place in a value. -/
theorem Shaped.pendingName_advanceInner {c : Context} (h : c.Shaped) (hd : c.delim ≠ .none)
    (cs : List Char) : (c.advanceInner cs).pendingName = "" := by
  rcases advanceInner_within c cs with ⟨hf, -⟩ | hw
  · rw [hf]
    rfl
  · rw [hw.pendingName]
    obtain ⟨hk, ha⟩ := h.value hd
    refine h.pendingName_eq rfl ⟨?_, ?_⟩ <;> intro hs <;> rw [hs] at hk <;> exact ha hk.symm

/-- The start of a value is shaped. -/
theorem Shaped.enterValue {c : Context} (h : c.Shaped) (hs : c.state = .beforeValue)
    {delim : Delim} (hd : delim ≠ .none) : (c.enterValue delim).Shaped := by
  have hk : c.state.kind = .none := by rw [hs]; rfl
  have ha : c.attr ≠ .none := (h.attr (h.delim_eq rfl hk)).mpr (.inr hs)
  have hv : c.attr.valueState.kind = c.attr := AttrKind.kind_valueState ha
  have hn : c.pendingName = "" := h.pendingName_eq hs (by decide)
  have grammar : ∀ s : State, s.kind = .none → c.attr.valueState ≠ s := by
    intro s hs heq
    rw [heq, hs] at hv
    exact ha hv.symm
  exact {
    value := fun _ => ⟨hv, ha⟩
    attr := fun h => absurd h hd
    script := fun h => absurd h hd
    style := fun h => absurd h hd
    bare := fun h => absurd h hd
    rcdata := fun h => absurd h (grammar _ rfl)
    text := fun h => (h.elim (grammar _ rfl) (grammar _ rfl)).elim
    name := fun h => absurd hn h
    urlPart := fun h => absurd rfl h
    slash := fun h => absurd rfl h
    endTag := h.endTag }

/-- The body of an element starts in the grammar of the element. -/
theorem shaped_body (element : Element) :
    Shaped { state := element.bodyState, element } := by
  cases element with
  | none => exact shaped_start
  | textarea =>
    exact shaped_outside rfl rfl rfl rfl (by simp [Element.bodyState]) (fun _ => .inl rfl) nofun
      (absurd rfl) nofun
  | title =>
    exact shaped_outside rfl rfl rfl rfl (by simp [Element.bodyState]) (fun _ => .inr rfl) nofun
      (absurd rfl) nofun
  | script =>
    exact ⟨absurd rfl, fun _ => by simp [Element.bodyState], fun _ _ => rfl, nofun,
      fun _ => ⟨nofun, nofun⟩, nofun, nofun, absurd rfl, absurd rfl, absurd rfl, nofun⟩
  | style =>
    exact ⟨absurd rfl, fun _ => by simp [Element.bodyState], nofun, fun _ _ => rfl,
      fun _ => ⟨nofun, nofun⟩, nofun, nofun, absurd rfl, absurd rfl, absurd rfl, nofun⟩

/-- Every move of a scan leaves a shaped context. -/
theorem Shaped.moves {c d : Context} (h : c.Shaped) (m : c.Moves d) : d.Shaped := by
  cases m with
  | inner cs => exact h.advanceInner cs
  | leave cs hd =>
    exact shaped_tag rfl rfl rfl (h.pendingName_advanceInner hd cs) rfl rfl
      (h.advanceInner cs).endTag
  | endTag => exact shaped_tag rfl rfl rfl rfl rfl rfl fun _ => rfl
  | startTag endTag hd hs =>
    obtain ⟨-, hu, hk⟩ := h.outside hs rfl
    have ha := h.attr_eq hs hd (by decide)
    have he := h.text (.inl hs)
    exact shaped_outside hd rfl hu hk (by simp [startTag, ha]) nofun nofun (fun _ => .inl rfl)
      fun _ => he
  | comment hd hs =>
    obtain ⟨-, hu, hk⟩ := h.outside hs rfl
    have ha := h.attr_eq hs hd (by decide)
    have hn := h.pendingName_eq hs (by decide)
    exact shaped_outside hd rfl hu hk (by simp [ha]) nofun (fun _ => h.text (.inl hs)) (absurd hn)
      h.endTag
  | commentEnd hd hs =>
    obtain ⟨-, hu, hk⟩ := h.outside hs rfl
    have ha := h.attr_eq hs hd (by decide)
    have hn := h.pendingName_eq hs (by decide)
    exact shaped_outside hd rfl hu hk (by simp [ha]) nofun (fun _ => h.text (.inr hs)) (absurd hn)
      h.endTag
  | name part hd hs =>
    have hk : c.state.kind = .none := by rcases hs with hs | hs <;> rw [hs] <;> rfl
    obtain ⟨-, hu, hsl⟩ := h.outside rfl hk
    exact shaped_outside hd hk hu hsl (h.attr hd) h.rcdata h.text (fun _ => hs) h.endTag
  | tagNamed part hd hs =>
    obtain ⟨-, hu, hk⟩ := h.outside hs rfl
    have ha := h.attr_eq hs hd (by decide)
    exact shaped_tag rfl hd ha rfl hu hk fun he => if_pos he
  | close => exact shaped_body _
  | attrStart hd hs =>
    obtain ⟨-, hu, hk⟩ := h.outside hs rfl
    have ha := h.attr_eq hs hd (by decide)
    exact shaped_outside hd rfl hu hk (by simp [ha]) nofun nofun (absurd rfl) h.endTag
  | attrNamed name hd hs =>
    obtain ⟨-, hu, hk⟩ := h.outside hs rfl
    exact shaped_outside hd rfl hu hk (by simp [AttrKind.ofName_ne_none]) nofun nofun (absurd rfl)
      h.endTag
  | equals hd hs =>
    obtain ⟨-, hu, hk⟩ := h.outside hs rfl
    have ha := (h.attr hd).mpr (.inl hs)
    have hn := h.pendingName_eq hs (by decide)
    exact shaped_outside hd rfl hu hk (by simp [ha]) nofun nofun (absurd hn) h.endTag
  | noValue hd hs =>
    obtain ⟨-, hu, hk⟩ := hs.elim (h.outside · rfl) (h.outside · rfl)
    have hn := hs.elim (h.pendingName_eq · (by decide)) (h.pendingName_eq · (by decide))
    exact shaped_tag rfl hd rfl hn hu hk h.endTag
  | enter delim hne hd hs => exact h.enterValue hs hne

/-- A text leaves a shaped context. -/
theorem Shaped.advance {c : Context} (h : c.Shaped) (cs : List Char) : (c.advance cs).Shaped :=
  advance_preserves (fun _ _ _ m h => Shaped.moves h m) h cs

/-- A nudge leaves a shaped context. -/
theorem Shaped.nudge {c : Context} (h : c.Shaped) : c.nudge.Shaped := by
  unfold Context.nudge
  split
  · next hs => exact h.enterValue hs nofun
  · next hs => exact h.moves (.noValue (h.delim_eq hs rfl) (.inl hs))
  · exact h

/-- An output leaves a shaped context. -/
theorem Shaped.afterOutput {c : Context} (h : c.Shaped) : c.afterOutput.Shaped := by
  unfold Context.afterOutput
  split
  · next hs => exact h.within (within_of_slash hs rfl fun _ => by decide)
  · exact h

/-- A join of shaped contexts is shaped: what becomes unknown is being read on both sides. -/
theorem Shaped.joinDirect {a b c : Context} (ha : a.Shaped) (hb : b.Shaped)
    (h : a.joinDirect b = some c) : c.Shaped := by
  unfold Context.joinDirect at h
  split at h
  · cases h; exact ha
  split at h
  · cases h; exact hb
  split at h
  · cases h; exact ha
  · next hne =>
    split at h
    · next heq =>
      cases h
      have hs : a.state = b.state := (congrArg Context.state heq :)
      have ho : a.urlPart ≠ .none ∨ b.urlPart ≠ .none := by
        refine Decidable.byContradiction fun hc => hne ?_
        obtain ⟨hua, hub⟩ := not_or.mp hc
        rw [← heq, Decidable.not_not.mp hub, ← Decidable.not_not.mp hua]
      have haddr : a.state.isAddress = true := ho.elim ha.urlPart fun h => hs ▸ hb.urlPart h
      exact { ha with urlPart := fun _ => haddr }
    split at h
    · next heq =>
      cases h
      have hs : a.state = b.state := (congrArg Context.state heq :)
      have ho : a.slash ≠ .regexp ∨ b.slash ≠ .regexp := by
        refine Decidable.byContradiction fun hc => hne ?_
        obtain ⟨hua, hub⟩ := not_or.mp hc
        rw [← heq, Decidable.not_not.mp hub, ← Decidable.not_not.mp hua]
      have hk : a.state.kind = .script := ho.elim ha.slash fun h => hs ▸ hb.slash h
      exact { ha with slash := fun _ => hk }
    · cases h

theorem Shaped.join {a b c : Context} (ha : a.Shaped) (hb : b.Shaped) (h : a.join b = some c) :
    c.Shaped := by
  unfold Context.join at h
  split at h
  · next hd => cases h; exact ha.joinDirect hb hd
  · split at h
    · exact ha.nudge.joinDirect hb.nudge h
    · cases h

/-- Every reachable context is shaped. -/
theorem Reachable.shaped {c : Context} (h : Reachable c) : c.Shaped := by
  induction h with
  | start => exact shaped_start
  | advance cs _ ih => exact ih.advance cs
  | nudge _ ih => exact ih.nudge
  | afterOutput _ ih => exact ih.afterOutput
  | join _ _ h iha ihb => exact iha.join ihb h

end Context

end Stencil.Markup
