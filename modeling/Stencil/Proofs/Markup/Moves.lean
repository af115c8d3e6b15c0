import Stencil.Markup.Join

/-!
# What a scan does to a context

A step inside a value or a body leaves everything but the state, the part of an address and the
meaning of a slash as it is, and keeps to the grammar it is in (`Context.Within`); only a slash of
unknown meaning can end it in a fault (`innerStep_within`, `advanceInner_within`). A step of a scan
is one of a few moves (`Context.Moves`, `step_moves`); what every move keeps, a scan keeps
(`advance_preserves`).

The text that is left after a step is not part of this account: it is what the recursions of
`Context.advance` and `Context.advanceInner` run on, and statements that need it open the steps.
-/

set_option autoImplicit false

namespace Stencil.Markup

/-- The kind of attribute whose values go through a state. -/
def State.kind : State → AttrKind
  | .attr => .plain
  | .url => .url
  | .js | .jsDoubleQuoted | .jsSingleQuoted | .jsTemplate | .jsRegexp | .jsLineComment
  | .jsBlockComment => .script
  | .css | .cssDoubleQuoted | .cssSingleQuoted | .cssDoubleQuotedUrl | .cssSingleQuotedUrl
  | .cssUrl | .cssComment => .style
  | .text | .rcdata | .tagName | .tag | .attrName | .afterName | .beforeValue | .comment
  | .error => .none

/-- Whether an address is being read in a state. -/
def State.isAddress : State → Bool
  | .url | .cssDoubleQuotedUrl | .cssSingleQuotedUrl | .cssUrl => true
  | _ => false

/-- Scripts hold no addresses. -/
theorem State.isAddress_eq_false {s : State} (h : s.kind = .script) : s.isAddress = false := by
  cases s <;> first | rfl | cases h

/-- What a slash means after code is known if it was known before. -/
theorem Slash.after_ne_unknown {s : Slash} (h : s ≠ .unknown) (code : List Char) :
    s.after code ≠ .unknown := by
  unfold Slash.after
  split
  · exact h
  · unfold Slash.afterLast
    dsimp only
    repeat' split
    all_goals
      intro h
      cases h

namespace Context

/-! ## Inside a value or a body -/

/-- `d` is a place in the same value or body as `c`. -/
structure Within (c d : Context) : Prop where
  same : d = { c with state := d.state, urlPart := d.urlPart, slash := d.slash }
  kind : d.state.kind = c.state.kind
  fixed : c.state.kind = .none → d.state = c.state
  urlPart : (c.urlPart ≠ .none → c.state.isAddress = true) →
    d.urlPart ≠ .none → d.state.isAddress = true
  slash : d.slash = c.slash ∨ c.state.kind = .script
  known : c.slash ≠ .unknown → d.slash ≠ .unknown

theorem Within.refl (c : Context) : c.Within c :=
  ⟨rfl, rfl, fun _ => rfl, id, .inl rfl, id⟩

theorem Within.trans {c d e : Context} (h : c.Within d) (g : d.Within e) : c.Within e where
  same := by rw [g.same, h.same]
  kind := g.kind.trans h.kind
  fixed hk := (g.fixed (h.kind ▸ hk)).trans (h.fixed hk)
  urlPart hc := g.urlPart (h.urlPart hc)
  slash := by
    rcases g.slash with hs | hs
    · exact hs ▸ h.slash
    · exact .inr (h.kind ▸ hs)
  known hc := g.known (h.known hc)

theorem Within.delim {c d : Context} (h : c.Within d) : d.delim = c.delim :=
  (congrArg Context.delim h.same).trans rfl

theorem Within.attr {c d : Context} (h : c.Within d) : d.attr = c.attr :=
  (congrArg Context.attr h.same).trans rfl

theorem Within.element {c d : Context} (h : c.Within d) : d.element = c.element :=
  (congrArg Context.element h.same).trans rfl

theorem Within.pendingName {c d : Context} (h : c.Within d) : d.pendingName = c.pendingName :=
  (congrArg Context.pendingName h.same).trans rfl

theorem Within.endTag {c d : Context} (h : c.Within d) : d.endTag = c.endTag :=
  (congrArg Context.endTag h.same).trans rfl

theorem Within.error {c d : Context} (h : c.Within d) : d.error = c.error :=
  (congrArg Context.error h.same).trans rfl

theorem Within.isError {c d : Context} (h : c.Within d) : d.isError = c.isError := by
  by_cases hn : c.state.kind = .none
  · rw [Context.isError, h.fixed hn, Context.isError]
  · have hd : d.state.kind ≠ .none := h.kind ▸ hn
    have ne : ∀ s : State, s.kind ≠ .none → (s == .error) = false := by
      intro s hs
      cases s <;> first | rfl | exact absurd rfl hs
    rw [Context.isError, ne _ hd, Context.isError, ne _ hn]

/-- Ending a string, comment or regular expression stays in the grammar. -/
theorem leave_within {c next : Context} (ending : Option (List Char)) (h : c.Within next) :
    c.Within (c.leave ending next).1 := by
  unfold leave
  split
  · exact h
  · exact .refl c

section

variable {c : Context} {s t : State} (hs : c.state = s)

include hs

/-- Going to another state of a grammar, where the part of an address is not lost. -/
theorem within_of_state (hk : t.kind = s.kind) (hn : s.kind ≠ .none)
    (ha : s.isAddress = true → t.isAddress = true) : c.Within { c with state := t } := by
  subst hs
  exact ⟨rfl, hk, fun h => absurd h hn, fun h hne => ha (h hne), .inl rfl, id⟩

/-- Coming to know the meaning of a slash. -/
theorem within_of_slash {k : Slash} (hk : s.kind = .script)
    (known : c.slash ≠ .unknown → k ≠ .unknown) : c.Within { c with slash := k } := by
  subst hs
  exact ⟨rfl, rfl, fun _ => rfl, id, .inr hk, known⟩

/-- Going to another state with another part of an address. -/
theorem within_of_address {u : UrlPart} (hk : t.kind = s.kind) (hn : s.kind ≠ .none)
    (ha : u ≠ .none → t.isAddress = true) : c.Within { c with state := t, urlPart := u } := by
  subst hs
  exact ⟨rfl, hk, fun h => absurd h hn, fun _ => ha, .inl rfl, id⟩

/-- Going to another part of a script, which holds no addresses. -/
theorem within_of_script (hk : s.kind = .script) (ht : t.kind = .script) :
    c.Within { c with state := t } := by
  apply within_of_state hs
  · rw [ht, hk]
  · rw [hk]
    decide
  · intro ha
    rw [State.isAddress_eq_false hk] at ha
    cases ha

end

theorem slashStep_within {c : Context} (hs : c.state = .js) (rest : List Char) :
    (c.slashStep rest).1 = .failed .slash ∧ c.slash = .unknown ∨
      c.Within (c.slashStep rest).1 := by
  unfold slashStep
  split
  · exact .inr (within_of_script hs rfl rfl)
  · exact .inr (within_of_script hs rfl rfl)
  · split
    · exact .inr (within_of_script hs rfl rfl)
    · exact .inr (within_of_slash hs rfl fun _ => by decide)
    · next h => exact .inl ⟨rfl, h⟩

theorem codeStep_within {c : Context} (hs : c.state = .js) (cs : List Char) :
    (c.codeStep cs).1 = .failed .slash ∧ c.slash = .unknown ∨ c.Within (c.codeStep cs).1 := by
  unfold codeStep
  dsimp only
  generalize cs.takeWhile (fun x => !startsScriptPart x) = code
  have moved : c.Within { c with slash := c.slash.after code } :=
    within_of_slash hs rfl fun h => Slash.after_ne_unknown h code
  have opened (s : State) (hk : s.kind = .script) :
      c.Within { c with slash := c.slash.after code, state := s } :=
    moved.trans (within_of_script hs rfl hk)
  split
  · exact .inr moved
  · split
    · exact .inr (opened _ rfl)
    split
    · exact .inr (opened _ rfl)
    split
    · exact .inr (opened _ rfl)
    · rcases slashStep_within (c := { c with slash := c.slash.after code }) hs _ with ⟨hf, hu⟩ | hw
      · refine .inl ⟨hf, Decidable.byContradiction fun hk => ?_⟩
        exact Slash.after_ne_unknown hk code hu
      · exact .inr (moved.trans hw)

theorem afterOperand_within {c : Context} {s : State} (hs : c.state = s) (hk : s.kind = .script) :
    c.Within c.afterOperand := by
  have toCode : c.Within { c with state := .js } := within_of_script hs hk rfl
  exact toCode.trans (within_of_slash rfl rfl fun _ => by decide)

theorem addressStep_within {c : Context} (hs : c.state = .css) (rest : List Char) :
    c.Within (c.addressStep rest).1 := by
  unfold addressStep
  split
  all_goals exact within_of_address hs rfl (by decide) fun _ => rfl

theorem ruleStep_within {c : Context} (hs : c.state = .css) (seen cs : List Char) :
    c.Within (c.ruleStep seen cs).1 := by
  induction cs generalizing seen with
  | nil => exact .refl c
  | cons x xs ih =>
    unfold ruleStep
    split
    · exact addressStep_within hs _
    split
    · exact within_of_state hs rfl (by decide) (by decide)
    split
    · exact within_of_state hs rfl (by decide) (by decide)
    split
    · exact within_of_state hs rfl (by decide) (by decide)
    · exact ih _

theorem addressEnd_within {c : Context} {s : State} (hs : c.state = s) (hk : s.kind = .style)
    (ha : s.isAddress = true) (close : Char) (cs : List Char) :
    c.Within (c.addressEnd close cs).1 := by
  have hn : s.kind ≠ .none := by
    rw [hk]
    decide
  subst hs
  unfold addressEnd
  dsimp only
  split
  · exact within_of_address rfl rfl hn fun _ => ha
  · exact within_of_address rfl hk.symm hn (absurd rfl)

/-- A step inside a value or a body keeps to its grammar, unless it meets a slash of unknown
meaning. -/
theorem innerStep_within (c : Context) (first : Char) (rest : List Char) :
    (c.innerStep first rest).1 = .failed .slash ∧ c.slash = .unknown ∨
      c.Within (c.innerStep first rest).1 := by
  unfold innerStep
  dsimp only
  split
  case h_1 hs =>
    have kept : c.state.isAddress = true := by rw [hs]; rfl
    exact .inr (within_of_address (t := c.state) hs (by rw [hs]) (by decide) fun _ => kept)
  case h_2 hs => exact codeStep_within hs _
  case h_3 hs => exact .inr (leave_within _ (afterOperand_within hs rfl))
  case h_4 hs => exact .inr (leave_within _ (afterOperand_within hs rfl))
  case h_5 hs => exact .inr (leave_within _ (afterOperand_within hs rfl))
  case h_6 hs => exact .inr (leave_within _ (afterOperand_within hs rfl))
  case h_9 hs => exact .inr (ruleStep_within hs _ _)
  case h_12 hs => exact .inr (addressEnd_within hs rfl rfl _ _)
  case h_13 hs => exact .inr (addressEnd_within hs rfl rfl _ _)
  case h_14 hs => exact .inr (addressEnd_within hs rfl rfl _ _)
  case h_7 hs | h_8 hs | h_10 hs | h_11 hs | h_15 hs =>
    exact .inr (leave_within _ (within_of_state hs rfl (by decide) (by decide)))
  all_goals exact .inr (.refl c)

@[simp] theorem advanceInner_nil (c : Context) : c.advanceInner [] = c := by
  rw [advanceInner]

theorem advanceInner_of_isError {c : Context} (h : c.isError = true) (cs : List Char) :
    c.advanceInner cs = c := by
  cases cs with
  | nil => rw [advanceInner]
  | cons x xs => rw [advanceInner, if_pos h]

theorem advanceInner_cons {c : Context} (h : c.isError = false) (x : Char) (xs : List Char) :
    c.advanceInner (x :: xs) =
      (c.innerStep x xs).1.advanceInner (c.innerStep x xs).2 := by
  rw [advanceInner, if_neg (by simp [h])]

/-- Induction along the steps inside a value or a body. -/
@[elab_as_elim]
theorem advanceInner_induction {P : Context → List Char → Prop} (nil : ∀ c, P c [])
    (stuck : ∀ c x xs, c.isError = true → P c (x :: xs))
    (step : ∀ c x xs, c.isError = false →
      P (c.innerStep x xs).1 (c.innerStep x xs).2 → P c (x :: xs))
    (c : Context) (cs : List Char) : P c cs :=
  advanceInner.induct P nil stuck
    (fun c x xs he ih => step c x xs (by simpa using he) ih) c cs

@[simp] theorem isError_failed (f : Fault) : (failed f).isError = true := rfl

/-- A text inside a value or a body keeps to its grammar, unless it meets a slash of unknown
meaning. -/
theorem advanceInner_within (c : Context) (cs : List Char) :
    c.advanceInner cs = .failed .slash ∧ c.slash = .unknown ∨ c.Within (c.advanceInner cs) := by
  induction c, cs using advanceInner_induction with
  | nil c => exact .inr (by rw [advanceInner_nil]; exact .refl c)
  | stuck c x xs h => exact .inr (by rw [advanceInner_of_isError h]; exact .refl c)
  | step c x xs h ih =>
    rw [advanceInner_cons h]
    rcases innerStep_within c x xs with ⟨hf, hu⟩ | hw
    · exact .inl ⟨by rw [hf, advanceInner_of_isError (isError_failed _)], hu⟩
    · rcases ih with ⟨hf, hu⟩ | hw'
      · exact .inl ⟨hf, Decidable.byContradiction fun hk => hw.known hk hu⟩
      · exact .inr (hw.trans hw')

/-! ## The moves of a scan -/

/-- What a step of a scan can make of a context. -/
inductive Moves (c : Context) : Context → Prop where
  /-- Goes on where it is: inside a value or a body, or to the end of the text. -/
  | inner (cs : List Char) : c.Moves (c.advanceInner cs)
  /-- Ends a value. -/
  | leave (cs : List Char) : c.delim ≠ .none → c.Moves (c.advanceInner cs).leaveAttr
  /-- Meets the end tag of the element whose body it is in. -/
  | endTag : c.inElementBody = true → c.Moves endTagOpened
  | startTag (endTag : Bool) : c.delim = .none → c.state = .text → c.Moves (c.startTag endTag)
  | comment : c.delim = .none → c.state = .text → c.Moves { c with state := .comment }
  | commentEnd : c.delim = .none → c.state = .comment → c.Moves { c with state := .text }
  | name (part : List Char) : c.delim = .none → c.state = .tagName ∨ c.state = .attrName →
      c.Moves (c.extendName part)
  | tagNamed (part : List Char) : c.delim = .none → c.state = .tagName →
      c.Moves { c.extendName part with
        element := if c.endTag then .none else Element.ofName (c.extendName part).pendingName
        pendingName := "", state := .tag }
  | close : c.delim = .none → c.state = .tag → c.Moves c.closeTag
  | attrStart : c.delim = .none → c.state = .tag →
      c.Moves { c with state := .attrName, pendingName := "" }
  | attrNamed (name : String) : c.delim = .none → c.state = .attrName →
      c.Moves { c with attr := AttrKind.ofName name, pendingName := "", state := .afterName }
  | equals : c.delim = .none → c.state = .afterName → c.Moves { c with state := .beforeValue }
  | noValue : c.delim = .none → c.state = .afterName ∨ c.state = .beforeValue →
      c.Moves { c with state := .tag, attr := .none }
  | enter (delim : Delim) : delim ≠ .none → c.delim = .none → c.state = .beforeValue →
      c.Moves (c.enterValue delim)

/-- A move that leaves the context as it is. -/
theorem Moves.stay (c : Context) : c.Moves c := by
  have := Moves.inner (c := c) []
  rwa [advanceInner_nil] at this

theorem valueStep_moves {c : Context} (hd : c.delim ≠ .none) (cs : List Char) :
    c.Moves (c.valueStep cs).1 := by
  unfold valueStep
  dsimp only
  split
  · exact .inner _
  · exact .leave _ hd

theorem bodyStep_moves {c : Context} (hb : c.inElementBody = true) (cs : List Char) :
    c.Moves (c.bodyStep cs).1 := by
  unfold bodyStep
  split
  · exact .inner _
  · exact .endTag hb

theorem opened?_moves {c next : Context} (hd : c.delim = .none) (hs : c.state = .text)
    {cs rest : List Char} (h : c.opened? cs = some (next, rest)) : c.Moves next := by
  unfold opened? at h
  split at h
  · cases h; exact .startTag _ hd hs
  · cases h; exact .startTag _ hd hs
  · cases h; exact .comment hd hs
  · split at h
    · cases h; exact .startTag _ hd hs
    · cases h
  · split at h
    · cases h; exact .startTag _ hd hs
    · cases h

theorem textStep_moves {c : Context} (hd : c.delim = .none) (hs : c.state = .text)
    (cs : List Char) : c.Moves (c.textStep cs).1 := by
  induction cs with
  | nil => exact .stay c
  | cons x xs ih =>
    unfold textStep
    split
    · split
      · next h => exact opened?_moves hd hs h
      · exact ih
    · exact ih

theorem tagNameStep_moves {c : Context} (hd : c.delim = .none) (hs : c.state = .tagName)
    (cs : List Char) : c.Moves (c.tagNameStep cs).1 := by
  unfold tagNameStep
  dsimp only
  split
  · exact .name _ hd (.inl hs)
  · exact .tagNamed _ hd hs

theorem tagStep_moves {c : Context} (hd : c.delim = .none) (hs : c.state = .tag)
    (cs : List Char) : c.Moves (c.tagStep cs).1 := by
  unfold tagStep
  split
  · exact .stay c
  · split
    · exact .close hd hs
    · exact .attrStart hd hs

theorem attrNameStep_moves {c : Context} (hd : c.delim = .none) (hs : c.state = .attrName)
    (cs : List Char) : c.Moves (c.attrNameStep cs).1 := by
  unfold attrNameStep
  dsimp only
  split
  · exact .name _ hd (.inr hs)
  · exact .attrNamed _ hd hs

theorem afterNameStep_moves {c : Context} (hd : c.delim = .none) (hs : c.state = .afterName)
    (cs : List Char) : c.Moves (c.afterNameStep cs).1 := by
  unfold afterNameStep
  split
  · exact .stay c
  · split
    · exact .equals hd hs
    · exact .noValue hd (.inl hs)

theorem beforeValueStep_moves {c : Context} (hd : c.delim = .none) (hs : c.state = .beforeValue)
    (cs : List Char) : c.Moves (c.beforeValueStep cs).1 := by
  unfold beforeValueStep
  split
  · exact .stay c
  · split
    · exact .noValue hd (.inr hs)
    split
    · exact .enter _ (by decide) hd hs
    split
    · exact .enter _ (by decide) hd hs
    · exact .enter _ (by decide) hd hs

theorem commentStep_moves {c : Context} (hd : c.delim = .none) (hs : c.state = .comment)
    (cs : List Char) : c.Moves (c.commentStep cs).1 := by
  unfold commentStep leave
  split
  · exact .commentEnd hd hs
  · exact .stay c

theorem step_of_tag {c : Context} (hd : c.delim = .none) (hs : c.state = .tag) (cs : List Char) :
    c.step cs = c.tagStep cs := by
  have hb : c.inElementBody = false := by simp [inElementBody, hs]
  rw [step, if_neg (by simp [hd]), if_neg (by simp [hb]), hs]

/-- Every step of a scan is a move. -/
theorem step_moves (c : Context) (cs : List Char) : c.Moves (c.step cs).1 := by
  unfold step
  split
  · next hd => exact valueStep_moves hd cs
  · next hd =>
    have hd : c.delim = .none := by simpa using hd
    split
    · next hb => exact bodyStep_moves hb cs
    · split
      · next hs => exact textStep_moves hd hs cs
      · next hs => exact tagNameStep_moves hd hs cs
      · next hs => exact tagStep_moves hd hs cs
      · next hs => exact attrNameStep_moves hd hs cs
      · next hs => exact afterNameStep_moves hd hs cs
      · next hs => exact beforeValueStep_moves hd hs cs
      · next hs => exact commentStep_moves hd hs cs
      · exact .inner cs

@[simp] theorem advance_nil (c : Context) : c.advance [] = c := by
  rw [advance]

theorem advance_of_isError {c : Context} (h : c.isError = true) (cs : List Char) :
    c.advance cs = c := by
  cases cs with
  | nil => rw [advance]
  | cons x xs => rw [advance, if_pos h]

theorem advance_cons {c : Context} (h : c.isError = false) (x : Char) (xs : List Char) :
    c.advance (x :: xs) = (c.step (x :: xs)).1.advance (c.step (x :: xs)).2 := by
  rw [advance, if_neg (by simp [h])]

/-- Induction along the steps of a scan. -/
@[elab_as_elim]
theorem advance_induction {P : Context → List Char → Prop} (nil : ∀ c, P c [])
    (stuck : ∀ c x xs, c.isError = true → P c (x :: xs))
    (step : ∀ c x xs, c.isError = false →
      P (c.step (x :: xs)).1 (c.step (x :: xs)).2 → P c (x :: xs))
    (c : Context) (cs : List Char) : P c cs :=
  advance.induct P nil stuck (fun c x xs he ih => step c x xs (by simpa using he) ih) c cs

/-- What every move keeps, a scan keeps. -/
theorem advance_preserves {P : Context → Prop}
    (moves : ∀ c d : Context, c.isError = false → c.Moves d → P c → P d) {c : Context} (h : P c)
    (cs : List Char) : P (c.advance cs) := by
  induction c, cs using advance_induction with
  | nil c => rwa [advance_nil]
  | stuck c x xs he => rwa [advance_of_isError he]
  | step c x xs he ih =>
    rw [advance_cons he]
    exact ih (moves c _ he (step_moves c (x :: xs)) h)

end Context

end Stencil.Markup
