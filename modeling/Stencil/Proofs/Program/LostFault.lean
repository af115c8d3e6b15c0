import Stencil.Proofs.Markup.Shape
import Stencil.Proofs.Markup.Fault
import Stencil.Proofs.Markup.Closing
import Stencil.TemplateSet

/-!
# Faults that are lost

A slash of unknown meaning inside a value or a body makes the context an error, but only to the end
of the value or the body. Where the same text goes on behind it, the scan goes on as in a tag
without a name: behind a value the context still names the fault, until the tag ends
(`Context.closesTag`), and behind a body it names none. Nothing that follows is an error again,
since the meaning of a slash is known from there on (`isError_advance_of_known`).

The analysis refuses a text for the fault that the context behind it names. It therefore misses the
fault exactly where the tag or the body ends in the same text (`fault_lost_behind_value_or_body`).
-/

set_option autoImplicit false

namespace Stencil.Markup.Context

open Stencil.Text

/-! ## Where every slash has a meaning -/

/-- No error, and no slash of unknown meaning ahead. -/
structure Known (c : Context) : Prop where
  ok : c.isError = false
  slash : c.slash ≠ .unknown

theorem Known.within {c : Context} (h : c.Known) (cs : List Char) :
    c.Within (c.advanceInner cs) := by
  rcases advanceInner_within c cs with ⟨-, hu⟩ | hw
  · exact absurd hu h.slash
  · exact hw

theorem Known.moves {c d : Context} (h : c.Known) (m : c.Moves d) : d.Known := by
  cases m with
  | inner cs => exact ⟨(h.within cs).isError.trans h.ok, (h.within cs).known h.slash⟩
  | leave | endTag => exact ⟨rfl, nofun⟩
  | startTag | comment | commentEnd | tagNamed | attrStart | attrNamed | equals | noValue =>
    exact ⟨rfl, h.slash⟩
  | name => exact ⟨h.ok, h.slash⟩
  | close =>
    refine ⟨?_, nofun⟩
    unfold closeTag
    cases (if c.endTag = true then Element.none else c.element) <;> rfl
  | enter delim =>
    refine ⟨?_, nofun⟩
    unfold enterValue
    cases c.attr <;> rfl

/-- Where every slash has a meaning, no text makes an error. -/
theorem isError_advance_of_known {c : Context} (h : c.Known) (cs : List Char) :
    (c.advance cs).isError = false :=
  (advance_preserves (fun _ _ _ m h => Known.moves h m) h cs).ok

/-- There no text makes a context name a fault, either. -/
theorem error_advance_of_known {c : Context} (h : c.Known) (he : c.error = none)
    (cs : List Char) : (c.advance cs).error = none := by
  refine (advance_preserves (P := fun c => c.Known ∧ c.error = none) ?_ ⟨h, he⟩ cs).2
  intro c d _ m ⟨h, he⟩
  refine ⟨h.moves m, ?_⟩
  cases m with
  | inner cs => exact (h.within cs).error.trans he
  | leave cs => exact (h.within cs).error.trans he
  | endTag | close => rfl
  | _ => exact he

/-! ## Up to the end of a tag -/

/-- Whether the next step of a scan goes past the end of a tag. -/
def endsTag (c : Context) (cs : List Char) : Bool :=
  c.delim == .none && c.state == .tag && (cs.dropWhile isTagFiller).head? == some '>'

/-- Whether a scan of a text goes past the end of a tag. -/
def closesTag (c : Context) : List Char → Bool
  | [] => false
  | x :: xs =>
    if c.isError then false
    else c.endsTag (x :: xs) || (c.step (x :: xs)).1.closesTag (c.step (x :: xs)).2
termination_by cs => c.steps cs
decreasing_by exact steps_step c x xs

@[simp] theorem closesTag_nil (c : Context) : c.closesTag [] = false := by
  rw [closesTag]

theorem closesTag_cons {c : Context} (h : c.isError = false) (x : Char) (xs : List Char) :
    c.closesTag (x :: xs) =
      (c.endsTag (x :: xs) || (c.step (x :: xs)).1.closesTag (c.step (x :: xs)).2) := by
  rw [closesTag, if_neg (by simp [h])]

/-- A place in a tag behind its name. -/
structure InTag (c : Context) : Prop where
  known : c.Known
  element : c.element = .none
  place : c.delim ≠ .none ∨
    c.state = .tag ∨ c.state = .attrName ∨ c.state = .afterName ∨ c.state = .beforeValue

/-- A step past the end of a tag goes to a body, or to text. -/
theorem step_of_endsTag {c : Context} {cs : List Char} (h : c.endsTag cs = true) :
    (c.step cs).1 = c.closeTag := by
  simp only [endsTag, Bool.and_eq_true, beq_iff_eq] at h
  obtain ⟨⟨hd, hs⟩, hhead⟩ := h
  rw [step_of_tag hd hs, tagStep]
  obtain ⟨rest, hrest⟩ := List.head?_eq_some_iff.mp hhead
  rw [hrest]
  rfl

/-- Any other step in a tag stays in it and keeps the fault that is named. -/
theorem InTag.step {c : Context} (h : c.InTag) {cs : List Char} (hn : c.endsTag cs = false) :
    (c.step cs).1.InTag ∧ (c.step cs).1.error = c.error := by
  by_cases htag : c.delim = .none ∧ c.state = .tag
  · obtain ⟨hd, hs⟩ := htag
    rw [step_of_tag hd hs, tagStep]
    split
    · exact ⟨h, rfl⟩
    · next x rest heq =>
      have hx : x ≠ '>' := by
        rintro rfl
        simp [endsTag, hd, hs, heq] at hn
      rw [if_neg hx]
      exact ⟨⟨⟨rfl, h.known.slash⟩, h.element, .inr (.inr (.inl rfl))⟩, rfl⟩
  · have known := h.known.moves (step_moves c cs)
    have notValue (hd : c.delim = .none) :
        c.state = .attrName ∨ c.state = .afterName ∨ c.state = .beforeValue := by
      rcases h.place with hne | hs | hs
      · exact absurd hd hne
      · exact absurd ⟨hd, hs⟩ htag
      · exact hs
    -- a move that starts outside of the tag is excluded by the place of `c`
    have m := step_moves c cs
    generalize (c.step cs).1 = d at m known
    cases m with
    | inner cs =>
      have w := h.known.within cs
      refine ⟨⟨known, w.element.trans h.element, ?_⟩, w.error⟩
      by_cases hd : c.delim = .none
      · rw [w.fixed (by rcases notValue hd with hs | hs | hs <;> rw [hs] <;> rfl)]
        exact .inr (.inr (notValue hd))
      · exact .inl (w.delim ▸ hd)
    | leave cs =>
      have w := h.known.within cs
      exact ⟨⟨known, w.element.trans h.element, .inr (.inl rfl)⟩, w.error⟩
    | endTag hb => simp [inElementBody, h.element] at hb
    | startTag _ hd hs | comment hd hs | commentEnd hd hs | tagNamed _ hd hs | close hd hs
    | attrStart hd hs => rcases notValue hd with h | h | h <;> rw [hs] at h <;> cases h
    | name part hd hs => exact ⟨⟨known, h.element, .inr (.inr (notValue hd))⟩, rfl⟩
    | attrNamed => exact ⟨⟨known, h.element, .inr (.inr (.inr (.inl rfl)))⟩, rfl⟩
    | equals => exact ⟨⟨known, h.element, .inr (.inr (.inr (.inr rfl)))⟩, rfl⟩
    | noValue => exact ⟨⟨known, h.element, .inr (.inl rfl)⟩, rfl⟩
    | enter delim hne => exact ⟨⟨known, h.element, .inl hne⟩, rfl⟩

/-- The fault that is named in a tag is named to the end of the tag. -/
theorem error_advance_of_inTag {c : Context} (h : c.InTag) (cs : List Char) :
    (c.advance cs).error = if c.closesTag cs then none else c.error := by
  induction c, cs using advance_induction with
  | nil c =>
    rw [advance_nil, closesTag_nil]
    rfl
  | stuck c x xs he => rw [h.known.ok] at he; cases he
  | step c x xs he ih =>
    rw [advance_cons he, closesTag_cons he]
    cases hend : c.endsTag (x :: xs) with
    | true =>
      have known := h.known.moves (step_moves c (x :: xs))
      rw [error_advance_of_known known (by rw [step_of_endsTag hend]; rfl)]
      rfl
    | false =>
      obtain ⟨hin, herr⟩ := h.step hend
      rw [ih hin, herr, Bool.false_or]

/-! ## Behind a fault -/

/-- The tag in which a scan goes on behind a value whose fault is lost. -/
def lostTag : Context := { state := .tag, error := some .slash }

theorem inTag_lostTag : lostTag.InTag := ⟨⟨rfl, nofun⟩, rfl, .inr (.inl rfl)⟩

theorem advance_of_lost_value {c : Context} (ok : c.isError = false) (hd : c.delim ≠ .none)
    {v : List Char} (hv : ∀ x ∈ v, c.delim.ends x = false) (fault : (c.advance v).isError = true)
    {d : Char} (hend : c.delim.ends d = true) (rest : List Char) :
    c.advance (v ++ d :: rest) = lostTag.advance rest := by
  rw [advance_of_open ok hd hv] at fault
  rw [advance_of_closed ok hd hv hend rest, advanceInner_of_isError_after ok fault]
  rfl

theorem advance_of_lost_body {c : Context} (ok : c.isError = false) (hb : c.inElementBody = true)
    {v d : List Char} (hv : cutEndTag c.element.name.toList v = none)
    (hend : endTag? c.element.name.toList d = some []) {rest : List Char}
    (hr : rest.head?.any isTagNamePart = false) :
    c.advance (v ++ d ++ rest) = endTagOpened.advance rest := by
  obtain ⟨tail, rfl⟩ := exists_of_endTag? hend
  refine advance_of_ended (v := v) ok hb ?_
  rw [List.append_assoc]
  exact cutEndTag_append c.element.not_mem_name hv (endTag?_rest hend hr)

end Stencil.Markup.Context

namespace Stencil.Analysis

open Markup Markup.Context

section Piece

variable {policy : Policy} {c : Context} {cs : List Char}

/-- A text is refused for the fault that the context behind it names. -/
theorem piece_text_of_error {f : Fault} (h : (policy.advance c cs).error = some f) (enter : Enter)
    (here : Location) :
    piece policy enter c (.text (String.ofList cs) here) = ambiguous (.fault f) here := by
  unfold piece
  dsimp only
  rw [String.toList_ofList, h]

/-- A text behind which no fault is named is kept. -/
theorem piece_text_of_none (h : (policy.advance c cs).error = none) (enter : Enter)
    (here : Location) :
    piece policy enter c (.text (String.ofList cs) here) =
      pure (.text (String.ofList cs), policy.advance c cs) := by
  unfold piece
  dsimp only
  rw [String.toList_ofList, h]

end Piece

/-- A fault that a text meets inside a value or a body is refused if the text ends there. If the
value ends first, the context behind the text is no error, and the text is refused only if it does
not go on past the end of the tag; if the body ends first, the text is never refused. -/
theorem fault_lost_behind_value_or_body {c : Context} (ok : c.isError = false) {v : List Char}
    (fault : (c.advance v).isError = true) (enter : Enter) (here : Location) :
    piece .contextual enter c (.text (String.ofList v) here) = ambiguous (.fault .slash) here ∧
    (c.delim ≠ .none → (∀ x ∈ v, c.delim.ends x = false) →
      ∀ d rest, c.delim.ends d = true →
        (c.advance (v ++ d :: rest)).isError = false ∧
        piece .contextual enter c (.text (String.ofList (v ++ d :: rest)) here) =
          if lostTag.closesTag rest then
            pure (.text (String.ofList (v ++ d :: rest)), c.advance (v ++ d :: rest))
          else ambiguous (.fault .slash) here) ∧
    (c.inElementBody = true → cutEndTag c.element.name.toList v = none →
      ∀ d rest, endTag? c.element.name.toList d = some [] → rest.head?.any isTagNamePart = false →
        (c.advance (v ++ d ++ rest)).isError = false ∧
        piece .contextual enter c (.text (String.ofList (v ++ d ++ rest)) here) =
          pure (.text (String.ofList (v ++ d ++ rest)), c.advance (v ++ d ++ rest))) := by
  refine ⟨?_, fun hd hv d rest hend => ?_, fun hb hv d rest hend hr => ?_⟩
  · apply piece_text_of_error
    rw [show Policy.contextual.advance c v = _ from advance_of_isError_after ok fault]
    rfl
  · have lost := advance_of_lost_value ok hd hv fault hend rest
    have named := error_advance_of_inTag inTag_lostTag rest
    refine ⟨?_, ?_⟩
    · rw [lost]
      exact isError_advance_of_known inTag_lostTag.known rest
    · by_cases hclose : lostTag.closesTag rest = true
      · rw [if_pos hclose]
        apply piece_text_of_none
        rw [show Policy.contextual.advance c _ = _ from lost, named, if_pos hclose]
      · rw [if_neg hclose]
        apply piece_text_of_error
        rw [show Policy.contextual.advance c _ = _ from lost, named, if_neg hclose]
        rfl
  · have lost := advance_of_lost_body ok hb hv hend hr
    have known : endTagOpened.Known := ⟨rfl, nofun⟩
    refine ⟨?_, ?_⟩
    · rw [lost]
      exact isError_advance_of_known known rest
    · apply piece_text_of_none
      rw [show Policy.contextual.advance c _ = _ from lost]
      exact error_advance_of_known known rfl rest

/-- The value of an event handler behind branches of which one writes an operand. -/
theorem fault_lost_behind_quote :
    piece .contextual (enter .contextual [] 0)
        { state := .js, delim := .doubleQuote, attr := .script, slash := .unknown }
        (.text (String.ofList ("/2".toList ++ '"' :: ">".toList)) .start) =
      pure (.text (String.ofList ("/2".toList ++ '"' :: ">".toList)), .start) := by
  have lost := ((fault_lost_behind_value_or_body
    (c := { state := .js, delim := .doubleQuote, attr := .script, slash := .unknown }) rfl
    (v := "/2".toList) (by decide +kernel) (enter .contextual [] 0) .start).2.1 nofun
    (fun _ h => Text.prop_of_mem h (by decide)) '"' ">".toList rfl).2
  have start : Context.advance
      { state := .js, delim := .doubleQuote, attr := .script, slash := .unknown }
      ("/2".toList ++ '"' :: ">".toList) = .start := by decide +kernel
  rwa [if_pos (by decide +kernel), start] at lost

/-- A template whose text meets such a slash is compiled. -/
example :
    (compile "page" "<a onclick=\"{{if .X}}x{{end}}/2\">{{.Y}}</a>" .standard).isOk = true := by
  decide +kernel

/-- An error met inside a value is no error any more where the text goes on behind the value. -/
theorem fault_not_kept_behind_quote :
    ¬ ∀ c : Context, c.Reachable → c.isError = false → c.delim ≠ .none →
      ∀ v : List Char, (∀ x ∈ v, c.delim.ends x = false) → (c.advance v).isError = true →
        ∀ d rest, c.delim.ends d = true → (c.advance (v ++ d :: rest)).isError = true := by
  intro keeps
  have code : Reachable (Context.start.advance "<a onclick=\"".toList) := .advance _ .start
  have operand := code.advance "x".toList
  have merged : Reachable
      { state := .js, delim := .doubleQuote, attr := .script, slash := .unknown } :=
    .join code operand (by decide +kernel)
  have := keeps _ merged rfl nofun "/2".toList (fun _ h => Text.prop_of_mem h (by decide))
    (by decide +kernel) '"' [] rfl
  revert this
  decide +kernel

end Stencil.Analysis
