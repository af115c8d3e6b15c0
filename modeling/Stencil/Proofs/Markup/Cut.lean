import Stencil.Proofs.Escape.Reference
import Stencil.Proofs.Markup.Closing
import Stencil.Proofs.Markup.CutInside
import Stencil.Proofs.Markup.Fault

/-!
# A text in two pieces

A scan reads a text in two pieces as it reads the whole, if no step looks from the one piece into
the other (`Context.uncut`, `advance_append`). What has been read of a name is part of the context,
and so names may be cut, and so may blanks, values without a grammar of their own and line comments.
Not so the opening of a tag or a comment, the end of a comment, a character reference, an end tag in
a body and, inside values and bodies, what `Context.uncutInside` says.

A value or a body that ends in the second piece may be cut anywhere, unless the first one has a
fault.
-/

set_option autoImplicit false

namespace Stencil.Markup

open Stencil.Text Stencil.Escape

/-! ## Readers -/

/-- Whether every reference that a text starts is the same with more text behind it. -/
def uncutReferences (more : List Char) : List Char → Bool
  | [] => true
  | x :: rest =>
    (x != '&' || reference? (rest ++ more) = (reference? rest).map fun found =>
      (found.1, found.2 ++ more)) && uncutReferences more rest

theorem skipSemicolon_suffix (cs : List Char) : skipSemicolon cs <:+ cs := by
  unfold skipSemicolon
  split
  · exact List.suffix_cons _ _
  · exact List.suffix_rfl

theorem suffix_of_numbered? {base : Nat} {inBase : Char → Bool} {cs rest : List Char} {c : Char}
    (h : numbered? base inBase cs = some (c, rest)) : rest <:+ cs := by
  unfold numbered? at h
  dsimp only at h
  split at h
  · cases h
  · cases h
    exact (skipSemicolon_suffix _).trans (List.drop_suffix _ _)

/-- A reference leaves the end of a text. -/
theorem suffix_of_reference? {cs rest : List Char} {c : Char}
    (h : reference? cs = some (c, rest)) : rest <:+ cs := by
  unfold reference? at h
  split at h
  · unfold numericReference? at h
    split at h
    · exact ((suffix_of_numbered? h).trans (List.suffix_cons _ _)).trans (List.suffix_cons _ _)
    · exact ((suffix_of_numbered? h).trans (List.suffix_cons _ _)).trans (List.suffix_cons _ _)
    · exact (suffix_of_numbered? h).trans (List.suffix_cons _ _)
  · unfold namedReference? at h
    dsimp only at h
    split at h
    · next heq =>
      obtain ⟨_, _, hc⟩ := Option.map_eq_some_iff.mp h
      cases hc
      have behind := List.drop_suffix (cs.takeWhile isAlphanumeric).length cs
      rw [heq] at behind
      exact (List.suffix_cons _ _).trans behind
    · cases h

theorem uncutReferences_suffix {more tail cs : List Char} (hsuffix : tail <:+ cs)
    (h : uncutReferences more cs = true) : uncutReferences more tail = true := by
  induction cs with
  | nil => rwa [List.suffix_nil.mp hsuffix]
  | cons x rest ih =>
    rcases List.suffix_cons_iff.mp hsuffix with rfl | hrest
    · exact h
    · exact ih hrest (Bool.and_eq_true_iff.mp h).2

theorem decodeEntities_ampersand {cs : List Char} (h : reference? cs = none) :
    decodeEntities ('&' :: cs) = '&' :: decodeEntities cs := by
  rw [decodeEntities, if_pos rfl]
  split
  · next heq =>
    rw [h] at heq
    cases heq
  · rfl

/-- Where no reference is cut, the pieces of a value stand for what the whole stands for. -/
theorem decodeEntities_append {more cs : List Char} (h : uncutReferences more cs = true) :
    decodeEntities (cs ++ more) = decodeEntities cs ++ decodeEntities more := by
  induction cs using decodeEntities.induct with
  | case1 =>
    rw [decodeEntities.eq_def []]
    rfl
  | case2 rest d after hfound ih =>
    obtain ⟨here, later⟩ := Bool.and_eq_true_iff.mp h
    have both : reference? (rest ++ more) = some (d, after ++ more) := by
      simpa [hfound] using here
    rw [List.cons_append, decodeEntities_reference both, decodeEntities_reference hfound,
      ih (uncutReferences_suffix (suffix_of_reference? hfound) later)]
    rfl
  | case3 rest hfound ih =>
    obtain ⟨here, later⟩ := Bool.and_eq_true_iff.mp h
    have both : reference? (rest ++ more) = none := by
      simpa [hfound] using here
    rw [List.cons_append, decodeEntities_ampersand both, decodeEntities_ampersand hfound, ih later]
    rfl
  | case4 c rest hne ih =>
    obtain ⟨-, later⟩ := Bool.and_eq_true_iff.mp h
    rw [List.cons_append, decodeEntities_cons_of_ne hne, decodeEntities_cons_of_ne hne, ih later]
    rfl

/-- Whether a less-than sign opens the same with more text behind it. -/
def uncutOpened (more : List Char) : List Char → Bool
  | [] | ['/'] => more.head?.all isLetter
  | ['!'] => !(['-', '-'].isPrefixOf more)
  | ['!', '-'] => more.head? != some '-'
  | _ => true

/-- Whether no less-than sign is cut off from what it opens, up to the first one that opens
something. -/
def Context.uncutBrackets (c : Context) (more : List Char) : List Char → Bool
  | [] => true
  | x :: rest =>
    if x = '<' then uncutOpened more rest && ((c.opened? rest).isSome || c.uncutBrackets more rest)
    else c.uncutBrackets more rest

/-- Whether no end tag is cut, up to the first one. -/
def uncutEndTag (name more : List Char) : List Char → Bool
  | [] => true
  | x :: rest =>
    endTag? name (x :: rest ++ more) = (endTag? name (x :: rest)).map (· ++ more) &&
      ((endTag? name (x :: rest)).isSome || uncutEndTag name more rest)

theorem cutEndTag_behind {name more cs : List Char} (h : uncutEndTag name more cs = true) :
    cutEndTag name (cs ++ more) =
      match cutEndTag name cs with
      | some parts => some (parts.1, parts.2 ++ more)
      | none => (cutEndTag name more).map fun parts => (cs ++ parts.1, parts.2) := by
  induction cs with
  | nil => simp [cutEndTag]
  | cons x rest ih =>
    rw [uncutEndTag, Bool.and_eq_true, decide_eq_true_eq, Bool.or_eq_true] at h
    obtain ⟨here, later⟩ := h
    rw [cutEndTag, List.cons_append, cutEndTag, ← List.cons_append, here]
    cases hx : endTag? name (x :: rest) with
    | some after => rfl
    | none =>
      rw [hx] at later
      rw [Option.map_none, ih (later.resolve_left Bool.false_ne_true)]
      cases cutEndTag name rest with
      | some parts => rfl
      | none =>
        rw [Option.map_map]
        rfl

namespace Context

variable {c : Context}

theorem opened?_slash (c : Context) (x : Char) (rest : List Char) :
    c.opened? ('/' :: x :: rest) = if isLetter x then some (c.startTag true, x :: rest) else none :=
  rfl

theorem opened?_bang (c : Context) (rest : List Char) :
    c.opened? ('!' :: rest) =
      if ['-', '-'].isPrefixOf rest then some ({ c with state := .comment }, rest.drop 2)
      else none := by
  unfold opened?
  split
  · next heq => cases heq
  · next heq => cases heq
  · next heq =>
    cases heq
    rfl
  · next heq => cases heq
  · next hcomment _ heq =>
    cases heq
    have other : ¬ ['-', '-'].isPrefixOf rest = true := by
      intro hprefix
      obtain ⟨tail, rfl⟩ := List.isPrefixOf_iff_prefix.mp hprefix
      exact hcomment tail rfl rfl
    rw [if_neg other, if_neg (by decide)]

theorem opened?_other {x : Char} (hslash : x ≠ '/') (hbang : x ≠ '!') (rest : List Char) :
    c.opened? (x :: rest) = if isLetter x then some (c.startTag false, x :: rest) else none := by
  unfold opened?
  split
  · next heq => cases heq
  · next heq => exact absurd (List.cons.inj heq).1 hslash
  · next heq => exact absurd (List.cons.inj heq).1 hbang
  · next heq => exact absurd (List.cons.inj heq).1 hslash
  · next heq =>
    cases heq
    rfl

theorem opened?_append {more rest : List Char} (h : uncutOpened more rest = true) :
    c.opened? (rest ++ more) = (c.opened? rest).map fun next => (next.1, next.2 ++ more) := by
  cases more with
  | nil => simp
  | cons y tail =>
    cases rest with
    | nil =>
      have hy : isLetter y = true := h
      have hslash : y ≠ '/' := by
        rintro rfl
        cases hy
      have hbang : y ≠ '!' := by
        rintro rfl
        cases hy
      rw [List.nil_append, opened?_other hslash hbang, if_pos hy]
      rfl
    | cons x others =>
      rw [List.cons_append]
      by_cases hslash : x = '/'
      · subst hslash
        cases others with
        | nil =>
          have hy : isLetter y = true := h
          rw [List.nil_append, opened?_slash, if_pos hy]
          rfl
        | cons z behind =>
          rw [List.cons_append, opened?_slash, opened?_slash]
          split <;> rfl
      by_cases hbang : x = '!'
      · subst hbang
        rw [opened?_bang, opened?_bang]
        by_cases hprefix : ['-', '-'].isPrefixOf others = true
        · obtain ⟨behind, rfl⟩ := List.isPrefixOf_iff_prefix.mp hprefix
          rfl
        · have other : ¬ ['-', '-'].isPrefixOf (others ++ y :: tail) = true := by
            match others with
            | [] =>
              rw [List.nil_append]
              simpa only [uncutOpened, Bool.not_eq_true, Bool.not_eq_true'] using h
            | [z] =>
              by_cases hz : z = '-'
              · subst hz
                have hy : y ≠ '-' := by simpa [uncutOpened] using h
                simp [List.isPrefixOf, hy.symm]
              · simp [List.isPrefixOf, Ne.symm hz]
            | z :: w :: behind => simpa [List.isPrefixOf] using hprefix
          rw [if_neg hprefix, if_neg other]
          rfl
      · rw [opened?_other hslash hbang, opened?_other hslash hbang]
        split <;> rfl

/-! ## Steps outside of values and bodies -/

theorem textStep_carries {cs more : List Char} (h : c.uncutBrackets more cs = true) :
    Carries textStep c cs more := by
  have split : c.textStep (cs ++ more) = ((c.textStep cs).1, (c.textStep cs).2 ++ more) ∨
      c.textStep cs = (c, []) ∧ c.textStep (cs ++ more) = c.textStep more := by
    induction cs with
    | nil => exact .inr ⟨rfl, rfl⟩
    | cons x rest ih =>
      rw [uncutBrackets] at h
      rw [List.cons_append, textStep, textStep]
      split at h
      · next hx =>
        obtain ⟨hopened, hlater⟩ := Bool.and_eq_true_iff.mp h
        rw [if_pos hx, if_pos hx, opened?_append hopened]
        cases hrest : c.opened? rest with
        | some next => exact .inl rfl
        | none =>
          rw [hrest] at hlater
          exact ih hlater
      · next hx =>
        rw [if_neg hx, if_neg hx]
        exact ih h
  rcases split with hdone | ⟨hcs, hmore⟩
  · exact .done hdone
  · exact .onward c rfl rfl hcs hmore

theorem extendName_append (c : Context) (cs more : List Char) :
    c.extendName (cs ++ more) = (c.extendName cs).extendName more := by
  simp [extendName, String.append_assoc]

/-- A step that reads a name goes on with more of the name. -/
theorem name_carries {p : Char → Bool} {f : Context → List Char → Context × List Char}
    (next : Context → Context)
    (inside : ∀ d ys, ys.dropWhile p = [] → f d ys = (d.extendName (ys.takeWhile p), []))
    (behind : ∀ d ys x rest, ys.dropWhile p = x :: rest →
      f d ys = (next (d.extendName (ys.takeWhile p)), x :: rest)) (cs more : List Char) :
    Carries f c cs more := by
  rcases run_cases p cs more with ⟨hdrop, htake, hbehind⟩ | ⟨hdrop, hall, htake, hbehind⟩
  · obtain ⟨x, rest, hx⟩ := List.exists_cons_of_ne_nil hdrop
    rw [hx, List.cons_append] at hbehind
    refine .done ?_
    rw [behind c _ x _ hbehind, behind c _ x _ hx, htake]
    rfl
  · have plain := inside c cs hdrop
    rw [hall] at plain
    refine .onward (c.extendName cs) rfl rfl plain ?_
    cases hmore : more.dropWhile p with
    | nil =>
      rw [inside c _ (hbehind.trans hmore), inside _ _ hmore, htake, extendName_append]
    | cons x rest =>
      rw [behind c _ x _ (hbehind.trans hmore), behind _ _ x _ hmore, htake, extendName_append]

theorem tagNameStep_carries (cs more : List Char) : Carries tagNameStep c cs more := by
  refine name_carries (p := isTagNamePart) (fun d => { d with
    element := if d.endTag then .none else Element.ofName d.pendingName,
    pendingName := "", state := .tag }) ?_ ?_ cs more
  · intro d ys h
    unfold tagNameStep
    dsimp only
    rw [drop_takeWhile, h]
  · intro d ys x rest h
    unfold tagNameStep
    dsimp only
    rw [drop_takeWhile, h]

theorem attrNameStep_carries (cs more : List Char) : Carries attrNameStep c cs more := by
  refine name_carries (p := isAttrNamePart) (fun d => { d with
    attr := AttrKind.ofName d.pendingName, pendingName := "", state := .afterName }) ?_ ?_ cs more
  · intro d ys h
    unfold attrNameStep
    dsimp only
    rw [drop_takeWhile, h]
  · intro d ys x rest h
    unfold attrNameStep
    dsimp only
    rw [drop_takeWhile, h]

/-- A step that passes over a run of characters goes on in the run. -/
theorem blanks_carries {p : Char → Bool} {f : Context → List Char → Context × List Char}
    {next : Context → Char → List Char → Context × List Char}
    (read : ∀ d ys, f d ys = match ys.dropWhile p with
      | [] => (d, [])
      | x :: rest => next d x rest)
    (hnext : ∀ x rest more, next c x (rest ++ more) =
      ((next c x rest).1, (next c x rest).2 ++ more)) (cs more : List Char) :
    Carries f c cs more := by
  rcases run_cases p cs more with ⟨hdrop, -, hbehind⟩ | ⟨hdrop, -, -, hbehind⟩
  · obtain ⟨x, rest, hx⟩ := List.exists_cons_of_ne_nil hdrop
    rw [hx, List.cons_append] at hbehind
    refine .done ?_
    simp only [read, hbehind, hx, hnext]
  · refine .onward c rfl rfl ?_ ?_
    · simp only [read, hdrop]
    · simp only [read, hbehind]

theorem tagStep_carries (cs more : List Char) : Carries tagStep c cs more := by
  refine blanks_carries (fun d ys => rfl) (fun x rest more => ?_) cs more
  split <;> rfl

theorem afterNameStep_carries (cs more : List Char) : Carries afterNameStep c cs more := by
  refine blanks_carries (fun d ys => rfl) (fun x rest more => ?_) cs more
  split <;> rfl

theorem beforeValueStep_carries (cs more : List Char) : Carries beforeValueStep c cs more := by
  refine blanks_carries (fun d ys => rfl) (fun x rest more => ?_) cs more
  split
  · rfl
  split
  · rfl
  split <;> rfl

theorem commentStep_carries {cs more : List Char}
    (h : uncutPattern ['-', '-', '>'] cs more = true) : Carries commentStep c cs more :=
  leave_carries (fun d => { d with state := .text }) (resumes_after? h)

/-- What a step outside of values and bodies carries over, a text goes on from. -/
theorem Carries.advance {f : Context → List Char → Context × List Char} {x : Char}
    {xs more : List Char} (ok : c.isError = false)
    (read : ∀ d : Context, d.state = c.state → d.delim = c.delim → ∀ ys, d.step ys = f d ys)
    (h : Carries f c (x :: xs) more) :
    c.advance (x :: xs ++ more) =
      (c.step (x :: xs)).1.advance ((c.step (x :: xs)).2 ++ more) := by
  rw [List.cons_append, advance_cons ok, read c rfl rfl, read c rfl rfl, ← List.cons_append]
  cases h with
  | done h => rw [h]
  | onward d hs hd hcs h =>
    have ok' : d.isError = false := by rwa [isError, hs]
    rw [hcs, h]
    cases more with
    | nil =>
      rw [List.append_nil, hcs] at h
      rw [← h, List.append_nil]
    | cons y ys => rw [List.nil_append, advance_cons ok', read d hs hd]
  | stuck d hd hcs h => rw [h, hcs, advance_of_isError hd, advance_of_isError hd]

/-! ## Values -/

theorem advanceInner_of_attr (hs : c.state = .attr) (cs : List Char) : c.advanceInner cs = c := by
  cases cs with
  | nil => exact advanceInner_nil c
  | cons x xs =>
    have ok : c.isError = false := by rw [isError, hs]; rfl
    rw [advanceInner_cons ok, innerStep, hs]
    exact advanceInner_nil c

theorem Within.leaveAttr {d : Context} (h : c.Within d) : d.leaveAttr = c.leaveAttr := by
  rw [h.same]
  rfl

/-- A context in the same value as another, or behind a fault in it. -/
def WithinOrFailed (c d : Context) : Prop := d = .failed .slash ∨ c.Within d

theorem advanceInner_withinOrFailed (c : Context) (cs : List Char) :
    c.WithinOrFailed (c.advanceInner cs) :=
  (advanceInner_within c cs).imp_left And.left

theorem WithinOrFailed.advanceInner {d : Context} (h : c.WithinOrFailed d) (cs : List Char) :
    c.WithinOrFailed (d.advanceInner cs) := by
  rcases h with rfl | hw
  · exact .inl (advanceInner_of_isError rfl cs)
  · exact (d.advanceInner_withinOrFailed cs).imp_right hw.trans

/-- What is left behind a value tells of it only whether it had a fault. -/
theorem WithinOrFailed.leaveAttr_eq {d e : Context} (hd : c.WithinOrFailed d)
    (he : c.WithinOrFailed e) (ok : c.isError = false) (h : d.isError = e.isError) :
    d.leaveAttr = e.leaveAttr ∧ d.delim = e.delim := by
  rcases hd with rfl | hd <;> rcases he with rfl | he
  · exact ⟨rfl, rfl⟩
  · rw [he.isError, ok] at h
    cases h
  · rw [hd.isError, ok] at h
    cases h
  · exact ⟨hd.leaveAttr.trans he.leaveAttr.symm, hd.delim.trans he.delim.symm⟩

/-- Whether a cut through a value goes through no reference and nothing that the value's grammar
reads as one. A value that ends behind the cut may be cut anywhere if that hides no fault and makes
none. -/
def uncutValue (c : Context) (more cs : List Char) : Bool :=
  let inside := more.takeWhile fun x => !c.delim.ends x
  let first := c.advanceInner (decodeEntities cs)
  cs.any c.delim.ends ||
    if more.any c.delim.ends then
      !first.isError && (first.advanceInner (decodeEntities inside)).isError ==
        (c.advanceInner (decodeEntities (cs ++ inside))).isError
    else
      c.state == .attr || uncutReferences more cs &&
        c.uncutInside (decodeEntities more) (decodeEntities cs)

theorem value_append {x : Char} {xs more : List Char} (ok : c.isError = false)
    (hd : c.delim ≠ .none) (h : c.uncutValue more (x :: xs) = true) :
    c.advance (x :: xs ++ more) =
      (c.step (x :: xs)).1.advance ((c.step (x :: xs)).2 ++ more) := by
  rw [step, if_pos hd]
  generalize x :: xs = cs at h ⊢
  by_cases hends : cs.any c.delim.ends = true
  · obtain ⟨run, d, rest, rfl, hopen, hclose⟩ := exists_first hends
    rw [List.append_assoc, List.cons_append, advance_of_closed ok hd hopen hclose,
      valueStep_of_closed hopen hclose]
    split <;> rfl
  unfold uncutValue at h
  dsimp only at h
  have hopen : ∀ x ∈ cs, c.delim.ends x = false := by simpa using hends
  rw [Bool.or_eq_true, or_iff_right hends] at h
  rw [valueStep_of_open hopen, List.nil_append]
  have first := c.advanceInner_withinOrFailed (decodeEntities cs)
  have within (herror : (c.advanceInner (decodeEntities cs)).isError = false) :
      c.Within (c.advanceInner (decodeEntities cs)) := by
    rcases first with hfailed | hw
    · rw [hfailed] at herror
      cases herror
    · exact hw
  by_cases hmore : more.any c.delim.ends = true
  · -- the value ends behind the cut
    rw [if_pos hmore, Bool.and_eq_true, Bool.not_eq_true', beq_iff_eq] at h
    obtain ⟨run, d, rest, rfl, hrun, hclose⟩ := exists_first hmore
    have hdelim := (within h.1).delim
    have inside : (run ++ d :: rest).takeWhile (fun x => !c.delim.ends x) = run :=
      takeWhile_run (fun x hx => by rw [hrun x hx]; rfl) (by simp [hclose])
    rw [inside] at h
    obtain ⟨hleave, hends⟩ := (first.advanceInner (decodeEntities run)).leaveAttr_eq
      (c.advanceInner_withinOrFailed (decodeEntities (cs ++ run))) ok h.2
    have hall : ∀ x ∈ cs ++ run, c.delim.ends x = false := by
      intro x hx
      exact (List.mem_append.mp hx).elim (hopen x) (hrun x)
    rw [← List.append_assoc, advance_of_closed ok hd hall hclose,
      advance_of_closed h.1 (hdelim ▸ hd) (by rwa [hdelim]) (by rwa [hdelim]), hleave, hends]
  · rw [if_neg hmore] at h
    have hbehind : ∀ x ∈ more, c.delim.ends x = false := by simpa using hmore
    have hall : ∀ x ∈ cs ++ more, c.delim.ends x = false := by
      intro x hx
      exact (List.mem_append.mp hx).elim (hopen x) (hbehind x)
    have joined : c.advanceInner (decodeEntities (cs ++ more)) =
        (c.advanceInner (decodeEntities cs)).advanceInner (decodeEntities more) := by
      rcases Bool.or_eq_true_iff.mp h with hattr | huncut
      · have hs : c.state = .attr := by simpa using hattr
        rw [advanceInner_of_attr hs, advanceInner_of_attr hs, advanceInner_of_attr hs]
      · obtain ⟨hreferences, hinside⟩ := Bool.and_eq_true_iff.mp huncut
        rw [decodeEntities_append hreferences, advanceInner_append hinside]
    rw [advance_of_open ok hd hall, joined]
    by_cases herror : (c.advanceInner (decodeEntities cs)).isError = true
    · rw [advanceInner_of_isError herror, advance_of_isError herror]
    · have ok' : (c.advanceInner (decodeEntities cs)).isError = false := by simpa using herror
      have hdelim := (within ok').delim
      rw [advance_of_open ok' (hdelim ▸ hd) (by rwa [hdelim])]

/-! ## Bodies -/

/-- Whether a cut through a body goes through no end tag and nothing that the body's grammar reads
as one. A body that ends behind the cut may be cut anywhere in front of its end tag if that has no
fault. -/
def uncutBody (c : Context) (more cs : List Char) : Bool :=
  let name := c.element.name.toList
  uncutEndTag name more cs &&
    ((cutEndTag name cs).isSome ||
      if (cutEndTag name more).isSome then !(c.advanceInner cs).isError
      else c.uncutInside more cs)

theorem inElementBody_of_kind (h : c.state.kind ≠ .none) :
    c.inElementBody = (c.element != .none && c.delim == .none) := by
  unfold inElementBody
  cases hs : c.state
  all_goals first
    | exact Bool.and_true _
    | exact absurd (by rw [hs]; rfl) h

theorem Within.inElementBody {d : Context} (h : c.Within d) :
    d.inElementBody = c.inElementBody := by
  by_cases hkind : c.state.kind = .none
  · unfold Context.inElementBody
    rw [h.element, h.delim, h.fixed hkind]
  · rw [inElementBody_of_kind hkind, inElementBody_of_kind (h.kind ▸ hkind), h.element, h.delim]

theorem body_append {x : Char} {xs more : List Char} (ok : c.isError = false)
    (hb : c.inElementBody = true) (h : c.uncutBody more (x :: xs) = true) :
    c.advance (x :: xs ++ more) =
      (c.step (x :: xs)).1.advance ((c.step (x :: xs)).2 ++ more) := by
  rw [step, if_neg (not_value_of_inElementBody hb), if_pos hb, bodyStep]
  generalize x :: xs = cs at h ⊢
  obtain ⟨htag, hinside⟩ := Bool.and_eq_true_iff.mp h
  have hbehind := cutEndTag_behind htag
  cases hcs : cutEndTag c.element.name.toList cs with
  | some parts =>
    rw [hcs] at hbehind
    rw [advance_of_ended ok hb hbehind]
  | none =>
    rw [hcs] at hbehind hinside
    rw [Option.isSome_none, Bool.false_or] at hinside
    rw [List.nil_append]
    have first := c.advanceInner_withinOrFailed cs
    cases hmore : cutEndTag c.element.name.toList more with
    | some parts =>
      -- the body ends behind the cut
      rw [hmore] at hbehind hinside
      have ok' : (c.advanceInner cs).isError = false := by simpa using hinside
      rcases first with hfailed | hw
      · rw [hfailed] at ok'
        cases ok'
      · have hb' : (c.advanceInner cs).inElementBody = true := hw.inElementBody.trans hb
        rw [advance_of_ended ok hb hbehind, advance_of_ended ok' hb' (hw.element ▸ hmore)]
    | none =>
      rw [hmore] at hbehind hinside
      rw [advance_of_body ok hb hbehind, advanceInner_append hinside]
      rcases first with hfailed | hw
      · rw [hfailed, advanceInner_of_isError rfl, advance_of_isError rfl]
      · have ok' : (c.advanceInner cs).isError = false := hw.isError.trans ok
        have hb' : (c.advanceInner cs).inElementBody = true := hw.inElementBody.trans hb
        rw [advance_of_body ok' hb' (hw.element ▸ hmore)]

/-! ## Scans -/

/-- Whether a step over a text with more behind it does not read the end of the text and what is
behind it as one. -/
def uncutStep (c : Context) (more cs : List Char) : Bool :=
  if c.delim ≠ .none then c.uncutValue more cs
  else if c.inElementBody then c.uncutBody more cs
  else match c.state with
    | .text => c.uncutBrackets more cs
    | .comment => uncutPattern ['-', '-', '>'] cs more
    | .tagName | .tag | .attrName | .afterName | .beforeValue => true
    | _ => c.uncutInside more cs

/-- Where no value and no body is read, the state tells what a step does. -/
theorem step_of_outside (hd : c.delim = .none) (hb : c.inElementBody = false) (cs : List Char) :
    c.step cs =
      match c.state with
      | .text => c.textStep cs
      | .tagName => c.tagNameStep cs
      | .tag => c.tagStep cs
      | .attrName => c.attrNameStep cs
      | .afterName => c.afterNameStep cs
      | .beforeValue => c.beforeValueStep cs
      | .comment => c.commentStep cs
      | _ => (c.advanceInner cs, []) := by
  unfold step
  exact (if_neg (by simp [hd])).trans (if_neg (by simp [hb]))

/-- A value's or a body's state that stands outside of both is read to the end of the text. -/
theorem step_of_kind (hd : c.delim = .none) (hb : c.inElementBody = false)
    (hs : c.state.kind ≠ .none ∨ c.state = .rcdata) (cs : List Char) :
    c.step cs = (c.advanceInner cs, []) := by
  rw [step_of_outside hd hb]
  split
  case h_8 => rfl
  all_goals
    next heq =>
    rw [heq] at hs
    rcases hs with hkind | hrcdata
    · exact absurd rfl hkind
    · cases hrcdata

theorem Within.kind_or_rcdata {d : Context} (h : c.Within d)
    (hs : c.state.kind ≠ .none ∨ c.state = .rcdata) :
    d.state.kind ≠ .none ∨ d.state = .rcdata := by
  rcases hs with hkind | hrcdata
  · exact .inl (h.kind ▸ hkind)
  · exact .inr ((h.fixed (by rw [hrcdata]; rfl)).trans hrcdata)

theorem inner_append {x : Char} {xs more : List Char} (ok : c.isError = false)
    (hd : c.delim = .none) (hb : c.inElementBody = false)
    (hs : c.state.kind ≠ .none ∨ c.state = .rcdata) (h : c.uncutInside more (x :: xs) = true) :
    c.advance (x :: xs ++ more) =
      (c.step (x :: xs)).1.advance ((c.step (x :: xs)).2 ++ more) := by
  rw [List.cons_append, advance_cons ok, step_of_kind hd hb hs, step_of_kind hd hb hs,
    ← List.cons_append, List.nil_append, advance_nil, advanceInner_append h]
  rcases c.advanceInner_withinOrFailed (x :: xs) with hfailed | hw
  · rw [hfailed, advanceInner_of_isError rfl, advance_of_isError rfl]
  · cases more with
    | nil => rw [advanceInner_nil, advance_nil]
    | cons y ys =>
      rw [advance_cons (hw.isError.trans ok), step_of_kind (hw.delim.trans hd)
        (hw.inElementBody.trans hb) (hw.kind_or_rcdata hs), advance_nil]

theorem step_append {x : Char} {xs more : List Char} (ok : c.isError = false)
    (h : c.uncutStep more (x :: xs) = true) :
    c.advance (x :: xs ++ more) =
      (c.step (x :: xs)).1.advance ((c.step (x :: xs)).2 ++ more) := by
  unfold uncutStep at h
  split at h
  · next hd => exact value_append ok hd h
  next hd =>
  split at h
  · next hb => exact body_append ok hb h
  next hb =>
  have hd : c.delim = .none := by simpa using hd
  have hb : c.inElementBody = false := by simpa using hb
  have outside (s : State) (f : Context → List Char → Context × List Char) (hs : c.state = s)
      (read : ∀ d : Context, d.state = s → d.delim = .none → ∀ ys, d.step ys = f d ys)
      (carries : Carries f c (x :: xs) more) :=
    carries.advance ok (hs ▸ hd ▸ read)
  cases hs : c.state <;> rw [hs] at h
  case text =>
    exact outside .text textStep hs
      (fun d hs hd ys => by rw [step_of_outside hd (by simp [inElementBody, hs]), hs])
      (textStep_carries h)
  case comment =>
    exact outside .comment commentStep hs
      (fun d hs hd ys => by rw [step_of_outside hd (by simp [inElementBody, hs]), hs])
      (commentStep_carries h)
  case tagName =>
    exact outside .tagName tagNameStep hs
      (fun d hs hd ys => by rw [step_of_outside hd (by simp [inElementBody, hs]), hs])
      (tagNameStep_carries _ more)
  case tag =>
    exact outside .tag tagStep hs (fun d hs hd ys => step_of_tag hd hs ys) (tagStep_carries _ more)
  case attrName =>
    exact outside .attrName attrNameStep hs
      (fun d hs hd ys => by rw [step_of_outside hd (by simp [inElementBody, hs]), hs])
      (attrNameStep_carries _ more)
  case afterName =>
    exact outside .afterName afterNameStep hs
      (fun d hs hd ys => by rw [step_of_outside hd (by simp [inElementBody, hs]), hs])
      (afterNameStep_carries _ more)
  case beforeValue =>
    exact outside .beforeValue beforeValueStep hs
      (fun d hs hd ys => by rw [step_of_outside hd (by simp [inElementBody, hs]), hs])
      (beforeValueStep_carries _ more)
  case rcdata => exact inner_append ok hd hb (.inr hs) h
  case error => rw [isError, hs] at ok; cases ok
  all_goals exact inner_append ok hd hb (.inl (by rw [hs]; decide)) h

/-- Whether no step of a scan over a text with more behind it reads the end of the text and what is
behind it as one. -/
def uncut (c : Context) (more : List Char) : List Char → Bool
  | [] => true
  | x :: xs =>
    c.isError ||
      (c.uncutStep more (x :: xs) && (c.step (x :: xs)).1.uncut more (c.step (x :: xs)).2)
termination_by cs => c.steps cs
decreasing_by exact steps_step c x xs

/-- A text is read in two pieces as in one, unless something is cut. -/
theorem advance_append {cs more : List Char} (h : c.uncut more cs = true) :
    c.advance (cs ++ more) = (c.advance cs).advance more := by
  induction c, cs using advance_induction with
  | nil c => rw [List.nil_append, advance_nil]
  | stuck c x xs he => rw [advance_of_isError he, advance_of_isError he, advance_of_isError he]
  | step c x xs ok ih =>
    rw [uncut, ok, Bool.false_or, Bool.and_eq_true] at h
    rw [step_append ok h.1, advance_cons ok]
    exact ih h.2

end Context

end Stencil.Markup
