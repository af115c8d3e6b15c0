import Stencil.Proofs.Escape.InPlace
import Stencil.Proofs.Markup.Cut
import Stencil.Proofs.Markup.Ending

/-!
# Values and bodies are read alike

Scripts and style sheets stand in bodies of elements and in values of attributes. The two come to
the grammar inside on different ways: a body is searched for its end tag and read as it is, a value
is searched for its delimiter and has its references replaced. From there on nothing depends on what
is around: a step inside is told by the state, the part of an address and the meaning of a slash
(`SamePoint.innerStep`), and so is a whole text (`SamePoint.advanceInner`).

So a program is read in a quoted value as it is in a body, if it is written into the value by the
rule for values (`samePoint_element_attribute`). A null is the one character that this rule does not
bring through, and an end tag ends a body where no value ends.
-/

set_option autoImplicit false

namespace Stencil.Markup.Context

open Stencil.Text

/-- Two contexts are at the same point of a script, of a style sheet or of an address, whatever they
are inside of. -/
structure SamePoint (c d : Context) : Prop where
  state : c.state = d.state
  urlPart : c.urlPart = d.urlPart
  slash : c.slash = d.slash

/-- Two steps that leave the same text and contexts at the same point. -/
def SamePointStep (r s : Context × List Char) : Prop := r.1.SamePoint s.1 ∧ r.2 = s.2

variable {c d : Context}

theorem SamePoint.refl (c : Context) : c.SamePoint c := ⟨rfl, rfl, rfl⟩

theorem SamePoint.isError (h : c.SamePoint d) : c.isError = d.isError := by
  rw [Context.isError, h.state, Context.isError]

theorem SamePoint.withState (h : c.SamePoint d) (s : State) :
    SamePoint { c with state := s } { d with state := s } :=
  ⟨rfl, h.urlPart, h.slash⟩

theorem SamePoint.withSlash (h : c.SamePoint d) (k : Slash) :
    SamePoint { c with slash := k } { d with slash := k } :=
  ⟨h.state, h.urlPart, rfl⟩

theorem SamePoint.withAddress (h : c.SamePoint d) (s : State) (u : UrlPart) :
    SamePoint { c with state := s, urlPart := u } { d with state := s, urlPart := u } :=
  ⟨rfl, rfl, h.slash⟩

theorem samePoint_leave {next other : Context} (h : c.SamePoint d) (hn : next.SamePoint other)
    (ending : Option (List Char)) :
    SamePointStep (c.leave ending next) (d.leave ending other) := by
  cases ending with
  | none => exact ⟨h, rfl⟩
  | some rest => exact ⟨hn, rfl⟩

theorem SamePoint.afterOperand (h : c.SamePoint d) : c.afterOperand.SamePoint d.afterOperand :=
  ⟨rfl, h.urlPart, rfl⟩

theorem SamePoint.slashStep (h : c.SamePoint d) (rest : List Char) :
    SamePointStep (c.slashStep rest) (d.slashStep rest) := by
  unfold Context.slashStep
  split
  · exact ⟨h.withState _, rfl⟩
  · exact ⟨h.withState _, rfl⟩
  · rw [h.slash]
    cases d.slash with
    | regexp => exact ⟨⟨rfl, h.urlPart, rfl⟩, rfl⟩
    | division => exact ⟨⟨h.state, h.urlPart, rfl⟩, rfl⟩
    | unknown => exact ⟨.refl _, rfl⟩

theorem SamePoint.codeStep (h : c.SamePoint d) (cs : List Char) :
    SamePointStep (c.codeStep cs) (d.codeStep cs) := by
  unfold Context.codeStep
  dsimp only
  rw [h.slash]
  generalize d.slash.after (cs.takeWhile fun x => !startsScriptPart x) = k
  have moved := h.withSlash k
  split
  · exact ⟨moved, rfl⟩
  · repeat' split
    · exact ⟨moved.withState _, rfl⟩
    · exact ⟨moved.withState _, rfl⟩
    · exact ⟨moved.withState _, rfl⟩
    · exact moved.slashStep _

theorem SamePoint.addressStep (h : c.SamePoint d) (rest : List Char) :
    SamePointStep (c.addressStep rest) (d.addressStep rest) := by
  unfold Context.addressStep
  split
  all_goals exact ⟨h.withAddress _ _, rfl⟩

theorem SamePoint.ruleStep (h : c.SamePoint d) (seen cs : List Char) :
    SamePointStep (c.ruleStep seen cs) (d.ruleStep seen cs) := by
  induction cs generalizing seen with
  | nil => exact ⟨h, rfl⟩
  | cons x xs ih =>
    unfold Context.ruleStep
    split
    · exact h.addressStep xs
    split
    · exact ⟨h.withState _, rfl⟩
    split
    · exact ⟨h.withState _, rfl⟩
    split
    · exact ⟨h.withState _, rfl⟩
    · exact ih _

theorem SamePoint.addressEnd (h : c.SamePoint d) (close : Char) (cs : List Char) :
    SamePointStep (c.addressEnd close cs) (d.addressEnd close cs) := by
  unfold Context.addressEnd
  dsimp only
  rw [h.urlPart]
  split
  · exact ⟨⟨h.state, rfl, h.slash⟩, rfl⟩
  · exact ⟨h.withAddress _ _, rfl⟩

/-- A step inside a value or a body tells nothing of what is around it. -/
theorem SamePoint.innerStep (h : c.SamePoint d) (first : Char) (rest : List Char) :
    SamePointStep (c.innerStep first rest) (d.innerStep first rest) := by
  unfold Context.innerStep
  dsimp only
  rw [h.state]
  split
  case h_1 => exact ⟨⟨rfl, by rw [h.urlPart], h.slash⟩, rfl⟩
  case h_2 => exact h.codeStep _
  case h_3 | h_4 | h_5 | h_6 => exact samePoint_leave h h.afterOperand _
  case h_7 | h_8 | h_10 | h_11 | h_15 => exact samePoint_leave h (h.withState _) _
  case h_9 => exact h.ruleStep _ _
  case h_12 | h_13 | h_14 => exact h.addressEnd _ _
  all_goals exact ⟨h, rfl⟩

/-- A text leads two contexts at the same point to the same point. -/
theorem SamePoint.advanceInner (h : c.SamePoint d) (cs : List Char) :
    (c.advanceInner cs).SamePoint (d.advanceInner cs) := by
  induction c, cs using advanceInner_induction generalizing d with
  | nil c => rwa [advanceInner_nil, advanceInner_nil]
  | stuck c x xs he =>
    rwa [advanceInner_of_isError he, advanceInner_of_isError (h.isError ▸ he)]
  | step c x xs he ih =>
    obtain ⟨hnext, hrest⟩ := h.innerStep x xs
    rw [advanceInner_cons he, advanceInner_cons (h.isError ▸ he), ← hrest]
    exact ih hnext

/-! ## Into a body and into a value -/

theorem opened?_letter {x : Char} (hx : isLetter x = true) (rest : List Char) :
    c.opened? (x :: rest) = some (c.startTag false, x :: rest) := by
  have slash : x ≠ '/' := by
    rintro rfl
    exact absurd hx (by decide)
  have bang : x ≠ '!' := by
    rintro rfl
    exact absurd hx (by decide)
  rw [opened?_other slash bang, if_pos hx]

/-- A tag of a document is read up to what follows its name. -/
theorem advance_tag {first : Char} {name : List Char} (x : Char) (rest : List Char)
    (hfirst : isLetter first = true) (hname : ∀ x ∈ first :: name, isTagNamePart x = true)
    (hx : isTagNamePart x = false) {element : Element}
    (he : Element.ofName (String.ofList ((first :: name).map lower)) = element) :
    start.advance ('<' :: first :: (name ++ x :: rest)) =
      advance { state := .tag, element } (x :: rest) := by
  have opened : start.step ('<' :: first :: (name ++ x :: rest)) =
      (start.startTag false, first :: (name ++ x :: rest)) := by
    rw [step_of_outside rfl rfl]
    dsimp only [start]
    rw [textStep, if_pos rfl, opened?_letter hfirst]
  have run : (first :: (name ++ x :: rest)).takeWhile isTagNamePart = first :: name :=
    takeWhile_run hname (by simp [hx])
  have named : (start.startTag false).step (first :: (name ++ x :: rest)) =
      ({ state := .tag, element }, x :: rest) := by
    rw [step_of_outside rfl rfl]
    dsimp only [startTag]
    unfold tagNameStep
    dsimp only
    rw [run, ← List.cons_append, List.drop_left]
    simp only [extendName, String.empty_append, he]
    rfl
  rw [advance_cons rfl, opened, advance_cons rfl, named]

/-- Behind a tag, the body of its element is read. -/
theorem advance_tagEnd (element : Element) (rest : List Char) :
    advance { state := .tag, element } ('>' :: rest) =
      advance { state := element.bodyState, element } rest := by
  rw [advance_cons rfl, step_of_tag rfl rfl]
  rfl

/-- Behind an attribute's name, its quoted value is read. -/
theorem advance_attribute {first : Char} {name : List Char}
    (hname : ∀ x ∈ first :: name, isAttrNamePart x = true) {attr : AttrKind}
    (ha : AttrKind.ofName (String.ofList ((first :: name).map lower)) = attr) {delim : Delim}
    {quote : Char} (hq : delim = .doubleQuote ∧ quote = '"' ∨ delim = .singleQuote ∧ quote = '\'')
    (element : Element) (rest : List Char) :
    advance { state := .tag, element } (' ' :: first :: (name ++ '=' :: quote :: rest)) =
      advance { state := attr.valueState, delim, attr, element } rest := by
  have hfirst := hname first (List.mem_cons_self ..)
  obtain ⟨filler, notEnd⟩ : isTagFiller first = false ∧ first ≠ '>' := by
    simp only [isAttrNamePart, Bool.not_eq_true', Bool.or_eq_false_iff,
      beq_eq_false_iff_ne] at hfirst
    simp [isTagFiller, hfirst]
  have behind : (' ' :: first :: (name ++ '=' :: quote :: rest)).dropWhile isTagFiller =
      first :: (name ++ '=' :: quote :: rest) := by
    rw [List.dropWhile_cons_of_pos (by decide), List.dropWhile_cons_of_neg (by simp [filler])]
  have blank : step { state := .tag, element } (' ' :: first :: (name ++ '=' :: quote :: rest)) =
      ({ state := .attrName, element }, first :: (name ++ '=' :: quote :: rest)) := by
    rw [step_of_tag rfl rfl, tagStep, behind]
    exact if_neg notEnd
  have run : (first :: (name ++ '=' :: quote :: rest)).takeWhile isAttrNamePart = first :: name :=
    takeWhile_run hname rfl
  have named : step { state := .attrName, element } (first :: (name ++ '=' :: quote :: rest)) =
      ({ state := .afterName, element, attr }, '=' :: quote :: rest) := by
    rw [step_of_outside rfl (by simp [inElementBody])]
    dsimp only
    unfold attrNameStep
    dsimp only
    rw [run, ← List.cons_append, List.drop_left]
    simp only [extendName, String.empty_append, ha]
  have equals : step { state := .afterName, element, attr } ('=' :: quote :: rest) =
      ({ state := .beforeValue, element, attr }, quote :: rest) := by
    rw [step_of_outside rfl (by simp [inElementBody])]
    rfl
  have opened : step { state := .beforeValue, element, attr } (quote :: rest) =
      ({ state := attr.valueState, delim, attr, element }, rest) := by
    rw [step_of_outside rfl (by simp [inElementBody])]
    rcases hq with ⟨rfl, rfl⟩ | ⟨rfl, rfl⟩ <;> rfl
  rw [advance_cons rfl, blank, advance_cons rfl, named, advance_cons rfl, equals, advance_cons rfl,
    opened]

/-! ## The same text in both -/

/-- A text without the opening of an element's end tag holds none, in any case of its letters. -/
theorem cutEndTag_of_absent {name cs : List Char} (h : ¬ '<' :: '/' :: name <:+: cs.map lower) :
    cutEndTag name cs = none := by
  rw [cutEndTag_eq_none]
  rintro u w after rfl ⟨written, rfl, hname, -⟩
  refine h ⟨u.map lower, after.map lower, ?_⟩
  rw [List.map_append, List.map_cons, List.map_cons, List.map_append, hname]
  simp [lower]

/-- The body of an element with a grammar is read behind its tag. -/
theorem advance_bodyStart {element : Element} (hk : element.bodyState.kind ≠ .none)
    (rest : List Char) :
    start.advance ('<' :: (element.name.toList ++ '>' :: rest)) =
      advance { state := element.bodyState, element } rest := by
  obtain ⟨first, name, hname, hfirst, hparts, he⟩ : ∃ first name,
      element.name.toList = first :: name ∧ isLetter first = true ∧
        (∀ x ∈ first :: name, isTagNamePart x = true) ∧
        Element.ofName (String.ofList ((first :: name).map lower)) = element := by
    cases element
    case script =>
      exact ⟨'s', "cript".toList, rfl, rfl, fun _ h => prop_of_mem h (by decide +kernel),
        by decide +kernel⟩
    case style =>
      exact ⟨'s', "tyle".toList, rfl, rfl, fun _ h => prop_of_mem h (by decide +kernel),
        by decide +kernel⟩
    all_goals exact absurd rfl hk
  rw [hname, List.cons_append, advance_tag '>' rest hfirst hparts rfl he,
    advance_tagEnd]

/-- A text is read alike in the body of an element and in the quoted value of an attribute that
start in the same state of a grammar, if it holds no end tag of the element and is written into the
value as values are. -/
theorem samePoint_of_bodyState (element : Element) (hk : element.bodyState.kind ≠ .none)
    (first : Char) (name : List Char) (hname : ∀ x ∈ first :: name, isAttrNamePart x = true)
    (hs : (AttrKind.ofName (String.ofList ((first :: name).map lower))).valueState =
      element.bodyState)
    {quote : Char} (hq : quote = '"' ∨ quote = '\'') {cs : List Char} (hnull : '\x00' ∉ cs)
    (hend : cutEndTag element.name.toList cs = none) :
    (start.advance ('<' :: 'p' :: ' ' :: first ::
        (name ++ '=' :: quote :: Escape.htmlAttr cs))).SamePoint
      (start.advance ('<' :: (element.name.toList ++ '>' :: cs))) := by
  obtain ⟨delim, hd, hquote⟩ : ∃ delim : Delim, (delim = .doubleQuote ∨ delim = .singleQuote) ∧
      (delim = .doubleQuote ∧ quote = '"' ∨ delim = .singleQuote ∧ quote = '\'') := by
    rcases hq with h | h
    · exact ⟨.doubleQuote, .inl rfl, .inl ⟨rfl, h⟩⟩
    · exact ⟨.singleQuote, .inr rfl, .inr ⟨rfl, h⟩⟩
  have ok (c : Context) (hc : c.state = element.bodyState) : c.isError = false := by
    rw [isError, hc]
    cases element <;> rfl
  have opened : delim ≠ .none := by
    rcases hd with rfl | rfl <;> decide
  have body : inElementBody { state := element.bodyState, element } = true := by
    cases element <;> first | rfl | exact absurd rfl hk
  have tag := advance_tag ' ' (first :: (name ++ '=' :: quote :: Escape.htmlAttr cs))
    (show isLetter 'p' = true by rfl) (show ∀ x ∈ ['p'], isTagNamePart x = true by simp; rfl)
    rfl rfl
  rw [List.nil_append] at tag
  rw [tag, advance_attribute hname rfl hquote, hs, advance_bodyStart hk,
    advance_of_open (ok _ rfl) opened (Delim.ends_htmlAttr hd cs),
    advance_of_body (ok _ rfl) body hend, Escape.decodeEntities_htmlAttr,
    Escape.map_withoutNull hnull]
  apply SamePoint.advanceInner
  exact ⟨rfl, rfl, rfl⟩

/-- **Scripts and style sheets are read alike in bodies and in values.** A text without nulls and
without the end tag of the element leaves the scan at the same point of the script or style sheet,
whether it stands in the element or, written as a value, in a quoted attribute. -/
theorem samePoint_element_attribute {cs : List Char} (hnull : '\x00' ∉ cs) {quote : Char}
    (hq : quote = '"' ∨ quote = '\'') :
    (¬ "</script".toList <:+: cs.map lower →
      (start.advance ("<p onclick=".toList ++ quote :: Escape.htmlAttr cs)).SamePoint
        (start.advance ("<script>".toList ++ cs))) ∧
    (¬ "</style".toList <:+: cs.map lower →
      (start.advance ("<p style=".toList ++ quote :: Escape.htmlAttr cs)).SamePoint
        (start.advance ("<style>".toList ++ cs))) := by
  constructor
  · intro hend
    exact samePoint_of_bodyState .script nofun 'o' "nclick".toList
      (fun _ h => prop_of_mem h (by decide +kernel)) (by decide +kernel) hq hnull
      (cutEndTag_of_absent hend)
  · intro hend
    exact samePoint_of_bodyState .style nofun 's' "tyle".toList
      (fun _ h => prop_of_mem h (by decide +kernel)) (by decide +kernel) hq hnull
      (cutEndTag_of_absent hend)

/-- A script with both quotes, a written-out reference and a bracket in it, cut inside its second
string, and a style sheet cut inside the address of a picture. -/
theorem samePoint_inside_strings :
    (start.advance "<p onclick=\"x = &quot;a&amp;quot;&lt;b&quot; &#43; &#39;".toList).SamePoint
      (start.advance ("<script>".toList ++ "x = \"a&quot;<b\" + '".toList)) ∧
    (start.advance "<p style='b \x7b background: url(&quot;/p?q=&#43;&amp;lt".toList).SamePoint
      (start.advance ("<style>".toList ++ "b \x7b background: url(\"/p?q=+&lt".toList)) := by
  have script := (samePoint_element_attribute
    (show '\x00' ∉ "x = \"a&quot;<b\" + '".toList by decide +kernel) (.inl (Eq.refl '"'))).1
    (by decide +kernel)
  have style := (samePoint_element_attribute
    (show '\x00' ∉ "b \x7b background: url(\"/p?q=+&lt".toList by decide +kernel)
    (.inr (Eq.refl '\''))).2 (by decide +kernel)
  have onclick : "<p onclick=".toList ++ '"' :: Escape.htmlAttr "x = \"a&quot;<b\" + '".toList =
      "<p onclick=\"x = &quot;a&amp;quot;&lt;b&quot; &#43; &#39;".toList := by decide +kernel
  have background : "<p style=".toList ++
        '\'' :: Escape.htmlAttr "b \x7b background: url(\"/p?q=+&lt".toList =
      "<p style='b \x7b background: url(&quot;/p?q=&#43;&amp;lt".toList := by decide +kernel
  rw [onclick] at script
  rw [background] at style
  exact ⟨script, style⟩

end Stencil.Markup.Context
