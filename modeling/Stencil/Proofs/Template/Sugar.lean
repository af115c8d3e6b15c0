import Stencil.Proofs.Template.Expansion
import Stencil.Proofs.Template.Segments
import Stencil.Proofs.Template.Unplaced

/-!
# Chains and blocks written out

An `else if` chain is parsed to the templates of the same blocks nested in one another, and a
`block` at the top level to those of a definition with an action behind it that embeds it, whatever
stands around them (`Source.parse_expanded`).

Both sides are put together from the same segments: a source in front, pipelines, balanced bodies
and whatever follows. Either all segments are cut into the tokens they are cut into by themselves,
and the parser does the same with both sides, or some body ends in a brace that the action behind it
takes away, and neither side is a source. What stands in front is a source by itself, since behind
an open string or comment the same characters are no actions.
-/

set_option autoImplicit false

namespace Stencil

open Tokens (Inner inner_nil inner_cons ofKinds Whole IsBody AreLinks)

/-! ## Texts -/

/-- An action as it is written: a keyword and what stands behind it. -/
def Keyword.text (k : Keyword) (inside : String) : String :=
  "\x7b\x7b" ++ k.spelling ++ inside ++ "\x7d\x7d"

/-- What continues an `if` behind its body: a chain of `else if`, each with a condition and a body,
and perhaps an `else`, and one `end`. -/
def chainText : List (String × String) → Option String → String
  | [], none => Keyword.endWord.text ""
  | [], some last => Keyword.elseWord.text "" ++ last ++ Keyword.endWord.text ""
  | (condition, body) :: links, last =>
    Keyword.elseWord.text (" if " ++ condition) ++ body ++ chainText links last

/-- The same with each `if` in the `else` of the one before it, and an `end` for each. -/
def nestedText : List (String × String) → Option String → String
  | [], none => Keyword.endWord.text ""
  | [], some last => Keyword.elseWord.text "" ++ last ++ Keyword.endWord.text ""
  | (condition, body) :: links, last =>
    Keyword.elseWord.text "" ++ Keyword.ifWord.text (" " ++ condition) ++ body ++
      nestedText links last ++ Keyword.endWord.text ""

/-- A text that, behind a keyword and a blank, is all that stands up to the closing of an action:
not only blanks, and without a trim marker at the closing. -/
def IsPipelineText (text : String) : Prop :=
  ∃ ts here, Lexer.Reaches (.action .start) .start (' ' :: (text.toList ++ ['\x7d', '\x7d'])) ts
    (.action .start) here ['\x7d', '\x7d'] ∧ Inner ts ∧ ∃ t ∈ ts, t.isBlank = false

/-- A text that can be cut into tokens and whose actions end what they open and nothing else. -/
def IsBalancedText (text : String) : Prop :=
  ∃ ts, tokenize text = .ok ts ∧ Tokens.Balanced (ts.map (·.kind))

/-- Conditions and bodies of a chain. -/
structure AreLinkTexts (links : List (String × String)) (last : Option String) : Prop where
  links : ∀ link ∈ links, IsPipelineText link.1 ∧ IsBalancedText link.2
  last : ∀ text, last = some text → IsBalancedText text

/-- What can stand between double quotes. -/
def IsQuotable (text : String) : Prop :=
  ∃ content, Literal.quoted 0 (text.toList ++ ['"']) = .ok (content, (text.toList ++ ['"']).length)

/-- A field of one letter. -/
theorem isPipelineText_field {c : Char}
    (dot : ∀ here, Lexer.step (.action .start) here '.' [c, '\x7d', '\x7d'] =
      .ok ⟨[⟨.dot, here⟩], .action .start, 1⟩)
    (letter : ∀ here, Lexer.step (.action .start) here c ['\x7d', '\x7d'] =
      .ok ⟨[⟨.identifier (String.singleton c), here⟩], .action .start, 1⟩) :
    IsPipelineText (String.ofList ['.', c]) := by
  have blank : Lexer.step (.action .start) .start ' ' ['.', c, '\x7d', '\x7d'] =
      .ok ⟨[⟨.blank " ", .start⟩], .action .start, 1⟩ := rfl
  rw [IsPipelineText, String.toList_ofList]
  exact ⟨_, _, .step blank (.step (dot _) (.step (letter _) (.refl _ _ _))),
    inner_cons.mpr ⟨trivial, inner_cons.mpr ⟨trivial, inner_cons.mpr ⟨trivial, inner_nil⟩⟩⟩,
    _, List.mem_cons_of_mem _ List.mem_cons_self, rfl⟩

theorem isBalancedText_of_toOption_any {text : String}
    (h : (tokenize text).toOption.any (fun ts => decide (Tokens.Balanced (ts.map (·.kind)))) =
      true) : IsBalancedText text := by
  obtain ⟨ts, hts, balanced⟩ := exists_of_toOption_any h
  exact ⟨ts, hts, of_decide_eq_true balanced⟩

namespace Lexer

/-! ## Actions -/

/-- A text gives its kinds in front of every action that starts with a letter, if there are any. -/
def Carries (text : List Char) (front : Option (List Token.Kind)) : Prop :=
  ∀ c cs, c ≠ '-' → c ≠ '/' → outside? (text ++ '\x7b' :: '\x7b' :: c :: cs) =
    front.bind fun ks => (inside? (c :: cs)).map (ks ++ .actionOpen :: ·)

/-- Inside an action, a text gives its kinds up to the closing that stands behind it. -/
def Closes (text : String) (ks : List Token.Kind) : Prop :=
  ∀ more, inside? (text.toList ++ '\x7d' :: '\x7d' :: more) =
    (outside? more).map (ks ++ .actionClose :: ·)

theorem carries_nil : Carries [] (some []) := fun _ cs hminus hslash =>
  outside?_action hminus hslash cs

theorem closes_empty : Closes "" [] := inside?_close

/-- The text of a pipeline behind a blank. -/
theorem exists_phrase {text : String} (h : IsPipelineText text) :
    ∃ ks, Inner (ofKinds ks) ∧ (∃ t ∈ ofKinds ks, t.isBlank = false) ∧
      Closes (" " ++ text) ks := by
  obtain ⟨ts, here, reaches, hts, t, ht, hblank⟩ := h
  rw [← List.cons_append] at reaches
  refine ⟨ts.map (·.kind), Tokens.Inner.ofKinds hts, ⟨⟨t.kind, .outside⟩, ?_, ?_⟩, fun more => ?_⟩
  · exact List.mem_map_of_mem (List.mem_map_of_mem ht)
  · rw [← hblank]
    exact Token.isBlank_eq rfl
  · rw [String.toList_append]
    exact inside?_phrase reaches hts more

namespace Closes

variable {text : String} {ks : List Token.Kind}

theorem blank (h : Closes text ks) {c : Char} {rest : List Char} (htext : text.toList = c :: rest)
    (hblank : Text.isBlank c = false) (hminus : c ≠ '-') :
    Closes (" " ++ text) (.blank " " :: ks) := by
  intro more
  have chars : (" " ++ text).toList = ' ' :: c :: rest := by
    rw [String.toList_append, htext]
    rfl
  have behind := h more
  rw [htext, List.cons_append] at behind
  rw [chars, List.cons_append, List.cons_append, inside?_blank hblank hminus, behind,
    Option.map_map]
  rfl

/-- A keyword in front of what does not go on with the name. -/
theorem keyword (h : Closes text ks) (k : Keyword)
    (htext : ∀ c ∈ text.toList.head?, isNamePart c = false) :
    Closes (k.spelling ++ text) (k.kind :: ks) := by
  intro more
  obtain ⟨c, rest, hchars, hc⟩ : ∃ c rest, text.toList ++ '\x7d' :: '\x7d' :: more = c :: rest ∧
      isNamePart c = false := by
    cases hlist : text.toList with
    | nil => exact ⟨_, _, rfl, by decide⟩
    | cons c rest => exact ⟨c, _, rfl, htext c (by rw [hlist]; rfl)⟩
  have behind := h more
  rw [hchars] at behind
  rw [String.toList_append, List.append_assoc, hchars, inside?_keyword k hc, behind,
    Option.map_map]
  rfl

/-- A name between quotes. -/
theorem quoted {name : String} (hname : IsQuotable name) : ∃ content, ∀ {text ks},
    Closes text ks → Closes ("\"" ++ name ++ "\"" ++ text) (.string content :: ks) := by
  obtain ⟨content, hquoted⟩ := hname
  refine ⟨String.ofList content, fun {text ks} h more => ?_⟩
  have chars : ("\"" ++ name ++ "\"" ++ text).toList =
      '"' :: (name.toList ++ ['"'] ++ text.toList) := by
    simp
  rw [chars, List.cons_append, List.append_assoc, inside?_quoted hquoted, h, Option.map_map]
  rfl

end Closes

theorem head_blank (text : String) :
    ∀ c ∈ (" " ++ text).toList.head?, isNamePart c = false := by
  rw [String.toList_append]
  rintro _ ⟨⟩
  rfl

/-- An `if` behind an `else`. -/
theorem closes_elseIf {condition : String} {ks : List Token.Kind}
    (h : Closes (Keyword.ifWord.spelling ++ (" " ++ condition)) (Keyword.ifWord.kind :: ks)) :
    Closes (Keyword.elseWord.spelling ++ (" if " ++ condition))
      (Keyword.elseWord.kind :: .blank " " :: Keyword.ifWord.kind :: ks) := by
  have chars : " if " ++ condition = " " ++ (Keyword.ifWord.spelling ++ (" " ++ condition)) := by
    rw [← String.append_assoc, ← String.append_assoc]
    rfl
  rw [chars]
  have behind := h.blank (String.toList_append ..) (by decide) (by decide)
  exact behind.keyword .elseWord (head_blank _)

/-- A name between quotes behind a keyword, and a pipeline behind the name. -/
theorem exists_closes_named {name : String} (hname : IsQuotable name) : ∃ content,
    ∀ k : Keyword, Closes (k.spelling ++ (" \"" ++ name ++ "\""))
        [k.kind, .blank " ", .string content] ∧
      ∀ data ks, Closes (" " ++ data) ks → Closes (k.spelling ++ (" \"" ++ name ++ "\" " ++ data))
        (k.kind :: .blank " " :: .string content :: ks) := by
  obtain ⟨content, quoted⟩ := Closes.quoted hname
  have named (k : Keyword) {text : String} {ks : List Token.Kind} (h : Closes text ks) :
      Closes (k.spelling ++ (" " ++ ("\"" ++ name ++ "\"" ++ text)))
        (k.kind :: .blank " " :: .string content :: ks) := by
    have chars : ("\"" ++ name ++ "\"" ++ text).toList =
        '"' :: (name.toList ++ '"' :: text.toList) := by
      simp
    exact ((quoted h).blank chars (by decide) (by decide)).keyword k (head_blank _)
  refine ⟨content, fun k => ⟨?_, fun data ks h => ?_⟩⟩
  · have chars : " \"" ++ name ++ "\"" = " " ++ ("\"" ++ name ++ "\"" ++ "") :=
      String.ext (by simp)
    rw [chars]
    exact named k closes_empty
  · have chars : " \"" ++ name ++ "\" " ++ data = " " ++ ("\"" ++ name ++ "\"" ++ (" " ++ data)) :=
      String.ext (by simp)
    rw [chars]
    exact named k h

/-- A keyword by itself. -/
theorem closes_bare (k : Keyword) : Closes (k.spelling ++ "") [k.kind] :=
  closes_empty.keyword k nofun

section

variable {text body : List Char} {front inner : Option (List Token.Kind)} {k : Keyword}
  {inside : String} {ks : List Token.Kind}

/-- An action behind a text. -/
theorem Carries.action (h : Carries text front) (hs : Closes (k.spelling ++ inside) (k.kind :: ks))
    (more : List Char) :
    outside? (text ++ ((k.text inside).toList ++ more)) =
      front.bind fun before => (outside? more).map (before ++ k.item ks ++ ·) := by
  obtain ⟨c, rest, hspelling, hstart⟩ := exists_spelling k
  have chars : (k.text inside).toList ++ more = '\x7b' :: '\x7b' :: c :: (rest ++
      (inside.toList ++ '\x7d' :: '\x7d' :: more)) := by
    simp [Keyword.text, hspelling]
  have read := hs more
  rw [String.toList_append, hspelling, List.append_assoc, List.cons_append] at read
  rw [chars, h _ _ (ne_of_isNameStart hstart rfl) (ne_of_isNameStart hstart rfl), read]
  refine congrArg _ (funext fun before => ?_)
  rw [Option.map_map]
  refine congrArg (Option.map · _) (funext fun later => ?_)
  simp [Keyword.item]

/-- A text, an action behind it, and a text behind that. -/
theorem Carries.append (h : Carries text front) (hs : Closes (k.spelling ++ inside) (k.kind :: ks))
    (hbody : Carries body inner) :
    Carries (text ++ ((k.text inside).toList ++ body))
      (front.bind fun before => inner.map fun behind => before ++ k.item ks ++ behind) := by
  intro c rest hminus hslash
  rw [List.append_assoc, List.append_assoc, h.action hs, hbody c rest hminus hslash]
  cases front with
  | none => rfl
  | some before =>
    cases inner with
    | none => rfl
    | some behind =>
      simp only [Option.bind_some, Option.map_some, Option.map_map]
      refine congrArg (Option.map · _) (funext fun later => ?_)
      simp

end

/-! ## Bodies -/

/-- A source gives its kinds in front of an action, without the mark of its end. -/
theorem exists_carries {text : String} {ts : List Token} (h : tokenize text = .ok ts) :
    ∃ front, Carries text.toList front ∧
      ∀ ks, front = some ks → Whole ks ∧ ts.map (·.kind) = ks ++ [.eof] := by
  obtain ⟨front, kinds, carries⟩ := exists_outside? h
  refine ⟨front, carries, fun ks hks => ⟨?_, kinds ks hks⟩⟩
  obtain ⟨whole, hwhole, items⟩ := (bracketed_of_tokenize h).exists_whole
  rwa [List.append_cancel_right ((kinds ks hks).symm.trans hwhole)]

theorem balanced_of_eof {ks : List Token.Kind} (whole : Whole ks)
    (h : Tokens.Balanced (ks ++ [.eof])) : Tokens.Balanced ks := by
  rw [Tokens.Balanced, whole.depth?_append] at h
  obtain ⟨depth, hdepth, hlast⟩ := Option.bind_eq_some_iff.mp h
  cases hlast
  exact hdepth

theorem exists_body {text : String} (h : IsBalancedText text) :
    ∃ front, Carries text.toList front ∧ ∀ ks, front = some ks → IsBody ks := by
  obtain ⟨ts, hts, balanced⟩ := h
  obtain ⟨front, carries, kinds⟩ := exists_carries hts
  refine ⟨front, carries, fun ks hks => ?_⟩
  obtain ⟨whole, hkinds⟩ := kinds ks hks
  rw [hkinds] at balanced
  exact ⟨whole, balanced_of_eof whole balanced⟩

/-! ## Chains -/

/-- The end of a block behind a text, with the alternative in front of it if there is one. -/
theorem exists_finish {last : Option String} (h : ∀ text, last = some text → IsBalancedText text) :
    ∃ part : Option (Option (List Token.Kind)),
      (∀ alternative, part = some alternative → ∀ ks, alternative = some ks → IsBody ks) ∧
      ∀ text front, Carries text front → ∀ more,
        outside? (text ++ ((chainText [] last).toList ++ more)) =
          front.bind fun ks => part.bind fun alternative =>
            (outside? more).map (ks ++ Tokens.finish alternative ++ ·) := by
  cases last with
  | none =>
    refine ⟨some none, ?_, fun text front carries more => ?_⟩
    · rintro _ ⟨⟩
      exact nofun
    · rw [chainText, carries.action (closes_bare .endWord)]
      rfl
  | some last =>
    obtain ⟨inner, carriesLast, hbody⟩ := exists_body (h last rfl)
    refine ⟨inner.map some, ?_, fun text front carries more => ?_⟩
    · intro alternative halternative ks hks
      obtain ⟨other, hother, rfl⟩ := Option.map_eq_some_iff.mp halternative
      exact hbody ks (hother.trans hks)
    · have stop := (carries.append (closes_bare .elseWord) carriesLast).action
        (closes_bare .endWord) more
      simp only [List.append_assoc] at stop
      simp only [chainText, String.toList_append, List.append_assoc]
      rw [stop]
      cases front <;> cases inner <;> simp [Tokens.finish]

/-- Behind a text, a chain and the blocks that it stands for are cut into tokens together, those of
the same conditions and bodies. -/
theorem exists_chain {links : List (String × String)} {last : Option String}
    (h : AreLinkTexts links last) :
    ∃ parts : Option (List (List Token.Kind × List Token.Kind) × Option (List Token.Kind)),
      (∀ p, parts = some p → AreLinks p.1 p.2) ∧
      ∀ text front, Carries text front → ∀ more,
        outside? (text ++ ((chainText links last).toList ++ more)) =
          front.bind (fun ks => parts.bind fun p =>
            (outside? more).map (ks ++ Tokens.chain p.1 p.2 ++ ·)) ∧
        outside? (text ++ ((nestedText links last).toList ++ more)) =
          front.bind fun ks => parts.bind fun p =>
            (outside? more).map (ks ++ Tokens.finish (Tokens.nested p.1 p.2) ++ ·) := by
  induction links with
  | nil =>
    obtain ⟨part, bodies, cuts⟩ := exists_finish h.last
    refine ⟨part.map fun alternative => ([], alternative), ?_, fun text front carries more => ?_⟩
    · intro p hp
      obtain ⟨alternative, halternative, rfl⟩ := Option.map_eq_some_iff.mp hp
      exact ⟨nofun, bodies alternative halternative⟩
    · have stop := cuts text front carries more
      have same : nestedText [] last = chainText [] last := by cases last <;> rfl
      rw [same, stop]
      cases part <;> exact ⟨rfl, rfl⟩
  | cons link links ih =>
    obtain ⟨condition, body⟩ := link
    obtain ⟨hcondition, hbody⟩ := h.links _ List.mem_cons_self
    obtain ⟨phrase, inner, -, closes⟩ := exists_phrase hcondition
    have opening := closes.keyword .ifWord (head_blank condition)
    obtain ⟨inside, carriesBody, isBody⟩ := exists_body hbody
    obtain ⟨parts, areLinks, cuts⟩ := ih ⟨fun l hl => h.links l (List.mem_cons_of_mem _ hl), h.last⟩
    refine ⟨inside.bind fun ks => parts.map fun p => ((phrase, ks) :: p.1, p.2), ?_,
      fun text front carries more => ⟨?_, ?_⟩⟩
    · intro p hp
      obtain ⟨ks, hks, hp⟩ := Option.bind_eq_some_iff.mp hp
      obtain ⟨later, hlater, rfl⟩ := Option.map_eq_some_iff.mp hp
      refine ⟨fun l hl => ?_, (areLinks later hlater).last⟩
      rcases List.mem_cons.mp hl with rfl | hl
      · exact ⟨inner, isBody ks hks⟩
      · exact (areLinks later hlater).links l hl
    · -- the rest of the chain stands behind this body
      have ahead := carries.append (closes_elseIf opening) carriesBody
      have chained := (cuts _ _ ahead more).1
      simp only [List.append_assoc] at chained
      simp only [chainText, String.toList_append, List.append_assoc]
      rw [chained]
      cases front <;> cases inside <;> cases parts <;> simp [Tokens.chain]
    · -- so does the rest of the blocks, in front of the `end` of the block around them
      have ahead := (carries.append (closes_bare .elseWord) carries_nil).append opening carriesBody
      have unchained := (cuts _ _ ahead ((Keyword.endWord.text "").toList ++ more)).2
      have stop := carries_nil.action (closes_bare .endWord) more
      rw [List.nil_append] at stop
      simp only [List.append_assoc, List.nil_append] at unchained
      simp only [nestedText, String.toList_append, List.append_assoc]
      rw [unchained, stop]
      cases front <;> cases inside <;> cases parts <;>
        simp [Tokens.finish, Tokens.nested, Function.comp_def]

end Lexer

/-! ## Sources -/

section

variable {α β : Type} {R : β → β → Prop}

theorem rel_bind {o : Option α} {f f' : α → Option β}
    (h : ∀ a, o = some a → Option.Rel R (f a) (f' a)) : Option.Rel R (o.bind f) (o.bind f') := by
  cases o with
  | none => exact .none
  | some a => exact h a rfl

theorem rel_map {o : Option α} {f f' : α → β} (h : ∀ a, R (f a) (f' a)) :
    Option.Rel R (o.map f) (o.map f') := by
  cases o with
  | none => exact .none
  | some a => exact .some (h a)

end

namespace Source

open Lexer (outside? kindsOf? exists_carries exists_body exists_phrase exists_chain head_blank
  closes_bare carries_nil exists_closes_named balanced_of_eof)

/-- Both are refused, or both are sources whose templates have the same names and the same listings
up to locations, in the same order. -/
def SameTemplates : Except SourceError Source → Except SourceError Source → Prop :=
  Agree fun s s' => s.listed = s'.listed

/-- Texts are parsed to the same templates if their kinds are, and if neither has any. -/
theorem parse_sameTemplates (name : String) {text text' : String}
    (h : Option.Rel (fun ks ks' => Agree Eq (ofTokens name (ofKinds ks))
      (ofTokens name (ofKinds ks'))) (outside? text.toList) (outside? text'.toList)) :
    SameTemplates (parse name text) (parse name text') := by
  unfold parse
  change Option.Rel _ (kindsOf? (tokenize text)) (kindsOf? (tokenize text')) at h
  cases hts : tokenize text with
  | error e =>
    cases hts' : tokenize text' with
    | error e' => exact Agree.error e e'
    | ok ts' =>
      rw [hts, hts'] at h
      cases h
  | ok ts =>
    cases hts' : tokenize text' with
    | error e' =>
      rw [hts, hts'] at h
      cases h
    | ok ts' =>
      rw [hts, hts'] at h
      cases h with
      | some agree =>
        have first := ofTokens_ofKinds (bracketed_of_tokenize hts) name
        have second : SameTemplates (ofTokens name (ofKinds (ts'.map (·.kind))))
            (ofTokens name ts') :=
          (ofTokens_ofKinds (bracketed_of_tokenize hts') name).symm fun _ _ => Eq.symm
        refine first.trans (agree.trans second ?_) fun _ _ _ => Eq.trans
        rintro _ s _ rfl hs
        exact hs

section

variable (name : String) {ks : List Token.Kind}

theorem ofTokens_ifChain (whole : Whole ks) {condition body : List Token.Kind}
    (hcondition : Inner (ofKinds condition)) (hbody : IsBody body)
    {links : List (List Token.Kind × List Token.Kind)} {last : Option (List Token.Kind)}
    (h : AreLinks links last) (later : List Token.Kind) :
    ofTokens name (ofKinds (ks ++ (Keyword.ifWord.item condition ++ body ++
        Tokens.chain links last ++ later))) =
      ofTokens name (ofKinds (ks ++ (Keyword.ifWord.item condition ++ body ++
        Tokens.finish (Tokens.nested links last) ++ later))) := by
  obtain ⟨r, reads⟩ := Parser.exists_run_append name whole .initial
  rw [ofTokens, ofTokens, Tokens.ofKinds_append ks, Tokens.ofKinds_append ks,
    Tokens.ofKinds_append _ later, Tokens.ofKinds_append _ later, reads, reads]
  exact bind_congr fun σ => Parser.run_ifChain name hcondition hbody h σ (ofKinds later)

theorem ofTokens_slot (whole : Whole ks) (balanced : Tokens.Balanced ks)
    {data body : List Token.Kind} (hdata : Inner (ofKinds data))
    (hvalue : ∃ t ∈ ofKinds data, t.isBlank = false) (hbody : IsBody body) (slot : String)
    (later : List Token.Kind) :
    Agree Eq
      (ofTokens name (ofKinds (ks ++ (Keyword.blockWord.item (.blank " " :: .string slot :: data) ++
        body ++ Keyword.endWord.item [] ++ later))))
      (ofTokens name (ofKinds (ks ++ (Keyword.defineWord.item [.blank " ", .string slot] ++ body ++
        Keyword.endWord.item [] ++
          Keyword.templateWord.item (.blank " " :: .string slot :: data) ++ later)))) := by
  obtain ⟨r, reads⟩ := Parser.exists_run_topLevel name whole balanced
  rw [ofTokens, ofTokens, Tokens.ofKinds_append ks, Tokens.ofKinds_append ks,
    Tokens.ofKinds_append _ later, Tokens.ofKinds_append _ later, reads, reads]
  refine (Agree.refl (R := Eq) (fun _ => rfl) r).bind ?_
  rintro read _ rfl
  exact Parser.run_slot_agree name hdata hvalue hbody slot read.1 read.2 (ofKinds later)

end

section

variable (name : String) {pre : String} {ts : List Token}

/-- A chain is parsed like the blocks that it stands for, nested in one another. -/
theorem parse_ifChain (hpre : tokenize pre = .ok ts) {condition body : String}
    (hcondition : IsPipelineText condition) (hbody : IsBalancedText body)
    {links : List (String × String)} {last : Option String} (h : AreLinkTexts links last)
    (post : String) :
    SameTemplates
      (parse name (pre ++ Keyword.ifWord.text (" " ++ condition) ++ body ++
        chainText links last ++ post))
      (parse name (pre ++ Keyword.ifWord.text (" " ++ condition) ++ body ++
        nestedText links last ++ post)) := by
  obtain ⟨front, carries, kinds⟩ := exists_carries hpre
  obtain ⟨phrase, inner, -, closes⟩ := exists_phrase hcondition
  obtain ⟨inside, carriesBody, isBody⟩ := exists_body hbody
  obtain ⟨parts, areLinks, cuts⟩ := exists_chain h
  have ahead := carries.append (closes.keyword .ifWord (head_blank condition)) carriesBody
  obtain ⟨chained, unchained⟩ := cuts _ _ ahead post.toList
  simp only [List.append_assoc] at chained unchained
  apply parse_sameTemplates
  simp only [String.toList_append, List.append_assoc] at chained unchained ⊢
  rw [chained, unchained]
  refine rel_bind fun _ hks => rel_bind fun p hp => rel_map fun later => ?_
  obtain ⟨before, hbefore, behind⟩ := Option.bind_eq_some_iff.mp hks
  obtain ⟨ks, hinside, rfl⟩ := Option.map_eq_some_iff.mp behind
  have same := ofTokens_ifChain name (kinds before hbefore).1 inner (isBody ks hinside)
    (areLinks p hp) later
  simp only [List.append_assoc] at same ⊢
  rw [same]
  exact Agree.refl (fun _ => rfl) _

/-- At the top level, a block is parsed like a definition and an action that embeds it. -/
theorem parse_slot (hpre : tokenize pre = .ok ts) (topLevel : Tokens.Balanced (ts.map (·.kind)))
    {slot data body : String} (hslot : IsQuotable slot) (hdata : IsPipelineText data)
    (hbody : IsBalancedText body) (post : String) :
    SameTemplates
      (parse name (pre ++ Keyword.blockWord.text (" \"" ++ slot ++ "\" " ++ data) ++ body ++
        Keyword.endWord.text "" ++ post))
      (parse name (pre ++ Keyword.defineWord.text (" \"" ++ slot ++ "\"") ++ body ++
        Keyword.endWord.text "" ++
          Keyword.templateWord.text (" \"" ++ slot ++ "\" " ++ data) ++ post)) := by
  obtain ⟨front, carries, kinds⟩ := exists_carries hpre
  obtain ⟨phrase, inner, hvalue, closes⟩ := exists_phrase hdata
  obtain ⟨inside, carriesBody, isBody⟩ := exists_body hbody
  obtain ⟨content, named⟩ := exists_closes_named hslot
  have given (k : Keyword) := (named k).2 data phrase closes
  have opened := (carries.append (given .blockWord) carriesBody).action (closes_bare .endWord)
    post.toList
  have defined := ((carries.append (named .defineWord).1 carriesBody).append (closes_bare .endWord)
    carries_nil).action (given .templateWord) post.toList
  apply parse_sameTemplates
  simp only [List.append_assoc, List.append_nil] at opened defined
  simp only [String.toList_append, List.append_assoc]
  rw [opened, defined]
  cases front with
  | none => exact .none
  | some before =>
    cases inside with
    | none => exact .none
    | some body =>
      obtain ⟨whole, hkinds⟩ := kinds before rfl
      rw [hkinds] at topLevel
      have same := ofTokens_slot name whole (balanced_of_eof whole topLevel) inner hvalue
        (isBody body rfl) content
      simp only [List.append_assoc] at same
      simp only [Option.bind_some, Option.map_some, List.append_assoc, List.append_nil]
      exact rel_map same

end

/-- Behind a text that is cut into tokens by itself and in front of any text, an `if` with a chain
behind its body is parsed like the same blocks nested in one another; where no block or definition
is open around it, a `block` is parsed like a definition and an action that embeds it. -/
theorem parse_expanded (name : String) {pre : String} {ts : List Token}
    (hpre : tokenize pre = .ok ts) (post : String) {pipeline body : String}
    (hpipeline : IsPipelineText pipeline) (hbody : IsBalancedText body) :
    (∀ links last, AreLinkTexts links last → SameTemplates
      (parse name (pre ++ Keyword.ifWord.text (" " ++ pipeline) ++ body ++
        chainText links last ++ post))
      (parse name (pre ++ Keyword.ifWord.text (" " ++ pipeline) ++ body ++
        nestedText links last ++ post))) ∧
    (Tokens.Balanced (ts.map (·.kind)) → ∀ slot, IsQuotable slot → SameTemplates
      (parse name (pre ++ Keyword.blockWord.text (" \"" ++ slot ++ "\" " ++ pipeline) ++ body ++
        Keyword.endWord.text "" ++ post))
      (parse name (pre ++ Keyword.defineWord.text (" \"" ++ slot ++ "\"") ++ body ++
        Keyword.endWord.text "" ++
          Keyword.templateWord.text (" \"" ++ slot ++ "\" " ++ pipeline) ++ post))) :=
  ⟨fun _ _ h => parse_ifChain name hpre hpipeline hbody h post,
    fun topLevel _ hslot => parse_slot name hpre topLevel hslot hpipeline hbody post⟩

end Source

/-- A chain of two conditions with an `else`, and a block, in a letter. -/
theorem Source.parse_expanded_letter :
    (∃ s s', parse "letter" ("Dear \x7b\x7bif .a\x7d\x7dA\x7b\x7belse if .b\x7d\x7dB" ++
        "\x7b\x7belse\x7d\x7dC\x7b\x7bend\x7d\x7d!") = .ok s ∧
      parse "letter" ("Dear \x7b\x7bif .a\x7d\x7dA\x7b\x7belse\x7d\x7d\x7b\x7bif .b\x7d\x7dB" ++
        "\x7b\x7belse\x7d\x7dC\x7b\x7bend\x7d\x7d\x7b\x7bend\x7d\x7d!") = .ok s' ∧
      s.listed = s'.listed) ∧
    ∃ s s', parse "letter" "Dear \x7b\x7bblock \"n\" .a\x7d\x7dA\x7b\x7bend\x7d\x7d!" = .ok s ∧
      parse "letter" ("Dear \x7b\x7bdefine \"n\"\x7d\x7dA\x7b\x7bend\x7d\x7d" ++
        "\x7b\x7btemplate \"n\" .a\x7d\x7d!") = .ok s' ∧
      s.listed = s'.listed := by
  have first : IsPipelineText ".a" := isPipelineText_field (fun _ => rfl) (fun _ => rfl)
  have second : IsPipelineText ".b" := isPipelineText_field (fun _ => rfl) (fun _ => rfl)
  have body {text : String} (h : text ∈ ["A", "B", "C"]) : IsBalancedText text := by
    apply isBalancedText_of_toOption_any
    revert text
    decide +kernel
  have pre : tokenize "Dear " = .ok [⟨.text "Dear ", .start⟩, ⟨.eof, ⟨1, 6, 5⟩⟩] := by
    decide +kernel
  have links : AreLinkTexts [(".b", "B")] (some "C") := by
    refine ⟨?_, ?_⟩
    · intro link hlink
      cases List.mem_singleton.mp hlink
      exact ⟨second, body (by simp)⟩
    · rintro _ ⟨⟩
      exact body (by simp)
  obtain ⟨chained, slots⟩ := parse_expanded "letter" pre "!" first (body (by simp : "A" ∈ _))
  exact ⟨(chained _ _ links).exists_of_isOk (by decide +kernel),
    (slots (by decide) "n" ⟨['n'], by decide +kernel⟩).exists_of_isOk (by decide +kernel)⟩

end Stencil
