import Mathlib.Logic.Relation
import Stencil.Proofs.Template.Inside
import Stencil.Proofs.Template.Lexemes
import Stencil.Proofs.Template.Locations

/-!
# Brackets

The tokens of a source are texts and whole actions up to the mark of the end
(`Tokens.Bracketed`): whatever stands inside an action, its closing is found before anything but
tokens of the action. A text between actions is not empty and holds no opening.

The parser relies on it. Between two items it stands at a text, at an action that is closed, or at
the end (`Parser.AtItem`), so the end of the source is never met inside an action, and what is
reported as unexpected is a token that can stand inside one (`Source.parse_bracketed`).
-/

set_option autoImplicit false

namespace Stencil

open Tokens (Inner inner_nil inner_cons inner_append)

/-! ## Tokens of a source -/

/-- A text that can stand between actions. -/
def Token.IsPlainText (t : Token) : Prop :=
  ∃ content, t.kind = .text content ∧ content ≠ "" ∧ ¬ ['\x7b', '\x7b'] <:+: content.toList

/-- Texts and whole actions, and the mark of the end. -/
inductive Tokens.Bracketed : List Token → Prop where
  | eof (here : Location) : Bracketed [⟨.eof, here⟩]
  | text {t : Token} {ts : List Token} : t.IsPlainText → Bracketed ts → Bracketed (t :: ts)
  | action {inside ts : List Token} (start stop : Location) : Inner inside → Bracketed ts →
      Bracketed (⟨.actionOpen, start⟩ :: (inside ++ ⟨.actionClose, stop⟩ :: ts))

namespace Lexer

open Stencil.Text

/-- What a step finds: between actions, texts and perhaps the opening of an action; inside one,
tokens of the action and perhaps its closing. -/
inductive Step.Shaped : Mode → Step → Prop where
  | opens (trim : Bool) {texts : List Token} (opened : Location) (size : Nat) :
      (∀ t ∈ texts, t.IsPlainText) →
      Shaped (.text trim) ⟨texts ++ [⟨.actionOpen, opened⟩], .action opened, size⟩
  | passes (trim : Bool) {texts : List Token} (next : Bool) (size : Nat) :
      (∀ t ∈ texts, t.IsPlainText) → Shaped (.text trim) ⟨texts, .text next, size⟩
  | inside {tokens : List Token} (opened : Location) (size : Nat) : Inner tokens →
      Shaped (.action opened) ⟨tokens, .action opened, size⟩
  | closes {tokens : List Token} (opened stop : Location) (trim : Bool) (size : Nat) :
      Inner tokens →
      Shaped (.action opened) ⟨tokens ++ [⟨.actionClose, stop⟩], .text trim, size⟩

variable {opened here : Location}

theorem textTokens_plain {content : List Char} (h : ¬ ['\x7b', '\x7b'] <:+: content)
    (here : Location) : ∀ t ∈ textTokens content here, t.IsPlainText := by
  unfold textTokens
  split
  · exact List.forall_mem_nil _
  · next hne =>
    refine List.forall_mem_singleton.mpr ⟨_, rfl, ?_, ?_⟩
    · exact fun hempty => hne (String.ofList_injective hempty)
    · rwa [String.toList_ofList]

theorem textStep_shaped {trim : Bool} {cs : List Char} {found : Step}
    (h : textStep trim here cs = .ok found) : Step.Shaped (.text trim) found := by
  unfold textStep at h
  dsimp only at h
  split at h
  · next hcut =>
    cases h
    exact .passes trim false _ (textTokens_plain (fun hinfix => cut_ne_none hinfix hcut) _)
  · next content rest hcut =>
    have plain : ¬ ['\x7b', '\x7b'] <:+: content :=
      not_infix_of_cut (List.cons_ne_nil _ _) hcut
    have shown : ¬ ['\x7b', '\x7b'] <:+:
        (if isTrimMarker rest then trimEnd isBlank content else content) := by
      split
      · exact fun hpair => plain (hpair.trans (prefix_trimEnd isBlank content).isInfix)
      · exact plain
    split at h
    · cases h
      exact .opens trim _ _ (textTokens_plain shown _)
    · obtain ⟨r, -, hpure⟩ := exists_of_bind_eq_ok h
      cases hpure
      exact .passes trim _ _ (textTokens_plain shown _)

/-- One token that can stand inside an action. -/
theorem Step.Shaped.single {k : Token.Kind} (hk : Token.IsInner ⟨k, here⟩) (size : Nat) :
    Step.Shaped (.action opened) ⟨[⟨k, here⟩], .action opened, size⟩ :=
  .inside opened size (List.forall_mem_singleton.mpr hk)

theorem blankStep_shaped (cs : List Char) :
    Step.Shaped (.action opened) (blankStep opened here cs) := by
  have blanks : Inner [⟨.blank (String.ofList (cs.takeWhile isBlank)), here⟩] :=
    List.forall_mem_singleton.mpr trivial
  unfold blankStep
  dsimp only
  split
  · exact .closes opened _ true _ blanks
  · exact .inside opened _ blanks

theorem dotStep_shaped (rest : List Char) :
    Step.Shaped (.action opened) (dotStep opened here rest) := by
  unfold dotStep
  dsimp only
  refine .inside opened _ (inner_cons.mpr ⟨trivial, ?_⟩)
  split
  · exact inner_nil
  · exact List.forall_mem_singleton.mpr trivial

theorem quotedStep_shaped {rest : List Char} {found : Step}
    (h : quotedStep opened here rest = .ok found) : Step.Shaped (.action opened) found := by
  unfold quotedStep at h
  split at h
  · cases h
    exact .single (by trivial) _
  · cases h
  · cases h

theorem rawStep_shaped {rest : List Char} {found : Step}
    (h : rawStep opened here rest = .ok found) : Step.Shaped (.action opened) found := by
  unfold rawStep at h
  split at h
  · cases h
    exact .single (by trivial) _
  · cases h

theorem numberStep_shaped {cs : List Char} {found : Step}
    (h : numberStep opened here cs = .ok found) : Step.Shaped (.action opened) found := by
  unfold numberStep at h
  dsimp only at h
  split at h
  · cases h
  · cases h
    exact .single (by trivial) _

theorem nameStep_shaped (cs : List Char) :
    Step.Shaped (.action opened) (nameStep opened here cs) := by
  unfold nameStep
  dsimp only
  refine .single ?_ _
  split
  · exact trivial
  · split <;> exact trivial

theorem actionStep_shaped {c : Char} {rest : List Char} {found : Step}
    (h : actionStep opened here c rest = .ok found) : Step.Shaped (.action opened) found := by
  unfold actionStep at h
  split at h
  · cases h
    exact .closes opened here false 2 inner_nil
  · cases h
    exact dotStep_shaped _
  · cases h
    exact .single (by trivial) 1
  · cases h
    exact .single (by trivial) 1
  · exact quotedStep_shaped h
  · exact rawStep_shaped h
  · split at h
    · cases h
      exact blankStep_shaped _
    · split at h
      · exact numberStep_shaped h
      · split at h
        · cases h
          exact nameStep_shaped _
        · cases h

theorem step_shaped {mode : Mode} {c : Char} {rest : List Char} {found : Step}
    (h : step mode here c rest = .ok found) : Step.Shaped mode found := by
  cases mode with
  | text trim => exact textStep_shaped h
  | action opened => exact actionStep_shaped h

/-- Bracketed tokens behind what is left of an action, if one is open. -/
def BracketedFrom (mode : Mode) (ts : List Token) : Prop :=
  match mode with
  | .text _ => Tokens.Bracketed ts
  | .action _ => ∃ inside stop rest, ts = inside ++ ⟨.actionClose, stop⟩ :: rest ∧ Inner inside ∧
      Tokens.Bracketed rest

theorem bracketed_texts {texts ts : List Token} (h : ∀ t ∈ texts, t.IsPlainText)
    (hts : Tokens.Bracketed ts) : Tokens.Bracketed (texts ++ ts) := by
  induction texts with
  | nil => exact hts
  | cons t texts ih =>
    obtain ⟨ht, hrest⟩ := List.forall_mem_cons.mp h
    exact .text ht (ih hrest)

/-- The tokens of a step before those that the steps behind it give. -/
theorem Step.Shaped.bracketed {mode : Mode} {found : Step} (h : Step.Shaped mode found)
    {ts : List Token} (hts : BracketedFrom found.mode ts) :
    BracketedFrom mode (found.tokens ++ ts) := by
  cases h with
  | opens trim opened size htexts =>
    obtain ⟨inside, stop, rest, rfl, hinside, hrest⟩ := hts
    dsimp only
    rw [List.append_assoc]
    exact bracketed_texts htexts (.action opened stop hinside hrest)
  | passes trim next size htexts => exact bracketed_texts htexts hts
  | inside opened size htokens =>
    obtain ⟨inside, stop, rest, rfl, hinside, hrest⟩ := hts
    exact ⟨_, stop, rest, (List.append_assoc _ _ _).symm, inner_append.mpr ⟨htokens, hinside⟩,
      hrest⟩
  | closes opened stop trim size htokens =>
    exact ⟨_, stop, ts, List.append_assoc _ _ _, htokens, hts⟩

theorem run_bracketed {mode : Mode} {cs : List Char} {ts : List Token}
    (h : run mode here cs = .ok ts) : BracketedFrom mode ts := by
  induction mode, here, cs using run.induct generalizing ts with
  | case1 here trim =>
    rw [run] at h
    cases h
    exact .eof here
  | case2 here opened =>
    rw [run] at h
    cases h
  | case3 mode here c rest ih =>
    obtain ⟨found, later, hstep, hlater, rfl⟩ := exists_of_run_cons h
    exact (step_shaped hstep).bracketed (ih found hlater)

end Lexer

theorem bracketed_of_tokenize {text : String} {ts : List Token} (h : tokenize text = .ok ts) :
    Tokens.Bracketed ts :=
  Lexer.run_bracketed h

/-! ## What is reported inside an action -/

/-- A fault that blames a token, if any, for standing where it is not wanted inside an action. -/
def SourceError.BlamesInner : SourceError → Prop
  | .structural (.unexpected wanted found) here => wanted ≠ .item ∧ Token.IsInner ⟨found, here⟩
  | .structural _ _ | .lexical _ _ => True

/-- What is read, or a fault that blames a token inside an action at most. -/
abbrev ReadsInner {α : Type} (P : α → Prop) (r : Except SourceError α) : Prop :=
  Ends SourceError.BlamesInner P r

theorem unexpected_inner {α : Type} {P : α → Prop} {wanted : Expectation} {t : Token}
    (hwanted : wanted ≠ .item) (ht : t.IsInner) : ReadsInner P (unexpected wanted t) :=
  ⟨hwanted, ht⟩

theorem Accessor.ofToken?_readsInner (t : Token) :
    ReadsInner (fun _ => True) (Accessor.ofToken? t) := by
  unfold Accessor.ofToken?
  split
  · exact .ok trivial
  · exact .ok trivial
  · split
    · exact .ok trivial
    · exact .error trivial
  · exact .ok trivial

theorem Accessor.ofTokens_readsInner : (ts : List Token) → Inner ts →
    ReadsInner (fun r => Inner r.2) (Accessor.ofTokens ts)
  | [], h => by
    rw [Accessor.ofTokens]
    exact .ok h
  | [t], h => by
    rw [Accessor.ofTokens]
    split
    · exact .error trivial
    · exact .ok h
  | t :: u :: rest, h => by
    rw [Accessor.ofTokens]
    split
    · refine (Accessor.ofToken?_readsInner u).bind fun step _ => ?_
      cases step with
      | none => exact .error trivial
      | some step =>
        have behind := (inner_cons.mp (inner_cons.mp h).2).2
        exact (Accessor.ofTokens_readsInner rest behind).bind fun r hr => .ok hr
    · exact .ok h

theorem Path.ofDot_readsInner (here : Location) {ts : List Token} (h : Inner ts) :
    ReadsInner (fun r => Inner r.2) (Path.ofDot here ts) := by
  cases ts with
  | nil => exact .ok h
  | cons t rest =>
    rw [Path.ofDot]
    refine (Accessor.ofToken?_readsInner t).bind fun step _ => ?_
    cases step with
    | none =>
      dsimp only
      split
      · exact .error trivial
      · exact .ok h
    | some step =>
      have behind := Accessor.ofTokens_readsInner rest (inner_cons.mp h).2
      exact behind.bind fun r hr => .ok hr

theorem Path.ofDollar_readsInner (here : Location) {ts : List Token} (h : Inner ts) :
    ReadsInner (fun r => Inner r.2) (Path.ofDollar here ts) :=
  (Accessor.ofTokens_readsInner ts h).bind fun _ hr => .ok hr

theorem Operand.ofTokens_readsInner {t : Token} (ht : t.IsInner) {rest : List Token}
    (h : Inner rest) : ReadsInner (fun r => Inner r.2) (Operand.ofTokens t rest) := by
  unfold Operand.ofTokens
  split
  · exact (Path.ofDot_readsInner t.location h).map fun _ hr => hr
  · exact (Path.ofDollar_readsInner t.location h).map fun _ hr => hr
  · exact .ok h
  · exact .ok h
  · split
    · exact .ok h
    · exact .error trivial
  · exact unexpected_inner (by decide) ht

theorem Operand.ofWord_readsInner {word : List Token} (h : Inner word) :
    ReadsInner (fun _ => True) (Operand.ofWord word) := by
  cases word with
  | nil => exact .ok trivial
  | cons t rest =>
    obtain ⟨ht, hrest⟩ := inner_cons.mp h
    rw [Operand.ofWord]
    refine (Operand.ofTokens_readsInner ht hrest).bind fun r hr => ?_
    obtain ⟨o, behind⟩ := r
    cases behind with
    | nil => exact .ok trivial
    | cons u _ => exact unexpected_inner (by decide) (inner_cons.mp hr).1

theorem Operand.ofWords_readsInner {words : List (List Token)} (h : ∀ word ∈ words, Inner word) :
    ReadsInner (fun _ => True) (Operand.ofWords words) :=
  (Ends.mapM fun word hword => Operand.ofWord_readsInner (h word hword)).bind fun _ _ => .ok trivial

theorem Command.ofCall_readsInner (t : Token) (name : String) {glued : List Token}
    (hglued : Inner glued) {words : List (List Token)} (hwords : ∀ word ∈ words, Inner word)
    (piped : Nat) : ReadsInner (fun _ => True) (Command.ofCall t name glued words piped) := by
  unfold Command.ofCall
  split
  · exact .error trivial
  · exact .error trivial
  · split
    · exact unexpected_inner (by decide) (inner_cons.mp hglued).1
    · refine (Operand.ofWords_readsInner hwords).bind fun args _ => ?_
      dsimp only
      split
      · exact .ok trivial
      · exact .error trivial

theorem Command.ofFirst_readsInner {t : Token} (ht : t.IsInner) {glued : List Token}
    (hglued : Inner glued) {words : List (List Token)} (hwords : ∀ word ∈ words, Inner word) :
    ReadsInner (fun _ => True) (Command.ofFirst t glued words) := by
  unfold Command.ofFirst
  split
  · exact Command.ofCall_readsInner t _ hglued hwords 0
  · refine (Operand.ofTokens_readsInner ht hglued).bind fun r hr => ?_
    obtain ⟨o, rest⟩ := r
    dsimp only
    split
    · exact .ok trivial
    · next u _ heq =>
      have others : Inner (rest ++ words.flatten) :=
        inner_append.mpr ⟨hr, List.forall_mem_flatten.mpr hwords⟩
      exact unexpected_inner (by decide) (others u (heq ▸ List.mem_cons_self))

theorem Command.ofStage_readsInner {stage : Token × List Token} (h : Inner stage.2) :
    ReadsInner (fun _ => True) (Command.ofStage stage) := by
  unfold Command.ofStage
  split
  · next t glued words heq =>
    obtain ⟨hword, hwords⟩ := List.forall_mem_cons.mp (heq ▸ Phrase.forall_mem_words h)
    split
    · exact Command.ofCall_readsInner t _ (inner_cons.mp hword).2 hwords 1
    · exact .error trivial
  · exact .error trivial

theorem Pipeline.ofTokens_readsInner (action : Option Keyword) {ts : List Token} (h : Inner ts)
    (stop : Location) : ReadsInner (fun _ => True) (Pipeline.ofTokens action ts stop) := by
  obtain ⟨first, later⟩ := Phrase.forall_mem_splitOn (fun t => t.kind = .pipe) h
  have words := Phrase.forall_mem_words first
  unfold Pipeline.ofTokens Phrase.stages
  generalize Phrase.splitOn (fun t => t.kind = .pipe) ts = split at *
  obtain ⟨head, stages⟩ := split
  dsimp only at *
  split
  · next heq =>
    obtain ⟨hword, hrest⟩ := List.forall_mem_cons.mp (heq ▸ words)
    obtain ⟨ht, hglued⟩ := inner_cons.mp hword
    refine (Command.ofFirst_readsInner ht hglued hrest).bind fun _ _ => ?_
    refine (Ends.mapM fun s hs => Command.ofStage_readsInner (later s hs).2).bind fun _ _ => ?_
    exact .ok trivial
  · exact unexpected_inner (by decide) (later _ List.mem_cons_self).1
  · exact .error trivial

namespace Action

variable {ts : List Token}

theorem atEnd_readsInner (h : Inner ts) : ReadsInner (fun _ => True) (atEnd ts) := by
  have behind := Phrase.forall_mem_skipBlanks h
  unfold atEnd
  split
  · exact .ok trivial
  · next heq => exact unexpected_inner (by decide) (behind _ (heq ▸ List.mem_cons_self))

theorem name_readsInner (k : Keyword) (h : Inner ts) (stop : Location) :
    ReadsInner (fun r => Inner r.2) (name k ts stop) := by
  have behind := Phrase.forall_mem_skipBlanks h
  unfold name
  split
  · exact .error trivial
  · next heq =>
    split
    · exact .ok (inner_cons.mp (heq ▸ behind)).2
    · exact .error trivial

theorem data_readsInner (h : Inner ts) (stop : Location) :
    ReadsInner (fun _ => True) (data ts stop) := by
  have behind := Phrase.forall_mem_skipBlanks h
  unfold data
  split
  · exact .ok trivial
  · next heq =>
    rw [heq] at behind
    exact (Pipeline.ofTokens_readsInner _ behind stop).map fun _ _ => trivial

theorem read_readsInner (make : Pipeline → Action) (k : Option Keyword) (h : Inner ts)
    (stop : Location) : ReadsInner (fun _ => True) (make <$> Pipeline.ofTokens k ts stop) :=
  (Pipeline.ofTokens_readsInner k h stop).map fun _ _ => trivial

theorem ofElse_readsInner (h : Inner ts) (stop : Location) :
    ReadsInner (fun _ => True) (ofElse ts stop) := by
  have behind := Phrase.forall_mem_skipBlanks h
  unfold ofElse
  split
  · exact .ok trivial
  · next heq =>
    obtain ⟨ht, hrest⟩ := inner_cons.mp (heq ▸ behind)
    split
    · exact read_readsInner _ _ hrest stop
    · exact unexpected_inner (by decide) ht

theorem ofKeyword_readsInner (k : Keyword) (h : Inner ts) (topLevel : Bool)
    (start stop : Location) :
    ReadsInner (fun _ => True) (ofKeyword k ts topLevel start stop) := by
  cases k with
  | ifWord | rangeWord | withWord => exact read_readsInner _ _ h stop
  | elseWord => exact ofElse_readsInner h stop
  | endWord => exact (atEnd_readsInner h).bind fun _ _ => .ok trivial
  | templateWord =>
    refine (name_readsInner _ h stop).bind fun r hr => ?_
    exact (data_readsInner hr stop).map fun _ _ => trivial
  | defineWord =>
    unfold ofKeyword
    dsimp only
    split
    · refine (name_readsInner _ h stop).bind fun r hr => ?_
      exact (atEnd_readsInner hr).bind fun _ _ => .ok trivial
    · exact .error trivial
  | blockWord =>
    refine (name_readsInner _ h stop).bind fun r hr => ?_
    exact read_readsInner _ _ hr stop

/-- What is wrong with tokens that can stand inside an action blames one of them at most. -/
theorem ofTokens_readsInner (h : Inner ts) (topLevel : Bool) (start stop : Location) :
    ReadsInner (fun _ => True) (ofTokens ts topLevel start stop) := by
  have behind := Phrase.forall_mem_skipBlanks h
  unfold ofTokens
  split
  · exact .error trivial
  · next heq =>
    rw [heq] at behind
    split
    · exact ofKeyword_readsInner _ (inner_cons.mp behind).2 topLevel start stop
    · exact read_readsInner _ _ behind stop

end Action

/-! ## Messages -/

/-- Texts of which neither starts with the other. -/
abbrev Apart (s t : String) : Prop :=
  ¬ s.toList <+: t.toList ∧ ¬ t.toList <+: s.toList

/-- Texts that go apart stay apart, whatever follows. -/
theorem Apart.append {s t : String} (h : Apart s t) (later : String) : Apart s (t ++ later) := by
  obtain ⟨hs, ht⟩ := h
  rw [Apart, String.toList_append]
  refine ⟨fun hstarts => ?_, fun hstarts => ht ((List.prefix_append _ _).trans hstarts)⟩
  exact (List.prefix_or_prefix_of_prefix hstarts (List.prefix_append _ _)).elim hs ht

theorem LexicalFault.message_apart (fault : LexicalFault) :
    Apart "Unexpected token: " fault.message := by
  cases fault with
  | unclosedAction | unclosedComment | commentRunsOn | unterminatedString => decide
  | invalidEscape c | unexpectedCharacter c => exact .append (.append (by decide) _) _
  | badNumber spelling next => exact .append (.append (.append (by decide) _) _) _

theorem StructuralFault.message_apart {fault : StructuralFault}
    (h : ∀ found, fault ≠ .unexpected .item found) :
    Apart "Unexpected token: " fault.message := by
  cases fault with
  | unexpected wanted found =>
    cases wanted with
    | item => exact absurd rfl (h found)
    | operand | close | endOfValue | spaceBetweenArguments =>
      exact .append (.append (by decide) _) _
  | strayEnd | strayElse | nestedDefine | missingCommand | pipedValue | malformedPath => decide
  | elseIfIn | secondElse | unclosed | missingName | badNumber => exact .append (by decide) _
  | missingValue action =>
    cases action with
    | none => decide
    | some k => exact .append (by decide) _
  | redefined | keywordInPipeline | undefinedFunction => exact .append (.append (by decide) _) _
  | wrongCount => exact .append (.append (.append (.append (.append (by decide) _) _) _) _) _

theorem tokenize_blames {text : String} {e : SourceError} (h : tokenize text = .error e) :
    e.BlamesInner := by
  have lexical := (tokenize_placed text).of_error h
  cases e with
  | lexical fault here => trivial
  | structural fault here => exact lexical.elim

/-- No such fault is worded as that of a token between items. -/
theorem SourceError.BlamesInner.message_apart {e : SourceError} (h : e.BlamesInner) :
    Apart "Unexpected token: " e.message := by
  cases e with
  | lexical fault here => exact fault.message_apart
  | structural fault here =>
    refine StructuralFault.message_apart fun found hfault => ?_
    subst hfault
    exact h.1 rfl

/-! ## The parser -/

namespace Parser

theorem isInside_of_inner {ts : List Token} (h : Inner ts) : ∀ t ∈ ts, isInside t = true := by
  intro t ht
  have inner := h t ht
  unfold Token.IsInner at inner
  unfold isInside
  split at inner
  · exact inner.elim
  · exact inner.elim
  · exact inner.elim
  · exact inner.elim
  · next hclose _ => exact decide_eq_true hclose

variable {main : String} {σ τ : State} {ts rest : List Token}

/-- What an action is refused for, where it is read, blames no token. -/
theorem State.act_readsInner (σ : State) (main : String) (action : Action) (here : Location) :
    ReadsInner (fun _ => True) (σ.act main action here) := by
  have otherwise (subject : Option Pipeline) :
      ReadsInner (fun _ => True) (σ.otherwise subject here) := by
    unfold State.otherwise
    split
    · exact .error trivial
    · split
      · dsimp only
        split
        · exact .ok trivial
        · exact .ok trivial
        · exact .error trivial
      · exact .error trivial
  have definition (opener : Opener) (name : String) :
      ReadsInner (fun _ => True) (σ.openDefinition main opener name here) := by
    unfold State.openDefinition
    split
    · exact .error trivial
    · exact .ok trivial
  cases action with
  | output p | embed name data | opening kind subject => exact .ok trivial
  | otherwise => exact otherwise none
  | otherwiseIf subject => exact otherwise (some subject)
  | close =>
    unfold State.act State.close
    dsimp only
    split
    · exact .error trivial
    · split
      · exact .ok trivial
      · exact .ok trivial
      · exact .ok trivial
  | define name => exact definition _ name
  | slot name data => exact definition _ name

theorem State.finish_readsInner (σ : State) (main : String) :
    ReadsInner (fun _ => True) (σ.finish main) := by
  unfold State.finish
  split
  · exact .ok trivial
  · exact .error trivial

theorem run_readsInner (h : Tokens.Bracketed ts) (main : String) (σ : State) :
    ReadsInner (fun _ => True) (run main σ ts) := by
  induction h generalizing σ with
  | eof here =>
    rw [run]
    exact State.finish_readsInner σ main
  | @text t ts ht _ ih =>
    obtain ⟨content, hkind, -⟩ := ht
    rw [run, hkind]
    exact ih _
  | action start stop hinside _ ih =>
    rw [run]
    dsimp only
    rw [splitAction_append (isInside_of_inner hinside)]
    refine (Action.ofTokens_readsInner hinside _ start stop).bind fun action _ => ?_
    exact (State.act_readsInner σ main action start).bind fun τ _ => ih τ

/-- The parser reads an item, a text or an action. -/
inductive Moves (main : String) : State × List Token → State × List Token → Prop where
  | text (σ : State) (content : String) (here : Location) (rest : List Token) :
      Moves main (σ, ⟨.text content, here⟩ :: rest) (σ.push (.leaf (.text content here)), rest)
  | action {σ τ : State} {action : Action} (here : Location) {rest : List Token} :
      Action.ofTokens (splitAction rest).1 σ.frames.isEmpty here (splitAction rest).2.1 =
        .ok action → σ.act main action here = .ok τ →
      Moves main (σ, ⟨.actionOpen, here⟩ :: rest) (τ, (splitAction rest).2.2)

/-- A run is what is left to do after a move. -/
theorem Moves.run_eq {a b : State × List Token} (h : Moves main a b) :
    run main a.1 a.2 = run main b.1 b.2 := by
  cases h with
  | text σ content here rest => rw [run]
  | action here hread hact =>
    rw [run]
    dsimp only
    rw [hread]
    dsimp only [bind, Except.bind]
    rw [hact]

theorem run_eq_of_moves {a b : State × List Token}
    (h : Relation.ReflTransGen (Moves main) a b) : run main a.1 a.2 = run main b.1 b.2 := by
  induction h with
  | refl => rfl
  | tail _ hmove ih => exact ih.trans hmove.run_eq

theorem Moves.bracketed {a b : State × List Token} (h : Moves main a b)
    (ha : Tokens.Bracketed a.2) : Tokens.Bracketed b.2 := by
  cases h with
  | text σ content here rest =>
    cases ha with
    | text _ hrest => exact hrest
  | action here hread hact =>
    cases ha with
    | text ht =>
      obtain ⟨content, hkind, -⟩ := ht
      cases hkind
    | action _ stop hinside hrest =>
      rw [splitAction_append (isInside_of_inner hinside)]
      exact hrest

/-- Where the parser stands between two items: at the end of the source, at a text, or at an action
that is cut where it is closed, with nothing but its own tokens before that. -/
inductive AtItem : List Token → Prop where
  | eof (here : Location) : AtItem [⟨.eof, here⟩]
  | text (content : String) (here : Location) (rest : List Token) :
      AtItem (⟨.text content, here⟩ :: rest)
  | action {inside : List Token} {stop : Location} {later : List Token} (start : Location) :
      Inner inside →
      splitAction (inside ++ ⟨.actionClose, stop⟩ :: later) = (inside, stop, later) →
      AtItem (⟨.actionOpen, start⟩ :: (inside ++ ⟨.actionClose, stop⟩ :: later))

theorem atItem_of_bracketed (h : Tokens.Bracketed ts) : AtItem ts := by
  cases h with
  | eof here => exact .eof here
  | @text t ts ht _ =>
    obtain ⟨kind, here⟩ := t
    obtain ⟨content, rfl, -⟩ := ht
    exact .text content here ts
  | action start stop hinside _ =>
    exact .action start hinside (splitAction_append (isInside_of_inner hinside) stop _)

/-- Wherever the parser comes to, what is left is bracketed. -/
theorem bracketed_of_moves {a b : State × List Token}
    (h : Relation.ReflTransGen (Moves main) a b) (ha : Tokens.Bracketed a.2) :
    Tokens.Bracketed b.2 := by
  induction h with
  | refl => exact ha
  | tail _ hmove ih => exact hmove.bracketed ih

end Parser

/-- **Sources are bracketed.** The tokens of a source are texts and whole actions up to the mark of
the end, where a text is not empty and holds no opening. So the parser meets the end between two
items only: wherever it comes to, it stands at the end, at a text, or at an action that is closed.
And a source that is refused is refused for something else than a token that is no item; what its
message names as unexpected can stand inside an action. -/
theorem Source.parse_bracketed (name text : String) :
    (∀ ts, tokenize text = .ok ts → Tokens.Bracketed ts ∧
      ∀ σ rest, Relation.ReflTransGen (Parser.Moves name) (.initial, ts) (σ, rest) →
        Parser.AtItem rest ∧ Parser.run name σ rest = Source.parse name text) ∧
      ∀ e, Source.parse name text = .error e →
        ¬ "Unexpected token: ".toList <+: e.message.toList ∧ e.BlamesInner := by
  constructor
  · intro ts hts
    have bracketed := bracketed_of_tokenize hts
    refine ⟨bracketed, fun σ rest moves => ⟨?_, ?_⟩⟩
    · exact Parser.atItem_of_bracketed (Parser.bracketed_of_moves moves bracketed)
    · rw [parse, hts]
      exact (Parser.run_eq_of_moves moves).symm
  · intro e he
    have blames : e.BlamesInner := by
      cases hts : tokenize text with
      | error fault =>
        rw [parse, hts] at he
        cases he
        exact tokenize_blames hts
      | ok ts =>
        rw [parse, hts] at he
        exact (Parser.run_readsInner (bracketed_of_tokenize hts) name .initial).of_error he
    exact ⟨blames.message_apart.1, blames⟩

/-- A source that is cut into tokens and refused for its `end`, behind its text. -/
theorem Source.parse_bracketed_strayEnd : ∃ rest e,
    tokenize "a\x7b\x7bend\x7d\x7d" = .ok (⟨.text "a", .start⟩ :: rest) ∧
      Source.parse "page" "a\x7b\x7bend\x7d\x7d" = .error e ∧
      Tokens.Bracketed (⟨.text "a", .start⟩ :: rest) ∧ Parser.AtItem rest ∧
      ¬ "Unexpected token: ".toList <+: e.message.toList ∧ e.BlamesInner := by
  have tokens : tokenize "a\x7b\x7bend\x7d\x7d" = .ok [⟨.text "a", .start⟩,
      ⟨.actionOpen, ⟨1, 2, 1⟩⟩, ⟨.identifier "end", ⟨1, 4, 3⟩⟩, ⟨.actionClose, ⟨1, 7, 6⟩⟩,
      ⟨.eof, ⟨1, 9, 8⟩⟩] := by decide +kernel
  have stray : ¬ Avoids (· = .structural .strayEnd ⟨1, 2, 1⟩)
      (Source.parse "page" "a\x7b\x7bend\x7d\x7d") := by decide +kernel
  obtain ⟨e, refused, -⟩ := exists_of_not_avoids stray
  obtain ⟨reads, blames⟩ := parse_bracketed "page" "a\x7b\x7bend\x7d\x7d"
  obtain ⟨bracketed, reached⟩ := reads _ tokens
  have behind := reached _ _ (.single (.text .initial "a" .start _))
  exact ⟨_, e, tokens, refused, bracketed, behind.1, blames _ refused⟩

end Stencil
