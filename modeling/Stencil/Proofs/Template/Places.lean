import Stencil.Proofs.Results
import Stencil.Template.Action

/-!
# Actions read at other places

What the tokens of an action say does not depend on where they stand. Two lists of tokens are alike
if their kinds are the same one by one (`Tokens.Alike`); readers of pipelines and actions agree on
them, up to the locations that a pipeline keeps (`Pipeline.bare`), for reports of what goes wrong in
a run.
-/

set_option autoImplicit false

namespace Stencil

/-! ## Pipelines without locations -/

/-- A path without its location. -/
def Path.bare (p : Path) : Path := { p with location := .outside }

/-- An operand without its location. -/
def Operand.bare : Operand → Operand
  | .path p => .path p.bare
  | .literal l => .literal l

/-- A command without locations. -/
def Command.bare : Command → Command
  | .operand o => .operand o.bare
  | .call f args _ => .call f (args.map Operand.bare) .outside

/-- A pipeline without locations. -/
def Pipeline.bare (p : Pipeline) : Pipeline := ⟨p.commands.map Command.bare, .outside⟩

/-! ## Tokens -/

/-- Tokens of the same kinds, wherever they stand. -/
abbrev Tokens.Alike (ts ts' : List Token) : Prop :=
  List.Forall₂ (fun t t' => t.kind = t'.kind) ts ts'

theorem Token.isBlank_eq {t t' : Token} (h : t.kind = t'.kind) : t.isBlank = t'.isBlank := by
  unfold Token.isBlank
  rw [h]

theorem Token.keyword?_eq {t t' : Token} (h : t.kind = t'.kind) : t.keyword? = t'.keyword? := by
  unfold Token.keyword?
  rw [h]

theorem unexpected_agree {α β : Type} {R : α → β → Prop} (wanted : Expectation) (t t' : Token) :
    Agree R (unexpected wanted t) (unexpected wanted t') := .error _ _

theorem structural_agree {α β : Type} {R : α → β → Prop} (fault : StructuralFault)
    (here here' : Location) : Agree R (structural fault here) (structural fault here') := .error _ _

/-! ## Phrases -/

namespace Phrase

variable {ts ts' : List Token}

/-- The first runs, and the later ones with the tokens before them. -/
def Alike (r r' : List Token × List (Token × List Token)) : Prop :=
  Tokens.Alike r.1 r'.1 ∧
    List.Forall₂ (fun s s' => s.1.kind = s'.1.kind ∧ Tokens.Alike s.2 s'.2) r.2 r'.2

theorem splitOn_alike {separates : Token → Bool}
    (hs : ∀ t t' : Token, t.kind = t'.kind → separates t = separates t')
    (h : Tokens.Alike ts ts') : Alike (splitOn separates ts) (splitOn separates ts') := by
  induction h with
  | nil => exact ⟨.nil, .nil⟩
  | @cons t t' rest rest' ht _ ih =>
    unfold splitOn
    rw [hs t t' ht]
    dsimp only
    split
    · exact ⟨.nil, .cons ⟨ht, ih.1⟩ ih.2⟩
    · exact ⟨.cons ht ih.1, ih.2⟩

theorem stages_alike (h : Tokens.Alike ts ts') : Alike (stages ts) (stages ts') :=
  splitOn_alike (fun t t' ht => by rw [ht]) h

theorem filter_alike {as bs : List (List Token)} (h : List.Forall₂ Tokens.Alike as bs) :
    List.Forall₂ Tokens.Alike (as.filter (· ≠ [])) (bs.filter (· ≠ [])) := by
  induction h with
  | nil => exact .nil
  | cons hab _ ih =>
    cases hab with
    | nil => exact ih
    | cons ht hrest => exact .cons (.cons ht hrest) ih

theorem words_alike (h : Tokens.Alike ts ts') :
    List.Forall₂ Tokens.Alike (words ts) (words ts') := by
  obtain ⟨first, later⟩ := splitOn_alike (fun _ _ => Token.isBlank_eq) h
  have runs : List.Forall₂ Tokens.Alike
      ((splitOn Token.isBlank ts).1 :: (splitOn Token.isBlank ts).2.map Prod.snd)
      ((splitOn Token.isBlank ts').1 :: (splitOn Token.isBlank ts').2.map Prod.snd) := by
    refine .cons first ?_
    rw [List.forall₂_map_left_iff, List.forall₂_map_right_iff]
    exact later.imp fun _ _ hs => hs.2
  exact filter_alike runs

theorem skipBlanks_alike (h : Tokens.Alike ts ts') :
    Tokens.Alike (skipBlanks ts) (skipBlanks ts') := by
  unfold skipBlanks
  induction h with
  | nil => exact .nil
  | @cons t t' rest rest' ht hrest ih =>
    rw [List.dropWhile_cons, List.dropWhile_cons, Token.isBlank_eq ht]
    split
    · exact ih
    · exact .cons ht hrest

theorem flatten_alike {words words' : List (List Token)}
    (h : List.Forall₂ Tokens.Alike words words') : Tokens.Alike words.flatten words'.flatten := by
  induction h with
  | nil => exact .nil
  | cons hw _ ih => exact List.rel_append hw ih

end Phrase

/-! ## Operands -/

/-- What is read is the same up to locations, and so are the tokens behind it. -/
def SameRead {α β : Type} (bare : α → β) (r r' : α × List Token) : Prop :=
  bare r.1 = bare r'.1 ∧ Tokens.Alike r.2 r'.2

theorem Accessor.ofToken?_agree {t t' : Token} (h : t.kind = t'.kind) :
    Agree Eq (Accessor.ofToken? t) (Accessor.ofToken? t') := by
  unfold Accessor.ofToken?
  rw [← h]
  split
  · exact .ok rfl
  · exact .ok rfl
  · split
    · exact .ok rfl
    · exact structural_agree _ _ _
  · exact .ok rfl

theorem Accessor.ofTokens_agree : {ts ts' : List Token} → Tokens.Alike ts ts' →
    Agree (SameRead id) (Accessor.ofTokens ts) (Accessor.ofTokens ts')
  | [], [], .nil => .ok ⟨rfl, .nil⟩
  | [t], [t'], .cons ht .nil => by
    rw [Accessor.ofTokens, Accessor.ofTokens, ht]
    split
    · exact structural_agree _ _ _
    · exact .ok ⟨rfl, .cons ht .nil⟩
  | t :: u :: rest, t' :: u' :: rest', .cons ht (.cons hu hrest) => by
    rw [Accessor.ofTokens, Accessor.ofTokens, ht]
    split
    · refine (Accessor.ofToken?_agree hu).bind fun step step' heq => ?_
      subst heq
      split
      · exact structural_agree _ _ _
      · refine (Accessor.ofTokens_agree hrest).bind fun r r' hr => ?_
        exact .ok ⟨congrArg (_ :: ·) hr.1, hr.2⟩
    · exact .ok ⟨rfl, .cons ht (.cons hu hrest)⟩

section

variable {t t' : Token} {ts ts' : List Token}

theorem Path.ofDot_agree (here here' : Location) (h : Tokens.Alike ts ts') :
    Agree (SameRead Path.bare) (Path.ofDot here ts) (Path.ofDot here' ts') := by
  cases h with
  | nil => exact .ok ⟨rfl, .nil⟩
  | @cons t t' rest rest' ht hrest =>
    rw [Path.ofDot, Path.ofDot]
    refine (Accessor.ofToken?_agree ht).bind fun step step' heq => ?_
    subst heq
    split
    · rw [ht]
      split
      · exact structural_agree _ _ _
      · exact .ok ⟨rfl, .cons ht hrest⟩
    · refine (Accessor.ofTokens_agree hrest).bind fun r r' hr => ?_
      refine .ok ⟨?_, hr.2⟩
      have steps : r.1 = r'.1 := hr.1
      dsimp only [Path.bare]
      rw [steps]

theorem Path.ofDollar_agree (here here' : Location) (h : Tokens.Alike ts ts') :
    Agree (SameRead Path.bare) (Path.ofDollar here ts) (Path.ofDollar here' ts') := by
  refine (Accessor.ofTokens_agree h).bind fun r r' hr => ?_
  refine .ok ⟨?_, hr.2⟩
  have steps : r.1 = r'.1 := hr.1
  dsimp only [Path.bare]
  rw [steps]

theorem Operand.ofTokens_agree (ht : t.kind = t'.kind) (h : Tokens.Alike ts ts') :
    Agree (SameRead Operand.bare) (Operand.ofTokens t ts) (Operand.ofTokens t' ts') := by
  unfold Operand.ofTokens
  rw [← ht]
  split
  · exact (Path.ofDot_agree _ _ h).map fun r r' hr => ⟨congrArg Operand.path hr.1, hr.2⟩
  · exact (Path.ofDollar_agree _ _ h).map fun r r' hr => ⟨congrArg Operand.path hr.1, hr.2⟩
  · exact .ok ⟨rfl, h⟩
  · exact .ok ⟨rfl, h⟩
  · split
    · exact .ok ⟨rfl, h⟩
    · exact structural_agree _ _ _
  · exact unexpected_agree _ _ _

theorem Operand.ofWord_agree (h : Tokens.Alike ts ts') :
    Agree (fun os os' => os.map Operand.bare = os'.map Operand.bare) (Operand.ofWord ts)
      (Operand.ofWord ts') := by
  cases h with
  | nil => exact .ok rfl
  | cons ht hrest =>
    refine (Operand.ofTokens_agree ht hrest).bind fun r r' hr => ?_
    obtain ⟨o, behind⟩ := r
    obtain ⟨o', behind'⟩ := r'
    obtain ⟨ho, hbehind⟩ := hr
    cases hbehind with
    | nil => exact .ok (congrArg (fun x => [x]) ho)
    | cons hu _ => exact unexpected_agree _ _ _

theorem Operand.ofWords_agree {words words' : List (List Token)}
    (h : List.Forall₂ Tokens.Alike words words') :
    Agree (fun os os' => os.map Operand.bare = os'.map Operand.bare) (Operand.ofWords words)
      (Operand.ofWords words') := by
  refine (Agree.mapM (fun _ _ hw => Operand.ofWord_agree hw) h).bind fun os os' hos => .ok ?_
  induction hos with
  | nil => rfl
  | cons ho _ ih =>
    rw [List.flatten_cons, List.flatten_cons, List.map_append, List.map_append, ho, ih]

/-! ## Commands -/

theorem Command.ofCall_agree (t t' : Token) (name : String) {glued glued' : List Token}
    (hglued : Tokens.Alike glued glued') {words words' : List (List Token)}
    (hwords : List.Forall₂ Tokens.Alike words words') (piped : Nat) :
    Agree (fun c c' => c.bare = c'.bare) (Command.ofCall t name glued words piped)
      (Command.ofCall t' name glued' words' piped) := by
  unfold Command.ofCall
  split
  · exact structural_agree _ _ _
  · exact structural_agree _ _ _
  · cases hglued with
    | cons hu _ => exact unexpected_agree _ _ _
    | nil =>
      refine (Operand.ofWords_agree hwords).bind fun args args' hargs => ?_
      have count : args.length = args'.length := by simpa using congrArg List.length hargs
      rw [count]
      dsimp only
      split
      · refine .ok ?_
        rw [Command.bare, Command.bare, hargs]
      · exact structural_agree _ _ _

theorem Command.ofFirst_agree (ht : t.kind = t'.kind) {glued glued' : List Token}
    (hglued : Tokens.Alike glued glued') {words words' : List (List Token)}
    (hwords : List.Forall₂ Tokens.Alike words words') :
    Agree (fun c c' => c.bare = c'.bare) (Command.ofFirst t glued words)
      (Command.ofFirst t' glued' words') := by
  unfold Command.ofFirst
  rw [← ht]
  split
  · exact Command.ofCall_agree t t' _ hglued hwords 0
  · refine (Operand.ofTokens_agree ht hglued).bind fun r r' hr => ?_
    obtain ⟨o, behind⟩ := r
    obtain ⟨o', behind'⟩ := r'
    have rest : Tokens.Alike (behind ++ words.flatten) (behind' ++ words'.flatten) :=
      List.rel_append hr.2 (Phrase.flatten_alike hwords)
    dsimp only
    generalize behind ++ words.flatten = us at rest
    generalize behind' ++ words'.flatten = us' at rest
    cases rest with
    | nil => exact .ok (congrArg Command.operand hr.1)
    | cons hu _ => exact unexpected_agree _ _ _

theorem Command.ofStage_agree (s s' : Token × List Token)
    (h : s.1.kind = s'.1.kind ∧ Tokens.Alike s.2 s'.2) :
    Agree (fun c c' => c.bare = c'.bare) (Command.ofStage s) (Command.ofStage s') := by
  have words := Phrase.words_alike h.2
  unfold Command.ofStage
  generalize Phrase.words s.2 = ws at words
  generalize Phrase.words s'.2 = ws' at words
  cases words with
  | nil => exact structural_agree _ _ _
  | cons hw hws =>
    cases hw with
    | nil => exact structural_agree _ _ _
    | cons ht hglued =>
      dsimp only
      rw [← ht]
      split
      · exact Command.ofCall_agree _ _ _ hglued hws 1
      · exact structural_agree _ _ _

/-- A pipeline is read in the same way wherever its tokens stand. -/
theorem Pipeline.ofTokens_agree (action : Option Keyword) (h : Tokens.Alike ts ts')
    (stop stop' : Location) :
    Agree (fun p p' => p.bare = p'.bare) (Pipeline.ofTokens action ts stop)
      (Pipeline.ofTokens action ts' stop') := by
  obtain ⟨hfirst, hlater⟩ := Phrase.stages_alike h
  have words := Phrase.words_alike hfirst
  unfold Pipeline.ofTokens
  generalize Phrase.stages ts = stages at hfirst hlater words
  generalize Phrase.stages ts' = stages' at hfirst hlater words
  obtain ⟨first, later⟩ := stages
  obtain ⟨first', later'⟩ := stages'
  dsimp only at hlater words ⊢
  generalize Phrase.words first = ws at words
  generalize Phrase.words first' = ws' at words
  cases words with
  | nil =>
    cases hlater with
    | nil => exact structural_agree _ _ _
    | cons _ _ => exact unexpected_agree _ _ _
  | cons hw hws =>
    cases hw with
    | nil =>
      cases hlater with
      | nil => exact structural_agree _ _ _
      | cons _ _ => exact unexpected_agree _ _ _
    | cons ht hglued =>
      dsimp only
      refine (Command.ofFirst_agree ht hglued hws).bind fun head head' hhead => ?_
      refine (Agree.mapM Command.ofStage_agree hlater).bind fun rest rest' hrest => .ok ?_
      have commands : rest.map Command.bare = rest'.map Command.bare := by
        induction hrest with
        | nil => rfl
        | cons hc _ ih => rw [List.map_cons, List.map_cons, hc, ih]
      rw [Pipeline.bare, Pipeline.bare, List.map_cons, List.map_cons, hhead, commands]

end

/-! ## Actions -/

namespace Action

/-- Actions that are the same up to locations. -/
inductive Alike : Action → Action → Prop where
  | output {p p' : Pipeline} : p.bare = p'.bare → Alike (.output p) (.output p')
  | opening (kind : BlockKind) {p p' : Pipeline} : p.bare = p'.bare →
      Alike (.opening kind p) (.opening kind p')
  | otherwise : Alike .otherwise .otherwise
  | otherwiseIf {p p' : Pipeline} : p.bare = p'.bare → Alike (.otherwiseIf p) (.otherwiseIf p')
  | close : Alike .close .close
  | embed (name : String) {data data' : Option Pipeline} :
      data.map Pipeline.bare = data'.map Pipeline.bare →
      Alike (.embed name data) (.embed name data')
  | define (name : String) : Alike (.define name) (.define name)
  | slot (name : String) {p p' : Pipeline} : p.bare = p'.bare → Alike (.slot name p) (.slot name p')

variable {ts ts' : List Token}

theorem read_agree (make : Pipeline → Action)
    (hmake : ∀ p p', p.bare = p'.bare → (make p).Alike (make p'))
    (k : Option Keyword) (h : Tokens.Alike ts ts') (stop stop' : Location) :
    Agree Alike (make <$> Pipeline.ofTokens k ts stop) (make <$> Pipeline.ofTokens k ts' stop') :=
  (Pipeline.ofTokens_agree k h stop stop').map fun p p' hp => hmake p p' hp

theorem atEnd_agree (h : Tokens.Alike ts ts') : Agree Eq (atEnd ts) (atEnd ts') := by
  have rest := Phrase.skipBlanks_alike h
  unfold atEnd
  generalize Phrase.skipBlanks ts = us at rest
  generalize Phrase.skipBlanks ts' = us' at rest
  cases rest with
  | nil => exact .ok rfl
  | cons ht _ => exact unexpected_agree _ _ _

theorem name_agree (k : Keyword) (h : Tokens.Alike ts ts') (stop stop' : Location) :
    Agree (SameRead id) (name k ts stop) (name k ts' stop') := by
  have rest := Phrase.skipBlanks_alike h
  unfold name
  generalize Phrase.skipBlanks ts = us at rest
  generalize Phrase.skipBlanks ts' = us' at rest
  cases rest with
  | nil => exact structural_agree _ _ _
  | cons ht hrest =>
    dsimp only
    rw [← ht]
    split
    · exact .ok ⟨rfl, hrest⟩
    · exact structural_agree _ _ _

theorem data_agree (h : Tokens.Alike ts ts') (stop stop' : Location) :
    Agree (fun d d' => d.map Pipeline.bare = d'.map Pipeline.bare) (data ts stop)
      (data ts' stop') := by
  have rest := Phrase.skipBlanks_alike h
  unfold data
  generalize Phrase.skipBlanks ts = us at rest
  generalize Phrase.skipBlanks ts' = us' at rest
  cases rest with
  | nil => exact .ok rfl
  | cons ht hrest =>
    exact (Pipeline.ofTokens_agree _ (.cons ht hrest) stop stop').map fun p p' hp =>
      congrArg some hp

theorem ofElse_agree (h : Tokens.Alike ts ts') (stop stop' : Location) :
    Agree Alike (ofElse ts stop) (ofElse ts' stop') := by
  have rest := Phrase.skipBlanks_alike h
  unfold ofElse
  generalize Phrase.skipBlanks ts = us at rest
  generalize Phrase.skipBlanks ts' = us' at rest
  cases rest with
  | nil => exact .ok .otherwise
  | cons ht hrest =>
    dsimp only
    rw [Token.keyword?_eq ht]
    split
    · exact read_agree .otherwiseIf (fun _ _ => .otherwiseIf) _ hrest stop stop'
    · exact unexpected_agree _ _ _

theorem ofKeyword_agree (k : Keyword) (h : Tokens.Alike ts ts') (topLevel : Bool)
    (start start' stop stop' : Location) :
    Agree Alike (ofKeyword k ts topLevel start stop) (ofKeyword k ts' topLevel start' stop') := by
  cases k with
  | ifWord | rangeWord | withWord =>
    exact read_agree (.opening _) (fun _ _ => .opening _) _ h stop stop'
  | elseWord => exact ofElse_agree h stop stop'
  | endWord => exact (atEnd_agree h).bind fun _ _ _ => .ok .close
  | templateWord =>
    refine (name_agree .templateWord h stop stop').bind fun r r' hr => ?_
    refine (data_agree hr.2 stop stop').map fun d d' hd => ?_
    have called : r.1 = r'.1 := hr.1
    rw [called]
    exact .embed _ hd
  | defineWord =>
    unfold ofKeyword
    dsimp only
    split
    · refine (name_agree .defineWord h stop stop').bind fun r r' hr => ?_
      have called : r.1 = r'.1 := hr.1
      refine (atEnd_agree hr.2).bind fun _ _ _ => .ok ?_
      rw [called]
      exact .define _
    · exact structural_agree _ _ _
  | blockWord =>
    refine (name_agree .blockWord h stop stop').bind fun r r' hr => ?_
    have called : r.1 = r'.1 := hr.1
    refine (Pipeline.ofTokens_agree _ hr.2 stop stop').map fun p p' hp => ?_
    rw [called]
    exact .slot _ hp

/-- An action is read in the same way wherever its tokens stand. -/
theorem ofTokens_agree (h : Tokens.Alike ts ts') (topLevel : Bool)
    (start start' stop stop' : Location) :
    Agree Alike (ofTokens ts topLevel start stop) (ofTokens ts' topLevel start' stop') := by
  have rest := Phrase.skipBlanks_alike h
  unfold ofTokens
  generalize Phrase.skipBlanks ts = us at rest
  generalize Phrase.skipBlanks ts' = us' at rest
  cases rest with
  | nil => exact structural_agree _ _ _
  | cons ht hrest =>
    dsimp only
    rw [Token.keyword?_eq ht]
    split
    · exact ofKeyword_agree _ hrest topLevel start start' stop stop'
    · exact read_agree .output (fun _ _ => .output) _ (.cons ht hrest) stop stop'

end Action

end Stencil
