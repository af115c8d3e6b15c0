import Stencil.Proofs.Numeral.Reading
import Stencil.Proofs.Template.Counts
import Stencil.Proofs.Template.Places
import Stencil.Value.Printed

/-!
# Spelled actions

How operands, commands, pipelines and actions are spelled in tokens: a blank between a command's
words, a pipe between blanks before every later command (`Action.kinds`). What is spelled is read
back: an action from any tokens of these kinds, up to locations (`Action.ofTokens_of_kinds`).

The readers take the tokens of an action apart into stages and words before they read one, so the
first laws are those of these splits on tokens put one behind the other (`Phrase.splitOn_append`,
`Phrase.words_append`). The readers are then followed on tokens that all stand at no place, where
the result is exact; other tokens of the same kinds give the same, wherever they stand.
-/

set_option autoImplicit false

namespace Stencil

/-! ## Spelling -/

/-- The kind of token that spells an accessor. The words for truth values are no identifiers. -/
def Accessor.kind : Accessor → Token.Kind
  | .field name =>
    if name = "true" then .bool true else if name = "false" then .bool false else .identifier name
  | .index i => .number (Numeral.text i)

/-- The kinds of tokens that spell accessors, each behind a dot. -/
def Accessor.kinds (steps : List Accessor) : List Token.Kind :=
  steps.flatMap fun step => [.dot, step.kind]

/-- The kinds of tokens that spell a path. -/
def Path.kinds (p : Path) : List Token.Kind :=
  match p.root, p.accessors with
  | .dot, [] => [.dot]
  | .dot, steps => Accessor.kinds steps
  | .dollar, steps => .dollar :: Accessor.kinds steps

/-- The kind of token that spells a literal. -/
def Literal.kind : Literal → Token.Kind
  | .string s => .string s
  | .bool b => .bool b
  | .int n => .number (String.ofList (Numeral.integer n.toInt))
  | .float x => .number (String.ofList (Value.floatLayout.spell x))

/-- The kinds of tokens that spell an operand. -/
def Operand.kinds : Operand → List Token.Kind
  | .path p => p.kinds
  | .literal l => [l.kind]

/-- The kinds of tokens that spell arguments, each behind a blank. -/
def Operand.kindsOf (args : List Operand) : List Token.Kind :=
  args.flatMap fun o => .blank " " :: o.kinds

/-- The kinds of tokens that spell a command. -/
def Command.kinds : Command → List Token.Kind
  | .operand o => o.kinds
  | .call f args _ => .identifier f.name :: Operand.kindsOf args

/-- The kinds of tokens that spell commands, each behind a pipe. -/
def Command.kindsOf (later : List Command) : List Token.Kind :=
  later.flatMap fun c => .blank " " :: .pipe :: .blank " " :: c.kinds

/-- The kinds of tokens that spell a pipeline. -/
def Pipeline.kinds (p : Pipeline) : List Token.Kind :=
  match p.commands with
  | [] => []
  | first :: later => first.kinds ++ Command.kindsOf later

/-- The kind of token that spells a keyword. -/
def Keyword.kind (k : Keyword) : Token.Kind := .identifier k.spelling

/-- The kinds of tokens that spell an action, without its delimiters. -/
def Action.kinds : Action → List Token.Kind
  | .output p => p.kinds
  | .opening kind p => kind.keyword.kind :: .blank " " :: p.kinds
  | .otherwise => [Keyword.elseWord.kind]
  | .otherwiseIf p =>
    Keyword.elseWord.kind :: .blank " " :: Keyword.ifWord.kind :: .blank " " :: p.kinds
  | .close => [Keyword.endWord.kind]
  | .embed name none => [Keyword.templateWord.kind, .blank " ", .string name]
  | .embed name (some p) =>
    Keyword.templateWord.kind :: .blank " " :: .string name :: .blank " " :: p.kinds
  | .define name => [Keyword.defineWord.kind, .blank " ", .string name]
  | .slot name p => Keyword.blockWord.kind :: .blank " " :: .string name :: .blank " " :: p.kinds

/-- An accessor that has a spelling: an index is a word of 64 bits. -/
def Accessor.Spellable : Accessor → Prop
  | .field _ => True
  | .index i => i ≤ Numeral.maxWord

/-- An operand that has a spelling: no float, and a path whose accessors have one. -/
def Operand.Spellable : Operand → Prop
  | .path p => ∀ step ∈ p.accessors, step.Spellable
  | .literal (.float _) => False
  | .literal _ => True

/-- The operands of a command. -/
def Command.operands : Command → List Operand
  | .operand o => [o]
  | .call _ args _ => args

/-- A well-formed pipeline whose operands have spellings. -/
structure Pipeline.Spellable (p : Pipeline) : Prop where
  wellFormed : p.WellFormed
  operands : ∀ c ∈ p.commands, ∀ o ∈ c.operands, o.Spellable

/-- Tokens of some kinds, at no place of a source. -/
def Tokens.ofKinds (ks : List Token.Kind) : List Token := ks.map (⟨·, .outside⟩)

namespace Tokens

@[simp] theorem ofKinds_cons (k : Token.Kind) (ks : List Token.Kind) :
    ofKinds (k :: ks) = ⟨k, .outside⟩ :: ofKinds ks := rfl

@[simp] theorem ofKinds_append (ks ks' : List Token.Kind) :
    ofKinds (ks ++ ks') = ofKinds ks ++ ofKinds ks' := List.map_append

@[simp] theorem map_kind_ofKinds (ks : List Token.Kind) : (ofKinds ks).map (·.kind) = ks := by
  rw [ofKinds, List.map_map]
  exact List.map_id ks

theorem forall_mem_ofKinds {P : Token → Prop} {ks : List Token.Kind} :
    (∀ t ∈ ofKinds ks, P t) ↔ ∀ k ∈ ks, P ⟨k, .outside⟩ := List.forall_mem_map

theorem alike_ofKinds {ts : List Token} {ks : List Token.Kind} (h : ts.map (·.kind) = ks) :
    Alike (ofKinds ks) ts := by
  subst h
  induction ts with
  | nil => exact .nil
  | cons t rest ih => exact .cons rfl ih

end Tokens

/-! ## Separators -/

/-- What a token separates: nothing, words, stages, or an action from what follows. -/
def Token.Kind.level : Token.Kind → Nat
  | .blank _ => 1
  | .pipe => 2
  | .actionClose => 3
  | _ => 0

/-- Kinds of tokens that separate at most so much. -/
def Tokens.Below (level : Nat) (ks : List Token.Kind) : Prop := ∀ k ∈ ks, k.level ≤ level

namespace Tokens

variable {level : Nat}

@[simp] theorem below_nil : Below level [] := nofun

@[simp] theorem below_cons {k : Token.Kind} {ks : List Token.Kind} :
    Below level (k :: ks) ↔ k.level ≤ level ∧ Below level ks := List.forall_mem_cons

@[simp] theorem below_append {ks ks' : List Token.Kind} :
    Below level (ks ++ ks') ↔ Below level ks ∧ Below level ks' := List.forall_mem_append

theorem below_flatMap {α : Type} {as : List α} {f : α → List Token.Kind}
    (h : ∀ a, Below level (f a)) : Below level (as.flatMap f) :=
  List.forall_mem_flatMap.mpr fun a _ => h a

theorem Below.mono {level' : Nat} {ks : List Token.Kind} (h : Below level ks)
    (hle : level ≤ level') : Below level' ks :=
  fun k hk => Nat.le_trans (h k hk) hle

end Tokens

theorem Accessor.level_kind (step : Accessor) : step.kind.level = 0 := by
  unfold Accessor.kind
  split
  · split
    · rfl
    · split <;> rfl
  · rfl

theorem Accessor.kinds_below (steps : List Accessor) : Tokens.Below 0 (Accessor.kinds steps) :=
  Tokens.below_flatMap fun step => Tokens.below_cons.mpr
    ⟨Nat.le_refl 0, Tokens.below_cons.mpr ⟨Nat.le_of_eq step.level_kind, Tokens.below_nil⟩⟩

theorem Operand.kinds_below (o : Operand) : Tokens.Below 0 o.kinds := by
  cases o with
  | path p =>
    unfold Operand.kinds Path.kinds
    dsimp only
    split
    · simp [Token.Kind.level]
    · exact Accessor.kinds_below _
    · simpa [Token.Kind.level] using Accessor.kinds_below _
  | literal l => cases l <;> simp [Operand.kinds, Literal.kind, Token.Kind.level]

theorem Operand.kindsOf_below (args : List Operand) : Tokens.Below 1 (Operand.kindsOf args) :=
  Tokens.below_flatMap fun o => Tokens.below_cons.mpr
    ⟨Nat.le_refl 1, o.kinds_below.mono (Nat.zero_le 1)⟩

theorem Command.kinds_below (c : Command) : Tokens.Below 1 c.kinds := by
  cases c with
  | operand o => exact o.kinds_below.mono (Nat.zero_le 1)
  | call f args here => exact Tokens.below_cons.mpr ⟨Nat.zero_le 1, Operand.kindsOf_below args⟩

theorem Pipeline.kinds_below (p : Pipeline) : Tokens.Below 2 p.kinds := by
  have command (c : Command) : Tokens.Below 2 c.kinds := c.kinds_below.mono (Nat.le_succ 1)
  unfold Pipeline.kinds
  split
  · simp
  · refine Tokens.below_append.mpr ⟨command _, Tokens.below_flatMap fun c => ?_⟩
    simpa [Token.Kind.level] using command c

/-- What spells an action does not close it. -/
theorem Action.kinds_below (a : Action) : Tokens.Below 2 a.kinds := by
  have pipeline (p : Pipeline) : Tokens.Below 2 p.kinds := p.kinds_below
  cases a with
  | embed name data => cases data <;> simp [Action.kinds, Keyword.kind, Token.Kind.level, pipeline]
  | _ => simp [Action.kinds, Keyword.kind, Token.Kind.level, pipeline]

/-! ## Stages and words -/

namespace Phrase

variable {separates : Token → Bool} {ts : List Token}

theorem splitOn_append (h : ∀ t ∈ ts, separates t = false) (rest : List Token) :
    splitOn separates (ts ++ rest) =
      (ts ++ (splitOn separates rest).1, (splitOn separates rest).2) := by
  induction ts with
  | nil => rfl
  | cons t ts ih =>
    obtain ⟨ht, hts⟩ := List.forall_mem_cons.mp h
    rw [List.cons_append, splitOn, ih hts, ht]
    rfl

theorem words_blank_cons {t : Token} (h : t.isBlank = true) (rest : List Token) :
    words (t :: rest) = words rest := by
  rw [words, splitOn, h]
  rfl

theorem words_blanks (h : ∀ t ∈ ts, t.isBlank = true) : words ts = [] := by
  induction ts with
  | nil => rfl
  | cons t ts ih =>
    obtain ⟨ht, hts⟩ := List.forall_mem_cons.mp h
    rw [words_blank_cons ht, ih hts]

/-- A word is one of its own where nothing or a blank follows it. -/
theorem words_append (hne : ts ≠ []) (h : ∀ t ∈ ts, t.isBlank = false) {rest : List Token}
    (hrest : ∀ t ∈ rest.head?, t.isBlank = true) : words (ts ++ rest) = ts :: words rest := by
  have ends : (splitOn Token.isBlank rest).1 = [] := by
    cases rest with
    | nil => rfl
    | cons t rest =>
      rw [splitOn, hrest t rfl]
      rfl
  rw [words, splitOn_append h, words]
  dsimp only
  rw [ends, List.append_nil, List.filter_cons_of_pos (by simpa using hne),
    List.filter_cons_of_neg (by simp)]

end Phrase

/-! ## Operands -/

theorem Accessor.ofToken?_kind {step : Accessor} (h : step.Spellable) :
    Accessor.ofToken? ⟨step.kind, .outside⟩ = .ok (some step) := by
  cases step with
  | field name =>
    unfold Accessor.ofToken? Accessor.kind
    by_cases htrue : name = "true"
    · simp [htrue]
    · by_cases hfalse : name = "false"
      · simp [hfalse]
      · simp [htrue, hfalse]
  | index i =>
    have word : Numeral.word? (Numeral.text i).toList = some i := by
      rw [Numeral.text, String.toList_ofList, Numeral.word?_decimal h]
    simp only [Accessor.ofToken?, Accessor.kind, word]

theorem Accessor.ofTokens_kinds {steps : List Accessor} (h : ∀ step ∈ steps, step.Spellable) :
    Accessor.ofTokens (Tokens.ofKinds (Accessor.kinds steps)) = .ok (steps, []) := by
  induction steps with
  | nil => rfl
  | cons step steps ih =>
    obtain ⟨hstep, hsteps⟩ := List.forall_mem_cons.mp h
    have tokens : Tokens.ofKinds (Accessor.kinds (step :: steps)) =
        ⟨.dot, .outside⟩ :: ⟨step.kind, .outside⟩ :: Tokens.ofKinds (Accessor.kinds steps) := rfl
    rw [tokens, Accessor.ofTokens, if_pos rfl, Accessor.ofToken?_kind hstep]
    change (Accessor.ofTokens _ >>= _) = _
    rw [ih hsteps]
    rfl

theorem Path.ofDot_kinds {step : Accessor} {steps : List Accessor}
    (hstep : step.Spellable) (hsteps : ∀ s ∈ steps, s.Spellable) :
    Path.ofDot .outside
        (⟨step.kind, .outside⟩ :: Tokens.ofKinds (Accessor.kinds steps)) =
      .ok (⟨.dot, step :: steps, .outside⟩, []) := by
  rw [Path.ofDot, Accessor.ofToken?_kind hstep]
  change (Accessor.ofTokens _ >>= _) = _
  rw [Accessor.ofTokens_kinds hsteps]
  rfl

theorem Literal.ofNumber?_integer (n : Int64) :
    Literal.ofNumber? (String.ofList (Numeral.integer n.toInt)) = some (.int n) := by
  have whole : '.' ∉ Numeral.integer n.toInt := by
    have point : '.' ∉ '-' :: Numeral.digits 10 := by decide
    exact fun h => point (Numeral.integer_subset _ h)
  rw [Literal.ofNumber?, String.toList_ofList, if_neg whole, Numeral.integer?_integer,
    Option.bind_some, Numeral.int64?_toInt, Option.map_some]

/-- An operand is read from its tokens, which start with no identifier. -/
theorem Operand.exists_ofTokens {o : Operand} (h : o.Spellable) :
    ∃ t rest, Tokens.ofKinds o.kinds = t :: rest ∧ (∀ name, t.kind ≠ .identifier name) ∧
      Operand.ofTokens t rest = .ok (o.bare, []) := by
  cases o with
  | path p =>
    obtain ⟨root, steps, here⟩ := p
    cases root with
    | dot =>
      cases steps with
      | nil => exact ⟨_, _, rfl, by rintro _ ⟨⟩, rfl⟩
      | cons step steps =>
        obtain ⟨hstep, hsteps⟩ := List.forall_mem_cons.mp h
        refine ⟨⟨.dot, .outside⟩, _, rfl, by rintro _ ⟨⟩, ?_⟩
        exact congrArg (Except.map fun r => (Operand.path r.1, r.2))
          (Path.ofDot_kinds hstep hsteps)
    | dollar =>
      refine ⟨⟨.dollar, .outside⟩, Tokens.ofKinds (Accessor.kinds steps), rfl,
        by rintro _ ⟨⟩, ?_⟩
      rw [Operand.ofTokens, Path.ofDollar, Accessor.ofTokens_kinds h]
      rfl
  | literal l =>
    cases l with
    | string s => exact ⟨_, _, rfl, by rintro _ ⟨⟩, rfl⟩
    | bool b => exact ⟨_, _, rfl, by rintro _ ⟨⟩, rfl⟩
    | int n =>
      refine ⟨_, _, rfl, by rintro _ ⟨⟩, ?_⟩
      rw [Operand.ofTokens, Literal.kind]
      dsimp only
      rw [Literal.ofNumber?_integer]
      rfl
    | float x => exact h.elim

/-! ## Commands -/

theorem Tokens.Below.isBlank {ks : List Token.Kind} (h : Tokens.Below 0 ks) :
    ∀ t ∈ Tokens.ofKinds ks, t.isBlank = false := by
  refine Tokens.forall_mem_ofKinds.mpr fun k hk => ?_
  have := h k hk
  cases k with
  | blank s => cases this
  | _ => rfl

theorem Operand.ofKinds_ne_nil (o : Operand) : Tokens.ofKinds o.kinds ≠ [] := by
  cases o with
  | path p =>
    obtain ⟨root, steps, here⟩ := p
    cases root with
    | dot => cases steps <;> exact List.cons_ne_nil _ _
    | dollar => exact List.cons_ne_nil _ _
  | literal l => exact List.cons_ne_nil _ _

theorem Operand.head?_kindsOf (args : List Operand) {blanks : List Token}
    (h : ∀ t ∈ blanks, t.isBlank = true) :
    ∀ t ∈ (Tokens.ofKinds (Operand.kindsOf args) ++ blanks).head?, t.isBlank = true := by
  cases args with
  | nil => exact fun t ht => h t (List.mem_of_mem_head? ht)
  | cons o args =>
    rintro t ⟨⟩
    rfl

/-- Each argument is a word, whatever blanks follow. -/
theorem Operand.words_kindsOf (args : List Operand) {blanks : List Token}
    (h : ∀ t ∈ blanks, t.isBlank = true) :
    Phrase.words (Tokens.ofKinds (Operand.kindsOf args) ++ blanks) =
      args.map fun o => Tokens.ofKinds o.kinds := by
  induction args with
  | nil => exact Phrase.words_blanks h
  | cons o args ih =>
    have tokens : Tokens.ofKinds (Operand.kindsOf (o :: args)) ++ blanks =
        ⟨.blank " ", .outside⟩ :: (Tokens.ofKinds o.kinds ++
          (Tokens.ofKinds (Operand.kindsOf args) ++ blanks)) := by
      simp [Operand.kindsOf]
    rw [tokens, Phrase.words_blank_cons rfl, Phrase.words_append o.ofKinds_ne_nil
      o.kinds_below.isBlank (Operand.head?_kindsOf args h), ih, List.map_cons]

theorem Operand.ofWord_kinds {o : Operand} (h : o.Spellable) :
    Operand.ofWord (Tokens.ofKinds o.kinds) = .ok [o.bare] := by
  obtain ⟨t, rest, htokens, -, hread⟩ := Operand.exists_ofTokens h
  rw [htokens, Operand.ofWord, hread]
  rfl

theorem Operand.ofWords_kinds {args : List Operand} (h : ∀ o ∈ args, o.Spellable) :
    Operand.ofWords (args.map fun o => Tokens.ofKinds o.kinds) = .ok (args.map Operand.bare) := by
  have words : (args.map fun o => Tokens.ofKinds o.kinds).mapM Operand.ofWord =
      .ok (args.map fun o => [o.bare]) := by
    induction args with
    | nil => rfl
    | cons o args ih =>
      obtain ⟨ho, hargs⟩ := List.forall_mem_cons.mp h
      rw [List.map_cons, List.mapM_cons, Operand.ofWord_kinds ho, ih hargs]
      rfl
  have flat : (args.map fun o => [o.bare]).flatten = args.map Operand.bare := by
    rw [← List.flatMap_def, List.map_eq_flatMap]
  rw [Operand.ofWords, words]
  exact congrArg Except.ok flat

theorem Builtin.ofName?_name (f : Builtin) : Builtin.ofName? f.name = some f := by
  cases f <;> rfl

theorem Builtin.ofSpelling?_name (f : Builtin) : Keyword.ofSpelling? f.name = none := by
  cases f <;> rfl

theorem Command.ofCall_kinds {f : Builtin} {args : List Operand} {here : Location} {piped : Nat}
    (hargs : ∀ o ∈ args, o.Spellable) (htakes : (Command.call f args here).Takes piped) :
    Command.ofCall ⟨.identifier f.name, .outside⟩ f.name []
      (args.map fun o => Tokens.ofKinds o.kinds) piped = .ok (Command.call f args here).bare := by
  unfold Command.ofCall
  rw [Builtin.ofSpelling?_name, Builtin.ofName?_name]
  dsimp only
  rw [Operand.ofWords_kinds hargs]
  have counted : f.takes ((args.map Operand.bare).length + piped) = true := by
    rw [List.length_map]
    exact htakes
  change (if f.takes ((args.map Operand.bare).length + piped) = true then _ else _) = _
  rw [if_pos counted]
  rfl

theorem Command.words_operand (o : Operand) {blanks : List Token}
    (h : ∀ t ∈ blanks, t.isBlank = true) :
    Phrase.words (Tokens.ofKinds (Command.operand o).kinds ++ blanks) =
      [Tokens.ofKinds o.kinds] := by
  rw [Command.kinds, Phrase.words_append o.ofKinds_ne_nil o.kinds_below.isBlank
    fun t ht => h t (List.mem_of_mem_head? ht), Phrase.words_blanks h]

theorem Command.words_call (f : Builtin) (args : List Operand) (here : Location)
    {blanks : List Token} (h : ∀ t ∈ blanks, t.isBlank = true) :
    Phrase.words (Tokens.ofKinds (Command.call f args here).kinds ++ blanks) =
      [⟨.identifier f.name, .outside⟩] :: args.map fun o => Tokens.ofKinds o.kinds := by
  have tokens : Tokens.ofKinds (Command.call f args here).kinds ++ blanks =
      [⟨.identifier f.name, .outside⟩] ++ (Tokens.ofKinds (Operand.kindsOf args) ++ blanks) := rfl
  rw [tokens, Phrase.words_append (List.cons_ne_nil _ _) (List.forall_mem_singleton.mpr rfl)
    (Operand.head?_kindsOf args h), Operand.words_kindsOf args h]

/-- The first command is read from its words. -/
theorem Command.exists_ofFirst {c : Command} (hs : ∀ o ∈ c.operands, o.Spellable)
    (hc : c.Takes 0) {blanks : List Token} (h : ∀ t ∈ blanks, t.isBlank = true) :
    ∃ t glued words, Phrase.words (Tokens.ofKinds c.kinds ++ blanks) = (t :: glued) :: words ∧
      t.location = .outside ∧ Command.ofFirst t glued words = .ok c.bare := by
  cases c with
  | operand o =>
    obtain ⟨t, rest, htokens, hkind, hread⟩ :=
      Operand.exists_ofTokens (List.forall_mem_singleton.mp hs)
    refine ⟨t, rest, [], ?_, ?_, ?_⟩
    · rw [Command.words_operand o h, htokens]
    · have everywhere : ∀ t ∈ Tokens.ofKinds o.kinds, t.location = .outside :=
        Tokens.forall_mem_ofKinds.mpr fun _ _ => rfl
      exact everywhere t (htokens ▸ List.mem_cons_self)
    · unfold Command.ofFirst
      split
      · next name hname => exact absurd hname (hkind name)
      · rw [hread]
        rfl
  | call f args here =>
    exact ⟨_, [], _, Command.words_call f args here h, rfl, Command.ofCall_kinds hs hc⟩

/-- A later command is read from what stands behind its pipe. -/
theorem Command.ofStage_kinds {c : Command} (hs : ∀ o ∈ c.operands, o.Spellable)
    (hc : c.Takes 1) {blanks : List Token} (h : ∀ t ∈ blanks, t.isBlank = true) (pipe : Token) :
    Command.ofStage (pipe, ⟨.blank " ", .outside⟩ :: (Tokens.ofKinds c.kinds ++ blanks)) =
      .ok c.bare := by
  cases c with
  | operand o => exact absurd hc Nat.one_ne_zero
  | call f args here =>
    unfold Command.ofStage
    dsimp only
    rw [Phrase.words_blank_cons rfl, Command.words_call f args here h]
    exact Command.ofCall_kinds hs hc

/-! ## Pipelines -/

theorem Tokens.Below.isPipe {ks : List Token.Kind} (h : Tokens.Below 1 ks) :
    ∀ t ∈ Tokens.ofKinds ks, decide (t.kind = .pipe) = false := by
  refine Tokens.forall_mem_ofKinds.mpr fun k hk => decide_eq_false ?_
  rintro rfl
  exact absurd (h .pipe hk) (by decide)

/-- Later commands are stages of their own; a blank before the first of them belongs to what stands
before it. -/
theorem Command.exists_stages {later : List Command}
    (hs : ∀ c ∈ later, ∀ o ∈ c.operands, o.Spellable) (hc : ∀ c ∈ later, c.Takes 1) :
    ∃ blanks stages, Phrase.stages (Tokens.ofKinds (Command.kindsOf later)) = (blanks, stages) ∧
      (∀ t ∈ blanks, t.isBlank = true) ∧
      stages.mapM Command.ofStage = .ok (later.map Command.bare) := by
  induction later with
  | nil => exact ⟨[], [], rfl, nofun, rfl⟩
  | cons c later ih =>
    obtain ⟨hs₁, hs₂⟩ := List.forall_mem_cons.mp hs
    obtain ⟨hc₁, hc₂⟩ := List.forall_mem_cons.mp hc
    obtain ⟨blanks, stages, hstages, hblanks, hread⟩ := ih hs₂ hc₂
    let blank : Token := ⟨.blank " ", .outside⟩
    let pipe : Token := ⟨.pipe, .outside⟩
    have tokens : Tokens.ofKinds (Command.kindsOf (c :: later)) = blank :: pipe :: blank ::
        (Tokens.ofKinds c.kinds ++ Tokens.ofKinds (Command.kindsOf later)) := by
      simp [Command.kindsOf, blank, pipe]
    -- the blank of the next pipe ends up behind this command
    refine ⟨[blank], (pipe, blank :: (Tokens.ofKinds c.kinds ++ blanks)) :: stages, ?_,
      List.forall_mem_singleton.mpr rfl, ?_⟩
    · have behind := Phrase.splitOn_append c.kinds_below.isPipe
        (Tokens.ofKinds (Command.kindsOf later))
      rw [Phrase.stages] at hstages
      rw [hstages] at behind
      rw [tokens, Phrase.stages, Phrase.splitOn, Phrase.splitOn, Phrase.splitOn, behind]
      rfl
    · rw [List.mapM_cons, Command.ofStage_kinds hs₁ hc₁ hblanks, hread]
      rfl

/-- A pipeline is read from its tokens. -/
theorem Pipeline.ofTokens_kinds {p : Pipeline} (h : p.Spellable) (action : Option Keyword)
    (stop : Location) :
    Pipeline.ofTokens action (Tokens.ofKinds p.kinds) stop = .ok p.bare := by
  obtain ⟨⟨first, later, hcommands, hfirst, hlater⟩, hoperands⟩ := h
  rw [hcommands] at hoperands
  obtain ⟨hs₁, hs₂⟩ := List.forall_mem_cons.mp hoperands
  obtain ⟨blanks, stages, hstages, hblanks, hrest⟩ := Command.exists_stages hs₂ hlater
  obtain ⟨t, glued, words, hwords, hplace, hread⟩ := Command.exists_ofFirst hs₁ hfirst hblanks
  have split : Phrase.stages (Tokens.ofKinds p.kinds) =
      (Tokens.ofKinds first.kinds ++ blanks, stages) := by
    rw [Phrase.stages] at hstages
    rw [Pipeline.kinds, hcommands]
    dsimp only
    rw [Tokens.ofKinds_append, Phrase.stages, Phrase.splitOn_append first.kinds_below.isPipe,
      hstages]
  unfold Pipeline.ofTokens
  rw [split]
  dsimp only
  rw [hwords]
  dsimp only
  rw [hread, hrest, hplace, Pipeline.bare, hcommands]
  rfl

theorem Pipeline.ofTokens_blank_cons (action : Option Keyword) {t : Token}
    (h : t.isBlank = true) (ts : List Token) (stop : Location) :
    Pipeline.ofTokens action (t :: ts) stop = Pipeline.ofTokens action ts stop := by
  have inside : decide (t.kind = .pipe) = false := by
    refine decide_eq_false fun hpipe => ?_
    rw [Token.isBlank, hpipe] at h
    cases h
  have split : Phrase.stages (t :: ts) = (t :: (Phrase.stages ts).1, (Phrase.stages ts).2) := by
    rw [Phrase.stages, Phrase.splitOn, inside]
    rfl
  unfold Pipeline.ofTokens
  rw [split]
  dsimp only
  rw [Phrase.words_blank_cons h]

/-! ## Actions -/

theorem Keyword.ofSpelling?_spelling (k : Keyword) : Keyword.ofSpelling? k.spelling = some k := by
  cases k <;> rfl

theorem Operand.bare_bare (o : Operand) : o.bare.bare = o.bare := by
  cases o <;> rfl

theorem Command.bare_bare (c : Command) : c.bare.bare = c.bare := by
  cases c with
  | operand o => rw [Command.bare, Command.bare, Operand.bare_bare]
  | call f args here => simp [Command.bare, Operand.bare_bare]

theorem Pipeline.bare_bare (p : Pipeline) : p.bare.bare = p.bare := by
  simp [Pipeline.bare, Command.bare_bare]

/-- A pipeline starts with a token that is neither a blank nor a keyword. -/
theorem Pipeline.exists_kinds {p : Pipeline} (h : p.Spellable) :
    ∃ t rest, Tokens.ofKinds p.kinds = t :: rest ∧ t.isBlank = false ∧ t.keyword? = none := by
  obtain ⟨⟨first, later, hcommands, -, -⟩, hoperands⟩ := h
  rw [hcommands] at hoperands
  rw [Pipeline.kinds, hcommands]
  dsimp only
  cases first with
  | operand o =>
    obtain ⟨t, rest, htokens, hkind, -⟩ :=
      Operand.exists_ofTokens (hoperands _ List.mem_cons_self o List.mem_cons_self)
    refine ⟨t, rest ++ Tokens.ofKinds (Command.kindsOf later), ?_, ?_, ?_⟩
    · rw [Tokens.ofKinds_append, Command.kinds, htokens, List.cons_append]
    · exact o.kinds_below.isBlank t (htokens ▸ List.mem_cons_self)
    · unfold Token.keyword?
      split
      · next name hname => exact absurd hname (hkind name)
      · rfl
  | call f args here =>
    exact ⟨⟨.identifier f.name, .outside⟩, _, rfl, rfl, f.ofSpelling?_name⟩

namespace Action

theorem Alike.trans {a b c : Action} (h : a.Alike b) (h' : b.Alike c) : a.Alike c := by
  cases h with
  | output hp => cases h' with | output hp' => exact .output (hp.trans hp')
  | opening kind hp => cases h' with | opening _ hp' => exact .opening kind (hp.trans hp')
  | otherwise => exact h'
  | otherwiseIf hp => cases h' with | otherwiseIf hp' => exact .otherwiseIf (hp.trans hp')
  | close => exact h'
  | embed name hd => cases h' with | embed _ hd' => exact .embed name (hd.trans hd')
  | define name => exact h'
  | slot name hp => cases h' with | slot _ hp' => exact .slot name (hp.trans hp')

/-- An action whose pipelines have spellings. -/
def Spellable (a : Action) : Prop := ∀ p ∈ a.pipelines, p.Spellable

/-- An action may stand here: a definition only outside of blocks. -/
def Fits (a : Action) (topLevel : Bool) : Prop := topLevel = true ∨ ∀ name, a ≠ .define name

theorem ofTokens_keyword (k : Keyword) (rest : List Token) (topLevel : Bool)
    (start stop : Location) :
    ofTokens (⟨k.kind, .outside⟩ :: rest) topLevel start stop =
      ofKeyword k rest topLevel start stop := by
  have keyword : Token.keyword? ⟨k.kind, .outside⟩ = some k := k.ofSpelling?_spelling
  have head : Phrase.skipBlanks (⟨k.kind, .outside⟩ :: rest) = ⟨k.kind, .outside⟩ :: rest := rfl
  rw [ofTokens, head]
  dsimp only
  rw [keyword]

theorem read_kinds {p : Pipeline} (h : p.Spellable) (make : Pipeline → Action)
    (k : Option Keyword) (stop : Location) :
    make <$> Pipeline.ofTokens k (⟨.blank " ", .outside⟩ :: Tokens.ofKinds p.kinds) stop =
      .ok (make p.bare) := by
  rw [Pipeline.ofTokens_blank_cons k rfl, Pipeline.ofTokens_kinds h]
  rfl

/-- An action is read from its tokens. -/
theorem exists_ofTokens {a : Action} (h : a.Spellable) {topLevel : Bool} (hfits : a.Fits topLevel)
    (start stop : Location) :
    ∃ a', ofTokens (Tokens.ofKinds a.kinds) topLevel start stop = .ok a' ∧ a.Alike a' := by
  cases a with
  | output p =>
    have hp : p.Spellable := h p List.mem_cons_self
    obtain ⟨t, rest, htokens, hblank, hkeyword⟩ := Pipeline.exists_kinds hp
    have head : Phrase.skipBlanks (t :: rest) = t :: rest :=
      List.dropWhile_cons_of_neg (Bool.eq_false_iff.mp hblank)
    refine ⟨.output p.bare, ?_, .output p.bare_bare.symm⟩
    rw [kinds, htokens, ofTokens, head]
    dsimp only
    rw [hkeyword, ← htokens]
    dsimp only
    rw [Pipeline.ofTokens_kinds hp]
    rfl
  | opening kind p =>
    have hp : p.Spellable := h p List.mem_cons_self
    refine ⟨.opening kind p.bare, ?_, .opening kind p.bare_bare.symm⟩
    refine (ofTokens_keyword kind.keyword _ topLevel start stop).trans ?_
    cases kind <;> exact read_kinds hp (.opening _) _ stop
  | otherwise => exact ⟨.otherwise, ofTokens_keyword .elseWord [] topLevel start stop, .otherwise⟩
  | otherwiseIf p =>
    have hp : p.Spellable := h p List.mem_cons_self
    refine ⟨.otherwiseIf p.bare, ?_, .otherwiseIf p.bare_bare.symm⟩
    exact (ofTokens_keyword .elseWord _ topLevel start stop).trans
      (read_kinds hp .otherwiseIf _ stop)
  | close => exact ⟨.close, ofTokens_keyword .endWord [] topLevel start stop, .close⟩
  | embed name data =>
    cases data with
    | none =>
      exact ⟨.embed name none, ofTokens_keyword .templateWord _ topLevel start stop,
        .embed name rfl⟩
    | some p =>
      have hp : p.Spellable := h p List.mem_cons_self
      obtain ⟨t, rest, htokens, hblank, -⟩ := Pipeline.exists_kinds hp
      have given : Action.data (⟨.blank " ", .outside⟩ :: Tokens.ofKinds p.kinds) stop =
          .ok (some p.bare) := by
        have head : Phrase.skipBlanks (⟨.blank " ", .outside⟩ :: t :: rest) = t :: rest :=
          List.dropWhile_cons_of_neg (Bool.eq_false_iff.mp hblank)
        rw [Action.data, htokens, head]
        dsimp only
        rw [← htokens, Pipeline.ofTokens_kinds hp]
        rfl
      refine ⟨.embed name (some p.bare), ?_, .embed name (congrArg some p.bare_bare.symm)⟩
      refine (ofTokens_keyword .templateWord _ topLevel start stop).trans ?_
      exact congrArg (Functor.map (Action.embed name)) given
  | define name =>
    have outside : topLevel = true := hfits.resolve_right fun h => h name rfl
    subst outside
    exact ⟨.define name, ofTokens_keyword .defineWord _ true start stop, .define name⟩
  | slot name p =>
    have hp : p.Spellable := h p List.mem_cons_self
    refine ⟨.slot name p.bare, ?_, .slot name p.bare_bare.symm⟩
    exact (ofTokens_keyword .blockWord _ topLevel start stop).trans
      (read_kinds hp (.slot name) _ stop)

/-- An action is read from any tokens of the kinds that spell it. -/
theorem ofTokens_of_kinds {a : Action} (h : a.Spellable) {topLevel : Bool}
    (hfits : a.Fits topLevel) {ts : List Token} (hts : ts.map (·.kind) = a.kinds)
    (start stop : Location) :
    ∃ a', ofTokens ts topLevel start stop = .ok a' ∧ a.Alike a' := by
  obtain ⟨read, hread, halike⟩ := exists_ofTokens h hfits start stop
  have agree := ofTokens_agree (Tokens.alike_ofKinds hts) topLevel start start stop stop
  rw [hread] at agree
  cases hok : ofTokens ts topLevel start stop with
  | error e =>
    rw [hok] at agree
    exact agree.elim
  | ok a' =>
    rw [hok] at agree
    exact ⟨a', rfl, halike.trans agree⟩

end Action

end Stencil
