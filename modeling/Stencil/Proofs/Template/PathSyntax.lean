import Stencil.Proofs.Template.Pipelines
import Stencil.Proofs.Template.Touching

/-!
# The syntax of paths

A path stands where the source spells it: a dot by itself, or a dot before each accessor and perhaps
a dollar sign before all of them (`Path.SpelledBy`). A field is written as its name and an index in
digits. These may carry a plus sign: behind a dot, a sign starts a number as it does elsewhere, and
the reader of words of 64 bits takes a plus sign. This is the only way in which a path is spelled
other than it is documented (`Source.parse_paths_spelled`).

The readers take a path from tokens that stand one behind the other
(`Pipeline.readFrom_of_ofTokens`), and these touch each other, so the source holds the path without
gaps.
-/

set_option autoImplicit false

namespace Stencil

open Stencil.Text

/-! ## Spellings -/

/-- How an accessor is documented to be written behind its dot. -/
inductive Accessor.Documented : Accessor → List Char → Prop where
  | field {name : String} : Lexer.isName name.toList = true → Documented (.field name) name.toList
  | index {digits : List Char} : digits ≠ [] → (∀ x ∈ digits, isDigit x = true) →
      Documented (.index (Numeral.value 10 digits)) digits

/-- How an accessor may be written behind its dot. -/
inductive Accessor.Accepted : Accessor → List Char → Prop where
  | documented {step : Accessor} {cs : List Char} : step.Documented cs → Accepted step cs
  | signed {i : Nat} {digits : List Char} : (Accessor.index i).Documented digits →
      Accepted (.index i) ('+' :: digits)

/-- What accessors are written as, each behind a dot. -/
def Accessor.dotted (spellings : List (List Char)) : List Char :=
  spellings.flatMap ('.' :: ·)

/-- A path is spelled by characters, where its accessors are written in a way. -/
inductive Path.SpelledBy (written : Accessor → List Char → Prop) : Path → List Char → Prop where
  | here (location : Location) : SpelledBy written ⟨.dot, [], location⟩ ['.']
  | dot {steps : List Accessor} {spellings : List (List Char)} (location : Location) :
      steps ≠ [] → List.Forall₂ written steps spellings →
      SpelledBy written ⟨.dot, steps, location⟩ (Accessor.dotted spellings)
  | dollar {steps : List Accessor} {spellings : List (List Char)} (location : Location) :
      List.Forall₂ written steps spellings →
      SpelledBy written ⟨.dollar, steps, location⟩ ('$' :: Accessor.dotted spellings)

namespace Accessor

variable {step : Accessor} {cs : List Char} {steps : List Accessor} {spellings : List (List Char)}

theorem Documented.plus_not_mem (h : step.Documented cs) : '+' ∉ cs := by
  intro hplus
  cases h with
  | @field name hname =>
    cases hcs : name.toList with
    | nil =>
      rw [hcs] at hplus
      cases hplus
    | cons c rest =>
      rw [hcs] at hname hplus
      obtain ⟨hstart, hrest⟩ := Bool.and_eq_true_iff.mp hname
      rcases List.mem_cons.mp hplus with rfl | hmem
      · cases hstart
      · cases List.all_eq_true.mp hrest _ hmem
  | index _ hdigits => cases hdigits _ hplus

theorem Accepted.documented_of_not_mem (h : step.Accepted cs) (hplus : '+' ∉ cs) :
    step.Documented cs := by
  cases h with
  | documented hdoc => exact hdoc
  | signed _ => exact absurd List.mem_cons_self hplus

theorem plus_mem_dotted_cons {spelling : List Char} :
    '+' ∈ dotted (spelling :: spellings) ↔ '+' ∈ spelling ∨ '+' ∈ dotted spellings := by
  simp [dotted]

theorem plus_not_mem_dotted (h : List.Forall₂ Documented steps spellings) :
    '+' ∉ dotted spellings := by
  induction h with
  | nil => exact List.not_mem_nil
  | cons hstep _ ih =>
    rw [plus_mem_dotted_cons, not_or]
    exact ⟨hstep.plus_not_mem, ih⟩

theorem forall₂_documented (h : List.Forall₂ Accepted steps spellings)
    (hplus : '+' ∉ dotted spellings) : List.Forall₂ Documented steps spellings := by
  induction h with
  | nil => exact .nil
  | cons hstep _ ih =>
    rw [plus_mem_dotted_cons, not_or] at hplus
    exact .cons (hstep.documented_of_not_mem hplus.1) (ih hplus.2)

end Accessor

/-- A path is spelled as it is documented exactly if there is no plus sign in its spelling. -/
theorem Path.SpelledBy.documented_iff {p : Path} {cs : List Char}
    (h : p.SpelledBy Accessor.Accepted cs) : p.SpelledBy Accessor.Documented cs ↔ '+' ∉ cs := by
  constructor
  · intro hdoc
    cases hdoc with
    | here location => decide
    | dot location _ hsteps => exact Accessor.plus_not_mem_dotted hsteps
    | dollar location hsteps =>
      rw [List.mem_cons, not_or]
      exact ⟨by decide, Accessor.plus_not_mem_dotted hsteps⟩
  · intro hplus
    cases h with
    | here location => exact .here location
    | dot location hne hsteps =>
      exact .dot location hne (Accessor.forall₂_documented hsteps hplus)
    | dollar location hsteps =>
      exact .dollar location (Accessor.forall₂_documented hsteps fun h => hplus (.tail _ h))

/-- Behind the dot of a path of an index stands a digit, as it is documented. -/
theorem Path.SpelledBy.exists_digit {i : Nat} {location : Location} {cs : List Char}
    (h : Path.SpelledBy Accessor.Documented ⟨.dot, [.index i], location⟩ cs) :
    ∃ digit digits, cs = '.' :: digit :: digits ∧ isDigit digit = true := by
  have index {step : Accessor} {cs : List Char} (h : step.Documented cs) (hstep : step = .index i) :
      ∃ digit digits, cs = digit :: digits ∧ isDigit digit = true := by
    cases h with
    | field _ => cases hstep
    | index hne hdigits =>
      obtain ⟨digit, digits, rfl⟩ := List.exists_cons_of_ne_nil hne
      exact ⟨digit, digits, rfl, hdigits digit List.mem_cons_self⟩
  cases h with
  | dot _ _ hsteps =>
    cases hsteps with
    | cons hstep hnil =>
      cases hnil
      obtain ⟨digit, digits, rfl, hdigit⟩ := index hstep rfl
      exact ⟨digit, digits, by simp [Accessor.dotted], hdigit⟩

/-! ## The readers -/

/-- The paths that an operand is. -/
def Operand.paths : Operand → List Path
  | .path p => [p]
  | .literal _ => []

/-- The paths in a command. -/
def Command.paths (c : Command) : List Path := c.operands.flatMap Operand.paths

/-- The paths in a pipeline. -/
def Pipeline.paths (p : Pipeline) : List Path := p.commands.flatMap Command.paths

/-- The paths in the templates of a source. -/
def Source.paths (source : Source) : List Path :=
  (piecePipelines source.main.body ++
    source.defines.flatMap fun t => piecePipelines t.body).flatMap Pipeline.paths

namespace Phrase

theorem splitOn_infix (separates : Token → Bool) (ts : List Token) :
    (splitOn separates ts).1 <+: ts ∧ ∀ s ∈ (splitOn separates ts).2, s.2 <:+: ts := by
  induction ts with
  | nil => exact ⟨List.prefix_rfl, List.forall_mem_nil _⟩
  | cons t rest ih =>
    obtain ⟨first, later⟩ := ih
    have behind : ∀ s ∈ (splitOn separates rest).2, s.2 <:+: t :: rest :=
      fun s hs => (later s hs).trans (List.suffix_cons t rest).isInfix
    unfold splitOn
    dsimp only
    split
    · exact ⟨List.nil_prefix, List.forall_mem_cons.mpr
        ⟨first.isInfix.trans (List.suffix_cons t rest).isInfix, behind⟩⟩
    · exact ⟨List.cons_prefix_cons.mpr ⟨rfl, first⟩, behind⟩

theorem infix_of_mem_words {ts word : List Token} (h : word ∈ words ts) : word <:+: ts := by
  obtain ⟨first, later⟩ := splitOn_infix Token.isBlank ts
  unfold words at h
  rcases List.mem_cons.mp (List.mem_of_mem_filter h) with rfl | hlater
  · exact first.isInfix
  · obtain ⟨s, hs, rfl⟩ := List.mem_map.mp hlater
    exact later s hs

end Phrase

/-- A path is read from the first of these tokens on, as an operand. -/
def Path.ReadFrom (p : Path) (ts : List Token) : Prop :=
  ∃ t rest behind, t :: rest <:+: ts ∧ Operand.ofTokens t rest = .ok (.path p, behind)

theorem Path.ReadFrom.mono {p : Path} {part ts : List Token} (h : p.ReadFrom part)
    (hpart : part <:+: ts) : p.ReadFrom ts := by
  obtain ⟨t, rest, behind, hinside, hread⟩ := h
  exact ⟨t, rest, behind, hinside.trans hpart, hread⟩

theorem Operand.readFrom_of_ofTokens {t : Token} {rest behind : List Token} {o : Operand}
    (h : Operand.ofTokens t rest = .ok (o, behind)) : ∀ p ∈ o.paths, p.ReadFrom (t :: rest) := by
  cases o with
  | literal l => exact List.forall_mem_nil _
  | path p => exact List.forall_mem_singleton.mpr ⟨t, rest, behind, List.infix_rfl, h⟩

theorem Operand.readFrom_of_ofWord {word : List Token} {os : List Operand}
    (h : Operand.ofWord word = .ok os) : ∀ o ∈ os, ∀ p ∈ o.paths, p.ReadFrom word := by
  cases word with
  | nil =>
    cases h
    exact List.forall_mem_nil _
  | cons t rest =>
    obtain ⟨⟨o, behind⟩, hread, h₁⟩ := exists_of_bind_eq_ok h
    cases behind with
    | nil =>
      cases h₁
      exact List.forall_mem_singleton.mpr (Operand.readFrom_of_ofTokens hread)
    | cons u _ => cases h₁

theorem Operand.readFrom_of_ofWords {words : List (List Token)} {os : List Operand}
    (h : Operand.ofWords words = .ok os) :
    ∀ o ∈ os, ∀ p ∈ o.paths, ∃ word ∈ words, p.ReadFrom word := by
  obtain ⟨read, hread, h₁⟩ := exists_of_bind_eq_ok h
  cases h₁
  intro o ho p hp
  obtain ⟨group, hgroup, hmem⟩ := List.mem_flatten.mp ho
  obtain ⟨word, hword, hof⟩ := exists_mem_of_mapM hread group hgroup
  exact ⟨word, hword, Operand.readFrom_of_ofWord hof o hmem p hp⟩

theorem Command.readFrom_of_ofCall {t : Token} {name : String} {glued : List Token}
    {words : List (List Token)} {piped : Nat} {c : Command}
    (h : Command.ofCall t name glued words piped = .ok c) :
    ∀ p ∈ c.paths, ∃ word ∈ words, p.ReadFrom word := by
  unfold Command.ofCall at h
  split at h
  · cases h
  · cases h
  · split at h
    · cases h
    · obtain ⟨args, hargs, h₁⟩ := exists_of_bind_eq_ok h
      dsimp only at h₁
      split at h₁
      · cases h₁
        intro p hp
        obtain ⟨o, ho, hmem⟩ := List.mem_flatMap.mp hp
        exact Operand.readFrom_of_ofWords hargs o ho p hmem
      · cases h₁

theorem Command.readFrom_of_ofFirst {t : Token} {glued : List Token} {words : List (List Token)}
    {c : Command} (h : Command.ofFirst t glued words = .ok c) :
    ∀ p ∈ c.paths, ∃ word ∈ (t :: glued) :: words, p.ReadFrom word := by
  unfold Command.ofFirst at h
  split at h
  · intro p hp
    obtain ⟨word, hword, hread⟩ := Command.readFrom_of_ofCall h p hp
    exact ⟨word, List.mem_cons_of_mem _ hword, hread⟩
  · obtain ⟨⟨o, rest⟩, hread, h₁⟩ := exists_of_bind_eq_ok h
    dsimp only at h₁
    split at h₁
    · cases h₁
      intro p hp
      obtain ⟨o', ho, hmem⟩ := List.mem_flatMap.mp hp
      cases List.mem_singleton.mp ho
      exact ⟨_, List.mem_cons_self, Operand.readFrom_of_ofTokens hread p hmem⟩
    · cases h₁

theorem Command.readFrom_of_ofStage {stage : Token × List Token} {c : Command}
    (h : Command.ofStage stage = .ok c) : ∀ p ∈ c.paths, p.ReadFrom stage.2 := by
  unfold Command.ofStage at h
  split at h
  · next t glued words heq =>
    split at h
    · intro p hp
      obtain ⟨word, hword, hread⟩ := Command.readFrom_of_ofCall h p hp
      exact hread.mono (Phrase.infix_of_mem_words (heq ▸ List.mem_cons_of_mem _ hword))
    · cases h
  · cases h

/-- The paths of a pipeline are read from its tokens. -/
theorem Pipeline.readFrom_of_ofTokens {action : Option Keyword} {ts : List Token} {stop : Location}
    {p : Pipeline} (h : Pipeline.ofTokens action ts stop = .ok p) :
    ∀ q ∈ p.paths, q.ReadFrom ts := by
  obtain ⟨first, later⟩ := Phrase.splitOn_infix (fun t => t.kind = .pipe) ts
  unfold Pipeline.ofTokens Phrase.stages at h
  generalize Phrase.splitOn (fun t => t.kind = .pipe) ts = split at *
  obtain ⟨head, stages⟩ := split
  dsimp only at *
  split at h
  · next heq =>
    obtain ⟨c, hc, h₁⟩ := exists_of_bind_eq_ok h
    obtain ⟨cs, hcs, h₂⟩ := exists_of_bind_eq_ok h₁
    cases h₂
    intro q hq
    obtain ⟨d, hd, hmem⟩ := List.mem_flatMap.mp hq
    rcases List.mem_cons.mp hd with rfl | hd
    · obtain ⟨word, hword, hread⟩ := Command.readFrom_of_ofFirst hc q hmem
      exact hread.mono ((Phrase.infix_of_mem_words (heq ▸ hword)).trans first.isInfix)
    · obtain ⟨stage, hstage, hof⟩ := exists_mem_of_mapM hcs d hd
      exact (Command.readFrom_of_ofStage hof q hmem).mono (later stage hstage)
  · cases h
  · cases h

/-! ## Accessors and paths -/

theorem Accessor.accepted_of_word? {cs : List Char} {i : Nat} (h : Numeral.word? cs = some i) :
    (Accessor.index i).Accepted cs := by
  have digits {cs : List Char} (h : (Numeral.decimal? cs).filter (· ≤ Numeral.maxWord) = some i) :
      (Accessor.index i).Documented cs := by
    obtain ⟨hdecimal, -⟩ := Option.filter_eq_some_iff.mp h
    unfold Numeral.decimal? at hdecimal
    split at hdecimal
    · next hcs =>
      cases hdecimal
      exact .index hcs.1 (List.all_eq_true.mp hcs.2)
    · cases hdecimal
  unfold Numeral.word? at h
  dsimp only at h
  split at h
  · exact .signed (digits h)
  · exact .documented (digits h)

/-- A token is read as the accessor that it is written as. -/
theorem Accessor.exists_of_ofToken? {t : Token} {step : Accessor} (hnamed : t.IsNamed)
    (h : Accessor.ofToken? t = .ok (some step)) :
    ∃ run, t.kind.part? = some run ∧ step.Accepted run := by
  obtain ⟨k, here⟩ := t
  cases k with
  | identifier name =>
    cases h
    exact ⟨_, rfl, .documented (.field (hnamed name rfl))⟩
  | bool b =>
    cases h
    cases b with
    | true => exact ⟨_, rfl, .documented (.field (by decide))⟩
    | false => exact ⟨_, rfl, .documented (.field (by decide))⟩
  | number spelling =>
    unfold Accessor.ofToken? at h
    dsimp only at h
    split at h
    · next i hword =>
      cases h
      exact ⟨_, rfl, Accessor.accepted_of_word? hword⟩
    · cases h
  | text | actionOpen | actionClose | dot | dollar | pipe | string | blank | eof => cases h

/-- Accessors are read from tokens that are written as they are, each behind a dot. -/
theorem Accessor.exists_of_ofTokens : (ts : List Token) → (∀ t ∈ ts, t.IsNamed) →
    {r : List Accessor × List Token} → Accessor.ofTokens ts = .ok r →
    ∃ us spellings, ts = us ++ r.2 ∧ List.Forall₂ Accessor.Accepted r.1 spellings ∧
      Tokens.Write us (Accessor.dotted spellings)
  | [], _, r, h => by
    rw [Accessor.ofTokens] at h
    cases h
    exact ⟨[], [], rfl, .nil, .nil⟩
  | [t], _, r, h => by
    rw [Accessor.ofTokens] at h
    split at h
    · cases h
    · cases h
      exact ⟨[], [], rfl, .nil, .nil⟩
  | t :: u :: rest, hnamed, r, h => by
    obtain ⟨-, hu, hrest⟩ := by simpa only [List.forall_mem_cons] using hnamed
    rw [Accessor.ofTokens] at h
    split at h
    · next hdot =>
      obtain ⟨step, hstep, h₁⟩ := exists_of_bind_eq_ok h
      cases step with
      | none => cases h₁
      | some step =>
        obtain ⟨⟨steps, behind⟩, hsteps, h₂⟩ := exists_of_bind_eq_ok h₁
        cases h₂
        obtain ⟨run, hpart, haccepted⟩ := Accessor.exists_of_ofToken? hu hstep
        obtain ⟨us, spellings, rfl, hspellings, hwrite⟩ :=
          Accessor.exists_of_ofTokens rest hrest hsteps
        have dot : t.kind.part? = some ['.'] := by rw [hdot]; rfl
        have written : Tokens.Write (t :: u :: us) (['.'] ++ (run ++ Accessor.dotted spellings)) :=
          .cons dot (.cons hpart hwrite)
        exact ⟨t :: u :: us, run :: spellings, rfl, .cons haccepted hspellings, written⟩
    · cases h
      exact ⟨[], [], rfl, .nil, .nil⟩

/-- What follows a dot spells a path from the dot on. -/
theorem Path.exists_of_ofDot {here : Location} {ts : List Token} {r : Path × List Token}
    (hnamed : ∀ t ∈ ts, t.IsNamed) (h : Path.ofDot here ts = .ok r) :
    ∃ us cs, ts = us ++ r.2 ∧ r.1.location = here ∧ Tokens.Write us cs ∧
      r.1.SpelledBy Accessor.Accepted ('.' :: cs) := by
  cases ts with
  | nil =>
    cases h
    exact ⟨[], [], rfl, rfl, .nil, .here here⟩
  | cons t rest =>
    obtain ⟨ht, hrest⟩ := List.forall_mem_cons.mp hnamed
    rw [Path.ofDot] at h
    obtain ⟨step, hstep, h₁⟩ := exists_of_bind_eq_ok h
    cases step with
    | none =>
      dsimp only at h₁
      split at h₁
      · cases h₁
      · cases h₁
        exact ⟨[], [], rfl, rfl, .nil, .here here⟩
    | some step =>
      obtain ⟨⟨steps, behind⟩, hsteps, h₂⟩ := exists_of_bind_eq_ok h₁
      cases h₂
      obtain ⟨run, hpart, haccepted⟩ := Accessor.exists_of_ofToken? ht hstep
      obtain ⟨us, spellings, rfl, hspellings, hwrite⟩ :=
        Accessor.exists_of_ofTokens rest hrest hsteps
      exact ⟨t :: us, _, rfl, rfl, .cons hpart hwrite,
        .dot here (List.cons_ne_nil _ _) (.cons haccepted hspellings)⟩

/-- What follows a dollar sign spells a path from the sign on. -/
theorem Path.exists_of_ofDollar {here : Location} {ts : List Token} {r : Path × List Token}
    (hnamed : ∀ t ∈ ts, t.IsNamed) (h : Path.ofDollar here ts = .ok r) :
    ∃ us cs, ts = us ++ r.2 ∧ r.1.location = here ∧ Tokens.Write us cs ∧
      r.1.SpelledBy Accessor.Accepted ('$' :: cs) := by
  obtain ⟨⟨steps, behind⟩, hsteps, h₁⟩ := exists_of_bind_eq_ok h
  cases h₁
  obtain ⟨us, spellings, rfl, hspellings, hwrite⟩ := Accessor.exists_of_ofTokens ts hnamed hsteps
  exact ⟨us, _, rfl, rfl, hwrite, .dollar here hspellings⟩

/-- A path is read from tokens that spell it, of which the first is where the path is. -/
theorem Path.exists_of_ofTokens {t : Token} {rest behind : List Token} {p : Path}
    (hnamed : ∀ u ∈ rest, u.IsNamed) (h : Operand.ofTokens t rest = .ok (.path p, behind)) :
    ∃ us cs, rest = us ++ behind ∧ p.location = t.location ∧ Tokens.Write (t :: us) cs ∧
      p.SpelledBy Accessor.Accepted cs := by
  obtain ⟨k, here⟩ := t
  cases k with
  | dot =>
    obtain ⟨r, hread, hr⟩ := exists_of_map_eq_ok h
    cases hr
    obtain ⟨us, cs, hrest, hlocation, hwrite, hspelled⟩ := Path.exists_of_ofDot hnamed hread
    exact ⟨us, _, hrest, hlocation, .cons rfl hwrite, hspelled⟩
  | dollar =>
    obtain ⟨r, hread, hr⟩ := exists_of_map_eq_ok h
    cases hr
    obtain ⟨us, cs, hrest, hlocation, hwrite, hspelled⟩ := Path.exists_of_ofDollar hnamed hread
    exact ⟨us, _, hrest, hlocation, .cons rfl hwrite, hspelled⟩
  | number spelling =>
    unfold Operand.ofTokens at h
    dsimp only at h
    split at h <;> cases h
  | text | actionOpen | actionClose | identifier | pipe | string | bool | blank | eof => cases h

/-- **Every path stands where the source spells it.** At the location of each path of a parsed
source, the source goes on with a spelling of the path, and this is the documented one exactly if
there is no plus sign in it. -/
theorem Source.parse_paths_spelled {name text : String} {source : Source}
    (h : Source.parse name text = .ok source) : ∀ p ∈ source.paths,
      ∃ before spelling after, text.toList = before ++ spelling ++ after ∧
        p.location.Counts before ∧ p.SpelledBy Accessor.Accepted spelling ∧
        (p.SpelledBy Accessor.Documented spelling ↔ '+' ∉ spelling) := by
  obtain ⟨ts, htokens, hparse⟩ := exists_of_bind_eq_ok h
  obtain ⟨hspelled, -⟩ := Lexer.run_spelled htokens
  obtain ⟨hchain, hnamed, -⟩ := Lexer.run_joined htokens
  have reads : Pipeline.OfPart (fun p => ∀ q ∈ p.paths, q.ReadFrom ts) ts :=
    fun action part stop p hpart hp q hq => (Pipeline.readFrom_of_ofTokens hp q hq).mono hpart
  obtain ⟨hmain, hdefines⟩ := Source.ofTokens_all reads hparse
  intro p hp
  obtain ⟨pipeline, hpipeline, hmem⟩ := List.mem_flatMap.mp hp
  have read : p.ReadFrom ts := by
    rcases List.mem_append.mp hpipeline with hin | hin
    · exact hmain pipeline hin p hmem
    · obtain ⟨t, ht, hbody⟩ := List.mem_flatMap.mp hin
      exact hdefines t ht pipeline hbody p hmem
  obtain ⟨t, rest, behind, hinside, hread⟩ := read
  obtain ⟨us, cs, rfl, hlocation, hwrite, hspelling⟩ :=
    Path.exists_of_ofTokens (fun u hu => hnamed u (hinside.subset (.tail _ hu))) hread
  have part : t :: us <:+: ts := (List.prefix_append (t :: us) behind).isInfix.trans hinside
  have chain := List.IsChain.infix hchain part
  obtain ⟨before, after, hsource, hstart⟩ :=
    hwrite.exists_eq chain fun u hu => hspelled u (part.subset hu)
  refine ⟨before, cs, after, hsource, ?_, hspelling, hspelling.documented_iff⟩
  rw [hlocation, hstart]
  exact Location.counts_advance before

/-- Paths in a definition and in the arguments of a call, one with a plus sign. -/
def signedSource : String :=
  "\x7b\x7bdefine \"é\"\x7d\x7d\x7b\x7b$.a.007\x7d\x7d\x7b\x7bend\x7d\x7d" ++
    "\x7b\x7bprint . .+07.true\x7d\x7d"

theorem Source.parse_paths_spelled_signedSource : ∃ source,
    Source.parse "main" signedSource = .ok source ∧
      source.paths = [⟨.dot, [], ⟨1, 41, 41⟩⟩, ⟨.dot, [.index 7, .field "true"], ⟨1, 43, 43⟩⟩,
        ⟨.dollar, [.field "a", .index 7], ⟨1, 17, 17⟩⟩] ∧
      ∀ p ∈ source.paths, ∃ before spelling after,
        signedSource.toList = before ++ spelling ++ after ∧
          p.location.Counts before ∧ p.SpelledBy Accessor.Accepted spelling ∧
          (p.SpelledBy Accessor.Documented spelling ↔ '+' ∉ spelling) := by
  obtain ⟨source, hsource, hpaths⟩ := exists_of_toOption_any (f := fun source => source.paths ==
    [⟨.dot, [], ⟨1, 41, 41⟩⟩, ⟨.dot, [.index 7, .field "true"], ⟨1, 43, 43⟩⟩,
        ⟨.dollar, [.field "a", .index 7], ⟨1, 17, 17⟩⟩])
    (by decide +kernel : (Source.parse "main" signedSource).toOption.any _ = true)
  exact ⟨source, hsource, beq_iff_eq.mp hpaths, Source.parse_paths_spelled hsource⟩

/-- An index with a plus sign is accepted, and the source does not go on with its documented
spelling there. -/
theorem Source.plus_not_documented : ∃ source,
    Source.parse "main" "\x7b\x7b.+3\x7d\x7d" = .ok source ∧ ∃ p ∈ source.paths,
      ∀ before spelling after, "\x7b\x7b.+3\x7d\x7d".toList = before ++ spelling ++ after →
        p.location.Counts before → ¬ p.SpelledBy Accessor.Documented spelling := by
  have chars : "\x7b\x7b.+3\x7d\x7d".toList =
      ['\x7b', '\x7b'] ++ ['.', '+', '3', '\x7d', '\x7d'] := by decide
  obtain ⟨source, hsource, hpaths⟩ := exists_of_toOption_any (f := fun source => source.paths ==
    [⟨.dot, [.index 3], ⟨1, 3, 2⟩⟩])
    (by decide +kernel :
      (Source.parse "main" "\x7b\x7b.+3\x7d\x7d").toOption.any _ = true)
  refine ⟨source, hsource, _, (beq_iff_eq.mp hpaths) ▸ List.mem_singleton_self _, ?_⟩
  rw [chars]
  intro before spelling after htext hcounts hspelled
  have start : before = ['\x7b', '\x7b'] := by
    have point : before <+: ['\x7b', '\x7b'] ++ ['.', '+', '3', '\x7d', '\x7d'] :=
      ⟨spelling ++ after, by rw [htext, List.append_assoc]⟩
    refine Location.eq_of_offset_eq .start point (List.prefix_append _ _) ?_
    rw [(Location.counts_advance before).offset, ← hcounts.offset]
    rfl
  obtain ⟨digit, digits, rfl, hdigit⟩ := Path.SpelledBy.exists_digit hspelled
  rw [start, List.append_assoc, List.append_cancel_left_eq] at htext
  have sign : '+' = digit := (List.cons.inj (List.cons.inj htext).2).1
  rw [← sign] at hdigit
  cases hdigit

end Stencil
