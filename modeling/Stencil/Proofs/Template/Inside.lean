import Stencil.Proofs.Results
import Stencil.Template.Action

/-!
# Inside an action

The tokens of an action that is read are names, values, operators and blanks (`Token.IsInner`). No
text stands among them, no delimiter, and not the end of the source (`Action.ofTokens_inner`): every
reader takes what it knows from the front, and what is left at the end is refused. So an action that
is read loses no text, and one that is never closed is not read.
-/

set_option autoImplicit false

namespace Stencil

/-- Tokens that can stand inside an action. -/
def Token.IsInner (t : Token) : Prop :=
  match t.kind with
  | .text _ | .actionOpen | .actionClose | .eof => False
  | _ => True

/-- All tokens can stand inside an action. -/
abbrev Tokens.Inner (ts : List Token) : Prop := ∀ t ∈ ts, t.IsInner

namespace Tokens

theorem inner_nil : Inner [] := nofun

theorem inner_cons {t : Token} {ts : List Token} : Inner (t :: ts) ↔ t.IsInner ∧ Inner ts :=
  List.forall_mem_cons

theorem inner_append {ts us : List Token} : Inner (ts ++ us) ↔ Inner ts ∧ Inner us :=
  List.forall_mem_append

end Tokens

theorem Token.isInner_of_kind {t : Token} {k : Token.Kind} (h : t.kind = k)
    (inner : IsInner ⟨k, t.location⟩) : t.IsInner := by
  subst h
  exact inner

theorem Token.isInner_of_isBlank {t : Token} (h : t.isBlank = true) : t.IsInner := by
  unfold isBlank at h
  split at h
  · next heq => exact isInner_of_kind heq trivial
  · cases h

theorem Token.isInner_of_keyword {t : Token} {k : Keyword} (h : t.keyword? = some k) :
    t.IsInner := by
  unfold keyword? at h
  split at h
  · next heq => exact isInner_of_kind heq trivial
  · cases h

open Tokens (Inner inner_nil inner_cons inner_append)

/-! ## Phrases -/

namespace Phrase

/-- Tokens are the separators among them and the runs between these. -/
theorem inner_of_splitOn {separates : Token → Bool} (hs : ∀ t, separates t = true → t.IsInner) :
    {ts : List Token} → Inner (splitOn separates ts).1 →
      (∀ run ∈ (splitOn separates ts).2, Inner run.2) → Inner ts
  | [], _, _ => inner_nil
  | t :: rest, first, later => by
    rw [splitOn] at first later
    dsimp only at first later
    split at first
    · next ht =>
      rw [if_pos ht, List.forall_mem_cons] at later
      exact inner_cons.mpr ⟨hs t ht, inner_of_splitOn hs later.1 later.2⟩
    · next ht =>
      rw [if_neg ht] at later
      rw [inner_cons] at first
      exact inner_cons.mpr ⟨first.1, inner_of_splitOn hs first.2 later⟩

theorem inner_of_words {ts : List Token} (h : ∀ word ∈ words ts, Inner word) : Inner ts := by
  -- a run that is no word is empty
  have run (ts' : List Token) (mem : ts' ∈ (splitOn Token.isBlank ts).1 ::
      (splitOn Token.isBlank ts).2.map Prod.snd) : Inner ts' := by
    by_cases hempty : ts' = []
    · rw [hempty]
      exact inner_nil
    · exact h ts' (List.mem_filter.mpr ⟨mem, by simpa using hempty⟩)
  refine inner_of_splitOn (fun t => Token.isInner_of_isBlank) (run _ (List.mem_cons_self ..))
    fun stage hstage => run stage.2 (List.mem_cons_of_mem _ (List.mem_map_of_mem hstage))

theorem inner_of_stages {ts : List Token} (first : Inner (stages ts).1)
    (later : ∀ stage ∈ (stages ts).2, Inner stage.2) : Inner ts := by
  refine inner_of_splitOn (fun t ht => ?_) first later
  have pipe : t.kind = .pipe := by simpa using ht
  exact Token.isInner_of_kind pipe trivial

theorem inner_of_skipBlanks {ts : List Token} (h : Inner (skipBlanks ts)) : Inner ts := by
  induction ts with
  | nil => exact inner_nil
  | cons t rest ih =>
    rw [skipBlanks, List.dropWhile_cons] at h
    split at h
    · next ht => exact inner_cons.mpr ⟨Token.isInner_of_isBlank ht, ih h⟩
    · exact h

end Phrase

open Phrase

/-! ## Operands -/

/-- A token that spells an accessor can stand inside an action. -/
theorem Accessor.ofToken?_inner {t : Token} {step : Accessor}
    (h : Accessor.ofToken? t = .ok (some step)) : t.IsInner := by
  unfold Accessor.ofToken? at h
  split at h
  · next heq => exact Token.isInner_of_kind heq trivial
  · next heq => exact Token.isInner_of_kind heq trivial
  · next heq => exact Token.isInner_of_kind heq trivial
  · cases h

/-- What accessors are read from can stand inside an action, if what is left can. -/
theorem Accessor.ofTokens_inner : {ts : List Token} → {steps : List Accessor} →
    {rest : List Token} → Accessor.ofTokens ts = .ok (steps, rest) → Inner rest → Inner ts
  | [], _, _, _, _ => inner_nil
  | [t], _, _, h, inner => by
    unfold Accessor.ofTokens at h
    split at h
    · cases h
    · cases h
      exact inner
  | t :: u :: ts, _, _, h, inner => by
    unfold Accessor.ofTokens at h
    split at h
    · next ht =>
      obtain ⟨step, hstep, h₁⟩ := exists_of_bind_eq_ok h
      cases step with
      | none => cases h₁
      | some step =>
        obtain ⟨⟨steps, rest⟩, hsteps, h₂⟩ := exists_of_bind_eq_ok h₁
        cases h₂
        exact inner_cons.mpr ⟨Token.isInner_of_kind ht trivial,
          inner_cons.mpr ⟨Accessor.ofToken?_inner hstep, Accessor.ofTokens_inner hsteps inner⟩⟩
    · cases h
      exact inner

theorem Path.ofDot_inner {here : Location} {ts rest : List Token} {p : Path}
    (h : Path.ofDot here ts = .ok (p, rest)) (inner : Inner rest) : Inner ts := by
  cases ts with
  | nil => exact inner_nil
  | cons t ts =>
    obtain ⟨step, hstep, h₁⟩ := exists_of_bind_eq_ok h
    cases step with
    | none =>
      dsimp only at h₁
      split at h₁
      · cases h₁
      · cases h₁
        exact inner
    | some step =>
      obtain ⟨⟨steps, rest⟩, hsteps, h₂⟩ := exists_of_bind_eq_ok h₁
      cases h₂
      exact inner_cons.mpr ⟨Accessor.ofToken?_inner hstep, Accessor.ofTokens_inner hsteps inner⟩

theorem Path.ofDollar_inner {here : Location} {ts rest : List Token} {p : Path}
    (h : Path.ofDollar here ts = .ok (p, rest)) (inner : Inner rest) : Inner ts := by
  obtain ⟨⟨steps, rest⟩, hsteps, h₁⟩ := exists_of_bind_eq_ok h
  cases h₁
  exact Accessor.ofTokens_inner hsteps inner

/-- What an operand is read from can stand inside an action, if what is left can. -/
theorem Operand.ofTokens_inner {t : Token} {ts rest : List Token} {o : Operand}
    (h : Operand.ofTokens t ts = .ok (o, rest)) (inner : Inner rest) : Inner (t :: ts) := by
  unfold Operand.ofTokens at h
  split at h
  · next heq =>
    obtain ⟨⟨p, rest⟩, hp, heq'⟩ := exists_of_map_eq_ok h
    cases heq'
    exact inner_cons.mpr ⟨Token.isInner_of_kind heq trivial, Path.ofDot_inner hp inner⟩
  · next heq =>
    obtain ⟨⟨p, rest⟩, hp, heq'⟩ := exists_of_map_eq_ok h
    cases heq'
    exact inner_cons.mpr ⟨Token.isInner_of_kind heq trivial, Path.ofDollar_inner hp inner⟩
  · next heq =>
    cases h
    exact inner_cons.mpr ⟨Token.isInner_of_kind heq trivial, inner⟩
  · next heq =>
    cases h
    exact inner_cons.mpr ⟨Token.isInner_of_kind heq trivial, inner⟩
  · next heq =>
    split at h
    · cases h
      exact inner_cons.mpr ⟨Token.isInner_of_kind heq trivial, inner⟩
    · cases h
  · cases h

theorem Operand.ofWord_inner (word : List Token) (os : List Operand)
    (h : Operand.ofWord word = .ok os) : Inner word := by
  cases word with
  | nil => exact inner_nil
  | cons t rest =>
    obtain ⟨⟨o, left⟩, ho, h₁⟩ := exists_of_bind_eq_ok h
    cases left with
    | nil => exact Operand.ofTokens_inner ho inner_nil
    | cons u left => cases h₁

theorem Operand.ofWords_inner {words : List (List Token)} {os : List Operand}
    (h : Operand.ofWords words = .ok os) : ∀ word ∈ words, Inner word := by
  obtain ⟨operands, hoperands, -⟩ := exists_of_bind_eq_ok h
  exact forall_arg_of_mapM Operand.ofWord_inner hoperands

/-! ## Commands and pipelines -/

/-- A call stands apart from its arguments, all of which can stand inside an action. -/
theorem Command.ofCall_inner {t : Token} {name : String} {glued : List Token}
    {words : List (List Token)} {piped : Nat} {c : Command}
    (h : Command.ofCall t name glued words piped = .ok c) :
    glued = [] ∧ ∀ word ∈ words, Inner word := by
  unfold Command.ofCall at h
  split at h
  · cases h
  · cases h
  · split at h
    · cases h
    · obtain ⟨args, hargs, -⟩ := exists_of_bind_eq_ok h
      exact ⟨rfl, Operand.ofWords_inner hargs⟩

theorem Command.ofFirst_inner {t : Token} {glued : List Token} {words : List (List Token)}
    {c : Command} (h : Command.ofFirst t glued words = .ok c) :
    ∀ word ∈ (t :: glued) :: words, Inner word := by
  unfold Command.ofFirst at h
  split at h
  · next heq =>
    obtain ⟨rfl, hwords⟩ := Command.ofCall_inner h
    exact List.forall_mem_cons.mpr
      ⟨inner_cons.mpr ⟨Token.isInner_of_kind heq trivial, inner_nil⟩, hwords⟩
  · obtain ⟨⟨o, rest⟩, ho, h₁⟩ := exists_of_bind_eq_ok h
    dsimp only at h₁
    split at h₁
    · next hnone =>
      obtain ⟨rfl, hflat⟩ := List.append_eq_nil_iff.mp hnone
      refine List.forall_mem_cons.mpr ⟨Operand.ofTokens_inner ho inner_nil, fun word hword => ?_⟩
      rw [List.flatten_eq_nil_iff.mp hflat word hword]
      exact inner_nil
    · cases h₁

theorem Command.ofStage_inner (stage : Token × List Token) (c : Command)
    (h : Command.ofStage stage = .ok c) : Inner stage.2 := by
  refine inner_of_words ?_
  unfold Command.ofStage at h
  split at h
  · next t glued words hwords =>
    rw [hwords]
    split at h
    · next heq =>
      obtain ⟨rfl, hinner⟩ := Command.ofCall_inner h
      exact List.forall_mem_cons.mpr
        ⟨inner_cons.mpr ⟨Token.isInner_of_kind heq trivial, inner_nil⟩, hinner⟩
    · cases h
  · cases h

/-- The tokens of a pipeline can all stand inside an action. -/
theorem Pipeline.ofTokens_inner {action : Option Keyword} {ts : List Token} {stop : Location}
    {p : Pipeline} (h : Pipeline.ofTokens action ts stop = .ok p) : Inner ts := by
  unfold Pipeline.ofTokens at h
  dsimp only at h
  split at h
  · next t glued words hwords =>
    obtain ⟨head, hhead, h₁⟩ := exists_of_bind_eq_ok h
    obtain ⟨rest, hrest, -⟩ := exists_of_bind_eq_ok h₁
    refine inner_of_stages (inner_of_words ?_) (forall_arg_of_mapM Command.ofStage_inner hrest)
    rw [hwords]
    exact Command.ofFirst_inner hhead
  · cases h
  · cases h

/-! ## Actions -/

namespace Action

theorem atEnd_inner {ts : List Token} (h : atEnd ts = .ok ()) : Inner ts := by
  unfold atEnd at h
  split at h
  · next hnone =>
    refine inner_of_skipBlanks ?_
    rw [hnone]
    exact inner_nil
  · cases h

theorem name_inner {k : Keyword} {ts rest : List Token} {stop : Location} {called : String}
    (h : name k ts stop = .ok (called, rest)) (inner : Inner rest) : Inner ts := by
  refine inner_of_skipBlanks ?_
  unfold name at h
  split at h
  · cases h
  · next t ts' hskip =>
    rw [hskip]
    split at h
    · next heq =>
      cases h
      exact inner_cons.mpr ⟨Token.isInner_of_kind heq trivial, inner⟩
    · cases h

theorem data_inner {ts : List Token} {stop : Location} {given : Option Pipeline}
    (h : data ts stop = .ok given) : Inner ts := by
  refine inner_of_skipBlanks ?_
  unfold data at h
  split at h
  · next hnone =>
    rw [hnone]
    exact inner_nil
  · next t rest hskip =>
    rw [hskip]
    obtain ⟨p, hp, -⟩ := exists_of_map_eq_ok h
    exact Pipeline.ofTokens_inner hp

theorem read_inner {make : Pipeline → Action} {k : Option Keyword} {ts : List Token}
    {stop : Location} {a : Action} (h : make <$> Pipeline.ofTokens k ts stop = .ok a) :
    Inner ts := by
  obtain ⟨p, hp, -⟩ := exists_of_map_eq_ok h
  exact Pipeline.ofTokens_inner hp

theorem ofElse_inner {ts : List Token} {stop : Location} {a : Action}
    (h : ofElse ts stop = .ok a) : Inner ts := by
  refine inner_of_skipBlanks ?_
  unfold ofElse at h
  split at h
  · next hnone =>
    rw [hnone]
    exact inner_nil
  · next t rest hskip =>
    rw [hskip]
    split at h
    · next hkeyword => exact inner_cons.mpr ⟨Token.isInner_of_keyword hkeyword, read_inner h⟩
    · cases h

theorem ofKeyword_inner {k : Keyword} {ts : List Token} {topLevel : Bool} {start stop : Location}
    {a : Action} (h : ofKeyword k ts topLevel start stop = .ok a) : Inner ts := by
  cases k with
  | ifWord | rangeWord | withWord => exact read_inner h
  | elseWord => exact ofElse_inner h
  | endWord =>
    obtain ⟨_, hend, -⟩ := exists_of_bind_eq_ok h
    exact atEnd_inner hend
  | templateWord =>
    obtain ⟨⟨called, rest⟩, hname, h₁⟩ := exists_of_bind_eq_ok h
    obtain ⟨given, hgiven, -⟩ := exists_of_map_eq_ok h₁
    exact name_inner hname (data_inner hgiven)
  | defineWord =>
    unfold ofKeyword at h
    dsimp only at h
    split at h
    · obtain ⟨⟨called, rest⟩, hname, h₁⟩ := exists_of_bind_eq_ok h
      obtain ⟨_, hend, -⟩ := exists_of_bind_eq_ok h₁
      exact name_inner hname (atEnd_inner hend)
    · cases h
  | blockWord =>
    obtain ⟨⟨called, rest⟩, hname, h₁⟩ := exists_of_bind_eq_ok h
    exact name_inner hname (read_inner h₁)

/-- The tokens of an action that is read can all stand inside one. -/
theorem ofTokens_inner {ts : List Token} {topLevel : Bool} {start stop : Location} {a : Action}
    (h : ofTokens ts topLevel start stop = .ok a) : Inner ts := by
  refine inner_of_skipBlanks ?_
  unfold ofTokens at h
  split at h
  · cases h
  · next t rest hskip =>
    rw [hskip]
    split at h
    · next hkeyword => exact inner_cons.mpr ⟨Token.isInner_of_keyword hkeyword, ofKeyword_inner h⟩
    · exact read_inner h

end Action

end Stencil
