import Mathlib.Data.List.Chain
import Stencil.Proofs.Template.Segments

/-!
# Tokens that touch

Inside an action the lexer leaves no gaps: where a token ends that can belong to a path, the next
one starts (`Lexer.run_joined`). Of such tokens the source holds what they are written as, one
behind the other, at the location of the first (`Tokens.Write.exists_eq`).
-/

set_option autoImplicit false

namespace Stencil

open Stencil.Text

/-- What a token is written as that can belong to a path. -/
def Token.Kind.part? : Token.Kind → Option (List Char)
  | .dot => some ['.']
  | .dollar => some ['$']
  | .identifier s | .number s => some s.toList
  | .bool b => some (if b then "true" else "false").toList
  | _ => none

/-- A token that can belong to a path ends where another one starts. -/
def Token.Touches (t u : Token) : Prop :=
  ∀ run ∈ t.kind.part?, u.location = t.location.advance run

/-- An identifier is a name. -/
def Token.IsNamed (t : Token) : Prop :=
  ∀ name, t.kind = .identifier name → Lexer.isName name.toList = true

/-- What tokens are written as that can all belong to a path. -/
inductive Tokens.Write : List Token → List Char → Prop where
  | nil : Write [] []
  | cons {t : Token} {ts : List Token} {run cs : List Char} : t.kind.part? = some run →
      Write ts cs → Write (t :: ts) (run ++ cs)

theorem Token.Kind.spellings_of_part? {k : Token.Kind} {run : List Char} (h : k.part? = some run) :
    k.spellings = [String.ofList run] := by
  cases k with
  | dot | dollar =>
    cases h
    rfl
  | identifier s | number s | bool b =>
    cases h
    rw [String.ofList_toList]
    rfl
  | text | actionOpen | actionClose | pipe | string | blank | eof => cases h

/-- Points of the same characters at one offset are the same. -/
theorem Location.eq_of_offset_eq (here : Location) {first second cs : List Char}
    (hfirst : first <+: cs) (hsecond : second <+: cs)
    (h : (here.advance first).offset = (here.advance second).offset) : first = second := by
  have shorter {first second : List Char} (hstarts : first <+: second)
      (h : (here.advance first).offset = (here.advance second).offset) : first = second := by
    obtain ⟨more, rfl⟩ := hstarts
    by_contra hne
    have hmore : more ≠ [] := fun hnil => hne (by rw [hnil, List.append_nil])
    have later := (here.advance first).offset_lt_advance hmore
    rw [← Location.advance_append, ← h] at later
    exact Nat.lt_irrefl _ later
  rcases List.prefix_or_prefix_of_prefix hfirst hsecond with hstarts | hstarts
  · exact shorter hstarts h
  · exact (shorter hstarts h.symm).symm

/-- Tokens that touch each other are written without gaps. -/
theorem Tokens.Write.exists_eq {t : Token} {ts : List Token} {cs source : List Char}
    (h : Write (t :: ts) cs) (hchain : (t :: ts).IsChain Token.Touches)
    (hspelled : ∀ u ∈ t :: ts, u.SpelledIn .start source) :
    ∃ before after, source = before ++ cs ++ after ∧
      t.location = Location.start.advance before := by
  induction ts generalizing t cs with
  | nil =>
    cases h with
    | @cons _ _ run _ hpart hrest =>
      cases hrest
      obtain ⟨before, lexeme, ⟨after, rfl⟩, hlocation, hspelling⟩ :=
        hspelled t List.mem_cons_self
      rw [Token.Kind.spellings_of_part? hpart, List.mem_singleton] at hspelling
      cases String.ofList_injective hspelling
      exact ⟨before, after, by rw [List.append_nil], hlocation⟩
  | cons u us ih =>
    cases h with
    | @cons _ _ run cs hpart hrest =>
      obtain ⟨htouch, hchain⟩ := List.isChain_cons_cons.mp hchain
      obtain ⟨hhead, htail⟩ := List.forall_mem_cons.mp hspelled
      obtain ⟨before, lexeme, hstarts, hlocation, hspelling⟩ := hhead
      rw [Token.Kind.spellings_of_part? hpart, List.mem_singleton] at hspelling
      cases String.ofList_injective hspelling
      obtain ⟨before', after, hsource, hnext⟩ := ih hrest hchain htail
      have point : before' = before ++ run := by
        have next : before' <+: source := ⟨cs ++ after, by rw [hsource, List.append_assoc]⟩
        refine Location.eq_of_offset_eq .start next hstarts ?_
        rw [← hnext, htouch run hpart, hlocation, Location.advance_append]
      subst point
      exact ⟨before, after, by rw [hsource]; simp, hlocation⟩

/-! ## The lexer -/

namespace Lexer

/-- The tokens of a step inside an action stand one behind the other from a location on, without
gaps around those that can belong to a path. -/
structure Step.Joined (here : Location) (cs : List Char) (found : Step) : Prop where
  head : ∃ t ts, found.tokens = t :: ts ∧ t.location = here
  chain : found.tokens.IsChain Token.Touches
  last : ∀ t ∈ found.tokens.getLast?, ∀ run ∈ t.kind.part?, found.mode.isText = false ∧
    here.advance (cs.take found.size) = t.location.advance run
  named : ∀ t ∈ found.tokens, t.IsNamed

variable {opened here : Location}

/-- One token of an action. -/
theorem Step.Joined.single {cs : List Char} {k : Token.Kind} {size : Nat}
    (hk : ∀ run ∈ k.part?, cs.take size = run) (hnamed : Token.IsNamed ⟨k, here⟩) :
    Step.Joined here cs ⟨[⟨k, here⟩], .action opened, size⟩ where
  head := ⟨_, _, rfl, rfl⟩
  chain := .singleton _
  last := by
    rintro _ ⟨⟩ run hrun
    exact ⟨rfl, congrArg here.advance (hk run hrun)⟩
  named := List.forall_mem_singleton.mpr hnamed

theorem blankStep_joined (cs : List Char) :
    Step.Joined here cs (blankStep opened here cs) := by
  unfold blankStep
  dsimp only
  split
  · refine ⟨⟨_, _, rfl, rfl⟩, .cons_cons nofun (.singleton _), ?_, ?_⟩
    · rintro _ ⟨⟩
      nofun
    · exact List.forall_mem_cons.mpr ⟨nofun, List.forall_mem_singleton.mpr nofun⟩
  · exact .single nofun nofun

theorem dotStep_joined (rest : List Char) :
    Step.Joined here ('.' :: rest) (dotStep opened here rest) := by
  unfold dotStep
  dsimp only
  split
  · next hdigits =>
    rw [hdigits]
    refine .single ?_ nofun
    rintro _ ⟨⟩
    rfl
  · have digits : rest.take (rest.takeWhile isDigit).length = rest.takeWhile isDigit :=
      (List.prefix_iff_eq_take.mp (List.takeWhile_prefix _)).symm
    refine ⟨⟨_, _, rfl, rfl⟩, .cons_cons ?_ (.singleton _), ?_, ?_⟩
    · rintro _ ⟨⟩
      rfl
    · rintro _ ⟨⟩ _ ⟨⟩
      rw [String.toList_ofList, Nat.add_comm, List.take_succ_cons, digits]
      exact ⟨rfl, rfl⟩
    · exact List.forall_mem_cons.mpr ⟨nofun, List.forall_mem_singleton.mpr nofun⟩

theorem quotedStep_joined {cs rest : List Char} {found : Step}
    (h : quotedStep opened here rest = .ok found) : Step.Joined here cs found := by
  unfold quotedStep at h
  split at h
  · cases h
    exact .single nofun nofun
  · cases h
  · cases h

theorem rawStep_joined {cs rest : List Char} {found : Step}
    (h : rawStep opened here rest = .ok found) : Step.Joined here cs found := by
  unfold rawStep at h
  split at h
  · cases h
    exact .single nofun nofun
  · cases h

theorem numberStep_joined {cs : List Char} {found : Step}
    (h : numberStep opened here cs = .ok found) : Step.Joined here cs found := by
  unfold numberStep at h
  dsimp only at h
  split at h
  · cases h
  · cases h
    refine .single ?_ nofun
    rintro _ ⟨⟩
    rw [String.toList_ofList]
    exact (List.prefix_iff_eq_take.mp (prefix_number cs)).symm

theorem nameStep_joined {c : Char} (hc : isNameStart c = true) (rest : List Char) :
    Step.Joined here (c :: rest) (nameStep opened here (c :: rest)) := by
  have run : (c :: rest).takeWhile isNamePart = c :: rest.takeWhile isNamePart :=
    List.takeWhile_cons_of_pos (isNamePart_of_isNameStart hc)
  have name : isName (c :: rest.takeWhile isNamePart) = true :=
    Bool.and_eq_true_iff.mpr ⟨hc, List.all_takeWhile⟩
  have taken : (c :: rest).take ((c :: rest).takeWhile isNamePart).length =
      (c :: rest).takeWhile isNamePart :=
    (List.prefix_iff_eq_take.mp (List.takeWhile_prefix _)).symm
  unfold nameStep
  dsimp only
  refine .single ?_ ?_
  · rw [taken]
    intro written hwritten
    -- the words for truth values are written as they are
    split at hwritten
    · next htrue =>
      cases hwritten
      rw [if_pos rfl, ← htrue, String.toList_ofList]
    · split at hwritten
      · next hfalse =>
        cases hwritten
        rw [if_neg Bool.false_ne_true, ← hfalse, String.toList_ofList]
      · cases hwritten
        rw [String.toList_ofList]
  · intro other hother
    dsimp only at hother
    split at hother
    · cases hother
    · split at hother
      · cases hother
      · cases hother
        rw [String.toList_ofList, run]
        exact name

theorem actionStep_joined {c : Char} {rest : List Char} {found : Step}
    (h : actionStep opened here c rest = .ok found) : Step.Joined here (c :: rest) found := by
  unfold actionStep at h
  split at h
  · cases h
    refine ⟨⟨_, _, rfl, rfl⟩, .singleton _, ?_, List.forall_mem_singleton.mpr nofun⟩
    rintro _ ⟨⟩
    nofun
  · cases h
    exact dotStep_joined _
  · cases h
    refine .single ?_ nofun
    rintro _ ⟨⟩
    rfl
  · cases h
    exact .single nofun nofun
  · exact quotedStep_joined h
  · exact rawStep_joined h
  · split at h
    · cases h
      exact blankStep_joined _
    · split at h
      · exact numberStep_joined h
      · split at h
        · next hc =>
          cases h
          exact nameStep_joined hc rest
        · cases h

/-- No token between actions can belong to a path. -/
theorem textStep_part? {trim : Bool} {cs : List Char} {found : Step}
    (h : textStep trim here cs = .ok found) : ∀ t ∈ found.tokens, t.kind.part? = none := by
  have plain {texts : List Token} (htexts : ∀ t ∈ texts, t.IsPlainText) :
      ∀ t ∈ texts, t.kind.part? = none := by
    intro t ht
    obtain ⟨content, hkind, -⟩ := htexts t ht
    rw [hkind]
    rfl
  cases textStep_shaped h with
  | opens trim opened size htexts =>
    exact List.forall_mem_append.mpr ⟨plain htexts, List.forall_mem_singleton.mpr rfl⟩
  | passes trim next size htexts => exact plain htexts

theorem isNamed_of_part? {t : Token} (h : t.kind.part? = none) : t.IsNamed := by
  intro name hname
  rw [hname] at h
  cases h

theorem isChain_touches {ts : List Token} (h : ∀ t ∈ ts, t.kind.part? = none) :
    ts.IsChain Token.Touches := by
  refine (List.pairwise_of_forall_mem_list fun t ht u _ run hrun => ?_).isChain
  rw [h t ht] at hrun
  cases hrun

/-- Tokens that can belong to a path end where the next ones start, and identifiers are names.
Inside an action the first token stands at the location of the first character. -/
theorem run_joined {mode : Mode} {cs : List Char} {ts : List Token}
    (h : run mode here cs = .ok ts) : ts.IsChain Token.Touches ∧ (∀ t ∈ ts, t.IsNamed) ∧
      (mode.isText = false → ∃ t rest, ts = t :: rest ∧ t.location = here) := by
  induction mode, here, cs using run.induct generalizing ts with
  | case1 here trim =>
    rw [run] at h
    cases h
    exact ⟨.singleton _, List.forall_mem_singleton.mpr (isNamed_of_part? rfl),
      fun h => absurd rfl (ne_true_of_eq_false h)⟩
  | case2 here opened =>
    rw [run] at h
    cases h
  | case3 mode here c rest ih =>
    obtain ⟨found, later, hstep, hlater, rfl⟩ := exists_of_run_cons h
    obtain ⟨hchain, hnamed, hhead⟩ := ih found hlater
    cases mode with
    | text trim =>
      have apart := textStep_part? hstep
      refine ⟨List.isChain_append.mpr ⟨isChain_touches apart, hchain, fun t ht u _ run hrun => ?_⟩,
        List.forall_mem_append.mpr ⟨fun t ht => isNamed_of_part? (apart t ht), hnamed⟩,
        fun h => absurd rfl (ne_true_of_eq_false h)⟩
      rw [apart t (List.mem_of_getLast? ht)] at hrun
      cases hrun
    | action opened =>
      obtain ⟨⟨first, others, htokens, hfirst⟩, chain, last, named⟩ := actionStep_joined hstep
      refine ⟨List.isChain_append.mpr ⟨chain, hchain, fun t ht u hu run hrun => ?_⟩,
        List.forall_mem_append.mpr ⟨named, hnamed⟩, fun _ => ⟨first, others ++ later, ?_, hfirst⟩⟩
      · -- what follows a token that can belong to a path stands where the step ends
        obtain ⟨hmode, hend⟩ := last t ht run hrun
        obtain ⟨next, behind, rfl, hnext⟩ := hhead hmode
        cases hu
        rw [hnext, hend]
      · rw [htokens, List.cons_append]

end Lexer

end Stencil
