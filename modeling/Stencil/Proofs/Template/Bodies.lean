import Stencil.Proofs.Template.Brackets
import Stencil.Proofs.Template.Names
import Stencil.Proofs.Template.Spelling

/-!
# Balanced bodies

A text between actions is a balanced body if its actions end what they open and nothing else. That
is told from the keywords of its actions alone (`Tokens.Balanced`), whether they can be read or not.

What is open around a balanced body plays no part in reading it: the frames that the body opens
stand on those around it and are gone where it ends (`Parser.exists_run_onto`). So from the start of
a list a balanced body is read to the same trees and definitions, or refused for the same fault,
whatever block or definition it is the body of (`Parser.exists_run_body`).
-/

set_option autoImplicit false

namespace Stencil

open Tokens (Inner inner_nil inner_cons inner_append ofKinds)

/-! ## Keywords of actions -/

namespace Tokens

/-- The keyword that the tokens behind an opening start with. -/
def leading? : List Token.Kind → Option Keyword
  | .blank _ :: ks => leading? ks
  | .identifier name :: _ => Keyword.ofSpelling? name
  | _ => none

/-- The keywords of actions, one by one. -/
def leads : List Token.Kind → List (Option Keyword)
  | [] => []
  | .actionOpen :: ks => leading? ks :: leads ks
  | _ :: ks => leads ks

/-- Texts and whole actions. -/
inductive Whole : List Token.Kind → Prop where
  | nil : Whole []
  | text (content : String) {ks : List Token.Kind} : Whole ks → Whole (.text content :: ks)
  | action {inside ks : List Token.Kind} : Inner (ofKinds inside) → Whole ks →
      Whole (.actionOpen :: (inside ++ .actionClose :: ks))

end Tokens

/-- How many blocks and definitions are open behind an action, given its keyword, if it may stand
where some are. -/
def Keyword.depth? (depth : Nat) : Option Keyword → Option Nat
  | some .ifWord | some .rangeWord | some .withWord | some .defineWord | some .blockWord =>
    some (depth + 1)
  | some .endWord => if depth = 0 then none else some (depth - 1)
  | some .elseWord => if depth = 0 then none else some depth
  | some .templateWord | none => some depth

namespace Tokens

/-- How many are open behind the actions of tokens. -/
def depth? (depth : Nat) (ks : List Token.Kind) : Option Nat :=
  (leads ks).foldlM Keyword.depth? depth

/-- What the actions of tokens open they end, and nothing else. -/
def Balanced (ks : List Token.Kind) : Prop := depth? 0 ks = some 0

instance (ks : List Token.Kind) : Decidable (Balanced ks) :=
  inferInstanceAs (Decidable (depth? 0 ks = some 0))

theorem leading?_append {inside : List Token.Kind} (ks : List Token.Kind) :
    leading? (inside ++ .actionClose :: ks) = leading? inside := by
  induction inside with
  | nil => rfl
  | cons k inside ih => cases k <;> first | exact ih | rfl

theorem leads_inner {inside : List Token.Kind} (h : Inner (ofKinds inside))
    (ks : List Token.Kind) : leads (inside ++ ks) = leads ks := by
  induction inside with
  | nil => rfl
  | cons k inside ih =>
    obtain ⟨hk, hrest⟩ := inner_cons.mp h
    cases k with
    | actionOpen => exact hk.elim
    | _ => exact ih hrest

theorem leads_action {inside : List Token.Kind} (h : Inner (ofKinds inside))
    (ks : List Token.Kind) :
    leads (.actionOpen :: (inside ++ .actionClose :: ks)) = leading? inside :: leads ks := by
  rw [leads, leading?_append, leads_inner h]
  rfl

theorem depth?_action {inside : List Token.Kind} (h : Inner (ofKinds inside))
    (depth : Nat) (ks : List Token.Kind) :
    depth? depth (.actionOpen :: (inside ++ .actionClose :: ks)) =
      (Keyword.depth? depth (leading? inside)).bind fun depth => depth? depth ks := by
  rw [depth?, leads_action h]
  rfl

theorem Whole.append {ks ks' : List Token.Kind} (h : Whole ks) (h' : Whole ks') :
    Whole (ks ++ ks') := by
  induction h with
  | nil => exact h'
  | text content _ ih => exact .text content ih
  | action hinside _ ih =>
    rw [List.cons_append, List.append_assoc, List.cons_append]
    exact .action hinside ih

theorem Whole.depth?_append {ks : List Token.Kind} (h : Whole ks) (depth : Nat)
    (ks' : List Token.Kind) :
    depth? depth (ks ++ ks') = (depth? depth ks).bind fun depth => depth? depth ks' := by
  induction h generalizing depth with
  | nil => rfl
  | text content _ ih => exact ih depth
  | action hinside _ ih =>
    rw [List.cons_append, List.append_assoc, List.cons_append, depth?_action hinside,
      depth?_action hinside, Option.bind_assoc]
    exact congrArg _ (funext ih)

/-- More may be open around the actions of tokens. -/
theorem depth?_add {ks : List Token.Kind} {depth behind : Nat}
    (h : depth? depth ks = some behind) (more : Nat) :
    depth? (depth + more) ks = some (behind + more) := by
  have step {k : Option Keyword} {d e : Nat} (hk : Keyword.depth? d k = some e) :
      Keyword.depth? (d + more) k = some (e + more) := by
    unfold Keyword.depth? at hk ⊢
    split at hk
    all_goals grind
  unfold depth? at h ⊢
  generalize leads ks = keywords at h ⊢
  induction keywords generalizing depth with
  | nil =>
    cases h
    rfl
  | cons k rest ih =>
    rw [List.foldlM_cons] at h ⊢
    obtain ⟨d, hd, hrest⟩ := Option.bind_eq_some_iff.mp h
    exact Option.bind_eq_some_iff.mpr ⟨_, step hd, ih hrest⟩

theorem Balanced.depth?_eq {ks : List Token.Kind} (h : Balanced ks) (depth : Nat) :
    depth? depth ks = some depth := by
  have more := depth?_add h depth
  rwa [Nat.zero_add] at more

end Tokens

/-- The tokens of a source are whole but for the mark of the end. -/
theorem Tokens.Bracketed.exists_whole {ts : List Token} (h : Tokens.Bracketed ts) :
    ∃ ks, ts.map (·.kind) = ks ++ [.eof] ∧ Tokens.Whole ks := by
  induction h with
  | eof here => exact ⟨[], rfl, .nil⟩
  | @text t ts ht _ ih =>
    obtain ⟨content, hkind, -⟩ := ht
    obtain ⟨ks, hks, whole⟩ := ih
    refine ⟨.text content :: ks, ?_, .text content whole⟩
    rw [List.map_cons, hkind, hks, List.cons_append]
  | @action inside ts start stop hinside _ ih =>
    obtain ⟨ks, hks, whole⟩ := ih
    refine ⟨.actionOpen :: (inside.map (·.kind) ++ .actionClose :: ks), ?_, .action ?_ whole⟩
    · simp [hks]
    · refine Tokens.forall_mem_ofKinds.mpr (List.forall_mem_map.mpr fun t ht => ?_)
      exact hinside t ht

/-! ## Actions and their keywords -/

namespace Action

/-- The keyword of an action. -/
def lead : Action → Option Keyword
  | .output _ => none
  | .opening kind _ => some kind.keyword
  | .otherwise | .otherwiseIf _ => some .elseWord
  | .close => some .endWord
  | .embed _ _ => some .templateWord
  | .define _ => some .defineWord
  | .slot _ _ => some .blockWord

theorem lead_of_ofKeyword {k : Keyword} {ts : List Token} {topLevel : Bool}
    {start stop : Location} {a : Action} (h : ofKeyword k ts topLevel start stop = .ok a) :
    a.lead = some k := by
  cases k with
  | ifWord | rangeWord | withWord =>
    obtain ⟨p, -, rfl⟩ := exists_of_map_eq_ok h
    rfl
  | elseWord =>
    have read : ofElse ts stop = .ok a := h
    unfold ofElse at read
    split at read
    · cases read
      rfl
    · split at read
      · obtain ⟨p, -, rfl⟩ := exists_of_map_eq_ok read
        rfl
      · cases read
  | endWord =>
    obtain ⟨_, -, hpure⟩ := exists_of_bind_eq_ok h
    cases hpure
    rfl
  | templateWord =>
    obtain ⟨r, -, h₁⟩ := exists_of_bind_eq_ok h
    obtain ⟨given, -, rfl⟩ := exists_of_map_eq_ok h₁
    rfl
  | defineWord =>
    unfold ofKeyword at h
    dsimp only at h
    split at h
    · obtain ⟨r, -, h₁⟩ := exists_of_bind_eq_ok h
      obtain ⟨_, -, hpure⟩ := exists_of_bind_eq_ok h₁
      cases hpure
      rfl
    · cases h
  | blockWord =>
    obtain ⟨r, -, h₁⟩ := exists_of_bind_eq_ok h
    obtain ⟨p, -, rfl⟩ := exists_of_map_eq_ok h₁
    rfl

/-- An action that is read is that of the keyword it starts with. -/
theorem lead_of_ofTokens {ks : List Token.Kind} {topLevel : Bool} {start stop : Location}
    {a : Action} (h : ofTokens (ofKinds ks) topLevel start stop = .ok a) :
    a.lead = Tokens.leading? ks := by
  have first : (Phrase.skipBlanks (ofKinds ks)).head?.bind Token.keyword? =
      Tokens.leading? ks := by
    clear h
    induction ks with
    | nil => rfl
    | cons k ks ih => cases k <;> first | exact ih | rfl
  rw [← first]
  unfold ofTokens at h
  split at h
  · cases h
  · next t rest heq =>
    rw [heq]
    split at h
    · next k hk => exact (lead_of_ofKeyword h).trans hk.symm
    · next hk =>
      obtain ⟨p, -, rfl⟩ := exists_of_map_eq_ok h
      exact hk.symm

/-- An action opens and ends as many as its keyword says. -/
theorem depth_nesting {a : Action} {opened : List (Option String)} {depth : Nat}
    (h : Keyword.depth? opened.length a.lead = some depth) :
    (a.nesting.after opened).length = depth := by
  cases a with
  | opening kind subject =>
    cases kind <;> exact Option.some.inj h
  | close =>
    obtain ⟨-, hdepth⟩ := Option.ite_none_left_eq_some.mp h
    rw [nesting, Nesting.after, List.length_tail]
    exact Option.some.inj hdepth
  | otherwise | otherwiseIf subject =>
    exact Option.some.inj (Option.ite_none_left_eq_some.mp h).2
  | output | embed | define | slot => exact Option.some.inj h

end Action

namespace Parser

/-! ## Frames around a state -/

/-- A state with more frames open around it. -/
def State.onto (σ : State) (base : List Frame) : State :=
  { σ with frames := σ.frames ++ base }

/-- Where nothing is open there are no frames. -/
theorem frames_eq_nil {frames : List Frame} (hlinked : Linked frames)
    (h : (opened frames).length = 0) : frames = [] := by
  induction frames with
  | nil => rfl
  | cons f frames ih =>
    obtain ⟨hlinks, hrest⟩ := hlinked
    rw [opened_cons, List.length_append, Nat.add_eq_zero_iff] at h
    -- a frame that opens nothing continues the one under it
    have chained : f.opener.isChained = true := by
      cases hf : f.opener with
      | block kind subject chained =>
        cases chained with
        | true => rfl
        | false =>
          rw [hf] at h
          cases h.1
      | define name | slot name data =>
        rw [hf] at h
        cases h.1
    rw [ih hrest h.2] at hlinks
    cases hlinks chained

theorem closeChain_onto {chained : Bool} {frames : List Frame} (hlinks : Links chained frames)
    (hlinked : Linked frames) (t : Tree Piece) (before : List (Tree Piece)) (base : List Frame) :
    closeChain chained t before (frames ++ base) =
      ((closeChain chained t before frames).1, (closeChain chained t before frames).2 ++ base) := by
  induction frames generalizing chained t before with
  | nil =>
    cases chained with
    | true => cases hlinks rfl
    | false => cases base <;> rfl
  | cons f frames ih =>
    cases chained with
    | false => rfl
    | true =>
      obtain ⟨opener, here, body, earlier⟩ := f
      cases opener with
      | block kind subject outer => exact ih hlinked.1 hlinked.2 _ earlier
      | define name => cases hlinks rfl
      | slot name data => cases hlinks rfl

variable {main : String} {σ : State}

theorem State.close_onto {f : Frame} {frames : List Frame} (hσ : σ.frames = f :: frames)
    (hlinked : Linked σ.frames) (here : Location) (base : List Frame) :
    (σ.onto base).close here = (σ.close here).map (·.onto base) := by
  obtain ⟨current, _, defines⟩ := σ
  subst hσ
  obtain ⟨opener, start, body, before⟩ := f
  cases opener with
  | block kind subject chained =>
    have hlinks : Links chained frames := hlinked.1
    simp only [State.close, State.onto, List.cons_append]
    rw [closeChain_onto hlinks hlinked.2]
    rfl
  | define name | slot name data => rfl

theorem State.otherwise_onto {f : Frame} {frames : List Frame} (hσ : σ.frames = f :: frames)
    (subject : Option Pipeline) (here : Location) (base : List Frame) :
    (σ.onto base).otherwise subject here = (σ.otherwise subject here).map (·.onto base) := by
  obtain ⟨current, _, defines⟩ := σ
  subst hσ
  obtain ⟨opener, start, body, before⟩ := f
  cases opener with
  | block kind outer chained =>
    cases body with
    | some body => rfl
    | none =>
      cases subject with
      | none => rfl
      | some p => cases kind <;> rfl
  | define name | slot name data => rfl

theorem State.openDefinition_onto (opener : Opener) (name : String) (here : Location)
    (base : List Frame) :
    (σ.onto base).openDefinition main opener name here =
      (σ.openDefinition main opener name here).map (·.onto base) := by
  unfold State.openDefinition State.onto
  dsimp only
  split <;> rfl

/-- An action that ends or continues nothing around a state does the same whatever is open there. -/
theorem State.act_onto (hlinked : Linked σ.frames) {a : Action} {depth : Nat}
    (hdepth : Keyword.depth? (opened σ.frames).length a.lead = some depth) (here : Location)
    (base : List Frame) :
    (σ.onto base).act main a here = (σ.act main a here).map (·.onto base) := by
  have inside (h : (opened σ.frames).length ≠ 0) : ∃ f frames, σ.frames = f :: frames := by
    refine List.exists_cons_of_ne_nil fun hnil => h ?_
    rw [hnil]
    rfl
  cases a with
  | output p | embed name data | opening kind subject => rfl
  | otherwise =>
    obtain ⟨f, frames, hσ⟩ := inside (Option.ite_none_left_eq_some.mp hdepth).1
    exact State.otherwise_onto hσ none here base
  | otherwiseIf subject =>
    obtain ⟨f, frames, hσ⟩ := inside (Option.ite_none_left_eq_some.mp hdepth).1
    exact State.otherwise_onto hσ (some subject) here base
  | close =>
    obtain ⟨f, frames, hσ⟩ := inside (Option.ite_none_left_eq_some.mp hdepth).1
    exact State.close_onto hσ hlinked here base
  | define name | slot name data => exact State.openDefinition_onto _ name here base

/-! ## Runs -/

theorem run_item (σ : State) {inside : List Token.Kind} (hinside : Inner (ofKinds inside))
    (ks : List Token.Kind) (rest : List Token) :
    run main σ (ofKinds (.actionOpen :: (inside ++ .actionClose :: ks)) ++ rest) =
      Action.ofTokens (ofKinds inside) σ.frames.isEmpty .outside .outside >>= fun a =>
        σ.act main a .outside >>= fun τ => run main τ (ofKinds ks ++ rest) := by
  rw [Tokens.ofKinds_cons, Tokens.ofKinds_append, Tokens.ofKinds_cons, List.cons_append,
    List.append_assoc, List.cons_append, run]
  dsimp only
  rw [splitAction_append (isInside_of_inner hinside)]

/-- Tokens that end nothing around a state are read the same whatever is open there, and whatever
follows. -/
theorem exists_run_onto (main : String) {ks : List Token.Kind} (whole : Tokens.Whole ks)
    (σ : State) {depth : Nat} (hlinked : Linked σ.frames)
    (hdepth : Tokens.depth? (opened σ.frames).length ks = some depth) (topLevel : Bool) :
    ∃ r : Except SourceError State,
      (∀ τ, r = .ok τ → Linked τ.frames ∧ (opened τ.frames).length = depth) ∧
      ∀ base rest, base.isEmpty = topLevel →
        run main (σ.onto base) (ofKinds ks ++ rest) =
          r >>= fun τ => run main (τ.onto base) rest := by
  induction whole generalizing σ with
  | nil =>
    refine ⟨.ok σ, ?_, fun base rest _ => rfl⟩
    rintro _ ⟨⟩
    exact ⟨hlinked, Option.some.inj hdepth⟩
  | @text content ks _ ih =>
    obtain ⟨r, ends, reads⟩ := ih (σ.push (.leaf (.text content .outside))) hlinked hdepth
    refine ⟨r, ends, fun base rest hbase => ?_⟩
    rw [Tokens.ofKinds_cons, List.cons_append, run]
    exact reads base rest hbase
  | @action inside ks hinside _ ih =>
    rw [Tokens.depth?_action hinside] at hdepth
    obtain ⟨next, hnext, hrest⟩ := Option.bind_eq_some_iff.mp hdepth
    have top (base : List Frame) (hbase : base.isEmpty = topLevel) :
        (σ.onto base).frames.isEmpty = (σ.frames.isEmpty && topLevel) := by
      rw [← hbase, State.onto]
      cases σ.frames <;> rfl
    cases hread : Action.ofTokens (ofKinds inside) (σ.frames.isEmpty && topLevel) .outside
        .outside with
    | error e =>
      refine ⟨.error e, by simp, fun base rest hbase => ?_⟩
      rw [run_item _ hinside, top base hbase, hread]
      rfl
    | ok a =>
      rw [← Action.lead_of_ofTokens hread] at hnext
      cases hact : σ.act main a .outside with
      | error e =>
        refine ⟨.error e, by simp, fun base rest hbase => ?_⟩
        rw [run_item _ hinside, top base hbase, hread]
        dsimp only [bind, Except.bind]
        rw [State.act_onto hlinked hnext, hact]
        rfl
      | ok τ =>
        have step := State.act_renames hlinked hact
        rw [← Action.depth_nesting hnext, ← step.nesting] at hrest
        obtain ⟨r, ends, reads⟩ := ih τ step.linked hrest
        refine ⟨r, ends, fun base rest hbase => ?_⟩
        rw [run_item _ hinside, top base hbase, hread]
        dsimp only [bind, Except.bind]
        rw [State.act_onto hlinked hnext, hact]
        exact reads base rest hbase

/-- A balanced body is read to the same trees and definitions in every block and definition,
whatever follows it. -/
theorem exists_run_body (main : String) {ks : List Token.Kind} (whole : Tokens.Whole ks)
    (balanced : Tokens.Balanced ks) (defines : List Template) :
    ∃ r : Except SourceError (List (Tree Piece) × List Template),
      ∀ f frames rest, run main ⟨[], f :: frames, defines⟩ (ofKinds ks ++ rest) =
        r >>= fun read => run main ⟨read.1, f :: frames, read.2⟩ rest := by
  obtain ⟨r, ends, reads⟩ := exists_run_onto main whole ⟨[], [], defines⟩ trivial balanced
    false
  refine ⟨r.map fun τ => (τ.current, τ.defines), fun f frames rest => ?_⟩
  refine (reads (f :: frames) rest rfl).trans ?_
  cases r with
  | error e => rfl
  | ok τ =>
    obtain ⟨current, frames, defines⟩ := τ
    cases frames_eq_nil (ends _ rfl).1 (ends _ rfl).2
    rfl

/-- A balanced text at the top level is read whatever follows it, and leaves nothing open. -/
theorem exists_run_topLevel (main : String) {ks : List Token.Kind} (whole : Tokens.Whole ks)
    (balanced : Tokens.Balanced ks) :
    ∃ r : Except SourceError (List (Tree Piece) × List Template),
      ∀ rest, run main .initial (ofKinds ks ++ rest) =
        r >>= fun read => run main ⟨read.1, [], read.2⟩ rest := by
  obtain ⟨r, ends, reads⟩ := exists_run_onto main whole .initial trivial balanced true
  refine ⟨r.map fun τ => (τ.current, τ.defines), fun rest => ?_⟩
  refine (reads [] rest rfl).trans ?_
  cases r with
  | error e => rfl
  | ok τ =>
    obtain ⟨current, frames, defines⟩ := τ
    cases frames_eq_nil (ends _ rfl).1 (ends _ rfl).2
    rfl

/-- Whole items are read whatever follows them. -/
theorem exists_run_append (main : String) {ks : List Token.Kind} (whole : Tokens.Whole ks)
    (σ : State) :
    ∃ r : Except SourceError State, ∀ rest, run main σ (ofKinds ks ++ rest) =
      r >>= fun τ => run main τ rest := by
  induction whole generalizing σ with
  | nil => exact ⟨.ok σ, fun rest => rfl⟩
  | @text content ks _ ih =>
    obtain ⟨r, reads⟩ := ih (σ.push (.leaf (.text content .outside)))
    refine ⟨r, fun rest => ?_⟩
    rw [Tokens.ofKinds_cons, List.cons_append, run]
    exact reads rest
  | @action inside ks hinside _ ih =>
    refine ⟨Action.ofTokens (ofKinds inside) σ.frames.isEmpty .outside .outside >>= fun a =>
      σ.act main a .outside >>= fun τ => (ih τ).choose, fun rest => ?_⟩
    rw [run_item _ hinside, bind_assoc]
    refine bind_congr fun a => ?_
    rw [bind_assoc]
    exact bind_congr fun τ => (ih τ).choose_spec rest

end Parser

end Stencil
