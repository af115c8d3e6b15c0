import Stencil.Template.Parser
import Stencil.Proofs.Results

/-!
# The pipelines of a template

Every pipeline of a parsed template was read from the tokens of one of its actions: the parser moves
pipelines around with the blocks that they stand in, and makes none of its own. So whatever holds of
all that `Pipeline.ofTokens` reads holds of all pipelines of a source (`Source.parse_all`). It is
enough if that holds of what is read from tokens of the source that stand one behind the other
(`Source.ofTokens_all`).

The invariant is one of the parser's states: of the list being read, of what waits in open frames
and of the definitions that are done (`Parser.State.All`).
-/

set_option autoImplicit false

namespace Stencil

namespace Tree

variable {α : Type} (ofLeaf : α → List Pipeline)

mutual

/-- The pipelines of a tree, given those of its leaves. -/
def pipelines : Tree α → List Pipeline
  | .leaf item => ofLeaf item
  | .block _ subject body none _ => subject :: pipelinesOf body
  | .block _ subject body (some alternative) _ =>
    subject :: (pipelinesOf body ++ pipelinesOf alternative)

/-- The pipelines of a list of trees. -/
def pipelinesOf : List (Tree α) → List Pipeline
  | [] => []
  | t :: rest => pipelines t ++ pipelinesOf rest

end

variable {ofLeaf}

@[simp] theorem pipelinesOf_nil : pipelinesOf ofLeaf [] = [] := by
  rw [pipelinesOf]

@[simp] theorem pipelinesOf_cons (t : Tree α) (rest : List (Tree α)) :
    pipelinesOf ofLeaf (t :: rest) = pipelines ofLeaf t ++ pipelinesOf ofLeaf rest := by
  rw [pipelinesOf]

theorem mem_pipelines_block {p subject : Pipeline} {kind : BlockKind} {body : List (Tree α)}
    {alternative : Option (List (Tree α))} {here : Location} :
    p ∈ pipelines ofLeaf (.block kind subject body alternative here) ↔
      p = subject ∨ p ∈ pipelinesOf ofLeaf body ∨
        ∃ other, alternative = some other ∧ p ∈ pipelinesOf ofLeaf other := by
  cases alternative with
  | none => simp [pipelines]
  | some other => simp [pipelines]

@[simp] theorem pipelinesOf_append (first second : List (Tree α)) :
    pipelinesOf ofLeaf (first ++ second) =
      pipelinesOf ofLeaf first ++ pipelinesOf ofLeaf second := by
  induction first with
  | nil => simp
  | cons t rest ih => simp [ih]

@[simp] theorem mem_pipelinesOf_reverse {p : Pipeline} {ts : List (Tree α)} :
    p ∈ pipelinesOf ofLeaf ts.reverse ↔ p ∈ pipelinesOf ofLeaf ts := by
  induction ts with
  | nil => simp
  | cons t rest ih => simp [ih, or_comm]

end Tree

/-- The pipelines of a piece. -/
def Piece.pipelines : Piece → List Pipeline
  | .text .. => []
  | .output p _ => [p]
  | .embed _ data _ => data.toList

/-- The pipelines of parsed trees. -/
abbrev piecePipelines (ts : List (Tree Piece)) : List Pipeline :=
  Tree.pipelinesOf Piece.pipelines ts

theorem forall_mem_piecePipelines_cons {P : Pipeline → Prop} {t : Tree Piece}
    {rest : List (Tree Piece)} : (∀ p ∈ piecePipelines (t :: rest), P p) ↔
      (∀ p ∈ Tree.pipelines Piece.pipelines t, P p) ∧ ∀ p ∈ piecePipelines rest, P p := by
  rw [piecePipelines, Tree.pipelinesOf_cons, List.forall_mem_append]

/-- The pipelines of an action. -/
def Action.pipelines : Action → List Pipeline
  | .output p | .opening _ p | .otherwiseIf p | .slot _ p => [p]
  | .embed _ data => data.toList
  | .otherwise | .close | .define _ => []

section

variable {P : Pipeline → Prop}

/-- A property of everything that is read as a pipeline. -/
def Pipeline.OfTokens (P : Pipeline → Prop) : Prop :=
  ∀ action ts stop p, Pipeline.ofTokens action ts stop = .ok p → P p

/-- A property of everything that is read as a pipeline from some of these tokens, one behind the
other. -/
def Pipeline.OfPart (P : Pipeline → Prop) (ts : List Token) : Prop :=
  ∀ action part stop p, part <:+: ts → Pipeline.ofTokens action part stop = .ok p → P p

theorem Pipeline.OfPart.mono {ts part : List Token} (h : Pipeline.OfPart P ts)
    (hpart : part <:+: ts) : Pipeline.OfPart P part :=
  fun action inner stop p hinner => h action inner stop p (hinner.trans hpart)

namespace Phrase

theorem skipBlanks_suffix (ts : List Token) : skipBlanks ts <:+ ts := List.dropWhile_suffix _

/-- What is behind the first token that is no blank. -/
theorem suffix_of_skipBlanks {ts rest : List Token} {t : Token} (h : skipBlanks ts = t :: rest) :
    rest <:+ ts := by
  have suffix := skipBlanks_suffix ts
  rw [h] at suffix
  exact (List.suffix_cons t rest).trans suffix

end Phrase

namespace Action

variable {ts : List Token}

theorem all_of_read (hP : Pipeline.OfPart P ts) {make : Pipeline → Action}
    (hmake : ∀ p, (make p).pipelines = [p]) {k : Option Keyword} {part : List Token}
    (hpart : part <:+ ts) {stop : Location} {a : Action}
    (h : make <$> Pipeline.ofTokens k part stop = .ok a) : ∀ p ∈ a.pipelines, P p := by
  obtain ⟨p, hp, rfl⟩ := exists_of_map_eq_ok h
  rw [hmake, List.forall_mem_singleton]
  exact hP _ _ _ _ hpart.isInfix hp

theorem data_all (hP : Pipeline.OfPart P ts) {stop : Location} {given : Option Pipeline}
    (h : data ts stop = .ok given) : ∀ p ∈ given.toList, P p := by
  have suffix := Phrase.skipBlanks_suffix ts
  unfold data at h
  split at h
  · cases h
    exact List.forall_mem_nil _
  · next heq =>
    obtain ⟨p, hp, rfl⟩ := exists_of_map_eq_ok h
    exact List.forall_mem_singleton.mpr (hP _ _ _ _ (heq ▸ suffix).isInfix hp)

/-- The name of a template stands in front of what is read behind it. -/
theorem suffix_of_name {k : Keyword} {stop : Location} {r : String × List Token}
    (h : name k ts stop = .ok r) : r.2 <:+ ts := by
  unfold name at h
  split at h
  · cases h
  · next heq =>
    split at h
    · cases h
      exact Phrase.suffix_of_skipBlanks heq
    · cases h

theorem ofElse_all (hP : Pipeline.OfPart P ts) {stop : Location} {a : Action}
    (h : ofElse ts stop = .ok a) : ∀ p ∈ a.pipelines, P p := by
  unfold ofElse at h
  split at h
  · cases h
    exact List.forall_mem_nil _
  · next heq =>
    split at h
    · exact all_of_read hP (fun _ => rfl) (Phrase.suffix_of_skipBlanks heq) h
    · cases h

theorem ofKeyword_all (hP : Pipeline.OfPart P ts) {k : Keyword} {topLevel : Bool}
    {start stop : Location} {a : Action} (h : ofKeyword k ts topLevel start stop = .ok a) :
    ∀ p ∈ a.pipelines, P p := by
  cases k with
  | ifWord | rangeWord | withWord => exact all_of_read hP (fun _ => rfl) List.suffix_rfl h
  | elseWord => exact ofElse_all hP h
  | endWord =>
    obtain ⟨_, -, h₁⟩ := exists_of_bind_eq_ok h
    cases h₁
    nofun
  | templateWord =>
    obtain ⟨⟨called, rest⟩, hname, h₁⟩ := exists_of_bind_eq_ok h
    obtain ⟨given, hgiven, rfl⟩ := exists_of_map_eq_ok h₁
    exact data_all (hP.mono (suffix_of_name hname).isInfix) hgiven
  | defineWord =>
    unfold ofKeyword at h
    dsimp only at h
    split at h
    · obtain ⟨⟨called, rest⟩, -, h₁⟩ := exists_of_bind_eq_ok h
      obtain ⟨_, -, h₂⟩ := exists_of_bind_eq_ok h₁
      cases h₂
      nofun
    · cases h
  | blockWord =>
    obtain ⟨⟨called, rest⟩, hname, h₁⟩ := exists_of_bind_eq_ok h
    exact all_of_read hP (fun _ => rfl) (suffix_of_name hname) h₁

/-- What holds of everything read as a pipeline from an action's tokens holds of the pipelines of
the action. -/
theorem ofTokens_all (hP : Pipeline.OfPart P ts) {topLevel : Bool} {start stop : Location}
    {a : Action} (h : ofTokens ts topLevel start stop = .ok a) : ∀ p ∈ a.pipelines, P p := by
  have suffix := Phrase.skipBlanks_suffix ts
  unfold ofTokens at h
  split at h
  · cases h
  · next heq =>
    split at h
    · exact ofKeyword_all (hP.mono (Phrase.suffix_of_skipBlanks heq).isInfix) h
    · exact all_of_read hP (fun _ => rfl) (heq ▸ suffix) h

end Action

namespace Parser

/-- The pipelines that an opener holds. -/
def Opener.pipelines : Opener → List Pipeline
  | .block _ subject _ => [subject]
  | .define _ => []
  | .slot _ data => [data]

/-- The pipelines of an open block or definition and of what it interrupts. -/
def Frame.pipelines (f : Frame) : List Pipeline :=
  f.opener.pipelines ++ f.body.toList.flatMap piecePipelines ++ piecePipelines f.before

variable (P) in
/-- A property holds of all pipelines that a state holds. -/
structure State.All (σ : State) : Prop where
  current : ∀ p ∈ piecePipelines σ.current, P p
  frames : ∀ f ∈ σ.frames, ∀ p ∈ f.pipelines, P p
  defines : ∀ t ∈ σ.defines, ∀ p ∈ piecePipelines t.body, P p

theorem State.all_initial : State.initial.All P :=
  ⟨by simp [State.initial], nofun, nofun⟩

theorem State.All.push {σ : State} (h : σ.All P) {t : Tree Piece}
    (ht : ∀ p ∈ Tree.pipelines Piece.pipelines t, P p) : (σ.push t).All P where
  current := forall_mem_piecePipelines_cons.mpr ⟨ht, h.current⟩
  frames := h.frames
  defines := h.defines

theorem State.All.open {σ : State} (h : σ.All P) (opener : Opener)
    (ho : ∀ p ∈ opener.pipelines, P p) (here : Location) : (σ.open opener here).All P where
  current := by simp [State.open]
  frames := by
    refine List.forall_mem_cons.mpr ⟨?_, h.frames⟩
    simpa [Frame.pipelines, or_imp, forall_and] using ⟨ho, h.current⟩
  defines := h.defines

/-- The block of a frame holds the pipelines of the frame and of the list just read. -/
theorem Frame.block_all {f : Frame} (h : ∀ p ∈ f.pipelines, P p) {kind : BlockKind}
    {subject : Pipeline} {chained : Bool} (ho : f.opener = .block kind subject chained)
    {read : List (Tree Piece)} (hr : ∀ p ∈ piecePipelines read, P p) :
    ∀ p ∈ Tree.pipelines Piece.pipelines (f.block kind subject read), P p := by
  simp only [Frame.pipelines, ho, Opener.pipelines, List.forall_mem_append,
    List.forall_mem_singleton] at h
  obtain ⟨⟨hsubject, hbody⟩, -⟩ := h
  unfold Frame.block
  split
  · rw [Tree.pipelines, List.forall_mem_cons]
    exact ⟨hsubject, hr⟩
  · next body heq =>
    rw [Tree.pipelines, List.forall_mem_cons, List.forall_mem_append]
    refine ⟨hsubject, ?_, hr⟩
    simpa [heq] using hbody

theorem closeChain_all {chained : Bool} {t : Tree Piece} {before : List (Tree Piece)}
    {frames : List Frame} (ht : ∀ p ∈ Tree.pipelines Piece.pipelines t, P p)
    (hb : ∀ p ∈ piecePipelines before, P p) (hf : ∀ f ∈ frames, ∀ p ∈ f.pipelines, P p) :
    (∀ p ∈ piecePipelines (closeChain chained t before frames).1, P p) ∧
      ∀ f ∈ (closeChain chained t before frames).2, ∀ p ∈ f.pipelines, P p := by
  induction frames generalizing chained t before with
  | nil =>
    exact ⟨forall_mem_piecePipelines_cons.mpr ⟨ht, hb⟩, nofun⟩
  | cons f frames ih =>
    have top := hf f (List.mem_cons_self ..)
    have hbefore : ∀ p ∈ piecePipelines f.before, P p := fun p hp =>
      top p (List.mem_append_right _ hp)
    unfold closeChain
    split
    · next ho =>
      exact ih (Frame.block_all top ho (by simpa using ht)) hbefore
        fun g hg => hf g (List.mem_cons_of_mem f hg)
    · exact ⟨forall_mem_piecePipelines_cons.mpr ⟨ht, hb⟩, hf⟩

theorem State.All.close {σ τ : State} (h : σ.All P) {here : Location}
    (hc : σ.close here = .ok τ) : τ.All P := by
  unfold State.close at hc
  split at hc
  · cases hc
  · next f frames hframes =>
    have top := h.frames f (by rw [hframes]; exact List.mem_cons_self ..)
    have others : ∀ g ∈ frames, ∀ p ∈ g.pipelines, P p := fun g hg =>
      h.frames g (by rw [hframes]; exact List.mem_cons_of_mem f hg)
    have read : ∀ p ∈ piecePipelines σ.current.reverse, P p := by
      simpa using h.current
    have hbefore : ∀ p ∈ piecePipelines f.before, P p := fun p hp =>
      top p (List.mem_append_right _ hp)
    -- a definition that ends joins those that are done
    have done (name : String) : ∀ t ∈ σ.defines ++ [⟨name, σ.current.reverse, f.location⟩],
        ∀ p ∈ piecePipelines t.body, P p := by
      rw [List.forall_mem_append, List.forall_mem_singleton]
      exact ⟨h.defines, read⟩
    dsimp only at hc
    split at hc
    · next ho =>
      cases hc
      obtain ⟨hcurrent, hrest⟩ := closeChain_all (Frame.block_all top ho read) hbefore others
      exact ⟨hcurrent, hrest, h.defines⟩
    · cases hc
      exact ⟨hbefore, others, done _⟩
    · next name data ho =>
      cases hc
      refine ⟨forall_mem_piecePipelines_cons.mpr ⟨?_, hbefore⟩, others, done _⟩
      intro p hp
      refine top p (List.mem_append_left _ (List.mem_append_left _ ?_))
      rw [ho]
      simpa [Tree.pipelines, Piece.pipelines, Opener.pipelines] using hp

theorem State.All.otherwise {σ τ : State} (h : σ.All P) (subject : Option Pipeline)
    (hs : ∀ p ∈ subject.toList, P p) {here : Location}
    (hc : σ.otherwise subject here = .ok τ) : τ.All P := by
  unfold State.otherwise at hc
  split at hc
  · cases hc
  · next f frames hframes =>
    split at hc
    · next kind p chained ho hb =>
      have turned : State.All P { σ with
          current := [], frames := { f with body := some σ.current.reverse } :: frames } := by
        refine ⟨by simp, ?_, h.defines⟩
        have all := h.frames
        rw [hframes, List.forall_mem_cons] at all
        refine List.forall_mem_cons.mpr ⟨?_, all.2⟩
        have top := all.1
        simp only [Frame.pipelines, hb, Option.toList_none, List.flatMap_nil, List.append_nil,
          List.forall_mem_append] at top
        simpa [Frame.pipelines, or_imp, forall_and] using ⟨top.1, h.current, top.2⟩
      dsimp only at hc
      split at hc
      · cases hc
        exact turned
      · cases hc
        exact turned.open (.block .cond _ true) hs here
      · cases hc
    · cases hc

theorem State.All.openDefinition {σ τ : State} (h : σ.All P) {main name : String}
    (opener : Opener) (ho : ∀ p ∈ opener.pipelines, P p) {here : Location}
    (hc : σ.openDefinition main opener name here = .ok τ) : τ.All P := by
  unfold State.openDefinition at hc
  split at hc
  · cases hc
  · cases hc
    exact h.open opener ho here

/-- An action keeps what holds of its own pipelines. -/
theorem State.All.act {σ τ : State} (h : σ.All P) {main : String} {action : Action}
    (ha : ∀ p ∈ action.pipelines, P p) {here : Location}
    (hc : σ.act main action here = .ok τ) : τ.All P := by
  unfold State.act at hc
  cases action with
  | output p | embed name data =>
    cases hc
    exact h.push (by rwa [Tree.pipelines])
  | opening kind subject =>
    cases hc
    exact h.open (.block kind subject false) ha here
  | otherwise => exact h.otherwise none ha hc
  | otherwiseIf subject => exact h.otherwise (some subject) ha hc
  | close => exact h.close hc
  | define name => exact h.openDefinition (.define name) ha hc
  | slot name data => exact h.openDefinition (.slot name data) ha hc

/-- The tokens of an action stand one behind the other, and so do those behind it. -/
theorem splitAction_infix (t : Token) (rest : List Token) :
    (splitAction rest).1 <:+: t :: rest ∧ (splitAction rest).2.2 <:+: t :: rest := by
  have inside : rest.takeWhile isInside <:+: t :: rest :=
    (List.takeWhile_prefix _).isInfix.trans (List.suffix_cons t rest).isInfix
  unfold splitAction
  dsimp only
  split
  · exact ⟨inside, List.nil_infix⟩
  · next close behind heq =>
    have suffix := List.drop_suffix (rest.takeWhile isInside).length rest
    rw [heq] at suffix
    have all := ((List.suffix_cons close behind).trans suffix).trans (List.suffix_cons t rest)
    exact ⟨inside, all.isInfix⟩

/-- What holds of everything read as a pipeline from the tokens of a source holds of the pipelines
of the source. -/
theorem run_all {ts : List Token} (hP : Pipeline.OfPart P ts) {main : String} {σ : State}
    (h : σ.All P) {source : Source} (hrun : run main σ ts = .ok source) :
    (∀ p ∈ piecePipelines source.main.body, P p) ∧
      ∀ t ∈ source.defines, ∀ p ∈ piecePipelines t.body, P p := by
  have finished {σ : State} (h : σ.All P) {source : Source}
      (hf : σ.finish main = .ok source) : (∀ p ∈ piecePipelines source.main.body, P p) ∧
        ∀ t ∈ source.defines, ∀ p ∈ piecePipelines t.body, P p := by
    unfold State.finish at hf
    split at hf
    · cases hf
      exact ⟨by simpa using h.current, h.defines⟩
    · cases hf
  induction σ, ts using run.induct with
  | case1 σ =>
    rw [run] at hrun
    exact finished h hrun
  | case2 σ t rest heof =>
    rw [run, heof] at hrun
    exact finished h hrun
  | case3 σ t rest content htext ih =>
    rw [run, htext] at hrun
    have behind := hP.mono (List.suffix_cons t rest).isInfix
    exact ih behind (h.push (by rw [Tree.pipelines]; nofun)) hrun
  | case4 σ t rest hopen split ih =>
    rw [run, hopen] at hrun
    obtain ⟨action, haction, h₁⟩ := exists_of_bind_eq_ok hrun
    obtain ⟨τ, hact, h₂⟩ := exists_of_bind_eq_ok h₁
    obtain ⟨inside, behind⟩ := splitAction_infix t rest
    exact ih τ (hP.mono behind) (h.act (Action.ofTokens_all (hP.mono inside) haction) hact) h₂
  | case5 σ t rest heof htext hopen =>
    rw [run] at hrun
    split at hrun <;> simp_all [unexpected, structural]

end Parser

/-- What holds of everything read as a pipeline from some tokens holds of the pipelines that they
spell. -/
theorem Source.ofTokens_all {ts : List Token} (hP : Pipeline.OfPart P ts) {name : String}
    {source : Source} (h : Source.ofTokens name ts = .ok source) :
    (∀ p ∈ piecePipelines source.main.body, P p) ∧
      ∀ t ∈ source.defines, ∀ p ∈ piecePipelines t.body, P p :=
  Parser.run_all hP Parser.State.all_initial h

/-- What holds of everything read as a pipeline holds of the pipelines of a source text. -/
theorem Source.parse_all (hP : Pipeline.OfTokens P) {name text : String} {source : Source}
    (h : Source.parse name text = .ok source) :
    (∀ p ∈ piecePipelines source.main.body, P p) ∧
      ∀ t ∈ source.defines, ∀ p ∈ piecePipelines t.body, P p := by
  obtain ⟨ts, -, hrun⟩ := exists_of_bind_eq_ok h
  exact Source.ofTokens_all (fun action part stop p _ => hP action part stop p) hrun

end

end Stencil
