import Stencil.Proofs.Template.Pipelines
import Stencil.Proofs.Template.Relocation

/-!
# Locations of a template

The readers and the parser make no locations of their own. Where all tokens are at locations of a
kind, so are the pipelines that are read from them, the pieces and blocks of the trees, and what is
reported as wrong (`Source.ofTokens_placed`). One location could come from elsewhere: the closing of
an action that is never closed. The lexer gives no such tokens, since it refuses their source.
-/

set_option autoImplicit false

namespace Stencil

/-! ## Pipelines -/

/-- The location in an operand, if it is a path. -/
def Operand.locations : Operand → List Location
  | .path p => [p.location]
  | .literal _ => []

/-- The locations in a command. -/
def Command.locations : Command → List Location
  | .operand o => o.locations
  | .call _ args here => here :: args.flatMap Operand.locations

/-- The locations in a pipeline. -/
def Pipeline.locations (p : Pipeline) : List Location :=
  p.location :: p.commands.flatMap Command.locations

/-! ## Trees -/

/-- Where a piece stands. -/
def Piece.places : Piece → List Location
  | .text _ here | .output _ here | .embed _ _ here => [here]

namespace Tree

variable {α : Type} (ofLeaf : α → List Location)

mutual

/-- The places of the leaves and blocks of a tree, given those of its leaves. -/
def places : Tree α → List Location
  | .leaf item => ofLeaf item
  | .block _ _ body none here => here :: placesOf body
  | .block _ _ body (some alternative) here => here :: (placesOf body ++ placesOf alternative)

/-- The places of a list of trees. -/
def placesOf : List (Tree α) → List Location
  | [] => []
  | t :: rest => places t ++ placesOf rest

end

variable {ofLeaf} {L : Location → Prop}

theorem forall_mem_placesOf_cons {t : Tree α} {rest : List (Tree α)} :
    (∀ l ∈ placesOf ofLeaf (t :: rest), L l) ↔
      (∀ l ∈ places ofLeaf t, L l) ∧ ∀ l ∈ placesOf ofLeaf rest, L l := by
  rw [placesOf, List.forall_mem_append]

theorem forall_mem_placesOf_reverse {ts : List (Tree α)} :
    (∀ l ∈ placesOf ofLeaf ts.reverse, L l) ↔ ∀ l ∈ placesOf ofLeaf ts, L l := by
  have append (first second : List (Tree α)) : placesOf ofLeaf (first ++ second) =
      placesOf ofLeaf first ++ placesOf ofLeaf second := by
    induction first with
    | nil => simp [placesOf]
    | cons t rest ih => simp [placesOf, ih]
  induction ts with
  | nil => simp
  | cons t rest ih =>
    have last : placesOf ofLeaf [t] = places ofLeaf t := by simp [placesOf]
    rw [List.reverse_cons, append, List.forall_mem_append, last, forall_mem_placesOf_cons]
    exact (and_congr_left' ih).trans and_comm

theorem forall_mem_places_block {kind : BlockKind} {subject : Pipeline} {body : List (Tree α)}
    {alternative : Option (List (Tree α))} {here : Location} :
    (∀ l ∈ places ofLeaf (.block kind subject body alternative here), L l) ↔
      L here ∧ (∀ l ∈ placesOf ofLeaf body, L l) ∧
        ∀ other, alternative = some other → ∀ l ∈ placesOf ofLeaf other, L l := by
  cases alternative with
  | none => simp [places]
  | some other => simp [places, or_imp, forall_and]

end Tree

/-- The places of parsed trees. -/
abbrev piecePlaces (ts : List (Tree Piece)) : List Location :=
  Tree.placesOf Piece.places ts

/-! ## Tokens -/

variable {L : Location → Prop}

variable (L) in
/-- Tokens at locations of a kind. -/
abbrev Tokens.Placed (ts : List Token) : Prop := ∀ t ∈ ts, L t.location

variable (L) in
/-- What is read, or what is wrong and where. -/
abbrev Reads {α : Type} (P : α → Prop) (r : Except SourceError α) : Prop :=
  Ends (fun e => L e.location) P r

theorem structural_placed {α : Type} {P : α → Prop} (fault : StructuralFault) {here : Location}
    (h : L here) : Reads L P (structural fault here) := h

theorem unexpected_placed {α : Type} {P : α → Prop} (wanted : Expectation) {t : Token}
    (h : L t.location) : Reads L P (unexpected wanted t) := h

namespace Phrase

variable {P : Token → Prop} {ts : List Token}

theorem forall_mem_splitOn (separates : Token → Bool) (h : ∀ t ∈ ts, P t) :
    (∀ t ∈ (splitOn separates ts).1, P t) ∧
      ∀ s ∈ (splitOn separates ts).2, P s.1 ∧ ∀ t ∈ s.2, P t := by
  induction ts with
  | nil => exact ⟨List.forall_mem_nil _, List.forall_mem_nil _⟩
  | cons t rest ih =>
    obtain ⟨ht, hrest⟩ := List.forall_mem_cons.mp h
    obtain ⟨first, later⟩ := ih hrest
    unfold splitOn
    dsimp only
    split
    · exact ⟨List.forall_mem_nil _, List.forall_mem_cons.mpr ⟨⟨ht, first⟩, later⟩⟩
    · exact ⟨List.forall_mem_cons.mpr ⟨ht, first⟩, later⟩

theorem forall_mem_words (h : ∀ t ∈ ts, P t) : ∀ word ∈ words ts, ∀ t ∈ word, P t := by
  obtain ⟨first, later⟩ := forall_mem_splitOn Token.isBlank h
  intro word hword
  unfold words at hword
  rcases List.mem_cons.mp (List.mem_of_mem_filter hword) with rfl | hlater
  · exact first
  · obtain ⟨s, hs, rfl⟩ := List.mem_map.mp hlater
    exact (later s hs).2

theorem forall_mem_skipBlanks (h : ∀ t ∈ ts, P t) : ∀ t ∈ skipBlanks ts, P t :=
  fun t ht => h t ((List.dropWhile_sublist _).subset ht)

end Phrase

/-! ## Readers -/

variable (L) in
/-- Something read, and the tokens behind it. -/
def ReadPlaced {α : Type} (locations : α → List Location) (r : α × List Token) : Prop :=
  (∀ l ∈ locations r.1, L l) ∧ Tokens.Placed L r.2

theorem Accessor.ofToken?_placed {t : Token} (h : L t.location) :
    Reads L (fun _ => True) (Accessor.ofToken? t) := by
  unfold Accessor.ofToken?
  split
  · exact .ok trivial
  · exact .ok trivial
  · split
    · exact .ok trivial
    · exact structural_placed _ h
  · exact .ok trivial

theorem Accessor.ofTokens_placed : (ts : List Token) → Tokens.Placed L ts →
    Reads L (fun r => Tokens.Placed L r.2) (Accessor.ofTokens ts)
  | [], h => by
    rw [Accessor.ofTokens]
    exact .ok h
  | [t], h => by
    rw [Accessor.ofTokens]
    split
    · exact structural_placed _ (h t (List.mem_singleton_self t))
    · exact .ok h
  | t :: u :: rest, h => by
    obtain ⟨ht, hu, hrest⟩ := by simpa only [List.forall_mem_cons] using h
    rw [Accessor.ofTokens]
    split
    · refine (Accessor.ofToken?_placed hu).bind fun step _ => ?_
      cases step with
      | none => exact structural_placed _ ht
      | some step =>
        exact (Accessor.ofTokens_placed rest hrest).bind fun r hr => .ok hr
    · exact .ok h

theorem Path.ofDot_placed {here : Location} (h : L here) {ts : List Token}
    (hts : Tokens.Placed L ts) :
    Reads L (ReadPlaced L fun p => [p.location]) (Path.ofDot here ts) := by
  have single (p : Path) (hp : p.location = here) : ∀ l ∈ [p.location], L l :=
    List.forall_mem_singleton.mpr (hp ▸ h)
  cases ts with
  | nil => exact .ok ⟨single _ rfl, hts⟩
  | cons t rest =>
    obtain ⟨ht, hrest⟩ := List.forall_mem_cons.mp hts
    rw [Path.ofDot]
    refine (Accessor.ofToken?_placed ht).bind fun step _ => ?_
    cases step with
    | none =>
      dsimp only
      split
      · exact structural_placed _ h
      · exact .ok ⟨single _ rfl, hts⟩
    | some step =>
      exact (Accessor.ofTokens_placed rest hrest).bind fun r hr => .ok ⟨single _ rfl, hr⟩

theorem Path.ofDollar_placed {here : Location} (h : L here) {ts : List Token}
    (hts : Tokens.Placed L ts) :
    Reads L (ReadPlaced L fun p => [p.location]) (Path.ofDollar here ts) :=
  (Accessor.ofTokens_placed ts hts).bind fun _ hr => .ok ⟨List.forall_mem_singleton.mpr h, hr⟩

theorem Operand.ofTokens_placed {t : Token} (ht : L t.location) {rest : List Token}
    (hrest : Tokens.Placed L rest) :
    Reads L (ReadPlaced L Operand.locations) (Operand.ofTokens t rest) := by
  unfold Operand.ofTokens
  split
  · exact (Path.ofDot_placed ht hrest).map fun _ hr => hr
  · exact (Path.ofDollar_placed ht hrest).map fun _ hr => hr
  · exact .ok ⟨List.forall_mem_nil _, hrest⟩
  · exact .ok ⟨List.forall_mem_nil _, hrest⟩
  · split
    · exact .ok ⟨List.forall_mem_nil _, hrest⟩
    · exact structural_placed _ ht
  · exact unexpected_placed _ ht

theorem Operand.ofWord_placed {word : List Token} (h : Tokens.Placed L word) :
    Reads L (∀ l ∈ List.flatMap Operand.locations ·, L l) (Operand.ofWord word) := by
  cases word with
  | nil => exact .ok (List.forall_mem_nil _)
  | cons t rest =>
    obtain ⟨ht, hrest⟩ := List.forall_mem_cons.mp h
    rw [Operand.ofWord]
    refine (Operand.ofTokens_placed ht hrest).bind fun r hr => ?_
    obtain ⟨o, behind⟩ := r
    obtain ⟨ho, hbehind⟩ := hr
    cases behind with
    | nil => exact .ok (by simpa using ho)
    | cons u _ => exact unexpected_placed _ (List.forall_mem_cons.mp hbehind).1

theorem Operand.ofWords_placed {words : List (List Token)}
    (h : ∀ word ∈ words, Tokens.Placed L word) :
    Reads L (∀ l ∈ List.flatMap Operand.locations ·, L l) (Operand.ofWords words) := by
  have each := Ends.mapM fun word hword => Operand.ofWord_placed (h word hword)
  refine each.bind fun operands hall => .ok fun l hl => ?_
  obtain ⟨o, ho, hlo⟩ := List.mem_flatMap.mp hl
  obtain ⟨os, hos, hmem⟩ := List.mem_flatten.mp ho
  exact hall os hos l (List.mem_flatMap.mpr ⟨o, hmem, hlo⟩)

theorem Command.ofCall_placed {t : Token} (ht : L t.location) (name : String) {glued : List Token}
    (hglued : Tokens.Placed L glued) {words : List (List Token)}
    (hwords : ∀ word ∈ words, Tokens.Placed L word) (piped : Nat) :
    Reads L (∀ l ∈ Command.locations ·, L l) (Command.ofCall t name glued words piped) := by
  unfold Command.ofCall
  split
  · exact structural_placed _ ht
  · exact structural_placed _ ht
  · split
    · next u _ => exact unexpected_placed _ (hglued u List.mem_cons_self)
    · refine (Operand.ofWords_placed hwords).bind fun args hargs => ?_
      dsimp only
      split
      · exact .ok (List.forall_mem_cons.mpr ⟨ht, hargs⟩)
      · exact structural_placed _ ht

theorem Command.ofFirst_placed {t : Token} (ht : L t.location) {glued : List Token}
    (hglued : Tokens.Placed L glued) {words : List (List Token)}
    (hwords : ∀ word ∈ words, Tokens.Placed L word) :
    Reads L (∀ l ∈ Command.locations ·, L l) (Command.ofFirst t glued words) := by
  unfold Command.ofFirst
  split
  · exact Command.ofCall_placed ht _ hglued hwords 0
  · refine (Operand.ofTokens_placed ht hglued).bind fun r hr => ?_
    obtain ⟨o, rest⟩ := r
    obtain ⟨ho, hrest⟩ := hr
    dsimp only
    split
    · exact .ok ho
    · next u _ heq =>
      have others : Tokens.Placed L (rest ++ words.flatten) := by
        refine List.forall_mem_append.mpr ⟨hrest, fun v hv => ?_⟩
        obtain ⟨word, hword, hmem⟩ := List.mem_flatten.mp hv
        exact hwords word hword v hmem
      exact unexpected_placed _ (others u (heq ▸ List.mem_cons_self))

theorem Command.ofStage_placed {stage : Token × List Token} (hpipe : L stage.1.location)
    (h : Tokens.Placed L stage.2) :
    Reads L (∀ l ∈ Command.locations ·, L l) (Command.ofStage stage) := by
  unfold Command.ofStage
  split
  · next t glued words heq =>
    obtain ⟨hword, hwords⟩ := List.forall_mem_cons.mp (heq ▸ Phrase.forall_mem_words h)
    obtain ⟨ht, hglued⟩ := List.forall_mem_cons.mp hword
    split
    · exact Command.ofCall_placed ht _ hglued hwords 1
    · exact structural_placed _ ht
  · exact structural_placed _ hpipe

theorem Pipeline.ofTokens_placed (action : Option Keyword) {ts : List Token}
    (h : Tokens.Placed L ts) {stop : Location} (hstop : L stop) :
    Reads L (∀ l ∈ Pipeline.locations ·, L l) (Pipeline.ofTokens action ts stop) := by
  obtain ⟨first, later⟩ := Phrase.forall_mem_splitOn (fun t => t.kind = .pipe) h
  have words := Phrase.forall_mem_words first
  unfold Pipeline.ofTokens Phrase.stages
  generalize Phrase.splitOn (fun t => t.kind = .pipe) ts = split at *
  obtain ⟨head, stages⟩ := split
  dsimp only at *
  split
  · next heq =>
    obtain ⟨hword, hrest⟩ := List.forall_mem_cons.mp (heq ▸ words)
    obtain ⟨ht, hglued⟩ := List.forall_mem_cons.mp hword
    refine (Command.ofFirst_placed ht hglued hrest).bind fun c hc => ?_
    refine (Ends.mapM fun s hs =>
      Command.ofStage_placed (later s hs).1 (later s hs).2).bind fun cs hcs => ?_
    refine .ok (List.forall_mem_cons.mpr ⟨ht, ?_⟩)
    rw [List.flatMap_cons, List.forall_mem_append, List.forall_mem_flatMap]
    exact ⟨hc, hcs⟩
  · next pipe _ _ _ => exact unexpected_placed _ (later _ List.mem_cons_self).1
  · exact structural_placed _ hstop

/-! ## Actions -/

namespace Action

variable (L) in
/-- An action whose pipelines are at locations of a kind. -/
def Placed (a : Action) : Prop := ∀ p ∈ a.pipelines, ∀ l ∈ p.locations, L l

variable {ts : List Token} {start stop : Location}

theorem read_placed {make : Pipeline → Action} (hmake : ∀ p, (make p).pipelines = [p])
    (k : Option Keyword) (h : Tokens.Placed L ts) (hstop : L stop) :
    Reads L (Placed L) (make <$> Pipeline.ofTokens k ts stop) := by
  refine (Pipeline.ofTokens_placed k h hstop).map fun p hp => ?_
  rw [Placed, hmake, List.forall_mem_singleton]
  exact hp

theorem atEnd_placed (h : Tokens.Placed L ts) : Reads L (fun _ => True) (atEnd ts) := by
  have behind := Phrase.forall_mem_skipBlanks h
  unfold atEnd
  split
  · exact .ok trivial
  · next heq => exact unexpected_placed _ (behind _ (heq ▸ List.mem_cons_self))

theorem name_placed (k : Keyword) (h : Tokens.Placed L ts) (hstop : L stop) :
    Reads L (fun r => Tokens.Placed L r.2) (name k ts stop) := by
  have behind := Phrase.forall_mem_skipBlanks h
  unfold name
  split
  · exact structural_placed _ hstop
  · next heq =>
    obtain ⟨ht, hrest⟩ := List.forall_mem_cons.mp (heq ▸ behind)
    split
    · exact .ok hrest
    · exact structural_placed _ ht

theorem data_placed (h : Tokens.Placed L ts) (hstop : L stop) :
    Reads L (fun given => ∀ p ∈ Option.toList given, ∀ l ∈ p.locations, L l) (data ts stop) := by
  have behind := Phrase.forall_mem_skipBlanks h
  unfold data
  split
  · exact .ok (List.forall_mem_nil _)
  · next heq =>
    rw [heq] at behind
    refine (Pipeline.ofTokens_placed _ behind hstop).map fun p hp => ?_
    exact List.forall_mem_singleton.mpr hp

theorem ofElse_placed (h : Tokens.Placed L ts) (hstop : L stop) :
    Reads L (Placed L) (ofElse ts stop) := by
  have behind := Phrase.forall_mem_skipBlanks h
  unfold ofElse
  split
  · exact .ok (List.forall_mem_nil _)
  · next heq =>
    obtain ⟨ht, hrest⟩ := List.forall_mem_cons.mp (heq ▸ behind)
    split
    · exact read_placed (fun _ => rfl) _ hrest hstop
    · exact unexpected_placed _ ht

theorem ofKeyword_placed (k : Keyword) (h : Tokens.Placed L ts) (topLevel : Bool)
    (hstart : L start) (hstop : L stop) :
    Reads L (Placed L) (ofKeyword k ts topLevel start stop) := by
  cases k with
  | ifWord | rangeWord | withWord => exact read_placed (fun _ => rfl) _ h hstop
  | elseWord => exact ofElse_placed h hstop
  | endWord => exact (atEnd_placed h).bind fun _ _ => .ok (List.forall_mem_nil _)
  | templateWord =>
    refine (name_placed _ h hstop).bind fun r hr => ?_
    exact (data_placed hr hstop).map fun _ hgiven => hgiven
  | defineWord =>
    unfold ofKeyword
    dsimp only
    split
    · refine (name_placed _ h hstop).bind fun r hr => ?_
      exact (atEnd_placed hr).bind fun _ _ => .ok (List.forall_mem_nil _)
    · exact structural_placed _ hstart
  | blockWord =>
    refine (name_placed _ h hstop).bind fun r hr => ?_
    exact read_placed (fun _ => rfl) _ hr hstop

/-- An action that is opened, closed and spelled at locations of a kind has its pipelines there. -/
theorem ofTokens_placed (h : Tokens.Placed L ts) (topLevel : Bool) (hstart : L start)
    (hstop : L stop) : Reads L (Placed L) (ofTokens ts topLevel start stop) := by
  have behind := Phrase.forall_mem_skipBlanks h
  unfold ofTokens
  split
  · exact structural_placed _ hstop
  · next heq =>
    rw [heq] at behind
    split
    · exact ofKeyword_placed _ (List.forall_mem_cons.mp behind).2 topLevel hstart hstop
    · exact read_placed (fun _ => rfl) _ behind hstop

end Action

/-! ## Parsing -/

variable (L) in
/-- Trees with their pieces and blocks, and all that is in their pipelines, at locations of a
kind. -/
structure Pieces.Placed (ts : List (Tree Piece)) : Prop where
  places : ∀ l ∈ piecePlaces ts, L l
  pipelines : ∀ p ∈ piecePipelines ts, ∀ l ∈ p.locations, L l

variable (L) in
/-- The templates of a source are at locations of a kind, but for the main one, which starts where
the source does. -/
structure Source.Placed (source : Source) : Prop where
  start : source.main.location = .start
  main : Pieces.Placed L source.main.body
  defines : ∀ t ∈ source.defines, L t.location ∧ Pieces.Placed L t.body

namespace Parser

variable (L) in
/-- What a frame opened and holds is at locations of a kind. -/
structure Frame.Placed (f : Frame) : Prop where
  location : L f.location
  body : ∀ body, f.body = some body → ∀ l ∈ piecePlaces body, L l
  before : ∀ l ∈ piecePlaces f.before, L l

variable (L) in
/-- What a state holds is at locations of a kind. -/
structure State.Placed (σ : State) : Prop where
  current : ∀ l ∈ piecePlaces σ.current, L l
  frames : ∀ f ∈ σ.frames, f.Placed L
  defines : ∀ t ∈ σ.defines, L t.location ∧ ∀ l ∈ piecePlaces t.body, L l

variable {σ : State} {here : Location}

theorem State.placed_initial : State.initial.Placed L :=
  ⟨List.forall_mem_nil _, List.forall_mem_nil _, List.forall_mem_nil _⟩

theorem State.Placed.push (h : σ.Placed L) {item : Piece} (hl : ∀ l ∈ item.places, L l) :
    (σ.push (.leaf item)).Placed L where
  current := Tree.forall_mem_placesOf_cons.mpr ⟨hl, h.current⟩
  frames := h.frames
  defines := h.defines

theorem State.Placed.open (h : σ.Placed L) (opener : Opener) (hl : L here) :
    (σ.open opener here).Placed L where
  current := List.forall_mem_nil _
  frames := List.forall_mem_cons.mpr ⟨⟨hl, nofun, h.current⟩, h.frames⟩
  defines := h.defines

theorem Frame.Placed.block {f : Frame} (h : f.Placed L) (kind : BlockKind) (subject : Pipeline)
    {read : List (Tree Piece)} (hr : ∀ l ∈ piecePlaces read, L l) :
    ∀ l ∈ Tree.places Piece.places (f.block kind subject read), L l := by
  unfold Frame.block
  split
  · exact Tree.forall_mem_places_block.mpr ⟨h.location, hr, nofun⟩
  · next body heq =>
    refine Tree.forall_mem_places_block.mpr ⟨h.location, h.body body heq, ?_⟩
    rintro _ ⟨⟩
    exact hr

theorem closeChain_placed (chained : Bool) {t : Tree Piece} {before : List (Tree Piece)}
    {frames : List Frame} (ht : ∀ l ∈ Tree.places Piece.places t, L l)
    (hb : ∀ l ∈ piecePlaces before, L l) (hf : ∀ f ∈ frames, f.Placed L) :
    (∀ l ∈ piecePlaces (closeChain chained t before frames).1, L l) ∧
      ∀ f ∈ (closeChain chained t before frames).2, f.Placed L := by
  induction frames generalizing chained t before with
  | nil => exact ⟨Tree.forall_mem_placesOf_cons.mpr ⟨ht, hb⟩, List.forall_mem_nil _⟩
  | cons f frames ih =>
    obtain ⟨top, others⟩ := List.forall_mem_cons.mp hf
    unfold closeChain
    split
    · refine ih _ (top.block _ _ ?_) top.before others
      exact Tree.forall_mem_placesOf_cons.mpr ⟨ht, List.forall_mem_nil _⟩
    · exact ⟨Tree.forall_mem_placesOf_cons.mpr ⟨ht, hb⟩, hf⟩

theorem State.Placed.close (h : σ.Placed L) (hl : L here) :
    Reads L (State.Placed L) (σ.close here) := by
  have frames := h.frames
  unfold State.close
  split
  · exact structural_placed _ hl
  · next f others heq =>
    obtain ⟨top, hothers⟩ := List.forall_mem_cons.mp (heq ▸ frames)
    have read := Tree.forall_mem_placesOf_reverse.mpr h.current
    -- a definition that ends joins those that are done
    have done (name : String) : ∀ t ∈ σ.defines ++ [⟨name, σ.current.reverse, f.location⟩],
        L t.location ∧ ∀ l ∈ piecePlaces t.body, L l := by
      rw [List.forall_mem_append, List.forall_mem_singleton]
      exact ⟨h.defines, top.location, read⟩
    dsimp only
    split
    · next kind subject chained _ =>
      obtain ⟨current, rest⟩ :=
        closeChain_placed chained (top.block kind subject read) top.before hothers
      exact .ok ⟨current, rest, h.defines⟩
    · exact .ok ⟨top.before, hothers, done _⟩
    · refine .ok ⟨Tree.forall_mem_placesOf_cons.mpr ⟨?_, top.before⟩, hothers, done _⟩
      exact List.forall_mem_singleton.mpr top.location

theorem State.Placed.otherwise (h : σ.Placed L) (subject : Option Pipeline) (hl : L here) :
    Reads L (State.Placed L) (σ.otherwise subject here) := by
  have frames := h.frames
  unfold State.otherwise
  split
  · exact structural_placed _ hl
  · next f others heq =>
    obtain ⟨top, hothers⟩ := List.forall_mem_cons.mp (heq ▸ frames)
    split
    · have turned : State.Placed L { σ with
          current := [], frames := { f with body := some σ.current.reverse } :: others } := by
        refine ⟨List.forall_mem_nil _, List.forall_mem_cons.mpr ⟨?_, hothers⟩, h.defines⟩
        refine ⟨top.location, ?_, top.before⟩
        rintro _ ⟨⟩
        exact Tree.forall_mem_placesOf_reverse.mpr h.current
      dsimp only
      split
      · exact .ok turned
      · exact .ok (turned.open _ hl)
      · exact structural_placed _ hl
    · exact structural_placed _ hl

theorem State.Placed.openDefinition (h : σ.Placed L) (main : String) (opener : Opener)
    (name : String) (hl : L here) :
    Reads L (State.Placed L) (σ.openDefinition main opener name here) := by
  unfold State.openDefinition
  split
  · exact structural_placed _ hl
  · exact .ok (h.open opener hl)

/-- What an action adds is where the action is. -/
theorem State.Placed.act (h : σ.Placed L) (main : String) (action : Action) (hl : L here) :
    Reads L (State.Placed L) (σ.act main action here) := by
  unfold State.act
  cases action with
  | output p | embed name data => exact .ok (h.push (List.forall_mem_singleton.mpr hl))
  | opening kind subject => exact .ok (h.open _ hl)
  | otherwise => exact h.otherwise none hl
  | otherwiseIf subject => exact h.otherwise (some subject) hl
  | close => exact h.close hl
  | define name => exact h.openDefinition main (.define name) name hl
  | slot name data => exact h.openDefinition main (.slot name data) name hl

theorem State.Placed.finish (h : σ.Placed L)
    (all : σ.All fun p => ∀ l ∈ p.locations, L l) (main : String) :
    Reads L (Source.Placed L) (σ.finish main) := by
  have frames := h.frames
  unfold State.finish
  split
  · refine .ok ⟨rfl, ⟨Tree.forall_mem_placesOf_reverse.mpr h.current, ?_⟩, fun t ht => ?_⟩
    · simpa using all.current
    · obtain ⟨hl, places⟩ := h.defines t ht
      exact ⟨hl, places, all.defines t ht⟩
  · next heq => exact structural_placed _ (frames _ (heq ▸ List.mem_cons_self)).location

/-- Items at locations of a kind are parsed to trees there, or refused there. -/
theorem run_placed {a b main : String} {ts ts' : List Token} (items : Items a b ts ts')
    (hts : Tokens.Placed L ts) (h : σ.Placed L) (all : σ.All fun p => ∀ l ∈ p.locations, L l) :
    Reads L (Source.Placed L) (run main σ ts) := by
  induction items generalizing σ with
  | eof spot spot' =>
    rw [run]
    exact h.finish all main
  | text content spot spot' _ ih =>
    obtain ⟨hl, hrest⟩ := List.forall_mem_cons.mp hts
    rw [run]
    exact ih hrest (h.push (List.forall_mem_singleton.mpr hl)) (all.push (List.forall_mem_nil _))
  | cut spot first second _ ih =>
    obtain ⟨hl, hrest⟩ := List.forall_mem_cons.mp hts
    rw [run]
    exact ih hrest (h.push (List.forall_mem_singleton.mpr hl)) (all.push (List.forall_mem_nil _))
  | action spot spot' stop stop' _ hinside _ ih =>
    obtain ⟨hl, hbehind⟩ := List.forall_mem_cons.mp hts
    obtain ⟨inside, hclose⟩ := List.forall_mem_append.mp hbehind
    obtain ⟨hstop, hrest⟩ := List.forall_mem_cons.mp hclose
    rw [run]
    dsimp only
    rw [splitAction_append hinside]
    refine (Action.ofTokens_placed inside _ hl hstop).bind fun action ha => ?_
    refine ((h.act main action hl).and fun τ hτ => all.act ha hτ).bind fun τ acted => ?_
    exact ih hrest acted.1 acted.2

end Parser

/-- The tokens of a source are texts and whole actions. -/
theorem items_of_tokenize {text : String} {ts : List Token} (h : tokenize text = .ok ts) :
    Items "" "" ts ts := by
  have alike := Lexer.run_items (a := "") (b := "") (.text false) .start .start text.toList
  unfold tokenize at h
  rw [h] at alike
  exact alike

/-- The trees of a source are at locations of its tokens, and so is what is wrong with them. -/
theorem Source.ofTokens_placed {text : String} {ts : List Token} (h : tokenize text = .ok ts)
    (hts : Tokens.Placed L ts) (name : String) :
    Reads L (Source.Placed L) (Source.ofTokens name ts) :=
  Parser.run_placed (items_of_tokenize h) hts Parser.State.placed_initial Parser.State.all_initial

end Stencil
