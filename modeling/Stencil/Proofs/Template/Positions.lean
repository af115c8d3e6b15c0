import Mathlib.Data.List.DropRight
import Stencil.Proofs.Results
import Stencil.Proofs.Template.Ahead

/-!
# Positions of tokens

A location that is reached by advancing over some characters counts them: their bytes, their line
feeds, and the characters behind the last of these (`Location.counts_advance`). The lexer makes
locations in no other way. Each of its steps gives locations of points that lie ahead of it
(`step_placed`), however it trims, passes comments or decodes escapes, so the tokens of a source and
the errors in it are at points of the source (`tokenize_placed`).
-/

set_option autoImplicit false

namespace Stencil

/-! ## Counting -/

/-- A location counts the characters before a point. -/
structure Location.Counts (here : Location) (before : List Char) : Prop where
  offset : here.offset = (String.ofList before).utf8ByteSize
  line : here.line = 1 + before.count '\n'
  column : here.column = 1 + (before.rtakeWhile (· ≠ '\n')).length

/-- A location is that of a point of a text. -/
def Location.IsIn (here : Location) (text : String) : Prop :=
  ∃ before, before <+: text.toList ∧ here.Counts before

theorem Location.offset_next (here : Location) (c : Char) :
    (here.next c).offset = here.offset + c.utf8Size := by
  unfold Location.next
  split
  · rfl
  · rfl

/-- Where one gets by advancing over characters counts them. -/
theorem Location.counts_advance (before : List Char) :
    (Location.start.advance before).Counts before := by
  induction before using List.reverseRecOn with
  | nil => exact ⟨rfl, rfl, rfl⟩
  | append_singleton before c ih =>
    obtain ⟨offset, line, column⟩ := ih
    rw [Location.advance_append, Location.advance_cons, Location.advance_nil]
    have bytes : (String.ofList (before ++ [c])).utf8ByteSize =
        (String.ofList before).utf8ByteSize + c.utf8Size := by
      rw [String.ofList_append, String.utf8ByteSize_append, ← String.singleton_eq_ofList,
        String.utf8ByteSize_singleton]
    refine ⟨by rw [Location.offset_next, offset, bytes], ?_, ?_⟩
    · by_cases hc : c = '\n'
      · simp [Location.next, hc, line, Nat.add_assoc]
      · simp [Location.next, hc, line]
    · by_cases hc : c = '\n'
      · simp [Location.next, hc]
      · simp [Location.next, hc, column, Nat.add_assoc]

namespace Lexer

open Stencil.Text

variable {L : Location → Prop}

/-! ## Points ahead -/

variable (L) in
/-- The points from a location on, over some characters, have locations of a kind. -/
def Ahead (here : Location) (cs : List Char) : Prop :=
  ∀ n, L (here.advance (cs.take n))

theorem Ahead.here {here : Location} {cs : List Char} (h : Ahead L here cs) : L here := h 0

theorem Ahead.of_prefix {here : Location} {cs run : List Char} (h : Ahead L here cs)
    (hp : run <+: cs) : L (here.advance run) := by
  rw [List.prefix_iff_eq_take.mp hp]
  exact h _

theorem Ahead.drop {here : Location} {cs : List Char} (h : Ahead L here cs) (n : Nat) :
    Ahead L (here.advance (cs.take n)) (cs.drop n) := by
  intro m
  rw [← Location.advance_append, ← List.take_add]
  exact h (n + m)

/-! ## Steps -/

variable (L) in
/-- The opening of the action that a mode is in is at a location of a kind. -/
def Mode.Placed : Mode → Prop
  | .text _ => True
  | .action opened => L opened

variable (L) in
/-- A step to tokens at locations of a kind, which takes a character at least. -/
structure Step.Placed (found : Step) : Prop where
  tokens : ∀ t ∈ found.tokens, L t.location
  mode : found.mode.Placed L
  size : 0 < found.size

variable (L) in
/-- An error of the lexer at a location of a kind. -/
def FaultPlaced : SourceError → Prop
  | .lexical _ here => L here
  | .structural _ _ => False

variable (L) in
/-- A step to tokens at locations of a kind, or an error at one. -/
abbrev StepPlaced (r : Except SourceError Step) : Prop :=
  Ends (FaultPlaced L) (Step.Placed L) r

variable {opened here : Location}

/-- One token of an action, where a step starts. -/
theorem Step.Placed.single (ho : L opened) (h : L here) (k : Token.Kind) {size : Nat}
    (hs : 0 < size) : Step.Placed L ⟨[⟨k, here⟩], .action opened, size⟩ :=
  ⟨List.forall_mem_singleton.mpr h, ho, hs⟩

theorem textTokens_placed (h : L here) (content : List Char) :
    ∀ t ∈ textTokens content here, L t.location := by
  unfold textTokens
  split
  · exact List.forall_mem_nil _
  · exact List.forall_mem_singleton.mpr h

theorem comment_placed (ho : L opened) (body : List Char) :
    Ends (FaultPlaced L) (fun _ => True) (comment opened body) := by
  unfold comment
  split
  · exact .error ho
  · split
    · exact .error ho
    · exact .ok trivial

/-- Trimmed blanks, a text and a comment are passed by advancing over them. -/
theorem textStep_placed {trim : Bool} {cs : List Char} (hne : cs ≠ []) (h : Ahead L here cs) :
    StepPlaced L (textStep trim here cs) := by
  unfold textStep
  dsimp only
  generalize hblanks : (if trim then cs.takeWhile isBlank else []) = blanks
  have skipped : blanks <+: cs := by
    rw [← hblanks]
    split
    · exact List.takeWhile_prefix _
    · exact List.nil_prefix
  have ahead : Ahead L (here.advance blanks) (cs.drop blanks.length) := by
    have := h.drop blanks.length
    rwa [← List.prefix_iff_eq_take.mp skipped] at this
  cases hcut : cut ['\x7b', '\x7b'] (cs.drop blanks.length) with
  | none =>
    exact .ok ⟨textTokens_placed ahead.here _, trivial, List.length_pos_of_ne_nil hne⟩
  | some parts =>
    obtain ⟨content, rest⟩ := parts
    have ho : L ((here.advance blanks).advance content) := by
      refine ahead.of_prefix ?_
      rw [eq_of_cut hcut, List.append_assoc]
      exact List.prefix_append _ _
    dsimp only
    split
    · refine .ok ⟨?_, ho, by dsimp only; omega⟩
      rw [List.forall_mem_append, List.forall_mem_singleton]
      exact ⟨textTokens_placed ahead.here _, ho⟩
    · refine (comment_placed ho _).bind fun r _ => .ok ⟨?_, trivial, by dsimp only; omega⟩
      exact textTokens_placed ahead.here _

theorem blankStep_placed (ho : L opened) {c : Char} (hc : isBlank c = true) {rest : List Char}
    (h : Ahead L here (c :: rest)) : Step.Placed L (blankStep opened here (c :: rest)) := by
  refine ⟨?_, ?_, blankStep_size_pos hc rest⟩
  · unfold blankStep
    dsimp only
    split
    · next tail heq =>
      have close : (c :: rest).takeWhile isBlank ++ ['-'] <+: c :: rest := by
        conv_rhs => rw [← List.takeWhile_append_dropWhile (p := isBlank) (l := c :: rest)]
        rw [← drop_takeWhile, heq]
        exact ⟨'\x7d' :: '\x7d' :: tail, by simp⟩
      exact List.forall_mem_cons.mpr ⟨h.here, List.forall_mem_singleton.mpr (h.of_prefix close)⟩
    · exact List.forall_mem_singleton.mpr h.here
  · unfold blankStep
    dsimp only
    split
    · trivial
    · exact ho

theorem dotStep_placed (ho : L opened) {rest : List Char} (h : Ahead L here ('.' :: rest)) :
    Step.Placed L (dotStep opened here rest) := by
  have dot : ['.'] <+: '.' :: rest := ⟨rest, rfl⟩
  have behind : L (here.next '.') := h.of_prefix dot
  refine ⟨List.forall_mem_cons.mpr ⟨h.here, ?_⟩, ho, by unfold dotStep; dsimp only; omega⟩
  split
  · exact List.forall_mem_nil _
  · exact List.forall_mem_singleton.mpr behind

theorem quotedStep_placed (ho : L opened) {rest : List Char} (h : Ahead L here ('"' :: rest)) :
    StepPlaced L (quotedStep opened here rest) := by
  unfold quotedStep
  split
  · exact .ok (.single ho h.here _ (by omega))
  · exact .error h.here
  · next letter before _ =>
    have escape : '"' :: rest.take before <+: '"' :: rest :=
      List.cons_prefix_cons.mpr ⟨rfl, List.take_prefix _ _⟩
    exact .error (h.of_prefix escape)

theorem rawStep_placed (ho : L opened) (h : L here) (rest : List Char) :
    StepPlaced L (rawStep opened here rest) := by
  unfold rawStep
  split
  · exact .ok (.single ho h _ (by omega))
  · exact .error h

theorem numberStep_placed (ho : L opened) (h : L here) {cs : List Char}
    (hs : Literal.number cs ≠ []) : StepPlaced L (numberStep opened here cs) := by
  unfold numberStep
  dsimp only
  split
  · exact .error h
  · exact .ok (.single ho h _ (List.length_pos_of_ne_nil hs))

theorem unsigned_ne_nil {c : Char} (hc : isDigit c = true) (rest : List Char) :
    Literal.unsigned (c :: rest) ≠ [] := by
  unfold Literal.unsigned
  rw [List.takeWhile_cons_of_pos hc]
  dsimp only
  split
  · split <;> exact List.cons_ne_nil _ _
  · exact List.cons_ne_nil _ _

/-- What a number is told by is part of it. -/
theorem number_ne_nil {c : Char} {rest : List Char} (h : startsNumber c rest = true) :
    Literal.number (c :: rest) ≠ [] := by
  unfold Literal.number
  split
  · exact List.cons_ne_nil _ _
  · exact List.cons_ne_nil _ _
  · next hminus hplus =>
    have minus : c ≠ '-' := fun heq => hminus rest (by rw [heq])
    have plus : c ≠ '+' := fun heq => hplus rest (by rw [heq])
    have digit : isDigit c = true := by simpa [startsNumber, minus, plus] using h
    exact unsigned_ne_nil digit rest

theorem nameStep_placed (ho : L opened) (h : L here) {c : Char} (hc : isNameStart c = true)
    (rest : List Char) : Step.Placed L (nameStep opened here (c :: rest)) := by
  refine .single ho h _ ?_
  rw [List.takeWhile_cons_of_pos (isNamePart_of_isNameStart hc)]
  exact Nat.succ_pos _

theorem actionStep_placed (ho : L opened) {c : Char} {rest : List Char}
    (h : Ahead L here (c :: rest)) : StepPlaced L (actionStep opened here c rest) := by
  unfold actionStep
  split
  · exact .ok ⟨List.forall_mem_singleton.mpr h.here, trivial, Nat.two_pos⟩
  · exact .ok (dotStep_placed ho h)
  · exact .ok (.single ho h.here _ Nat.one_pos)
  · exact .ok (.single ho h.here _ Nat.one_pos)
  · exact quotedStep_placed ho h
  · exact rawStep_placed ho h.here rest
  · split
    · next hc => exact .ok (blankStep_placed ho hc h)
    · split
      · next hc => exact numberStep_placed ho h.here (number_ne_nil hc)
      · split
        · next hc => exact .ok (nameStep_placed ho h.here hc rest)
        · exact .error h.here

/-- A step gives tokens, or an error, at points that lie ahead of it or at the opening of its
action. -/
theorem step_placed {mode : Mode} (hm : mode.Placed L) {c : Char} {rest : List Char}
    (h : Ahead L here (c :: rest)) : StepPlaced L (step mode here c rest) := by
  cases mode with
  | text trim => exact textStep_placed nofun h
  | action opened => exact actionStep_placed hm h

/-! ## Runs -/

/-- The tokens of characters, or the error in them, are at points that lie ahead. -/
theorem run_placed {mode : Mode} (hm : mode.Placed L) {cs : List Char} (h : Ahead L here cs) :
    Ends (FaultPlaced L) (fun ts => ∀ t ∈ ts, L t.location) (run mode here cs) := by
  induction mode, here, cs using run.induct with
  | case1 here trim =>
    rw [run]
    exact .ok (List.forall_mem_singleton.mpr h.here)
  | case2 here opened =>
    rw [run]
    exact .error hm
  | case3 mode here c rest ih =>
    rw [run]
    refine (step_placed hm h).bind fun found hfound => ?_
    have ahead := h.drop found.size
    rw [List.drop_cons hfound.size] at ahead
    refine (ih found hfound.mode ahead).bind fun later hlater => ?_
    exact .ok (List.forall_mem_append.mpr ⟨hfound.tokens, hlater⟩)

end Lexer

/-- The tokens of a source, or the error in it, are at points of the source. -/
theorem tokenize_placed (text : String) :
    Ends (Lexer.FaultPlaced (·.IsIn text)) (fun ts => ∀ t ∈ ts, t.location.IsIn text)
      (tokenize text) := by
  have between : Lexer.Mode.Placed (·.IsIn text) (.text false) := trivial
  refine Lexer.run_placed between fun n => ?_
  exact ⟨text.toList.take n, List.take_prefix _ _, Location.counts_advance _⟩

end Stencil
