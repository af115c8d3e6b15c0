import Stencil.Proofs.Template.Readback
import Stencil.Proofs.Template.Segments

/-!
# Paths read back

The text of a path is cut into the tokens that spell it (`Lexer.inside?_pathText`), and an action of
nothing but this text is an output of the path (`Source.parse_pathText`). Names behind dots may be
keywords, functions or the words for truth values: none of them has its meaning there. Digits behind
a dot are an index by themselves, however many dots and digits follow.
-/

set_option autoImplicit false

namespace Stencil

/-- An accessor that can be written: a field has a name, and an index is a word of 64 bits. -/
def Accessor.IsWritten : Accessor → Prop
  | .field name => Lexer.isName name.toList = true
  | .index i => i ≤ Numeral.maxWord

theorem Accessor.IsWritten.spellable {step : Accessor} (h : step.IsWritten) : step.Spellable := by
  cases step with
  | field name => trivial
  | index i => exact h

namespace Lexer

open Stencil.Text

/-! ## Tokens -/

/-- A dot, and the digits right after it. -/
theorem inside?_dotted {digits : List Char} (h : ∀ x ∈ digits, isDigit x = true) {c : Char}
    (hc : isDigit c = false) (cs : List Char) :
    inside? ('.' :: (digits ++ c :: cs)) = (inside? (c :: cs)).map
      ((.dot :: if digits = [] then [] else [.number (String.ofList digits)]) ++ ·) := by
  have run : (digits ++ c :: cs).takeWhile isDigit = digits := takeWhile_run h hc
  have hstep : actionStep .start .start '.' (digits ++ c :: cs) =
      .ok (dotStep .start .start (digits ++ c :: cs)) := by
    rw [actionStep]
  have left : (digits ++ c :: cs).drop (1 + digits.length - 1) = c :: cs := by
    rw [Nat.add_sub_cancel_left, List.drop_left]
  rw [inside?_cons hstep (.action .start .start), dotStep, run]
  dsimp only
  rw [left]
  by_cases hdigits : digits = []
  · rw [if_pos hdigits, if_pos hdigits]
    rfl
  · rw [if_neg hdigits, if_neg hdigits]
    rfl

theorem inside?_dot {c : Char} (hc : isDigit c = false) (cs : List Char) :
    inside? ('.' :: c :: cs) = (inside? (c :: cs)).map (.dot :: ·) :=
  @inside?_dotted [] nofun c hc cs

theorem inside?_dollar (cs : List Char) :
    inside? ('$' :: cs) = (inside? cs).map (.dollar :: ·) := by
  have hstep : actionStep .start .start '$' cs =
      .ok ⟨[⟨.dollar, .start⟩], .action .start, 1⟩ := by
    rw [actionStep]
  exact inside?_cons hstep (.action .start .start)

/-- An accessor behind its dot, in front of what cannot belong to it. -/
theorem inside?_accessor {step : Accessor} (h : step.IsWritten) {c : Char}
    (hc : isNamePart c = false) (cs : List Char) :
    inside? ('.' :: (step.text.toList ++ c :: cs)) =
      (inside? (c :: cs)).map ([.dot, step.kind] ++ ·) := by
  cases step with
  | field name =>
    have word := inside?_name h hc cs
    obtain ⟨first, rest, hname⟩ := List.exists_cons_of_ne_nil (l := name.toList) <| by
      rintro hnil
      rw [Accessor.IsWritten, hnil] at h
      cases h
    rw [Accessor.IsWritten, hname] at h
    have start : isNameStart first = true := (Bool.and_eq_true_iff.mp h).1
    rw [Accessor.text, hname, List.cons_append, inside?_dot (isDigit_of_isNameStart start),
      ← List.cons_append, ← hname, word, Option.map_map]
    rfl
  | index i =>
    have digits : ∀ x ∈ Numeral.decimal i, isDigit x = true :=
      fun x => Numeral.isDigit_of_mem_decimal
    rw [Accessor.text, Numeral.text, String.toList_ofList,
      inside?_dotted digits (isDigit_of_not_isNamePart hc), if_neg (Numeral.decimal_ne_nil i)]
    rfl

/-- Accessors, each behind its dot. -/
theorem inside?_accessors {steps : List Accessor} (h : ∀ step ∈ steps, step.IsWritten) {c : Char}
    (hc : isNamePart c = false) (cs : List Char) :
    inside? ((steps.flatMap fun step => '.' :: step.text.toList) ++ c :: cs) =
      (inside? (c :: cs)).map (Accessor.kinds steps ++ ·) := by
  induction steps with
  | nil => exact (Option.map_id_apply ..).symm
  | cons step steps ih =>
    obtain ⟨hstep, hsteps⟩ := List.forall_mem_cons.mp h
    -- what stands behind an accessor is the next dot, or what stands behind all of them
    obtain ⟨d, ds, hbehind, hd⟩ : ∃ d ds, (steps.flatMap fun step => '.' :: step.text.toList) ++
        c :: cs = d :: ds ∧ isNamePart d = false := by
      cases steps with
      | nil => exact ⟨c, cs, rfl, hc⟩
      | cons next others => exact ⟨'.', _, rfl, rfl⟩
    have later := ih hsteps
    rw [hbehind] at later
    rw [List.flatMap_cons, List.cons_append, List.cons_append, List.append_assoc, hbehind,
      inside?_accessor hstep hd, later, Option.map_map]
    refine congrArg (Option.map · _) (funext fun ks => ?_)
    simp [Accessor.kinds]

/-- The text of a path is cut into the tokens that spell the path. -/
theorem inside?_pathText {p : Path} (h : ∀ step ∈ p.accessors, step.IsWritten) (cs : List Char) :
    inside? (p.text.toList ++ '\x7d' :: cs) =
      (inside? ('\x7d' :: cs)).map (p.kinds ++ ·) := by
  obtain ⟨root, steps, here⟩ := p
  have join : (String.join (steps.map fun step => "." ++ step.text)).toList =
      steps.flatMap fun step => '.' :: step.text.toList := by
    rw [String.toList_join, List.flatMap_map]
    exact congrArg (List.flatMap · _) (funext fun step => String.toList_append)
  have later := inside?_accessors h (c := '\x7d') rfl cs
  dsimp only at later
  cases root with
  | dot =>
    cases steps with
    | nil =>
      have dot : (Path.text ⟨.dot, [], here⟩).toList = ['.'] := by simp [Path.text]
      rw [dot]
      exact inside?_dot rfl cs
    | cons step steps =>
      rw [Path.text, Path.kinds]
      dsimp only
      rw [join, later]
  | dollar =>
    have dollar (s : String) : ("$" ++ s).toList = '$' :: s.toList := String.toList_append
    rw [Path.text, Path.kinds]
    dsimp only
    rw [dollar, join, List.cons_append, inside?_dollar, later, Option.map_map]
    rfl

end Lexer

theorem Path.exists_text (p : Path) :
    ∃ c rest, p.text.toList = c :: rest ∧ c ≠ '-' ∧ c ≠ '/' := by
  obtain ⟨root, steps, here⟩ := p
  cases root with
  | dot =>
    cases steps with
    | nil => exact ⟨'.', [], by simp [Path.text], by decide, by decide⟩
    | cons step steps =>
      refine ⟨'.', step.text.toList ++
        (String.join (steps.map fun step => "." ++ step.text)).toList, ?_, by decide, by decide⟩
      simp [Path.text, String.join_cons]
  | dollar =>
    refine ⟨'$', (String.join (steps.map fun step => "." ++ step.text)).toList, ?_, by decide,
      by decide⟩
    simp [Path.text]

/-- An action of nothing but the text of a path. -/
theorem tokenize_pathText {p : Path} (h : ∀ step ∈ p.accessors, step.IsWritten) :
    Lexer.kindsOf? (tokenize ("\x7b\x7b" ++ p.text ++ "\x7d\x7d")) =
      some (.actionOpen :: (p.kinds ++ [.actionClose, .eof])) := by
  obtain ⟨c, rest, hc, hminus, hslash⟩ := p.exists_text
  have chars : ("\x7b\x7b" ++ p.text ++ "\x7d\x7d").toList =
      '\x7b' :: '\x7b' :: c :: (rest ++ ['\x7d', '\x7d']) := by
    simp [hc]
  have read := Lexer.inside?_pathText h ['\x7d']
  rw [hc, Lexer.inside?_close, Lexer.outside?, Lexer.run] at read
  rw [Lexer.kindsOf?_tokenize, chars, Lexer.outside?_action hminus hslash, ← List.cons_append,
    read]
  rfl

/-! ## Parsing -/

/-- Without its location a path is the same as at another one. -/
theorem Command.exists_of_bare {p : Path} {c : Command}
    (h : c.bare = (Command.operand (.path p)).bare) :
    ∃ here, c = .operand (.path { p with location := here }) := by
  cases c with
  | call f args here => cases h
  | operand o =>
    have operand : o.bare = .path p.bare := Command.operand.inj h
    cases o with
    | literal l => cases operand
    | path q =>
      obtain ⟨root, steps, here⟩ := q
      obtain ⟨root', steps', here'⟩ := p
      cases operand
      exact ⟨here, rfl⟩

/-- The output of a path by itself. -/
def Path.output (p : Path) : Action := .output ⟨[.operand (.path p)], p.location⟩

theorem Path.output_spellable {p : Path} (h : ∀ step ∈ p.accessors, step.IsWritten) :
    p.output.Spellable := by
  refine List.forall_mem_singleton.mpr ⟨⟨.operand (.path p), [], rfl, rfl, nofun⟩, ?_⟩
  refine List.forall_mem_singleton.mpr (List.forall_mem_singleton.mpr fun step hstep => ?_)
  exact (h step hstep).spellable

theorem Path.exists_of_output_alike {p : Path} {a : Action} (h : p.output.Alike a) :
    ∃ here there, a = .output ⟨[.operand (.path { p with location := here })], there⟩ := by
  cases h with
  | @output _ q hq =>
    obtain ⟨commands, there⟩ := q
    have same : [(Command.operand (.path p)).bare] = commands.map Command.bare :=
      (Pipeline.mk.inj hq).1
    obtain ⟨c, rfl, hc⟩ := List.map_eq_singleton_iff.mp same.symm
    obtain ⟨here, rfl⟩ := Command.exists_of_bare hc
    exact ⟨here, there, rfl⟩

/-- **A displayed path parses back to itself.** An action of nothing but the text of a path, whose
fields have names and whose indices are words of 64 bits, is parsed to a single output of the path,
wherever that stands. -/
theorem Source.parse_pathText (name : String) {p : Path}
    (h : ∀ step ∈ p.accessors, step.IsWritten) : ∃ here there start,
      Source.parse name ("\x7b\x7b" ++ p.text ++ "\x7d\x7d") = .ok ⟨⟨name, [.leaf (.output
        ⟨[.operand (.path ⟨p.root, p.accessors, here⟩)], there⟩ start)], .start⟩, []⟩ := by
  obtain ⟨ts, hts, kinds⟩ := Lexer.exists_of_kindsOf? (tokenize_pathText h)
  have item : ts.map (·.kind) = p.output.item ++ [.eof] := by
    rw [kinds]
    simp [Path.output, Action.item, Action.kinds, Pipeline.kinds, Command.kinds, Command.kindsOf,
      Operand.kinds]
  obtain ⟨front, last, rfl, hfront, hlast⟩ := List.map_eq_append_iff.mp item
  obtain ⟨⟨_, ending⟩, rfl, rfl⟩ := List.map_eq_singleton_iff.mp hlast
  obtain ⟨a, start, halike, hrun⟩ := Parser.run_action name .initial p.output
    (Path.output_spellable h) hfront (.inl rfl) [⟨.eof, ending⟩]
  obtain ⟨here, there, rfl⟩ := Path.exists_of_output_alike halike
  refine ⟨here, there, start, ?_⟩
  rw [Source.parse, hts]
  change Parser.run name .initial _ = _
  rw [hrun]
  change Parser.run name _ [⟨.eof, ending⟩] = _
  rw [Parser.run]
  rfl

/-- A path through words that mean something elsewhere, and the greatest index. -/
theorem Source.parse_pathText_keywords :
    (∀ step ∈ [.field "true", .index 0, .field "if", .index 18446744073709551615, .field "_x1"],
      Accessor.IsWritten step) ∧
    ∃ here there start, Source.parse "main" "\x7b\x7b$.true.0.if.18446744073709551615._x1\x7d\x7d" =
      .ok ⟨⟨"main", [.leaf (.output ⟨[.operand (.path ⟨.dollar,
        [.field "true", .index 0, .field "if", .index 18446744073709551615, .field "_x1"],
          here⟩)], there⟩ start)], .start⟩, []⟩ := by
  have written : ∀ step ∈ [.field "true", .index 0, .field "if", .index 18446744073709551615,
      .field "_x1"], Accessor.IsWritten step := by
    simp only [List.forall_mem_cons, Accessor.IsWritten]
    exact ⟨by decide, by decide, by decide, by decide, by decide, List.forall_mem_nil _⟩
  have text : "\x7b\x7b$.true.0.if.18446744073709551615._x1\x7d\x7d" = "\x7b\x7b" ++
      Path.text ⟨.dollar, [.field "true", .index 0, .field "if", .index 18446744073709551615,
        .field "_x1"], .outside⟩ ++ "\x7d\x7d" := by decide +kernel
  rw [text]
  exact ⟨written, parse_pathText "main" written⟩

end Stencil
