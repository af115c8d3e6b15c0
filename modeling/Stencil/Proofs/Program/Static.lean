import Stencil.Proofs.Markup.Fault
import Stencil.Proofs.Program.Additions
import Stencil.Proofs.Program.Structure
import Stencil.Proofs.Program.Verbatim
import Stencil.Proofs.Template.Comments

/-!
# Sources without actions

A source of texts and comments (`Static`) compiles under all settings, and renders to its texts
whatever the data (`Static.compiles`). The texts need not be a document: a tag may be unfinished,
a script broken off in a string.

Two things could stand against it. The cutting into tokens leaves a text for each piece between
comments, and each is read by the scanner of markup by itself, from where the one before it ended.
And the scanner has a fault: a slash of unknown meaning. But the meaning of a slash is lost only
where branches join (`Context.advance_of_known`), and there are none here.
-/

set_option autoImplicit false

namespace Stencil

/-- A source of texts with comments between them, and the texts in one. -/
inductive Static : String → String → Prop where
  | text {t : String} : ¬ ['\x7b', '\x7b'] <:+: t.toList → Static t t
  | comment {t k source rest : String} : ¬ ['\x7b', '\x7b'] <:+: t.toList →
      t.toList.getLast? ≠ some '\x7b' → ¬ ['*', '/'] <:+: k.toList → Static source rest →
      Static (withComment t k source) (t ++ rest)

/-! ## Tokens and trees -/

/-- The token of a text at a location. -/
def textToken (t : String × Location) : Token := ⟨.text t.1, t.2⟩

/-- The leaf of a text at a location. -/
def textLeaf (t : String × Location) : Tree Piece := .leaf (.text t.1 t.2)

namespace Lexer

open Stencil.Text

theorem exists_textTokens (cs : List Char) (here : Location) :
    ∃ texts : List (String × Location),
    textTokens cs here = texts.map textToken ∧
      String.join (texts.map Prod.fst) = String.ofList cs := by
  unfold textTokens
  split
  · next hnil => exact ⟨[], rfl, by rw [hnil]; rfl⟩
  · exact ⟨[(String.ofList cs, here)], rfl, by simp⟩

/-- A static source is cut into its texts. -/
theorem run_static {source text : String} (h : Static source text) (here : Location) :
    ∃ (texts : List (String × Location)) (stop : Location),
      Lexer.run (.text false) here source.toList =
          .ok (texts.map textToken ++ [⟨.eof, stop⟩]) ∧
        String.join (texts.map Prod.fst) = text := by
  induction h generalizing here with
  | @text t ht =>
    obtain ⟨texts, htokens, hjoin⟩ := exists_textTokens t.toList here
    rw [run_text, textStep_of_cut_none (cut_eq_none ht)]
    dsimp only [bind, Except.bind]
    rw [List.drop_length, Lexer.run, htokens]
    exact ⟨texts, _, rfl, by rw [hjoin, String.ofList_toList]⟩
  | @comment t k source rest ht hend hk _ ih =>
    obtain ⟨texts, htokens, hjoin⟩ := exists_textTokens t.toList here
    obtain ⟨spot, hrun⟩ := run_comment (q := source.toList) (cut_eq_none ht) hend (cut_eq_none hk)
      here
    obtain ⟨later, stop, hlater, hrest⟩ := ih spot
    have parts : (withComment t k source).toList = t.toList ++ '\x7b' :: '\x7b' :: '/' :: '*' ::
        (k.toList ++ '*' :: '/' :: '\x7d' :: '\x7d' :: source.toList) := by
      simp [withComment]
    refine ⟨texts ++ later, stop, ?_, ?_⟩
    · rw [parts, hrun, hlater, htokens, List.map_append, List.append_assoc]
      rfl
    · rw [List.map_append, String.join_append, hjoin, hrest, String.ofList_toList]

end Lexer

/-- Texts at the top level are read one by one. -/
theorem Parser.run_texts (main : String) (texts : List (String × Location)) (stop : Location)
    (read : List (Tree Piece)) (defines : List Template) :
    run main ⟨read, [], defines⟩ (texts.map textToken ++ [⟨.eof, stop⟩]) =
      .ok ⟨⟨main, read.reverse ++ texts.map textLeaf, .start⟩, defines⟩ := by
  induction texts generalizing read with
  | nil =>
    rw [List.map_nil, List.nil_append, run]
    simp [State.finish]
  | cons t rest ih =>
    rw [List.map_cons, List.cons_append, run]
    dsimp only [textToken]
    rw [State.push, ih, List.reverse_cons, List.append_assoc]
    rfl

/-- A static source is a template of its texts. -/
theorem Static.parse {source text : String} (h : Static source text) (name : String) :
    ∃ texts : List (String × Location),
      Source.parse name source = .ok ⟨⟨name, texts.map textLeaf, .start⟩, []⟩ ∧
        String.join (texts.map Prod.fst) = text := by
  obtain ⟨texts, stop, htokens, hjoin⟩ := Lexer.run_static h .start
  refine ⟨texts, ?_, hjoin⟩
  unfold Source.parse tokenize
  rw [htokens]
  exact Parser.run_texts name texts stop [] []

/-! ## Programs -/

/-- The instruction of a text at a location. -/
def textInstruction (t : String × Location) : Tree Instruction := .leaf (.text t.1)

namespace Analysis

open Markup (Context)

section

variable {policy : Policy} {P : Context → Prop} (kept : ∀ c cs, P c → P (policy.advance c cs))
  (clear : ∀ c, P c → c.error = none)

include kept clear

/-- Texts compile where no text has a fault. -/
theorem trees_texts (enter : Enter) (texts : List (String × Location)) {c : Context} (hc : P c)
    (t : Table) : ∃ next, (trees policy enter c (texts.map textLeaf)).run t =
      .ok ((texts.map textInstruction, next), t) := by
  induction texts generalizing c with
  | nil => exact ⟨c, by rw [List.map_nil, trees]; rfl⟩
  | cons text rest ih =>
    have hnext := kept c text.1.toList hc
    obtain ⟨next, hrest⟩ := ih hnext
    refine ⟨next, ?_⟩
    have first : (tree policy enter c (textLeaf text)).run t =
        .ok ((textInstruction text, policy.advance c text.1.toList), t) := by
      unfold textLeaf
      rw [tree, piece]
      dsimp only
      rw [clear _ hnext]
      rfl
    rw [List.map_cons, trees, run_bind_of_ok first, run_bind_of_ok hrest]
    rfl

/-- A template of texts is the only entry that it needs. -/
theorem enter_texts {templates : List (String × Template)} {name : String} {template : Template}
    (hget : Record.get? templates name = some template) {texts : List (String × Location)}
    (hbody : template.body = texts.map textLeaf) {c : Context} (hc : P c) (room : Nat)
    (here : Location) : ∃ next, (enter policy templates (room + 1) name c here).run [] =
      .ok ((0, next), [⟨name, c, some next, false, texts.map textInstruction⟩]) := by
  obtain ⟨next, hrun⟩ := trees_texts kept clear (enter policy templates room) texts hc
    [⟨name, c, none, false, []⟩]
  have started : (get : Step Table).run [] = .ok ([], []) := rfl
  have entered : (set (([] : Table) ++ [⟨name, c, none, false, []⟩]) : Step PUnit).run [] =
      .ok (⟨⟩, [⟨name, c, none, false, []⟩]) := rfl
  refine ⟨next, ?_⟩
  rw [enter, run_bind_of_ok started]
  dsimp only [Table.find?, List.findIdx?_nil]
  rw [hget]
  dsimp only
  rw [if_neg (by simp [contextLimit, Table.count]), hbody]
  rw [run_bind_of_ok entered, run_bind_of_ok hrun]
  rfl

end

end Analysis

/-- Texts are written one after the other. -/
theorem Render.trees_texts (embed : Embed) (s : Scope) (texts : List (String × Location)) :
    trees embed s (texts.map textInstruction) =
      ⟨texts.map fun t => .text t.1, .ok ()⟩ := by
  induction texts with
  | nil => rw [List.map_nil, trees]; rfl
  | cons t rest ih =>
    rw [List.map_cons, trees, ih, textInstruction, tree, instruction, Run.bind_of_ok rfl]
    rfl

/-- Under any settings, the meaning of a slash stays known along a text, and no text has a fault. -/
theorem Config.policy_known (config : Config) (c : Markup.Context) (cs : List Char)
    (h : c.slash ≠ .unknown ∧ c.error = none) :
    (config.policy.advance c cs).slash ≠ .unknown ∧ (config.policy.advance c cs).error = none := by
  unfold policy
  split
  · exact Markup.Context.advance_of_known h.1 h.2 cs
  · exact h

/-- A source of texts and comments compiles under all settings, and whatever the data it renders to
its texts. -/
theorem Static.compiles {source text : String} (h : Static source text) (name : String)
    (config : Config) :
    ∃ p, compile name source config = .ok p ∧ ∀ root, p.render root = .ok text := by
  obtain ⟨texts, hparse, hjoin⟩ := h.parse name
  let template : Template := ⟨name, texts.map textLeaf, .start⟩
  let set := (TemplateSet.empty config).insert template
  have hadd : (TemplateSet.empty config).add name source = .ok set :=
    TemplateSet.add_eq_ok.mpr ⟨_, hparse, fun _ _ => rfl, rfl⟩
  have hget : set.get? name = some template := by
    rw [TemplateSet.get?_insert, if_pos rfl]
  obtain ⟨next, henter⟩ := Analysis.enter_texts config.policy_known (fun c h => h.2) hget rfl
    (c := .start) ⟨nofun, rfl⟩ (Analysis.contextLimit * set.templates.length) .outside
  let p : Program := ⟨name, [⟨name, config.policy.place .start, texts.map textInstruction⟩], 0,
    config⟩
  have unchecked : Program.unchecked set.templates name config = .ok p := by
    unfold Program.unchecked
    rw [Analysis.room, henter]
    rfl
  have built : set.Reachable := .add (.empty config) hadd
  have hcompile : set.compile name = .ok p :=
    built.wellFormed.compile_eq_ok.mpr ⟨by rw [TemplateSet.contains, hget]; rfl, unchecked⟩
  refine ⟨p, ?_, fun root => ?_⟩
  · unfold compile
    rw [hadd]
    exact hcompile
  · have hrun : p.run root = ⟨texts.map fun t => .text t.1, .ok ()⟩ :=
      Render.trees_texts _ _ texts
    rw [Program.render, hrun, ← hjoin, Run.written, List.map_map]
    rfl

/-- A page that breaks off in a regular expression, with a comment in the middle of a value. -/
theorem Static.compiles_brokenOff :
    let source := withComment "<a title='1" " note " "' onclick=\"f(/[\x7b"
    let text := "<a title='1" ++ "' onclick=\"f(/[\x7b"
    Static source text ∧
      ∃ p, compile "page" source .standard = .ok p ∧ ∀ root, p.render root = .ok text := by
  intro source text
  have static : Static source text :=
    .comment (by decide +kernel) (by decide +kernel) (by decide +kernel) (.text (by decide +kernel))
  exact ⟨static, static.compiles "page" .standard⟩

end Stencil
