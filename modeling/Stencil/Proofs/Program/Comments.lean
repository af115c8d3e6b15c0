import Stencil.Proofs.Markup.Cut
import Stencil.Proofs.Program.Structure
import Stencil.Proofs.Render.Halves
import Stencil.Proofs.Template.Comments

/-!
# Comments in templates

A comment drops out of a template, but it cuts the text that it stands in into two pieces, and the
scanner of markup reads each by itself. What it carries over from one to the next is a context, so
the comment is transparent unless it stands in the middle of something that the scanner reads in one
step (`Context.uncut`): then the source compiles with the comment exactly when it does without it,
outputs have the same escapers, and every run writes the same and ends in the same way, up to
locations (`TemplateSet.Reachable.compile_withComment`).

Between the bracket that could open a tag and what follows it, say, a comment is not transparent
(`not_transparent_behind_bracket`). Next to an action, at either end of the source and next to
another comment it always is (`TemplateSet.Reachable.compile_withComment_beside`).
-/

set_option autoImplicit false

namespace Stencil

open Markup (Context)

/-! ## Contexts without a fault -/

namespace Markup.Context

theorem error_nudge (c : Context) : c.nudge.error = c.error := by
  unfold nudge
  split
  · rfl
  · rfl
  · rfl

theorem error_afterOutput (c : Context) : c.afterOutput.error = c.error := by
  unfold afterOutput
  split
  · rfl
  · rfl

theorem error_joinDirect {a b c : Context} (ha : a.error = none) (hb : b.error = none)
    (h : a.joinDirect b = some c) : c.error = none := by
  unfold joinDirect at h
  split at h
  · cases h
    exact ha
  split at h
  · cases h
    exact hb
  split at h
  · cases h
    exact ha
  split at h
  · cases h
    exact ha
  split at h
  · cases h
    exact ha
  · cases h

theorem error_join {a b c : Context} (ha : a.error = none) (hb : b.error = none)
    (h : a.join b = some c) : c.error = none := by
  unfold join at h
  split at h
  · next hdirect =>
    cases h
    exact error_joinDirect ha hb hdirect
  · split at h
    · exact error_joinDirect (a.error_nudge.trans ha) (b.error_nudge.trans hb) h
    · cases h

end Markup.Context

/-- No text, output or join gives a context with a fault. -/
theorem Config.policy_preserves (config : Config) :
    config.policy.Preserves fun c => c.error = none := by
  unfold Config.policy
  split
  · exact
      { text := fun _ _ _ h => h
        output := fun c _ hc _ => c.nudge.error_afterOutput.trans (c.error_nudge.trans hc)
        join := fun _ _ _ => Context.error_join }
  · exact Policy.verbatim_preserves _

theorem Config.policy_advance_nil (config : Config) (c : Context) :
    config.policy.advance c [] = c := by
  unfold Config.policy
  split
  · exact Context.advance_nil c
  · rfl

/-- Where one of the two texts is empty, every context without a fault reads them as one. -/
theorem Config.policy_seamless {config : Config} {a b : String} (h : a = "" ∨ b = "") {c : Context}
    (hc : c.error = none) : config.policy.Seamless a b c := by
  have nothing {c : Context} (hc : c.error = none) : config.policy.passed? c "" = some c := by
    unfold Policy.passed?
    rw [String.toList_empty, config.policy_advance_nil, if_pos hc]
  rcases h with rfl | rfl
  · unfold Policy.Seamless
    rw [nothing hc, String.empty_append]
    rfl
  · unfold Policy.Seamless
    rw [String.append_empty]
    cases hpassed : config.policy.passed? c a with
    | none => rfl
    | some next =>
      rw [Option.bind_some, nothing]
      unfold Policy.passed? at hpassed
      split at hpassed
      · next hfault =>
        cases hpassed
        exact hfault
      · cases hpassed

/-- A context reads two texts, one behind the other, as it reads them in one: nothing is cut, and
where the meaning of a slash is unknown, the first text does not end in a fault that is forgotten
behind the second. -/
structure Markup.Context.Uncut (a b : String) (c : Context) : Prop where
  cut : c.uncut b.toList a.toList = true
  fault : c.slash = .unknown →
    (c.advance a.toList).error = none ∨ (c.advance (a ++ b).toList).error ≠ none

theorem Markup.Context.Uncut.seamless {a b : String} {c : Context} (h : c.Uncut a b)
    (hc : c.error = none) : Policy.contextual.Seamless a b c := by
  have joined : c.advance (a ++ b).toList = (c.advance a.toList).advance b.toList := by
    rw [String.toList_append]
    exact Context.advance_append h.cut
  have read (d : Context) (content : String) : Policy.contextual.passed? d content =
      if (d.advance content.toList).error = none then some (d.advance content.toList) else none :=
    rfl
  unfold Policy.Seamless
  rw [read, read]
  by_cases hfault : (c.advance a.toList).error = none
  · rw [if_pos hfault, Option.bind_some, read, joined]
  · have kept : (c.advance (a ++ b).toList).error ≠ none := by
      by_cases hslash : c.slash = .unknown
      · exact (h.fault hslash).resolve_left hfault
      · exact absurd (Context.advance_of_known hslash hc a.toList).2 hfault
    rw [if_neg hfault, if_neg kept, Option.bind_none]

theorem Policy.verbatim_seamless (a b : String) (c : Context) :
    Policy.verbatim.Seamless a b c := by
  unfold Policy.Seamless Policy.passed? Policy.verbatim
  dsimp only
  split
  · next hc => rw [Option.bind_some, if_pos hc]
  · rfl

/-! ## Pipelines without escapers -/

theorem Command.ofEscaped_bare {args args' : List Operand}
    (h : args.map Operand.bare = args'.map Operand.bare) (here here' : Location) :
    (Command.ofEscaped args here).bare = (Command.ofEscaped args' here').bare := by
  have count : args.length = args'.length := by simpa using congrArg List.length h
  match args, args', count with
  | [], [], _ => rfl
  | [o], [o'], _ => exact congrArg Command.operand (List.cons.inj h).1
  | _ :: _ :: _, _ :: _ :: _, _ => exact congrArg (Command.call .print · .outside) h

theorem Command.stripReversed_bare (here here' : Location) {cs cs' : List Command}
    (h : cs.map Command.bare = cs'.map Command.bare) :
    (Command.stripReversed here cs).map Command.bare =
      (Command.stripReversed here' cs').map Command.bare := by
  induction cs generalizing cs' with
  | nil =>
    cases cs' with
    | nil => rfl
    | cons c' rest' => cases h
  | cons c rest ih =>
    cases cs' with
    | nil => cases h
    | cons c' rest' =>
      obtain ⟨hc, hrest⟩ := List.cons.inj h
      cases c with
      | operand o =>
        cases c' with
        | operand o' => exact h
        | call f' args' spot' => cases hc
      | call f args spot =>
        cases c' with
        | operand o' => cases hc
        | call f' args' spot' =>
          obtain ⟨rfl, hargs, -⟩ := Command.call.inj hc
          unfold Command.stripReversed
          split
          · cases rest with
            | nil =>
              cases rest' with
              | nil => exact congrArg (fun c => [c]) (Command.ofEscaped_bare hargs here here')
              | cons d' others' => cases hrest
            | cons d others =>
              cases rest' with
              | nil => cases hrest
              | cons d' others' => exact ih hrest
          · exact h

theorem Policy.contextual_placeless : Policy.contextual.Placeless := by
  intro p p' h
  have commands : p.commands.map Command.bare = p'.commands.map Command.bare :=
    (Pipeline.mk.inj h).1
  have reversed : p.commands.reverse.map Command.bare = p'.commands.reverse.map Command.bare := by
    rw [List.map_reverse, List.map_reverse, commands]
  have stripped := Command.stripReversed_bare p.location p'.location reversed
  change (⟨(Pipeline.withoutEscapers p).commands.map Command.bare, .outside⟩ : Pipeline) =
    ⟨(Pipeline.withoutEscapers p').commands.map Command.bare, .outside⟩
  unfold Pipeline.withoutEscapers
  rw [List.map_reverse, List.map_reverse, stripped]

theorem Config.policy_placeless (config : Config) : config.policy.Placeless := by
  unfold Config.policy
  split
  · exact Policy.contextual_placeless
  · exact fun _ _ h => h

/-! ## Sets -/

mutual

theorem Tree.alike_refl {α : Type} {leaf : α → α → Prop} {cut : α → α → α → Prop}
    (h : ∀ x, leaf x x) : (t : Tree α) → Tree.Alike leaf cut t t
  | .leaf x => .leaf (h x)
  | .block _ _ body none here => .block here here rfl (Tree.alikeAll_refl h body) .none
  | .block _ _ body (some alternative) here =>
    .block here here rfl (Tree.alikeAll_refl h body) (.some (Tree.alikeAll_refl h alternative))

theorem Tree.alikeAll_refl {α : Type} {leaf : α → α → Prop} {cut : α → α → α → Prop}
    (h : ∀ x, leaf x x) : (ts : List (Tree α)) → Tree.AlikeAll leaf cut ts ts
  | [] => .nil
  | t :: rest => .cons (Tree.alike_refl h t) (Tree.alikeAll_refl h rest)

end

theorem Piece.Alike.refl : (x : Piece) → x.Alike x
  | .text content here => .text content here here
  | .output _ here => .output here here rfl
  | .embed name _ here => .embed name here here rfl

theorem Template.Alike.refl (a b : String) (t : Template) : t.Alike a b t :=
  ⟨rfl, Tree.alikeAll_refl Piece.Alike.refl t.body⟩

/-- Sets of the same settings and names, with templates that are alike. -/
structure TemplateSet.Alike (a b : String) (set set' : TemplateSet) : Prop where
  config : set.config = set'.config
  templates : Analysis.Templates.Alike a b set.templates set'.templates

namespace TemplateSet.Alike

variable {a b : String} {set set' : TemplateSet}

theorem refl (set : TemplateSet) : set.Alike a b set :=
  ⟨rfl, List.forall₂_same.mpr fun x _ => ⟨rfl, .refl a b x.2⟩⟩

theorem contains (h : set.Alike a b set') (name : String) :
    set.contains name = set'.contains name := by
  have found := h.templates.get? name
  unfold TemplateSet.contains TemplateSet.get?
  generalize Record.get? set.templates name = x at found
  generalize Record.get? set'.templates name = x' at found
  cases found <;> rfl

theorem insert (h : set.Alike a b set') {t t' : Template} (ht : t.Alike a b t') :
    (set.insert t).Alike a b (set'.insert t') := by
  refine ⟨h.config, ?_⟩
  have templates := h.templates
  unfold TemplateSet.insert
  dsimp only
  generalize set.templates = xs at templates
  generalize set'.templates = xs' at templates
  rw [← ht.name]
  induction templates with
  | nil => exact .cons ⟨rfl, ht⟩ .nil
  | @cons x x' rest rest' hx hrest ih =>
    obtain ⟨key, u⟩ := x
    obtain ⟨key', u'⟩ := x'
    obtain ⟨rfl, hu⟩ := hx
    unfold Record.insert
    split
    · exact .cons ⟨rfl, ht⟩ (.cons ⟨rfl, hu⟩ hrest)
    split
    · exact .cons ⟨rfl, ht⟩ hrest
    · exact .cons ⟨rfl, hu⟩ ih

theorem foldl_insert {ts ts' : List Template} (hts : List.Forall₂ (Template.Alike a b) ts ts')
    (h : set.Alike a b set') :
    (ts.foldl TemplateSet.insert set).Alike a b (ts'.foldl TemplateSet.insert set') := by
  induction hts generalizing set set' with
  | nil => exact h
  | cons ht _ ih => exact ih (h.insert ht)

/-- Sources that are alike are added to sets that are alike, or are refused together. -/
theorem addSource (h : set.Alike a b set') {source source' : Source}
    (hs : source.Alike a b source') :
    Agree (TemplateSet.Alike a b) (set.addSource source) (set'.addSource source') := by
  have added : List.Forall₂ (Template.Alike a b) (source.defines ++ [source.main])
      (source'.defines ++ [source'.main]) :=
    List.rel_append hs.defines (.cons hs.main .nil)
  have known {ts ts' : List Template} (hts : List.Forall₂ (Template.Alike a b) ts ts') :
      Option.Rel (Template.Alike a b) (ts.find? fun t => set.contains t.name)
        (ts'.find? fun t => set'.contains t.name) := by
    induction hts with
    | nil => exact .none
    | cons ht _ ih =>
      rw [List.find?_cons, List.find?_cons, h.contains, ht.name]
      split
      · exact .some ht
      · exact ih
  unfold TemplateSet.addSource
  dsimp only
  have found := known added
  generalize (source.defines ++ [source.main]).find? _ = x at found
  generalize (source'.defines ++ [source'.main]).find? _ = x' at found
  cases found with
  | none => exact .ok (h.foldl_insert added)
  | some _ => exact .error _ _

theorem add (h : set.Alike a b set') {name text text' : String}
    (hparse : Agree (Source.Alike a b) (Source.parse name text) (Source.parse name text')) :
    Agree (TemplateSet.Alike a b) (set.add name text) (set'.add name text') := by
  have sources := hparse.bind fun _ _ => h.addSource
  unfold TemplateSet.add
  generalize Source.parse name text >>= set.addSource = x at sources ⊢
  generalize Source.parse name text' >>= set'.addSource = x' at sources ⊢
  cases x with
  | error e =>
    cases x' with
    | error e' => exact .error _ _
    | ok added' => exact sources.elim
  | ok added =>
    cases x' with
    | error e' => exact sources.elim
    | ok added' => exact .ok sources

end TemplateSet.Alike

/-! ## Programs -/

section

variable {a b : String}

theorem Analysis.Table.Alike.variants {policy policy' : Policy}
    {templates : List (String × Template)} {t t' : Analysis.Table}
    (h : Analysis.Table.Alike policy templates a b t t') :
    List.Forall₂ (Variant.Alike a b) (t.variants policy') (t'.variants policy') := by
  unfold Analysis.Table.variants
  rw [List.forall₂_map_left_iff, List.forall₂_map_right_iff]
  exact h.imp fun e e' he => ⟨he.name, congrArg policy'.place he.context, he.body⟩

/-- Wherever one comes to the text on the way through a template of a set and those that it embeds,
it is read as its two pieces. -/
def TemplateSet.Seamless (set : TemplateSet) (entry a b : String) : Prop :=
  ∀ t, set.get? entry = some t →
    Analysis.SeamlessFrom set.config.policy set.templates a b .start t.body

theorem Program.unchecked_agree {set set' : TemplateSet} (h : set.Alike a b set') {entry : String}
    (seamless : set.Seamless entry a b) :
    Agree (Program.Alike a b) (Program.unchecked set.templates entry set.config)
      (Program.unchecked set'.templates entry set'.config) := by
  have room : Analysis.room set.templates = Analysis.room set'.templates := by
    unfold Analysis.room
    rw [h.templates.length_eq]
  unfold Program.unchecked
  rw [← h.config, ← room]
  refine (Analysis.enter_agree set.config.policy_placeless h.templates _ entry .start .outside
    .outside seamless [] [] .nil).bind fun r r' hr => ?_
  obtain ⟨⟨number, next⟩, t⟩ := r
  obtain ⟨⟨number', next'⟩, t'⟩ := r'
  obtain ⟨⟨heq, -⟩, ht, -⟩ := hr
  cases heq
  exact .ok ⟨rfl, rfl, rfl, ht.variants⟩

theorem TemplateSet.Alike.compile {set set' : TemplateSet} (h : set.Alike a b set')
    (counts : set.WellFormed) (counts' : set'.WellFormed) {entry : String}
    (seamless : set.Seamless entry a b) :
    Agree (Program.Alike a b) (set.compile entry) (set'.compile entry) := by
  rw [counts.compile_unchecked, counts'.compile_unchecked, h.contains]
  split
  · exact Program.unchecked_agree h seamless
  · exact .error _ _

/-- The escapers of an instruction, if it is an output. -/
def Instruction.rules? : Instruction → Option (List Escaper)
  | .output _ rules _ => some rules
  | _ => none

/-- The escapers of the outputs of a program, variant by variant and in order. -/
def Program.rules (p : Program) : List (List (List Escaper)) :=
  p.variants.map fun v => (Tree.leavesOf v.body).filterMap Instruction.rules?

mutual

theorem Tree.Alike.rules {u u' : Tree Instruction} :
    Tree.Alike Instruction.Alike (Instruction.Cut a b) u u' →
      (Tree.leaves u).filterMap Instruction.rules? = (Tree.leaves u').filterMap Instruction.rules?
  | .leaf hi => by
    cases hi <;> rfl
  | .block here here' hs hbody .none => hbody.rules
  | .block here here' hs hbody (.some hother) => by
    rw [Tree.leaves, Tree.leaves, List.filterMap_append, List.filterMap_append, hbody.rules,
      hother.rules]

theorem Tree.AlikeAll.rules {us us' : List (Tree Instruction)} :
    Instructions.Alike a b us us' →
      (Tree.leavesOf us).filterMap Instruction.rules? =
        (Tree.leavesOf us').filterMap Instruction.rules?
  | .nil => rfl
  | .cons hu hrest => by
    rw [Tree.leavesOf, Tree.leavesOf, List.filterMap_append, List.filterMap_append, hu.rules,
      hrest.rules]
  | .cut .text hrest => by
    rw [Tree.leavesOf, Tree.leavesOf, Tree.leavesOf]
    exact hrest.rules

end

theorem Program.Alike.rules {p p' : Program} (h : p.Alike a b p') : p.rules = p'.rules := by
  unfold Program.rules
  have variants := h.variants
  generalize p.variants = vs at variants
  generalize p'.variants = vs' at variants
  induction variants with
  | nil => rfl
  | cons hv _ ih => rw [List.map_cons, List.map_cons, hv.body.rules, ih]

end

/-! ## Comments -/

/-- What a comment leaves of a source is compiled as the source is. -/
theorem TemplateSet.Reachable.agree_withComment {set : TemplateSet} (h : set.Reachable)
    {p k q name entry : String} (comment : CommentInText p k q)
    (seamless : ∀ set', set.add name (p ++ q) = .ok set' →
      set'.Seamless entry (textAtEnd p) (textAtStart q)) :
    Agree (Program.Alike (textAtEnd p) (textAtStart q))
      (set.add name (p ++ q) >>= (·.compile entry))
      (set.add name (withComment p k q) >>= (·.compile entry)) := by
  have added := (TemplateSet.Alike.refl set).add (Source.parse_withComment comment name)
  cases hplain : set.add name (p ++ q) with
  | error e =>
    cases hcommented : set.add name (withComment p k q) with
    | error e' => exact .error _ _
    | ok set' =>
      rw [hplain, hcommented] at added
      exact added.elim
  | ok set' =>
    cases hcommented : set.add name (withComment p k q) with
    | error e' =>
      rw [hplain, hcommented] at added
      exact added.elim
    | ok set'' =>
      rw [hplain, hcommented] at added
      have built : set'.Reachable := .add h hplain
      have built' : set''.Reachable := .add h hcommented
      exact TemplateSet.Alike.compile added built.wellFormed built'.wellFormed
        (seamless set' hplain)

/-- Wherever a text is met, on the way through a template of a set and those that it embeds, a cut
between its two pieces goes through nothing that the scanner of markup reads as one. -/
def TemplateSet.Uncut (set : TemplateSet) (entry a b : String) : Prop :=
  ∀ t, set.get? entry = some t → ∀ c here ys,
    Analysis.Walk set.config.policy set.templates .start t.body c
      (.leaf (.text (a ++ b) here) :: ys) → c.Uncut a b

theorem TemplateSet.Uncut.seamless {set : TemplateSet} {entry a b : String}
    (h : set.config.autoescape = true → a ≠ "" → b ≠ "" → set.Uncut entry a b) :
    set.Seamless entry a b := by
  intro t ht c here ys walk
  have hc : c.error = none := walk.keeps set.config.policy_preserves rfl
  by_cases hempty : a = "" ∨ b = ""
  · exact Config.policy_seamless hempty hc
  · obtain ⟨ha, hb⟩ := not_or.mp hempty
    cases hescape : set.config.autoescape with
    | true =>
      have uncut := h hescape ha hb t ht c here ys walk
      rw [Config.policy, if_pos hescape]
      exact uncut.seamless hc
    | false =>
      rw [Config.policy, if_neg (by simp [hescape])]
      exact Policy.verbatim_seamless a b c

/-- Programs that give their outputs the same escapers and run alike on every value. -/
def Program.SameBehaviour (p p' : Program) : Prop :=
  p.rules = p'.rules ∧ ∀ root, (p.run root).Alike (p'.run root)

/-- A comment that stands in a text is transparent unless, with escaping by context, it goes through
something that the scanner of markup reads as one. -/
theorem TemplateSet.Reachable.compile_withComment {set : TemplateSet} (h : set.Reachable)
    {p k q name entry : String} (comment : CommentInText p k q)
    (uncut : ∀ set', set.add name (p ++ q) = .ok set' → set'.config.autoescape = true →
      textAtEnd p ≠ "" → textAtStart q ≠ "" →
        set'.Uncut entry (textAtEnd p) (textAtStart q)) :
    Agree Program.SameBehaviour (set.add name (p ++ q) >>= (·.compile entry))
      (set.add name (withComment p k q) >>= (·.compile entry)) := by
  refine (h.agree_withComment comment fun set' hadd => ?_).mono fun _ _ halike =>
    ⟨halike.rules, halike.run⟩
  exact TemplateSet.Uncut.seamless (uncut set' hadd)

/-- From a last text one comes to no other. -/
theorem Analysis.Walk.eq_of_last {policy : Policy} {templates : List (String × Template)}
    {c d : Context} {first content : String} {spot here : Location} {ys : List (Tree Piece)}
    (h : Analysis.Walk policy templates c [.leaf (.text first spot)] d
      (.leaf (.text content here) :: ys)) : content = first := by
  cases h with
  | refl => rfl
  | text _ walk => cases walk

/-- Whether a template is a text, an output and another text. -/
def Template.isOutputBetween (first last : String) (t : Template) : Bool :=
  match t.body with
  | [.leaf (.text s _), .leaf (.output _ _), .leaf (.text s' _)] => s == first && s' == last
  | _ => false

theorem TemplateSet.Reachable.compile_withComment_inTagName :
    ∃ r r', ((TemplateSet.empty .standard).add "main"
        ("<scr" ++ "ipt>var a = \x7b\x7b.Name\x7d\x7d</script>") >>= (·.compile "main")) = .ok r ∧
      ((TemplateSet.empty .standard).add "main"
        (withComment "<scr" " element " "ipt>var a = \x7b\x7b.Name\x7d\x7d</script>") >>=
          (·.compile "main")) = .ok r' ∧ r.SameBehaviour r' := by
  have comment : CommentInText "<scr" " element " "ipt>var a = \x7b\x7b.Name\x7d\x7d</script>" :=
    ⟨by decide +kernel, by decide +kernel, by decide +kernel, by decide +kernel⟩
  have shape : ((TemplateSet.empty .standard).add "main"
      ("<scr" ++ "ipt>var a = \x7b\x7b.Name\x7d\x7d</script>")).toOption.all (fun set =>
        (set.get? "main").all (Template.isOutputBetween "<script>var a = " "</script>")) =
          true := by
    decide +kernel
  have hend : textAtEnd "<scr" = "<scr" := by decide +kernel
  have hstart : textAtStart "ipt>var a = \x7b\x7b.Name\x7d\x7d</script>" = "ipt>var a = " := by
    decide +kernel
  refine ((TemplateSet.Reachable.empty .standard).compile_withComment comment
    fun set hadd _ _ _ t ht => ?_).exists_of_isOk (by decide +kernel)
  rw [hadd] at shape
  simp only [Except.toOption, Option.all_some, ht] at shape
  rw [hend, hstart]
  unfold Template.isOutputBetween at shape
  split at shape
  · next s here p here' s' here'' hbody =>
    obtain ⟨hs, hs'⟩ := Bool.and_eq_true_iff.mp shape
    obtain rfl := eq_of_beq hs
    obtain rfl := eq_of_beq hs'
    rw [hbody]
    intro d here ys walk
    -- the text is met at the start only
    cases walk with
    | refl => exact ⟨by decide +kernel, nofun⟩
    | text _ walk =>
      cases walk with
      | output _ walk => exact absurd walk.eq_of_last (by decide)
  · cases shape

/-- The scanner reads a bracket and a blank behind it as text, and a bracket at the end of a piece
as the start of a tag. -/
theorem not_transparent_behind_bracket :
    CommentInText "<" " note " " \x7b\x7b.Name\x7d\x7d" ∧
      (compile "main" ("<" ++ " \x7b\x7b.Name\x7d\x7d") .standard).isOk = true ∧
        (compile "main" (withComment "<" " note " " \x7b\x7b.Name\x7d\x7d") .standard).isOk =
          false :=
  ⟨⟨by decide +kernel, by decide +kernel, by decide +kernel, by decide +kernel⟩,
    by decide +kernel, by decide +kernel⟩

/-- A comment next to an action, to another comment or to an end of the source is transparent. -/
theorem TemplateSet.Reachable.compile_withComment_beside {set : TemplateSet} (h : set.Reachable)
    {p k q name entry : String} (comment : CommentInText p k q)
    (beside : textAtEnd p = "" ∨ textAtStart q = "") :
    Agree Program.SameBehaviour (set.add name (p ++ q) >>= (·.compile entry))
      (set.add name (withComment p k q) >>= (·.compile entry)) := by
  refine (h.agree_withComment comment fun set' _ t _ c here ys walk => ?_).mono
    fun _ _ halike => ⟨halike.rules, halike.run⟩
  exact Config.policy_seamless beside (walk.keeps set'.config.policy_preserves rfl)

end Stencil
