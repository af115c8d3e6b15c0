import Stencil.Proofs.Program.Table
import Stencil.Proofs.Template.Seams

/-!
# Compiling templates with a text in two pieces

Where a context reads a text in two pieces as it reads the whole (`Policy.Seamless`), the analysis
does the same with both: it meets the same contexts in the same order, gives each output the same
escapers, and refuses both or neither (`Analysis.enter_agree`). This is asked of the contexts only
in which the text is met, on some way through the trees of its templates (`Analysis.Walk`).
-/

set_option autoImplicit false

namespace Stencil

open Markup (Context)

/-! ## Contexts -/

/-- The context behind a text, if the text has no fault. -/
def Policy.passed? (policy : Policy) (c : Context) (content : String) : Option Context :=
  if (policy.advance c content.toList).error = none then some (policy.advance c content.toList)
  else none

/-- What becomes of a pipeline does not depend on where it stands, up to locations. -/
def Policy.Placeless (policy : Policy) : Prop :=
  ∀ p p' : Pipeline, p.bare = p'.bare → (policy.prepare p).bare = (policy.prepare p').bare

/-- A context reads a text and the one behind it as it reads the two in one. -/
def Policy.Seamless (policy : Policy) (a b : String) (c : Context) : Prop :=
  policy.passed? c (a ++ b) = (policy.passed? c a).bind (policy.passed? · b)

namespace Analysis

/-- From a context in front of some trees one may come to a context in front of others: those
behind, those of a block or those of an embedded template. An embedded template may be taken to end
where it starts, as it is while it is being compiled. -/
inductive Walk (policy : Policy) (templates : List (String × Template)) :
    Context → List (Tree Piece) → Context → List (Tree Piece) → Prop where
  | refl (c : Context) (xs : List (Tree Piece)) : Walk policy templates c xs c xs
  | text {c next d : Context} {content : String} {here : Location} {rest ys : List (Tree Piece)} :
      policy.passed? c content = some next → Walk policy templates next rest d ys →
      Walk policy templates c (.leaf (.text content here) :: rest) d ys
  | output {c d : Context} {rules : List Escaper} {p : Pipeline} {here : Location}
      {rest ys : List (Tree Piece)} : policy.escapers (policy.nudge c) = .ok rules →
      Walk policy templates (policy.afterOutput (policy.nudge c)) rest d ys →
      Walk policy templates c (.leaf (.output p here) :: rest) d ys
  | embed {c d : Context} {name : String} {template : Template} {data : Option Pipeline}
      {here : Location} {rest ys : List (Tree Piece)} :
      Record.get? templates name = some template →
      Walk policy templates c template.body d ys →
      Walk policy templates c (.leaf (.embed name data here) :: rest) d ys
  | behindEmbed {c next d : Context} {name : String} {template : Template} {data : Option Pipeline}
      {here : Location} {rest ys : List (Tree Piece)} :
      Record.get? templates name = some template →
      Walk policy templates c template.body next [] → Walk policy templates next rest d ys →
      Walk policy templates c (.leaf (.embed name data here) :: rest) d ys
  | behindOpen {c d : Context} {name : String} {data : Option Pipeline} {here : Location}
      {rest ys : List (Tree Piece)} : Walk policy templates c rest d ys →
      Walk policy templates c (.leaf (.embed name data here) :: rest) d ys
  | body {c d : Context} {kind : BlockKind} {subject : Pipeline} {body : List (Tree Piece)}
      {alternative : Option (List (Tree Piece))} {here : Location} {rest ys : List (Tree Piece)} :
      Walk policy templates c body d ys →
      Walk policy templates c (.block kind subject body alternative here :: rest) d ys
  | again {c stop start d : Context} {subject : Pipeline} {body : List (Tree Piece)}
      {alternative : Option (List (Tree Piece))} {here : Location} {rest ys : List (Tree Piece)} :
      Walk policy templates c body stop [] → policy.join c stop = some start →
      Walk policy templates start body d ys →
      Walk policy templates c (.block .each subject body alternative here :: rest) d ys
  | other {c d : Context} {kind : BlockKind} {subject : Pipeline}
      {body alternative : List (Tree Piece)} {here : Location} {rest ys : List (Tree Piece)} :
      Walk policy templates c alternative d ys →
      Walk policy templates c (.block kind subject body (some alternative) here :: rest) d ys
  | behindBranch {c stop otherStop next d : Context} {kind : BlockKind} {subject : Pipeline}
      {body : List (Tree Piece)} {alternative : Option (List (Tree Piece))} {here : Location}
      {rest ys : List (Tree Piece)} : kind ≠ .each → Walk policy templates c body stop [] →
      Walk policy templates c (alternative.getD []) otherStop [] →
      policy.join stop otherStop = some next → Walk policy templates next rest d ys →
      Walk policy templates c (.block kind subject body alternative here :: rest) d ys
  | behindLoop {c stop start d : Context} {subject : Pipeline} {body : List (Tree Piece)}
      {here : Location} {rest ys : List (Tree Piece)} : Walk policy templates c body stop [] →
      policy.join c stop = some start → Walk policy templates start rest d ys →
      Walk policy templates c (.block .each subject body none here :: rest) d ys
  | behindLoopElse {c stop start otherStop next d : Context} {subject : Pipeline}
      {body alternative : List (Tree Piece)} {here : Location} {rest ys : List (Tree Piece)} :
      Walk policy templates c body stop [] → policy.join c stop = some start →
      Walk policy templates c alternative otherStop [] →
      policy.join start otherStop = some next → Walk policy templates next rest d ys →
      Walk policy templates c (.block .each subject body (some alternative) here :: rest) d ys

/-- What a policy keeps holds wherever one comes to, if it holds where one comes from. -/
theorem Walk.keeps {policy : Policy} {templates : List (String × Template)} {P : Context → Prop}
    (kept : policy.Preserves P) {c d : Context} {xs ys : List (Tree Piece)}
    (h : Walk policy templates c xs d ys) (hc : P c) : P d := by
  induction h with
  | refl => exact hc
  | text hpassed _ ih =>
    unfold Policy.passed? at hpassed
    split at hpassed
    · next hfault =>
      cases hpassed
      exact ih (kept.text _ _ hc hfault)
    · cases hpassed
  | output hrules _ ih => exact ih (kept.output _ _ hc hrules)
  | embed _ _ ih => exact ih hc
  | behindEmbed _ _ _ ihEmbed ih => exact ih (ihEmbed hc)
  | behindOpen _ ih => exact ih hc
  | body _ ih => exact ih hc
  | again _ hjoin _ ihBody ih => exact ih (kept.join _ _ _ hc (ihBody hc) hjoin)
  | other _ ih => exact ih hc
  | behindBranch _ _ _ hjoin _ ihBody ihOther ih =>
    exact ih (kept.join _ _ _ (ihBody hc) (ihOther hc) hjoin)
  | behindLoop _ hjoin _ ihBody ih => exact ih (kept.join _ _ _ hc (ihBody hc) hjoin)
  | behindLoopElse _ hjoin _ hnext _ ihBody ihOther ih =>
    exact ih (kept.join _ _ _ (kept.join _ _ _ hc (ihBody hc) hjoin) (ihOther hc) hnext)

end Analysis

/-! ## Compiled trees -/

/-- Instructions that are the same up to locations. -/
inductive Instruction.Alike : Instruction → Instruction → Prop where
  | text (content : String) : Alike (.text content) (.text content)
  | output {p p' : Pipeline} (rules : List Escaper) (here here' : Location) : p.bare = p'.bare →
      Alike (.output p rules here) (.output p' rules here')
  | embed (name : String) (target : Nat) {data data' : Option Pipeline} (here here' : Location) :
      data.map Pipeline.bare = data'.map Pipeline.bare →
      Alike (.embed name target data here) (.embed name target data' here')

/-- The text of `a` and `b` together, and the two texts. -/
inductive Instruction.Cut (a b : String) : Instruction → Instruction → Instruction → Prop where
  | text : Cut a b (.text (a ++ b)) (.text a) (.text b)

/-- Compiled trees that differ in locations and in a text that is in two pieces. -/
abbrev Instructions.Alike (a b : String) (us us' : List (Tree Instruction)) : Prop :=
  Tree.AlikeAll Instruction.Alike (Instruction.Cut a b) us us'

namespace Analysis

section

variable (policy : Policy) (templates : List (String × Template)) (a b : String)

/-- Wherever one comes to the text on the way through some trees, it is read as its two pieces. -/
def SeamlessFrom (c : Context) (xs : List (Tree Piece)) : Prop :=
  ∀ d here ys, Walk policy templates c xs d (.leaf (.text (a ++ b) here) :: ys) →
    policy.Seamless a b d

/-- A context behind an embedded template, which may be taken to end where it starts. -/
def Behind (name : String) (c d : Context) : Prop :=
  d = c ∨ ∃ x, Record.get? templates name = some x ∧ Walk policy templates c x.body d []

/-- Entries of the same template and context, with such trees. -/
structure Entry.Alike (e e' : Entry) : Prop where
  name : e.name = e'.name
  context : e.context = e'.context
  after : e.after = e'.after
  recursive : e.recursive = e'.recursive
  body : Instructions.Alike a b e.body e'.body
  behind : ∀ d, e.after = some d → Behind policy templates e.name e.context d

/-- Tables of such entries. -/
abbrev Table.Alike (t t' : Table) : Prop :=
  List.Forall₂ (Entry.Alike policy templates a b) t t'

/-- The templates and contexts of the entries of a table. -/
def Table.keys (t : Table) : List (String × Context) := t.map fun e => (e.name, e.context)

/-- Results that are related, with tables that are alike and have the entries of an earlier one. -/
def Results {α β : Type} (R : α → β → Prop) (t : Table) (r : α × Table) (r' : β × Table) : Prop :=
  R r.1 r'.1 ∧ Table.Alike policy templates a b r.2 r'.2 ∧ t.keys <+: r.2.keys

/-- Steps that fail together from tables that are alike, or give related results and such tables. -/
def Step.Agree {α β : Type} (R : α → β → Prop) (x : Step α) (y : Step β) : Prop :=
  ∀ t t', Table.Alike policy templates a b t t' →
    Stencil.Agree (Results policy templates a b R t) (x.run t) (y.run t')

/-- Two ways to embed a template that agree in the number of its entry and the context behind it. -/
def Enter.Agree (enter enter' : Enter) : Prop :=
  ∀ name c here here',
    (∀ x, Record.get? templates name = some x → SeamlessFrom policy templates a b c x.body) →
    Step.Agree policy templates a b (fun r r' => r = r' ∧ Behind policy templates name c r.2)
      (enter name c here) (enter' name c here')

/-- Two compilations of trees from a context, to trees that are alike and to the same context, to
which one may come. -/
def SameEnd (c : Context) (xs : List (Tree Piece)) (r r' : List (Tree Instruction) × Context) :
    Prop :=
  Instructions.Alike a b r.1 r'.1 ∧ r.2 = r'.2 ∧ Walk policy templates c xs r.2 []

/-- Two compilations of a tree from a context, to trees that are alike and to the same context, from
which one may go on behind the tree. -/
def SameTree (c : Context) (x : Tree Piece) (r r' : Tree Instruction × Context) : Prop :=
  Tree.Alike Instruction.Alike (Instruction.Cut a b) r.1 r'.1 ∧ r.2 = r'.2 ∧
    ∀ d rest ys, Walk policy templates r.2 rest d ys → Walk policy templates c (x :: rest) d ys

/-- Trees that are compiled in step wherever they start. -/
def Trees.Agree (enter enter' : Enter) (xs xs' : List (Tree Piece)) : Prop :=
  ∀ c, SeamlessFrom policy templates a b c xs →
    Step.Agree policy templates a b (SameEnd policy templates a b c xs) (trees policy enter c xs)
      (trees policy enter' c xs')

end

variable {policy : Policy} {templates : List (String × Template)} {a b : String}

/-- Where one may come to is asked of no more than where one may come from. -/
theorem SeamlessFrom.of_walk {c d : Context} {xs ys : List (Tree Piece)}
    (h : SeamlessFrom policy templates a b c xs)
    (walk : ∀ e zs, Walk policy templates d ys e zs → Walk policy templates c xs e zs) :
    SeamlessFrom policy templates a b d ys :=
  fun e here zs hwalk => h e here zs (walk e _ hwalk)

namespace Step.Agree

variable {α β α' β' : Type} {R : α → β → Prop} {S : α' → β' → Prop}

protected theorem pure {x : α} {y : β} (h : R x y) :
    Step.Agree policy templates a b R (pure x) (pure y) :=
  fun _ _ ht => .ok ⟨h, ht, List.prefix_rfl⟩

protected theorem bind {x : Step α} {y : Step β} {f : α → Step α'} {g : β → Step β'}
    (h : Step.Agree policy templates a b R x y)
    (hfg : ∀ r r', R r r' → Step.Agree policy templates a b S (f r) (g r')) :
    Step.Agree policy templates a b S (x >>= f) (y >>= g) := by
  intro t t' ht
  rw [StateT.run_bind, StateT.run_bind]
  refine (h t t' ht).bind fun r r' hr => ?_
  obtain ⟨hR, ht₁, hkeys⟩ := hr
  exact (hfg _ _ hR _ _ ht₁).mono fun _ _ hs => ⟨hs.1, hs.2.1, hkeys.trans hs.2.2⟩

theorem fail (e e' : Error) : Step.Agree policy templates a b R (fail e) (fail e') :=
  fun _ _ _ => .error e e'

theorem ambiguous (x x' : Ambiguity) (here here' : Location) :
    Step.Agree policy templates a b R (ambiguous x here) (ambiguous x' here') :=
  fail _ _

theorem join (c d : Context) (x x' : Ambiguity) (here here' : Location) :
    Step.Agree policy templates a b (fun e e' => e = e' ∧ policy.join c d = some e)
      (join policy c d x here) (Analysis.join policy c d x' here') := by
  unfold Analysis.join
  split
  · next e he => exact .pure ⟨rfl, he⟩
  · exact ambiguous _ _ _ _

end Step.Agree

/-! ## Trees -/

section

variable {enter enter' : Enter}

theorem piece_of_passed {c next : Context} {content : String}
    (h : policy.passed? c content = some next) (here : Location) :
    piece policy enter c (.text content here) = pure (.text content, next) := by
  unfold Policy.passed? at h
  unfold piece
  split at h
  · next hfault =>
    cases h
    dsimp only
    rw [hfault]
  · cases h

theorem exists_piece_eq_fail (enter : Enter) {c : Context} {content : String}
    (h : policy.passed? c content = none) (here : Location) :
    ∃ e, piece policy enter c (.text content here) = fail e := by
  unfold Policy.passed? at h
  unfold piece
  split at h
  · cases h
  · next hfault =>
    obtain ⟨f, hf⟩ := Option.ne_none_iff_exists'.mp hfault
    dsimp only
    rw [hf]
    exact ⟨_, rfl⟩

theorem leaf_agree (embeds : Enter.Agree policy templates a b enter enter')
    (prepared : policy.Placeless) {c : Context} {x x' : Piece}
    {rest : List (Tree Piece)} (seamless : SeamlessFrom policy templates a b c (.leaf x :: rest))
    (h : Piece.Alike x x') :
    Step.Agree policy templates a b (SameTree policy templates a b c (.leaf x))
      (tree policy enter c (.leaf x)) (tree policy enter' c (.leaf x')) := by
  rw [tree, tree]
  cases h with
  | text content here here' =>
    cases hpassed : policy.passed? c content with
    | some next =>
      rw [piece_of_passed hpassed, piece_of_passed hpassed]
      exact .pure ⟨.leaf (.text content), rfl, fun _ _ _ => .text hpassed⟩
    | none =>
      obtain ⟨e, he⟩ := exists_piece_eq_fail enter hpassed here
      obtain ⟨e', he'⟩ := exists_piece_eq_fail enter' hpassed here'
      rw [he, he']
      exact .fail e e'
  | output here here' hp =>
    rw [piece, piece]
    split
    · exact .ambiguous _ _ _ _
    · next rules hrules =>
      exact .pure ⟨.leaf (.output rules here here' (prepared _ _ hp)), rfl,
        fun _ _ _ => .output hrules⟩
  | embed name here here' hdata =>
    rw [piece, piece]
    split
    · exact .ambiguous _ _ _ _
    · have inside (x : Template) (hx : Record.get? templates name = some x) :=
        seamless.of_walk fun _ _ => Walk.embed hx
      rw [bind_assoc, bind_assoc]
      refine (embeds name c here here' inside).bind fun r r' hr => ?_
      obtain ⟨rfl, hbehind⟩ := hr
      refine .pure ⟨.leaf (.embed name r.1 here here' hdata), rfl, fun d rest ys walk => ?_⟩
      rcases hbehind with heq | ⟨x, hx, hend⟩
      · rw [heq] at walk
        exact .behindOpen walk
      · exact .behindEmbed hx hend walk

section Blocks

variable {body body' : List (Tree Piece)}
  (agree : Trees.Agree policy templates a b enter enter' body body')

include agree in
theorem loopBody_agree {c start : Context} (seamless : SeamlessFrom policy templates a b start body)
    {once once' : List (Tree Instruction)} (honce : Instructions.Alike a b once once')
    (here here' : Location) :
    Step.Agree policy templates a b (Instructions.Alike a b)
      (loopBody policy enter c start body once here)
      (loopBody policy enter' c start body' once' here') := by
  unfold loopBody
  split
  · exact .pure honce
  · refine (agree start seamless).bind fun r r' hr => ?_
    obtain ⟨again, stop⟩ := r
    obtain ⟨again', stop'⟩ := r'
    obtain ⟨hagain, heq, -⟩ := hr
    dsimp only at heq ⊢
    subst heq
    split
    · exact .pure hagain
    · exact .ambiguous _ _ _ _

variable {subject subject' : Pipeline} (hs : subject.bare = subject'.bare)
  {alternative alternative' : Option (List (Tree Piece))}
  (helse : Option.Rel (Trees.Agree policy templates a b enter enter') alternative alternative')
  {c : Context} {here here' : Location} {rest : List (Tree Piece)}

include agree hs helse in
theorem loop_agree (seamless : SeamlessFrom policy templates a b c
      (.block .each subject body alternative here :: rest)) :
    Step.Agree policy templates a b
      (SameTree policy templates a b c (.block .each subject body alternative here))
      (tree policy enter c (.block .each subject body alternative here))
      (tree policy enter' c (.block .each subject' body' alternative' here')) := by
  rw [tree_each, tree_each]
  refine (agree c (seamless.of_walk fun _ _ => .body)).bind fun r r' hr => ?_
  obtain ⟨once, stop⟩ := r
  obtain ⟨once', stop'⟩ := r'
  obtain ⟨honce, heq, hstop⟩ := hr
  dsimp only at heq hstop ⊢
  subst heq
  refine (Step.Agree.join c stop _ _ here here').bind fun start start' hr => ?_
  obtain ⟨rfl, hstart⟩ := hr
  refine (loopBody_agree agree (seamless.of_walk fun _ _ => .again hstop hstart) honce here
    here').bind fun compiled compiled' hcompiled => ?_
  unfold loopElse
  cases helse with
  | none =>
    exact .pure ⟨.block here here' hs hcompiled .none, rfl, fun _ _ _ => .behindLoop hstop hstart⟩
  | some hother =>
    refine (hother c (seamless.of_walk fun _ _ => .other)).bind fun r r' hr => ?_
    obtain ⟨other, otherStop⟩ := r
    obtain ⟨other', otherStop'⟩ := r'
    obtain ⟨hothers, heq, hotherStop⟩ := hr
    dsimp only at heq hotherStop ⊢
    subst heq
    refine (Step.Agree.join start otherStop _ _ here here').bind fun next next' hr => ?_
    obtain ⟨rfl, hnext⟩ := hr
    exact .pure ⟨.block here here' hs hcompiled (.some hothers), rfl,
      fun _ _ _ => .behindLoopElse hstop hstart hotherStop hnext⟩

include agree hs helse in
theorem branch_agree {kind : BlockKind} (hk : kind ≠ .each)
    (seamless : SeamlessFrom policy templates a b c
      (.block kind subject body alternative here :: rest)) :
    Step.Agree policy templates a b
      (SameTree policy templates a b c (.block kind subject body alternative here))
      (tree policy enter c (.block kind subject body alternative here))
      (tree policy enter' c (.block kind subject' body' alternative' here')) := by
  rw [tree, tree]
  · refine (agree c (seamless.of_walk fun _ _ => .body)).bind fun r r' hr => ?_
    obtain ⟨compiled, stop⟩ := r
    obtain ⟨compiled', stop'⟩ := r'
    obtain ⟨hcompiled, heq, hstop⟩ := hr
    dsimp only at heq hstop ⊢
    subst heq
    cases helse with
    | none =>
      refine (Step.Agree.join stop c _ _ here here').bind fun next next' hr => ?_
      obtain ⟨rfl, hnext⟩ := hr
      exact .pure ⟨.block here here' hs hcompiled .none, rfl,
        fun _ _ _ => .behindBranch hk hstop (.refl c []) hnext⟩
    | some hother =>
      refine (hother c (seamless.of_walk fun _ _ => .other)).bind fun r r' hr => ?_
      obtain ⟨other, otherStop⟩ := r
      obtain ⟨other', otherStop'⟩ := r'
      obtain ⟨hothers, heq, hotherStop⟩ := hr
      dsimp only at heq hotherStop ⊢
      subst heq
      refine (Step.Agree.join stop otherStop _ _ here here').bind fun next next' hr => ?_
      obtain ⟨rfl, hnext⟩ := hr
      exact .pure ⟨.block here here' hs hcompiled (.some hothers), rfl,
        fun _ _ _ => .behindBranch hk hstop hotherStop hnext⟩
  all_goals exact fun heq => hk heq

include agree hs helse in
theorem block_agree {kind : BlockKind} (seamless : SeamlessFrom policy templates a b c
      (.block kind subject body alternative here :: rest)) :
    Step.Agree policy templates a b
      (SameTree policy templates a b c (.block kind subject body alternative here))
      (tree policy enter c (.block kind subject body alternative here))
      (tree policy enter' c (.block kind subject' body' alternative' here')) := by
  cases kind with
  | each => exact loop_agree agree hs helse seamless
  | cond => exact branch_agree agree hs helse (by nofun) seamless
  | within => exact branch_agree agree hs helse (by nofun) seamless

end Blocks

theorem trees_of_passed {c next : Context} {content : String}
    (h : policy.passed? c content = some next) (here : Location) (rest : List (Tree Piece)) :
    trees policy enter c (.leaf (.text content here) :: rest) =
      trees policy enter next rest >>= fun r => pure (.leaf (.text content) :: r.1, r.2) := by
  rw [trees, tree, piece_of_passed h]
  rfl

theorem exists_trees_eq_fail (enter : Enter) {c : Context} {content : String}
    (h : policy.passed? c content = none) (here : Location) (rest : List (Tree Piece)) :
    ∃ e, trees policy enter c (.leaf (.text content here) :: rest) = fail e := by
  obtain ⟨e, he⟩ := exists_piece_eq_fail enter h here
  rw [trees, tree, he]
  exact ⟨e, rfl⟩

/-- A text in one piece and in two is compiled in step, if the trees behind it are. -/
theorem cut_agree {x y z : Piece} (h : Piece.Cut a b x y z) {rest rest' : List (Tree Piece)}
    (agree : Trees.Agree policy templates a b enter enter' rest rest') :
    Trees.Agree policy templates a b enter enter' (.leaf x :: rest)
      (.leaf y :: .leaf z :: rest') := by
  intro c seamless
  cases h with
  | text here first second =>
    have seam : policy.passed? c (a ++ b) = (policy.passed? c a).bind (policy.passed? · b) :=
      seamless c here rest (.refl _ _)
    cases hwhole : policy.passed? c (a ++ b) with
    | some next =>
      rw [hwhole] at seam
      obtain ⟨between, hfirst, hsecond⟩ := Option.bind_eq_some_iff.mp seam.symm
      rw [trees_of_passed hwhole, trees_of_passed hfirst, trees_of_passed hsecond, bind_assoc]
      refine (agree next (seamless.of_walk fun _ _ => .text hwhole)).bind fun r r' hr => ?_
      obtain ⟨halike, heq, walk⟩ := hr
      exact .pure ⟨.cut .text halike, heq, .text hwhole walk⟩
    | none =>
      rw [hwhole] at seam
      obtain ⟨e, he⟩ := exists_trees_eq_fail enter hwhole here rest
      rw [he]
      cases hfirst : policy.passed? c a with
      | none =>
        obtain ⟨e', he'⟩ :=
          exists_trees_eq_fail enter' hfirst first (.leaf (.text b second) :: rest')
        rw [he']
        exact .fail e e'
      | some between =>
        rw [hfirst] at seam
        obtain ⟨e', he'⟩ := exists_trees_eq_fail enter' seam.symm second rest'
        rw [trees_of_passed hfirst, he']
        exact .fail e e'

/-- A tree in front of others is compiled in step with them. -/
theorem cons_agree {x x' : Tree Piece} {rest rest' : List (Tree Piece)}
    (first : ∀ c, SeamlessFrom policy templates a b c (x :: rest) →
      Step.Agree policy templates a b (SameTree policy templates a b c x) (tree policy enter c x)
        (tree policy enter' c x'))
    (agree : Trees.Agree policy templates a b enter enter' rest rest') :
    Trees.Agree policy templates a b enter enter' (x :: rest) (x' :: rest') := by
  intro c seamless
  rw [trees, trees]
  refine (first c seamless).bind fun r r' hr => ?_
  obtain ⟨compiled, next⟩ := r
  obtain ⟨compiled', next'⟩ := r'
  obtain ⟨hcompiled, heq, walk⟩ := hr
  dsimp only at heq walk ⊢
  subst heq
  refine (agree next (seamless.of_walk fun d ys => walk d rest ys)).bind fun r r' hr => ?_
  obtain ⟨hothers, heq, hend⟩ := hr
  exact .pure ⟨.cons hcompiled hothers, heq, walk _ _ _ hend⟩

mutual

theorem tree_agree (prepared : policy.Placeless)
    (embeds : Enter.Agree policy templates a b enter enter') {x x' : Tree Piece}
    {rest : List (Tree Piece)} {c : Context}
    (seamless : SeamlessFrom policy templates a b c (x :: rest)) :
    Tree.Alike Piece.Alike (Piece.Cut a b) x x' →
      Step.Agree policy templates a b (SameTree policy templates a b c x) (tree policy enter c x)
        (tree policy enter' c x')
  | .leaf hx => leaf_agree embeds prepared seamless hx
  | .block here here' hs hbody helse =>
    block_agree (fun _ h => trees_agree prepared embeds h hbody) hs
      (else_agree prepared embeds helse) seamless

theorem trees_agree (prepared : policy.Placeless)
    (embeds : Enter.Agree policy templates a b enter enter') {xs xs' : List (Tree Piece)}
    {c : Context} (seamless : SeamlessFrom policy templates a b c xs) :
    Pieces.Alike a b xs xs' →
      Step.Agree policy templates a b (SameEnd policy templates a b c xs) (trees policy enter c xs)
        (trees policy enter' c xs')
  | .nil => by
    rw [trees, trees]
    exact .pure ⟨.nil, rfl, .refl c []⟩
  | .cons hx hrest =>
    cons_agree (fun _ h => tree_agree prepared embeds h hx)
      (fun _ h => trees_agree prepared embeds h hrest) c seamless
  | .cut hcut hrest =>
    cut_agree hcut (fun _ h => trees_agree prepared embeds h hrest) c seamless

theorem else_agree (prepared : policy.Placeless)
    (embeds : Enter.Agree policy templates a b enter enter')
    {xs xs' : Option (List (Tree Piece))} :
    Tree.AlikeElse Piece.Alike (Piece.Cut a b) xs xs' →
      Option.Rel (Trees.Agree policy templates a b enter enter') xs xs'
  | .none => .none
  | .some h => .some fun _ hc => trees_agree prepared embeds hc h

end

end

/-! ## Templates -/

/-- Templates under the same names. -/
abbrev Templates.Alike (a b : String) (templates templates' : List (String × Template)) : Prop :=
  List.Forall₂ (fun x x' => x.1 = x'.1 ∧ x.2.Alike a b x'.2) templates templates'

theorem Templates.Alike.get? {templates' : List (String × Template)}
    (h : Templates.Alike a b templates templates') (name : String) :
    Option.Rel (Template.Alike a b) (Record.get? templates name) (Record.get? templates' name) := by
  induction h with
  | nil => exact .none
  | @cons x x' rest rest' hx _ ih =>
    obtain ⟨key, t⟩ := x
    obtain ⟨key', t'⟩ := x'
    obtain ⟨rfl, ht⟩ := hx
    rw [Record.get?_cons, Record.get?_cons]
    split
    · exact .some ht
    · exact ih

theorem Table.keys_modify (t : Table) (n : Nat) (f : Entry → Entry)
    (hf : ∀ e, (f e).name = e.name ∧ (f e).context = e.context) :
    Table.keys (t.modify n f) = t.keys := by
  induction t generalizing n with
  | nil => simp
  | cons e rest ih =>
    cases n with
    | zero =>
      obtain ⟨hname, hcontext⟩ := hf e
      change (f e |>.name, (f e).context) :: Table.keys rest = _
      rw [hname, hcontext]
      rfl
    | succ n => exact congrArg ((e.name, e.context) :: ·) (ih n)

namespace Table.Alike

variable {t t' : Table}

theorem find? (h : Table.Alike policy templates a b t t') (name : String) (c : Context) :
    t.find? name c = t'.find? name c := by
  unfold Table.find?
  induction h with
  | nil => rfl
  | cons he _ ih => rw [List.findIdx?_cons, List.findIdx?_cons, he.name, he.context, ih]

theorem count (h : Table.Alike policy templates a b t t') (name : String) :
    t.count name = t'.count name := by
  unfold Table.count
  induction h with
  | nil => rfl
  | cons he _ ih => rw [List.countP_cons, List.countP_cons, he.name, ih]

theorem modify (h : Table.Alike policy templates a b t t') (n : Nat) {f f' : Entry → Entry}
    (hf : ∀ e e', t[n]? = some e → Entry.Alike policy templates a b e e' →
      Entry.Alike policy templates a b (f e) (f' e')) :
    Table.Alike policy templates a b (t.modify n f) (t'.modify n f') := by
  induction h generalizing n with
  | nil => simp
  | cons he hrest ih =>
    cases n with
    | zero => exact .cons (hf _ _ rfl he) hrest
    | succ n => exact .cons he (ih n hf)

end Table.Alike

/-- An entry that is done with bodies that are alike. -/
theorem Table.Alike.finish {t t' : Table} (h : Table.Alike policy templates a b t t') {n : Nat}
    {name : String} {c next : Context} (key : ∀ e, t[n]? = some e → e.name = name ∧ e.context = c)
    (behind : Behind policy templates name c next) {body body' : List (Tree Instruction)}
    (hbody : Instructions.Alike a b body body') :
    Table.Alike policy templates a b (t.finish n next body) (t'.finish n next body') := by
  refine h.modify n fun e e' he halike =>
    ⟨halike.name, halike.context, rfl, halike.recursive, hbody, fun d hd => ?_⟩
  obtain ⟨hname, hc⟩ := key e he
  cases hd
  rw [← hname, ← hc] at behind
  exact behind

theorem Table.keys_finish (t : Table) (n : Nat) (next : Context) (body : List (Tree Instruction)) :
    (t.finish n next body).keys = t.keys :=
  keys_modify t n _ fun _ => ⟨rfl, rfl⟩

/-- An entry that was started behind a table is still the same one. -/
theorem Table.key_of_started {t s : Table} {e d : Entry} (h : Table.keys (t ++ [e]) <+: s.keys)
    (hd : s[t.length]? = some d) : d.name = e.name ∧ d.context = e.context := by
  obtain ⟨more, hmore⟩ := h
  have same := congrArg (fun keys => keys[t.length]?) hmore
  simp only [Table.keys, List.map_append, List.map_cons, List.map_nil, List.append_assoc,
    List.getElem?_map, hd] at same
  rw [List.getElem?_append_right (by simp), List.length_map, Nat.sub_self] at same
  obtain ⟨hname, hc⟩ := Prod.mk.inj (Option.some.inj same)
  exact ⟨hname.symm, hc.symm⟩

/-- An entry that is met again is met again on both sides. -/
theorem revisit_agree {t t' : Table} (ht : Table.Alike policy templates a b t t') {n : Nat}
    {name : String} {c : Context} (hn : t.find? name c = some n) :
    Stencil.Agree (Results policy templates a b
        (fun r r' => r = r' ∧ Behind policy templates name c r.2) t)
      ((revisit n c).run t) ((revisit n c).run t') := by
  obtain ⟨e, he, hname, hc⟩ := Table.find?_eq_some hn
  have found := rel_getElem? ht n
  rw [he] at found
  generalize hx : t'[n]? = x at found
  cases found with
  | @some _ e' halike =>
    let taken : Step (Nat × Context) := do
      modify (·.modify n fun e => { e with recursive := true })
      pure (n, c)
    have read (t : Table) : (revisit n c).run t =
        ((t[n]?.bind Entry.after).elim taken fun next => pure (n, next)).run t := by
      rw [revisit, StateT.run_bind, StateT.run_get, pure_bind]
      cases t[n]?.bind Entry.after <;> rfl
    rw [read, read, he, hx, Option.bind_some, Option.bind_some, ← halike.after]
    cases hnext : e.after with
    | some next =>
      have behind := halike.behind next hnext
      rw [hname, hc] at behind
      exact .ok ⟨⟨rfl, behind⟩, ht, List.prefix_rfl⟩
    | none =>
      have marked := ht.modify n fun e e' _ (he : Entry.Alike policy templates a b e e') =>
        (⟨he.name, he.context, he.after, rfl, he.body, he.behind⟩ :
          Entry.Alike policy templates a b { e with recursive := true }
            { e' with recursive := true })
      have keys := Table.keys_modify t n (fun e => { e with recursive := true })
        fun _ => ⟨rfl, rfl⟩
      exact .ok ⟨⟨rfl, .inl rfl⟩, marked, [], (List.append_nil _).trans keys.symm⟩

/-- Templates that are alike are compiled in step, where the contexts that one comes to read the
text as its two pieces. -/
theorem enter_agree (prepared : policy.Placeless) {templates' : List (String × Template)}
    (h : Templates.Alike a b templates templates') (room : Nat) :
    Enter.Agree policy templates a b (enter policy templates room)
      (enter policy templates' room) := by
  induction room with
  | zero => exact fun name c here here' _ => .ambiguous _ _ here here'
  | succ room ih =>
    intro name c here here' seamless t t' ht
    rw [enter, enter, StateT.run_bind, StateT.run_bind, StateT.run_get, StateT.run_get, pure_bind,
      pure_bind]
    dsimp only
    rw [← ht.find?, ← ht.count, ← ht.length_eq]
    cases hfind : t.find? name c with
    | some n => exact revisit_agree ht hfind
    | none =>
      have found := h.get? name
      generalize hx : Record.get? templates name = x at found
      generalize Record.get? templates' name = x' at found
      cases found with
      | none => exact .error _ _
      | @some template template' htemplate =>
        dsimp only
        split
        · exact .error _ _
        have fresh : Entry.Alike policy templates a b ⟨name, c, none, false, []⟩
            ⟨name, c, none, false, []⟩ :=
          ⟨rfl, rfl, rfl, rfl, .nil, fun _ hd => (Option.some_ne_none _ hd.symm).elim⟩
        have compiled := trees_agree prepared ih (seamless template hx) htemplate.body _ _
          (List.rel_append ht (.cons fresh .nil))
        refine compiled.bind fun r r' hr => ?_
        obtain ⟨⟨body, next⟩, s⟩ := r
        obtain ⟨⟨body', next'⟩, s'⟩ := r'
        obtain ⟨⟨hbody, heq, hend⟩, hs, hkeys⟩ := hr
        dsimp only at heq hbody hend hs hkeys ⊢
        subst heq
        change Stencil.Agree _
          (StateT.run (if s[t.length]?.any Entry.recursive ∧ next ≠ c then _ else _) s)
          (StateT.run (if s'[t.length]?.any Entry.recursive ∧ next ≠ c then _ else _) s')
        have same : s[t.length]?.any Entry.recursive = s'[t.length]?.any Entry.recursive := by
          have found := rel_getElem? hs t.length
          generalize s[t.length]? = y at found
          generalize s'[t.length]? = y' at found
          cases found with
          | none => rfl
          | some he => exact he.recursive
        rw [← same]
        split
        · exact .error _ _
        · have behind : Behind policy templates name c next := .inr ⟨template, hx, hend⟩
          have within : t.keys <+: s.keys := by
            refine List.IsPrefix.trans ?_ hkeys
            rw [Table.keys, Table.keys, List.map_append]
            exact List.prefix_append _ _
          rw [← Table.keys_finish s t.length next body] at within
          exact .ok ⟨⟨rfl, behind⟩,
            hs.finish (fun _ => Table.key_of_started hkeys) behind hbody, within⟩

end Analysis

end Stencil
