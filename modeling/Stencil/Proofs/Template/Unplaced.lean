import Stencil.Proofs.Template.Brackets
import Stencil.Proofs.Template.Spelling
import Stencil.Template.Listing

/-!
# Templates without locations

What a source is parsed to, up to locations, is the listings of its templates with all locations
taken out (`Source.listed`): names, rows with the numbers they refer to, and the numbers of each
template's own trees. It is the same for all tokens of the same kinds (`Source.ofTokens_ofKinds`).

Trees that are alike may still differ in a text that is one piece on the one side and two on the
other. The side in two pieces has more rows then, so trees that are alike in both directions have
the same rows (`Tree.Alike.rows_bare`).
-/

set_option autoImplicit false

namespace Stencil

open Tokens (ofKinds)

/-! ## Listings -/

/-- A piece without locations. -/
def Piece.bare : Piece → Piece
  | .text content _ => .text content .outside
  | .output p _ => .output p.bare .outside
  | .embed name data _ => .embed name (data.map Pipeline.bare) .outside

/-- A row without locations. -/
def Row.bare : Row Piece → Row Piece
  | .leaf x => .leaf x.bare
  | .block kind subject body alternative _ => .block kind subject.bare body alternative .outside

/-- A listing without locations. -/
def Listing.bare (l : Listing Piece) : Listing Piece := ⟨l.rows.map Row.bare, l.root⟩

/-- The name of a template and its listing, without locations. -/
def Template.listed (t : Template) : String × Listing Piece :=
  (t.name, (Listing.ofTrees t.body).bare)

/-- The templates of a source, the main one first. -/
def Source.listed (s : Source) : List (String × Listing Piece) :=
  (s.main :: s.defines).map Template.listed

/-! ## Trees -/

theorem Piece.Alike.bare {x y : Piece} (h : x.Alike y) : x.bare = y.bare := by
  cases h with
  | text content here here' => rfl
  | output here here' hp => rw [Piece.bare, Piece.bare, hp]
  | embed name here here' hd => rw [Piece.bare, Piece.bare, hd]

/-- The number of rows of what stands in place of a body. -/
def Tree.sizeElse (other : Option (List (Tree Piece))) : Nat := other.elim 0 sizes

/-- The rows of what stands in place of a body. -/
def Tree.rowsElse (first : Nat) (other : Option (List (Tree Piece))) : List (Row Piece) :=
  other.elim [] (rowsOf first)

namespace Tree

theorem size_block (kind : BlockKind) (subject : Pipeline) (body : List (Tree Piece))
    (other : Option (List (Tree Piece))) (here : Location) :
    size (.block kind subject body other here) = sizes body + sizeElse other + 1 := by
  cases other with
  | none => rfl
  | some other => rfl

theorem rows_block (first : Nat) (kind : BlockKind) (subject : Pipeline) (body : List (Tree Piece))
    (other : Option (List (Tree Piece))) (here : Location) :
    rows first (.block kind subject body other here) =
      rowsOf first body ++ rowsElse (first + sizes body) other ++
        [.block kind subject (ids first body) (other.map (ids (first + sizes body))) here] := by
  cases other with
  | none => simp [rows, rowsElse]
  | some other => rfl

variable {a b : String}

mutual

/-- A tree that is alike another one has no more rows, and the same rows if it has no fewer. -/
theorem Alike.rows_bare {t t' : Tree Piece} : Tree.Alike Piece.Alike (Piece.Cut a b) t t' →
    size t ≤ size t' ∧ (size t' ≤ size t →
      ∀ first, (rows first t).map Row.bare = (rows first t').map Row.bare)
  | .leaf hx => ⟨Nat.le_refl 1, fun _ first => congrArg (fun x => [Row.leaf x]) hx.bare⟩
  | .block here here' hs hbody helse => by
    obtain ⟨hsize, hrows⟩ := hbody.rows_bare
    obtain ⟨hsize', hrows'⟩ := helse.rows_bare
    rw [size_block, size_block]
    refine ⟨by omega, fun hle first => ?_⟩
    have same := Nat.le_antisymm hsize (by omega)
    obtain ⟨inside, numbers⟩ := hrows (by omega) first
    have beside := hrows' (by omega)
    rw [rows_block, rows_block, ← same]
    simp only [List.map_append, List.map_cons, List.map_nil, Row.bare, inside, (beside _).1,
      numbers, (beside _).2, hs]

theorem AlikeAll.rows_bare {ts ts' : List (Tree Piece)} : Pieces.Alike a b ts ts' →
    sizes ts ≤ sizes ts' ∧ (sizes ts' ≤ sizes ts → ∀ first,
      (rowsOf first ts).map Row.bare = (rowsOf first ts').map Row.bare ∧
        ids first ts = ids first ts')
  | .nil => ⟨Nat.le_refl 0, fun _ _ => ⟨rfl, rfl⟩⟩
  | .cons ht hrest => by
    obtain ⟨hsize, hrows⟩ := ht.rows_bare
    obtain ⟨hsize', hrows'⟩ := hrest.rows_bare
    simp only [sizes]
    refine ⟨by omega, fun hle first => ?_⟩
    have same := Nat.le_antisymm hsize (by omega)
    have behind := hrows' (by omega)
    simp only [rowsOf, ids, List.map_append, hrows (by omega) first, (behind _).1, (behind _).2,
      same, and_self]
  | .cut hcut hrest => by
    obtain ⟨hsize, -⟩ := hrest.rows_bare
    simp only [sizes, size]
    exact ⟨by omega, fun hle => absurd hle (by omega)⟩

theorem AlikeElse.rows_bare {other other' : Option (List (Tree Piece))} :
    Tree.AlikeElse Piece.Alike (Piece.Cut a b) other other' →
      sizeElse other ≤ sizeElse other' ∧ (sizeElse other' ≤ sizeElse other → ∀ first,
        (rowsElse first other).map Row.bare = (rowsElse first other').map Row.bare ∧
          other.map (ids first) = other'.map (ids first))
  | .none => ⟨Nat.le_refl 0, fun _ _ => ⟨rfl, rfl⟩⟩
  | .some hts => by
    obtain ⟨hsize, hrows⟩ := hts.rows_bare
    refine ⟨hsize, fun hle first => ?_⟩
    obtain ⟨inside, numbers⟩ := hrows hle first
    exact ⟨inside, congrArg some numbers⟩

end

end Tree

/-! ## Sources -/

variable {a b : String}

theorem Template.Alike.listed {t t' : Template} (h : t.Alike a b t') (h' : t'.Alike a b t) :
    t.listed = t'.listed := by
  obtain ⟨rows, root⟩ := h.body.rows_bare.2 h'.body.rows_bare.1 0
  simp only [Template.listed, Listing.bare, Listing.ofTrees, h.name, rows, root]

theorem Source.Alike.listed {s s' : Source} (h : s.Alike a b s') (h' : s'.Alike a b s) :
    s.listed = s'.listed := by
  have defines {ts ts' : List Template} (hts : List.Forall₂ (Template.Alike a b) ts ts')
      (hts' : List.Forall₂ (Template.Alike a b) ts' ts) :
      ts.map Template.listed = ts'.map Template.listed := by
    induction hts with
    | nil => rfl
    | cons ht _ ih =>
      cases hts' with
      | cons ht' hrest' => rw [List.map_cons, List.map_cons, ht.listed ht', ih hrest']
  rw [Source.listed, Source.listed, List.map_cons, List.map_cons, h.main.listed h'.main,
    defines h.defines h'.defines]

theorem Tokens.Inner.ofKinds {ts : List Token} (h : Tokens.Inner ts) :
    Tokens.Inner (Tokens.ofKinds (ts.map (·.kind))) :=
  Tokens.forall_mem_ofKinds.mpr (List.forall_mem_map.mpr h)

/-- Bracketed tokens are the same items as tokens of their kinds at no place. -/
theorem Tokens.Bracketed.items {ts : List Token} (h : Tokens.Bracketed ts) :
    Items a b ts (Tokens.ofKinds (ts.map (·.kind))) ∧
      Items a b (Tokens.ofKinds (ts.map (·.kind))) ts := by
  have alike (us : List Token) : Tokens.Alike (Tokens.ofKinds (us.map (·.kind))) us :=
    Tokens.alike_ofKinds rfl
  induction h with
  | eof here => exact ⟨.eof here .outside, .eof .outside here⟩
  | @text t ts ht _ ih =>
    obtain ⟨kind, here⟩ := t
    obtain ⟨content, rfl, -⟩ := ht
    exact ⟨.text content here .outside ih.1, .text content .outside here ih.2⟩
  | @action inside ts start stop hinside _ ih =>
    have flip : Tokens.Alike inside (Tokens.ofKinds (inside.map (·.kind))) :=
      (alike inside).flip.imp fun _ _ => Eq.symm
    have first := Items.action start .outside stop .outside flip
      (Parser.isInside_of_inner hinside) ih.1
    have second := Items.action .outside start .outside stop (alike inside)
      (Parser.isInside_of_inner (Tokens.Inner.ofKinds hinside)) ih.2
    simpa using ⟨first, second⟩

/-- Tokens of a source are parsed like tokens of their kinds at no place, up to locations. -/
theorem Source.ofTokens_ofKinds {ts : List Token} (h : Tokens.Bracketed ts) (name : String) :
    Agree (fun s s' => s.listed = s'.listed) (Source.ofTokens name ts)
      (Source.ofTokens name (Tokens.ofKinds (ts.map (·.kind)))) := by
  obtain ⟨items, items'⟩ := h.items (a := "") (b := "")
  have agree := Source.ofTokens_agree name items
  have agree' := Source.ofTokens_agree name items'
  generalize Source.ofTokens name ts = x at *
  generalize Source.ofTokens name (Tokens.ofKinds (ts.map (·.kind))) = y at *
  cases x with
  | error e =>
    cases y with
    | error e' => exact .error e e'
    | ok s' => exact agree.elim
  | ok s =>
    cases y with
    | error e' => exact agree.elim
    | ok s' => exact .ok (Source.Alike.listed agree agree')

end Stencil
