import Stencil.Value.Json
import Stencil.Proofs.Json.Writer

/-!
# The tokens of a JSON text

The JSON text of a value is put together from strings and from runs of characters outside of
strings: punctuation, numbers and three words (`codeParts`). What holds of these and of every text
put together from such texts is a **law of tokens** (`TokenLaw`), and holds of what any writer
writes for a value (`TokenLaw.written`). That no JSON text holds a control is such a law.
-/

set_option autoImplicit false

namespace Stencil.Json

open Stencil.Text

/-- The characters of a JSON text outside of its strings. -/
def codeParts : List Char :=
  ['n', 'u', 'l', 't', 'r', 'f', 'a', 's', '[', ']', '\x7b', '\x7d', ',', ':'] ++
    Numeral.floatParts

theorem integer_subset_codeParts (n : Int) : Numeral.integer n ⊆ codeParts :=
  List.Subset.trans (Numeral.integer_subset n) (by decide)

/-- What holds of the tokens of JSON texts and of texts put together from such. -/
structure TokenLaw (P : List Char → Prop) : Prop where
  code : ∀ cs, cs ⊆ codeParts → P cs
  string : ∀ cs, P (quote cs)
  append : ∀ a b, P a → P b → P (a ++ b)

namespace TokenLaw

variable {P : List Char → Prop}

section

variable (law : TokenLaw P)

include law

/-- A text with a character outside of strings before it. -/
theorem cons {x : Char} (hx : x ∈ codeParts) {cs : List Char} (h : P cs) : P (x :: cs) :=
  law.append [x] cs (law.code [x] (List.cons_subset.mpr ⟨hx, List.nil_subset _⟩)) h

/-- A text between brackets. -/
theorem between {opening close : Char} (ho : opening ∈ codeParts) (hc : close ∈ codeParts)
    {cs : List Char} (h : P cs) : P (opening :: cs ++ [close]) :=
  law.append _ [close] (law.cons ho h)
    (law.code [close] (List.cons_subset.mpr ⟨hc, List.nil_subset _⟩))

/-- Texts with a comma between two. -/
theorem commas {texts : List (List Char)} (h : ∀ text ∈ texts, P text) :
    P ([','].intercalate texts) := by
  induction texts with
  | nil => exact law.code [] (List.nil_subset _)
  | cons text rest ih =>
    obtain ⟨first, others⟩ := List.forall_mem_cons.mp h
    cases rest with
    | nil =>
      rw [List.intercalate_singleton]
      exact first
    | cons second rest =>
      rw [List.intercalate_cons_cons, List.append_assoc]
      exact law.append _ _ first (law.cons (by decide) (ih others))

end

mutual

/-- A law of tokens holds of what is written for a value. -/
theorem written (law : TokenLaw P) (w : Writer) : ∀ v : Value, P (w.write v.toJson)
  | .null => by
    rw [Value.toJson, w.null]
    exact law.code _ (by decide)
  | .bool b => by
    rw [Value.toJson, w.bool]
    cases b <;> exact law.code _ (by decide)
  | .integer n => by
    rw [Value.toJson, w.int]
    exact law.code _ (integer_subset_codeParts n.toInt)
  | .float x => by
    rw [Value.toJson]
    split
    · next hx => exact law.code _ (List.Subset.trans (w.float x hx) (List.subset_append_right _ _))
    · rw [w.null]
      exact law.code _ (by decide)
  | .string s => by
    rw [Value.toJson, w.string]
    exact law.string s.toList
  | .array items => by
    rw [Value.toJson, w.array]
    exact law.between (by decide) (by decide) (law.commas (writtenItems law w items))
  | .object fields => by
    rw [Value.toJson, w.object]
    exact law.between (by decide) (by decide) (law.commas (writtenFields law w fields))

theorem writtenItems (law : TokenLaw P) (w : Writer) : ∀ items : List Value,
    ∀ text ∈ (Value.toJsonItems items).map w.write, P text
  | [] => fun _ h => absurd h List.not_mem_nil
  | item :: rest => by
    rw [Value.toJsonItems, List.map_cons, List.forall_mem_cons]
    exact ⟨written law w item, writtenItems law w rest⟩

theorem writtenFields (law : TokenLaw P) (w : Writer) :
    ∀ {bound : Option String} (fields : Fields Value bound),
    ∀ text ∈ (Value.toJsonFields fields).map (fun field =>
      quote field.1.toList ++ ':' :: w.write field.2), P text
  | _, .nil => fun _ h => absurd h List.not_mem_nil
  | _, .cons name _ item rest => by
    rw [Value.toJsonFields, List.map_cons, List.forall_mem_cons]
    exact ⟨law.append _ _ (law.string name.toList) (law.cons (by decide) (written law w item)),
      writtenFields law w rest⟩

end

end TokenLaw

/-- A string escapes controls. -/
theorem blank_le_of_mem_escapeChar {c x : Char} (h : x ∈ escapeChar c) : 0x20 ≤ x.toNat := by
  unfold escapeChar at h
  split at h
  case h_8 =>
    split at h
    · have escape : '\\' :: 'u' :: Numeral.hexadecimal 4 c.toNat ⊆
          '\\' :: 'u' :: Numeral.digits 16 :=
        List.cons_subset_cons _ (List.cons_subset_cons _ (Numeral.hexadecimal_subset ..))
      exact prop_of_mem (escape h) (by decide)
    · rw [List.mem_singleton] at h
      subst h
      omega
  all_goals exact prop_of_mem h (by decide)

/-- The JSON text of a value holds no controls. -/
theorem blank_le_of_mem_write {w : Writer} {v : Value} {x : Char} (h : x ∈ w.write v.toJson) :
    0x20 ≤ x.toNat := by
  have law : TokenLaw fun cs => ∀ x ∈ cs, 0x20 ≤ x.toNat := {
    code := by
      intro cs hcs x hx
      exact prop_of_mem (hcs hx) (by decide)
    string := by
      intro cs x hx
      unfold quote at hx
      rw [List.cons_append, List.mem_cons, List.mem_append, List.mem_singleton] at hx
      rcases hx with rfl | hx | rfl
      · decide
      · obtain ⟨c, -, hx⟩ := List.mem_flatMap.mp hx
        exact blank_le_of_mem_escapeChar hx
      · decide
    append := fun a b ha hb x hx => (List.mem_append.mp hx).elim (ha x) (hb x) }
  exact law.written w v x h

end Stencil.Json
