import Stencil.Proofs.Escape.Passage
import Stencil.Proofs.Json.Readback

/-!
# Expressions of scripts denote their values

A value is written as an expression in one of two ways. A string goes through the rule for strings
of scripts. Everything else is a finished JSON text in which the signs of markup are escaped one by
one; these signs stand nowhere but inside its strings, and there the numbered escape of a character
is read as that character (`readsAs_escapeChar`).

So both are JSON texts, and the reader gives back the value, by induction over it
(`value?_jsonText`); floats, which each writer puts down in its own way, are left out. Numbers and
words stand between blanks and everything else between quotes or brackets (`jsValue_cases`), so
nothing at the ends of an expression can run into the code around it (`jsValue_denotes`).
-/

set_option autoImplicit false

namespace Stencil

namespace Value

mutual

/-- A value and all that it holds. -/
def parts : Value → List Value
  | .array items => .array items :: partsOfItems items
  | .object fields => .object fields :: partsOfFields fields
  | v => [v]

/-- The values of a list and all that they hold. -/
def partsOfItems : List Value → List Value
  | [] => []
  | item :: rest => parts item ++ partsOfItems rest

/-- The values of a record and all that they hold. -/
def partsOfFields : {low : Option String} → Fields Value low → List Value
  | _, .nil => []
  | _, .cons _ _ item rest => parts item ++ partsOfFields rest

end

theorem mem_parts (v : Value) : v ∈ v.parts := by
  cases v with
  | array items | object fields => exact List.mem_cons_self ..
  | _ => exact List.mem_singleton_self _

end Value

namespace Escape

open Stencil.Json Stencil.Text

variable {c : Char}

/-- A character is read from a string of a JSON text, however it is spelled, if what stands for it
behind a backslash does so there. -/
theorem readsAs_spelled {letters : Char → Char → Prop} {plain : Char → Bool} {text : List Char}
    (h : Spelled letters plain c text)
    (hletters : ∀ x, letters x c → ∀ rest, escape? (x :: rest) = some (c, rest))
    (hplain : plain c = true → 0x20 ≤ c.toNat ∧ c ≠ '"' ∧ c ≠ '\\') : ReadsAs text c := by
  cases h with
  | letter hx => exact ReadsAs.escape (hletters _ hx)
  | unit low => exact ReadsAs.unit low
  | self hc =>
    obtain ⟨high, hquote, hback⟩ := hplain hc
    exact ReadsAs.plain high hquote hback

/-- A character of a string of a JSON text in a document. -/
theorem readsAs_escapeChar (c : Char) : ReadsAs ((escapeChar c).flatMap jsonChar) c := by
  refine readsAs_spelled (spelled_escapeChar c) ?_ ?_
  · intro x hx rest
    cases hx <;> rfl
  · intro hc
    simp only [isJsonPlain, Bool.and_eq_true, bne_iff_ne, decide_eq_true_eq] at hc
    exact ⟨hc.1.1, hc.1.2, hc.2⟩

/-- A character of a string of a script. -/
theorem readsAs_jsChar (c : Char) : ReadsAs (jsChar c) c := by
  refine readsAs_spelled (spelled_jsChar c) ?_ ?_
  · intro x hx rest
    cases hx <;> rfl
  · intro hc
    simp only [isStringPlain, Bool.and_eq_true, bne_iff_ne, Bool.not_eq_true'] at hc
    refine ⟨(isJsonSign_of_isScriptSign hc.1.1).1, ?_, hc.2⟩
    rintro rfl
    cases hc.1.1

/-! ## JSON texts in a document -/

variable (w : Writer)

/-- The text of a JSON value in a script of a document. -/
def jsonText (j : Json) : List Char := (w.write j).flatMap jsonChar

/-- The texts of the items of a list, with a comma between two. -/
def jsonItems (items : List Json) : List Char :=
  ([','].intercalate (items.map w.write)).flatMap jsonChar

/-- The texts of the fields of a record, with a comma between two. -/
def jsonFields (fields : List (String × Json)) : List Char :=
  ([','].intercalate (fields.map fun field =>
    quote field.1.toList ++ ':' :: w.write field.2)).flatMap jsonChar

theorem jsonText_array (items : List Json) :
    jsonText w (.array items) = '[' :: (jsonItems w items ++ [']']) := by
  rw [jsonText, w.array, List.cons_append, List.flatMap_cons, List.flatMap_append]
  rfl

theorem jsonText_object (fields : List (String × Json)) :
    jsonText w (.object fields) = '\x7b' :: (jsonFields w fields ++ ['\x7d']) := by
  rw [jsonText, w.object, List.cons_append, List.flatMap_cons, List.flatMap_append]
  rfl

theorem jsonItems_singleton (item : Json) : jsonItems w [item] = jsonText w item := by
  rw [jsonItems, List.map_singleton, List.intercalate_singleton, jsonText]

theorem jsonItems_cons (item second : Json) (rest : List Json) :
    jsonItems w (item :: second :: rest) =
      jsonText w item ++ ',' :: jsonItems w (second :: rest) := by
  rw [jsonItems, List.map_cons, List.map_cons, List.intercalate_cons_cons, List.append_assoc,
    List.flatMap_append, List.singleton_append, List.flatMap_cons]
  rfl

/-- A field in a document. -/
theorem flatMap_jsonChar_field (name : String) (item : List Char) :
    (quote name.toList ++ ':' :: item).flatMap jsonChar =
      '"' :: (name.toList.flatMap (fun c => (escapeChar c).flatMap jsonChar) ++
        '"' :: ':' :: item.flatMap jsonChar) := by
  rw [List.flatMap_append, flatMap_jsonChar_quote, List.cons_append, List.append_assoc]
  rfl

theorem jsonFields_singleton (name : String) (item : Json) : jsonFields w [(name, item)] =
    '"' :: (name.toList.flatMap (fun c => (escapeChar c).flatMap jsonChar) ++
      '"' :: ':' :: jsonText w item) := by
  rw [jsonFields, List.map_singleton, List.intercalate_singleton, flatMap_jsonChar_field, jsonText]

theorem jsonFields_cons (name : String) (item : Json) (second : String × Json)
    (rest : List (String × Json)) : jsonFields w ((name, item) :: second :: rest) =
      '"' :: (name.toList.flatMap (fun c => (escapeChar c).flatMap jsonChar) ++
        '"' :: ':' :: (jsonText w item ++ ',' :: jsonFields w (second :: rest))) := by
  rw [jsonFields, List.map_cons, List.map_cons, List.intercalate_cons_cons, List.append_assoc,
    List.flatMap_append, flatMap_jsonChar_field, List.cons_append, List.append_assoc,
    List.flatMap_append]
  rfl

theorem jsonText_integer (n : Int) : jsonText w (.int n) = Numeral.integer n := by
  rw [jsonText, w.int]
  exact flatMap_jsonChar_of_forall fun _ hx =>
    prop_of_mem (integer_subset_codeParts n hx) (by decide)

theorem jsonText_string (s : String) : jsonText w (.string s) =
    '"' :: (s.toList.flatMap (fun c => (escapeChar c).flatMap jsonChar) ++ ['"']) := by
  rw [jsonText, w.string]
  exact flatMap_jsonChar_quote s.toList

theorem jsonText_null : jsonText w .null = ['n', 'u', 'l', 'l'] := by
  rw [jsonText, w.null]
  rfl

theorem jsonText_bool (b : Bool) : jsonText w (.bool b) =
    if b then ['t', 'r', 'u', 'e'] else ['f', 'a', 'l', 's', 'e'] := by
  rw [jsonText, w.bool]
  cases b <;> rfl

/-- The first character of a value, which is no blank and closes nothing. -/
theorem exists_opening {v : Value} (h : v.kind ≠ .float) :
    ∃ x xs, jsonText w v.toJson = x :: xs ∧ isBlank x = false ∧ x ≠ ']' := by
  cases v with
  | null => exact ⟨_, _, jsonText_null w, rfl, by decide⟩
  | bool b => cases b <;> exact ⟨_, _, jsonText_bool w _, rfl, by decide⟩
  | integer n =>
    obtain ⟨x, xs, heq⟩ := List.exists_cons_of_ne_nil (Numeral.integer_ne_nil n.toInt)
    have hx : x ∈ '-' :: Numeral.digits 10 :=
      Numeral.integer_subset n.toInt (heq ▸ List.mem_cons_self)
    have opens : isBlank x = false ∧ x ≠ ']' := prop_of_mem hx (by decide)
    exact ⟨x, xs, (jsonText_integer w n.toInt).trans heq, opens⟩
  | float x => exact absurd rfl h
  | string s => exact ⟨_, _, jsonText_string w s, rfl, by decide⟩
  | array items => exact ⟨_, _, jsonText_array w _, rfl, by decide⟩
  | object fields => exact ⟨_, _, jsonText_object w _, rfl, by decide⟩

/-- The first character of a list of values that is not empty. -/
theorem exists_opening_items {item : Value} (h : item.kind ≠ .float) (rest : List Value) :
    ∃ x xs, jsonItems w (Value.toJsonItems (item :: rest)) = x :: xs ∧ isBlank x = false ∧
      x ≠ ']' := by
  obtain ⟨x, xs, heq, opens⟩ := exists_opening w h
  cases rest with
  | nil => exact ⟨x, xs, (jsonItems_singleton w item.toJson).trans heq, opens⟩
  | cons second rest =>
    refine ⟨x, xs ++ ',' :: jsonItems w (Value.toJsonItems (second :: rest)), ?_, opens⟩
    rw [Value.toJsonItems, Value.toJsonItems, jsonItems_cons, heq]
    rfl

/-- A record that is not empty starts with the quote of its first name. -/
theorem exists_quote {low : Option String} {fields : Fields Value low} (h : fields.toList ≠ []) :
    ∃ xs, jsonFields w (Value.toJsonFields fields) = '"' :: xs := by
  cases fields with
  | nil => exact absurd rfl h
  | cons name above item rest =>
    cases rest with
    | nil => exact ⟨_, jsonFields_singleton w name item.toJson⟩
    | cons second above other rest =>
      exact ⟨_, jsonFields_cons w name item.toJson (second, other.toJson)
        (Value.toJsonFields rest)⟩

theorem closes_cons {x : Char} (h : x ∈ [',', ']', '\x7d']) (rest : List Char) :
    Closes (x :: rest) :=
  .inr ⟨x, h, rest, rfl⟩

mutual

/-- A value is read from its text in a document, with a bound of two steps for a character. -/
theorem value?_jsonText : ∀ v : Value, (∀ part ∈ v.parts, part.kind ≠ .float) → ∀ (bound : Nat)
    (rest : List Char), 2 * (jsonText w v.toJson).length ≤ bound + 1 → Closes rest →
    value? (bound + 1) (jsonText w v.toJson ++ rest) = some (v.toJson, rest)
  | .null, _, _, _, _, _ => by
    rw [Value.toJson, jsonText_null]
    rfl
  | .bool b, _, _, _, _, _ => by
    rw [Value.toJson, jsonText_bool]
    cases b <;> rfl
  | .integer n, _, bound, rest, _, hrest => by
    rw [Value.toJson, jsonText_integer]
    exact value?_integer bound n.toInt hrest
  | .float x, h, _, _, _, _ => absurd rfl (h _ (List.mem_singleton_self _))
  | .string s, _, bound, rest, _, _ => by
    rw [Value.toJson, jsonText_string, List.cons_append, List.append_assoc]
    exact value?_string (quoted?_flatMap readsAs_escapeChar s rest)
  | .array [], _, _, _, _, _ => by
    rw [Value.toJson, jsonText_array]
    rfl
  | .array (item :: more), h, bound, rest, hb, _ => by
    rw [Value.parts, List.forall_mem_cons] at h
    rw [Value.toJson, jsonText_array, List.length_cons, List.length_append, List.length_singleton]
      at hb
    obtain ⟨bound, rfl⟩ := Nat.exists_eq_add_of_le' (show 2 ≤ bound by omega)
    have items := items?_jsonItems (item :: more) (List.cons_ne_nil _ _) h.2 bound rest (by omega)
    have hitem : item.kind ≠ .float := h.2 item (List.mem_append_left _ item.mem_parts)
    obtain ⟨x, xs, heq, blank, closing⟩ := exists_opening_items w hitem more
    rw [Value.toJson, jsonText_array, List.cons_append, List.append_assoc]
    rw [heq] at items ⊢
    exact value?_array blank closing items
  | .object .nil, _, _, _, _, _ => by
    rw [Value.toJson, jsonText_object]
    rfl
  | .object (.cons name above item more), h, bound, rest, hb, _ => by
    rw [Value.parts, List.forall_mem_cons] at h
    rw [Value.toJson, jsonText_object, List.length_cons, List.length_append, List.length_singleton]
      at hb
    obtain ⟨bound, rfl⟩ := Nat.exists_eq_add_of_le' (show 2 ≤ bound by omega)
    have fields := fields?_jsonFields (.cons name above item more) (List.cons_ne_nil _ _) h.2 bound
      rest (by omega)
    have some : (Fields.cons name above item more).toList ≠ [] := List.cons_ne_nil _ _
    obtain ⟨xs, heq⟩ := exists_quote w some
    rw [Value.toJson, jsonText_object, List.cons_append, List.append_assoc,
      ← Value.ofPairs_toJsonFields]
    rw [heq] at fields ⊢
    exact value?_object rfl (by decide) fields

theorem items?_jsonItems : ∀ items : List Value, items ≠ [] →
    (∀ part ∈ Value.partsOfItems items, part.kind ≠ .float) → ∀ (bound : Nat) (rest : List Char),
    2 * (jsonItems w (Value.toJsonItems items)).length ≤ bound →
    items? (bound + 2) (jsonItems w (Value.toJsonItems items) ++ ']' :: rest) =
      some (Value.toJsonItems items, rest)
  | [], h, _, _, _, _ => absurd rfl h
  | [item], _, h, bound, rest, hb => by
    rw [Value.partsOfItems, List.forall_mem_append] at h
    rw [Value.toJsonItems, Value.toJsonItems, jsonItems_singleton] at hb ⊢
    exact items?_last (value?_jsonText item h.1 bound _ (Nat.le_succ_of_le hb)
      (closes_cons (by decide) rest))
  | item :: second :: more, _, h, bound, rest, hb => by
    rw [Value.partsOfItems, List.forall_mem_append] at h
    rw [Value.toJsonItems, Value.toJsonItems, jsonItems_cons, List.length_append, List.length_cons]
      at hb
    obtain ⟨bound, rfl⟩ := Nat.exists_eq_add_of_le' (show 1 ≤ bound by omega)
    have others := items?_jsonItems (second :: more) (List.cons_ne_nil _ _) h.2 bound rest
      (by rw [Value.toJsonItems]; omega)
    rw [Value.toJsonItems, Value.toJsonItems, jsonItems_cons, List.append_assoc]
    exact items?_next (value?_jsonText item h.1 _ _ (by omega) (closes_cons (by decide) _)) others

theorem fields?_jsonFields : ∀ {low : Option String} (fields : Fields Value low),
    fields.toList ≠ [] → (∀ part ∈ Value.partsOfFields fields, part.kind ≠ .float) →
    ∀ (bound : Nat) (rest : List Char),
    2 * (jsonFields w (Value.toJsonFields fields)).length ≤ bound →
    fields? (bound + 2) (jsonFields w (Value.toJsonFields fields) ++ '\x7d' :: rest) =
      some (Value.toJsonFields fields, rest)
  | _, .nil, h, _, _, _, _ => absurd rfl h
  | _, .cons name _ item .nil, _, h, bound, rest, hb => by
    rw [Value.partsOfFields, List.forall_mem_append] at h
    rw [Value.toJsonFields, Value.toJsonFields, jsonFields_singleton, List.length_cons,
      List.length_append, List.length_cons, List.length_cons] at hb
    rw [Value.toJsonFields, Value.toJsonFields, jsonFields_singleton, List.cons_append,
      List.append_assoc]
    exact fields?_last (quoted?_flatMap readsAs_escapeChar name _)
      (value?_jsonText item h.1 _ _ (by omega) (closes_cons (by decide) rest))
  | _, .cons name _ item (.cons second above other more), _, h, bound, rest, hb => by
    rw [Value.partsOfFields, List.forall_mem_append] at h
    rw [Value.toJsonFields, Value.toJsonFields, jsonFields_cons, List.length_cons,
      List.length_append, List.length_cons, List.length_cons, List.length_append, List.length_cons]
      at hb
    obtain ⟨bound, rfl⟩ := Nat.exists_eq_add_of_le' (show 1 ≤ bound by omega)
    have others := fields?_jsonFields (.cons second above other more) (List.cons_ne_nil _ _) h.2
      bound rest (by rw [Value.toJsonFields]; omega)
    rw [Value.toJsonFields, Value.toJsonFields, jsonFields_cons]
    simp only [List.cons_append, List.append_assoc]
    exact fields?_next (quoted?_flatMap readsAs_escapeChar name _)
      (value?_jsonText item h.1 _ _ (by omega) (closes_cons (by decide) _)) others

end

/-! ## Expressions -/

theorem read?_of_value? {cs : List Char} {j : Json}
    (h : value? (2 * cs.length + 2) cs = some (j, [])) : read? cs = some j := by
  rw [read?, h]
  rfl

/-- A value as an expression without blanks around it. -/
def literal : Value → List Char
  | .string s => '"' :: (jsString s.toList ++ ['"'])
  | v => jsonText w v.toJson

/-- An expression is a JSON text, also where a string is written by the rule for scripts. -/
theorem read?_literal {v : Value} (h : ∀ part ∈ v.parts, part.kind ≠ .float) :
    read? (literal w v) = some v.toJson := by
  have other : read? (jsonText w v.toJson) = some v.toJson := by
    have read := value?_jsonText w v h (2 * (jsonText w v.toJson).length + 1) [] (by omega)
      (.inl rfl)
    rw [List.append_nil] at read
    exact read?_of_value? read
  cases v with
  | string s => exact read?_of_value? (value?_string (quoted?_flatMap readsAs_jsChar s []))
  | _ => exact other

/-- The first and the last character of expressions that need no blanks around them. -/
def enclosures : List (Char × Char) := [('"', '"'), ('[', ']'), ('\x7b', '\x7d')]

theorem padded_of_last {x : Char} (h : isNamePart x = true) (cs : List Char) :
    padded (cs ++ [x]) = ' ' :: (cs ++ [x]) ++ [' '] := by
  rw [padded, if_pos]
  rw [List.getLast?_concat, Option.any_some, h, Bool.or_true]

theorem padded_of_ends {x y : Char} (hx : isNamePart x = false) (hy : isNamePart y = false)
    (inner : List Char) : padded (x :: inner ++ [y]) = x :: inner ++ [y] := by
  rw [padded, if_neg]
  rw [List.getLast?_concat, List.cons_append, List.head?_cons, Option.any_some, Option.any_some, hx,
    hy]
  exact Bool.false_ne_true

/-- Numbers and words stand between blanks, and everything else is enclosed. -/
theorem jsValue_cases {v : Value} (h : v.kind ≠ .float) :
    (jsValue v w.write = ' ' :: literal w v ++ [' '] ∧ ' ' ∉ literal w v) ∨
      jsValue v w.write = literal w v ∧
        ∃ ends ∈ enclosures, ∃ inner, literal w v = ends.1 :: inner ++ [ends.2] := by
  cases v with
  | null =>
    have text : literal w .null = ['n', 'u', 'l', 'l'] := jsonText_null w
    have whole : jsValue .null w.write = padded (literal w .null) := rfl
    rw [whole, text]
    exact .inl (by decide)
  | bool b =>
    have text : literal w (.bool b) = _ := jsonText_bool w b
    have whole : jsValue (.bool b) w.write = padded (literal w (.bool b)) := rfl
    rw [whole, text]
    cases b <;> exact .inl (by decide)
  | integer n =>
    obtain ⟨cs, c, heq, digit⟩ := Numeral.exists_integer_eq n.toInt
    have last : isNamePart c = true := by simp [isNamePart, isAlphanumeric, digit]
    have text : literal w (.integer n) = Numeral.integer n.toInt := jsonText_integer w n.toInt
    have whole : jsValue (.integer n) w.write = padded (literal w (.integer n)) := rfl
    refine .inl ⟨?_, ?_⟩
    · rw [whole, text, heq, padded_of_last last]
    · rw [text]
      intro hmem
      exact absurd (Numeral.integer_subset _ hmem) (by decide)
  | float x => exact absurd rfl h
  | string s => exact .inr ⟨rfl, ('"', '"'), by decide, jsString s.toList, rfl⟩
  | array items =>
    have text : literal w (.array items) = _ := jsonText_array w (Value.toJsonItems items)
    have whole : jsValue (.array items) w.write = padded (literal w (.array items)) := rfl
    refine .inr ⟨?_, ('[', ']'), by decide, _, text⟩
    rw [whole, text]
    exact padded_of_ends rfl rfl _
  | object fields =>
    have text : literal w (.object fields) = _ := jsonText_object w (Value.toJsonFields fields)
    have whole : jsValue (.object fields) w.write = padded (literal w (.object fields)) := rfl
    refine .inr ⟨?_, ('\x7b', '\x7d'), by decide, _, text⟩
    rw [whole, text]
    exact padded_of_ends rfl rfl _

/-- Without the blanks around it an expression is the text of its value. -/
theorem trim_jsValue {v : Value} (h : v.kind ≠ .float) :
    trim (· == ' ') (jsValue v w.write) = literal w v := by
  rcases jsValue_cases w h with ⟨whole, blank⟩ | ⟨whole, ends, hends, inner, text⟩
  · have outside : ∀ x ∈ literal w v, (x == ' ') = false := by
      intro x hx
      rw [beq_eq_false_iff_ne]
      rintro rfl
      exact blank hx
    rw [whole]
    exact trim_around [' '] [' '] (fun x hx => outside x (List.mem_of_mem_head? hx))
      (fun x hx => outside x (List.mem_of_mem_getLast? hx)) (by simp) (by simp)
  · have apart : ∀ ends ∈ enclosures, (ends.1 == ' ') = false ∧ (ends.2 == ' ') = false := by
      decide
    obtain ⟨hfirst, hlast⟩ := apart ends hends
    have around : trim (· == ' ') ([] ++ (ends.1 :: inner ++ [ends.2]) ++ []) = _ :=
      trim_around [] [] (by simpa using hfirst) (by rw [List.getLast?_concat]; simpa using hlast)
        nofun nofun
    rw [List.nil_append, List.append_nil] at around
    rw [whole, text, around]

/-- **A value as an expression denotes the value.** Without the blanks around it, what is written
for a value that holds no float is a JSON text, and its reader gives the value back, whoever writes
the JSON texts. It holds no sign that the markup around it or an older script could take for its
own, and no character at its ends can run into a name or a number beside it. -/
theorem jsValue_denotes {v : Value} (whole : ∀ part ∈ v.parts, part.kind ≠ .float) :
    read? (trim (· == ' ') (jsValue v w.write)) = some v.toJson ∧
    (∀ x ∈ jsValue v w.write, x ∉ ['<', '>', '&', '\'', '\u2028', '\u2029']) ∧
    ∃ first last, (jsValue v w.write).head? = some first ∧
      (jsValue v w.write).getLast? = some last ∧
      ∀ x ∈ [first, last], isAlphanumeric x = false ∧ x ∉ ['_', '$', '-', '.'] := by
  have kind := whole v v.mem_parts
  refine ⟨?_, ?_, ?_⟩
  · rw [trim_jsValue w kind]
    exact read?_literal w whole
  · intro x hx hmem
    have outside := (isJsonSign_of_mem_jsValue hx).2
    have sign : isJsonSign x = true := List.contains_iff_mem.mpr hmem
    rw [outside] at sign
    cases sign
  · rcases jsValue_cases w kind with ⟨whole, -⟩ | ⟨whole, ends, hends, inner, text⟩
    · refine ⟨' ', ' ', ?_, ?_, fun x hx => prop_of_mem hx (by decide)⟩
      · rw [whole]
        rfl
      · rw [whole, List.getLast?_concat]
    · refine ⟨ends.1, ends.2, ?_, ?_, ?_⟩
      · rw [whole, text]
        rfl
      · rw [whole, text, List.getLast?_concat]
      · have signs : ∀ ends ∈ enclosures, [ends.1, ends.2] ⊆ ['"', '[', ']', '\x7b', '\x7d'] := by
          decide
        exact fun x hx => prop_of_mem (signs ends hends hx) (by decide)

/-- A record that holds the least whole number, and signs of markup behind backslashes and in a
name. -/
def markedRecord : Value :=
  .object (.ofPairs [("a", .array [.integer (-9223372036854775808), .string "\\\"</\u2028\x01",
    .null]), ("b'&", .object .nil)])

theorem jsValue_denotes_markedRecord :
    (∀ part ∈ markedRecord.parts, part.kind ≠ .float) ∧
    read? (("\x7b\"a\":[-9223372036854775808,\"\\\\\\\"\\u003c/\\u2028\\u0001\",null]," ++
      "\"b\\u0027\\u0026\":\x7b\x7d\x7d").toList) = some markedRecord.toJson ∧
    ('"' ∈ jsValue markedRecord ∧ '"' ∉ ['<', '>', '&', '\'', '\u2028', '\u2029']) ∧
    (jsValue markedRecord).head? = some '\x7b' ∧ isAlphanumeric '\x7b' = false := by
  have whole : ∀ part ∈ markedRecord.parts, part.kind ≠ .float := by decide +kernel
  have written : trim (· == ' ') (jsValue markedRecord) =
      ("\x7b\"a\":[-9223372036854775808,\"\\\\\\\"\\u003c/\\u2028\\u0001\",null]," ++
        "\"b\\u0027\\u0026\":\x7b\x7d\x7d").toList := by
    decide +kernel
  have held : '"' ∈ jsValue markedRecord := by decide +kernel
  obtain ⟨back, signs, first, last, hfirst, -, apart⟩ := jsValue_denotes .compact whole
  change read? (trim (· == ' ') (jsValue markedRecord)) = _ at back
  rw [written] at back
  have opens : (jsValue markedRecord).head? = some '\x7b' := by decide +kernel
  have start : some '\x7b' = some first := opens.symm.trans hfirst
  cases start
  exact ⟨whole, back, ⟨held, signs _ held⟩, opens, (apart _ (List.mem_cons_self ..)).1⟩

end Escape

end Stencil
