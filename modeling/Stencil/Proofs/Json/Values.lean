import Stencil.Proofs.Escape.Literals
import Stencil.Proofs.Numeral.Reading

/-!
# Values survive the trip through JSON

A value that is written as JSON and read again is the value, with null for each float in it that is
no finite number (`Value.ofJson_toJson`). What the trip does to a value is said without JSON:
`Value.mapScalars` changes the scalars of a value by a rule and keeps its lists and records, and
`Value.finiteOrNull` is the rule. Of the numbers of JSON the trip relies on this: whole numbers and
floats are kept apart, whatever number they are, so `1` comes back as `1` and `1.0` as `1.0`; and
there is none for a float that is no finite number.

The trip goes through maps on both sides. They keep every field, since a record has its names in
order (`Fields.ofPairs_toList`). Values without such floats are the ones that the trip leaves as
they are.
-/

set_option autoImplicit false

namespace Stencil.Value

/-! ## Changing the scalars of a value -/

mutual

/-- A value with each scalar in it changed by a rule; lists and records stay. -/
def mapScalars (f : Value → Value) : Value → Value
  | .array items => .array (mapItems f items)
  | .object fields => .object (mapFields f fields)
  | scalar => f scalar

/-- The items of a list with the scalars in them changed. -/
def mapItems (f : Value → Value) : List Value → List Value
  | [] => []
  | item :: rest => mapScalars f item :: mapItems f rest

/-- The fields of a record with the scalars in them changed; names stay in their places. -/
def mapFields (f : Value → Value) : {low : Option String} → Fields Value low → Fields Value low
  | _, .nil => .nil
  | _, .cons name above item rest => .cons name above (mapScalars f item) (mapFields f rest)

end

/-- A float that is no finite number becomes null, and every other scalar stays. -/
def finiteOrNull : Value → Value
  | .float x => if Numeral.isFinite x then .float x else .null
  | scalar => scalar

/-- Whether a value is a float that is no finite number. -/
def isNotFinite : Value → Bool
  | .float x => !Numeral.isFinite x
  | _ => false

/-! ## Numbers -/

/-- A whole number of 64 bits is read as it is. -/
theorem ofJson_int (n : Int64) : ofJson (.int n.toInt) = .integer n := by
  rw [ofJson, ofInt, Numeral.int64?_toInt]

/-- A float is no whole number, also where its value is one. -/
theorem ofJson_float (x : Float) : ofJson (.float x) = .float x := rfl

/-- A float is written as a number if it is finite, and as null otherwise. -/
theorem toJson_float (x : Float) :
    toJson (.float x) = if Numeral.isFinite x then .float x else .null := rfl

/-! ## The trip -/

mutual

/-- What comes back of a value. -/
theorem ofJson_toJson_eq : ∀ v : Value, ofJson (toJson v) = v.mapScalars finiteOrNull
  | .null | .bool _ | .string _ => rfl
  | .integer n => ofJson_int n
  | .float x => by
    have replaced : (Value.float x).mapScalars finiteOrNull =
      if Numeral.isFinite x then .float x else .null := rfl
    rw [toJson_float, replaced]
    split
    · exact ofJson_float x
    · rfl
  | .array items => by rw [toJson, ofJson, ofJsonItems_toJsonItems items, mapScalars]
  | .object fields => by
    rw [toJson, ofJson, ofJsonFields_toJsonFields fields, Fields.ofPairs_toList, mapScalars]

theorem ofJsonItems_toJsonItems : ∀ items : List Value,
    ofJsonItems (toJsonItems items) = mapItems finiteOrNull items
  | [] => rfl
  | item :: rest => by
    rw [toJsonItems, ofJsonItems, ofJson_toJson_eq item, ofJsonItems_toJsonItems rest, mapItems]

theorem ofJsonFields_toJsonFields : ∀ {low : Option String} (fields : Fields Value low),
    ofJsonFields (toJsonFields fields) = (mapFields finiteOrNull fields).toList
  | _, .nil => rfl
  | _, .cons name above item rest => by
    rw [toJsonFields, ofJsonFields, ofJson_toJson_eq item, ofJsonFields_toJsonFields rest,
      mapFields, Fields.toList]

end

/-! ## What the trip leaves as it is -/

mutual

/-- A value stays as it is exactly if each float in it is a finite number. -/
theorem mapScalars_eq_self_iff : ∀ v : Value,
    v.mapScalars finiteOrNull = v ↔ ∀ w ∈ v.parts, w.isNotFinite = false
  | .null | .bool _ | .string _ | .integer _ =>
    ⟨fun _ _ hw => by rw [List.mem_singleton.mp hw]; rfl, fun _ => rfl⟩
  | .float x => by
    have single : (Value.float x).parts = [.float x] := rfl
    have replaced : (Value.float x).mapScalars finiteOrNull =
      if Numeral.isFinite x then .float x else .null := rfl
    rw [single, replaced, List.forall_mem_singleton, isNotFinite]
    cases Numeral.isFinite x <;> simp
  | .array items => by
    rw [mapScalars, parts, List.forall_mem_cons, ← mapItems_eq_self_iff items]
    exact ⟨fun h => ⟨rfl, Value.array.inj h⟩, fun h => congrArg Value.array h.2⟩
  | .object fields => by
    rw [mapScalars, parts, List.forall_mem_cons, ← mapFields_eq_self_iff fields]
    exact ⟨fun h => ⟨rfl, Value.object.inj h⟩, fun h => congrArg Value.object h.2⟩

theorem mapItems_eq_self_iff : ∀ items : List Value,
    mapItems finiteOrNull items = items ↔ ∀ w ∈ partsOfItems items, w.isNotFinite = false
  | [] => ⟨fun _ => nofun, fun _ => rfl⟩
  | item :: rest => by
    rw [mapItems, partsOfItems, List.cons.injEq, List.forall_mem_append,
      mapScalars_eq_self_iff item, mapItems_eq_self_iff rest]

theorem mapFields_eq_self_iff : ∀ {low : Option String} (fields : Fields Value low),
    mapFields finiteOrNull fields = fields ↔ ∀ w ∈ partsOfFields fields, w.isNotFinite = false
  | _, .nil => ⟨fun _ => nofun, fun _ => rfl⟩
  | _, .cons name above item rest => by
    rw [mapFields, partsOfFields, Fields.cons.injEq, heq_eq_eq, List.forall_mem_append,
      mapScalars_eq_self_iff item, mapFields_eq_self_iff rest, eq_self_iff_true, true_and]

end

/-- **Values survive the trip through JSON.** What comes back of a value is the value with null for
each float in it that is no finite number; all else is as it was, lists in their order and records
with their names. The value itself comes back exactly if it holds no such float. The maps that the
fields go through, there and back, keep every field of a record in its place. -/
theorem ofJson_toJson (v : Value) :
    ofJson (toJson v) = v.mapScalars finiteOrNull ∧
    (ofJson (toJson v) = v ↔ ∀ w ∈ v.parts, w.isNotFinite = false) ∧
    ∀ fields, .object fields ∈ v.parts →
      Json.ofPairs (toJsonFields fields) = .object (toJsonFields fields) ∧
      (Fields.ofPairs (ofJsonFields (toJsonFields fields))).toList =
        ofJsonFields (toJsonFields fields) := by
  refine ⟨ofJson_toJson_eq v, ?_, ?_⟩
  · rw [ofJson_toJson_eq]
    exact mapScalars_eq_self_iff v
  · intro fields _
    refine ⟨ofPairs_toJsonFields fields, ?_⟩
    rw [ofJsonFields_toJsonFields, Fields.ofPairs_toList]

/-- Fields that hold some items and a whole number. -/
def mixedFields (items : List Value) : Fields Value none :=
  .cons "a" (fun _ h => absurd h (Option.not_mem_none _)) (.array items)
    (.cons "b" (fun _ h => Option.mem_some.mp h ▸ by decide +kernel) (.integer 1) .nil)

/-- The greatest whole number, whole floats, a zero below zero, and floats that are no numbers. -/
theorem ofJson_toJson_mixedFields :
    let items : List Value := [.integer 9223372036854775807, .float 1.0, .float (-0.0),
      .float (0.0 / 0.0), .float (1.0 / 0.0)]
    (ofJson (toJson (.object (mixedFields items))) = .object (mixedFields
      [.integer 9223372036854775807, .float 1.0, .float (-0.0), .null, .null]) ∧
    ofJson (toJson (.object (mixedFields items))) ≠ .object (mixedFields items)) ∧
    Json.ofPairs (toJsonFields (mixedFields items)) =
      .object (toJsonFields (mixedFields items)) := by
  intro items
  obtain ⟨back, same, records⟩ := ofJson_toJson (.object (mixedFields items))
  have one : Numeral.isFinite 1.0 = true := by decide +kernel
  have zero : Numeral.isFinite (-0.0) = true := by decide +kernel
  have notANumber : Numeral.isFinite (0.0 / 0.0) = false := by decide +kernel
  have infinite : Numeral.isFinite (1.0 / 0.0) = false := by decide +kernel
  refine ⟨⟨?_, fun h => ?_⟩, (records _ (mem_parts _)).1⟩
  · have inside : (Value.object (mixedFields items)).mapScalars finiteOrNull =
        .object (mixedFields (mapItems finiteOrNull items)) := rfl
    rw [back, inside]
    simp [items, mapScalars, mapItems, finiteOrNull, one, zero, notANumber, infinite]
  · have parts : (Value.object (mixedFields items)).parts =
        .object (mixedFields items) :: .array items :: (items ++ [.integer 1]) := rfl
    have finite := same.mp h (.float (0.0 / 0.0)) (by rw [parts]; simp [items])
    rw [isNotFinite, notANumber] at finite
    cases finite

end Stencil.Value
