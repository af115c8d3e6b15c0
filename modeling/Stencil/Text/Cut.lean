/-!
# Cutting a text at a pattern

`cut pattern text` splits a text at the first occurrence of a pattern and drops the pattern. What it
gives is the text again (`eq_of_cut`), and the part after the cut is shorter by at least the
pattern's length (`length_of_cut`), which is what recursions on the rest of a text use. A run of
characters of a class is cut off by its length (`drop_takeWhile`); it is empty or shortens the text
(`dropWhile_cases`), and it goes to the first character outside of the class (`takeWhile_run`).
-/

set_option autoImplicit false

namespace Stencil.Text

/-- What comes before and after the first occurrence of `pattern`, if it occurs. -/
def cut (pattern : List Char) : List Char → Option (List Char × List Char)
  | [] => if pattern = [] then some ([], []) else none
  | c :: r =>
    if pattern.isPrefixOf (c :: r) then some ([], (c :: r).drop pattern.length)
    else (cut pattern r).map fun (before, after) => (c :: before, after)

/-- A cut loses nothing but the pattern. -/
theorem eq_of_cut {pattern text before after : List Char}
    (h : cut pattern text = some (before, after)) : text = before ++ pattern ++ after := by
  induction text generalizing before with
  | nil =>
    simp only [cut] at h
    split at h
    · next hp => cases h; simp [hp]
    · cases h
  | cons c r ih =>
    simp only [cut] at h
    split at h
    · next hp =>
      cases h
      obtain ⟨rest, hrest⟩ := List.isPrefixOf_iff_prefix.mp hp
      simp [← hrest]
    · obtain ⟨⟨b, a⟩, hba, heq⟩ := Option.map_eq_some_iff.mp h
      cases heq
      simpa using ih hba

theorem length_of_cut {pattern text before after : List Char}
    (h : cut pattern text = some (before, after)) :
    text.length = before.length + pattern.length + after.length := by
  have := congrArg List.length (eq_of_cut h)
  simpa [Nat.add_assoc] using this

/-- Dropping a run either finds it empty or shortens the text. -/
theorem dropWhile_cases (p : Char → Bool) (x : Char) (xs : List Char) :
    (p x = false ∧ (x :: xs).dropWhile p = x :: xs) ∨
      ((x :: xs).dropWhile p).length < (x :: xs).length := by
  by_cases h : p x
  · right
    rw [List.dropWhile_cons_of_pos h]
    exact Nat.lt_succ_of_le (List.dropWhile_sublist p).length_le
  · exact .inl ⟨by simpa using h, List.dropWhile_cons_of_neg h⟩

/-- What follows a run at the start of a text. -/
theorem drop_takeWhile (p : Char → Bool) (cs : List Char) :
    cs.drop (cs.takeWhile p).length = cs.dropWhile p := by
  induction cs with
  | nil => rfl
  | cons c cs ih => by_cases h : p c <;> simp [h, ih]

/-- A run ends where a character outside of its class follows, or the text ends. -/
theorem takeWhile_run {p : Char → Bool} {run rest : List Char} (h : ∀ x ∈ run, p x = true)
    (hr : rest.head?.any p = false) : (run ++ rest).takeWhile p = run := by
  rw [List.takeWhile_append_of_pos h]
  cases rest with
  | nil => rw [List.takeWhile_nil, List.append_nil]
  | cons x xs =>
    have hx : p x = false := hr
    rw [List.takeWhile_cons, hx, if_neg nofun, List.append_nil]

end Stencil.Text
