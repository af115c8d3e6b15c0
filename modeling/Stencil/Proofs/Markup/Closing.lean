import Stencil.Proofs.Markup.Moves

/-!
# What closes a value or a body

A value goes on to the first character that its delimiter ends with, and a body to the first end tag
of its element. A text without either leaves the scan inside (`advance_of_open`,
`advance_of_body`); a text that goes on behind them is read there from a fresh context
(`advance_of_closed`, `advance_of_ended`). No end tag comes to be where two texts meet, unless it
starts in the second one (`endTag?_append`).
-/

set_option autoImplicit false

namespace Stencil.Markup

open Stencil.Text

/-! ## End tags -/

theorem endTag?_cons_cons (name cs : List Char) :
    endTag? name ('<' :: '/' :: cs) =
      if (cs.take name.length).map lower = name ∧
          !(cs.drop name.length).head?.any isTagNamePart then
        some (cs.drop name.length)
      else none := rfl

/-- No end tag comes to be where a text that holds none meets a less-than sign. -/
theorem endTag?_append {name cs tail : List Char} (hn : '<' ∉ name)
    (hne : cs ≠ []) (h : endTag? name cs = none) : endTag? name (cs ++ '<' :: tail) = none := by
  match cs with
  | [] => exact absurd rfl hne
  | [x] =>
    unfold endTag?
    split
    · next heq => cases heq
    · rfl
  | x :: y :: r =>
    by_cases hxy : x = '<' ∧ y = '/'
    · obtain ⟨rfl, rfl⟩ := hxy
      rw [endTag?_cons_cons, ite_eq_right_iff] at h
      rw [List.cons_append, List.cons_append, endTag?_cons_cons, if_neg]
      rintro ⟨hname, hpart⟩
      by_cases hlen : name.length ≤ r.length
      · rw [List.take_append_of_le_length hlen] at hname
        refine absurd (h ⟨hname, ?_⟩) nofun
        rw [List.drop_append_of_le_length hlen] at hpart
        cases hr : r.drop name.length with
        | nil => rfl
        | cons z zs => rwa [hr] at hpart
      · refine hn ?_
        rw [← hname, List.take_append, List.map_append, List.mem_append]
        have hpos : name.length - r.length = (name.length - r.length - 1) + 1 := by omega
        rw [hpos, List.take_succ_cons]
        exact .inr (List.mem_cons_self ..)
    · unfold endTag?
      split
      · next heq =>
        cases heq
        exact absurd ⟨rfl, rfl⟩ hxy
      · rfl

/-- The first end tag is the one behind a text that holds none. -/
theorem cutEndTag_append {name v tail after : List Char} (hn : '<' ∉ name)
    (hv : cutEndTag name v = none) (htag : endTag? name ('<' :: tail) = some after) :
    cutEndTag name (v ++ '<' :: tail) = some (v, after) := by
  induction v with
  | nil =>
    unfold cutEndTag
    dsimp only [List.nil_append]
    rw [htag]
  | cons x xs ih =>
    unfold cutEndTag at hv
    split at hv
    · cases hv
    · next hx =>
      have hxs : cutEndTag name xs = none := by simpa using hv
      rw [List.cons_append, cutEndTag, ← List.cons_append,
        endTag?_append hn (List.cons_ne_nil x xs) hx, ih hxs]
      rfl

/-- An end tag goes on to what cannot belong to its name. -/
theorem endTag?_rest {name d rest : List Char} (hd : endTag? name d = some [])
    (hr : rest.head?.any isTagNamePart = false) : endTag? name (d ++ rest) = some rest := by
  unfold endTag? at hd
  split at hd
  · next r =>
    dsimp only at hd
    split at hd
    · next h =>
      have hdrop : r.drop name.length = [] := Option.some.inj hd
      have hlen : r.length = name.length := by
        have h1 := congrArg List.length h.1
        simp only [List.length_map, List.length_take] at h1
        have h2 := List.drop_eq_nil_iff.mp hdrop
        omega
      rw [List.cons_append, List.cons_append, endTag?_cons_cons, ← hlen, List.take_left,
        List.drop_left, if_pos]
      refine ⟨?_, by simp [hr]⟩
      rw [← h.1, ← hlen, List.take_length]
    · cases hd
  · cases hd

/-- An end tag starts with a less-than sign. -/
theorem exists_of_endTag? {name d after : List Char} (hd : endTag? name d = some after) :
    ∃ tail, d = '<' :: tail := by
  unfold endTag? at hd
  split at hd
  · exact ⟨_, rfl⟩
  · cases hd

theorem Element.not_mem_name (e : Element) : '<' ∉ e.name.toList := by
  cases e <;> decide

/-- A text without a less-than sign holds no end tag. -/
theorem cutEndTag_of_not_mem {name cs : List Char} (h : '<' ∉ cs) : cutEndTag name cs = none := by
  induction cs with
  | nil => rfl
  | cons x xs ih =>
    have hx : x ≠ '<' := fun heq => h (heq ▸ List.mem_cons_self ..)
    have hxs : '<' ∉ xs := fun hmem => h (List.mem_cons_of_mem x hmem)
    have none_here : endTag? name (x :: xs) = none := by
      unfold endTag?
      split
      · next heq =>
        cases heq
        exact absurd rfl hx
      · rfl
    rw [cutEndTag, none_here, ih hxs]
    rfl

namespace Context

/-! ## Values -/

variable {c : Context}

theorem valueStep_of_open {v : List Char} (hv : ∀ x ∈ v, c.delim.ends x = false) :
    c.valueStep v = (c.advanceInner (decodeEntities v), []) := by
  have inside : (v ++ []).takeWhile (fun x => !c.delim.ends x) = v :=
    takeWhile_run (fun x hx => by rw [hv x hx]; rfl) rfl
  rw [List.append_nil] at inside
  unfold valueStep
  dsimp only
  rw [inside, List.drop_length]

theorem valueStep_of_closed {v rest : List Char} {d : Char}
    (hv : ∀ x ∈ v, c.delim.ends x = false) (hd : c.delim.ends d = true) :
    c.valueStep (v ++ d :: rest) =
      ((c.advanceInner (decodeEntities v)).leaveAttr,
        if (c.advanceInner (decodeEntities v)).delim = .spaceOrTagEnd then d :: rest
        else rest) := by
  have inside : (v ++ d :: rest).takeWhile (fun x => !c.delim.ends x) = v :=
    takeWhile_run (fun x hx => by rw [hv x hx]; rfl) (by simp [hd])
  unfold valueStep
  dsimp only
  rw [inside, List.drop_left]

/-- A text that does not end a value is read inside it. -/
theorem advance_of_open (ok : c.isError = false) (hd : c.delim ≠ .none) {v : List Char}
    (hv : ∀ x ∈ v, c.delim.ends x = false) :
    c.advance v = c.advanceInner (decodeEntities v) := by
  cases v with
  | nil => rw [advance_nil, decodeEntities, advanceInner_nil]
  | cons x xs =>
    rw [advance_cons ok, step, if_pos hd, valueStep_of_open hv, advance_nil]

/-- A text that ends a value goes on behind it. -/
theorem advance_of_closed (ok : c.isError = false) (hd : c.delim ≠ .none) {v : List Char}
    {d : Char} (hv : ∀ x ∈ v, c.delim.ends x = false) (hend : c.delim.ends d = true)
    (rest : List Char) :
    c.advance (v ++ d :: rest) =
      (c.advanceInner (decodeEntities v)).leaveAttr.advance
        (if (c.advanceInner (decodeEntities v)).delim = .spaceOrTagEnd then d :: rest
          else rest) := by
  obtain ⟨x, xs, hcons⟩ := List.exists_cons_of_ne_nil (List.append_ne_nil_of_right_ne_nil v
    (List.cons_ne_nil d rest))
  have first := advance_cons ok x xs
  rw [← hcons] at first
  rw [first, step, if_pos hd, valueStep_of_closed hv hend]

/-! ## Bodies -/

theorem not_value_of_inElementBody (hb : c.inElementBody = true) : ¬ c.delim ≠ .none := by
  unfold inElementBody at hb
  simp only [Bool.and_eq_true, beq_iff_eq] at hb
  exact fun h => h hb.1.2

/-- A text that holds no end tag is read inside the body. -/
theorem advance_of_body (ok : c.isError = false) (hb : c.inElementBody = true) {v : List Char}
    (hv : cutEndTag c.element.name.toList v = none) : c.advance v = c.advanceInner v := by
  cases v with
  | nil => rw [advance_nil, advanceInner_nil]
  | cons x xs =>
    rw [advance_cons ok, step, if_neg (not_value_of_inElementBody hb), if_pos hb, bodyStep, hv,
      advance_nil]

/-- A text that holds an end tag goes on behind it. -/
theorem advance_of_ended (ok : c.isError = false) (hb : c.inElementBody = true)
    {v cs after : List Char} (hcut : cutEndTag c.element.name.toList cs = some (v, after)) :
    c.advance cs = endTagOpened.advance after := by
  cases cs with
  | nil => cases hcut
  | cons x xs =>
    rw [advance_cons ok, step, if_neg (not_value_of_inElementBody hb), if_pos hb, bodyStep, hcut]

end Context

end Stencil.Markup
