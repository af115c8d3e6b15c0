import Stencil.Proofs.Markup.Closing
import Stencil.Proofs.Markup.CutInside
import Stencil.Proofs.Markup.Indexed.Basic

/-!
# Searches in bytes find what searches in characters find

Each search of the scan by positions, from a position of a text on, has a result, and it is the one
of the search in the characters that are left there (`Found`): nothing, or a place with what is left
behind it.

A loop that looks at one byte after another passes a character by passing its bytes (`At.pass`). The
loops that skip what a backslash escapes skip one byte, which can be the first of several; the bytes
that are left of such a character end nothing, so the loop comes to its end all the same
(`At.passEscaped`).
-/

set_option autoImplicit false

namespace Stencil.Markup

open Stencil.Text Stencil.Escape

variable {text cs : List Char} {c : Char} {i : Nat}

/-! ## Passing characters -/

/-- A function of a position stays the same over bytes that it passes. -/
theorem eq_of_passed {α : Type} {f : Nat → α} {s : List UInt8} {special : Char → Bool}
    (hf : ∀ k x, byteAt? s k = some x → special x = false → f k = f (k + 1)) {k n : Nat}
    (h : ∀ m < n, ∃ x, byteAt? s (k + m) = some x ∧ special x = false) : f k = f (k + n) := by
  induction n with
  | zero => rfl
  | succ n ih =>
    obtain ⟨x, hx, plain⟩ := h n (Nat.lt_succ_self n)
    rw [ih fun m hm => h m (Nat.lt_succ_of_lt hm), hf _ x hx plain, Nat.add_assoc]

/-- The bytes of a character. -/
theorem At.bytes (h : At text i (c :: cs)) :
    ∃ n, 0 < n ∧ (c.toNat < 0x80 → n = 1) ∧ At text (i + n) cs ∧
      ∀ m < n, ∃ x, byteAt? (utf8 text) (i + m) = some x ∧ StandsFor x c := by
  have run : At text i ([c] ++ cs) := h
  refine ⟨(utf8 [c]).length, length_utf8_pos nofun, ?_, run.forward, ?_⟩
  · intro hc
    exact length_utf8_of_ascii (List.forall_mem_singleton.mpr hc)
  · intro m hm
    have there : m < (utf8 (c :: cs)).length := by
      have := length_utf8_append [c] cs
      rw [List.singleton_append] at this
      omega
    have own : utf8 [c] = String.utf8EncodeChar c := List.flatMap_singleton ..
    refine ⟨byteChar (utf8 (c :: cs))[m], ?_, encoding_utf8.standsFor ?_⟩
    · rw [h.byteAt?_add, byteAt?, List.getElem?_eq_getElem there]
      rfl
    · have inside : (utf8 (c :: cs))[m] = (utf8 [c])[m] := by
        have whole : utf8 (c :: cs) = utf8 [c] ++ utf8 cs := utf8_append [c] cs
        simp only [whole, List.getElem_append_left hm]
      rw [inside, ← own]
      exact List.getElem_mem hm

section

variable {α : Type} {f : Nat → α} {special : Char → Bool} (ascii : Ascii special)
  (hf : ∀ k x, byteAt? (utf8 text) k = some x → special x = false → f k = f (k + 1))

include ascii hf

/-- What passes the bytes that are not special passes the characters that are not. -/
theorem At.pass (h : At text i (c :: cs)) (hc : special c = false) :
    ∃ j, f i = f j ∧ At text j cs := by
  obtain ⟨n, -, -, there, bytes⟩ := h.bytes
  refine ⟨i + n, eq_of_passed hf fun m hm => ?_, there⟩
  obtain ⟨x, hx, stands⟩ := bytes m hm
  exact ⟨x, hx, (stands.same ascii.flat).trans hc⟩

/-- What skips one byte behind a character of ASCII skips the next character. -/
theorem At.passEscaped {escape : Char} (hescape : escape.toNat < 0x80)
    (h : At text i (escape :: c :: cs)) : ∃ j, f (i + 2) = f j ∧ At text j cs := by
  obtain ⟨n, positive, single, there, bytes⟩ := (h.next hescape).bytes
  by_cases hc : c.toNat < 0x80
  · rw [single hc] at there
    exact ⟨i + 2, rfl, there⟩
  · refine ⟨i + 1 + n, ?_, there⟩
    have rest : f (i + 2) = f (i + 2 + (n - 1)) := eq_of_passed hf fun m hm => by
      obtain ⟨x, hx, stands⟩ := bytes (m + 1) (by omega)
      refine ⟨x, by rw [← hx]; congr 1; omega, ascii.outside ?_⟩
      rcases stands with ⟨rfl, low⟩ | ⟨high, -⟩
      · exact absurd low hc
      · exact high
    rw [rest]
    congr 1
    omega

end

/-! ## End tags in characters -/

/-- No end tag starts where its two signs do not. -/
theorem endTag?_eq_none_of_not_opening {name cs : List Char}
    (h : ¬ ['<', '/'].isPrefixOf cs = true) :
    endTag? name cs = none := by
  unfold endTag?
  split
  · exact absurd (by simp) h
  · rfl

theorem cutEndTag_of_endTag? {name cs after : List Char} (h : endTag? name cs = some after) :
    cutEndTag name cs = some ([], after) := by
  cases cs with
  | nil => cases h
  | cons c cs =>
    unfold cutEndTag
    rw [h]

theorem cutEndTag_cons {name cs : List Char} {c : Char} (h : endTag? name (c :: cs) = none) :
    cutEndTag name (c :: cs) = (cutEndTag name cs).map fun parts => (c :: parts.1, parts.2) := by
  rw [cutEndTag]
  rw [h]

/-- Without its two signs there is no end tag. -/
theorem cutEndTag_of_cut_eq_none {name cs : List Char} (h : cut ['<', '/'] cs = none) :
    cutEndTag name cs = none := by
  induction cs with
  | nil => rfl
  | cons c cs ih =>
    rw [cut] at h
    split at h
    · cases h
    · next hother =>
      rw [cutEndTag_cons (endTag?_eq_none_of_not_opening hother),
        ih (Option.map_eq_none_iff.mp h)]
      rfl

/-- What stands before the two signs is passed. -/
theorem cutEndTag_of_cut {name cs before after : List Char}
    (h : cut ['<', '/'] cs = some (before, after)) :
    cutEndTag name cs = (cutEndTag name ('<' :: '/' :: after)).map fun parts =>
      (before ++ parts.1, parts.2) := by
  induction cs generalizing before with
  | nil => cases h
  | cons c cs ih =>
    rw [cut] at h
    split at h
    · next hprefix =>
      cases h
      obtain ⟨tail, hrest⟩ := List.isPrefixOf_iff_prefix.mp hprefix
      rw [← hrest]
      exact (Option.map_id' ..).symm
    · next hother =>
      obtain ⟨⟨b, a⟩, hba, heq⟩ := Option.map_eq_some_iff.mp h
      cases heq
      rw [cutEndTag_cons (endTag?_eq_none_of_not_opening hother), ih hba, Option.map_map]
      rfl

/-- If the two signs start no end tag, the first one is behind them. -/
theorem cutEndTag_of_not_named {name after : List Char}
    (other : endTag? name ('<' :: '/' :: after) = none) :
    cutEndTag name ('<' :: '/' :: after) = (cutEndTag name after).map fun parts =>
      ('<' :: '/' :: parts.1, parts.2) := by
  have slash : endTag? name ('/' :: after) = none := endTag?_eq_none_of_not_opening (by simp)
  rw [cutEndTag_cons other, cutEndTag_cons slash, Option.map_map]
  rfl

/-- What is a name in lower case is as long as the name. -/
theorem At.named {name : List Char} (ascii : ∀ x ∈ name, x.toNat < 0x80) (h : At text i cs)
    (hname : (cs.take name.length).map lower = name) :
    At text (i + name.length) (cs.drop name.length) := by
  have run : ∀ c ∈ cs.take name.length, c.toNat < 0x80 := by
    intro c hc
    have lowered := ascii _ (hname ▸ List.mem_map_of_mem hc)
    by_contra high
    have := le_toNat_lower (x := c) (by omega)
    omega
  have size : (cs.take name.length).length = name.length := by
    rw [← List.length_map lower, hname]
  rw [← List.take_append_drop name.length cs] at h
  have := h.forward_ascii run
  rwa [size] at this

namespace Indexed

/-! ## What a search comes to -/

/-- A search in bytes finds an ending of `size` bytes where a search in characters finds one, and
what is left of the text behind it is the same. -/
inductive Found (text : List Char) (size : Nat) : Option Nat → Option (List Char) → Prop where
  | none : Found text size none none
  | some {k : Nat} {rest : List Char} : At text (k + size) rest →
      Found text size (some k) (some rest)

/-- A step over bytes has a result, and it comes to where a step over characters comes. -/
def Comes (text : List Char) (result : Checked (Context × Nat)) (next : Context × List Char) :
    Prop :=
  ∃ j, result = some (next.1, j) ∧ At text j next.2

/-- What is read from bytes and from characters: nothing from both, or the same up to the same
place. -/
inductive Reads {α : Type} (text : List Char) :
    Option (α × Nat) → Option (α × List Char) → Prop where
  | none : Reads text none none
  | some {a : α} {j : Nat} {rest : List Char} : At text j rest →
      Reads text (some (a, j)) (some (a, rest))

variable {p : Char → Bool}

/-- A step that goes behind what a search finds, or stays to the end of the text. -/
theorem leave_comes {size : Nat} {search : Checked (Option Nat)} {ending : Option (List Char)}
    (h : ∃ k, search = some k ∧ Found text size k ending) (c next : Context) :
    Comes text (do return Indexed.leave c (utf8 text) (← search) size next)
      (c.leave ending next) := by
  obtain ⟨k, rfl, found⟩ := h
  cases found with
  | none => exact ⟨_, rfl, .ending text⟩
  | some there => exact ⟨_, rfl, there⟩

/-- A search for a character comes to nothing, or to the end of the run before it. -/
theorem findByte_cases (h : At text i cs) (hp : Flat p) :
    findByte (utf8 text) i p = some none ∧ cs.dropWhile (fun x => !p x) = [] ∨
    ∃ x rest, cs.dropWhile (fun x => !p x) = x :: rest ∧ p x = true ∧
      findByte (utf8 text) i p = some (some (i + (utf8 (cs.takeWhile fun x => !p x)).length)) ∧
      At text (i + (utf8 (cs.takeWhile fun x => !p x)).length) (x :: rest) := by
  rw [findByte, h.from?_eq]
  rcases h.position hp with ⟨found, hrest⟩ | ⟨x, rest, hrest, hx, found, there⟩
  · refine .inl ⟨?_, hrest⟩
    simp only [Option.bind_eq_bind, Option.bind_some, found]
    rfl
  · refine .inr ⟨x, rest, hrest, hx, ?_, there⟩
    simp only [Option.bind_eq_bind, Option.bind_some, found]
    rfl

/-- The bytes up to what a search for a character comes to. -/
theorem findByte_slice (h : At text i cs) (hp : Flat p) :
    ∃ ending, findByte (utf8 text) i p = some ending ∧
      slice? (utf8 text) i (ending.getD (utf8 text).length) =
        some (utf8 (cs.takeWhile fun x => !p x)) := by
  have whole := List.takeWhile_append_dropWhile (p := fun x => !p x) (l := cs)
  rcases findByte_cases h hp with ⟨found, hrest⟩ | ⟨x, rest, hrest, hx, found, there⟩
  · refine ⟨none, found, ?_⟩
    rw [hrest, List.append_nil] at whole
    rw [whole]
    exact h.from?_eq
  · have run : At text i ((cs.takeWhile fun x => !p x) ++ cs.dropWhile fun x => !p x) := by
      rwa [whole]
    exact ⟨_, found, run.slice?_eq⟩

/-! ## Patterns -/

section

variable {pattern : List Char} (ascii : ∀ x ∈ pattern, x.toNat < 0x80)

include ascii

/-- Bytes start with a pattern of ASCII where their characters do. -/
theorem startsWith_utf8 (cs : List Char) :
    startsWith pattern (utf8 cs) = pattern.isPrefixOf cs := by
  have taken : ((utf8 cs).take pattern.length).map byteChar = pattern ↔
      (cs.take pattern.length).map (fun x => x) = pattern :=
    encoding_utf8.map_take ascii (fun _ h => h) cs
  rw [Bool.eq_iff_iff, startsWith, beq_iff_eq, List.isPrefixOf_iff_prefix,
    List.prefix_iff_eq_take, taken, List.map_id', eq_comm]

/-- A pattern of ASCII is found in the bytes of a text where it is found in the text. -/
theorem windowAt?_utf8 (nonempty : pattern ≠ []) (cs : List Char) :
    windowAt? pattern (utf8 cs) = (cut pattern cs).map fun parts => (utf8 parts.1).length := by
  -- no byte outside of ASCII starts the pattern
  have pass (bs tail : List UInt8) (high : ∀ b ∈ bs, 0x80 ≤ b.toNat) :
      windowAt? pattern (bs ++ tail) = (windowAt? pattern tail).map (· + bs.length) := by
    obtain ⟨x, rest, rfl⟩ := List.exists_cons_of_ne_nil nonempty
    induction bs with
    | nil => simp
    | cons b bs ih =>
      obtain ⟨hb, hbs⟩ := List.forall_mem_cons.mp high
      have other : startsWith (x :: rest) (b :: (bs ++ tail)) = false := by
        have first : byteChar b ≠ x := by
          rintro rfl
          have := ascii _ List.mem_cons_self
          rw [byteChar, toNat_ofNat_byte] at this
          omega
        rw [startsWith, List.length_cons, List.take_succ_cons, List.map_cons, List.cons_beq_cons,
          beq_false_of_ne first, Bool.false_and]
      rw [List.cons_append, windowAt?, other, if_neg Bool.false_ne_true, ih hbs, Option.map_map]
      rfl
  induction cs with
  | nil =>
    rw [cut, if_neg nonempty]
    rfl
  | cons c cs ih =>
    have whole : startsWith pattern (utf8 (c :: cs)) = pattern.isPrefixOf (c :: cs) :=
      startsWith_utf8 ascii (c :: cs)
    rw [cut]
    by_cases hc : c.toNat < 0x80
    · rw [utf8_cons, encoding_utf8.ascii hc, List.singleton_append] at whole ⊢
      rw [windowAt?, whole, ih]
      split
      · rfl
      · rw [Option.map_map, Option.map_map]
        congr 1
        funext parts
        have : (utf8 (c :: parts.1)).length = 1 + (utf8 parts.1).length := by
          rw [utf8_cons, encoding_utf8.ascii hc, List.length_append]
          rfl
        simp only [Function.comp_apply]
        omega
    · have other : pattern.isPrefixOf (c :: cs) = false := by
        obtain ⟨x, rest, rfl⟩ := List.exists_cons_of_ne_nil nonempty
        have first : x ≠ c := by
          rintro rfl
          exact hc (ascii _ List.mem_cons_self)
        rw [List.isPrefixOf_cons_cons, beq_false_of_ne first, Bool.false_and]
      rw [other, if_neg Bool.false_ne_true, utf8_cons,
        pass _ _ fun b hb => encoding_utf8.high (by omega) hb, ih, Option.map_map, Option.map_map]
      congr 1
      funext parts
      rw [Function.comp_apply, Function.comp_apply, utf8_cons, List.length_append, Nat.add_comm]

variable (pattern) in
theorem findPattern_cases (nonempty : pattern ≠ []) (h : At text i cs) :
    findPattern (utf8 text) i pattern = some none ∧ cut pattern cs = none ∨
    ∃ before after, cut pattern cs = some (before, after) ∧
      findPattern (utf8 text) i pattern = some (some (i + (utf8 before).length)) ∧
      At text (i + (utf8 before).length) (pattern ++ after) := by
  rw [findPattern, h.from?_eq]
  simp only [Option.bind_eq_bind, Option.bind_some, windowAt?_utf8 ascii nonempty]
  cases hcut : cut pattern cs with
  | none => exact .inl ⟨rfl, rfl⟩
  | some parts =>
    obtain ⟨before, after⟩ := parts
    refine .inr ⟨before, after, rfl, rfl, ?_⟩
    rw [eq_of_cut hcut, List.append_assoc] at h
    exact h.forward

variable (pattern) in
theorem findPattern_found (nonempty : pattern ≠ []) (h : At text i cs) :
    ∃ k, findPattern (utf8 text) i pattern = some k ∧
      Found text pattern.length k (after? pattern cs) := by
  unfold after?
  rcases findPattern_cases pattern ascii nonempty h with
    ⟨found, hcut⟩ | ⟨before, after, hcut, found, there⟩
  · rw [hcut]
    exact ⟨none, found, .none⟩
  · rw [hcut]
    exact ⟨_, found, .some (there.forward_ascii ascii)⟩

end

/-- What follows a character for the first time. -/
theorem after?_singleton (x : Char) (cs : List Char) :
    after? [x] cs = (cs.dropWhile fun y => !(y == x)).tail? := by
  unfold after?
  induction cs with
  | nil => rfl
  | cons c cs ih =>
    rw [cut]
    by_cases hc : c = x
    · subst hc
      simp
    · have other : [x].isPrefixOf (c :: cs) = false := by
        rw [List.isPrefixOf_cons_cons, beq_false_of_ne (Ne.symm hc), Bool.false_and]
      rw [other, if_neg Bool.false_ne_true, Option.map_map,
        List.dropWhile_cons_of_pos (by simp [hc]), ← ih]
      rfl

/-- The search for one character is a search for a pattern. -/
theorem findByte_found {x : Char} (hx : x.toNat < 0x80) (h : At text i cs) :
    ∃ k, findByte (utf8 text) i (· == x) = some k ∧ Found text 1 k (after? [x] cs) := by
  rw [after?_singleton]
  rcases findByte_cases h (ascii_beq hx).flat with
    ⟨found, hrest⟩ | ⟨y, rest, hrest, hy, found, there⟩
  · rw [hrest]
    exact ⟨none, found, .none⟩
  · rw [beq_iff_eq] at hy
    subst hy
    rw [hrest]
    exact ⟨_, found, .some (there.next hx)⟩

/-! ## End tags -/

section

variable {name : List Char} (ascii : ∀ x ∈ name, x.toNat < 0x80)

include ascii

/-- The bytes behind the two signs of an end tag are looked at as its characters are. -/
theorem namedAt_eq (h : At text i cs) :
    namedAt (utf8 text) name i = some (endTag? name ('<' :: '/' :: cs)).isSome := by
  have spelled := encoding_utf8.map_take ascii (fun _ => le_toNat_lower) cs
  have length := h.length_eq
  rw [endTag?_cons_cons, namedAt]
  split
  · next inside =>
    have found : slice? (utf8 text) i (i + name.length) = some ((utf8 cs).take name.length) := by
      rw [slice?, if_pos ⟨Nat.le_add_right .., inside⟩, h.drop, Nat.add_sub_cancel_left]
    have whole : (((utf8 cs).take name.length).map byteChar).map lower = name ↔
        (cs.take name.length).map lower = name := by
      rw [List.map_map]
      exact spelled
    rw [found]
    simp only [Option.bind_eq_bind, Option.bind_some]
    by_cases hname : (cs.take name.length).map lower = name
    · rw [(h.named ascii hname).byteAt?_any ascii_isTagNamePart.flat, hname,
        whole.mpr hname, beq_self_eq_true, Bool.true_and]
      cases (cs.drop name.length).head?.any isTagNamePart with
      | false => simp
      | true => simp
    · rw [if_neg fun both => hname both.1, beq_false_of_ne fun same => hname (whole.mp same),
        Bool.false_and]
      rfl
  · next outside =>
    have other : ¬ (cs.take name.length).map lower = name := by
      intro hname
      have := (h.named ascii hname).length_eq
      omega
    rw [if_neg fun both => other both.1]
    rfl

theorem after_of_endTag? {after : List Char} (h : At text i cs)
    (named : endTag? name ('<' :: '/' :: cs) = some after) : At text (i + name.length) after := by
  rw [endTag?_cons_cons] at named
  split at named
  · next both =>
    cases named
    exact h.named ascii both.1
  · cases named

theorem findEndTag_cases (h : At text i cs) :
    findEndTag (utf8 text) name i = some none ∧ cutEndTag name cs = none ∨
    ∃ before after, cutEndTag name cs = some (before, after) ∧
      before <+: cs ∧
      findEndTag (utf8 text) name i = some (some (i + (utf8 before).length)) ∧
      At text (i + (utf8 before).length + (2 + name.length)) after := by
  induction hn : cs.length using Nat.strongRecOn generalizing i cs with
  | _ n ih =>
    rw [findEndTag]
    rcases findPattern_cases ['<', '/'] (ascii_of_all (by decide)) nofun h with
      ⟨found, hcut⟩ | ⟨before, after, hcut, found, there⟩
    · rw [found]
      exact .inl ⟨rfl, cutEndTag_of_cut_eq_none hcut⟩
    · have behind : At text (i + (utf8 before).length + 2) after := there.forward_ascii (by simp)
      have whole := eq_of_cut hcut
      rw [found, cutEndTag_of_cut hcut]
      simp only [Option.bind_eq_bind, Option.bind_some, namedAt_eq ascii behind]
      cases named : endTag? name ('<' :: '/' :: after) with
      | some rest =>
        refine .inr ⟨before, rest, ?_, ?_, rfl, ?_⟩
        · rw [cutEndTag_of_endTag? named]
          simp
        · rw [whole, List.append_assoc]
          exact List.prefix_append ..
        · rw [← Nat.add_assoc]
          exact after_of_endTag? ascii behind named
      | none =>
        have shorter : after.length < n := by
          have := length_of_cut hcut
          simp only [List.length_cons] at this
          omega
        rcases ih _ shorter behind rfl with
          ⟨found, hnone⟩ | ⟨inner, rest, hrest, hprefix, found, there⟩
        · refine .inl ⟨found, ?_⟩
          rw [cutEndTag_of_not_named named, hnone]
          rfl
        · have size : (utf8 (before ++ '<' :: '/' :: inner)).length =
              (utf8 before).length + 2 + (utf8 inner).length := by
            have signs : (utf8 ['<', '/']).length = 2 := rfl
            have := length_utf8_append ['<', '/'] inner
            have := length_utf8_append before ('<' :: '/' :: inner)
            simp only [List.cons_append, List.nil_append] at *
            omega
          refine .inr ⟨before ++ '<' :: '/' :: inner, rest, ?_, ?_, ?_, ?_⟩
          · rw [cutEndTag_of_not_named named, hrest]
            rfl
          · rw [whole, List.append_assoc]
            obtain ⟨tail, rfl⟩ := hprefix
            exact ⟨tail, by simp⟩
          · rw [size]
            have place : i + ((utf8 before).length + 2 + (utf8 inner).length) =
                i + (utf8 before).length + 2 + (utf8 inner).length := by omega
            rw [place]
            exact found
          · rw [size]
            have place : i + ((utf8 before).length + 2 + (utf8 inner).length) + (2 + name.length) =
                i + (utf8 before).length + 2 + (utf8 inner).length + (2 + name.length) := by omega
            rw [place]
            exact there

end

/-! ## Endings that a backslash escapes -/

theorem lt_of_byteAt? {s : List UInt8} {k : Nat} {x : Char} (h : byteAt? s k = some x) :
    k < s.length := by
  obtain ⟨b, hb, -⟩ := Option.map_eq_some_iff.mp h
  exact (List.getElem?_eq_some_iff.mp hb).1

theorem findQuote_of_le {s : List UInt8} {quote : Char} {k : Nat} (h : s.length ≤ k) :
    findQuote s quote k = some none := by
  rw [findQuote, if_neg (by omega)]
  rfl

theorem findQuote_of_byteAt? {s : List UInt8} {quote x : Char} {k : Nat}
    (h : byteAt? s k = some x) :
    findQuote s quote k =
      if x = '\\' then findQuote s quote (k + 2)
      else if x = quote then some (some k)
      else findQuote s quote (k + 1) := by
  rw [findQuote, if_pos (lt_of_byteAt? h), h]
  rfl

/-- The search for a quote at the first byte of a character. -/
theorem findQuote_at {quote : Char} (hq : quote.toNat < 0x80) (h : At text i (c :: cs)) :
    findQuote (utf8 text) quote i =
      if c = '\\' then findQuote (utf8 text) quote (i + 2)
      else if c = quote then some (some i)
      else findQuote (utf8 text) quote (i + 1) := by
  obtain ⟨x, hx, stands⟩ := h.byteAt?_cons
  have backslash : x = '\\' ↔ c = '\\' := stands.eq_iff (by decide)
  simp only [findQuote_of_byteAt? hx, backslash, stands.eq_iff hq]

/-- The characters at which a search for a quote does anything but go on. -/
def isQuoteSign (quote x : Char) : Bool := x == '\\' || x == quote

theorem findQuote_found {quote : Char} (hq : quote.toNat < 0x80) (h : At text i cs) :
    ∃ k, findQuote (utf8 text) quote i = some k ∧ Found text 1 k (afterQuote? quote cs) := by
  have ascii : Ascii (isQuoteSign quote) := (ascii_beq (by decide)).or (ascii_beq hq)
  have passes : ∀ k x, byteAt? (utf8 text) k = some x → isQuoteSign quote x = false →
      findQuote (utf8 text) quote k = findQuote (utf8 text) quote (k + 1) := by
    intro k x hx plain
    simp only [isQuoteSign, Bool.or_eq_false_iff, beq_eq_false_iff_ne] at plain
    rw [findQuote_of_byteAt? hx, if_neg plain.1, if_neg plain.2]
  fun_induction afterQuote? quote cs generalizing i with
  | case1 => exact ⟨none, findQuote_of_le (Nat.le_of_eq h.eq_end.symm), .none⟩
  | case2 =>
    -- the backslash is the last byte, and the search goes on behind the text
    have hend := (h.next (by decide)).eq_end
    refine ⟨none, ?_, .none⟩
    rw [findQuote_at hq h, if_pos rfl, findQuote_of_le (by omega)]
  | case3 y rest ih =>
    obtain ⟨j, same, there⟩ := h.passEscaped ascii passes (by decide)
    rw [findQuote_at hq h, if_pos rfl, same]
    exact ih there
  | case4 rest last pair =>
    refine ⟨some i, ?_, .some (h.next hq)⟩
    rw [findQuote_at hq h, if_neg (ne_backslash last pair), if_pos rfl]
  | case5 y rest last pair hother ih =>
    have plain : isQuoteSign quote y = false := by
      rw [isQuoteSign, beq_false_of_ne (ne_backslash last pair), beq_false_of_ne hother]
      rfl
    obtain ⟨j, same, there⟩ := h.pass ascii passes plain
    rw [same]
    exact ih there

theorem findRegexpEnd_of_le {s : List UInt8} {inClass : Bool} {k : Nat} (h : s.length ≤ k) :
    findRegexpEnd s inClass k = some none := by
  rw [findRegexpEnd, if_neg (by omega)]
  rfl

theorem findRegexpEnd_of_byteAt? {s : List UInt8} {inClass : Bool} {x : Char} {k : Nat}
    (h : byteAt? s k = some x) :
    findRegexpEnd s inClass k =
      if x = '\\' then findRegexpEnd s inClass (k + 2)
      else if x = '[' then findRegexpEnd s true (k + 1)
      else if x = ']' then findRegexpEnd s false (k + 1)
      else if x = '/' ∧ inClass = false then some (some k)
      else findRegexpEnd s inClass (k + 1) := by
  rw [findRegexpEnd, if_pos (lt_of_byteAt? h), h]
  rfl

/-- The search for the end of a regular expression at the first byte of a character. -/
theorem findRegexpEnd_at {inClass : Bool} (h : At text i (c :: cs)) :
    findRegexpEnd (utf8 text) inClass i =
      if c = '\\' then findRegexpEnd (utf8 text) inClass (i + 2)
      else if c = '[' then findRegexpEnd (utf8 text) true (i + 1)
      else if c = ']' then findRegexpEnd (utf8 text) false (i + 1)
      else if c = '/' ∧ inClass = false then some (some i)
      else findRegexpEnd (utf8 text) inClass (i + 1) := by
  obtain ⟨x, hx, stands⟩ := h.byteAt?_cons
  have backslash : x = '\\' ↔ c = '\\' := stands.eq_iff (by decide)
  have opening : x = '[' ↔ c = '[' := stands.eq_iff (by decide)
  have closing : x = ']' ↔ c = ']' := stands.eq_iff (by decide)
  have slash : x = '/' ↔ c = '/' := stands.eq_iff (by decide)
  simp only [findRegexpEnd_of_byteAt? hx, backslash, opening, closing, slash]

/-- The characters at which a search for the end of a regular expression does anything but go on. -/
def isRegexpSign (inClass : Bool) (x : Char) : Bool :=
  x == '\\' || x == '[' || x == ']' || (x == '/' && !inClass)

theorem ascii_isRegexpSign (inClass : Bool) : Ascii (isRegexpSign inClass) := by
  intro x hx
  simp only [isRegexpSign, Bool.or_eq_true, Bool.and_eq_true, beq_iff_eq] at hx
  rcases hx with ((rfl | rfl) | rfl) | ⟨rfl, -⟩
  all_goals decide

theorem findRegexpEnd_found {inClass : Bool} (h : At text i cs) :
    ∃ k, findRegexpEnd (utf8 text) inClass i = some k ∧
      Found text 1 k (afterRegexp? inClass cs) := by
  have passes (inClass : Bool) :
      ∀ k x, byteAt? (utf8 text) k = some x → isRegexpSign inClass x = false →
        findRegexpEnd (utf8 text) inClass k = findRegexpEnd (utf8 text) inClass (k + 1) := by
    intro k x hx plain
    simp only [isRegexpSign, Bool.or_eq_false_iff, beq_eq_false_iff_ne] at plain
    obtain ⟨⟨⟨hback, hopen⟩, hclose⟩, hslash⟩ := plain
    have inside : ¬ (x = '/' ∧ inClass = false) := by
      rintro ⟨rfl, rfl⟩
      cases hslash
    rw [findRegexpEnd_of_byteAt? hx, if_neg hback, if_neg hopen, if_neg hclose, if_neg inside]
  fun_induction afterRegexp? inClass cs generalizing i with
  | case1 => exact ⟨none, findRegexpEnd_of_le (Nat.le_of_eq h.eq_end.symm), .none⟩
  | case2 =>
    have hend := (h.next (by decide)).eq_end
    refine ⟨none, ?_, .none⟩
    rw [findRegexpEnd_at h, if_pos rfl, findRegexpEnd_of_le (by omega)]
  | case3 inClass y rest ih =>
    obtain ⟨j, same, there⟩ := h.passEscaped (ascii_isRegexpSign _) (passes inClass) (by decide)
    rw [findRegexpEnd_at h, if_pos rfl, same]
    exact ih there
  | case4 inClass rest last pair ih =>
    rw [findRegexpEnd_at h, if_neg (by decide), if_pos rfl]
    exact ih (h.next (by decide))
  | case5 inClass rest last pair hopen ih =>
    rw [findRegexpEnd_at h, if_neg (by decide), if_neg hopen, if_pos rfl]
    exact ih (h.next (by decide))
  | case6 inClass y rest last pair hopen hclose hend =>
    obtain ⟨rfl, rfl⟩ := hend
    refine ⟨some i, ?_, .some (h.next (by decide))⟩
    rw [findRegexpEnd_at h, if_neg (by decide), if_neg hopen, if_neg hclose, if_pos ⟨rfl, rfl⟩]
  | case7 inClass y rest last pair hopen hclose hother ih =>
    have plain : isRegexpSign inClass y = false := by
      have inside : (y == '/' && !inClass) = false := by
        rw [← Bool.not_eq_true, Bool.and_eq_true, beq_iff_eq, Bool.not_eq_true']
        exact hother
      rw [isRegexpSign, beq_false_of_ne (ne_backslash last pair), beq_false_of_ne hopen,
        beq_false_of_ne hclose, inside]
      rfl
    obtain ⟨j, same, there⟩ := h.pass (ascii_isRegexpSign _) (passes inClass) plain
    rw [same]
    exact ih there

end Indexed

end Stencil.Markup
