import Stencil.Markup.Advance
import Stencil.Proofs.Escape.Percent

/-!
# Texts as bytes

A scan of markup tests bytes for characters of ASCII and for classes that take all other characters
alike (`Flat`). No byte of a character outside of ASCII is one of ASCII, so such a test finds in the
bytes of a text what it finds in its characters: the same runs (`Encoding.takeWhile`), the same
first place (`At.position`), the same patterns (`windowAt?_utf8`).

`At text i cs` says that the characters `cs` are what is left of a text from byte `i` on. Positions
of this kind lie in the text and between two characters; from one of them every slice up to a later
one exists (`At.slice?_eq`), and a byte that is looked at tells what its character is
(`At.byteAt?_cons`).
-/

set_option autoImplicit false

namespace Stencil.Markup

open Stencil.Text Stencil.Escape

/-! ## Classes of characters and of bytes -/

/-- A byte, read as the character with its number. -/
def byteChar (b : UInt8) : Char := Char.ofNat b.toNat

/-- A class takes all characters outside of ASCII alike. -/
def Flat (p : Char → Bool) : Prop :=
  ∀ c d : Char, 0x80 ≤ c.toNat → 0x80 ≤ d.toNat → p c = p d

/-- `x` is read where a byte of `c` stands: in ASCII the character itself, and otherwise some
character outside of ASCII. -/
def StandsFor (x c : Char) : Prop :=
  x = c ∧ c.toNat < 0x80 ∨ 0x80 ≤ x.toNat ∧ 0x80 ≤ c.toNat

variable {p q : Char → Bool} {c x y : Char}

/-- A class holds characters of ASCII alone. -/
def Ascii (p : Char → Bool) : Prop := ∀ c, p c = true → c.toNat < 0x80

theorem Ascii.outside (h : Ascii p) (hc : 0x80 ≤ c.toNat) : p c = false := by
  rw [← Bool.not_eq_true]
  intro hp
  have := h c hp
  omega

theorem Ascii.flat (h : Ascii p) : Flat p := by
  intro c d hc hd
  rw [h.outside hc, h.outside hd]

theorem Ascii.or (h : Ascii p) (g : Ascii q) : Ascii fun c => p c || q c :=
  fun c hc => (Bool.or_eq_true_iff.mp hc).elim (h c) (g c)

theorem ascii_beq (hx : x.toNat < 0x80) : Ascii (· == x) :=
  fun _ h => (beq_iff_eq.mp h) ▸ hx

theorem ascii_of_all {cs : List Char} (h : (cs.all fun c => decide (c.toNat < 0x80)) = true) :
    ∀ c ∈ cs, c.toNat < 0x80 :=
  fun _ hc => prop_of_mem hc h

theorem Flat.not (h : Flat p) : Flat fun c => !p c :=
  fun c d hc hd => congrArg Bool.not (h c d hc hd)

theorem StandsFor.same (h : StandsFor x c) (hp : Flat p) : p x = p c := by
  rcases h with ⟨rfl, -⟩ | ⟨hx, hc⟩
  · rfl
  · exact hp x c hx hc

theorem StandsFor.eq_iff (h : StandsFor x c) (hy : y.toNat < 0x80) : x = y ↔ c = y := by
  have same := h.same (ascii_beq hy).flat
  rw [← beq_iff_eq, same, beq_iff_eq]

/-! ## The classes of a scan -/

theorem ascii_isAlphanumeric : Ascii isAlphanumeric := by
  intro c hc
  have := bounds_of_isAlphanumeric hc
  omega

theorem ascii_isLetter : Ascii isLetter := by
  intro c hc
  exact ascii_isAlphanumeric c (Bool.or_eq_true_iff.mpr (.inl hc))

theorem ascii_isDigit : Ascii isDigit := by
  intro c hc
  exact ascii_isAlphanumeric c (Bool.or_eq_true_iff.mpr (.inr hc))

theorem ascii_isHexDigit : Ascii Numeral.isHexDigit := by
  intro c hc
  exact ascii_isAlphanumeric c (isAlphanumeric_of_isHexDigit hc)

theorem ascii_isSpace : Ascii isSpace := by
  intro c hc
  simp only [isSpace, Bool.or_eq_true, beq_iff_eq] at hc
  rcases hc with (((rfl | rfl) | rfl) | rfl) | rfl
  all_goals decide

theorem ascii_isTagNamePart : Ascii isTagNamePart :=
  ((ascii_isAlphanumeric.or (ascii_beq (by decide))).or (ascii_beq (by decide))).or
    (ascii_beq (by decide))

theorem ascii_isTagFiller : Ascii isTagFiller :=
  ascii_isSpace.or (ascii_beq (by decide))

theorem flat_isAttrNamePart : Flat isAttrNamePart :=
  Flat.not (Ascii.flat (((ascii_isSpace.or (ascii_beq (by decide))).or
    (ascii_beq (by decide))).or (ascii_beq (by decide))))

theorem ascii_isScriptNamePart : Ascii isScriptNamePart :=
  (ascii_isAlphanumeric.or (ascii_beq (by decide))).or (ascii_beq (by decide))

theorem ascii_isStyleNamePart : Ascii isStyleNamePart :=
  (ascii_isAlphanumeric.or (ascii_beq (by decide))).or (ascii_beq (by decide))

theorem ascii_startsScriptPart : Ascii startsScriptPart :=
  (((ascii_beq (by decide)).or (ascii_beq (by decide))).or (ascii_beq (by decide))).or
    (ascii_beq (by decide))

theorem Delim.ascii_ends : ∀ d : Delim, Ascii d.ends
  | .none => nofun
  | .doubleQuote => ascii_beq (by decide)
  | .singleQuote => ascii_beq (by decide)
  | .spaceOrTagEnd => ascii_isSpace.or (ascii_beq (by decide))

/-- Lower case makes no character one of ASCII. -/
theorem le_toNat_lower {x : Char} (hx : 0x80 ≤ x.toNat) : 0x80 ≤ (lower x).toNat := by
  have kept : ¬ ('A' ≤ x ∧ x ≤ 'Z') := by
    rintro ⟨-, hle⟩
    have : x.toNat ≤ 'Z'.toNat := hle
    exact absurd (Nat.le_trans hx this) (by decide)
  rwa [lower, if_neg kept]

/-! ## Encodings -/

/-- A way to write characters as bytes, with each character of ASCII as its number and all others in
bytes above those. -/
structure Encoding (e : Char → List UInt8) : Prop where
  ascii {c : Char} : c.toNat < 0x80 → e c = [UInt8.ofNat c.toNat]
  ne_nil (c : Char) : e c ≠ []
  high {c : Char} {b : UInt8} : 0x80 ≤ c.toNat → b ∈ e c → 0x80 ≤ b.toNat

theorem encoding_utf8 : Encoding String.utf8EncodeChar where
  ascii := utf8EncodeChar_of_lt
  ne_nil _ := String.utf8EncodeChar_ne_nil
  high := le_of_mem_utf8EncodeChar

namespace Encoding

variable {e : Char → List UInt8} (he : Encoding e)

include he

/-- Read from behind, bytes are still those of an encoding. -/
theorem reversed : Encoding fun c => (e c).reverse where
  ascii hc := by rw [he.ascii hc, List.reverse_singleton]
  ne_nil c := fun h => he.ne_nil c (List.reverse_eq_nil_iff.mp h)
  high hc hb := he.high hc (List.mem_reverse.mp hb)

theorem standsFor {b : UInt8} (hb : b ∈ e c) : StandsFor (byteChar b) c := by
  by_cases hc : c.toNat < 0x80
  · rw [he.ascii hc, List.mem_singleton] at hb
    subst hb
    exact .inl ⟨ofNat_toNat_of_lt hc, hc⟩
  · have := he.high (by omega) hb
    exact .inr ⟨by rwa [byteChar, toNat_ofNat_byte], by omega⟩

/-- A run of a class is a run of the bytes that it takes. -/
theorem takeWhile (hp : Flat p) (cs : List Char) :
    (cs.flatMap e).takeWhile (fun b => p (byteChar b)) = (cs.takeWhile p).flatMap e := by
  induction cs with
  | nil => rfl
  | cons c cs ih =>
    rw [List.flatMap_cons]
    by_cases hc : p c = true
    · have all : ∀ b ∈ e c, p (byteChar b) = true := fun b hb =>
        ((he.standsFor hb).same hp).trans hc
      rw [List.takeWhile_append_of_pos all, ih, List.takeWhile_cons_of_pos hc, List.flatMap_cons]
    · obtain ⟨b, bs, hb⟩ := List.exists_cons_of_ne_nil (he.ne_nil c)
      have first : ¬ p (byteChar b) = true := by
        rwa [(he.standsFor (hb ▸ List.mem_cons_self)).same hp]
      rw [hb, List.cons_append, List.takeWhile_cons, if_neg first, List.takeWhile_cons_of_neg hc]
      rfl

/-- What is behind a run of a class are the bytes of what is behind it. -/
theorem dropWhile (hp : Flat p) (cs : List Char) :
    (cs.flatMap e).dropWhile (fun b => p (byteChar b)) = (cs.dropWhile p).flatMap e := by
  have whole := List.takeWhile_append_dropWhile (p := fun b => p (byteChar b)) (l := cs.flatMap e)
  have split := congrArg (List.flatMap e) (List.takeWhile_append_dropWhile (p := p) (l := cs))
  rw [List.flatMap_append] at split
  rw [he.takeWhile hp] at whole
  exact List.append_cancel_left (whole.trans split.symm)

theorem any (hp : Flat p) (cs : List Char) :
    (cs.flatMap e).any (fun b => p (byteChar b)) = cs.any p := by
  rw [List.any_flatMap]
  congr 1
  funext c
  obtain ⟨b, bs, hb⟩ := List.exists_cons_of_ne_nil (he.ne_nil c)
  have each : ∀ b ∈ e c, p (byteChar b) = p c := fun b hb => (he.standsFor hb).same hp
  rw [Bool.eq_iff_iff, List.any_eq_true]
  constructor
  · rintro ⟨b, hb, h⟩
    rwa [each b hb] at h
  · intro h
    exact ⟨b, hb ▸ List.mem_cons_self, by rwa [each b (hb ▸ List.mem_cons_self)]⟩

/-- The bytes of a text in ASCII are its characters. -/
theorem map_byteChar {cs : List Char} (h : ∀ c ∈ cs, c.toNat < 0x80) :
    (cs.flatMap e).map byteChar = cs := by
  induction cs with
  | nil => rfl
  | cons c cs ih =>
    obtain ⟨hc, hcs⟩ := List.forall_mem_cons.mp h
    rw [List.flatMap_cons, he.ascii hc, List.singleton_append, List.map_cons, ih hcs, byteChar,
      ofNat_toNat_of_lt hc]

/-- Bytes that are taken for characters spell a pattern of ASCII where the characters do, also up to
a function that makes no character one of ASCII. -/
theorem map_take {f : Char → Char} {pattern : List Char} (ascii : ∀ x ∈ pattern, x.toNat < 0x80)
    (high : ∀ x, 0x80 ≤ x.toNat → 0x80 ≤ (f x).toNat) (cs : List Char) :
    ((cs.flatMap e).take pattern.length).map (fun b => f (byteChar b)) = pattern ↔
      (cs.take pattern.length).map f = pattern := by
  induction pattern generalizing cs with
  | nil => simp
  | cons x pattern ih =>
    obtain ⟨hx, rest⟩ := List.forall_mem_cons.mp ascii
    cases cs with
    | nil => rfl
    | cons c cs =>
      obtain ⟨b, bs, hb⟩ := List.exists_cons_of_ne_nil (he.ne_nil c)
      have stands := he.standsFor (c := c) (hb ▸ List.mem_cons_self)
      rw [List.flatMap_cons, hb, List.cons_append, List.length_cons, List.take_succ_cons,
        List.map_cons, List.cons.injEq, List.take_succ_cons, List.map_cons, List.cons.injEq]
      rcases stands with ⟨same, hc⟩ | ⟨hbyte, hc⟩
      · rw [he.ascii hc] at hb
        obtain ⟨-, rfl⟩ := List.cons.inj hb
        rw [same, List.nil_append, ih rest]
      · have byte := high _ hbyte
        have char := high _ hc
        constructor
        · rintro ⟨rfl, -⟩
          omega
        · rintro ⟨rfl, -⟩
          omega

/-- What the first byte of a text is read as. -/
theorem head?_cons (c : Char) (cs : List Char) :
    ∃ x, (((c :: cs).flatMap e).head?.map byteChar) = some x ∧ StandsFor x c := by
  obtain ⟨b, bs, hb⟩ := List.exists_cons_of_ne_nil (he.ne_nil c)
  refine ⟨byteChar b, ?_, he.standsFor (hb ▸ List.mem_cons_self)⟩
  rw [List.flatMap_cons, hb]
  rfl

end Encoding

/-! ## Positions and slices -/

/-- What a byte of a text is read as, if the text has one there. -/
def byteAt? (s : List UInt8) (i : Nat) : Option Char := s[i]?.map byteChar

/-- The bytes from one position up to another; none if there is no such slice. -/
def slice? (s : List UInt8) (i j : Nat) : Option (List UInt8) :=
  if i ≤ j ∧ j ≤ s.length then some ((s.drop i).take (j - i)) else none

/-- The bytes from a position on. -/
def from? (s : List UInt8) (i : Nat) : Option (List UInt8) := slice? s i s.length

/-- The characters `cs` are what is left of a text from byte `i` on. -/
def At (text : List Char) (i : Nat) (cs : List Char) : Prop :=
  ∃ before, text = before ++ cs ∧ i = (utf8 before).length

theorem utf8_append (cs ds : List Char) : utf8 (cs ++ ds) = utf8 cs ++ utf8 ds :=
  List.flatMap_append

theorem utf8_cons (c : Char) (cs : List Char) :
    utf8 (c :: cs) = String.utf8EncodeChar c ++ utf8 cs :=
  List.flatMap_cons

theorem length_utf8_append (cs ds : List Char) :
    (utf8 (cs ++ ds)).length = (utf8 cs).length + (utf8 ds).length := by
  rw [utf8_append, List.length_append]

theorem length_utf8_pos {cs : List Char} (h : cs ≠ []) : 0 < (utf8 cs).length := by
  obtain ⟨c, cs, rfl⟩ := List.exists_cons_of_ne_nil h
  have := List.length_pos_iff.mpr (encoding_utf8.ne_nil c)
  rw [utf8_cons, List.length_append]
  omega

/-- A text in ASCII has as many bytes as characters. -/
theorem length_utf8_of_ascii {cs : List Char} (h : ∀ c ∈ cs, c.toNat < 0x80) :
    (utf8 cs).length = cs.length := by
  have := congrArg List.length (encoding_utf8.map_byteChar h)
  rwa [List.length_map] at this

theorem from?_of_le {s : List UInt8} {i : Nat} (h : i ≤ s.length) :
    from? s i = some (s.drop i) := by
  rw [from?, slice?, if_pos ⟨h, Nat.le_refl _⟩, List.take_of_length_le (by simp)]

namespace At

variable {text cs ds run : List Char} {i j : Nat}

theorem start (text : List Char) : At text 0 text := ⟨[], rfl, rfl⟩

theorem drop (h : At text i cs) : (utf8 text).drop i = utf8 cs := by
  obtain ⟨before, rfl, rfl⟩ := h
  rw [utf8_append, List.drop_left]

/-- A position and what is left behind it make up the text. -/
theorem length_eq (h : At text i cs) : (utf8 text).length = i + (utf8 cs).length := by
  obtain ⟨before, rfl, rfl⟩ := h
  exact length_utf8_append before cs

/-- The end of a text is the position with nothing behind it. -/
theorem lt_iff (h : At text i cs) : i < (utf8 text).length ↔ cs ≠ [] := by
  rw [h.length_eq]
  constructor
  · rintro hlt rfl
    exact absurd hlt (Nat.lt_irrefl _)
  · intro hne
    have := length_utf8_pos hne
    omega

theorem eq_end (h : At text i []) : i = (utf8 text).length := h.length_eq.symm

theorem ending (text : List Char) : At text (utf8 text).length [] :=
  ⟨text, (List.append_nil _).symm, rfl⟩

theorem forward (h : At text i (run ++ cs)) : At text (i + (utf8 run).length) cs := by
  obtain ⟨before, rfl, rfl⟩ := h
  exact ⟨before ++ run, (List.append_assoc ..).symm, (length_utf8_append before run).symm⟩

/-- Behind a run of characters of ASCII. -/
theorem forward_ascii (h : At text i (run ++ cs)) (ascii : ∀ c ∈ run, c.toNat < 0x80) :
    At text (i + run.length) cs := by
  rw [← length_utf8_of_ascii ascii]
  exact h.forward

theorem next (h : At text i (c :: cs)) (hc : c.toNat < 0x80) : At text (i + 1) cs := by
  have run : At text i ([c] ++ cs) := h
  exact run.forward_ascii (List.forall_mem_singleton.mpr hc)

theorem suffix (h : At text i cs) : cs <:+ text := by
  obtain ⟨before, rfl, -⟩ := h
  exact List.suffix_append before cs

/-- What is left tells the position. -/
theorem pos_unique (h : At text i cs) (g : At text j cs) : i = j := by
  have hi := h.length_eq
  have hj := g.length_eq
  omega

/-- Where less is left, the position is further on. -/
theorem lt_of_length (h : At text i cs) (g : At text j ds) (hlt : ds.length < cs.length) :
    i < j := by
  obtain ⟨run, rfl⟩ := List.suffix_of_suffix_length_le g.suffix h.suffix (Nat.le_of_lt hlt)
  have run_ne : run ≠ [] := by
    rintro rfl
    exact absurd hlt (Nat.lt_irrefl _)
  have positive := length_utf8_pos run_ne
  have := h.forward.pos_unique g
  omega

theorem from?_eq (h : At text i cs) : from? (utf8 text) i = some (utf8 cs) := by
  have := h.length_eq
  rw [from?_of_le (by omega), h.drop]

/-- The bytes of what stands between two positions. -/
theorem slice?_eq (h : At text i (run ++ cs)) :
    slice? (utf8 text) i (i + (utf8 run).length) = some (utf8 run) := by
  have := h.length_eq
  rw [length_utf8_append] at this
  rw [slice?, if_pos (by omega), h.drop, Nat.add_sub_cancel_left, utf8_append,
    List.take_left]

theorem byteAt?_add (h : At text i cs) (n : Nat) :
    byteAt? (utf8 text) (i + n) = byteAt? (utf8 cs) n := by
  rw [byteAt?, byteAt?, ← h.drop, List.getElem?_drop]

theorem byteAt?_nil (h : At text i []) : byteAt? (utf8 text) i = none :=
  h.byteAt?_add 0

/-- A byte that is looked at tells what its character is, as far as a scan asks. -/
theorem byteAt?_cons (h : At text i (c :: cs)) :
    ∃ x, byteAt? (utf8 text) i = some x ∧ StandsFor x c := by
  obtain ⟨x, hx, hs⟩ := encoding_utf8.head?_cons c cs
  refine ⟨x, ?_, hs⟩
  rw [← hx, ← Nat.add_zero i, h.byteAt?_add 0, byteAt?, List.head?_eq_getElem?]
  rfl

/-- A byte that is looked at is of a class if the character there is. -/
theorem byteAt?_any (h : At text i cs) (hp : Flat p) :
    (byteAt? (utf8 text) i).any p = cs.head?.any p := by
  cases cs with
  | nil => rw [h.byteAt?_nil]; rfl
  | cons c cs =>
    obtain ⟨x, hx, stands⟩ := h.byteAt?_cons
    rw [hx]
    exact stands.same hp

/-- A byte that is looked at is a character of ASCII if the character there is. -/
theorem byteAt?_eq_iff (h : At text i cs) (hx : x.toNat < 0x80) :
    byteAt? (utf8 text) i = some x ↔ cs.head? = some x := by
  cases cs with
  | nil => simp [h.byteAt?_nil]
  | cons c cs =>
    obtain ⟨y, hy, stands⟩ := h.byteAt?_cons
    rw [hy, List.head?_cons, Option.some.injEq, Option.some.injEq, stands.eq_iff hx]

end At

/-! ## Runs and first places -/

/-- The first element of a kind, by what stands before it. -/
theorem findIdx?_eq {α : Type} (q : α → Bool) (xs : List α) :
    xs.findIdx? q =
      if xs.dropWhile (fun x => !q x) = [] then none
      else some (xs.takeWhile fun x => !q x).length := by
  induction xs with
  | nil => rfl
  | cons x xs ih =>
    rw [List.findIdx?_cons]
    by_cases hx : q x = true
    · simp [hx]
    · have hx : q x = false := by simpa using hx
      rw [List.dropWhile_cons_of_pos (by simp [hx]), List.takeWhile_cons_of_pos (by simp [hx]), ih,
        hx, if_neg Bool.false_ne_true]
      split <;> simp

/-- A search for a character of a class comes to nothing, or to the first such character. -/
theorem At.position {text cs : List Char} {i : Nat} (h : At text i cs) (hp : Flat p) :
    (utf8 cs).findIdx? (fun b => p (byteChar b)) = none ∧ cs.dropWhile (fun x => !p x) = [] ∨
    ∃ x rest, cs.dropWhile (fun x => !p x) = x :: rest ∧ p x = true ∧
      (utf8 cs).findIdx? (fun b => p (byteChar b)) =
        some (utf8 (cs.takeWhile fun x => !p x)).length ∧
      At text (i + (utf8 (cs.takeWhile fun x => !p x)).length) (x :: rest) := by
  have split := List.takeWhile_append_dropWhile (p := fun x => !p x) (l := cs)
  have bytes : (utf8 cs).findIdx? (fun b => p (byteChar b)) =
      if cs.dropWhile (fun x => !p x) = [] then none
      else some (utf8 (cs.takeWhile fun x => !p x)).length := by
    have run : (utf8 cs).takeWhile (fun b => !p (byteChar b)) = utf8 (cs.takeWhile fun x => !p x) :=
      encoding_utf8.takeWhile hp.not cs
    have behind :
        (utf8 cs).dropWhile (fun b => !p (byteChar b)) = utf8 (cs.dropWhile fun x => !p x) :=
      encoding_utf8.dropWhile hp.not cs
    rw [findIdx?_eq, run, behind]
    cases hrest : cs.dropWhile (fun x => !p x) with
    | nil => rfl
    | cons x rest =>
      have ne : utf8 (x :: rest) ≠ [] := List.length_pos_iff.mp (length_utf8_pos nofun)
      rw [if_neg ne, if_neg (List.cons_ne_nil x rest)]
  cases hrest : cs.dropWhile (fun x => !p x) with
  | nil => exact .inl ⟨by rw [bytes, if_pos hrest], rfl⟩
  | cons x rest =>
    have first := List.head?_dropWhile_not (fun x => !p x) cs
    rw [hrest] at first bytes split
    rw [if_neg (List.cons_ne_nil x rest)] at bytes
    have there : At text i ((cs.takeWhile fun x => !p x) ++ x :: rest) := by rwa [split]
    exact .inr ⟨x, rest, rfl, by simpa using first, bytes, there.forward⟩

/-- The end of a run of a class. -/
theorem At.run {text cs : List Char} {i : Nat} (h : At text i cs) (hp : Flat p) :
    ((utf8 cs).takeWhile fun b => p (byteChar b)) = utf8 (cs.takeWhile p) ∧
    slice? (utf8 text) i (i + (utf8 (cs.takeWhile p)).length) = some (utf8 (cs.takeWhile p)) ∧
    At text (i + (utf8 (cs.takeWhile p)).length) (cs.dropWhile p) := by
  have split := List.takeWhile_append_dropWhile (p := p) (l := cs)
  have there : At text i (cs.takeWhile p ++ cs.dropWhile p) := by rwa [split]
  exact ⟨encoding_utf8.takeWhile hp cs, there.slice?_eq, there.forward⟩

/-- What stands behind a run of a class: the end of the text, or a character that the byte there
tells. -/
theorem At.behindRun {text cs : List Char} {i : Nat} (h : At text i cs) (hp : Flat p) :
    cs.dropWhile p = [] ∧
        byteAt? (utf8 text) (i + (utf8 (cs.takeWhile p)).length) = none ∧
        At text (i + (utf8 (cs.takeWhile p)).length) [] ∨
      ∃ x rest y, cs.dropWhile p = x :: rest ∧
        byteAt? (utf8 text) (i + (utf8 (cs.takeWhile p)).length) = some y ∧ StandsFor y x ∧
        At text (i + (utf8 (cs.takeWhile p)).length) (x :: rest) := by
  obtain ⟨-, -, behind⟩ := h.run hp
  cases hrest : cs.dropWhile p with
  | nil =>
    rw [hrest] at behind
    exact .inl ⟨rfl, behind.byteAt?_nil, behind⟩
  | cons x rest =>
    rw [hrest] at behind
    obtain ⟨y, hy, stands⟩ := behind.byteAt?_cons
    exact .inr ⟨x, rest, y, rfl, hy, stands, behind⟩

end Stencil.Markup
