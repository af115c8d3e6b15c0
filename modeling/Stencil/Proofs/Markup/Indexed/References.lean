import Stencil.Proofs.Escape.Reference
import Stencil.Proofs.Markup.Cut
import Stencil.Proofs.Markup.Indexed.Search

/-!
# Character references by positions

A reference is read from bytes as from characters, and it ends at the same place
(`reference_reads`); so the bytes of a value with its references replaced are those of what the
value stands for (`decode_utf8`). All other characters are copied, byte by byte
(`decodeFrom_copied`).
-/

set_option autoImplicit false

namespace Stencil.Markup

open Stencil.Text Stencil.Escape Stencil.Numeral

variable {text cs : List Char} {i : Nat}

/-- A position behind a position. -/
theorem At.trans {j : Nat} {ds : List Char} (h : At text i cs) (g : At cs j ds) :
    At text (i + j) ds := by
  obtain ⟨run, rfl, rfl⟩ := g
  exact h.forward

namespace Indexed

theorem skipSemicolon_at (h : At text i cs) :
    At text (if byteAt? (utf8 text) i = some ';' then i + 1 else i) (skipSemicolon cs) := by
  have semicolon := h.byteAt?_eq_iff (x := ';') (by decide)
  by_cases hsemi : cs.head? = some ';'
  · obtain ⟨rest, rfl⟩ := List.head?_eq_some_iff.mp hsemi
    rw [if_pos (semicolon.mpr hsemi)]
    exact h.next (by decide)
  · have kept : skipSemicolon cs = cs := by
      unfold skipSemicolon
      split
      · exact absurd rfl hsemi
      · rfl
    rwa [if_neg (mt semicolon.mp hsemi), kept]

theorem numbered_reads {base : Nat} {inBase : Char → Bool} (ascii : Ascii inBase)
    (h : At text i cs) :
    ∃ read, numbered (utf8 text) base inBase i = some read ∧
      Reads text read (numbered? base inBase cs) := by
  obtain ⟨run, digits, behind⟩ := h.run ascii.flat
  have spelled : (utf8 (cs.takeWhile inBase)).map byteChar = cs.takeWhile inBase :=
    encoding_utf8.map_byteChar fun c hc => ascii c (List.mem_takeWhile_imp hc)
  rw [numbered, h.from?_eq, numbered?]
  simp only [Option.bind_eq_bind, Option.bind_some, run]
  by_cases none : cs.takeWhile inBase = []
  · have same : i + (utf8 (cs.takeWhile inBase)).length = i := by rw [none]; rfl
    rw [if_pos same, if_pos none]
    exact ⟨_, rfl, .none⟩
  · have positive := length_utf8_pos none
    rw [if_neg (by omega), if_neg none, digits]
    simp only [Option.bind_some, spelled]
    refine ⟨_, rfl, ?_⟩
    rw [drop_takeWhile]
    exact .some (skipSemicolon_at behind)

theorem named_reads (cs : List Char) :
    ∃ read, named (utf8 cs) = some read ∧ Reads cs read (namedReference? cs) := by
  obtain ⟨run, name, behind⟩ := (At.start cs).run ascii_isAlphanumeric.flat
  have spelled : (utf8 (cs.takeWhile isAlphanumeric)).map byteChar = cs.takeWhile isAlphanumeric :=
    encoding_utf8.map_byteChar fun c hc => ascii_isAlphanumeric c (List.mem_takeWhile_imp hc)
  rw [Nat.zero_add] at name behind
  have semicolon := behind.byteAt?_eq_iff (x := ';') (by decide)
  rw [named, namedReference?, run, drop_takeWhile]
  by_cases hsemi : (cs.dropWhile isAlphanumeric).head? = some ';'
  · obtain ⟨rest, hrest⟩ := List.head?_eq_some_iff.mp hsemi
    rw [if_pos (semicolon.mpr hsemi), name, hrest]
    simp only [Option.bind_eq_bind, Option.bind_some, spelled]
    rw [hrest] at behind
    cases namedReferences.lookup (String.ofList (cs.takeWhile isAlphanumeric)) with
    | none => exact ⟨_, rfl, .none⟩
    | some c => exact ⟨_, rfl, .some (behind.next (by decide))⟩
  · rw [if_neg (mt semicolon.mp hsemi)]
    split
    · next rest hrest => exact absurd (by rw [hrest]; rfl) hsemi
    · exact ⟨_, rfl, .none⟩

theorem reference_reads (cs : List Char) :
    ∃ read, reference (utf8 cs) = some read ∧ Reads cs read (reference? cs) := by
  have start := At.start cs
  have sign := start.byteAt?_eq_iff (x := '#') (by decide)
  rw [reference]
  by_cases hsign : cs.head? = some '#'
  · obtain ⟨rest, rfl⟩ := List.head?_eq_some_iff.mp hsign
    have there : At ('#' :: rest) 1 rest := start.next (by decide)
    have small := there.byteAt?_eq_iff (x := 'x') (by decide)
    have capital := there.byteAt?_eq_iff (x := 'X') (by decide)
    rw [if_pos (sign.mpr hsign)]
    simp only [small, capital]
    by_cases hsmall : rest.head? = some 'x'
    · obtain ⟨digits, rfl⟩ := List.head?_eq_some_iff.mp hsmall
      rw [if_pos (.inl hsmall)]
      exact numbered_reads ascii_isHexDigit (there.next (by decide))
    by_cases hcapital : rest.head? = some 'X'
    · obtain ⟨digits, rfl⟩ := List.head?_eq_some_iff.mp hcapital
      rw [if_pos (.inr hcapital)]
      exact numbered_reads ascii_isHexDigit (there.next (by decide))
    have decimal : reference? ('#' :: rest) = numbered? 10 isDigit rest := by
      rw [reference?]
      unfold numericReference?
      split
      · exact absurd rfl hsmall
      · exact absurd rfl hcapital
      · rfl
    rw [if_neg (not_or.mpr ⟨hsmall, hcapital⟩), decimal]
    exact numbered_reads ascii_isDigit there
  · have named : reference? cs = namedReference? cs := by
      unfold reference?
      split
      · exact absurd rfl hsign
      · rfl
    rw [if_neg (mt sign.mp hsign), named]
    exact named_reads cs

/-! ## Values -/

theorem decodeFrom_of_getElem? {s : List UInt8} {b : UInt8} {k : Nat} (h : s[k]? = some b)
    (other : byteChar b ≠ '&') :
    decodeFrom s k = (decodeFrom s (k + 1)).map (b :: ·) := by
  have inside := (List.getElem?_eq_some_iff.mp h).1
  rw [decodeFrom, if_pos inside, h]
  simp only [Option.bind_eq_bind, Option.bind_some, if_neg other, Option.pure_def]
  rw [Option.map_eq_bind]
  rfl

/-- Bytes without an ampersand are copied. -/
theorem decodeFrom_copied {s bytes tail : List UInt8} {k : Nat} (h : s.drop k = bytes ++ tail)
    (plain : ∀ b ∈ bytes, byteChar b ≠ '&') :
    decodeFrom s k = (decodeFrom s (k + bytes.length)).map (bytes ++ ·) := by
  induction bytes generalizing k with
  | nil => exact (Option.map_id' ..).symm
  | cons b bytes ih =>
    obtain ⟨other, rest⟩ := List.forall_mem_cons.mp plain
    have first : s[k]? = some b := by
      rw [← List.head?_drop, h]
      rfl
    have behind : s.drop (k + 1) = bytes ++ tail := by
      rw [← List.drop_drop, h]
      rfl
    rw [decodeFrom_of_getElem? first other, ih behind rest, Option.map_map, List.length_cons,
      Nat.add_right_comm, Nat.add_assoc]
    rfl

/-- The ampersand at a position is replaced with what follows it, or copied. -/
theorem decodeFrom_ampersand (h : At text i ('&' :: cs)) :
    decodeFrom (utf8 text) i = (do
      match ← reference (utf8 cs) with
      | some (c, len) =>
        let decoded ← decodeFrom (utf8 text) (i + 1 + len)
        return String.utf8EncodeChar c ++ decoded
      | none =>
        let decoded ← decodeFrom (utf8 text) (i + 1)
        return 0x26 :: decoded) := by
  have first : (utf8 text)[i]? = some 0x26 := by
    rw [← List.head?_drop, h.drop]
    rfl
  rw [decodeFrom, if_pos (h.lt_iff.mpr nofun), first]
  simp only [Option.bind_eq_bind, Option.bind_some, (h.next (by decide)).from?_eq]
  rfl

/-- From a position on, bytes stand for what the characters there stand for. -/
theorem decodeFrom_utf8 (h : At text i cs) :
    decodeFrom (utf8 text) i = some (utf8 (decodeEntities cs)) := by
  induction cs using decodeEntities.induct generalizing i with
  | case1 =>
    rw [decodeFrom, if_neg (mt h.lt_iff.mp (by simp)), decodeEntities]
    rfl
  | case2 rest d after found ih =>
    obtain ⟨read, hread, reads⟩ := reference_reads rest
    rw [found] at reads
    cases reads with
    | some there =>
      have behind := (h.next (by decide)).trans there
      rw [decodeFrom_ampersand h, hread, decodeEntities_reference found, utf8_cons]
      simp only [Option.bind_eq_bind, Option.bind_some, ih behind]
      rfl
  | case3 rest found ih =>
    obtain ⟨read, hread, reads⟩ := reference_reads rest
    rw [found] at reads
    cases reads with
    | none =>
      rw [decodeFrom_ampersand h, hread, decodeEntities_ampersand found, utf8_cons]
      simp only [Option.bind_eq_bind, Option.bind_some, ih (h.next (by decide))]
      rfl
  | case4 c rest other ih =>
    have plain : ∀ b ∈ String.utf8EncodeChar c, byteChar b ≠ '&' := by
      intro b hb
      rwa [Ne, (encoding_utf8.standsFor hb).eq_iff (by decide)]
    have run : At text i ([c] ++ rest) := h
    have own : utf8 [c] = String.utf8EncodeChar c := List.flatMap_singleton ..
    have behind := run.forward
    rw [own] at behind
    rw [decodeFrom_copied (h.drop.trans (utf8_cons c rest)) plain, ih behind,
      decodeEntities_cons_of_ne other, utf8_cons]
    rfl

/-- The bytes of a value are decoded to the bytes of what it stands for. -/
theorem decode_utf8 (cs : List Char) : decode (utf8 cs) = some (utf8 (decodeEntities cs)) := by
  have found := encoding_utf8.any (ascii_beq (x := '&') (by decide)).flat cs
  rw [decode, utf8, found]
  by_cases amp : '&' ∈ cs
  · rw [if_pos (by simpa using amp)]
    exact decodeFrom_utf8 (.start cs)
  · rw [if_neg (by simpa using amp), decodeEntities_of_not_mem amp]
    rfl

end Indexed

end Stencil.Markup
