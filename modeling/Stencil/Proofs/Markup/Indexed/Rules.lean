import Stencil.Proofs.Markup.Indexed.Code

/-!
# Style sheets by positions

In a rule the scan by positions looks back from a parenthesis over all that the text holds before
it, while the scan over characters starts each step with nothing behind it. The two agree where
nothing that stands before the step can be a part of the word `url` or of the blanks behind it
(`Parted`). A rule is only ever entered at such a place, since what ends a string, a comment or an
address is none of these (`Context.innerStep_closed`).
-/

set_option autoImplicit false

namespace Stencil.Markup

open Stencil.Text Stencil.Escape

variable {text cs : List Char} {i : Nat}

/-! ## What stands before a rule -/

/-- A character that is no part of a word and no blank opens no address by itself. -/
theorem endsWithUrl_concat {x : Char} (hx : isBeforeAddress x = false) (behind : List Char) :
    endsWithUrl (behind ++ [x]) = endsWithUrl behind := by
  obtain ⟨hname, hspace⟩ := Bool.or_eq_false_iff.mp hx
  have blanks : (behind ++ [x]).dropWhile isSpace = behind.dropWhile isSpace ++ [x] := by
    rw [List.dropWhile_append]
    split
    · next hempty =>
      rw [List.isEmpty_iff.mp hempty, List.dropWhile_cons_of_neg (by simp [hspace])]
      rfl
    · rfl
  have noU : (lower x == 'u') = false := lower_ne_of_isBeforeAddress hx rfl
  unfold endsWithUrl
  rw [blanks]
  match behind.dropWhile isSpace with
  | [] => rfl
  | [l] => rfl
  | [l, r] => simp [noU]
  | l :: r :: u :: [] => simp [hname]
  | l :: r :: u :: y :: tail => rfl

/-- Nothing that stands before a position can be a part of what opens an address behind it. -/
def Parted (before : List Char) : Prop := before.getLast?.any isBeforeAddress = false

theorem Parted.ruleStep {before : List Char} (h : Parted before) (c : Context) (cs : List Char) :
    c.ruleStep before.reverse cs = c.ruleStep [] cs := by
  rw [Parted, ← List.head?_reverse] at h
  cases hbefore : before.reverse with
  | nil => rfl
  | cons x tail =>
    rw [hbefore] at h
    have hx : isBeforeAddress x = false := h
    calc c.ruleStep (x :: tail) cs
        = c.ruleStep ([] ++ [x]) cs := Context.ruleStep_behind hx [] tail cs
      _ = c.ruleStep [] cs := Context.ruleStep_append_seen fun _ => by
          rw [List.nil_append, List.append_nil, endsWithUrl_concat hx]

/-- `rest` is what follows a character of a text over which no address can be opened. -/
def Closed (cs rest : List Char) : Prop :=
  ∃ run close, isBeforeAddress close = false ∧ cs = run ++ close :: rest

theorem Closed.parted {rest : List Char} (h : Closed cs rest) :
    ∃ passed, cs = passed ++ rest ∧ ∀ before, Parted (before ++ passed) := by
  obtain ⟨run, close, hclose, rfl⟩ := h
  refine ⟨run ++ [close], by simp, fun before => ?_⟩
  rw [← List.append_assoc, Parted, List.getLast?_concat]
  exact hclose

theorem closed_of_afterQuote? {quote : Char} {rest : List Char} (hq : isBeforeAddress quote = false)
    (h : afterQuote? quote cs = some rest) : Closed cs rest := by
  fun_induction afterQuote? quote cs with
  | case1 => cases h
  | case2 => cases h
  | case3 y tail ih =>
    obtain ⟨run, close, hclose, rfl⟩ := ih h
    exact ⟨'\\' :: y :: run, close, hclose, rfl⟩
  | case4 tail =>
    cases h
    exact ⟨[], quote, hq, rfl⟩
  | case5 y tail last pair other ih =>
    obtain ⟨run, close, hclose, rfl⟩ := ih h
    exact ⟨y :: run, close, hclose, rfl⟩

theorem closed_of_after? {x close : Char} {rest : List Char}
    (hclose : isBeforeAddress close = false) (h : after? [x, close] cs = some rest) :
    Closed cs rest := by
  obtain ⟨⟨front, after⟩, hcut, rfl⟩ := Option.map_eq_some_iff.mp h
  exact ⟨front ++ [x], close, hclose, by simp [eq_of_cut hcut]⟩

namespace Context

/-- Where a rule goes on, if that is before the end of the text. -/
theorem leave_closed {c next : Context} {ending : Option (List Char)}
    (h : ∀ rest, ending = some rest → Closed cs rest) :
    (c.leave ending next).2 = [] ∨ Closed cs (c.leave ending next).2 := by
  cases ending with
  | none => exact .inl rfl
  | some rest => exact .inr (h rest rfl)

theorem addressEnd_closed (c : Context) {close : Char} (hclose : isBeforeAddress close = false)
    (cs : List Char) : (c.addressEnd close cs).2 = [] ∨ Closed cs (c.addressEnd close cs).2 := by
  have split := List.takeWhile_append_dropWhile (p := (· != close)) (l := cs)
  cases hdrop : cs.dropWhile (· != close) with
  | nil => exact .inl (by rw [addressEnd_of_nil hdrop])
  | cons y rest =>
    have first := List.head?_dropWhile_not (· != close) cs
    rw [hdrop] at first split
    obtain rfl : y = close := by simpa using first
    rw [addressEnd_of_cons hdrop]
    exact .inr ⟨_, y, hclose, split.symm⟩

/-- A step in a rule leaves it, except at the end of the text. -/
theorem ruleStep_leaves (c : Context) (seen cs : List Char)
    (h : (c.ruleStep seen cs).1.state = .css) : (c.ruleStep seen cs).2 = [] := by
  induction cs generalizing seen with
  | nil => rfl
  | cons x rest ih =>
    have address : (c.addressStep rest).1.state ≠ .css := by
      unfold addressStep
      split
      all_goals exact nofun
    rw [ruleStep] at h ⊢
    split at h
    · exact absurd h address
    split at h
    · cases h
    split at h
    · cases h
    split at h
    · cases h
    · next hparen hdouble hsingle hslash =>
      rw [if_neg hparen, if_neg hdouble, if_neg hsingle, if_neg hslash]
      exact ih _ h

/-- A rule goes on behind a character over which no address can be opened, or the text has ended. -/
theorem innerStep_closed {c : Context} {x : Char} {xs : List Char}
    (h : (c.innerStep x xs).1.state = .css) :
    (c.innerStep x xs).2 = [] ∨ Closed (x :: xs) (c.innerStep x xs).2 := by
  have kind : c.state.kind = .style := by
    rcases innerStep_within c x xs with ⟨failed, -⟩ | within
    · rw [failed] at h
      cases h
    · rw [← within.kind, h]
      rfl
  unfold innerStep at h ⊢
  dsimp only at h ⊢
  cases hs : c.state with
  | css =>
    rw [hs] at h
    exact .inl (ruleStep_leaves c [] _ h)
  | cssDoubleQuoted | cssSingleQuoted =>
    exact leave_closed fun _ => closed_of_afterQuote? (by decide)
  | cssDoubleQuotedUrl | cssSingleQuotedUrl | cssUrl => exact addressEnd_closed c (by decide) _
  | cssComment => exact leave_closed fun _ => closed_of_after? (by decide)
  | _ =>
    rw [hs] at kind
    cases kind

end Context

namespace Indexed

/-! ## Addresses -/

theorem urlPart_advance_utf8 (part : UrlPart) (cs : List Char) :
    part.advance ((utf8 cs).map byteChar) = part.advance cs := by
  have query : ((utf8 cs).map byteChar).any (fun x => x == '?' || x == '#') =
      cs.any fun x => x == '?' || x == '#' := by
    rw [List.any_map]
    exact encoding_utf8.any ((ascii_beq (by decide)).or (ascii_beq (by decide))).flat cs
  have filled : ((utf8 cs).map byteChar).any (fun x => !isSpace x) =
      cs.any fun x => !isSpace x := by
    rw [List.any_map]
    exact encoding_utf8.any ascii_isSpace.flat.not cs
  rw [UrlPart.advance, UrlPart.advance, query, filled]

theorem addressEnd_comes (c : Context) {close : Char} (hclose : close.toNat < 0x80)
    (h : At text i cs) :
    Comes text (addressEnd c close (utf8 text) i) (c.addressEnd close cs) := by
  have flat := (ascii_beq hclose).flat
  obtain ⟨ending, found, inside⟩ := findByte_slice h flat
  rw [addressEnd, found]
  simp only [Option.bind_eq_bind, Option.bind_some, inside, urlPart_advance_utf8]
  rcases findByte_cases h flat with ⟨found', hrest⟩ | ⟨x, rest, hrest, hx, found', there⟩
  · obtain rfl : ending = none := Option.some.inj (found.symm.trans found')
    rw [Context.addressEnd_of_nil hrest]
    exact ⟨_, rfl, .ending text⟩
  · obtain rfl := Option.some.inj (found.symm.trans found')
    obtain rfl : x = close := beq_iff_eq.mp hx
    rw [Context.addressEnd_of_cons hrest]
    exact ⟨_, rfl, there.next hclose⟩

theorem addressStep_comes (c : Context) {rest : List Char} (h : At text i ('(' :: rest)) :
    Comes text (addressStep c (utf8 text) i) (c.addressStep rest) := by
  have behind : At text (i + 1) rest := h.next (by decide)
  have run := (behind.run ascii_isSpace.flat).1
  rw [addressStep, behind.from?_eq]
  simp only [Option.bind_eq_bind, Option.bind_some, run]
  rcases behind.behindRun ascii_isSpace.flat with
    ⟨hrest, hbyte, there⟩ | ⟨x, tail, y, hrest, hbyte, stands, there⟩
  · rw [hbyte, Context.addressStep_of_nil hrest]
    exact ⟨_, rfl, there⟩
  · have double : y = '"' ↔ x = '"' := stands.eq_iff (by decide)
    have single : y = '\'' ↔ x = '\'' := stands.eq_iff (by decide)
    rw [hbyte, Context.addressStep_of_cons hrest]
    simp only [Option.some.injEq, double, single]
    split
    · next hdouble =>
      subst hdouble
      exact ⟨_, rfl, there.next (by decide)⟩
    split
    · next hsingle =>
      subst hsingle
      exact ⟨_, rfl, there.next (by decide)⟩
    · exact ⟨_, rfl, there⟩

/-- The three letters of the word that opens an address, from behind. -/
def spellsUrl (reversed : List Char) : Prop := (reversed.take 3).map lower = ['l', 'r', 'u']

/-- A spelled word has three letters, all of ASCII, with what stands before it behind them. -/
theorem exists_of_spellsUrl {reversed : List Char} (h : spellsUrl reversed) :
    ∃ l r u before, reversed = l :: r :: u :: before ∧ lower l = 'l' ∧ lower r = 'r' ∧
      lower u = 'u' ∧ ∀ x ∈ [l, r, u], x.toNat < 0x80 := by
  unfold spellsUrl at h
  have ascii : ∀ x ∈ reversed.take 3, x.toNat < 0x80 := by
    intro x hx
    have letter : lower x ∈ ['l', 'r', 'u'] := h ▸ List.mem_map_of_mem hx
    have low : (lower x).toNat < 0x80 :=
      prop_of_mem (p := fun y => y.toNat < 0x80) letter (by decide)
    by_contra high
    have := le_toNat_lower (x := x) (by omega)
    omega
  match reversed, h, ascii with
  | l :: r :: u :: before, h, ascii =>
    obtain ⟨hl, hr, hu⟩ : lower l = 'l' ∧ lower r = 'r' ∧ lower u = 'u' := by simpa using h
    exact ⟨l, r, u, before, rfl, hl, hr, hu, ascii⟩
  | [], h, _ => cases h
  | [l], h, _ => simp at h
  | [l, r], h, _ => simp at h

theorem endsWithUrl_of_not_spelled {reversed : List Char}
    (h : ¬ spellsUrl (reversed.dropWhile isSpace)) : endsWithUrl reversed = false := by
  unfold endsWithUrl
  split
  · next l r u before heq =>
    rw [heq] at h
    rw [← Bool.not_eq_true]
    simp only [Bool.and_eq_true, beq_iff_eq]
    rintro ⟨⟨⟨hu, hr⟩, hl⟩, -⟩
    exact h (by simp [spellsUrl, hu, hr, hl])
  · rfl

/-- Three letters at the end of a text are its last three bytes. -/
theorem spellsUrl_bytes (reversed : List Char) :
    (((utf8 reversed.reverse).drop ((utf8 reversed.reverse).length - 3)).map byteChar).map lower =
        ['u', 'r', 'l'] ↔ spellsUrl reversed := by
  have ascii : ∀ x ∈ ['l', 'r', 'u'], x.toNat < 0x80 := ascii_of_all (by decide)
  have spelled := encoding_utf8.reversed.map_take ascii (fun _ => le_toNat_lower) reversed
  have tail : (utf8 reversed.reverse).reverse.take 3 =
      ((utf8 reversed.reverse).drop ((utf8 reversed.reverse).length - 3)).reverse :=
    List.take_reverse
  rw [← reverse_utf8_reverse] at spelled
  refine Iff.trans ?_ spelled
  rw [List.length_cons, List.length_cons, List.length_singleton, tail, List.map_reverse,
    List.reverse_eq_iff, List.map_map]
  rfl

theorem urlBefore_utf8 (before cs : List Char) :
    urlBefore (utf8 (before ++ cs)) (utf8 before).length = some (endsWithUrl before.reverse) := by
  have passed := (At.start (before ++ cs)).slice?_eq
  have cutOff := (behindLast_utf8 ascii_isSpace.flat.not before).1
  simp only [Bool.not_not] at cutOff
  rw [Nat.zero_add] at passed
  rw [urlBefore, passed]
  simp only [Option.bind_eq_bind, Option.bind_some, cutOff]
  have letters := spellsUrl_bytes (before.reverse.dropWhile isSpace)
  by_cases spelled : spellsUrl (before.reverse.dropWhile isSpace)
  · obtain ⟨l, r, u, front, hword, hl, hr, hu, ascii⟩ := exists_of_spellsUrl spelled
    have whole : utf8 (before.reverse.dropWhile isSpace).reverse =
        utf8 front.reverse ++ utf8 [u, r, l] := by
      rw [hword, ← utf8_append]
      simp
    have three : (utf8 [u, r, l]).length = 3 := by
      rw [length_utf8_of_ascii]
      · rfl
      · intro x hx
        exact ascii x (by simpa [or_comm, or_left_comm] using hx)
    have size : (utf8 front.reverse ++ utf8 [u, r, l]).length =
        (utf8 front.reverse).length + 3 := by
      rw [List.length_append, three]
    replace letters := letters.mpr spelled
    rw [whole, size, Nat.add_sub_cancel] at letters
    have ends : endsWithUrl before.reverse = !front.head?.any isStyleNamePart := by
      rw [endsWithUrl, hword]
      simp [hl, hr, hu]
    rw [ends, whole, size, if_neg (by omega), Nat.add_sub_cancel, from?_of_le (by omega)]
    simp only [Option.bind_some, if_pos letters]
    cases front with
    | nil => rfl
    | cons y front =>
      have positive : 0 < (utf8 (y :: front).reverse).length := length_utf8_pos (by simp)
      obtain ⟨z, hz, same⟩ := byteAt?_before ascii_isStyleNamePart.flat y front (utf8 [u, r, l])
      rw [if_neg (by omega), hz]
      simp only [Option.bind_some, same]
      rfl
  · rw [endsWithUrl_of_not_spelled spelled]
    replace letters := mt letters.mp spelled
    split
    · rfl
    · next long =>
      rw [from?_of_le (by omega)]
      simp only [Option.bind_some, if_neg letters]
      rfl

/-! ## Rules -/

/-- The characters at which a step in a rule does anything but go on. -/
def isRuleSign (x : Char) : Bool := x == '(' || x == '"' || x == '\'' || x == '/'

theorem ascii_isRuleSign : Ascii isRuleSign :=
  (((ascii_beq (by decide)).or (ascii_beq (by decide))).or (ascii_beq (by decide))).or
    (ascii_beq (by decide))

theorem ruleStep_of_byteAt? {c : Context} {s : List UInt8} {x : Char} {k : Nat}
    (h : byteAt? s k = some x) :
    ruleStep c s k = (do
      if ← opensAddressAt s k x then addressStep c s k
      else if x = '"' then return ({ c with state := .cssDoubleQuoted }, k + 1)
      else if x = '\'' then return ({ c with state := .cssSingleQuoted }, k + 1)
      else if x = '/' ∧ byteAt? s (k + 1) = some '*' then
        return ({ c with state := .cssComment }, k + 2)
      else ruleStep c s (k + 1)) := by
  rw [ruleStep, if_pos (lt_of_byteAt? h), h]
  rfl

theorem ruleStep_of_plain {c : Context} {s : List UInt8} {x : Char} {k : Nat}
    (h : byteAt? s k = some x) (plain : isRuleSign x = false) :
    ruleStep c s k = ruleStep c s (k + 1) := by
  simp only [isRuleSign, Bool.or_eq_false_iff, beq_eq_false_iff_ne] at plain
  obtain ⟨⟨⟨hparen, hdouble⟩, hsingle⟩, hslash⟩ := plain
  rw [ruleStep_of_byteAt? h, opensAddressAt, if_neg hparen]
  simp only [Option.bind_eq_bind, Option.pure_def, Option.bind_some, hdouble, hsingle, hslash,
    false_and, if_false, Bool.false_eq_true]

theorem ruleStep_comes (c : Context) (before cs : List Char) :
    Comes (before ++ cs) (ruleStep c (utf8 (before ++ cs)) (utf8 before).length)
      (c.ruleStep before.reverse cs) := by
  induction cs generalizing before with
  | nil =>
    have there : At (before ++ []) (utf8 before).length [] := ⟨before, rfl, rfl⟩
    rw [ruleStep, if_neg (mt there.lt_iff.mp (by simp))]
    exact ⟨_, rfl, .ending _⟩
  | cons x rest ih =>
    have there : At (before ++ x :: rest) (utf8 before).length (x :: rest) := ⟨before, rfl, rfl⟩
    -- what goes on at the next character
    have onward {j : Nat} (hj : At (before ++ x :: rest) j rest) :
        Comes (before ++ x :: rest) (ruleStep c (utf8 (before ++ x :: rest)) j)
          (c.ruleStep (x :: before.reverse) rest) := by
      have behind := ih (before ++ [x])
      have same : before ++ [x] ++ rest = before ++ x :: rest := by simp
      rw [same, List.reverse_append, List.reverse_singleton, List.singleton_append] at behind
      have place : At (before ++ x :: rest) (utf8 (before ++ [x])).length rest :=
        ⟨before ++ [x], same.symm, rfl⟩
      rwa [hj.pos_unique place]
    by_cases hx : isRuleSign x = true
    · have low := ascii_isRuleSign x hx
      have byte := (there.byteAt?_eq_iff low).mpr rfl
      have next := there.next low
      have star := next.byteAt?_eq_iff (x := '*') (by decide)
      rw [ruleStep_of_byteAt? byte, Context.ruleStep]
      simp only [isRuleSign, Bool.or_eq_true, beq_iff_eq] at hx
      rcases hx with ((rfl | rfl) | rfl) | rfl
      · rw [opensAddressAt, if_pos rfl, urlBefore_utf8]
        simp only [Option.bind_eq_bind, Option.bind_some, true_and]
        split
        · exact addressStep_comes c there
        · exact onward next
      · exact ⟨_, rfl, next⟩
      · exact ⟨_, rfl, next⟩
      · have ordinary : ¬ ('/' = '(') ∧ ¬ ('/' = '"') ∧ ¬ ('/' = '\'') := by decide
        rw [opensAddressAt, if_neg ordinary.1]
        simp only [Option.bind_eq_bind, Option.pure_def, Option.bind_some, star, ordinary, true_and,
          false_and, if_false, Bool.false_eq_true]
        split
        · next hstar =>
          obtain ⟨tail, rfl⟩ := List.head?_eq_some_iff.mp hstar
          exact ⟨_, rfl, next.next (by decide)⟩
        · exact onward next
    · have plain : isRuleSign x = false := by simpa using hx
      obtain ⟨j, same, hj⟩ := there.pass ascii_isRuleSign (f := ruleStep c _)
        (fun k y hy hplain => ruleStep_of_plain hy hplain) plain
      simp only [isRuleSign, Bool.or_eq_false_iff, beq_eq_false_iff_ne] at plain
      obtain ⟨⟨⟨hparen, hdouble⟩, hsingle⟩, hslash⟩ := plain
      rw [same, Context.ruleStep, if_neg (fun h => hparen h.1), if_neg hdouble, if_neg hsingle,
        if_neg fun h => hslash h.1]
      exact onward hj

end Indexed

end Stencil.Markup
