import Stencil.Proofs.Markup.Shape
import Stencil.Proofs.Markup.Output

/-!
# The laws of joining

Branches are joined two by two, and it does not matter in which order: joining is idempotent,
commutative and associative, and where some contexts have no join in one grouping they have none in
the other (`Reachable.join_laws`).

A context is a **frame** and what is known in it, of an address or of a slash. Contexts of one frame
have a join in which each of the two is known if both sides agree on it (`Context.merge`), and that
alone would be a partial semilattice (`mergeFramed_comm`, `mergeFramed_assoc`). A shaped context
knows of an address or of a slash and not of both, so one of the relaxations that a join tries is
always enough (`Shaped.joinDirect_eq`); and the nudges that it tries last change no context that
knows of either, so a join of different contexts is the merge of their nudges (`Shaped.join_eq`).

Without the shape the laws fail: a context may then differ from another in both of its parts.
-/

set_option autoImplicit false

namespace Stencil.Markup

/-- What is known of an address on both sides. -/
def UrlPart.meet (u v : UrlPart) : UrlPart := if u = v then u else .unknown

/-- What is known of a slash on both sides. -/
def Slash.meet (s t : Slash) : Slash := if s = t then s else .unknown

theorem UrlPart.meet_comm (u v : UrlPart) : u.meet v = v.meet u := by
  cases u <;> cases v <;> rfl

theorem UrlPart.meet_assoc (u v w : UrlPart) : (u.meet v).meet w = u.meet (v.meet w) := by
  cases u <;> cases v <;> cases w <;> rfl

theorem Slash.meet_comm (s t : Slash) : s.meet t = t.meet s := by
  cases s <;> cases t <;> rfl

theorem Slash.meet_assoc (s t u : Slash) : (s.meet t).meet u = s.meet (t.meet u) := by
  cases s <;> cases t <;> cases u <;> rfl

namespace Context

/-- A context without what is known of an address and of a slash. -/
def frame (c : Context) : Context := { c with urlPart := .none, slash := .regexp }

/-- A context with what is known in it and in another. -/
def merge (a b : Context) : Context :=
  { a with urlPart := a.urlPart.meet b.urlPart, slash := a.slash.meet b.slash }

/-- The merge of contexts of one frame. -/
def mergeFramed (a b : Context) : Option Context :=
  if a.frame = b.frame then some (a.merge b) else none

theorem frame_merge (a b : Context) : (a.merge b).frame = a.frame := rfl

/-- A context is its frame and what is known in it. -/
theorem eq_of_frame {a b : Context} (frame : a.frame = b.frame) (urlPart : a.urlPart = b.urlPart)
    (slash : a.slash = b.slash) : a = b := by
  calc a
    _ = { a.frame with urlPart := a.urlPart, slash := a.slash } := rfl
    _ = { b.frame with urlPart := b.urlPart, slash := b.slash } := by rw [frame, urlPart, slash]
    _ = b := rfl

theorem state_of_frame {a b : Context} (h : a.frame = b.frame) : a.state = b.state :=
  (congrArg Context.state h :)

theorem merge_self (a : Context) : a.merge a = a := by
  unfold merge UrlPart.meet Slash.meet
  rw [if_pos rfl, if_pos rfl]

theorem merge_comm {a b : Context} (h : a.frame = b.frame) : a.merge b = b.merge a :=
  eq_of_frame h (a.urlPart.meet_comm b.urlPart) (a.slash.meet_comm b.slash)

theorem merge_assoc (a b c : Context) : (a.merge b).merge c = a.merge (b.merge c) :=
  eq_of_frame rfl (a.urlPart.meet_assoc b.urlPart c.urlPart)
    (a.slash.meet_assoc b.slash c.slash)

theorem mergeFramed_self (a : Context) : a.mergeFramed a = some a := by
  rw [mergeFramed, if_pos rfl, merge_self]

theorem mergeFramed_comm (a b : Context) : a.mergeFramed b = b.mergeFramed a := by
  unfold mergeFramed
  by_cases h : a.frame = b.frame
  · rw [if_pos h, if_pos h.symm, merge_comm h]
  · rw [if_neg h, if_neg fun g => h g.symm]

theorem mergeFramed_assoc (a b c : Context) :
    (a.mergeFramed b).bind (·.mergeFramed c) = (b.mergeFramed c).bind (a.mergeFramed ·) := by
  unfold mergeFramed
  by_cases hab : a.frame = b.frame
  · by_cases hbc : b.frame = c.frame
    · simp [hab, hbc, frame_merge, merge_assoc]
    · simp [hab, hbc, frame_merge]
  · by_cases hbc : b.frame = c.frame
    · have hac : ¬ a.frame = c.frame := hbc ▸ hab
      simp [hac, hbc, frame_merge]
    · simp [hab, hbc]

/-! ## Joins of shaped contexts -/

variable {a b c : Context}

/-- Where something is known of an address or of a slash, no output needs a nudge. -/
theorem Shaped.settled (h : c.Shaped) (known : c.urlPart ≠ .none ∨ c.slash ≠ .regexp) :
    c.state ≠ .beforeValue ∧ c.state ≠ .afterName := by
  have outside {s : State} (hk : s.kind = .none) : c.state ≠ s := by
    intro hs
    obtain ⟨-, hu, hsl⟩ := h.outside hs hk
    exact known.elim (absurd hu) (absurd hsl)
  exact ⟨outside rfl, outside rfl⟩

/-- Contexts of one frame that differ are not nudged: what one of them knows, it knows in the state
of both. -/
theorem Shaped.nudge_of_frame (ha : a.Shaped) (hb : b.Shaped) (h : a.frame = b.frame)
    (hne : a ≠ b) : a.nudge = a ∧ b.nudge = b := by
  have hs : a.state = b.state := state_of_frame h
  have settled : a.state ≠ .beforeValue ∧ a.state ≠ .afterName := by
    by_cases hka : a.urlPart ≠ .none ∨ a.slash ≠ .regexp
    · exact ha.settled hka
    by_cases hkb : b.urlPart ≠ .none ∨ b.slash ≠ .regexp
    · exact hs ▸ hb.settled hkb
    · simp only [not_or, Decidable.not_not] at hka hkb
      exact absurd (eq_of_frame h (hka.1.trans hkb.1.symm) (hka.2.trans hkb.2.symm)) hne
  exact ⟨nudge_of_other settled.1 settled.2,
    nudge_of_other (hs ▸ settled.1) (hs ▸ settled.2)⟩

/-- Shaped contexts of one frame agree on the part of an address or on the meaning of a slash. -/
theorem Shaped.agree (ha : a.Shaped) (hb : b.Shaped) (h : a.frame = b.frame) :
    a.urlPart = b.urlPart ∨ a.slash = b.slash := by
  have hs : a.state = b.state := state_of_frame h
  by_cases hk : a.state.kind = .script
  · have haddr : a.state.isAddress = false := State.isAddress_eq_false hk
    exact .inl ((ha.urlPart_eq rfl haddr).trans (hb.urlPart_eq rfl (hs ▸ haddr)).symm)
  · exact .inr ((ha.slash_eq rfl hk).trans (hb.slash_eq rfl (hs ▸ hk)).symm)

/-- One relaxation is enough to join shaped contexts as they stand. -/
theorem Shaped.joinDirect_eq (ha : a.Shaped) (hb : b.Shaped) (oka : a.isError = false)
    (okb : b.isError = false) : a.joinDirect b = a.mergeFramed b := by
  unfold Context.joinDirect mergeFramed
  rw [if_neg (by simp [oka]), if_neg (by simp [okb])]
  split
  · next heq => rw [heq, if_pos rfl, merge_self]
  · next hne =>
    split
    · next heq =>
      have hf : a.frame = b.frame := (congrArg frame heq :)
      have hu : a.urlPart ≠ b.urlPart := fun hu => hne (by rw [← heq, ← hu])
      have hs : a.slash = b.slash := (congrArg Context.slash heq :)
      rw [if_pos hf, merge, UrlPart.meet, Slash.meet, if_neg hu, if_pos hs]
    · next hurl =>
      split
      · next heq =>
        have hf : a.frame = b.frame := (congrArg frame heq :)
        have hs : a.slash ≠ b.slash := fun hs => hne (by rw [← heq, ← hs])
        have hu : a.urlPart = b.urlPart := (congrArg Context.urlPart heq :)
        rw [if_pos hf, merge, UrlPart.meet, Slash.meet, if_pos hu, if_neg hs]
      · next hslash =>
        rw [if_neg]
        intro hf
        rcases ha.agree hb hf with hu | hs
        · exact hslash (eq_of_frame hf hu rfl)
        · exact hurl (eq_of_frame hf rfl hs)

/-- Contexts that are equal join to themselves, all others to the merge of their nudges. -/
theorem Shaped.join_eq (ha : a.Shaped) (hb : b.Shaped) (oka : a.isError = false)
    (okb : b.isError = false) :
    a.join b = if a = b then some a else a.nudge.mergeFramed b.nudge := by
  have hn : a.nudge.joinDirect b.nudge = a.nudge.mergeFramed b.nudge :=
    ha.nudge.joinDirect_eq hb.nudge (isError_nudge oka) (isError_nudge okb)
  unfold Context.join
  rw [ha.joinDirect_eq hb oka okb, hn]
  by_cases heq : a = b
  · rw [if_pos heq, heq, mergeFramed_self]
  rw [if_neg heq]
  by_cases hf : a.frame = b.frame
  · obtain ⟨na, nb⟩ := ha.nudge_of_frame hb hf heq
    rw [na, nb, mergeFramed, if_pos hf]
  · rw [mergeFramed, if_neg hf]
    dsimp only
    split
    · rfl
    · next hsame =>
      simp only [not_or, Decidable.not_not] at hsame
      rw [hsame.1, hsame.2, mergeFramed, if_neg hf]

theorem isError_join (ha : a.Shaped) (hb : b.Shaped) (oka : a.isError = false)
    (okb : b.isError = false) (h : a.join b = some c) : c.isError = false := by
  rw [ha.join_eq hb oka okb] at h
  split at h
  · cases h
    exact oka
  · rw [mergeFramed] at h
    split at h
    · cases h
      exact isError_nudge oka
    · cases h

/-- A merge of nudges needs no nudge. -/
theorem nudge_of_mergeFramed (h : a.nudge.mergeFramed b.nudge = some c) : c.nudge = c := by
  rw [mergeFramed] at h
  split at h
  · cases h
    exact nudge_of_other (state_nudge a).1 (state_nudge a).2
  · cases h

theorem Shaped.join_comm (ha : a.Shaped) (hb : b.Shaped) (oka : a.isError = false)
    (okb : b.isError = false) : a.join b = b.join a := by
  rw [ha.join_eq hb oka okb, hb.join_eq ha okb oka]
  by_cases h : a = b
  · rw [if_pos h, if_pos h.symm, h]
  · rw [if_neg h, if_neg fun g => h g.symm, mergeFramed_comm]

/-- Unless all three are equal, what two contexts and a third join to is the merge of the three
nudges. -/
theorem Shaped.join_join (ha : a.Shaped) (hb : b.Shaped) (hc : c.Shaped)
    (oka : a.isError = false) (okb : b.isError = false) (okc : c.isError = false)
    (hne : ¬ (a = b ∧ b = c)) :
    (a.join b).bind (·.join c) =
      (a.nudge.mergeFramed b.nudge).bind (·.mergeFramed c.nudge) := by
  by_cases hab : a = b
  · subst hab
    have hac : a ≠ c := fun h => hne ⟨rfl, h⟩
    rw [ha.join_eq ha oka oka, if_pos rfl, mergeFramed_self]
    show a.join c = a.nudge.mergeFramed c.nudge
    rw [ha.join_eq hc oka okc, if_neg hac]
  · have hjoin : a.join b = a.nudge.mergeFramed b.nudge := by
      rw [ha.join_eq hb oka okb, if_neg hab]
    rw [hjoin]
    cases hm : a.nudge.mergeFramed b.nudge with
    | none => rfl
    | some e =>
      show e.join c = e.mergeFramed c.nudge
      have he : a.join b = some e := hjoin.trans hm
      have nudged : e.nudge = e := nudge_of_mergeFramed hm
      rw [(ha.join hb he).join_eq hc (isError_join ha hb oka okb he) okc]
      split
      · next heq => rw [← heq, nudged, mergeFramed_self]
      · rw [nudged]

theorem Shaped.join_assoc (ha : a.Shaped) (hb : b.Shaped) (hc : c.Shaped)
    (oka : a.isError = false) (okb : b.isError = false) (okc : c.isError = false) :
    (a.join b).bind (·.join c) = (b.join c).bind (a.join ·) := by
  by_cases heq : a = b ∧ b = c
  · obtain ⟨rfl, rfl⟩ := heq
    have self : a.join a = some a := by rw [ha.join_eq ha oka oka, if_pos rfl]
    rw [self]
    rfl
  -- the other grouping is this one from the other end
  have turned : (b.join c).bind (a.join ·) = (c.join b).bind (·.join a) := by
    rw [hb.join_comm hc okb okc]
    refine Option.bind_congr fun e he => ?_
    exact ha.join_comm (hc.join hb he) oka (isError_join hc hb okc okb he)
  calc (a.join b).bind (·.join c)
    _ = (a.nudge.mergeFramed b.nudge).bind (·.mergeFramed c.nudge) :=
      ha.join_join hb hc oka okb okc heq
    _ = (b.nudge.mergeFramed c.nudge).bind (a.nudge.mergeFramed ·) := mergeFramed_assoc ..
    _ = (c.nudge.mergeFramed b.nudge).bind (·.mergeFramed a.nudge) := by
      rw [mergeFramed_comm b.nudge]
      exact Option.bind_congr fun e _ => mergeFramed_comm _ e
    _ = (c.join b).bind (·.join a) :=
      (hc.join_join hb ha okc okb oka fun h => heq ⟨h.2.symm, h.1.symm⟩).symm
    _ = (b.join c).bind (a.join ·) := turned.symm

/-- **The order and the grouping of branches do not matter.** Joining is idempotent, commutative and
associative on the reachable contexts without an error, and where there is no join in one grouping
there is none in the other. -/
theorem Reachable.join_laws (ha : a.Reachable) (hb : b.Reachable) (hc : c.Reachable)
    (oka : a.isError = false) (okb : b.isError = false) (okc : c.isError = false) :
    a.join a = some a ∧ a.join b = b.join a ∧
      (a.join b).bind (·.join c) = (b.join c).bind (a.join ·) := by
  refine ⟨?_, ha.shaped.join_comm hb.shaped oka okb,
    ha.shaped.join_assoc hb.shaped hc.shaped oka okb okc⟩
  rw [ha.shaped.join_eq ha.shaped oka oka, if_pos rfl]

/-- Behind an equals sign, the start of a value and its query meet in a value of which the part is
unknown. -/
theorem join_laws_behind_equals :
    let a := start.advance "<a href=".toList
    let b := a.nudge
    let c := a.advance "x?y".toList
    (a.join b).bind (·.join c) = (b.join c).bind (a.join ·) ∧
      (a.join b).bind (·.join c) = some { c with urlPart := .unknown } := by
  intro a b c
  have ha : a.Reachable := .advance _ .start
  have hb : b.Reachable := .nudge ha
  have hc : c.Reachable := .advance _ ha
  have oka : a.isError = false := by decide +kernel
  have okb : b.isError = false := by decide +kernel
  have okc : c.isError = false := by decide +kernel
  obtain ⟨-, -, assoc⟩ := Reachable.join_laws ha hb hc oka okb okc
  exact ⟨assoc, by decide +kernel⟩

end Context

end Stencil.Markup
