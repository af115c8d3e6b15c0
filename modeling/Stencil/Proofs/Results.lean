import Mathlib.Data.List.Forall2

/-!
# Results

How a computation that may fail came to its result: by the results of its parts. Errors come from
the parts as well, so a computation avoids a kind of errors if all its parts do (`Avoids`); what its
results and its errors are is told together by `Ends`. Two computations agree if they fail together
and give related results otherwise (`Agree`); they do if their parts agree.
-/

set_option autoImplicit false

namespace Stencil

variable {ε α β : Type}

theorem exists_of_bind_eq_ok {x : Except ε α} {f : α → Except ε β} {b : β}
    (h : x >>= f = .ok b) : ∃ a, x = .ok a ∧ f a = .ok b := by
  cases x with
  | error e => cases h
  | ok a => exact ⟨a, rfl, h⟩

theorem exists_of_toOption_any {x : Except ε α} {f : α → Bool} (h : x.toOption.any f = true) :
    ∃ a, x = .ok a ∧ f a = true := by
  cases x with
  | error e => cases h
  | ok a => exact ⟨a, rfl, h⟩

theorem exists_of_map_eq_ok {x : Except ε α} {f : α → β} {b : β} (h : f <$> x = .ok b) :
    ∃ a, x = .ok a ∧ b = f a := by
  cases x with
  | error e => cases h
  | ok a =>
    cases h
    exact ⟨a, rfl, rfl⟩

/-- What every result of a function has, all results for a list have. -/
theorem forall_mem_of_mapM {f : α → Except ε β} {P : β → Prop} (hf : ∀ a b, f a = .ok b → P b)
    {as : List α} {bs : List β} (h : as.mapM f = .ok bs) : ∀ b ∈ bs, P b := by
  induction as generalizing bs with
  | nil =>
    cases h
    nofun
  | cons a as ih =>
    rw [List.mapM_cons] at h
    obtain ⟨b, hb, h₁⟩ := exists_of_bind_eq_ok h
    obtain ⟨rest, hrest, h₂⟩ := exists_of_bind_eq_ok h₁
    cases h₂
    exact List.forall_mem_cons.mpr ⟨hf a b hb, ih hrest⟩

/-- Each result for a list is the result for one of its items. -/
theorem exists_mem_of_mapM {f : α → Except ε β} {as : List α} {bs : List β}
    (h : as.mapM f = .ok bs) : ∀ b ∈ bs, ∃ a ∈ as, f a = .ok b := by
  induction as generalizing bs with
  | nil =>
    cases h
    nofun
  | cons a as ih =>
    rw [List.mapM_cons] at h
    obtain ⟨b, hb, h₁⟩ := exists_of_bind_eq_ok h
    obtain ⟨rest, hrest, h₂⟩ := exists_of_bind_eq_ok h₁
    cases h₂
    refine List.forall_mem_cons.mpr ⟨⟨a, List.mem_cons_self, hb⟩, fun c hc => ?_⟩
    obtain ⟨d, hd, hfd⟩ := ih hrest c hc
    exact ⟨d, List.mem_cons_of_mem a hd, hfd⟩

theorem length_of_mapM {f : α → Except ε β} {as : List α} {bs : List β}
    (h : as.mapM f = .ok bs) : bs.length = as.length := by
  induction as generalizing bs with
  | nil =>
    cases h
    rfl
  | cons a as ih =>
    rw [List.mapM_cons] at h
    obtain ⟨b, -, h₁⟩ := exists_of_bind_eq_ok h
    obtain ⟨rest, hrest, h₂⟩ := exists_of_bind_eq_ok h₁
    cases h₂
    rw [List.length_cons, List.length_cons, ih hrest]

/-- What each success of a function tells of its argument holds of a whole list. -/
theorem forall_arg_of_mapM {f : α → Except ε β} {P : α → Prop} (hf : ∀ a b, f a = .ok b → P a)
    {as : List α} {bs : List β} (h : as.mapM f = .ok bs) : ∀ a ∈ as, P a := by
  induction as generalizing bs with
  | nil => nofun
  | cons a as ih =>
    rw [List.mapM_cons] at h
    obtain ⟨b, hb, h₁⟩ := exists_of_bind_eq_ok h
    obtain ⟨rest, hrest, -⟩ := exists_of_bind_eq_ok h₁
    exact List.forall_mem_cons.mpr ⟨hf a b hb, ih hrest⟩

/-- Steps that all go well go well one after the other. -/
theorem forM_eq_ok {f : α → Except ε PUnit} {as : List α} (h : ∀ a ∈ as, f a = .ok ⟨⟩) :
    as.forM f = .ok ⟨⟩ := by
  induction as with
  | nil => rfl
  | cons a as ih =>
    obtain ⟨ha, hrest⟩ := List.forall_mem_cons.mp h
    have first : (a :: as).forM f = f a >>= fun _ => as.forM f := rfl
    rw [first, ha]
    exact ih hrest

/-- The steps of an iteration that ends well all end well. -/
theorem forall_of_forM_eq_ok {f : α → Except ε Unit} {as : List α}
    (h : as.forM f = .ok ()) : ∀ a ∈ as, f a = .ok () := by
  induction as with
  | nil => nofun
  | cons a as ih =>
    have whole : (f a >>= fun _ => as.forM f) = .ok () := h
    obtain ⟨_, ha, hrest⟩ := exists_of_bind_eq_ok whole
    exact List.forall_mem_cons.mpr ⟨ha, ih hrest⟩

/-- A result is no error of a kind. -/
def Avoids (bad : ε → Prop) (r : Except ε α) : Prop :=
  ∀ e, r = .error e → ¬ bad e

/-- A result that does not avoid a kind of errors is one of them. -/
theorem exists_of_not_avoids {bad : ε → Prop} {r : Except ε α} (h : ¬ Avoids bad r) :
    ∃ e, r = .error e ∧ bad e := by
  simpa [Avoids] using h

instance {bad : ε → Prop} [DecidablePred bad] : (r : Except ε α) → Decidable (Avoids bad r)
  | .ok _ => .isTrue nofun
  | .error e => decidable_of_iff (¬ bad e) (by simp [Avoids])

namespace Avoids

variable {bad : ε → Prop}

theorem ok (a : α) : Avoids bad (.ok a) := nofun

theorem error {e : ε} (h : ¬ bad e) : Avoids bad (.error e : Except ε α) := by
  rintro _ ⟨⟩
  exact h

protected theorem bind {x : Except ε α} {f : α → Except ε β} (hx : Avoids bad x)
    (hf : ∀ a, x = .ok a → Avoids bad (f a)) : Avoids bad (x >>= f) := by
  cases x with
  | error e => exact error (hx e rfl)
  | ok a => exact hf a rfl

protected theorem map {x : Except ε α} (hx : Avoids bad x) (f : α → β) :
    Avoids bad (x.map f) := by
  cases x with
  | error e => exact error (hx e rfl)
  | ok a => exact ok (f a)

protected theorem mapM {f : α → Except ε β} (hf : ∀ a, Avoids bad (f a)) (as : List α) :
    Avoids bad (as.mapM f) := by
  induction as with
  | nil => exact ok []
  | cons a as ih =>
    rw [List.mapM_cons]
    exact (hf a).bind fun b _ => ih.bind fun rest _ => ok (b :: rest)

end Avoids

/-- A computation that ends in a result of a kind, or in an error of a kind. -/
def Ends (E : ε → Prop) (P : α → Prop) : Except ε α → Prop
  | .ok a => P a
  | .error e => E e

namespace Ends

variable {E : ε → Prop} {P : α → Prop} {Q : β → Prop}

theorem ok {a : α} (h : P a) : Ends E P (.ok a) := h

theorem error {e : ε} (h : E e) : Ends E P (.error e) := h

theorem of_ok {x : Except ε α} {a : α} (h : Ends E P x) (hx : x = .ok a) : P a := by
  rw [hx] at h
  exact h

theorem of_error {x : Except ε α} {e : ε} (h : Ends E P x) (hx : x = .error e) : E e := by
  rw [hx] at h
  exact h

theorem and {P' : α → Prop} {x : Except ε α} (h : Ends E P x) (hP : ∀ a, x = .ok a → P' a) :
    Ends E (fun a => P a ∧ P' a) x := by
  cases x with
  | error e => exact h
  | ok a => exact ⟨h, hP a rfl⟩

protected theorem bind {x : Except ε α} {f : α → Except ε β} (hx : Ends E P x)
    (hf : ∀ a, P a → Ends E Q (f a)) : Ends E Q (x >>= f) := by
  cases x with
  | error e => exact hx
  | ok a => exact hf a hx

protected theorem map {x : Except ε α} {f : α → β} (hx : Ends E P x) (hf : ∀ a, P a → Q (f a)) :
    Ends E Q (x.map f) := by
  cases x with
  | error e => exact hx
  | ok a => exact hf a hx

protected theorem mapM {f : α → Except ε β} {as : List α} (hf : ∀ a ∈ as, Ends E Q (f a)) :
    Ends E (∀ b ∈ ·, Q b) (as.mapM f) := by
  induction as with
  | nil => exact ok (List.forall_mem_nil _)
  | cons a as ih =>
    obtain ⟨ha, hrest⟩ := List.forall_mem_cons.mp hf
    rw [List.mapM_cons]
    refine ha.bind fun b hb => (ih hrest).bind fun bs hbs => ?_
    exact ok (List.forall_mem_cons.mpr ⟨hb, hbs⟩)

end Ends

/-- Two computations that both fail, or give results in a relation. -/
def Agree {ε₁ ε₂ α₁ α₂ : Type} (R : α₁ → α₂ → Prop) : Except ε₁ α₁ → Except ε₂ α₂ → Prop
  | .ok a, .ok b => R a b
  | .error _, .error _ => True
  | _, _ => False

namespace Agree

variable {ε₁ ε₂ α₁ α₂ β₁ β₂ : Type} {R : α₁ → α₂ → Prop} {S : β₁ → β₂ → Prop}
  {x : Except ε₁ α₁} {y : Except ε₂ α₂}

theorem ok {a : α₁} {b : α₂} (h : R a b) :
    Agree R (.ok a : Except ε₁ α₁) (.ok b : Except ε₂ α₂) := h

theorem error (e : ε₁) (e' : ε₂) : Agree R (.error e) (.error e') := trivial

protected theorem bind {f : α₁ → Except ε₁ β₁} {g : α₂ → Except ε₂ β₂} (h : Agree R x y)
    (hfg : ∀ a b, R a b → Agree S (f a) (g b)) :
    Agree S (x >>= f) (y >>= g) := by
  cases x with
  | error e =>
    cases y with
    | error e' => exact error e e'
    | ok b => exact h.elim
  | ok a =>
    cases y with
    | error e' => exact h.elim
    | ok b => exact hfg a b h

protected theorem map {f : α₁ → β₁} {g : α₂ → β₂} (h : Agree R x y)
    (hfg : ∀ a b, R a b → S (f a) (g b)) : Agree S (x.map f) (y.map g) := by
  cases x with
  | error e =>
    cases y with
    | error e' => exact error e e'
    | ok b => exact h.elim
  | ok a =>
    cases y with
    | error e' => exact h.elim
    | ok b => exact hfg a b h

theorem mono {R' : α₁ → α₂ → Prop} (h : Agree R x y) (imp : ∀ a b, R a b → R' a b) :
    Agree R' x y := by
  cases x with
  | error e =>
    cases y with
    | error e' => exact error e e'
    | ok b => exact h.elim
  | ok a =>
    cases y with
    | error e' => exact h.elim
    | ok b => exact imp a b h

protected theorem refl {ε α : Type} {R : α → α → Prop} (h : ∀ a, R a a) (x : Except ε α) :
    Agree R x x := by
  cases x with
  | error e => exact error e e
  | ok a => exact h a

protected theorem symm {R' : α₂ → α₁ → Prop} (h : Agree R x y) (flip : ∀ a b, R a b → R' b a) :
    Agree R' y x := by
  cases x with
  | error e =>
    cases y with
    | error e' => exact error e' e
    | ok b => exact h.elim
  | ok a =>
    cases y with
    | error e' => exact h.elim
    | ok b => exact flip a b h

protected theorem trans {ε₃ α₃ : Type} {z : Except ε₃ α₃} {R₁ : α₂ → α₃ → Prop}
    {R₂ : α₁ → α₃ → Prop} (h : Agree R x y) (h' : Agree R₁ y z)
    (comp : ∀ a b c, R a b → R₁ b c → R₂ a c) : Agree R₂ x z := by
  cases x with
  | error e =>
    cases y with
    | error e' =>
      cases z with
      | error e'' => exact error e e''
      | ok c => exact h'.elim
    | ok b => exact h.elim
  | ok a =>
    cases y with
    | error e' => exact h.elim
    | ok b =>
      cases z with
      | error e'' => exact h'.elim
      | ok c => exact comp a b c h h'

/-- Two computations that do not use each other's results may come in either order. -/
theorem bind_comm {ε α β γ : Type} (x : Except ε α) (y : Except ε β) (f : α → β → Except ε γ) :
    Agree Eq (x >>= fun a => y >>= f a) (y >>= fun b => x >>= fun a => f a b) := by
  cases x with
  | error e =>
    cases y with
    | error e' => exact error e e'
    | ok b => exact error e e
  | ok a =>
    cases y with
    | error e' => exact error e' e'
    | ok b => exact Agree.refl (fun _ => rfl) (f a b)

/-- Computations for the items of two lists agree where those for related items do. -/
protected theorem mapM {f : α₁ → Except ε₁ β₁} {g : α₂ → Except ε₂ β₂}
    (hfg : ∀ a b, R a b → Agree S (f a) (g b)) {as : List α₁} {bs : List α₂}
    (h : List.Forall₂ R as bs) : Agree (List.Forall₂ S) (as.mapM f) (bs.mapM g) := by
  induction h with
  | nil => exact ok .nil
  | cons hab _ ih =>
    rw [List.mapM_cons, List.mapM_cons]
    refine (hfg _ _ hab).bind fun c d hcd => ih.bind fun cs ds hrest => ?_
    exact ok (.cons hcd hrest)

/-- Where one of two computations that agree gives a result, the other gives a related one. -/
theorem exists_of_isOk (h : Agree R x y) (hx : x.isOk = true) :
    ∃ a b, x = .ok a ∧ y = .ok b ∧ R a b := by
  cases x with
  | error e => cases hx
  | ok a =>
    cases y with
    | error e' => exact h.elim
    | ok b => exact ⟨a, b, rfl, rfl, h⟩

end Agree

/-- Related lists have related items at the same numbers. -/
theorem rel_getElem? {R : α → β → Prop} {as : List α} {bs : List β} (h : List.Forall₂ R as bs)
    (n : Nat) : Option.Rel R as[n]? bs[n]? := by
  induction h generalizing n with
  | nil => exact .none
  | cons hab _ ih =>
    cases n with
    | zero => exact .some hab
    | succ n => exact ih n

end Stencil
