import GoIpfs.Effects

/-!
# Two runs side by side

`Agree R` compares two outcomes: the same error, or results related by `R`.
`Both` compares two programs that are run from two states.  Its rules take the
programs apart in step, one statement of each at a time.
-/

namespace Effects

variable {ε σ α β γ δ : Type}

/-- Outcomes that fail alike or give related results. -/
def Agree (R : α → β → Prop) : Except ε α → Except ε β → Prop
  | .ok a, .ok b => R a b
  | .error e, .error e' => e = e'
  | _, _ => False

section Agree

variable {R : α → β → Prop} {S : γ → δ → Prop} {x : Except ε α} {y : Except ε β}

theorem Agree.refl {R : α → α → Prop} (hR : ∀ a, R a a) (x : Except ε α) : Agree R x x := by
  cases x with
  | error e => rfl
  | ok a => exact hR a

variable (h : Agree R x y)
include h

theorem Agree.elim : (∃ e, x = .error e ∧ y = .error e) ∨ ∃ a b, x = .ok a ∧ y = .ok b ∧ R a b := by
  cases x with
  | error e =>
    cases y with
    | error e' =>
      have he : e = e' := h
      subst he
      exact .inl ⟨e, rfl, rfl⟩
    | ok b => exact h.elim
  | ok a =>
    cases y with
    | error e' => exact h.elim
    | ok b => exact .inr ⟨a, b, rfl, rfl, h⟩

theorem Agree.mono {R' : α → β → Prop} (hR : ∀ a b, R a b → R' a b) : Agree R' x y := by
  rcases h.elim with ⟨e, rfl, rfl⟩ | ⟨a, b, rfl, rfl, hab⟩
  · rfl
  · exact hR a b hab

theorem Agree.bind {f : α → Except ε γ} {g : β → Except ε δ}
    (hfg : ∀ a b, R a b → Agree S (f a) (g b)) : Agree S (x >>= f) (y >>= g) := by
  rcases h.elim with ⟨e, rfl, rfl⟩ | ⟨a, b, rfl, rfl, hab⟩
  · rfl
  · exact hfg a b hab

theorem Agree.map {f : α → γ} {g : β → δ} (hfg : ∀ a b, R a b → S (f a) (g b)) :
    Agree S (f <$> x) (g <$> y) := by
  rcases h.elim with ⟨e, rfl, rfl⟩ | ⟨a, b, rfl, rfl, hab⟩
  · rfl
  · exact hfg a b hab

end Agree

/-- **Two runs.**  Both programs fail with the same error, or both return and
their results and states are related. -/
def Both (m : Prog ε σ α) (n : Prog ε σ β) (Q : α → σ → β → σ → Prop) (s t : σ) : Prop :=
  Agree (fun a b => Q a (exec m s).2 b (exec n t).2) (exec m s).1 (exec n t).1

section Both

variable {s t : σ} {Q Q' : α → σ → β → σ → Prop} {m : Prog ε σ α} {n : Prog ε σ β}

theorem both_pure {a : α} {b : β} :
    Both (pure a : Prog ε σ α) (pure b : Prog ε σ β) Q s t ↔ Q a s b t := Iff.rfl

theorem both_throw {e : ε} :
    Both (throw e : Prog ε σ α) (throw e : Prog ε σ β) Q s t := rfl

theorem both_get {Q : σ → σ → σ → σ → Prop} :
    Both (get : Prog ε σ σ) (get : Prog ε σ σ) Q s t ↔ Q s s t t := Iff.rfl

theorem both_modify {f g : σ → σ} {Q : Unit → σ → Unit → σ → Prop} :
    Both (modify f : Prog ε σ Unit) (modify g : Prog ε σ Unit) Q s t ↔
      Q () (f s) () (g t) := Iff.rfl

/-- **Sequencing.** -/
theorem both_bind {f : α → Prog ε σ γ} {g : β → Prog ε σ δ} {R : γ → σ → δ → σ → Prop}
    (h : Both m n (fun a s b t => Both (f a) (g b) R s t) s t) :
    Both (m >>= f) (n >>= g) R s t := by
  unfold Both at h ⊢
  rw [exec_bind, exec_bind]
  rcases hm : exec m s with ⟨x, s'⟩
  rcases hn : exec n t with ⟨y, t'⟩
  rw [hm, hn] at h
  rcases h.elim with ⟨e, hx, hy⟩ | ⟨a, b, hx, hy, hab⟩
  · obtain rfl : x = .error e := hx
    obtain rfl : y = .error e := hy
    rfl
  · obtain rfl : x = .ok a := hx
    obtain rfl : y = .ok b := hy
    exact hab

/-- **Consequence.** -/
theorem Both.mono (h : Both m n Q s t) (hQ : ∀ a s b t, Q a s b t → Q' a s b t) : Both m n Q' s t :=
  Agree.mono h fun a b => hQ a _ b _

theorem both_adapt (f : ε → ε) (h : Both m n Q s t) :
    Both (ExceptT.adapt f m) (ExceptT.adapt f n) Q s t := by
  unfold Both at h ⊢
  rw [exec_adapt, exec_adapt]
  rcases h.elim with ⟨e, hx, hy⟩ | ⟨a, b, hx, hy, hab⟩
  · rw [hx, hy]
    rfl
  · rw [hx, hy]
    exact hab

theorem Both.outcome_eq {n : Prog ε σ α} {Q : α → σ → α → σ → Prop} (h : Both m n Q s t)
    (hQ : ∀ a s b t, Q a s b t → a = b) : (exec m s).1 = (exec n t).1 := by
  rcases h.elim with ⟨e, hx, hy⟩ | ⟨a, b, hx, hy, hab⟩
  · rw [hx, hy]
  · rw [hx, hy, hQ _ _ _ _ hab]

end Both

end Effects
