import Mathlib.Logic.Basic

/-!
# Programs that fail and keep their effects

A Go function that returns an error leaves behind what it has already done.
`Prog ε σ α` is core's `ExceptT ε (StateM σ) α`: the state survives an error.
`exec` runs a program, `exec_bind_ok` takes a successful run apart, and `Wp` is
the weakest precondition for two postconditions, one for a result and one for
the state that an error leaves behind.
-/

namespace Effects

variable {ε σ α β : Type}

/-- A program with state `σ` that returns an `α` or fails with an `ε`. -/
abbrev Prog (ε σ α : Type) := ExceptT ε (StateM σ) α

/-- Run a program; the state is returned in both cases. -/
def exec (m : Prog ε σ α) (s : σ) : Except ε α × σ := m.run.run s

@[simp] theorem exec_pure (a : α) (s : σ) :
    exec (pure a : Prog ε σ α) s = (.ok a, s) := rfl

@[simp] theorem exec_throw (e : ε) (s : σ) :
    exec (throw e : Prog ε σ α) s = (.error e, s) := rfl

@[simp] theorem exec_get (s : σ) :
    exec (get : Prog ε σ σ) s = (.ok s, s) := rfl

@[simp] theorem exec_modify (f : σ → σ) (s : σ) :
    exec (modify f : Prog ε σ Unit) s = (.ok (), f s) := rfl

theorem exec_bind (m : Prog ε σ α) (f : α → Prog ε σ β) (s : σ) :
    exec (m >>= f) s =
      match exec m s with
      | (.ok a, t) => exec (f a) t
      | (.error e, t) => (.error e, t) := by
  show exec (ExceptT.bind m f) s = _
  unfold exec ExceptT.bind
  show (ExceptT.bindCont f (m.run.run s).1).run (m.run.run s).2 = _
  rcases m.run.run s with ⟨r, t⟩
  cases r <;> rfl

variable {m : Prog ε σ α} {t : σ} {f : α → Prog ε σ β}

theorem exec_bind_ok {s : σ} {b : β} :
    exec (m >>= f) s = (.ok b, t) ↔
      ∃ a u, exec m s = (.ok a, u) ∧ exec (f a) u = (.ok b, t) := by
  rw [exec_bind]
  rcases exec m s with ⟨r, u⟩
  cases r with
  | ok a =>
    constructor
    · intro h
      exact ⟨a, u, rfl, h⟩
    · intro h
      obtain ⟨a', u', heq, h⟩ := h
      cases heq
      exact h
  | error e => simp

theorem exec_bind_pure_ok {f : α → β} {s : σ} {b : β} :
    exec (m >>= fun a => pure (f a)) s = (.ok b, t) ↔ ∃ a, exec m s = (.ok a, t) ∧ f a = b := by
  rw [exec_bind_ok]
  constructor
  · rintro ⟨a, u, h, hpure⟩
    cases hpure
    exact ⟨a, h, rfl⟩
  · rintro ⟨a, h, rfl⟩
    exact ⟨a, t, h, rfl⟩

/-- A result that has been computed. -/
def ofResult : Except ε α → Prog ε σ α
  | .ok a => pure a
  | .error e => throw e

theorem exec_ofResult_bind (r : Except ε α) (k : α → Prog ε σ β) (s : σ) :
    exec (ofResult r >>= k) s =
      match r with
      | .ok a => exec (k a) s
      | .error e => (.error e, s) := by
  rw [exec_bind]
  cases r <;> rfl

/-- Run `m`, and `cleanup` after it if it fails. -/
def onError (cleanup : σ → σ) (m : Prog ε σ α) : Prog ε σ α :=
  tryCatch m fun e => do
    modify cleanup
    throw e

theorem exec_onError (cleanup : σ → σ) (m : Prog ε σ α) (s : σ) :
    exec (onError cleanup m) s =
      match exec m s with
      | (.ok a, t) => (.ok a, t)
      | (.error e, t) => (.error e, cleanup t) := by
  show (ExceptT.tryCatch m _).run.run s = _
  unfold exec ExceptT.tryCatch
  show ((match (m.run.run s).1 with
    | .ok a => pure (.ok a)
    | .error e => (do modify cleanup; throw e : Prog ε σ α).run) :
      StateM σ (Except ε α)).run (m.run.run s).2 = _
  rcases m.run.run s with ⟨r, t⟩
  cases r <;> rfl

/-- Run `m` and hand its error over as a value. -/
def attempt (m : Prog ε σ α) : Prog ε σ (Except ε α) := ExceptT.lift m.run

theorem exec_attempt (m : Prog ε σ α) (s : σ) :
    exec (attempt m) s = (.ok (exec m s).1, (exec m s).2) := rfl

theorem exec_adapt (f : ε → ε) (m : Prog ε σ α) (s : σ) :
    exec (ExceptT.adapt f m) s = (Except.mapError f (exec m s).1, (exec m s).2) := rfl

/-- **Weakest precondition.**  The program returns with `Q`, or fails and leaves
a state with `E`. -/
def Wp (E : σ → Prop) (m : Prog ε σ α) (Q : α → σ → Prop) (s : σ) : Prop :=
  match exec m s with
  | (.ok a, t) => Q a t
  | (.error _, t) => E t

variable {E : σ → Prop} {Q Q' : α → σ → Prop} {R : β → σ → Prop} {s : σ}

@[simp] theorem wp_pure {a : α} : Wp E (pure a : Prog ε σ α) Q s ↔ Q a s := Iff.rfl

@[simp] theorem wp_throw {e : ε} : Wp E (throw e : Prog ε σ α) Q s ↔ E s := Iff.rfl

@[simp] theorem wp_get {Q : σ → σ → Prop} :
    Wp E (get : Prog ε σ σ) Q s ↔ Q s s := Iff.rfl

@[simp] theorem wp_modify {f : σ → σ} {Q : Unit → σ → Prop} :
    Wp E (modify f : Prog ε σ Unit) Q s ↔ Q () (f s) := Iff.rfl

/-- **Sequencing.** -/
@[simp] theorem wp_bind : Wp E (m >>= f) R s ↔ Wp E m (fun a t => Wp E (f a) R t) s := by
  unfold Wp
  rw [exec_bind]
  rcases exec m s with ⟨r, t⟩
  cases r <;> exact Iff.rfl

/-- **Deferred clean-up.** -/
@[simp] theorem wp_ofResult {r : Except ε α} :
    Wp E (ofResult r) Q s ↔ (∀ a, r = .ok a → Q a s) ∧ ((∀ a, r ≠ .ok a) → E s) := by
  cases r <;> simp [ofResult]

theorem ofResult_wp (r : Except ε α) (hE : E s) :
    Wp E (ofResult r) (fun a t => r = .ok a ∧ t = s) s :=
  wp_ofResult.mpr ⟨fun _ h => ⟨h, rfl⟩, fun _ => hE⟩

@[simp] theorem wp_onError {cleanup : σ → σ} :
    Wp E (onError cleanup m) Q s ↔ Wp (fun t => E (cleanup t)) m Q s := by
  unfold Wp
  rw [exec_onError]
  rcases exec m s with ⟨r, t⟩
  cases r <;> exact Iff.rfl

theorem wp_of_exec (hok : ∀ a t, exec m s = (.ok a, t) → Q a t)
    (herr : ∀ e t, exec m s = (.error e, t) → E t) : Wp E m Q s := by
  unfold Wp
  rcases hm : exec m s with ⟨r, t⟩
  cases r with
  | ok a => exact hok a t hm
  | error e => exact herr e t hm

section

variable (h : Wp E m Q s)
include h

/-- **Consequence.** -/
theorem Wp.mono (hQ : ∀ a t, Q a t → Q' a t) : Wp E m Q' s := by
  unfold Wp at h ⊢
  rcases hm : exec m s with ⟨r, t⟩
  rw [hm] at h
  cases r with
  | ok a => exact hQ a t h
  | error e => exact h

/-- **Sequencing by specifications.** -/
theorem Wp.bind (hf : ∀ a t, Q a t → Wp E (f a) R t) :
    Wp E (m >>= f) R s := wp_bind.mpr (h.mono hf)

theorem Wp.imp {E' : σ → Prop} (hE : ∀ t, E t → E' t) : Wp E' m Q s := by
  unfold Wp at h ⊢
  rcases hm : exec m s with ⟨r, t⟩
  rw [hm] at h
  cases r with
  | ok a => exact h
  | error e => exact hE t h

theorem Wp.ok {a : α} (hrun : exec m s = (.ok a, t)) : Q a t := by
  unfold Wp at h
  rw [hrun] at h
  exact h

theorem Wp.error {e : ε} (hrun : exec m s = (.error e, t)) : E t := by
  unfold Wp at h
  rw [hrun] at h
  exact h

end

-- goals about programs are only taken apart by the rules above
attribute [irreducible] Wp

end Effects
