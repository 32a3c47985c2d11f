import Mathlib.Data.List.Basic

/-!
# Loops that stop at the first error

A loop over a list that makes a call for each element and returns with the first
error.  `callUntilError` logs the calls with their outcomes.
-/

namespace CallLoop

variable {α ε : Type}

/-- The calls that the loop makes, each with whether it succeeded, and its error. -/
def callUntilError (f : α → Option ε) : List α → List (α × Bool) × Option ε
  | [] => ([], none)
  | x :: xs =>
    match f x with
    | some e => ([(x, false)], some e)
    | none => ((x, true) :: (callUntilError f xs).1, (callUntilError f xs).2)

variable {f : α → Option ε} {l : List α} {e : ε}

theorem callUntilError_cons_none {x : α} (h : f x = none) :
    callUntilError f (x :: l) = ((x, true) :: (callUntilError f l).1, (callUntilError f l).2) := by
  simp [callUntilError, h]

theorem callUntilError_cons_some {x : α} (h : f x = some e) :
    callUntilError f (x :: l) = ([(x, false)], some e) := by
  simp [callUntilError, h]

/-- Without an error every call is made. -/
theorem calls_of_ok (h : (callUntilError f l).2 = none) :
    (callUntilError f l).1 = l.map (·, true) := by
  induction l with
  | nil => rfl
  | cons x l ih =>
    cases hx : f x with
    | some e =>
      rw [callUntilError_cons_some hx] at h
      cases h
    | none =>
      rw [callUntilError_cons_none hx] at h ⊢
      rw [ih h]
      rfl

/-- With one the loop stops there. -/
theorem calls_of_error (h : (callUntilError f l).2 = some e) :
    ∃ done x rest, l = done ++ x :: rest ∧ f x = some e ∧
      (callUntilError f l).1 = done.map (·, true) ++ [(x, false)] := by
  induction l with
  | nil => cases h
  | cons x l ih =>
    cases hx : f x with
    | some e' =>
      rw [callUntilError_cons_some hx] at h ⊢
      cases h
      exact ⟨[], x, l, rfl, hx, rfl⟩
    | none =>
      rw [callUntilError_cons_none hx] at h ⊢
      obtain ⟨done, y, rest, rfl, hy, hcalls⟩ := ih h
      exact ⟨x :: done, y, rest, rfl, hy, by rw [hcalls]; rfl⟩

/-- The calls are made in order. -/
theorem map_fst_calls : (callUntilError f l).1.map Prod.fst <+: l := by
  cases h : (callUntilError f l).2 with
  | none =>
    rw [calls_of_ok h]
    exact ⟨[], by simp [Function.comp_def]⟩
  | some e =>
    obtain ⟨done, x, rest, rfl, _, hcalls⟩ := calls_of_error h
    refine ⟨rest, ?_⟩
    rw [hcalls]
    simp [Function.comp_def]

end CallLoop
