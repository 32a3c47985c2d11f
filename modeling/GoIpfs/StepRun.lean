import Mathlib.Data.List.Basic

/-!
# Runs of a partial step function

A machine here is a partial step function `step : σ → α → Option σ`: `none`
says that the action is not enabled in the state.  A schedule is a list of
actions, so quantifying over schedules quantifies over every interleaving of
whatever the actions stand for.

The file keeps the induction arguments that the protocol developments need: an
invariant of every step holds along every run (`run_invariant`), an invariant
of the steps that meet a condition holds along every run whose steps all meet
it (`run_invariant_along`, and `run_invariant_iff` where the condition is exact),
a fact established by one step and kept by every later one holds at the end
(`run_established`), and steps that lower a rank cannot go on for longer than
the rank (`run_length_le`) and lead to a state where no action is enabled
(`exists_run_stuck`).
-/

namespace StepRun

open Option

variable {σ α : Type} (step : σ → α → Option σ)

/-- Execute the actions from left to right. -/
def run : σ → List α → Option σ
  | s, [] => some s
  | s, a :: rest => (step s a).bind fun t => run t rest

/-- Every step of the run meets `P` in the state it is taken from. -/
def Along (P : σ → α → Prop) : σ → List α → Prop
  | _, [] => True
  | s, a :: rest => P s a ∧ ∀ t, step s a = some t → Along P t rest

/-- Some step of the run meets `P` in the state it is taken from. -/
def Occurs (P : σ → α → Prop) : σ → List α → Prop
  | _, [] => False
  | s, a :: rest => P s a ∨ ∃ t, step s a = some t ∧ Occurs P t rest

/-- A guard that can be checked can be checked along a run. -/
instance decidableAlong (P : σ → α → Prop) [∀ s a, Decidable (P s a)] :
    ∀ s actions, Decidable (Along step P s actions)
  | _, [] => isTrue True.intro
  | s, a :: rest =>
    match h : step s a with
    | none => decidable_of_iff (P s a) (by simp [Along, h])
    | some t =>
      have := decidableAlong P t rest
      decidable_of_iff (P s a ∧ Along step P t rest) (by simp [Along, h])

variable {step}

@[simp] theorem run_nil (s : σ) : run step s [] = some s := rfl

variable {s t : σ}

theorem run_cons {a : α} {rest : List α} :
    run step s (a :: rest) = some t ↔
      ∃ m, step s a = some m ∧ run step m rest = some t := by
  simp [run, bind_eq_some_iff]

theorem run_append {before after : List α} :
    run step s (before ++ after) = some t ↔
      ∃ m, run step s before = some m ∧ run step m after = some t := by
  induction before generalizing s with
  | nil => simp
  | cons a rest ih =>
    simp only [List.cons_append, run_cons, ih]
    constructor
    · rintro ⟨m, hm, n, hn, ht⟩
      exact ⟨n, ⟨m, hm, hn⟩, ht⟩
    · rintro ⟨n, ⟨m, hm, hn⟩, ht⟩
      exact ⟨m, hm, n, hn, ht⟩

variable {actions : List α} (I : σ → Prop)

/-- **Invariant rule.**  What every step keeps, every run keeps. -/
theorem run_invariant (hstep : ∀ s a t, I s → step s a = some t → I t) (hs : I s)
    (hrun : run step s actions = some t) : I t := by
  induction actions generalizing s with
  | nil => simpa [run] using (some.inj hrun) ▸ hs
  | cons a rest ih =>
    obtain ⟨m, hm, hrest⟩ := run_cons.mp hrun
    exact ih (hstep s a m hs hm) hrest

variable (P : σ → α → Prop)

/-- **Guarded invariant rule.**  What the steps meeting `P` keep, every run
whose steps all meet `P` keeps. -/
theorem run_invariant_along (hstep : ∀ s a t, I s → P s a → step s a = some t → I t) (hs : I s)
    (halong : Along step P s actions) (hrun : run step s actions = some t) : I t := by
  induction actions generalizing s with
  | nil => simpa [run] using (some.inj hrun) ▸ hs
  | cons a rest ih =>
    obtain ⟨m, hm, hrest⟩ := run_cons.mp hrun
    exact ih (hstep s a m hs halong.1 hm) (halong.2 m hm) hrest

/-- **Exact guard.**  If from the invariant a step keeps it exactly when it
meets `P`, then a run stays in the invariant exactly when all its steps do. -/
theorem run_invariant_iff (hstep : ∀ s a t, I s → step s a = some t → (I t ↔ P s a)) (hs : I s)
    (hrun : run step s actions = some t) :
    (∀ before after m, actions = before ++ after → run step s before = some m → I m) ↔
      Along step P s actions := by
  induction actions generalizing s with
  | nil =>
    refine ⟨fun _ => True.intro, ?_⟩
    intro _ before after m heq hm
    obtain ⟨rfl, _⟩ := List.nil_eq_append_iff.mp heq
    obtain rfl : s = m := some.inj hm
    exact hs
  | cons a rest ih =>
    obtain ⟨u, hu, hrest⟩ := run_cons.mp hrun
    constructor
    · intro h
      have hIu : I u := h [a] rest u rfl (run_cons.mpr ⟨u, hu, rfl⟩)
      refine ⟨(hstep s a u hs hu).mp hIu, ?_⟩
      intro v hv
      obtain rfl : u = v := some.inj (hu.symm.trans hv)
      refine (ih hIu hrest).mp ?_
      intro before after m heq hm
      exact h (a :: before) after m (by rw [heq, List.cons_append]) (run_cons.mpr ⟨u, hu, hm⟩)
    · intro h before after m heq hm
      cases before with
      | nil =>
        obtain rfl : s = m := some.inj hm
        exact hs
      | cons b before =>
        obtain ⟨rfl, rfl⟩ := List.cons.inj heq
        obtain ⟨v, hv, hm⟩ := run_cons.mp hm
        obtain rfl : u = v := some.inj (hu.symm.trans hv)
        exact (ih ((hstep s a u hs hu).mpr h.1) hrest).mpr (h.2 u hu) before after m rfl hm

/-- **Establishment rule.**  If a step meeting `P` establishes `Q` from the
invariant and every step keeps `Q`, then `Q` holds after every run in which
such a step occurs. -/
theorem run_established (I Q : σ → Prop) (P : σ → α → Prop)
    (hinv : ∀ s a t, I s → step s a = some t → I t)
    (hest : ∀ s a t, I s → P s a → step s a = some t → Q t)
    (hkeep : ∀ s a t, Q s → step s a = some t → Q t) (hs : I s) (hocc : Occurs step P s actions)
    (hrun : run step s actions = some t) : Q t := by
  induction actions generalizing s with
  | nil => exact hocc.elim
  | cons a rest ih =>
    obtain ⟨m, hm, hrest⟩ := run_cons.mp hrun
    rcases hocc with hP | ⟨n, hn, hocc⟩
    · exact run_invariant Q hkeep (hest s a m hs hP hm) hrest
    · have hmn : m = n := some.inj (hm.symm.trans hn)
      subst hmn
      exact ih (hinv s a m hs hm) hocc hrest

variable {P}

theorem along_not_of_not_occurs (h : ¬ Occurs step P s actions) :
    Along step (fun s a => ¬ P s a) s actions := by
  induction actions generalizing s with
  | nil => exact True.intro
  | cons a rest ih =>
    refine ⟨fun hP => h (.inl hP), ?_⟩
    intro t ht
    exact ih (fun hocc => h (.inr ⟨t, ht, hocc⟩))

theorem along_of_forall (h : ∀ a ∈ actions, ∀ s, P s a) (s : σ) : Along step P s actions := by
  induction actions generalizing s with
  | nil => exact True.intro
  | cons a rest ih =>
    refine ⟨h a List.mem_cons_self s, ?_⟩
    intro t _
    exact ih (fun b hb => h b (List.mem_cons_of_mem _ hb)) t

/-- **Consequence along a run.**  If the steps meeting `P` keep an invariant and
meet `Q` in it, then a run whose steps all meet `P` has only steps that meet
`Q`. -/
theorem Along.mono_of_invariant {Q : σ → α → Prop}
    (hstep : ∀ s a t, I s → P s a → step s a = some t → I t) (himp : ∀ s a, I s → P s a → Q s a)
    (hs : I s) (h : Along step P s actions) : Along step Q s actions := by
  induction actions generalizing s with
  | nil => exact True.intro
  | cons a rest ih =>
    refine ⟨himp s a hs h.1, ?_⟩
    intro t ht
    exact ih (hstep s a t hs h.1 ht) (h.2 t ht)

/-- **Variant rule.**  If the steps meeting `P` lower a rank from every state of
the invariant, a run of such steps is at most as long as the rank allows. -/
theorem run_length_le (P : σ → α → Prop) (rank : σ → Nat)
    (hstep : ∀ s a t, I s → P s a → step s a = some t → I t ∧ rank t < rank s) (hs : I s)
    (halong : Along step P s actions) (hrun : run step s actions = some t) :
    actions.length + rank t ≤ rank s := by
  induction actions generalizing s with
  | nil =>
    obtain rfl : s = t := some.inj hrun
    simp
  | cons a rest ih =>
    obtain ⟨m, hm, hrest⟩ := run_cons.mp hrun
    obtain ⟨hmI, hlt⟩ := hstep s a m hs halong.1 hm
    have hle := ih hmI (halong.2 m hm) hrest
    simp only [List.length_cons]
    omega

/-- **Completion.**  If the steps from an invariant keep it and lower a rank, a
run can always go on until no action is enabled. -/
theorem exists_run_stuck (rank : σ → Nat)
    (hstep : ∀ s a t, I s → step s a = some t → I t ∧ rank t < rank s) (hs : I s) :
    ∃ actions t, run step s actions = some t ∧ ∀ a, step t a = none := by
  induction hrank : rank s using Nat.strongRecOn generalizing s with
  | ind n ih =>
    by_cases hstuck : ∀ a, step s a = none
    · exact ⟨[], s, rfl, hstuck⟩
    push Not at hstuck
    obtain ⟨a, ha⟩ := hstuck
    obtain ⟨m, hm⟩ := ne_none_iff_exists'.mp ha
    obtain ⟨hmI, hlt⟩ := hstep s a m hs hm
    obtain ⟨actions, t, hrun, ht⟩ := ih (rank m) (hrank ▸ hlt) hmI rfl
    exact ⟨a :: actions, t, run_cons.mpr ⟨m, hm, hrun⟩, ht⟩

omit step in
theorem guard_passed {p : Prop} [Decidable p] (h : (if p then some s else none) = some t) :
    p ∧ s = t := by
  obtain ⟨hp, heq⟩ := ite_none_right_eq_some.mp h
  exact ⟨hp, some.inj heq⟩

theorem exists_run_of_any {p : σ → Bool} (h : (run step s actions).any p = true) :
    ∃ t, run step s actions = some t ∧ p t = true := by
  cases hrun : run step s actions with
  | none => simp [hrun] at h
  | some t => exact ⟨t, rfl, by simpa [hrun] using h⟩

end StepRun
