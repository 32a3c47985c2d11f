import GoIpfs.CollectorTermination

/-!
# Incomplete marking aborts the collection

The closures of `ColoredSet` swallow the errors of `ipld.GetLinks`: they return
no links and no error, and only the flag `errors`, shared by three walks,
remembers that something is missing.  `MarkFault` names the steps at which
marking becomes incomplete.  From such a step on the collector is `Doomed`:
either the context is cancelled and the sweep loop is never entered, or the
flag, the failing walk or the pending error leads to `abort`.
-/

namespace Gc

open GraphWalk StepRun

variable {Cid : Type} [DecidableEq Cid]

/-- The walk whose workers are fetching, with the stage it belongs to. -/
def Pc.exploring : Pc Cid → Option (Stage × Walk Cid)
  | .walk stage _ w | .drain stage _ w => some (stage, w)
  | _ => none

/-- The steps at which marking becomes incomplete: a visited CID is rejected by
`verifcid`, fetching its links fails with an error that its stage minds, a
call of the pinner fails, or the context is cancelled. -/
def MarkFault (env : Env Cid) (s : State Cid) : Choice Cid → Prop
  | .cancel => s.pc.marking = true
  | .next =>
    (s.pc = .recursiveKeys ∧ ∃ msg, env.recursiveKeys = .error msg) ∨
      (s.pc = .directKeys ∧ ∃ msg, env.directKeys = .error msg) ∨
      (s.pc = .internalPins ∧ ∃ msg, env.internalPins = .error msg)
  | .fetch c broken _ =>
    ∃ stage w, s.pc.exploring = some (stage, w) ∧ c ∈ w.active ∧
      (env.validateCid c ≠ none ∨
        ∃ err, fetchLinks env s c broken = some (.error err) ∧ stage.minds err = true)
  | _ => False

/-- The three calls of the pinner succeed. -/
def PinnerAnswers (env : Env Cid) : Prop :=
  (∃ keys, env.recursiveKeys = .ok keys) ∧ (∃ keys, env.directKeys = .ok keys) ∧
    ∃ keys, env.internalPins = .ok keys

/-- `err` is the error an incomplete marking is reported with. -/
def Verdict (env : Env Cid) (err : GcError Cid) : Prop :=
  PinnerAnswers env → err = .cannotFetchAllLinks

/-- Where `DeleteBlock` is called or has just been called. -/
def Pc.deleting : Pc Cid → Bool
  | .receive | .deleted _ => true
  | _ => false

/-- The collector is on its way to the error that ends the run. -/
def Failing (env : Env Cid) (s : State Cid) : Pc Cid → Prop
  | .drain _ _ _ => True
  | .abort err => Verdict env err
  | .done => ∃ err, s.output.getLast? = some (.error err) ∧ Verdict env err
  | pc => pc.marking = true ∧ s.errors = true

/-- Nothing was deleted and nothing will be. -/
structure Doomed (env : Env Cid) (s : State Cid) : Prop where
  noDelete : s.deleteCalls = []
  fate : s.cancelled = true ∧ s.pc.deleting = false ∨
    s.cancelled = false ∧ Failing env s s.pc

variable {env : Env Cid} {s t : State Cid} {ch : Choice Cid}

omit [DecidableEq Cid] in
private theorem exploring_marking {stage : Stage} {w : Walk Cid}
    (h : s.pc.exploring = some (stage, w)) : s.pc.marking = true := by
  cases hpc : s.pc <;> simp [hpc, Pc.exploring] at h <;> rfl

theorem MarkFault.marking (h : MarkFault env s ch) : s.pc.marking = true := by
  cases ch with
  | cancel => exact h
  | next =>
    rcases h with ⟨hpc, _⟩ | ⟨hpc, _⟩ | ⟨hpc, _⟩ <;> rw [hpc] <;> rfl
  | fetch c broken sent =>
    obtain ⟨stage, w, hexp, _⟩ := h
    exact exploring_marking hexp
  | _ => exact h.elim

theorem marking_forward (htrans : Transition env s ch t) (hs : s.pc.marking = true) :
    t.deleteCalls = s.deleteCalls ∧ t.pc.deleting = false := by
  cases htrans with
  | cancel =>
    refine ⟨rfl, ?_⟩
    cases hpc : s.pc <;> simp [hpc, Pc.marking] at hs <;> rfl
  | @rootsDone stage _ | @reported stage _ _ =>
    exact ⟨rfl, by cases stage <;> rfl⟩
  | sweepOn hpc | deleteErr hpc | deleteOk hpc => simp [hpc, Pc.marking] at hs
  | _ => exact ⟨rfl, rfl⟩

theorem noDelete_step (s : State Cid) (ch : Choice Cid) (t : State Cid)
    (h : s.pc.marking = true → s.deleteCalls = []) (hstep : step env s ch = some t)
    (ht : t.pc.marking = true) : t.deleteCalls = [] := by
  obtain ⟨hs, _, hcalls, _⟩ := marking_back (transition_of_step hstep) ht
  rw [hcalls]
  exact h hs

omit [DecidableEq Cid] in
private theorem verdict_of_error {msg : String} {err : GcError Cid}
    (h : env.recursiveKeys = .error msg ∨ env.directKeys = .error msg ∨
      env.internalPins = .error msg) : Verdict env err := by
  intro hanswers
  obtain ⟨⟨rkeys, hrkeys⟩, ⟨dkeys, hdkeys⟩, ikeys, hikeys⟩ := hanswers
  rcases h with h | h | h
  · simp [hrkeys] at h
  · simp [hdkeys] at h
  · simp [hikeys] at h

private theorem failing_of_fault (hfault : MarkFault env s ch)
    (htrans : Transition env s ch t) (ht : t.cancelled = false) :
    Failing env t t.pc := by
  cases htrans with
  | cancel => simp at ht
  | rkeysErr hpc hkeys => exact verdict_of_error (.inl hkeys)
  | dkeysErr hpc hkeys => exact verdict_of_error (.inr (.inl hkeys))
  | ikeysErr hpc hkeys => exact verdict_of_error (.inr (.inr hkeys))
  | swallowed => exact ⟨rfl, rfl⟩
  | unsent | rejected | drainFetch => exact True.intro
  | explored hpc hc hvalid hget =>
    obtain ⟨stage, w, hexp, _, hbad⟩ := hfault
    rcases hbad with hrej | ⟨err, herr, hminds⟩
    · exact absurd hvalid hrej
    · simp [fetchLinks, hget] at herr
  | missing hpc hc hvalid hget =>
    obtain ⟨stage, w, hexp, _, hbad⟩ := hfault
    obtain ⟨rfl, rfl⟩ : .bestEffort = stage ∧ _ = w := by
      simpa [hpc, Pc.exploring] using hexp
    rcases hbad with hrej | ⟨err, herr, hminds⟩
    · exact absurd hvalid hrej
    · obtain rfl : FetchError.notFound = err := by simpa [fetchLinks, hget] using herr
      simp [Stage.minds] at hminds
  | rkeys hpc hkeys | dkeys hpc hkeys | ikeys hpc hkeys =>
    simp [MarkFault, hpc, hkeys] at hfault
  | rootsDone hpc | nextRoot hpc | walkDone hpc | drained hpc | markFailed hpc
  | markDone hpc | allKeysErr hpc | allKeys hpc | sweepStop hpc | sweepOn hpc
  | swept hpc | collectErr hpc | collected hpc =>
    simp [MarkFault, hpc] at hfault
  | _ => exact hfault.elim

/-- **A fault dooms the run.** -/
theorem doomed_of_fault (s : State Cid) (ch : Choice Cid) (t : State Cid)
    (h : s.pc.marking = true → s.deleteCalls = []) (hfault : MarkFault env s ch)
    (hstep : step env s ch = some t) : Doomed env t := by
  have htrans := transition_of_step hstep
  obtain ⟨hcalls, hdel⟩ := marking_forward htrans hfault.marking
  refine ⟨hcalls.trans (h hfault.marking), ?_⟩
  cases ht : t.cancelled with
  | true => exact .inl ⟨rfl, hdel⟩
  | false => exact .inr ⟨rfl, failing_of_fault hfault htrans ht⟩

private theorem cancelled_step (htrans : Transition env s ch t)
    (hcancel : s.cancelled = true) (hdel : s.pc.deleting = false) :
    t.cancelled = true ∧ t.pc.deleting = false ∧ t.deleteCalls = s.deleteCalls := by
  cases htrans with
  | cancel => exact ⟨rfl, hdel, rfl⟩
  | @rootsDone stage _ | @reported stage _ _ =>
    exact ⟨hcancel, by cases stage <;> rfl, rfl⟩
  | sweepOn hpc hnot => simp [hcancel] at hnot
  | deleteErr hpc | deleteOk hpc => simp [hpc, Pc.deleting] at hdel
  | _ => exact ⟨hcancel, rfl, rfl⟩

private theorem failing_step (htrans : Transition env s ch t)
    (hcancel : s.cancelled = false) (hfail : Failing env s s.pc)
    (ht : t.cancelled = false) :
    Failing env t t.pc ∧ t.deleteCalls = s.deleteCalls := by
  cases htrans with
  | cancel => simp at ht
  | rkeysErr hpc hkeys => exact ⟨verdict_of_error (.inl hkeys), rfl⟩
  | dkeysErr hpc hkeys => exact ⟨verdict_of_error (.inr (.inl hkeys)), rfl⟩
  | ikeysErr hpc hkeys => exact ⟨verdict_of_error (.inr (.inr hkeys)), rfl⟩
  | rkeys hpc | nextRoot hpc | visit hpc | explored hpc | missing hpc | walkDone hpc
  | dkeys hpc | ikeys hpc =>
    rw [hpc] at hfail
    exact ⟨⟨rfl, hfail.2⟩, rfl⟩
  | @rootsDone stage hpc | @reported stage err hpc =>
    rw [hpc] at hfail
    exact ⟨by cases stage <;> exact ⟨rfl, hfail.2⟩, rfl⟩
  | swallowed | drained => exact ⟨⟨rfl, rfl⟩, rfl⟩
  | unsent | rejected | walkCanceled | drainVisit | drainFetch =>
    exact ⟨True.intro, rfl⟩
  | reportDone hpc hnow | abortDone hpc hnow => simp [hcancel] at hnow
  | markFailed => exact ⟨fun _ => rfl, rfl⟩
  | markDone hpc herrors =>
    rw [hpc] at hfail
    exact absurd hfail.2 (by simp [herrors])
  | aborted hpc =>
    rw [hpc] at hfail
    exact ⟨⟨_, by simp, hfail⟩, rfl⟩
  | allKeysErr hpc | allKeys hpc | sweepStop hpc | sweepOn hpc | keyMarked hpc
  | deleteErr hpc | deleteOk hpc | keysClosed hpc | receiveDone hpc | deletedSent hpc
  | deletedDone hpc | sweptErrSent hpc | sweptErrDone hpc | swept hpc | collectErr hpc
  | collected hpc | failed hpc | failDone hpc =>
    simp [hpc, Failing, Pc.marking] at hfail

theorem cancelled_eq (htrans : Transition env s ch t) :
    t.cancelled = s.cancelled ∨ ch = .cancel ∧ t = { s with cancelled := true } := by
  cases htrans with
  | cancel => exact .inr ⟨rfl, rfl⟩
  | _ => exact .inl rfl

omit [DecidableEq Cid] in
private theorem failing_not_deleting {pc : Pc Cid} (h : Failing env s pc) :
    pc.deleting = false := by
  cases pc with
  | receive | deleted => exact absurd h.1 (by simp [Pc.marking])
  | _ => rfl

/-- **A doomed run stays doomed.** -/
theorem doomed_step (s : State Cid) (ch : Choice Cid) (t : State Cid)
    (h : Doomed env s) (hstep : step env s ch = some t) : Doomed env t := by
  have htrans := transition_of_step hstep
  rcases h.fate with ⟨hcancel, hdel⟩ | ⟨hcancel, hfail⟩
  · obtain ⟨htcancel, htdel, hcalls⟩ := cancelled_step htrans hcancel hdel
    exact ⟨hcalls.trans h.noDelete, .inl ⟨htcancel, htdel⟩⟩
  cases ht : t.cancelled with
  | false =>
    obtain ⟨htfail, hcalls⟩ := failing_step htrans hcancel hfail ht
    exact ⟨hcalls.trans h.noDelete, .inr ⟨ht, htfail⟩⟩
  | true =>
    rcases cancelled_eq htrans with hsame | ⟨_, rfl⟩
    · simp [ht, hcancel] at hsame
    · exact ⟨h.noDelete, .inl ⟨rfl, failing_not_deleting hfail⟩⟩

/-- The collector is not about to report an incomplete marking. -/
def Pc.calm : Pc Cid → Bool
  | .drain _ _ _ | .report _ _ | .abort _ => false
  | _ => true

/-- A state that is reached without any fault. -/
structure Clean (s : State Cid) : Prop where
  noError : s.errors = false
  calm : s.pc.calm = true
  live : s.pc.marking = true → s.cancelled = false

/-- **Without a fault marking completes.**  A missing block below a best-effort
root is no fault. -/
theorem clean_step (s : State Cid) (ch : Choice Cid) (t : State Cid)
    (h : Clean s) (hok : ¬ MarkFault env s ch) (hstep : step env s ch = some t) :
    Clean t := by
  have hcalm := h.calm
  have hlive := h.live
  have htrans := transition_of_step hstep
  cases htrans with
  | cancel =>
    refine ⟨h.noError, h.calm, ?_⟩
    intro hmark
    exact absurd hmark hok
  | rkeysErr hpc hkeys => exact absurd (.inl ⟨hpc, _, hkeys⟩) hok
  | dkeysErr hpc hkeys => exact absurd (.inr (.inl ⟨hpc, _, hkeys⟩)) hok
  | ikeysErr hpc hkeys => exact absurd (.inr (.inr ⟨hpc, _, hkeys⟩)) hok
  | rkeys hpc | nextRoot hpc | visit hpc | explored hpc | missing hpc | walkDone hpc
  | dkeys hpc | ikeys hpc =>
    rw [hpc] at hlive
    exact ⟨h.noError, rfl, fun _ => hlive rfl⟩
  | @rootsDone stage hpc =>
    rw [hpc] at hlive
    exact ⟨h.noError, by cases stage <;> rfl, fun _ => hlive rfl⟩
  | swallowed hpc hc hvalid hget hminds | unsent hpc hc hvalid hget hminds =>
    exact absurd ⟨_, _, by rw [hpc]; rfl, hc, .inr ⟨_, hget, hminds⟩⟩ hok
  | rejected hpc hc hvalid =>
    exact absurd ⟨_, _, by rw [hpc]; rfl, hc, .inl (by simp [hvalid])⟩ hok
  | walkCanceled hpc hcancel =>
    rw [hpc] at hlive
    simp [hlive rfl] at hcancel
  | drainVisit hpc | drainFetch hpc | drained hpc | reported hpc | reportDone hpc
  | aborted hpc | abortDone hpc => simp [hpc, Pc.calm] at hcalm
  | markFailed hpc herrors => simp [h.noError] at herrors
  | _ => exact ⟨h.noError, rfl, by simp [Pc.marking]⟩

omit [DecidableEq Cid] in
private theorem failing_pc (h : Failing env s s.pc) :
    s.pc.marking = true ∨ (∃ err, s.pc = .abort err) ∨ s.pc = .done := by
  cases hpc : s.pc with
  | drain => exact .inl rfl
  | abort err => exact .inr (.inl ⟨err, rfl⟩)
  | done => exact .inr (.inr rfl)
  | _ =>
    rw [hpc] at h
    exact .inl h.1

variable {schedule : List (Choice Cid)}

private theorem marking_of_occurs (h : Occurs (step env) (MarkFault env) s schedule) :
    s.pc.marking = true := by
  induction schedule generalizing s with
  | nil => exact h.elim
  | cons ch rest ih =>
    rcases h with hfault | ⟨t, hstep, hocc⟩
    · exact hfault.marking
    · exact (marking_back (transition_of_step hstep) (ih hocc)).1

private theorem live_of_not_mem (hs : s.cancelled = false) (hnot : .cancel ∉ schedule)
    (hrun : run (step env) s schedule = some t) : t.cancelled = false := by
  induction schedule generalizing s with
  | nil =>
    obtain rfl : s = t := Option.some.inj hrun
    exact hs
  | cons ch rest ih =>
    obtain ⟨m, hstep, hrest⟩ := run_cons.mp hrun
    simp only [List.mem_cons, not_or] at hnot
    rcases cancelled_eq (transition_of_step hstep) with hsame | ⟨heq, _⟩
    · exact ih (hsame.trans hs) hnot.2 hrest
    · exact absurd heq.symm hnot.1

/-- The steps that `markRank` counts. -/
private def Counted (s : State Cid) (ch : Choice Cid) : Prop :=
  ch ≠ .cancel ∧ (s.pc.marking = true ∨ ∃ err, s.pc = .abort err)

/-- A run with a fault and without cancellation takes only counted steps. -/
private theorem counted_along (hcalls : s.pc.marking = true → s.deleteCalls = [])
    (hcancel : s.cancelled = false) (hnot : .cancel ∉ schedule)
    (h : Doomed env s ∨ Occurs (step env) (MarkFault env) s schedule)
    (hrun : run (step env) s schedule = some t) : Along (step env) Counted s schedule := by
  induction schedule generalizing s with
  | nil => exact True.intro
  | cons ch rest ih =>
    obtain ⟨m, hstep, hrest⟩ := run_cons.mp hrun
    simp only [List.mem_cons, not_or] at hnot
    obtain ⟨hch, hrestnot⟩ := hnot
    have hmcancel : m.cancelled = false :=
      ((cancelled_eq (transition_of_step hstep)).resolve_right
        (fun heq => hch heq.1.symm)).trans hcancel
    have hnext : Doomed env m ∨ Occurs (step env) (MarkFault env) m rest := by
      rcases h with hdoomed | hfault | ⟨n, hn, hocc⟩
      · exact .inl (doomed_step s ch m hdoomed hstep)
      · exact .inl (doomed_of_fault s ch m hcalls hfault hstep)
      · obtain rfl : m = n := Option.some.inj (hstep.symm.trans hn)
        exact .inr hocc
    refine ⟨⟨Ne.symm hch, ?_⟩, ?_⟩
    · rcases h with hdoomed | hocc
      · rcases hdoomed.fate with ⟨hyes, _⟩ | ⟨_, hfail⟩
        · simp [hcancel] at hyes
        · rcases failing_pc hfail with hmark | habort | hdone
          · exact .inl hmark
          · exact .inr habort
          · simp [step, Ne.symm hch, hdone, nextStep] at hstep
      · exact .inl (marking_of_occurs hocc)
    · intro n hn
      obtain rfl : m = n := Option.some.inj (hstep.symm.trans hn)
      exact ih (noDelete_step s ch m hcalls hstep) hmcancel hrestnot hnext hrest

private theorem length_le_of_occurs {store : Finset Cid} {broots : List Cid}
    (hocc : Occurs (step env) (MarkFault env) (init store broots) schedule)
    (hnot : .cancel ∉ schedule) (hrun : run (step env) (init store broots) schedule = some s) :
    schedule.length ≤ markRank env store broots (init store broots) := by
  have halong : Along (step env) Counted (init store broots) schedule :=
    counted_along (fun _ => rfl) rfl hnot (.inr hocc) hrun
  have hle := run_length_le (Within env store broots) Counted (markRank env store broots)
    (fun s ch t hwithin hcount hstep =>
      ⟨within_transition hwithin (transition_of_step hstep),
        markRank_lt hwithin (transition_of_step hstep) hcount.1 hcount.2⟩)
    within_init halong hrun
  omega

/-- **Incomplete marking aborts the collection.**  If a fault occurs in a run,
`DeleteBlock` is never called in it.  Without cancellation such a run is
bounded, can always go on until it is done, and then the last result sent is an
error, which is `ErrCannotFetchAllLinks` when the pinner itself answered.
Without a fault, whatever blocks are missing below the best-effort roots, no
error is remembered and the run is not aborted. -/
theorem incomplete_marking_aborts (env : Env Cid) (store : Finset Cid)
    (broots : List Cid) (schedule : List (Choice Cid)) {s : State Cid}
    (hrun : run (step env) (init store broots) schedule = some s) :
    (Occurs (step env) (MarkFault env) (init store broots) schedule →
      s.deleteCalls = [] ∧
        (.cancel ∉ schedule →
          schedule.length ≤ markRank env store broots (init store broots) ∧
          (s.pc ≠ .done → ∃ ch, ch ≠ .cancel ∧ (step env s ch).isSome = true) ∧
          (s.pc = .done → ∃ err, s.output.getLast? = some (.error err) ∧
            (PinnerAnswers env → err = .cannotFetchAllLinks)))) ∧
      (¬ Occurs (step env) (MarkFault env) (init store broots) schedule →
        s.errors = false ∧ ∀ err, s.pc ≠ .abort err) := by
  refine ⟨?_, ?_⟩
  · intro hocc
    have hdoomed : Doomed env s :=
      run_established (fun s => s.pc.marking = true → s.deleteCalls = []) (Doomed env)
        (MarkFault env) (fun s ch t h hstep => noDelete_step s ch t h hstep)
        doomed_of_fault doomed_step (fun _ => rfl) hocc hrun
    refine ⟨hdoomed.noDelete, ?_⟩
    intro hnot
    refine ⟨length_le_of_occurs hocc hnot hrun, exists_step env s, ?_⟩
    intro hdone
    have hlive : s.cancelled = false := live_of_not_mem rfl hnot hrun
    rcases hdoomed.fate with ⟨hcancel, _⟩ | ⟨_, hfail⟩
    · simp [hlive] at hcancel
    · rw [hdone] at hfail
      exact hfail
  · intro hnone
    have hclean : Clean s :=
      run_invariant_along Clean (fun s ch => ¬ MarkFault env s ch) clean_step
        ⟨rfl, rfl, fun _ => rfl⟩ (along_not_of_not_occurs hnone) hrun
    refine ⟨hclean.noError, ?_⟩
    intro err hpc
    have hcalm := hclean.calm
    simp [hpc, Pc.calm] at hcalm

/-- The pinned block 1 links to block 2, which is missing. -/
theorem incomplete_marking_aborts_sample :
    ∃ s, run (step sampleEnv) (init {1, 3} [])
        [.next, .next, .visit 1, .fetch 1 false true, .visit 2, .fetch 2 false true,
          .next, .next, .next, .next, .next, .next, .next, .send] = some s ∧
      s.deleteCalls = [] ∧ s.output.getLast? = some (.error .cannotFetchAllLinks) := by
  have hany : (run (step sampleEnv) (init {1, 3} [])
      [.next, .next, .visit 1, .fetch 1 false true, .visit 2, .fetch 2 false true,
        .next, .next, .next, .next, .next, .next, .next, .send]).any
      (fun s => decide (s.errors = true ∧ s.pc = .done)) = true := by decide
  obtain ⟨s, hs, hp⟩ := exists_run_of_any hany
  obtain ⟨herrors, hdone⟩ : s.errors = true ∧ s.pc = .done := of_decide_eq_true hp
  obtain ⟨hfault, hclean⟩ := incomplete_marking_aborts sampleEnv _ _ _ hs
  by_cases hocc : Occurs (step sampleEnv) (MarkFault sampleEnv) (init {1, 3} [])
      [.next, .next, .visit 1, .fetch 1 false true, .visit 2, .fetch 2 false true,
        .next, .next, .next, .next, .next, .next, .next, .send]
  · obtain ⟨hcalls, hlast⟩ := hfault hocc
    obtain ⟨err, herr, hverdict⟩ := (hlast (by decide)).2.2 hdone
    rw [hverdict ⟨⟨_, rfl⟩, ⟨_, rfl⟩, ⟨_, rfl⟩⟩] at herr
    exact ⟨s, hs, hcalls, herr⟩
  · simp [(hclean hocc).1] at herrors

end Gc
