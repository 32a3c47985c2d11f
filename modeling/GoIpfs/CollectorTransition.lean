import GoIpfs.Collector

/-!
# What one step of the collector can do

`Transition` lists the ways through the code of `GC`, `ColoredSet` and
`Descendants`, each with the guard under which it is taken and the exact state
it leads to.  `transition_of_step` says that the list is complete, so an
invariant of the collector is a case analysis over this list and never unfolds
the step function.
-/

namespace Gc

open GraphWalk Option

variable {Cid : Type} [DecidableEq Cid]

/-- Everything a step can do, one constructor for each way through the code. -/
inductive Transition (env : Env Cid) (s : State Cid) : Choice Cid → State Cid → Prop
  | cancel : Transition env s .cancel { s with cancelled := true }
  | rkeysErr {msg} (hpc : s.pc = .recursiveKeys)
      (hkeys : env.recursiveKeys = .error msg) :
      Transition env s .next { s with pc := .abort (.pinner msg) }
  | rkeys {rkeys} (hpc : s.pc = .recursiveKeys)
      (hkeys : env.recursiveKeys = .ok rkeys) :
      Transition env s .next { s with pc := .descendants .recursive rkeys }
  | rootsDone {stage} (hpc : s.pc = .descendants stage []) :
      Transition env s .next { s with pc := afterStage s stage }
  | nextRoot {stage c roots}
      (hpc : s.pc = .descendants stage (c :: roots)) :
      Transition env s .next { s with pc := .walk stage roots (Walk.start c) }
  | visit {stage roots w c}
      (hpc : s.pc = .walk stage roots w) (hc : c ∈ w.queue) :
      Transition env s (.visit c) { s with
        pc := .walk stage roots (w.visit s.gcs c).1
        gcs := (w.visit s.gcs c).2 }
  | explored {stage roots w c sent targets}
      (hpc : s.pc = .walk stage roots w) (hc : c ∈ w.active)
      (hvalid : env.validateCid c = none)
      (hget : ipldGetLinks env s.store c = .ok targets) :
      Transition env s (.fetch c false sent)
        { s with pc := .walk stage roots (w.expand c targets) }
  | missing {roots w c sent}
      (hpc : s.pc = .walk .bestEffort roots w) (hc : c ∈ w.active)
      (hvalid : env.validateCid c = none)
      (hget : ipldGetLinks env s.store c = .error .notFound) :
      Transition env s (.fetch c false sent)
        { s with pc := .walk .bestEffort roots (w.expand c []) }
  | swallowed {stage roots w c broken err}
      (hpc : s.pc = .walk stage roots w) (hc : c ∈ w.active)
      (hvalid : env.validateCid c = none)
      (hget : fetchLinks env s c broken = some (.error err))
      (hminds : stage.minds err = true) :
      Transition env s (.fetch c broken true) { s with
        errors := true
        output := s.output ++ [.error (.cannotFetchLinks c err)]
        pc := .walk stage roots (w.expand c []) }
  | unsent {stage roots w c broken err}
      (hpc : s.pc = .walk stage roots w) (hc : c ∈ w.active)
      (hvalid : env.validateCid c = none)
      (hget : fetchLinks env s c broken = some (.error err))
      (hminds : stage.minds err = true) (hcancel : s.cancelled = true) :
      Transition env s (.fetch c broken false) { s with
        errors := true
        pc := .drain stage .canceled (w.expand c []) }
  | rejected {stage roots w c broken sent err}
      (hpc : s.pc = .walk stage roots w) (hc : c ∈ w.active)
      (hvalid : env.validateCid c = some err) :
      Transition env s (.fetch c broken sent)
        { s with pc := .drain stage (.insecure err) (w.expand c []) }
  | walkDone {stage roots w}
      (hpc : s.pc = .walk stage roots w) (hfin : w.Finished) :
      Transition env s .next { s with pc := .descendants stage roots }
  | walkCanceled {stage roots w}
      (hpc : s.pc = .walk stage roots w) (hcancel : s.cancelled = true) :
      Transition env s .ctxDone { s with pc := .drain stage .canceled w }
  | drainVisit {stage err w c}
      (hpc : s.pc = .drain stage err w) (hc : c ∈ w.queue) :
      Transition env s (.visit c) { s with
        pc := .drain stage err (w.visit s.gcs c).1
        gcs := (w.visit s.gcs c).2 }
  | drainFetch {stage err w c broken sent errors output}
      (hpc : s.pc = .drain stage err w) (hc : c ∈ w.active)
      (herrors : s.errors = true → errors = true) :
      Transition env s (.fetch c broken sent) { s with
        errors := errors
        output := output
        pc := .drain stage err (w.expand c []) }
  | drained {stage err w}
      (hpc : s.pc = .drain stage err w) (hactive : w.active = []) :
      Transition env s .next { s with errors := true, pc := .report stage err }
  | reported {stage err} (hpc : s.pc = .report stage err) :
      Transition env s .send { s with
        output := s.output ++ [.error (.walk err)]
        pc := afterStage s stage }
  | reportDone {stage err} (hpc : s.pc = .report stage err)
      (hcancel : s.cancelled = true) :
      Transition env s .ctxDone { s with pc := .abort (.walk .canceled) }
  | dkeysErr {msg} (hpc : s.pc = .directKeys)
      (hkeys : env.directKeys = .error msg) :
      Transition env s .next { s with pc := .abort (.pinner msg) }
  | dkeys {dkeys} (hpc : s.pc = .directKeys)
      (hkeys : env.directKeys = .ok dkeys) :
      Transition env s .next
        { s with gcs := s.gcs ∪ dkeys.toFinset, pc := .internalPins }
  | ikeysErr {msg} (hpc : s.pc = .internalPins)
      (hkeys : env.internalPins = .error msg) :
      Transition env s .next { s with pc := .abort (.pinner msg) }
  | ikeys {ikeys} (hpc : s.pc = .internalPins)
      (hkeys : env.internalPins = .ok ikeys) :
      Transition env s .next { s with pc := .descendants .internal ikeys }
  | markFailed (hpc : s.pc = .marked) (herrors : s.errors = true) :
      Transition env s .next { s with pc := .abort .cannotFetchAllLinks }
  | markDone (hpc : s.pc = .marked) (herrors : s.errors = false) :
      Transition env s .next { s with pc := .allKeys }
  | aborted {err} (hpc : s.pc = .abort err) :
      Transition env s .send { s with output := s.output ++ [.error err], pc := .done }
  | abortDone {err} (hpc : s.pc = .abort err)
      (hcancel : s.cancelled = true) :
      Transition env s .ctxDone { s with pc := .done }
  | allKeysErr {msg} (hpc : s.pc = .allKeys)
      (hkeys : env.allKeysError = some msg) :
      Transition env s .next { s with pc := .fail (.datastore msg) }
  | allKeys (hpc : s.pc = .allKeys) (hkeys : env.allKeysError = none) :
      Transition env s .next { s with pc := .sweep }
  | sweepStop (hpc : s.pc = .sweep) (hcancel : s.cancelled = true) :
      Transition env s .next { s with pc := .swept }
  | sweepOn (hpc : s.pc = .sweep) (hcancel : s.cancelled = false) :
      Transition env s .next { s with pc := .receive }
  | keyMarked {k deleteErr} (hpc : s.pc = .receive)
      (hstore : k ∈ s.store) (hk : k ∈ s.gcs) :
      Transition env s (.recvKey k deleteErr) { s with pc := .sweep }
  | deleteErr {k msg} (hpc : s.pc = .receive)
      (hstore : k ∈ s.store) (hk : k ∉ s.gcs) :
      Transition env s (.recvKey k (some msg)) { s with
        deleteCalls := k :: s.deleteCalls
        deleteErrors := true
        pc := .deleted (.error (.cannotDeleteBlock k msg)) }
  | deleteOk {k} (hpc : s.pc = .receive)
      (hstore : k ∈ s.store) (hk : k ∉ s.gcs) :
      Transition env s (.recvKey k none) { s with
        deleteCalls := k :: s.deleteCalls
        store := s.store.erase k
        pc := .deleted (.keyRemoved k) }
  | keysClosed (hpc : s.pc = .receive) :
      Transition env s .keysClosed { s with pc := .swept }
  | receiveDone (hpc : s.pc = .receive) (hcancel : s.cancelled = true) :
      Transition env s .ctxDone { s with pc := .swept }
  | deletedSent {result} (hpc : s.pc = .deleted result) :
      Transition env s .send { s with output := s.output ++ [result], pc := .sweep }
  | deletedDone {result} (hpc : s.pc = .deleted result)
      (hcancel : s.cancelled = true) :
      Transition env s .ctxDone { s with pc := .swept }
  | sweptErrSent (hpc : s.pc = .swept) (herrors : s.deleteErrors = true) :
      Transition env s .send { s with
        output := s.output ++ [.error .cannotDeleteSomeBlocks]
        pc := .collectGarbage }
  | sweptErrDone (hpc : s.pc = .swept) (herrors : s.deleteErrors = true)
      (hcancel : s.cancelled = true) :
      Transition env s .ctxDone { s with pc := .done }
  | swept (hpc : s.pc = .swept) (herrors : s.deleteErrors = false) :
      Transition env s .next { s with pc := .collectGarbage }
  | collectErr {msg} (hpc : s.pc = .collectGarbage)
      (hcollect : env.collectGarbage = some (some msg)) :
      Transition env s .next { s with pc := .fail (.datastore msg) }
  | collected (hpc : s.pc = .collectGarbage) :
      Transition env s .next { s with pc := .done }
  | failed {err} (hpc : s.pc = .fail err) :
      Transition env s .send { s with output := s.output ++ [.error err], pc := .done }
  | failDone {err} (hpc : s.pc = .fail err)
      (hcancel : s.cancelled = true) :
      Transition env s .ctxDone { s with pc := .done }

variable {env : Env Cid} {s t : State Cid}

variable {stage : Stage} {c : Cid} {broken : Bool}

theorem verifyGetLinks_effect {sent : Bool} {r : Except WalkError (List Cid)}
    (h : verifyGetLinks env stage s c broken sent = some (t, r)) :
    ∃ errors output, (s.errors = true → errors = true) ∧
      t = { s with errors := errors, output := output } := by
  unfold verifyGetLinks at h
  split at h
  · cases h
    exact ⟨s.errors, s.output, id, rfl⟩
  split at h
  · cases h
  · cases h
    exact ⟨s.errors, s.output, id, rfl⟩
  split at h
  · split at h
    · cases h
      exact ⟨true, _, fun _ => rfl, rfl⟩
    · split at h
      · cases h
        exact ⟨true, s.output, fun _ => rfl, rfl⟩
      · cases h
  · cases h
    exact ⟨s.errors, s.output, id, rfl⟩

private theorem fetchLinks_ok {targets : List Cid}
    (h : fetchLinks env s c broken = some (.ok targets)) :
    broken = false ∧ ipldGetLinks env s.store c = .ok targets := by
  unfold fetchLinks at h
  split at h
  · split at h <;> cases h
  · rename_i hbroken
    exact ⟨by simpa using hbroken, some.inj h⟩

private theorem fetchLinks_unminded {err : FetchError}
    (h : fetchLinks env s c broken = some (.error err)) (hminds : ¬ stage.minds err = true) :
    stage = .bestEffort ∧ broken = false ∧
      ipldGetLinks env s.store c = .error .notFound := by
  have hstage : stage = .bestEffort ∧ err = .notFound := by
    cases stage <;> cases err <;> simp [Stage.minds] at hminds ⊢
  obtain ⟨rfl, rfl⟩ := hstage
  unfold fetchLinks at h
  split at h
  · split at h <;> cases h
  · rename_i hbroken
    exact ⟨rfl, by simpa using hbroken, some.inj h⟩

variable {w : Walk Cid}

private theorem fetch_transition {roots : List Cid} {sent : Bool} (hpc : s.pc = .walk stage roots w)
    (h : walkStep env s stage roots w (.fetch c broken sent) = some t) :
    Transition env s (.fetch c broken sent) t := by
  simp only [walkStep] at h
  by_cases hc : c ∈ w.active
  · cases hv : env.validateCid c with
    | some err =>
      simp only [hc, verifyGetLinks, hv, if_true, some.injEq] at h
      subst h
      exact .rejected hpc hc hv
    | none =>
      cases hf : fetchLinks env s c broken with
      | none => simp [hc, verifyGetLinks, hv, hf] at h
      | some r =>
        cases r with
        | ok targets =>
          obtain ⟨rfl, hget⟩ := fetchLinks_ok hf
          simp only [hc, verifyGetLinks, hv, hf, if_true, some.injEq] at h
          subst h
          exact .explored hpc hc hv hget
        | error err =>
          by_cases hminds : stage.minds err = true
          · cases sent with
            | true =>
              simp only [hc, verifyGetLinks, hv, hf, hminds, if_true, some.injEq] at h
              subst h
              exact .swallowed hpc hc hv hf hminds
            | false =>
              by_cases hcancel : s.cancelled = true
              · simp only [hc, verifyGetLinks, hv, hf, hminds, if_true,
                  Bool.false_eq_true, if_false] at h
                rw [if_pos hcancel] at h
                cases h
                exact .unsent hpc hc hv hf hminds hcancel
              · simp [hc, verifyGetLinks, hv, hf, hminds, hcancel] at h
          · obtain ⟨rfl, rfl, hget⟩ := fetchLinks_unminded hf hminds
            simp [hc, verifyGetLinks, hv, hf, hminds] at h
            subst h
            exact .missing hpc hc hv hget
  · simp [hc] at h

variable {ch : Choice Cid}

private theorem walkStep_transition {roots : List Cid} (hpc : s.pc = .walk stage roots w)
    (h : walkStep env s stage roots w ch = some t) : Transition env s ch t := by
  cases ch with
  | visit c =>
    simp only [walkStep] at h
    split at h <;> cases h
    exact .visit hpc (by assumption)
  | fetch c broken sent => exact fetch_transition hpc h
  | next =>
    simp only [walkStep] at h
    split at h <;> cases h
    exact .walkDone hpc (by assumption)
  | ctxDone =>
    simp only [walkStep] at h
    split at h <;> cases h
    exact .walkCanceled hpc (by assumption)
  | _ => cases h

private theorem drainStep_transition {err : WalkError} (hpc : s.pc = .drain stage err w)
    (h : drainStep env s stage err w ch = some t) : Transition env s ch t := by
  cases ch with
  | visit c =>
    simp only [drainStep] at h
    split at h <;> cases h
    exact .drainVisit hpc (by assumption)
  | fetch c broken sent =>
    simp only [drainStep] at h
    split at h
    · rename_i hc
      split at h
      · cases h
      · rename_i m r hget
        obtain ⟨errors, output, herrors, rfl⟩ := verifyGetLinks_effect hget
        cases h
        exact .drainFetch hpc hc herrors
    · cases h
  | next =>
    simp only [drainStep] at h
    split at h <;> cases h
    exact .drained hpc (by assumption)
  | _ => cases h

omit [DecidableEq Cid] in
private theorem selectStep_cases {r : Result Cid} {onSend onDone : Pc Cid}
    (h : selectStep s r onSend onDone ch = some t) :
    (ch = .send ∧ t = { s with output := s.output ++ [r], pc := onSend }) ∨
      (ch = .ctxDone ∧ s.cancelled = true ∧ t = { s with pc := onDone }) := by
  cases ch with
  | send => exact .inl ⟨rfl, (some.inj h).symm⟩
  | ctxDone =>
    simp only [selectStep] at h
    split at h <;> cases h
    exact .inr ⟨rfl, by assumption, rfl⟩
  | _ => cases h

private theorem receiveStep_transition (hpc : s.pc = .receive) (h : receiveStep s ch = some t) :
    Transition env s ch t := by
  cases ch with
  | recvKey k deleteErr =>
    simp only [receiveStep] at h
    split at h
    · rename_i hstore
      split at h
      · cases h
        exact .keyMarked hpc hstore (by assumption)
      · split at h <;> cases h
        · exact .deleteErr hpc hstore (by assumption)
        · exact .deleteOk hpc hstore (by assumption)
    · cases h
  | keysClosed =>
    cases h
    exact .keysClosed hpc
  | ctxDone =>
    simp only [receiveStep] at h
    split at h <;> cases h
    exact .receiveDone hpc (by assumption)
  | _ => cases h

private theorem nextStep_transition (hswept : s.pc = .swept → s.deleteErrors = false)
    (h : nextStep env s = some t) : Transition env s .next t := by
  unfold nextStep at h
  split at h
  · rename_i hpc
    split at h <;> cases h
    · exact .rkeysErr hpc (by assumption)
    · exact .rkeys hpc (by assumption)
  · cases h
    exact .rootsDone (by assumption)
  · cases h
    exact .nextRoot (by assumption)
  · rename_i hpc
    split at h <;> cases h
    · exact .dkeysErr hpc (by assumption)
    · exact .dkeys hpc (by assumption)
  · rename_i hpc
    split at h <;> cases h
    · exact .ikeysErr hpc (by assumption)
    · exact .ikeys hpc (by assumption)
  · rename_i hpc
    split at h <;> cases h
    · exact .markFailed hpc (by assumption)
    · exact .markDone hpc (by simpa using ‹¬ s.errors = true›)
  · rename_i hpc
    split at h <;> cases h
    · exact .allKeysErr hpc (by assumption)
    · exact .allKeys hpc (by assumption)
  · rename_i hpc
    cases h
    by_cases hcancel : s.cancelled = true
    · rw [if_pos hcancel]
      exact .sweepStop hpc hcancel
    · rw [if_neg hcancel]
      exact .sweepOn hpc (by simpa using hcancel)
  · rename_i hpc
    cases h
    exact .swept hpc (hswept hpc)
  · rename_i hpc
    split at h <;> cases h
    · exact .collectErr hpc (by assumption)
    · exact .collected hpc
  · cases h

/-- **Inversion.**  Every step is one of the listed transitions. -/
theorem transition_of_step (h : step env s ch = some t) : Transition env s ch t := by
  unfold step at h
  split at h
  · rename_i hcancel
    subst hcancel
    cases h
    exact .cancel
  split at h
  · exact walkStep_transition (by assumption) h
  · exact drainStep_transition (by assumption) h
  · rename_i hpc
    rcases selectStep_cases h with ⟨rfl, rfl⟩ | ⟨rfl, hcancel, rfl⟩
    · exact .reported hpc
    · exact .reportDone hpc hcancel
  · rename_i hpc
    rcases selectStep_cases h with ⟨rfl, rfl⟩ | ⟨rfl, hcancel, rfl⟩
    · exact .aborted hpc
    · exact .abortDone hpc hcancel
  · exact receiveStep_transition (by assumption) h
  · rename_i hpc
    rcases selectStep_cases h with ⟨rfl, rfl⟩ | ⟨rfl, hcancel, rfl⟩
    · exact .deletedSent hpc
    · exact .deletedDone hpc hcancel
  · rename_i hpc
    rcases selectStep_cases h with ⟨rfl, rfl⟩ | ⟨rfl, hcancel, rfl⟩
    · exact .failed hpc
    · exact .failDone hpc hcancel
  · rename_i hpc
    split at h
    · rename_i herrors
      rcases selectStep_cases h with ⟨rfl, rfl⟩ | ⟨rfl, hcancel, rfl⟩
      · exact .sweptErrSent hpc herrors
      · exact .sweptErrDone hpc herrors hcancel
    · split at h
      · rename_i herrors hnext
        subst hnext
        exact nextStep_transition (fun _ => by simpa using herrors) h
      · cases h
  · split at h
    · rename_i hnext
      subst hnext
      exact nextStep_transition (fun hpc => absurd hpc (by assumption)) h
    · cases h
end Gc
