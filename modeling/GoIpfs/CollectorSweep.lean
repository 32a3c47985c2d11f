import GoIpfs.CollectorAbort

/-!
# What the sweep deletes and what it reports

The second half of `gc.GC` (`gc/gc.go`) and `CollectResult` with `NewMultiError`
(`core/corerepo/gc.go`).  When marking has succeeded nothing has been sent and
nothing deleted yet (`unswept_of_run`).  From there on the state of an
uncancelled collector is a function of the keys it has received and of the
outcomes of its `DeleteBlock` calls; `Sweeping` writes that function down, one
step keeps it (`sweeping_step`), and at the end it gives the whole output.
-/

namespace Gc

open GraphWalk StepRun List

variable {Cid : Type} [DecidableEq Cid]

/-! ## CollectResult -/

/-- What the `select` of `CollectResult` gets.  The channel is closed after the
last event. -/
inductive Event (Cid : Type) where
  | result (r : Result Cid)
  | ctxDone
  deriving DecidableEq, Repr

/-- The errors that `CollectResult` collects. -/
inductive CollectError (Cid : Type) where
  | gc (err : GcError Cid)
  /-- `ctx.Err()`. -/
  | context
  deriving DecidableEq, Repr

/-- What `CollectResult` returns: nil, an error itself, or a `MultiError`. -/
inductive Returned (Cid : Type) where
  | nil
  | single (err : CollectError Cid)
  | multi (errors : List (CollectError Cid)) (summary : CollectError Cid)
  deriving DecidableEq, Repr

/-- `NewMultiError`; the last error is the summary. -/
def newMultiError (first : CollectError Cid) (rest : List (CollectError Cid)) : Returned Cid :=
  .multi (first :: rest).dropLast ((first :: rest).getLast (by simp))

/-- The loop of `CollectResult`, with the errors and the calls of `cb` so far;
`cb` tells whether there is a callback. -/
def collectLoop (cb : Bool) (errors : List (CollectError Cid)) (called : List Cid) :
    List (Event Cid) → List (CollectError Cid) × List Cid
  | [] => (errors, called)
  | .result (.error err) :: rest => collectLoop cb (errors ++ [.gc err]) called rest
  | .result (.keyRemoved k) :: rest =>
    collectLoop cb errors (if cb then called ++ [k] else called) rest
  | .ctxDone :: _ => (errors ++ [.context], called)

/-- `CollectResult`: what it returns and what it calls back. -/
def collectResult (cb : Bool) (events : List (Event Cid)) : Returned Cid × List Cid :=
  let (errors, called) := collectLoop cb [] [] events
  match errors with
  | [] => (.nil, called)
  | [err] => (.single err, called)
  | first :: rest => (newMultiError first rest, called)

def removedKeys (results : List (Result Cid)) : List Cid :=
  results.filterMap fun
    | .keyRemoved k => some k
    | .error _ => none

def sentErrors (results : List (Result Cid)) : List (GcError Cid) :=
  results.filterMap fun
    | .keyRemoved _ => none
    | .error err => some err

omit [DecidableEq Cid] in
theorem collectLoop_results (errors : List (CollectError Cid)) (called : List Cid)
    (results : List (Result Cid)) :
    collectLoop true errors called (results.map .result) =
      (errors ++ (sentErrors results).map .gc, called ++ removedKeys results) := by
  induction results generalizing errors called with
  | nil => simp [collectLoop, sentErrors, removedKeys]
  | cons r results ih =>
    cases r with
    | keyRemoved k | error err => simp [collectLoop, ih, sentErrors, removedKeys]

omit [DecidableEq Cid] in
/-- **`CollectResult` over a closed channel.**  It calls back the removed keys in
order, and returns nil exactly if no error was sent. -/
theorem collectResult_results (results : List (Result Cid)) :
    (collectResult true (results.map .result)).2 = removedKeys results ∧
      ((collectResult true (results.map .result)).1 = .nil ↔ ∀ err, .error err ∉ results) := by
  have hnone : sentErrors results = [] ↔ ∀ err, .error err ∉ results := by
    unfold sentErrors
    rw [filterMap_eq_nil_iff]
    constructor
    · intro h err herr
      exact absurd (h _ herr) (by simp)
    · intro h r hr
      cases r with
      | keyRemoved k => rfl
      | error err => exact absurd hr (h err)
  rw [← hnone]
  unfold collectResult
  rw [collectLoop_results]
  simp only [nil_append]
  cases herrors : sentErrors results with
  | nil => exact ⟨rfl, by simp⟩
  | cons err errors =>
    cases errors with
    | nil => exact ⟨rfl, by simp⟩
    | cons next rest => exact ⟨rfl, by simp [newMultiError]⟩

/-! ## Marking sends nothing when it succeeds -/

/-- Up to the call of `AllKeysChan`. -/
def Pc.early (pc : Pc Cid) : Bool := pc.marking || decide (pc = .allKeys)

/-- Nothing has been deleted, and nothing sent unless marking has failed. -/
structure Unswept (store : Finset Cid) (s : State Cid) : Prop where
  store : s.store = store
  calls : s.deleteCalls = []
  failures : s.deleteErrors = false
  output : s.errors = false → s.pc.calm = true → s.output = []
  report : ∀ stage err, s.pc = .report stage err → s.errors = true
  marked : s.pc = .allKeys → s.errors = false

variable {env : Env Cid} {store : Finset Cid} {s t : State Cid} {ch : Choice Cid}

theorem early_back (htrans : Transition env s ch t) (ht : t.pc.early = true) :
    s.pc.early = true ∧ t.store = s.store ∧ t.deleteCalls = s.deleteCalls ∧
      t.deleteErrors = s.deleteErrors := by
  by_cases hmarking : t.pc.marking = true
  · obtain ⟨hs, hrest⟩ := marking_back htrans hmarking
    exact ⟨by rw [Pc.early, hs]; rfl, hrest⟩
  · cases htrans with
    | cancel => exact ⟨ht, rfl, rfl, rfl⟩
    | markDone hpc => exact ⟨by rw [hpc]; rfl, rfl, rfl, rfl⟩
    | rootsDone | reported => exact absurd (afterStage_marking s _) hmarking
    | _ => simp [Pc.early, Pc.marking] at ht hmarking

theorem unswept_step (s : State Cid) (ch : Choice Cid) (t : State Cid)
    (h : s.pc.early = true → Unswept store s) (hstep : step env s ch = some t) :
    t.pc.early = true → Unswept store t := by
  intro ht
  have htrans := transition_of_step hstep
  obtain ⟨hs, hstore, hcalls, hfailures⟩ := early_back htrans ht
  have hold := h hs
  have houtput := hold.output
  suffices hlate : (t.errors = false → t.pc.calm = true → t.output = []) ∧
      (∀ stage err, t.pc = .report stage err → t.errors = true) ∧
      (t.pc = .allKeys → t.errors = false) from
    ⟨hstore.trans hold.store, hcalls.trans hold.calls, hfailures.trans hold.failures,
      hlate.1, hlate.2.1, hlate.2.2⟩
  cases htrans with
  | cancel => exact ⟨hold.output, hold.report, hold.marked⟩
  | rkeys hpc | nextRoot hpc | visit hpc | explored hpc | missing hpc | walkDone hpc
  | dkeys hpc | ikeys hpc =>
    rw [hpc] at houtput
    exact ⟨fun herr _ => houtput herr rfl, by simp, by simp⟩
  | markDone hpc herrors =>
    rw [hpc] at houtput
    exact ⟨fun herr _ => houtput herr rfl, by simp, fun _ => herrors⟩
  | @rootsDone stage hpc =>
    rw [hpc] at houtput
    refine ⟨fun herr _ => houtput herr rfl, ?_, ?_⟩
    · intro st err hafter
      cases stage <;> cases hafter
    · intro hafter
      cases stage <;> cases hafter
  | swallowed | unsent | drained =>
    exact ⟨fun herr => absurd herr (by simp), fun _ _ _ => rfl, by simp⟩
  | rejected | walkCanceled | drainVisit | drainFetch =>
    exact ⟨fun _ hcalm => absurd hcalm (by simp [Pc.calm]), by simp, by simp⟩
  | @reported stage _ hpc =>
    have herrors : s.errors = true := hold.report _ _ hpc
    refine ⟨fun herr => absurd (herr.symm.trans herrors) (by simp), fun _ _ _ => herrors, ?_⟩
    intro hafter
    cases stage <;> cases hafter
  | _ => exact absurd ht (by simp [Pc.early, Pc.marking])

/-- **A collector that has marked has sent and deleted nothing.** -/
theorem unswept_of_run {broots : List Cid} {marking : List (Choice Cid)}
    (hrun : run (step env) (init store broots) marking = some s) (hpc : s.pc = .allKeys) :
    s.store = store ∧ s.deleteCalls = [] ∧ s.deleteErrors = false ∧ s.output = [] := by
  have hinit : (init store broots).pc.early = true → Unswept store (init store broots) :=
    fun _ => ⟨rfl, rfl, rfl, fun _ _ => rfl, by simp [init], by simp [init]⟩
  have h := run_invariant (fun s => s.pc.early = true → Unswept store s) unswept_step hinit hrun
  obtain ⟨hstore, hcalls, hfailures, houtput, -, hmarked⟩ := h (by rw [hpc]; rfl)
  exact ⟨hstore, hcalls, hfailures, houtput (hmarked hpc) (by rw [hpc]; rfl)⟩

/-! ## The sweep -/

/-- The keys that a run receives, with the outcomes of their deletions. -/
def received (schedule : List (Choice Cid)) : List (Cid × Option String) :=
  schedule.filterMap fun
    | .recvKey k deleteErr => some (k, deleteErr)
    | _ => none

omit [DecidableEq Cid] in
theorem received_append (first rest : List (Choice Cid)) :
    received (first ++ rest) = received first ++ received rest :=
  filterMap_append ..

def attempts (gcs : Finset Cid) (keys : List (Cid × Option String)) : List (Cid × Option String) :=
  keys.filter fun p => p.1 ∉ gcs

def report : Cid × Option String → Result Cid
  | (k, none) => .keyRemoved k
  | (k, some msg) => .error (.cannotDeleteBlock k msg)

/-- What is sent after the results of the deletions. -/
def summary (tried : List (Cid × Option String)) : List (Result Cid) :=
  if tried.any (fun p => p.2.isSome) then [.error .cannotDeleteSomeBlocks] else []

/-- What is sent if the datastore cannot collect its garbage. -/
def collectError (env : Env Cid) : List (Result Cid) :=
  match env.collectGarbage with
  | some (some msg) => [.error (.datastore msg)]
  | _ => []

/-- What has been sent at each point of the sweep. -/
def Sent (env : Env Cid) (tried : List (Cid × Option String)) (output : List (Result Cid)) :
    Pc Cid → Prop
  | .allKeys | .sweep | .receive | .swept => output = tried.map report
  | .deleted r => output ++ [r] = tried.map report
  | .collectGarbage => output = tried.map report ++ summary tried
  | .fail err => output ++ [.error err] = tried.map report ++ summary tried ++ collectError env
  | .done => output = tried.map report ++ summary tried ++ collectError env
  | _ => False

/-- The state `t` after the collector has received `keys`, with the marked set
`marks` and from the store `store`. -/
structure Sweeping (env : Env Cid) (marks store : Finset Cid)
    (keys : List (Cid × Option String)) (t : State Cid) : Prop where
  gcs : t.gcs = marks
  cancelled : t.cancelled = false
  calls : t.deleteCalls.reverse = (attempts marks keys).map Prod.fst
  failures : t.deleteErrors = (attempts marks keys).any fun p => p.2.isSome
  kept : ∀ k, k ∈ t.store ↔ k ∈ store ∧ (k, none) ∉ attempts marks keys
  sent : Sent env (attempts marks keys) t.output t.pc

variable {marks : Finset Cid} {keys : List (Cid × Option String)}

theorem attempts_received {k : Cid} (hk : k ∉ marks) (deleteErr : Option String) :
    attempts marks (keys ++ received [.recvKey k deleteErr]) =
      attempts marks keys ++ [(k, deleteErr)] := by
  simp [attempts, received, hk]

omit [DecidableEq Cid] in
theorem collectError_of_error {msg : String} (h : env.collectGarbage = some (some msg)) :
    collectError env = [.error (.datastore msg)] := by
  unfold collectError
  rw [h]

omit [DecidableEq Cid] in
theorem collectError_eq_nil (h : ∀ msg, env.collectGarbage = some (some msg) → False) :
    collectError env = [] := by
  unfold collectError
  split
  · rename_i msg hcollect
    exact absurd hcollect (h msg)
  · rfl

theorem collected_of_step (hpc : s.pc = .collectGarbage) (hch : ch ≠ .cancel)
    (hstep : step env s ch = some t) :
    (∃ msg, collectError env = [.error (.datastore msg)] ∧
        t = { s with pc := .fail (.datastore msg) }) ∨
      collectError env = [] ∧ t = { s with pc := .done } := by
  unfold step at hstep
  rw [if_neg hch, hpc] at hstep
  simp only at hstep
  split at hstep
  · unfold nextStep at hstep
    rw [hpc] at hstep
    simp only at hstep
    split at hstep
    · rename_i msg hcollect
      exact .inl ⟨msg, collectError_of_error hcollect, (Option.some.inj hstep).symm⟩
    · rename_i hother
      exact .inr ⟨collectError_eq_nil hother, (Option.some.inj hstep).symm⟩
  · cases hstep

variable {tried : List (Cid × Option String)}

theorem Sweeping.moved {keys' : List (Cid × Option String)} (h : Sweeping env marks store keys s)
    (htried : attempts marks keys' = attempts marks keys) (hgcs : t.gcs = s.gcs)
    (hcancelled : t.cancelled = s.cancelled) (hcalls : t.deleteCalls = s.deleteCalls)
    (hfailures : t.deleteErrors = s.deleteErrors) (hstore : t.store = s.store)
    (hsent : Sent env (attempts marks keys) t.output t.pc) : Sweeping env marks store keys' t := by
  rw [← htried] at hsent
  refine ⟨hgcs.trans h.gcs, hcancelled.trans h.cancelled, ?_, ?_, ?_, hsent⟩ <;> rw [htried]
  · rw [hcalls, h.calls]
  · rw [hfailures, h.failures]
  · rw [hstore]
    exact h.kept

/-- **One step of the sweep.** -/
theorem sweeping_step (hkeys : env.allKeysError = none) (hch : ch ≠ .cancel)
    (h : Sweeping env marks store keys s) (hstep : step env s ch = some t) :
    Sweeping env marks store (keys ++ received [ch]) t := by
  have hsent := h.sent
  have hlive := h.cancelled
  have hmarks := h.gcs
  cases transition_of_step hstep with
  | cancel => exact absurd rfl hch
  | rkeysErr hpc | rkeys hpc | rootsDone hpc | nextRoot hpc | visit hpc | explored hpc
  | missing hpc | swallowed hpc | unsent hpc | rejected hpc | walkDone hpc | walkCanceled hpc
  | drainVisit hpc | drainFetch hpc | drained hpc | reported hpc | reportDone hpc | dkeysErr hpc
  | dkeys hpc | ikeysErr hpc | ikeys hpc | markFailed hpc | markDone hpc | aborted hpc
  | abortDone hpc =>
    rw [hpc] at hsent
    exact hsent.elim
  | sweepStop hpc hcancel | receiveDone hpc hcancel | deletedDone hpc hcancel
  | sweptErrDone hpc _ hcancel | failDone hpc hcancel =>
    exact absurd (hcancel.symm.trans hlive) (by simp)
  | allKeysErr hpc hfailed => exact absurd (hfailed.symm.trans hkeys) (by simp)
  | allKeys hpc | sweepOn hpc | keysClosed hpc | deletedSent hpc | failed hpc =>
    rw [hpc] at hsent
    exact h.moved (by simp [received]) rfl rfl rfl rfl rfl hsent
  | @keyMarked k deleteErr hpc _ hk =>
    rw [hpc] at hsent
    rw [hmarks] at hk
    exact h.moved (by simp [received, attempts, hk]) rfl rfl rfl rfl rfl hsent
  | @deleteErr k msg hpc _ hk =>
    rw [hpc] at hsent
    rw [hmarks] at hk
    refine ⟨hmarks, hlive, ?_, ?_, ?_, ?_⟩ <;> rw [attempts_received hk]
    · simp [h.calls]
    · simp
    · simp [h.kept]
    · have houtput : s.output = (attempts marks keys).map report := hsent
      simp [Sent, houtput, report]
  | @deleteOk k hpc _ hk =>
    rw [hpc] at hsent
    rw [hmarks] at hk
    refine ⟨hmarks, hlive, ?_, ?_, ?_, ?_⟩ <;> rw [attempts_received hk]
    · simp [h.calls]
    · simp [h.failures]
    · simp only [Finset.mem_erase, h.kept, mem_append, mem_singleton, Prod.mk.injEq,
        and_true, not_or]
      tauto
    · have houtput : s.output = (attempts marks keys).map report := hsent
      simp [Sent, houtput, report]
  | sweptErrSent hpc herrors | swept hpc herrors =>
    rw [hpc] at hsent
    have houtput : s.output = (attempts marks keys).map report := hsent
    refine h.moved (by simp [received]) rfl rfl rfl rfl rfl ?_
    simp [Sent, summary, ← h.failures, herrors, houtput]
  | collectErr hpc | collected hpc =>
    rw [hpc] at hsent
    have houtput : s.output = (attempts marks keys).map report ++ summary (attempts marks keys) :=
      hsent
    rcases collected_of_step hpc hch hstep with ⟨msg, herror, ht⟩ | ⟨hnone, ht⟩
    · rw [ht]
      refine h.moved (by simp [received]) rfl rfl rfl rfl rfl ?_
      simp [Sent, herror, houtput]
    · rw [ht]
      refine h.moved (by simp [received]) rfl rfl rfl rfl rfl ?_
      simp [Sent, hnone, houtput]

/-- **A run of the sweep.** -/
theorem sweeping_run (hkeys : env.allKeysError = none) {sweeping : List (Choice Cid)}
    (hcancel : .cancel ∉ sweeping) (h : Sweeping env marks store keys s)
    (hrun : run (step env) s sweeping = some t) :
    Sweeping env marks store (keys ++ received sweeping) t := by
  induction sweeping generalizing s keys with
  | nil =>
    cases hrun
    simpa [received] using h
  | cons ch rest ih =>
    obtain ⟨m, hm, hrest⟩ := run_cons.mp hrun
    have hch : ch ≠ .cancel := fun heq => hcancel (heq ▸ mem_cons_self)
    have hlater : .cancel ∉ rest := fun hmem => hcancel (mem_cons_of_mem _ hmem)
    have hnext := ih hlater (sweeping_step hkeys hch h hm) hrest
    rwa [append_assoc, ← received_append] at hnext

/-! ## Every enumeration can be swept -/

/-- The choices that take the sweep over one key. -/
def sweepKey (marks : Finset Cid) (p : Cid × Option String) : List (Choice Cid) :=
  if p.1 ∈ marks then [.next, .recvKey p.1 p.2] else [.next, .recvKey p.1 p.2, .send]

theorem run_sweepKey (env : Env Cid) (p : Cid × Option String) (hpc : s.pc = .sweep)
    (hlive : s.cancelled = false) (hstored : p.1 ∈ s.store) :
    ∃ t, run (step env) s (sweepKey s.gcs p) = some t ∧ t.pc = .sweep ∧ t.cancelled = false ∧
      t.gcs = s.gcs ∧ ∀ k ∈ s.store, k ≠ p.1 → k ∈ t.store := by
  obtain ⟨k, deleteErr⟩ := p
  have hkeep : ∀ k' ∈ s.store, k' ≠ k → k' ∈ s.store.erase k :=
    fun k' hk' hne => Finset.mem_erase.mpr ⟨hne, hk'⟩
  unfold sweepKey
  by_cases hk : k ∈ s.gcs
  · refine ⟨{ s with pc := .sweep }, ?_, rfl, hlive, rfl, fun k' hk' _ => hk'⟩
    simp [run, step, nextStep, receiveStep, hpc, hlive, hk, hstored]
  cases deleteErr with
  | none =>
    refine ⟨{ s with
      pc := .sweep
      deleteCalls := k :: s.deleteCalls
      store := s.store.erase k
      output := s.output ++ [.keyRemoved k] }, ?_, rfl, hlive, rfl, hkeep⟩
    simp [run, step, nextStep, receiveStep, selectStep, hpc, hlive, hk, hstored]
  | some msg =>
    refine ⟨{ s with
      pc := .sweep
      deleteCalls := k :: s.deleteCalls
      deleteErrors := true
      output := s.output ++ [.error (.cannotDeleteBlock k msg)] }, ?_, rfl, hlive, rfl,
      fun k' hk' _ => hk'⟩
    simp [run, step, nextStep, receiveStep, selectStep, hpc, hlive, hk, hstored]

theorem run_sweepKeys (env : Env Cid) (keys : List (Cid × Option String))
    (hnodup : (keys.map Prod.fst).Nodup) (hpc : s.pc = .sweep) (hlive : s.cancelled = false)
    (hstored : ∀ k ∈ keys.map Prod.fst, k ∈ s.store) :
    ∃ t, run (step env) s (keys.flatMap (sweepKey s.gcs)) = some t ∧ t.pc = .sweep ∧
      t.cancelled = false := by
  induction keys generalizing s with
  | nil => exact ⟨s, rfl, hpc, hlive⟩
  | cons p keys ih =>
    obtain ⟨hfresh, hnodup⟩ := nodup_cons.mp hnodup
    obtain ⟨m, hm, hmpc, hmlive, hmgcs, hmstore⟩ :=
      run_sweepKey env p hpc hlive (hstored p.1 (by simp))
    have hlater : ∀ k ∈ keys.map Prod.fst, k ∈ m.store := by
      intro k hk
      refine hmstore k (hstored k (mem_cons_of_mem _ hk)) ?_
      rintro rfl
      exact hfresh hk
    obtain ⟨t, ht, htpc, htlive⟩ := ih hnodup hmpc hmlive hlater
    rw [hmgcs] at ht
    exact ⟨t, run_append.mpr ⟨m, hm, ht⟩, htpc, htlive⟩

theorem exists_finish (env : Env Cid) (hpc : s.pc = .sweep) (hlive : s.cancelled = false) :
    ∃ rest t, run (step env) s rest = some t ∧ t.pc = .done ∧ .cancel ∉ rest ∧
      received rest = [] := by
  have hcollect : ∀ m : State Cid, m.pc = .collectGarbage →
      ∃ rest t, run (step env) m rest = some t ∧ t.pc = .done ∧ .cancel ∉ rest ∧
        received rest = [] := by
    intro m hm
    rcases henv : env.collectGarbage with _ | _ | msg
    iterate 2
      · refine ⟨[.next], { m with pc := .done }, ?_, rfl, by simp, rfl⟩
        simp [run, step, nextStep, hm, henv]
    · refine ⟨[.next, .send], { m with
        pc := .done
        output := m.output ++ [.error (.datastore msg)] }, ?_, rfl, by simp, rfl⟩
      simp [run, step, nextStep, selectStep, hm, henv]
  have hswept : ∃ first m, run (step env) s first = some m ∧ m.pc = .collectGarbage ∧
      .cancel ∉ first ∧ received first = [] := by
    cases hfailed : s.deleteErrors with
    | false =>
      refine ⟨[.next, .keysClosed, .next], { s with pc := .collectGarbage }, ?_, rfl,
        by simp, rfl⟩
      simp [run, step, nextStep, receiveStep, hpc, hlive, hfailed]
    | true =>
      refine ⟨[.next, .keysClosed, .send], { s with
        pc := .collectGarbage
        output := s.output ++ [.error .cannotDeleteSomeBlocks] }, ?_, rfl, by simp, rfl⟩
      simp [run, step, nextStep, receiveStep, selectStep, hpc, hlive, hfailed]
  obtain ⟨first, m, hfirst, hm, hcancel, hnone⟩ := hswept
  obtain ⟨rest, t, hrest, ht, hcancel', hnone'⟩ := hcollect m hm
  refine ⟨first ++ rest, t, run_append.mpr ⟨m, hfirst, hrest⟩, ht, ?_, ?_⟩
  · simp [hcancel, hcancel']
  · rw [received_append, hnone, hnone', nil_append]

/-- The sweep that starts in `s` is over, has not been cancelled, and has
received the enumeration `keys` with these outcomes of the deletions. -/
structure Complete (env : Env Cid) (s : State Cid) (keys : List (Cid × Option String))
    (sweeping : List (Choice Cid)) (t : State Cid) : Prop where
  runs : run (step env) s sweeping = some t
  done : t.pc = .done
  live : .cancel ∉ sweeping
  keys : received sweeping = keys

theorem received_sweepKeys (keys : List (Cid × Option String)) :
    received (keys.flatMap (sweepKey marks)) = keys := by
  induction keys with
  | nil => rfl
  | cons p keys ih =>
    rw [flatMap_cons, received_append, ih]
    unfold sweepKey
    split <;> rfl

theorem exists_complete (hpc : s.pc = .allKeys) (hlive : s.cancelled = false)
    (hkeys : env.allKeysError = none) (hnodup : (keys.map Prod.fst).Nodup)
    (hstored : ∀ k ∈ keys.map Prod.fst, k ∈ s.store) :
    ∃ sweeping t, Complete env s keys sweeping t := by
  have hfirst : run (step env) s [.next] = some { s with pc := .sweep } := by
    simp [run, step, nextStep, hpc, hkeys]
  obtain ⟨m, hm, hmpc, hmlive⟩ :=
    run_sweepKeys env (s := { s with pc := .sweep }) keys hnodup rfl hlive hstored
  obtain ⟨rest, t, hrest, htpc, hcancel, hnone⟩ := exists_finish env hmpc hmlive
  refine ⟨[.next] ++ (keys.flatMap (sweepKey s.gcs) ++ rest), t,
    run_append.mpr ⟨_, hfirst, run_append.mpr ⟨m, hm, hrest⟩⟩, htpc, ?_, ?_⟩
  · simp only [mem_append, mem_singleton, mem_flatMap, not_or, hcancel, not_false_eq_true, and_true]
    refine ⟨by simp, ?_⟩
    rintro ⟨p, -, hp⟩
    unfold sweepKey at hp
    split at hp <;> simp at hp
  · rw [received_append, received_append, received_sweepKeys, hnone, append_nil]
    rfl

/-- The output of a complete sweep: the reports of the deletions in order, then
the summary of the failures, then the failure of the datastore. -/
def sweepOutput (env : Env Cid) (tried : List (Cid × Option String)) : List (Result Cid) :=
  tried.map report ++ summary tried ++ collectError env

theorem complete_state (hpc : s.pc = .allKeys) (hlive : s.cancelled = false)
    (hcalls : s.deleteCalls = []) (hfailures : s.deleteErrors = false) (houtput : s.output = [])
    (hkeys : env.allKeysError = none) {sweeping : List (Choice Cid)}
    (h : Complete env s keys sweeping t) :
    t.output = sweepOutput env (attempts s.gcs keys) ∧
      t.deleteCalls.reverse = (attempts s.gcs keys).map Prod.fst ∧
      ∀ k, k ∈ t.store ↔ k ∈ s.store ∧ (k, none) ∉ attempts s.gcs keys := by
  have hstart : Sweeping env s.gcs s.store [] s := by
    refine ⟨rfl, hlive, by simp [hcalls, attempts], by simp [hfailures, attempts],
      by simp [attempts], ?_⟩
    rw [hpc]
    exact houtput
  have hend := sweeping_run hkeys h.live hstart h.runs
  rw [nil_append, h.keys] at hend
  have hsent := hend.sent
  rw [h.done] at hsent
  exact ⟨hsent, hend.calls, hend.kept⟩

theorem nodup_attempts (hnodup : (keys.map Prod.fst).Nodup) :
    ((attempts marks keys).map Prod.fst).Nodup :=
  hnodup.sublist (filter_sublist.map Prod.fst)

def Result.key : Result Cid → Option Cid
  | .keyRemoved k => some k
  | .error (.cannotDeleteBlock k _) => some k
  | .error _ => none

omit [DecidableEq Cid] in
@[simp] theorem key_report (p : Cid × Option String) : (report p).key = some p.1 := by
  obtain ⟨k, deleteErr⟩ := p
  cases deleteErr <;> rfl

omit [DecidableEq Cid] in
theorem key_rest {r : Result Cid} (hr : r ∈ summary tried ++ collectError env) : r.key = none := by
  rcases mem_append.mp hr with hr | hr
  · unfold summary at hr
    split at hr
    · rw [mem_singleton.mp hr]
      rfl
    · simp at hr
  · unfold collectError at hr
    split at hr
    · rw [mem_singleton.mp hr]
      rfl
    · simp at hr

theorem filter_sweepOutput (tried : List (Cid × Option String)) (k : Cid) :
    (sweepOutput env tried).filter (fun r => r.key = some k) =
      (tried.filter fun p => p.1 = k).map report := by
  have hrest : (summary tried ++ collectError env).filter (fun r => r.key = some k) = [] := by
    rw [filter_eq_nil_iff]
    intro r hr
    simp [key_rest hr]
  unfold sweepOutput
  rw [append_assoc, filter_append, hrest, append_nil, filter_map]
  congr 2
  funext p
  simp

theorem filter_key_eq {p : Cid × Option String} (hnodup : (tried.map Prod.fst).Nodup)
    (hp : p ∈ tried) : tried.filter (fun q => q.1 = p.1) = [p] := by
  induction tried with
  | nil => simp at hp
  | cons q tried ih =>
    obtain ⟨hfresh, hnodup⟩ := nodup_cons.mp hnodup
    rcases mem_cons.mp hp with rfl | hp
    · have hnone : tried.filter (fun q => q.1 = p.1) = [] := by
        rw [filter_eq_nil_iff]
        intro q hq
        simp only [decide_eq_true_eq]
        intro heq
        exact hfresh (heq ▸ mem_map_of_mem hq)
      simp [hnone]
    · have hne : q.1 ≠ p.1 := fun heq => hfresh (heq ▸ mem_map_of_mem hp)
      simp [hne, ih hnodup hp]

variable (tried : List (Cid × Option String))

theorem count_summary :
    (sweepOutput env tried).count (.error .cannotDeleteSomeBlocks) =
      if ∃ p ∈ tried, p.2.isSome then 1 else 0 := by
  have hreports : (tried.map report).count (.error .cannotDeleteSomeBlocks) = 0 := by
    rw [count_eq_zero]
    intro hmem
    obtain ⟨p, -, hp⟩ := mem_map.mp hmem
    have hkey := congrArg Result.key hp
    rw [key_report] at hkey
    cases hkey
  have hcollect : (collectError env).count (.error .cannotDeleteSomeBlocks) = 0 := by
    unfold collectError
    split <;> simp
  unfold sweepOutput summary
  rw [count_append, count_append, hreports, hcollect, Nat.zero_add, Nat.add_zero]
  simp only [any_eq_true]
  split <;> rfl

omit [DecidableEq Cid] in
theorem removedKeys_sweepOutput :
    removedKeys (sweepOutput env tried) = (tried.filter fun p => p.2.isNone).map Prod.fst := by
  have hrest : removedKeys (summary tried ++ collectError env) = [] := by
    unfold removedKeys
    rw [filterMap_eq_nil_iff]
    intro r hr
    have hkey := key_rest hr
    cases r with
    | keyRemoved k => cases hkey
    | error err => rfl
  have hreports : removedKeys (tried.map report) =
      (tried.filter fun p => p.2.isNone).map Prod.fst := by
    unfold removedKeys
    clear hrest
    induction tried with
    | nil => rfl
    | cons p tried ih =>
      obtain ⟨k, deleteErr⟩ := p
      cases deleteErr with
      | none | some msg => simpa [report] using ih
  unfold sweepOutput removedKeys at *
  rw [append_assoc, filterMap_append, hrest, hreports, append_nil]

/-- **The sweep is complete and reports what it did.**  When marking has
succeeded, every enumeration of the stored keys, with any outcomes of the
deletions, can be swept, and a sweep that is not cancelled

* calls `DeleteBlock` once for each stored key that is not marked;
* sends one result about each of these keys, which says how its deletion ended,
  and after all of them `ErrCannotDeleteSomeBlocks`, once, if a deletion failed;
* lets `CollectResult` call back the removed keys in order and return nil exactly
  if no error was sent. -/
theorem sweep_complete_and_reported (env : Env Cid) (store : Finset Cid) (broots : List Cid)
    (marking : List (Choice Cid)) (s : State Cid)
    (hrun : run (step env) (init store broots) marking = some s)
    (hpc : s.pc = .allKeys) (hlive : s.cancelled = false) (hkeys : env.allKeysError = none)
    (keys : List (Cid × Option String)) (hnodup : (keys.map Prod.fst).Nodup)
    (henum : ∀ k, k ∈ keys.map Prod.fst ↔ k ∈ store) :
    (∃ sweeping t, Complete env s keys sweeping t) ∧
    ∀ sweeping t, Complete env s keys sweeping t →
      (t.deleteCalls.Nodup ∧ ∀ k, k ∈ t.deleteCalls ↔ k ∈ store ∧ k ∉ s.gcs) ∧
      (∀ p ∈ keys, t.output.filter (fun r => r.key = some p.1) =
        if p.1 ∈ s.gcs then [] else [report p]) ∧
      (t.output.count (.error .cannotDeleteSomeBlocks) =
        if ∃ p ∈ keys, p.1 ∉ s.gcs ∧ p.2.isSome then 1 else 0) ∧
      (∃ perKey rest, t.output = perKey ++ rest ∧ (∀ r ∈ perKey, r.key.isSome) ∧
        ∀ r ∈ rest, r.key = none) ∧
      ((collectResult true (t.output.map .result)).2 =
        (keys.filter fun p => p.1 ∉ s.gcs ∧ p.2.isNone).map Prod.fst) ∧
      ((collectResult true (t.output.map .result)).1 = .nil ↔ ∀ err, .error err ∉ t.output) ∧
      (∀ k, k ∈ t.store ↔ k ∈ store ∧ ¬ (k ∉ s.gcs ∧ (k, none) ∈ keys)) := by
  obtain ⟨hstore, hcalls, hfailures, houtput⟩ := unswept_of_run hrun hpc
  have hstored : ∀ k ∈ keys.map Prod.fst, k ∈ s.store := by
    intro k hk
    rw [hstore]
    exact (henum k).mp hk
  refine ⟨exists_complete hpc hlive hkeys hnodup hstored, ?_⟩
  intro sweeping t hcomplete
  obtain ⟨hout, hdeleted, hkept⟩ :=
    complete_state hpc hlive hcalls hfailures houtput hkeys hcomplete
  have htried : ((attempts s.gcs keys).map Prod.fst).Nodup := nodup_attempts hnodup
  have hmem : ∀ p, p ∈ attempts s.gcs keys ↔ p ∈ keys ∧ p.1 ∉ s.gcs := by
    simp [attempts]
  rw [hout]
  refine ⟨⟨?_, ?_⟩, ?_, ?_, ?_, ?_, (collectResult_results _).2, ?_⟩
  · rw [← nodup_reverse, hdeleted]
    exact htried
  · intro k
    rw [← mem_reverse, hdeleted, ← henum k]
    simp only [mem_map, hmem]
    constructor
    · rintro ⟨p, ⟨hp, hmark⟩, rfl⟩
      exact ⟨⟨p, hp, rfl⟩, hmark⟩
    · rintro ⟨⟨p, hp, rfl⟩, hmark⟩
      exact ⟨p, ⟨hp, hmark⟩, rfl⟩
  · intro p hp
    rw [filter_sweepOutput]
    split
    · rename_i hmark
      have hnone : (attempts s.gcs keys).filter (fun q => q.1 = p.1) = [] := by
        rw [filter_eq_nil_iff]
        intro q hq heq
        exact ((hmem q).mp hq).2 (of_decide_eq_true heq ▸ hmark)
      rw [hnone, map_nil]
    · rename_i hmark
      rw [filter_key_eq htried ((hmem p).mpr ⟨hp, hmark⟩)]
      rfl
  · rw [count_summary]
    simp only [hmem, and_assoc]
  · refine ⟨(attempts s.gcs keys).map report,
      summary (attempts s.gcs keys) ++ collectError env, ?_, ?_, fun r => key_rest⟩
    · rw [sweepOutput, append_assoc]
    · intro r hr
      obtain ⟨p, -, rfl⟩ := mem_map.mp hr
      simp
  · rw [(collectResult_results _).1, removedKeys_sweepOutput]
    unfold attempts
    rw [filter_filter]
    congr 2
    funext p
    cases p.2 <;> simp
  · intro k
    rw [hkept, hstore, hmem, and_comm (b := k ∉ s.gcs)]

/-- Of the unpinned blocks `3` and `6`, the second one cannot be deleted. -/
theorem sweep_complete_and_reported_sample :
    ∃ s sweeping t,
      run (step sampleEnv) (init {1, 2, 3, 5, 6} []) (sampleSchedule.take 13) = some s ∧
      Complete sampleEnv s [(3, none), (1, none), (6, some "busy"), (2, none), (5, none)]
        sweeping t ∧
      t.output.filter (fun r => r.key = some 6) = [.error (.cannotDeleteBlock 6 "busy")] ∧
      (collectResult true (t.output.map .result)).2 = [3] := by
  have hany : (run (step sampleEnv) (init {1, 2, 3, 5, 6} []) (sampleSchedule.take 13)).any
      (fun s => decide (s.pc = .allKeys ∧ s.cancelled = false ∧ s.gcs = {1, 2, 5})) = true := by
    decide
  obtain ⟨s, hs, hp⟩ := exists_run_of_any hany
  obtain ⟨hpc, hlive, hgcs⟩ := of_decide_eq_true hp
  obtain ⟨⟨sweeping, t, hcomplete⟩, hall⟩ :=
    sweep_complete_and_reported sampleEnv _ [] _ s hs hpc hlive rfl
      [(3, none), (1, none), (6, some "busy"), (2, none), (5, none)] (by decide) (by
        simp only [map_cons, map_nil, mem_cons, not_mem_nil, or_false,
          Finset.mem_insert, Finset.mem_singleton]
        omega)
  obtain ⟨-, hreports, -, -, hcalled, -⟩ := hall sweeping t hcomplete
  refine ⟨s, sweeping, t, hs, hcomplete, ?_, ?_⟩
  · have h := hreports (6, some "busy") (by simp)
    rwa [hgcs, if_neg (by decide)] at h
  · rw [hcalled, hgcs]
    decide

end Gc
