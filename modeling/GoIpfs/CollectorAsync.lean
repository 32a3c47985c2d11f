import GoIpfs.CollectorSafety
import GoIpfs.CollectorTermination

/-!
# Handing the results of a collection to its caller

`GarbageCollectAsync` and `BestEffortRoots` (`core/corerepo/gc.go`) with a caller
that drains the channel it gets, as `repo gc` does (`core/commands/repo.go`).
The collector of `gc.GC` runs beside the caller and sends into a channel with
room for 128 results; a send waits for room, and the caller waits for a result or
for the channel to be closed.

If the MFS root cannot be read, `GarbageCollectAsync` makes a channel without
buffer and sends the error itself, before it returns the channel.  Only the
caller could receive it, and the caller waits for the function to return.
-/

namespace GcAsync

open StepRun
open Gc (Choice Env)

variable {Cid : Type} [DecidableEq Cid]

/-- A result of either branch of `GarbageCollectAsync`. -/
inductive Result (Cid : Type) where
  | gc (result : Gc.Result Cid)
  /-- The error of `BestEffortRoots`. -/
  | rootError (msg : String)
  deriving DecidableEq, Repr

/-- Where the caller's goroutine is. -/
inductive Caller where
  /-- In `BestEffortRoots`. -/
  | bestEffortRoots
  /-- In `GarbageCollectAsync`, at the send of the error. -/
  | sendError (msg : String)
  /-- In `GarbageCollectAsync`, at the `close` of the channel. -/
  | closeError
  /-- In the loop over the channel. -/
  | draining
  /-- The channel was closed, and the loop is over. -/
  | finished
  deriving DecidableEq, Repr

structure State (Cid : Type) where
  caller : Caller
  /-- The collector, once `gc.GC` has been called. -/
  collector : Option (Gc.State Cid)
  /-- The channel that the caller gets. -/
  buffer : List (Result Cid)
  closed : Bool
  received : List (Result Cid)

def start : State Cid where
  caller := .bestEffortRoots
  collector := none
  buffer := []
  closed := false
  received := []

def capacity : Nat := 128

inductive Action (Cid : Type) where
  /-- The caller's goroutine goes on. -/
  | call
  /-- A step of the collector. -/
  | collect (ch : Choice Cid)
  /-- The deferred `close` of the collector. -/
  | closeOutput
  | receive
  | receiveClosed
  deriving DecidableEq, Repr

/-- What a node gives to the call: the MFS root or the error of reading it, the
blocks, and what the collector will meet. -/
structure Node (Cid : Type) where
  env : Env Cid
  store : Finset Cid
  filesRoot : Except String Cid

def State.receiving (s : State Cid) : Prop := s.caller = .draining

instance (s : State Cid) : Decidable s.receiving :=
  inferInstanceAs (Decidable (s.caller = .draining))

/-- The statements of `GarbageCollectAsync`. -/
def call (node : Node Cid) (s : State Cid) : Option (State Cid) :=
  match s.caller with
  | .bestEffortRoots =>
    match node.filesRoot with
    | .ok root => some { s with
        caller := .draining
        collector := some (Gc.init node.store [root]) }
    | .error msg => some { s with caller := .sendError msg }
  | .sendError msg =>
    -- the channel has no buffer
    if s.receiving then
      some { s with caller := .closeError, received := s.received ++ [.rootError msg] }
    else none
  | .closeError => some { s with caller := .draining, closed := true }
  | .draining | .finished => none

/-- A step of the collector; what it sends needs room in the channel. -/
def collect (node : Node Cid) (s : State Cid) (ch : Choice Cid) : Option (State Cid) :=
  match s.collector with
  | none => none
  | some c =>
    match Gc.step node.env c ch with
    | none => none
    | some c' =>
      let sent := (c'.output.drop c.output.length).map Result.gc
      if (s.buffer ++ sent).length ≤ capacity then
        some { s with collector := some c', buffer := s.buffer ++ sent }
      else none

def step (node : Node Cid) (s : State Cid) : Action Cid → Option (State Cid)
  | .call => call node s
  | .collect ch => collect node s ch
  | .closeOutput =>
    match s.collector with
    | none => none
    | some c =>
      if c.pc = .done ∧ s.closed = false then some { s with closed := true } else none
  | .receive =>
    match s.buffer with
    | [] => none
    | r :: rest =>
      if s.receiving then
        some { s with buffer := rest, received := s.received ++ [r] }
      else none
  | .receiveClosed =>
    if s.receiving ∧ s.buffer = [] ∧ s.closed = true then
      some { s with caller := .finished }
    else none

/-- Nothing can go on; nobody has to cancel the context. -/
def Stuck (node : Node Cid) (s : State Cid) : Prop :=
  ∀ a, a ≠ .collect .cancel → step node s a = none

/-- The caller has everything that was sent and has seen the channel closed. -/
structure HandedBack (node : Node Cid) (s : State Cid) : Prop where
  finished : s.caller = .finished
  closed : s.closed = true
  received : ∀ c, s.collector = some c → s.received = c.output.map .gc
  ended : ∀ c, s.collector = some c → c.pc = .done
  rootError : ∀ msg, node.filesRoot = .error msg → .rootError msg ∈ s.received

/-! ## What the collector sends in one step -/

variable {env : Env Cid} {c c' : Gc.State Cid} {ch : Choice Cid}

theorem verifyGetLinks_output {stage : Gc.Stage} {k : Cid} {broken sent : Bool}
    {r : Except Gc.WalkError (List Cid)}
    (h : Gc.verifyGetLinks env stage c k broken sent = some (c', r)) :
    c'.output = c.output ∨ ∃ result, c'.output = c.output ++ [result] := by
  unfold Gc.verifyGetLinks at h
  split at h
  · cases h
    exact .inl rfl
  split at h
  · cases h
  · cases h
    exact .inl rfl
  split at h
  · split at h
    · cases h
      exact .inr ⟨_, rfl⟩
    · split at h
      · cases h
        exact .inl rfl
      · cases h
  · cases h
    exact .inl rfl

/-- **A step of the collector sends at most one result.** -/
theorem output_step (h : Gc.step env c ch = some c') :
    c'.output = c.output ∨ ∃ result, c'.output = c.output ++ [result] := by
  cases Gc.transition_of_step h with
  | swallowed | reported | aborted | deletedSent | sweptErrSent | failed => exact .inr ⟨_, rfl⟩
  | @drainFetch stage err w k broken sent errors output hpc hk =>
    -- the transition leaves the output open here, so the code says what was sent
    simp only [Gc.step, reduceCtorEq, if_false, hpc, Gc.drainStep, if_pos hk] at h
    split at h
    · cases h
    · rename_i m r hget
      have houtput : m.output = output := congrArg Gc.State.output (Option.some.inj h)
      have hsent := verifyGetLinks_output hget
      rwa [houtput] at hsent
  | _ => exact .inl rfl

theorem done_step (hdone : c.pc = .done) (h : Gc.step env c ch = some c') :
    c'.pc = .done ∧ c'.output = c.output := by
  cases Gc.transition_of_step h with
  | cancel => exact ⟨hdone, rfl⟩
  | _ => simp_all

/-! ## Every reachable state -/

/-- The states that a call reaches. -/
inductive Reached (node : Node Cid) : State Cid → Prop
  | calling : Reached node start
  | failing (msg : String) (hroot : node.filesRoot = .error msg) :
      Reached node { start with caller := .sendError msg }
  | running (root : Cid) (c : Gc.State Cid) (s : State Cid) (hroot : node.filesRoot = .ok root)
      (hcollector : s.collector = some c)
      (hcaller : s.caller = .draining ∨
        s.caller = .finished ∧ s.closed = true ∧ s.buffer = [])
      (hsent : s.received ++ s.buffer = c.output.map .gc)
      (hclosed : s.closed = true → c.pc = .done) : Reached node s

variable {node : Node Cid}

variable {s : State Cid}

omit [DecidableEq Cid] in
theorem reached_call {t : State Cid} (h : Reached node s) (hstep : call node s = some t) :
    Reached node t := by
  cases h with
  | calling =>
    unfold call start at hstep
    simp only at hstep
    split at hstep
    · rename_i root hroot
      cases hstep
      exact .running root _ _ hroot rfl (.inl rfl) rfl (by simp)
    · rename_i msg hroot
      cases hstep
      exact .failing msg hroot
  | failing msg hroot => simp [call, State.receiving] at hstep
  | running root c _ hroot hcollector hcaller =>
    rcases hcaller with hcaller | ⟨hcaller, -⟩ <;> simp [call, hcaller] at hstep

theorem reached_collect {t : State Cid} (h : Reached node s) (hstep : collect node s ch = some t) :
    Reached node t := by
  cases h with
  | calling | failing msg hroot => cases hstep
  | running root c _ hroot hcollector hcaller hsent hclosed =>
    unfold collect at hstep
    rw [hcollector] at hstep
    simp only at hstep
    split at hstep
    · cases hstep
    rename_i c' hc'
    split at hstep
    · cases hstep
      have hgrows : c'.output = c.output ++ c'.output.drop c.output.length := by
        rcases output_step hc' with hsame | ⟨result, hsame⟩ <;> rw [hsame] <;> simp
      refine .running root c' _ hroot rfl ?_ ?_ ?_
      · refine hcaller.imp_right ?_
        rintro ⟨hfinished, hclosed', hempty⟩
        obtain ⟨-, hsame⟩ := done_step (hclosed hclosed') hc'
        exact ⟨hfinished, hclosed', by simp [hempty, hsame]⟩
      · rw [← List.append_assoc, hsent, ← List.map_append, ← hgrows]
      · intro hclosed'
        exact (done_step (hclosed hclosed') hc').1
    · cases hstep

theorem reached_step (s : State Cid) (a : Action Cid) (t : State Cid) (h : Reached node s)
    (hstep : step node s a = some t) : Reached node t := by
  cases a with
  | call => exact reached_call h hstep
  | collect ch => exact reached_collect h hstep
  | closeOutput =>
    cases h with
    | calling | failing msg hroot => cases hstep
    | running root c _ hroot hcollector hcaller hsent hclosed =>
      simp only [step, hcollector] at hstep
      obtain ⟨⟨hdone, hopen⟩, rfl⟩ := guard_passed hstep
      refine .running root c _ hroot rfl ?_ hsent fun _ => hdone
      refine hcaller.imp_right fun hfinished => ?_
      exact absurd (hopen.symm.trans hfinished.2.1) (by simp)
  | receive =>
    cases h with
    | calling | failing msg hroot => cases hstep
    | running root c _ hroot hcollector hcaller hsent hclosed =>
      simp only [step] at hstep
      split at hstep
      · cases hstep
      · rename_i r rest hbuffer
        obtain ⟨hreceiving, rfl⟩ := guard_passed hstep
        refine .running root c _ hroot hcollector (.inl hreceiving) ?_ hclosed
        rw [← hsent, hbuffer, List.append_assoc]
        rfl
  | receiveClosed =>
    obtain ⟨⟨hreceiving, hempty, hclosed'⟩, rfl⟩ := guard_passed hstep
    cases h with
    | calling | failing msg hroot => cases hreceiving
    | running root c _ hroot hcollector hcaller hsent hclosed =>
      exact .running root c _ hroot hcollector (.inr ⟨rfl, hclosed', hempty⟩) hsent hclosed

theorem collect_enabled (hcollector : s.collector = some c) (hempty : s.buffer = [])
    (hstep : Gc.step node.env c ch = some c') : collect node s ch ≠ none := by
  have hlength : ((c'.output.drop c.output.length).map Result.gc).length ≤ capacity := by
    rcases output_step hstep with hsame | ⟨result, hsame⟩ <;> rw [hsame] <;> simp [capacity]
  unfold collect
  rw [hcollector]
  simp only [hstep, hempty, List.nil_append, if_pos hlength]
  exact Option.some_ne_none _

/-- **A caller with a collector is only stuck at its end.** -/
theorem handedBack_of_stuck {root : Cid} (hroot : node.filesRoot = .ok root) (h : Reached node s)
    (hstuck : Stuck node s) : HandedBack node s := by
  cases h with
  | calling =>
    have hcall := hstuck .call (by simp)
    simp [step, call, start, hroot] at hcall
  | failing msg hfailed => exact absurd (hroot.symm.trans hfailed) (by simp)
  | running root' c _ _ hcollector hcaller hsent hclosed =>
    have hrooterr : ∀ msg, node.filesRoot = .error msg → .rootError msg ∈ s.received :=
      fun msg hfailed => absurd (hroot.symm.trans hfailed) (by simp)
    rcases hcaller with hdraining | ⟨hfinished, hclosed', hempty⟩
    · exfalso
      cases hbuffer : s.buffer with
      | cons r rest =>
        have hreceive := hstuck .receive (by simp)
        simp [step, hbuffer, State.receiving, hdraining] at hreceive
      | nil =>
        by_cases hdone : c.pc = .done
        · cases hopen : s.closed with
          | false =>
            have hclose := hstuck .closeOutput (by simp)
            simp [step, hcollector, hdone, hopen] at hclose
          | true =>
            have hend := hstuck .receiveClosed (by simp)
            simp [step, State.receiving, hdraining, hbuffer, hopen] at hend
        · obtain ⟨ch, hch, hsome⟩ := Gc.exists_step node.env c hdone
          obtain ⟨c', hc'⟩ := Option.isSome_iff_exists.mp hsome
          exact collect_enabled hcollector hbuffer hc' (hstuck (.collect ch) (by simp [hch]))
    · have hreceived : s.received = c.output.map .gc := by
        rw [← hsent, hempty, List.append_nil]
      refine ⟨hfinished, hclosed', ?_, ?_, hrooterr⟩
      · intro c₁ hc₁
        cases hcollector.symm.trans hc₁
        exact hreceived
      · intro c₁ hc₁
        cases hcollector.symm.trans hc₁
        exact hclosed hclosed'

theorem stuck_sendError (node : Node Cid) (msg : String) :
    Stuck node { start with caller := .sendError msg } := by
  intro a _
  cases a with
  | call => simp [step, call, State.receiving]
  | collect ch | closeOutput | receive => rfl
  | receiveClosed => simp [step, State.receiving]

/-- **When an asynchronous collection hands back its results.**  Every run of the
caller and the collector that cannot go on ends with all results received and the
channel seen closed, exactly if the MFS root can be read. -/
theorem handsBack_iff (node : Node Cid) :
    (∀ schedule s, run (step node) start schedule = some s → Stuck node s →
      HandedBack node s) ↔
    ∃ root, node.filesRoot = .ok root := by
  constructor
  · intro hall
    cases hroot : node.filesRoot with
    | ok root => exact ⟨root, rfl⟩
    | error msg =>
      have hrun : run (step node) start [.call] =
          some { start with caller := .sendError msg } := by
        simp [run, step, call, start, hroot]
      have hback := hall [.call] _ hrun (stuck_sendError node msg)
      exact absurd hback.finished (by simp)
  · rintro ⟨root, hroot⟩ schedule s hrun hstuck
    have hreached : Reached node s := run_invariant _ reached_step .calling hrun
    exact handedBack_of_stuck hroot hreached hstuck

/-- A collection over an MFS root `3`, whose caller gets its one result. -/
example :
    let node : Node Nat := ⟨{ Gc.sampleEnv with directKeys := .ok [] }, {1, 2, 3, 5}, .ok 3⟩
    let marking : List (Choice Nat) :=
      [.next, .next, .visit 1, .fetch 1 false true, .visit 2, .fetch 2 false true, .next, .next,
        .next, .visit 3, .fetch 3 false true, .next, .next, .next, .next, .next, .next, .next]
    let sweeping : List (Choice Nat) :=
      [.next, .recvKey 5 none, .send, .next, .keysClosed, .next, .next]
    (run (step node) start
      (.call :: (marking ++ sweeping).map .collect ++ [.receive, .closeOutput, .receiveClosed])).any
        (fun s => s.caller = .finished ∧ s.received = [.gc (.keyRemoved 5)]) = true := by
  decide

/-- The MFS root of an empty store cannot be read. -/
theorem sendError_blocks :
    let node : Node Nat := ⟨Gc.sampleEnv, ∅, .error "merkledag: not found"⟩
    ∃ s, run (step node) start [.call] = some s ∧
      (∀ a, a ≠ .collect .cancel → step node s a = none) ∧ s.caller ≠ .finished ∧
      s.received = [] := by
  intro node
  refine ⟨{ start with caller := .sendError "merkledag: not found" }, rfl, ?_, by decide, rfl⟩
  exact stuck_sendError node _

end GcAsync
