import GoIpfs.StepRun
import Mathlib.Algebra.BigOperators.Group.List.Basic
import Mathlib.Algebra.GroupWithZero.Nat
import Mathlib.Algebra.Order.Group.Multiset

/-!
# `repo verify`

`verifyResultChan` and `verifyWorkerRun` (`core/commands/repo.go`) read every block
in a pool of workers.  The workers share one channel of keys and one channel of
results without buffer; the goroutine that starts them waits for all of them and
closes the results.  The command receives one result after another and counts.

The workers are a bag: nothing tells one from another but what it is at.  A run is
any interleaving of the workers, of the goroutine that starts them and of the
command, with the context cancelled at any time and `Emit` failing at any call.
`verify_checks_all` is about the runs in which neither happens.
-/

namespace RepoVerify

open StepRun List

variable {Key : Type}

structure Env (Key : Type) where
  /-- What `AllKeysChan` sends before it closes its channel. -/
  keys : List Key
  /-- The error of `Get`. -/
  getErr : Key → Option String
  keyString : Key → String
  /-- `runtime.NumCPU()*2`, which is not 0. -/
  workers : Nat
  workers_pos : 0 < workers

/-- What a worker sends for a key. -/
def message (env : Env Key) (k : Key) : String :=
  match env.getErr k with
  | some err => "block " ++ env.keyString k ++ " was corrupt (" ++ err ++ ")"
  | none => ""

structure VerifyProgress where
  msg : String
  progress : Nat
  deriving DecidableEq, Repr

inductive Worker (Key : Type) where
  | receiving
  | getting (k : Key)
  | sending (msg : String)
  deriving DecidableEq, Repr

inductive Command where
  | receiving
  | emitting (msg : String)
  | returned (err : Option String)
  deriving DecidableEq, Repr

structure State (Key : Type) where
  keys : List Key
  started : Nat
  /-- The workers that have not called `wg.Done`. -/
  workers : List (Worker Key)
  closed : Bool
  /-- What has come through the channel of results. -/
  delivered : List String
  command : Command
  fails : Nat
  i : Nat
  emitted : List VerifyProgress
  cancelled : Bool

def start (env : Env Key) : State Key where
  keys := env.keys
  started := 0
  workers := []
  closed := false
  delivered := []
  command := .receiving
  fails := 0
  i := 0
  emitted := []
  cancelled := false

inductive Action (Key : Type) where
  | startWorker
  | receiveKey
  | get (k : Key)
  | send (msg : String)
  /-- A worker's select sees the cancelled context. -/
  | giveUp (msg : String)
  | workerDone
  | close
  /-- The body of the command's loop, with the results of its calls of `Emit`. -/
  | emit (msgErr progressErr : Option String)
  /-- The end of the command's loop, with the result of the last `Emit`. -/
  | receiveClosed (emitErr : Option String)
  | cancel
  /-- `AllKeysChan` sees the cancelled context. -/
  | cutKeys
  deriving DecidableEq, Repr

/-- The body of the command's loop. -/
def emit (msg : String) (msgErr progressErr : Option String) (s : State Key) : State Key :=
  match if msg = "" then none else msgErr with
  | some err => { s with command := .returned (some err) }
  | none =>
    let told := if msg = "" then s.emitted else s.emitted ++ [⟨msg, 0⟩]
    let s := { s with fails := if msg = "" then s.fails else s.fails + 1, i := s.i + 1 }
    match progressErr with
    | some err => { s with emitted := told, command := .returned (some err) }
    | none => { s with emitted := told ++ [⟨"", s.i⟩], command := .receiving }

/-- What the command does after its loop. -/
def finish (emitErr : Option String) (s : State Key) : State Key :=
  let result :=
    if s.cancelled then some "context canceled"
    else if s.fails ≠ 0 then some "verify complete, some blocks were corrupt"
    else emitErr
  { s with
    command := .returned result
    emitted := if result = none
      then s.emitted ++ [⟨"verify complete, all blocks validated.", 0⟩] else s.emitted }

def step [DecidableEq Key] (env : Env Key) (s : State Key) : Action Key → Option (State Key)
  | .startWorker =>
    if s.started < env.workers then
      some { s with started := s.started + 1, workers := .receiving :: s.workers }
    else none
  | .receiveKey =>
    match s.keys with
    | [] => none
    | k :: rest =>
      if .receiving ∈ s.workers then
        some { s with keys := rest, workers := .getting k :: s.workers.erase .receiving }
      else none
  | .get k =>
    if .getting k ∈ s.workers then
      some { s with workers := .sending (message env k) :: s.workers.erase (.getting k) }
    else none
  | .send msg =>
    if .sending msg ∈ s.workers ∧ s.command = .receiving then
      some { s with
        workers := .receiving :: s.workers.erase (.sending msg)
        delivered := s.delivered ++ [msg]
        command := .emitting msg }
    else none
  | .giveUp msg =>
    if .sending msg ∈ s.workers ∧ s.cancelled = true then
      some { s with workers := s.workers.erase (.sending msg) }
    else none
  | .workerDone =>
    -- the loop over the keys ends when their channel is empty and closed
    if .receiving ∈ s.workers ∧ s.keys = [] then
      some { s with workers := s.workers.erase .receiving }
    else none
  | .close =>
    -- `wg.Wait` returns
    if s.started = env.workers ∧ s.workers = [] ∧ s.closed = false then
      some { s with closed := true }
    else none
  | .emit msgErr progressErr =>
    match s.command with
    | .emitting msg => some (emit msg msgErr progressErr s)
    | _ => none
  | .receiveClosed emitErr =>
    if s.command = .receiving ∧ s.closed = true then some (finish emitErr s) else none
  | .cancel => if s.cancelled then none else some { s with cancelled := true }
  | .cutKeys => if s.cancelled then some { s with keys := [] } else none

/-- The context is not cancelled, and `Emit` succeeds. -/
def Action.Calm : Action Key → Prop
  | .cancel => False
  | .emit msgErr progressErr => msgErr = none ∧ progressErr = none
  | .receiveClosed emitErr => emitErr = none
  | _ => True

/-- **A finished verification.**  Each key has had its one message, the channel is
closed, the workers have ended, the progress has counted the keys, and the command
has returned nil if no key failed and an error otherwise. -/
structure Verified (env : Env Key) (s : State Key) : Prop where
  delivered : s.delivered.Perm (env.keys.map (message env))
  closed : s.closed = true
  ended : s.started = env.workers ∧ s.workers = []
  progress : (s.emitted.filter (·.msg = "")).map (·.progress) =
    (List.range env.keys.length).map (· + 1)
  result : ∃ err, s.command = .returned err ∧
    (err = none ↔ ∀ k ∈ env.keys, env.getErr k = none)

/-! ## The accounts -/

/-- The messages a worker still owes. -/
def Worker.owes (env : Env Key) : Worker Key → Multiset String
  | .receiving => 0
  | .getting k => {message env k}
  | .sending msg => {msg}

/-- The message the command is at. -/
def Command.current : Command → List String
  | .emitting msg => [msg]
  | _ => []

/-- A bound on the steps that are left. -/
def Worker.rank : Worker Key → Nat
  | .receiving => 1
  | .getting _ => 4
  | .sending _ => 3

def Command.rank : Command → Nat
  | .receiving => 1
  | .emitting _ => 2
  | .returned _ => 0

def rank (env : Env Key) (s : State Key) : Nat :=
  4 * s.keys.length + 2 * (env.workers - s.started) + (s.workers.map Worker.rank).sum +
    s.command.rank + if s.closed then 0 else 1

/-- What holds between two steps. -/
structure Inv (env : Env Key) (s : State Key) : Prop where
  calm : s.cancelled = false
  started : s.started ≤ env.workers
  /-- A worker ends only when there are no more keys. -/
  drained : 0 < s.started → s.workers = [] → s.keys = []
  messages : (s.keys.map (message env) : Multiset String) +
    (s.workers.map (Worker.owes env)).sum + s.delivered = env.keys.map (message env)
  closed : s.closed = true → s.started = env.workers ∧ s.workers = []
  counted : s.i + s.command.current.length = s.delivered.length
  failed : s.fails + s.command.current.countP (· ≠ "") = s.delivered.countP (· ≠ "")
  progress : (s.emitted.filter (·.msg = "")).map (·.progress) = (List.range s.i).map (· + 1)
  returned : ∀ err, s.command = .returned err → s.closed = true ∧ (err = none ↔ s.fails = 0)

variable {env : Env Key} {s : State Key}

theorem message_eq_empty_iff {k : Key} : message env k = "" ↔ env.getErr k = none := by
  unfold message
  cases env.getErr k <;> simp

theorem inv_start (env : Env Key) : Inv env (start env) where
  calm := rfl
  started := Nat.zero_le _
  drained := fun h => absurd h (lt_irrefl 0)
  messages := by simp [start]
  closed := nofun
  counted := rfl
  failed := rfl
  progress := rfl
  returned := nofun

theorem Inv.pool (h : Inv env s) {keys : List Key} {started : Nat} {workers : List (Worker Key)}
    (hopen : s.closed = false) (hstarted : started ≤ env.workers)
    (hdrained : workers = [] → keys = [])
    (hmessages : (keys.map (message env) : Multiset String) +
        (workers.map (Worker.owes env)).sum =
      s.keys.map (message env) + (s.workers.map (Worker.owes env)).sum) :
    Inv env { s with keys, started, workers } :=
  { h with
    started := hstarted
    drained := fun _ => hdrained
    messages := by rw [hmessages, h.messages]
    closed := fun hclosed => absurd hclosed (by simp [hopen]) }

theorem Inv.delivered_of_closed (h : Inv env s) (hclosed : s.closed = true) :
    s.delivered.Perm (env.keys.map (message env)) := by
  obtain ⟨hstarted, hworkers⟩ := h.closed hclosed
  have hkeys := h.drained (hstarted ▸ env.workers_pos) hworkers
  have hmessages := h.messages
  simpa only [hkeys, hworkers, map_nil, sum_nil, Multiset.coe_nil, zero_add,
    Multiset.coe_eq_coe] using hmessages

theorem Inv.open_of_mem (h : Inv env s) {w : Worker Key} (hw : w ∈ s.workers) :
    s.closed = false := by
  by_contra hclosed
  rw [(h.closed (Bool.not_eq_false _ ▸ hclosed)).2] at hw
  cases hw

theorem inv_emit (h : Inv env s) {msg : String} (hcommand : s.command = .emitting msg) :
    Inv env (emit msg none none s) ∧ rank env (emit msg none none s) < rank env s := by
  have hcounted := h.counted
  have hfailed := h.failed
  have hprogress := h.progress
  rw [hcommand] at hcounted hfailed
  rw [emit, ite_self]
  refine ⟨{ h with counted := hcounted, failed := ?_, progress := ?_, returned := ?_ }, ?_⟩
  · rw [← hfailed]
    by_cases hmsg : msg = "" <;> simp [Command.current, hmsg]
  · by_cases hmsg : msg = "" <;> simp [range_succ, hprogress, hmsg]
  · intro err herr
    cases herr
  · simp [rank, hcommand, Command.rank]

theorem inv_finish (h : Inv env s) (hcommand : s.command = .receiving) (hclosed : s.closed = true) :
    Inv env (finish none s) ∧ rank env (finish none s) < rank env s := by
  have hcounted := h.counted
  have hfailed := h.failed
  rw [hcommand] at hcounted hfailed
  rw [finish, if_neg (by simp [h.calm])]
  refine ⟨{ h with counted := hcounted, failed := hfailed, progress := ?_, returned := ?_ }, ?_⟩
  · by_cases hfails : s.fails = 0 <;> simp [hfails, h.progress]
  · intro err herr
    obtain rfl := Command.returned.inj herr
    exact ⟨hclosed, by simp⟩
  · simp [rank, hcommand, Command.rank]

variable [DecidableEq Key]

theorem sum_replace {M : Type} [AddCommMonoid M] (f : Worker Key → M) {w : Worker Key}
    {ws : List (Worker Key)} (h : w ∈ ws) (w' : Worker Key) :
    ((w' :: ws.erase w).map f).sum + f w = (ws.map f).sum + f w' := by
  rw [map_cons, sum_cons, ← sum_map_erase f h, add_comm (f w'), add_comm (f w), add_right_comm]

theorem inv_send (h : Inv env s) {msg : String} (hw : .sending msg ∈ s.workers)
    (hcommand : s.command = .receiving) :
    Inv env { s with
      workers := .receiving :: s.workers.erase (.sending msg)
      delivered := s.delivered ++ [msg]
      command := .emitting msg } :=
  have hcounted := h.counted
  have hfailed := h.failed
  { h with
    drained := nofun
    messages := by
      have hsum := sum_replace (Worker.owes env) hw .receiving
      have hdelivered : ((s.delivered ++ [msg] : List String) : Multiset String) =
          {msg} + s.delivered := by
        rw [← Multiset.coe_add, Multiset.coe_singleton, add_comm]
      rw [hdelivered, ← add_assoc, add_assoc (Multiset.ofList _)]
      rw [Worker.owes, Worker.owes, add_zero] at hsum
      rw [hsum]
      exact h.messages
    closed := fun hclosed => absurd hclosed (by simp [h.open_of_mem hw])
    counted := by simpa [hcommand, Command.current] using hcounted
    failed := by simpa [hcommand, Command.current] using hfailed
    returned := nofun }

/-- **One step** keeps the accounts and lowers the rank. -/
theorem inv_step (s : State Key) (a : Action Key) (t : State Key) (h : Inv env s) (hcalm : a.Calm)
    (hstep : step env s a = some t) : Inv env t ∧ rank env t < rank env s := by
  cases a with
  | startWorker =>
    obtain ⟨hlt, rfl⟩ := guard_passed hstep
    have hopen : s.closed = false := by
      by_contra hclosed
      have hall := (h.closed (Bool.not_eq_false _ ▸ hclosed)).1
      omega
    refine ⟨h.pool hopen hlt nofun ?_, ?_⟩
    · simp [Worker.owes]
    · simp only [rank, map_cons, sum_cons, Worker.rank]
      omega
  | receiveKey =>
    rw [step] at hstep
    cases hkeys : s.keys with
    | nil =>
      rw [hkeys] at hstep
      cases hstep
    | cons k rest =>
      rw [hkeys] at hstep
      obtain ⟨hw, rfl⟩ := guard_passed hstep
      have howes := sum_replace (Worker.owes env) hw (.getting k)
      have hrank := sum_replace Worker.rank hw (.getting k)
      refine ⟨h.pool (h.open_of_mem hw) h.started nofun ?_, ?_⟩
      · rw [Worker.owes, Worker.owes, add_zero] at howes
        rw [howes, hkeys, map_cons, ← Multiset.cons_coe, ← Multiset.singleton_add,
          add_comm {message env k}, add_comm (sum _), add_assoc]
      · rw [Worker.rank, Worker.rank] at hrank
        simp only [rank, hkeys, length_cons]
        omega
  | get k =>
    obtain ⟨hw, rfl⟩ := guard_passed hstep
    have howes := sum_replace (Worker.owes env) hw (.sending (message env k))
    have hrank := sum_replace Worker.rank hw (.sending (message env k))
    refine ⟨h.pool (h.open_of_mem hw) h.started nofun ?_, ?_⟩
    · rw [add_right_cancel howes]
    · rw [Worker.rank, Worker.rank] at hrank
      simp only [rank]
      omega
  | send msg =>
    obtain ⟨⟨hw, hcommand⟩, rfl⟩ := guard_passed hstep
    have hrank := sum_replace Worker.rank hw .receiving
    refine ⟨inv_send h hw hcommand, ?_⟩
    rw [Worker.rank, Worker.rank] at hrank
    simp only [rank, hcommand, Command.rank]
    omega
  | giveUp msg =>
    obtain ⟨⟨_, hcancelled⟩, _⟩ := guard_passed hstep
    exact absurd hcancelled (by simp [h.calm])
  | workerDone =>
    obtain ⟨⟨hw, hkeys⟩, rfl⟩ := guard_passed hstep
    have howes := sum_map_erase (Worker.owes env) hw
    have hrank := sum_map_erase Worker.rank hw
    refine ⟨h.pool (h.open_of_mem hw) h.started (fun _ => hkeys) ?_, ?_⟩
    · rw [← howes, Worker.owes, zero_add]
    · rw [Worker.rank] at hrank
      simp only [rank]
      omega
  | close =>
    obtain ⟨⟨hstarted, hworkers, hopen⟩, rfl⟩ := guard_passed hstep
    refine ⟨{ h with closed := fun _ => ⟨hstarted, hworkers⟩, returned := ?_ }, ?_⟩
    · intro err herr
      exact ⟨rfl, (h.returned err herr).2⟩
    · simp [rank, hopen]
  | emit msgErr progressErr =>
    obtain ⟨rfl, rfl⟩ := hcalm
    rw [step] at hstep
    split at hstep
    · rename_i msg hcommand
      cases hstep
      exact inv_emit h hcommand
    · cases hstep
  | receiveClosed err =>
    cases hcalm
    obtain ⟨⟨hcommand, hclosed⟩, rfl⟩ := guard_passed hstep
    exact inv_finish h hcommand hclosed
  | cancel => exact hcalm.elim
  | cutKeys =>
    obtain ⟨hcancelled, _⟩ := guard_passed hstep
    exact absurd hcancelled (by simp [h.calm])

/-- **No deadlock.**  When nothing can go on, the verification is finished. -/
theorem verified_of_stuck (h : Inv env s) (hstuck : ∀ a, a.Calm → step env s a = none) :
    Verified env s := by
  have hfull : s.started = env.workers := by
    have hstart := hstuck .startWorker True.intro
    have hle := h.started
    simp only [step] at hstart
    split at hstart
    · cases hstart
    · omega
  have hdone : ∀ err, s.command = .returned err → Verified env s := by
    intro err herr
    obtain ⟨hclosed, hnil⟩ := h.returned err herr
    have hmessages := h.delivered_of_closed hclosed
    have hcounted := h.counted
    have hfailed := h.failed
    simp only [herr, Command.current, length_nil, countP_nil, add_zero] at hcounted hfailed
    refine ⟨hmessages, hclosed, h.closed hclosed, ?_, err, herr, ?_⟩
    · rw [h.progress, hcounted, hmessages.length_eq, length_map]
    · rw [hnil, hfailed, hmessages.countP_eq, countP_eq_zero, forall_mem_map]
      simp [message_eq_empty_iff]
  cases hcommand : s.command with
  | returned err => exact hdone err hcommand
  | emitting msg =>
    have hemit := hstuck (.emit none none) ⟨rfl, rfl⟩
    simp [step, hcommand] at hemit
  | receiving =>
    -- a worker could go on, so there is none, and the channel could be closed or is
    have hworkers : s.workers = [] := by
      by_contra hne
      obtain ⟨w, hw⟩ := exists_mem_of_ne_nil _ hne
      cases w with
      | receiving =>
        cases hkeys : s.keys with
        | nil => simpa [step, hw, hkeys] using hstuck .workerDone True.intro
        | cons k rest => simpa [step, hw, hkeys] using hstuck .receiveKey True.intro
      | getting k => simpa [step, hw] using hstuck (.get k) True.intro
      | sending msg => simpa [step, hw, hcommand] using hstuck (.send msg) True.intro
    cases hclosed : s.closed with
    | false => simpa [step, hfull, hworkers, hclosed] using hstuck .close True.intro
    | true => simpa [step, hcommand, hclosed] using hstuck (.receiveClosed none) rfl

/-- **`repo verify` checks every block.**  Take any run in which the context is not
cancelled and `Emit` succeeds.  It is bounded; the channel of results is closed only
after it has delivered one message for each key, which is empty unless `Get` failed;
and when nothing can go on, the verification is finished. -/
theorem verify_checks_all (env : Env Key) (actions : List (Action Key)) (t : State Key)
    (hcalm : ∀ a ∈ actions, a.Calm) (hrun : run (step env) (start env) actions = some t) :
    actions.length ≤ 4 * env.keys.length + 2 * env.workers + 2 ∧
      (∀ k, message env k ≠ "" ↔ env.getErr k ≠ none) ∧
      (t.closed = true → t.delivered.Perm (env.keys.map (message env))) ∧
      ((∀ a, a.Calm → step env t a = none) → Verified env t) := by
  have halong : Along (step env) (fun _ a => a.Calm) (start env) actions :=
    along_of_forall (fun a ha _ => hcalm a ha) _
  have hinv : Inv env t := run_invariant_along (Inv env) (fun _ a => a.Calm)
    (fun s a t h hcalm hstep => (inv_step s a t h hcalm hstep).1) (inv_start env) halong hrun
  have hlength := run_length_le (Inv env) (fun _ a => a.Calm) (rank env) inv_step
    (inv_start env) halong hrun
  refine ⟨?_, fun k => not_congr message_eq_empty_iff, fun hclosed => ?_, verified_of_stuck hinv⟩
  · have hrank : rank env (start env) = 4 * env.keys.length + 2 * env.workers + 2 := by
      simp [rank, start, Command.rank]
    omega
  · exact hinv.delivered_of_closed hclosed

/-- Two keys, the second of which cannot be read, and one worker. -/
def sampleEnv : Env Nat where
  keys := [1, 2]
  getErr := fun k => if k = 2 then some "hash mismatch" else none
  keyString := fun _ => "Qm"
  workers := 1
  workers_pos := by decide

def sampleRun : List (Action Nat) :=
  [.startWorker, .receiveKey, .get 1, .send "", .receiveKey, .emit none none, .get 2,
    .send "block Qm was corrupt (hash mismatch)", .emit none none, .workerDone, .close,
    .receiveClosed none]

theorem verify_checks_all_sample :
    ∃ t, run (step sampleEnv) (start sampleEnv) sampleRun = some t ∧
      t.command = .returned (some "verify complete, some blocks were corrupt") ∧
      t.delivered.Perm (sampleEnv.keys.map (message sampleEnv)) := by
  have hend : (run (step sampleEnv) (start sampleEnv) sampleRun).any (fun t => decide
      (t.command = .returned (some "verify complete, some blocks were corrupt")) && t.closed) =
      true := by
    decide +kernel
  obtain ⟨t, hrun, ht⟩ := exists_run_of_any hend
  obtain ⟨hcommand, hclosed⟩ := Bool.and_eq_true_iff.mp ht
  have hcalm : ∀ a ∈ sampleRun, a.Calm := by
    simp [sampleRun, Action.Calm]
  exact ⟨t, hrun, of_decide_eq_true hcommand,
    (verify_checks_all sampleEnv sampleRun t hcalm hrun).2.2.1 hclosed⟩

end RepoVerify
