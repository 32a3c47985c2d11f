import GoIpfs.BootstrapRound
import GoIpfs.StepRun
import Mathlib.Algebra.GroupWithZero.Nat

/-!
# Starting the node's bootstrapping

`Bootstrap` of `core/bootstrap/bootstrap.go` with the goroutines it starts: the
ticker of `periodicproc.Tick` and the rounds.  A round ends by waiting for
`doneWithRound`, which only `Bootstrap` itself sends to and closes, after the
routing has been started.  If the routing cannot be started, `Bootstrap` closes
the process, and closing waits until every function of the process has returned,
the rounds among them.

Rounds are started one after the other by the ticker and once by `Bootstrap`.
The machine lets any of them go on in any order; nothing is said about when the
ticker fires.
-/

namespace NodeBootstrap

open StepRun

inductive Round where
  /-- In `bootstrapRound`. -/
  | dialing
  /-- At `<-doneWithRound`. -/
  | waiting
  | returned
  deriving DecidableEq, Repr

/-- Where the goroutine of `periodicproc.Tick` is. -/
inductive Ticker where
  | idle
  /-- Waiting for the round that it has started. -/
  | started (round : Nat)
  | returned
  deriving DecidableEq, Repr

inductive Main where
  /-- Before `proc.Go(periodic)`. -/
  | starting
  /-- In `rt.Bootstrap`. -/
  | routing
  /-- In `proc.Close()`. -/
  | closing (err : String)
  /-- At the send to `doneWithRound`. -/
  | signalling
  | closeSignal
  | returned (err : Option String)
  deriving DecidableEq, Repr

/-- `rt.Bootstrap`: there is no routing, or it answers with nil or an error. -/
inductive Routing where
  | none
  | ok
  | error (err : String)
  deriving DecidableEq, Repr

structure State where
  main : Main
  ticker : Ticker
  rounds : List Round
  /-- `doneWithRound` is closed. -/
  signalClosed : Bool
  /-- The process has been told to close. -/
  closing : Bool
  deriving DecidableEq, Repr

def start : State where
  main := .starting
  ticker := .idle
  rounds := []
  signalClosed := false
  closing := false

inductive Action where
  /-- `Bootstrap` goes on. -/
  | main
  /-- The send to `doneWithRound` meets this round. -/
  | meet (round : Nat)
  /-- The ticker fires. -/
  | tick
  /-- The ticker's round has returned. -/
  | tickerNext
  /-- The ticker's goroutine notices that the process closes. -/
  | tickerClose
  /-- `bootstrapRound` returns; its result is only logged. -/
  | dialed (round : Nat) (result : Option RoundError)
  /-- The round receives from the closed `doneWithRound`. -/
  | released (round : Nat)
  deriving DecidableEq, Repr

/-- The statements of `Bootstrap`; `none` while it has to wait. -/
def mainStep (rt : Routing) (s : State) : Option State :=
  match s.main with
  | .starting => some { s with
      rounds := s.rounds ++ [.dialing]
      main := if rt = .none then .signalling else .routing }
  | .routing =>
    match rt with
    | .error err => some { s with main := .closing err, closing := true }
    | .none | .ok => some { s with main := .signalling }
  | .closing err =>
    -- every function of the process has returned
    if s.ticker = .returned ∧ ∀ r ∈ s.rounds, r = .returned then
      some { s with main := .returned (some err) }
    else none
  | .signalling => none
  | .closeSignal => some { s with signalClosed := true, main := .returned none }
  | .returned _ => none

def step (rt : Routing) (s : State) : Action → Option State
  | .main => mainStep rt s
  | .meet i =>
    if s.main = .signalling ∧ s.rounds[i]? = some .waiting then
      some { s with rounds := s.rounds.set i .returned, main := .closeSignal }
    else none
  | .tick =>
    if s.ticker = .idle then
      some { s with ticker := .started s.rounds.length, rounds := s.rounds ++ [.dialing] }
    else none
  | .tickerNext =>
    match s.ticker with
    | .started i =>
      if s.rounds[i]? = some .returned then some { s with ticker := .idle } else none
    | .idle | .returned => none
  | .tickerClose =>
    if s.closing = true ∧ s.ticker ≠ .returned then some { s with ticker := .returned }
    else none
  | .dialed i _ =>
    if s.rounds[i]? = some .dialing then some { s with rounds := s.rounds.set i .waiting }
    else none
  | .released i =>
    if s.signalClosed = true ∧ s.rounds[i]? = some .waiting then
      some { s with rounds := s.rounds.set i .returned }
    else none

/-- Nothing can go on until the ticker fires. -/
def Quiet (rt : Routing) (s : State) : Prop := ∀ a, a ≠ .tick → step rt s a = none

def Routing.result : Routing → Option String
  | .none | .ok => .none
  | .error err => some err

/-- `Bootstrap` has returned and no round is left waiting; after an error the
ticker is gone too. -/
structure Settled (rt : Routing) (s : State) : Prop where
  returned : s.main = .returned rt.result
  rounds : ∀ r ∈ s.rounds, r = .returned
  ticker : rt.result ≠ none → s.ticker = .returned

/-! ## The routing starts -/

/-- Before the signal no round has returned, and the process is never closed. -/
structure Starting (s : State) : Prop where
  closing : s.closing = false
  ticker : s.ticker ≠ .returned
  phase : (s.main = .starting ∧ .returned ∉ s.rounds) ∨
    ((s.main = .routing ∨ s.main = .signalling) ∧ .returned ∉ s.rounds ∧ s.rounds ≠ []) ∨
    s.main = .closeSignal ∨ (s.main = .returned none ∧ s.signalClosed = true)
  early : s.main ≠ .returned none → s.signalClosed = false

variable {rt : Routing} {s t : State}

theorem starting_mainStep (hrt : rt.result = none) (h : Starting s)
    (hstep : mainStep rt s = some t) : Starting t := by
  unfold mainStep at hstep
  rcases h.phase with ⟨hmain, hnone⟩ | ⟨hmain | hmain, hnone, hsome⟩ | hmain | ⟨hmain, -⟩
  · have hopen := h.early (by simp [hmain])
    rw [hmain] at hstep
    cases hstep
    refine ⟨h.closing, h.ticker, .inr (.inl ⟨?_, by simpa using hnone, by simp⟩), fun _ => hopen⟩
    by_cases hrt : rt = .none
    · exact .inr (if_pos hrt)
    · exact .inl (if_neg hrt)
  · have hopen := h.early (by simp [hmain])
    rw [hmain] at hstep
    cases rt with
    | error err => cases hrt
    | none | ok =>
      cases hstep
      exact ⟨h.closing, h.ticker, .inr (.inl ⟨.inr rfl, hnone, hsome⟩), fun _ => hopen⟩
  · rw [hmain] at hstep
    cases hstep
  · rw [hmain] at hstep
    cases hstep
    exact ⟨h.closing, h.ticker, .inr (.inr (.inr ⟨rfl, rfl⟩)), by simp⟩
  · rw [hmain] at hstep
    cases hstep

theorem Starting.setRounds {rounds : List Round} (h : Starting s)
    (hlength : s.rounds ≠ [] → rounds ≠ [])
    (hrounds : s.signalClosed = false → .returned ∉ s.rounds → .returned ∉ rounds) :
    Starting { s with rounds := rounds } := by
  refine ⟨h.closing, h.ticker, ?_, h.early⟩
  rcases h.phase with ⟨hmain, hnone⟩ | ⟨hmain, hnone, hsome⟩ | hmain | hdone
  · exact .inl ⟨hmain, hrounds (h.early (by simp [hmain])) hnone⟩
  · refine .inr (.inl ⟨hmain, hrounds (h.early ?_) hnone, hlength hsome⟩)
    rcases hmain with hmain | hmain <;> simp [hmain]
  · exact .inr (.inr (.inl hmain))
  · exact .inr (.inr (.inr hdone))

theorem starting_step (hrt : rt.result = none) (s : State) (a : Action) (t : State)
    (h : Starting s) (hstep : step rt s a = some t) : Starting t := by
  cases a with
  | main => exact starting_mainStep hrt h hstep
  | meet i =>
    obtain ⟨⟨hmain, hwaiting⟩, rfl⟩ := guard_passed hstep
    exact ⟨h.closing, h.ticker, .inr (.inr (.inl rfl)), fun _ => h.early (by simp [hmain])⟩
  | tick =>
    obtain ⟨-, rfl⟩ := guard_passed hstep
    have hgrown : Starting { s with rounds := s.rounds ++ [.dialing] } :=
      h.setRounds (by simp) (by simp)
    exact ⟨hgrown.closing, by simp, hgrown.phase, hgrown.early⟩
  | tickerNext =>
    simp only [step] at hstep
    split at hstep
    · obtain ⟨-, rfl⟩ := guard_passed hstep
      exact ⟨h.closing, by simp, h.phase, h.early⟩
    · cases hstep
    · cases hstep
  | tickerClose =>
    obtain ⟨⟨hclosing, -⟩, -⟩ := guard_passed hstep
    exact absurd (hclosing.symm.trans h.closing) (by simp)
  | dialed i result =>
    obtain ⟨hdialing, rfl⟩ := guard_passed hstep
    refine h.setRounds (by simp) fun _ hnone hmem => ?_
    rcases List.mem_or_eq_of_mem_set hmem with hold | hnew
    · exact hnone hold
    · cases hnew
  | released i =>
    obtain ⟨⟨hclosed, hwaiting⟩, rfl⟩ := guard_passed hstep
    refine h.setRounds (by simp) fun hopen => ?_
    exact absurd (hopen.symm.trans hclosed) (by simp)

/-- A round that is not returned can go on once the signal is closed, and the
signal can be met before. -/
theorem settled_of_quiet (hrt : rt.result = none) (h : Starting s) (hquiet : Quiet rt s) :
    Settled rt s := by
  have hno : ∀ i : Nat, s.rounds[i]? ≠ some Round.dialing := by
    intro i hi
    have := hquiet (.dialed i none) (by simp)
    simp [step, hi] at this
  rcases h.phase with ⟨hmain, -⟩ | ⟨hmain | hmain, hnone, hsome⟩ | hmain | ⟨hmain, hclosed⟩
  · have := hquiet .main (by simp)
    simp [step, mainStep, hmain] at this
  · have := hquiet .main (by simp)
    cases rt <;> simp [step, mainStep, hmain] at this
  · -- the first round is at the signal, since it has not returned and does not dial
    exfalso
    obtain ⟨r, rest, hrounds⟩ := List.exists_cons_of_ne_nil hsome
    have hmeet := hquiet (.meet 0) (by simp)
    have hfirst := hno 0
    cases r with
    | dialing => simp [hrounds] at hfirst
    | waiting => simp [step, hmain, hrounds] at hmeet
    | returned => simp [hrounds] at hnone
  · have := hquiet .main (by simp)
    simp [step, mainStep, hmain] at this
  · refine ⟨hrt.symm ▸ hmain, ?_, fun herr => absurd hrt herr⟩
    intro r hr
    obtain ⟨i, hi⟩ := List.getElem?_of_mem hr
    cases r with
    | dialing => exact absurd hi (hno i)
    | waiting =>
      have := hquiet (.released i) (by simp)
      simp [step, hclosed, hi] at this
    | returned => rfl

/-! ## The routing does not start -/

/-- `Bootstrap` closes the process and the first round waits for a signal. -/
def blocked (err : String) : State where
  main := .closing err
  ticker := .returned
  rounds := [.waiting]
  signalClosed := false
  closing := true

theorem run_blocked (err : String) :
    run (step (.error err)) start [.main, .main, .dialed 0 none, .tickerClose] =
      some (blocked err) := by
  simp [run, step, mainStep, start, blocked]

theorem quiet_blocked (err : String) : Quiet (.error err) (blocked err) := by
  intro a ha
  cases a with
  | main => simp [step, mainStep, blocked]
  | meet i | tickerClose | released i => simp [step, blocked]
  | tick => exact absurd rfl ha
  | tickerNext => rfl
  | dialed i result =>
    cases i with
    | zero | succ i => simp [step, blocked]

/-! ## How long it takes -/

def Round.left : Round → Nat
  | .dialing => 2
  | .waiting => 1
  | .returned => 0

def Ticker.left : Ticker → Nat
  | .started _ => 2
  | .idle => 1
  | .returned => 0

/-- `starting` is followed by three steps and by the two of its round. -/
def Main.left : Main → Nat
  | .starting => 6
  | .routing => 3
  | .signalling => 2
  | .closing _ | .closeSignal => 1
  | .returned _ => 0

/-- The steps that are left if the ticker does not fire. -/
def State.left (s : State) : Nat := s.main.left + s.ticker.left + (s.rounds.map Round.left).sum

theorem sum_left_set {rounds : List Round} {i : Nat} {r : Round} (h : rounds[i]? = some r)
    (next : Round) :
    ((rounds.set i next).map Round.left).sum + r.left =
      (rounds.map Round.left).sum + next.left := by
  induction rounds generalizing i with
  | nil => cases h
  | cons first rest ih =>
    cases i with
    | zero =>
      obtain rfl : first = r := by simpa using h
      simp only [List.set_cons_zero, List.map_cons, List.sum_cons]
      omega
    | succ i =>
      have hrest := ih (by simpa using h)
      simp only [List.set_cons_succ, List.map_cons, List.sum_cons]
      omega

theorem left_mainStep (h : mainStep rt s = some t) : t.left < s.left := by
  unfold mainStep at h
  cases hmain : s.main with
  | starting =>
    rw [hmain] at h
    cases h
    simp only [State.left, hmain, List.map_append, List.sum_append]
    split <;> simp [Main.left, Round.left] <;> omega
  | routing =>
    rw [hmain] at h
    cases rt <;> cases h <;> simp [State.left, hmain, Main.left]
  | closing err =>
    rw [hmain] at h
    obtain ⟨-, rfl⟩ := guard_passed h
    simp [State.left, hmain, Main.left]
  | closeSignal =>
    rw [hmain] at h
    cases h
    simp [State.left, hmain, Main.left]
  | signalling | returned err =>
    rw [hmain] at h
    cases h

theorem left_step {a : Action} (h : step rt s a = some t) :
    t.left < s.left + if a = .tick then 4 else 0 := by
  cases a with
  | main => exact left_mainStep h
  | meet i =>
    obtain ⟨⟨hmain, hi⟩, rfl⟩ := guard_passed h
    have hsum := sum_left_set hi .returned
    simp [State.left, hmain, Main.left, Round.left] at hsum ⊢
    omega
  | tick =>
    obtain ⟨hidle, rfl⟩ := guard_passed h
    simp [State.left, hidle, Ticker.left, Round.left]
    omega
  | tickerNext =>
    simp only [step] at h
    split at h
    · rename_i hticker
      obtain ⟨-, rfl⟩ := guard_passed h
      simp [State.left, hticker, Ticker.left]
    · cases h
    · cases h
  | tickerClose =>
    obtain ⟨⟨-, hticker⟩, rfl⟩ := guard_passed h
    cases hstate : s.ticker with
    | idle | started i => simp [State.left, hstate, Ticker.left]
    | returned => exact absurd hstate hticker
  | dialed i result =>
    obtain ⟨hi, rfl⟩ := guard_passed h
    have hsum := sum_left_set hi .waiting
    simp [State.left, Round.left] at hsum ⊢
    omega
  | released i =>
    obtain ⟨⟨-, hi⟩, rfl⟩ := guard_passed h
    have hsum := sum_left_set hi .returned
    simp [State.left, Round.left] at hsum ⊢
    omega

/-- The ticker pays for its round; everything else comes to an end. -/
theorem length_run {schedule : List Action} (h : run (step rt) s schedule = some t) :
    schedule.length + t.left ≤ s.left + 4 * schedule.count .tick := by
  induction schedule generalizing s with
  | nil =>
    cases h
    simp
  | cons a rest ih =>
    obtain ⟨m, hm, hrest⟩ := run_cons.mp h
    have hle := ih hrest
    have hlt := left_step hm
    by_cases ha : a = .tick
    · rw [if_pos ha] at hlt
      rw [ha, List.count_cons_self, List.length_cons]
      omega
    · rw [if_neg ha] at hlt
      rw [List.count_cons_of_ne ha, List.length_cons]
      omega

/-- **When the start of the bootstrapping does not deadlock.**  Every run that
cannot go on ends with `Bootstrap` returned and no round waiting, exactly if
there is no routing or its start succeeds; and a run is short unless the ticker
fires. -/
theorem bootstrap_settles_iff (rt : Routing) :
    ((∀ schedule s, run (step rt) start schedule = some s → Quiet rt s → Settled rt s) ↔
      ∀ err, rt ≠ .error err) ∧
    ∀ schedule s, run (step rt) start schedule = some s →
      schedule.length ≤ 7 + 4 * schedule.count .tick := by
  have hleft : start.left = 7 := rfl
  refine ⟨?_, fun schedule s hrun => by have := length_run hrun; omega⟩
  constructor
  · rintro hall err rfl
    have hsettled := hall _ _ (run_blocked err) (quiet_blocked err)
    exact absurd (hsettled.rounds .waiting (by simp [blocked])) (by simp)
  intro hok schedule s hrun hquiet
  have hrt : rt.result = none := by
    cases rt with
    | none | ok => rfl
    | error err => exact absurd rfl (hok err)
  have hstart : Starting start :=
    ⟨rfl, by simp [start], .inl ⟨rfl, by simp [start]⟩, fun _ => rfl⟩
  exact settled_of_quiet hrt (run_invariant _ (starting_step hrt) hstart hrun) hquiet

/-- `rt.Bootstrap` fails: the first round waits for the signal, `Bootstrap` waits
for the first round, and nothing can happen. -/
theorem failed_routing_deadlocks :
    ∃ s, run (step (.error "no routing table")) start
        [.main, .main, .dialed 0 none, .tickerClose] = some s ∧
      Quiet (.error "no routing table") s ∧ s.main = .closing "no routing table" ∧
      .waiting ∈ s.rounds :=
  ⟨blocked _, run_blocked _, quiet_blocked _, rfl, by simp [blocked]⟩

/-- A start with two rounds, of which the first one meets the signal. -/
example :
    (run (step .ok) start
      [.main, .tick, .dialed 1 none, .main, .dialed 0 (some .notEnoughBootstrapPeers), .meet 0,
        .main, .released 1, .tickerNext]).any
      (fun s => s.main = .returned none ∧ s.rounds = [.returned, .returned]) = true := by
  decide

end NodeBootstrap
