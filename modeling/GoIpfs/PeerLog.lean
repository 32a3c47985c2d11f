import GoIpfs.StepRun
import Mathlib.Data.List.Nodup

/-!
# The peer log

`emit` puts an event into a channel of fixed size, or counts it as dropped when the
channel is full.  `collectEvents` takes events out and logs them.  When events were
dropped it sleeps, drops a part of the backlog itself and reports the number.

The calls of `emit` are numbered, so that equal events can be told apart.  A run is
any interleaving of the calls, each in two steps if the channel is full, with the
steps of the loop.
-/

namespace PeerLog

open StepRun List

variable {Peer : Type}

inductive EventType where
  | connect
  | identify
  deriving DecidableEq, Repr

/-- A `plEvent`, with the number of the call that emits it. -/
structure PlEvent (Peer : Type) where
  kind : EventType
  peer : Peer
  call : Nat
  deriving DecidableEq, Repr

def eventQueueSize : Nat := 64 * 1024

def busyDropAmount : Nat := eventQueueSize / 8

/-- Where `collectEvents` is, with its variable `dropped` and the index of the
draining loop. -/
inductive Loop where
  | swap
  | sleep (dropped : Nat)
  | drain (dropped i : Nat)
  | swapAgain (dropped : Nat)
  | report (dropped : Nat)
  | receive

/-- The drops that the loop holds and has not reported. -/
def Loop.held : Loop → Nat
  | .sleep dropped | .drain dropped _ | .swapAgain dropped | .report dropped => dropped
  | .swap | .receive => 0

structure State (Peer : Type) where
  events : List (PlEvent Peer) := []
  /-- A `uint64`, which wraps only after `2^64` calls: it is at most their number. -/
  droppedCount : Nat := 0
  loop : Loop := .swap
  /-- The calls that have found the channel full and have not counted that. -/
  refused : List (PlEvent Peer) := []
  calls : Nat := 0
  entered : List (PlEvent Peer) := []
  taken : List (PlEvent Peer) := []
  lost : List (PlEvent Peer) := []
  /-- The sum of the counts in the messages. -/
  reported : Nat := 0

def State.completed (s : State Peer) : Nat := s.calls - s.refused.length

def emit (kind : EventType) (peer : Peer) (s : State Peer) : State Peer :=
  let e : PlEvent Peer := ⟨kind, peer, s.calls⟩
  if s.events.length < eventQueueSize then
    { s with events := s.events ++ [e], entered := s.entered ++ [e], calls := s.calls + 1 }
  else { s with refused := e :: s.refused, calls := s.calls + 1 }

/-- One step of `collectEvents`; `none` if it has to wait for an event. -/
def collectEvents (s : State Peer) : Option (State Peer) :=
  match s.loop, s.events with
  | .swap, _ => some { s with
      droppedCount := 0
      loop := if s.droppedCount > 0 then .sleep s.droppedCount else .receive }
  | .sleep dropped, _ => some { s with loop := .drain dropped 0 }
  | .drain dropped _, [] => some { s with loop := .swapAgain dropped }
  | .drain dropped i, e :: rest =>
    if i < busyDropAmount then
      some { s with events := rest, lost := e :: s.lost, loop := .drain (dropped + 1) (i + 1) }
    else some { s with loop := .swapAgain dropped }
  | .swapAgain dropped, _ =>
    some { s with droppedCount := 0, loop := .report (dropped + s.droppedCount) }
  | .report dropped, _ => some { s with reported := s.reported + dropped, loop := .receive }
  | .receive, [] => none
  | .receive, e :: rest => some { s with events := rest, taken := s.taken ++ [e], loop := .swap }

inductive Action (Peer : Type) where
  | emit (kind : EventType) (peer : Peer)
  | count (e : PlEvent Peer)
  | collect

def step [DecidableEq Peer] (s : State Peer) : Action Peer → Option (State Peer)
  | .emit kind peer => some (emit kind peer s)
  | .count e =>
    if e ∈ s.refused then
      some { s with
        droppedCount := s.droppedCount + 1
        refused := s.refused.erase e
        lost := e :: s.lost }
    else none
  | .collect => collectEvents s

/-- The events of all calls. -/
def State.all (s : State Peer) : List (PlEvent Peer) :=
  s.taken ++ (s.events ++ (s.refused ++ s.lost))

structure Inv (s : State Peer) : Prop where
  /-- The event of every call is in one place. -/
  each : (s.all.map PlEvent.call).Perm (range s.calls)
  counted : s.lost.length = s.reported + s.droppedCount + s.loop.held
  order : ∃ out, s.entered = out ++ s.events ∧ s.taken <+ out

variable {s t : State Peer}

theorem Inv.moved (h : Inv s) (hall : t.all.Perm s.all) (hcalls : t.calls = s.calls)
    (hcounted : t.lost.length = t.reported + t.droppedCount + t.loop.held)
    (horder : ∃ out, t.entered = out ++ t.events ∧ t.taken <+ out) : Inv t :=
  ⟨hcalls ▸ (hall.map _).trans h.each, hcounted, horder⟩

theorem inv_emit (h : Inv s) (kind : EventType) (peer : Peer) : Inv (emit kind peer s) := by
  have heach : ((s.taken ++ (s.events ++ ⟨kind, peer, s.calls⟩ :: (s.refused ++ s.lost))).map
      PlEvent.call).Perm (range (s.calls + 1)) := by
    rw [range_succ, ← append_assoc]
    refine (perm_middle.map _).trans ?_
    rw [append_assoc]
    exact (h.each.cons _).trans (perm_append_singleton _ _).symm
  obtain ⟨out, hentered, htaken⟩ := h.order
  unfold emit
  split
  · exact ⟨by simpa [State.all] using heach, h.counted, out, by simp [hentered], htaken⟩
  · exact ⟨heach, h.counted, h.order⟩

theorem inv_collect (h : Inv s) (hstep : collectEvents s = some t) : Inv t := by
  obtain ⟨out, hentered, htaken⟩ := h.order
  have hcounted := h.counted
  unfold collectEvents at hstep
  split at hstep
  · next hloop =>
    cases hstep
    rw [hloop] at hcounted
    refine h.moved (.refl _) rfl ?_ h.order
    dsimp only
    split
    · exact hcounted
    · next hzero =>
      rw [hcounted, Nat.eq_zero_of_not_pos hzero]
      rfl
  · next dropped hloop =>
    cases hstep
    rw [hloop] at hcounted
    exact h.moved (.refl _) rfl hcounted h.order
  · next dropped i hloop hevents =>
    cases hstep
    rw [hloop] at hcounted
    exact h.moved (.refl _) rfl hcounted h.order
  · next dropped i e rest hloop hevents =>
    rw [hloop] at hcounted
    split at hstep
    · cases hstep
      refine h.moved ?_ rfl ?_ ⟨out ++ [e], ?_, htaken.trans (sublist_append_left ..)⟩
      · rw [State.all, State.all, hevents, ← append_assoc rest, cons_append, ← append_assoc rest]
        exact perm_middle.append_left _
      · rw [length_cons, hcounted]
        rfl
      · rw [hentered, hevents, append_assoc]
        rfl
    · cases hstep
      exact h.moved (.refl _) rfl hcounted h.order
  · next dropped hloop =>
    cases hstep
    rw [hloop] at hcounted
    refine h.moved (.refl _) rfl ?_ h.order
    simp only [Loop.held] at hcounted ⊢
    omega
  · next dropped hloop =>
    cases hstep
    rw [hloop] at hcounted
    refine h.moved (.refl _) rfl ?_ h.order
    simp only [Loop.held] at hcounted ⊢
    omega
  · cases hstep
  · next e rest hloop hevents =>
    cases hstep
    rw [hloop] at hcounted
    refine h.moved ?_ rfl hcounted ⟨out ++ [e], ?_, htaken.append (.refl _)⟩
    · simp [State.all, hevents]
    · rw [hentered, hevents, append_assoc]
      rfl

theorem inv_step [DecidableEq Peer] (s : State Peer) (a : Action Peer) (t : State Peer) (h : Inv s)
    (hstep : step s a = some t) : Inv t := by
  cases a with
  | emit kind peer =>
    cases hstep
    exact inv_emit h kind peer
  | count e =>
    obtain ⟨hmem, rfl⟩ := guard_passed hstep
    refine h.moved ?_ rfl ?_ h.order
    · refine .append_left _ (.append_left _ (perm_middle.trans ?_))
      exact (perm_cons_erase hmem).symm.append_right _
    · simp only [length_cons, h.counted]
      omega
  | collect => exact inv_collect h hstep

theorem inv_start : Inv ({} : State Peer) := ⟨.nil, rfl, [], rfl, .slnil⟩

/-- **Every event is accounted for.** -/
theorem peerLog_accounts [DecidableEq Peer] {actions : List (Action Peer)}
    (hrun : run step {} actions = some s) :
    s.completed = s.taken.length + s.reported + s.events.length + s.droppedCount + s.loop.held ∧
      s.lost.length = s.reported + s.droppedCount + s.loop.held ∧
      (∀ e ∈ s.taken, e ∉ s.lost) ∧ s.taken <+ s.entered := by
  have h := run_invariant Inv inv_step inv_start hrun
  obtain ⟨out, hentered, htaken⟩ := h.order
  refine ⟨?_, h.counted, ?_, hentered ▸ htaken.trans (sublist_append_left ..)⟩
  · have hlength := h.each.length_eq
    have hcounted := h.counted
    simp only [State.all, length_map, length_append, length_range] at hlength
    unfold State.completed
    omega
  · have hnodup : s.all.Nodup := .of_map _ (h.each.nodup_iff.mpr nodup_range)
    intro e he hlost
    exact (nodup_append.mp hnodup).2.2 e he e (by simp [hlost]) rfl

/-! ## A run that fills the queue -/

section Full

variable [DecidableEq Peer]

/-- As long as there is room, every call of `emit` puts its event into the queue. -/
theorem run_emits (kind : EventType) (peer : Peer) (n : Nat) (s : State Peer)
    (hroom : s.events.length + n ≤ eventQueueSize) :
    ∃ es, es.length = n ∧ run step s (replicate n (.emit kind peer)) = some { s with
      events := s.events ++ es, entered := s.entered ++ es, calls := s.calls + n } := by
  induction n generalizing s with
  | zero => exact ⟨[], rfl, by simp⟩
  | succ n ih =>
    have hemit : step s (.emit kind peer) = some { s with
        events := s.events ++ [⟨kind, peer, s.calls⟩]
        entered := s.entered ++ [⟨kind, peer, s.calls⟩], calls := s.calls + 1 } := by
      rw [step, emit, if_pos (by omega)]
    obtain ⟨es, hlen, hrun⟩ := ih { s with
        events := s.events ++ [⟨kind, peer, s.calls⟩]
        entered := s.entered ++ [⟨kind, peer, s.calls⟩], calls := s.calls + 1 }
      (by simp only [length_append, length_singleton]; omega)
    refine ⟨⟨kind, peer, s.calls⟩ :: es, by rw [length_cons, hlen], ?_⟩
    rw [replicate_succ]
    refine run_cons.mpr ⟨_, hemit, hrun.trans ?_⟩
    simp only [append_assoc, singleton_append, Nat.add_assoc, Nat.add_comm 1]

/-- The draining loop takes one event in each round and counts it. -/
theorem run_drain (k dropped i : Nat) (s : State Peer) (hloop : s.loop = .drain dropped i)
    (hi : i + k ≤ busyDropAmount) (hk : k ≤ s.events.length) :
    ∃ gone, gone.length = k ∧ run step s (replicate k .collect) = some { s with
      events := s.events.drop k
      lost := gone ++ s.lost
      loop := .drain (dropped + k) (i + k) } := by
  induction k generalizing dropped i s with
  | zero => exact ⟨[], rfl, by simp [← hloop]⟩
  | succ k ih =>
    obtain ⟨e, rest, hevents⟩ := exists_cons_of_length_pos (Nat.lt_of_lt_of_le k.succ_pos hk)
    have hcollect : step s .collect = some { s with
        events := rest, lost := e :: s.lost, loop := .drain (dropped + 1) (i + 1) } := by
      simp only [step, collectEvents, hloop, hevents]
      rw [if_pos (by omega)]
    rw [hevents, length_cons] at hk
    obtain ⟨gone, hlen, hrun⟩ := ih _ _ { s with
        events := rest, lost := e :: s.lost, loop := .drain (dropped + 1) (i + 1) } rfl (by omega)
      (by simpa using hk)
    refine ⟨gone ++ [e], by rw [length_append, hlen, length_singleton], ?_⟩
    rw [replicate_succ]
    refine run_cons.mpr ⟨_, hcollect, hrun.trans ?_⟩
    simp only [hevents, drop_succ_cons, append_assoc, singleton_append, Nat.add_assoc,
      Nat.add_comm 1]

end Full

/-- The queue is filled, one more event is dropped and counted, the loop drops an
eighth of the backlog and reports all that, and then logs an event: the calls are as
many as the law says. -/
theorem peerLog_accounts_full :
    ∃ (actions : List (Action Nat)) (s : State Nat), run step {} actions = some s ∧
      s.taken.length = 1 ∧ s.reported = busyDropAmount + 1 ∧
      s.events.length + busyDropAmount + 1 = eventQueueSize ∧
      s.completed = eventQueueSize + 1 := by
  obtain ⟨es, hes, hfill⟩ := run_emits EventType.connect 7 eventQueueSize {} (by simp)
  have hfull : ¬ es.length < eventQueueSize := by omega
  -- one call finds the queue full, and the loop goes to sleep with the count
  have hdrop : run step { events := es, entered := es, calls := eventQueueSize }
      [.emit .identify 8, .count ⟨.identify, 8, eventQueueSize⟩, .collect, .collect] =
      some { events := es, entered := es, calls := eventQueueSize + 1
             lost := [⟨.identify, 8, eventQueueSize⟩], loop := .drain 1 0 } := by
    simp [run, step, emit, collectEvents, hfull]
  obtain ⟨gone, hgone, hdrain⟩ := run_drain busyDropAmount 1 0
    { events := es, entered := es, calls := eventQueueSize + 1
      lost := [⟨.identify, 8, eventQueueSize⟩], loop := .drain 1 0 } rfl (by simp)
    (by rw [hes]; decide)
  obtain ⟨e, rest, hrest⟩ : ∃ e rest, es.drop busyDropAmount = e :: rest :=
    exists_cons_of_length_pos (by rw [length_drop, hes]; decide)
  have hreport : run step { events := e :: rest, entered := es, calls := eventQueueSize + 1
                            lost := gone ++ [⟨.identify, 8, eventQueueSize⟩]
                            loop := .drain (1 + busyDropAmount) (0 + busyDropAmount) }
      [.collect, .collect, .collect, .collect] =
      some { events := rest, entered := es, calls := eventQueueSize + 1, taken := [e]
             lost := gone ++ [⟨.identify, 8, eventQueueSize⟩]
             reported := 1 + busyDropAmount } := by
    simp [run, step, collectEvents]
  have hrun := run_append.mpr ⟨_, hfill, run_append.mpr ⟨_, hdrop, run_append.mpr ⟨_, hdrain,
    by rw [hrest]; exact hreport⟩⟩⟩
  have hlength := congrArg length hrest
  rw [length_drop, hes, length_cons] at hlength
  have hsize : busyDropAmount < eventQueueSize := by decide
  refine ⟨_, _, hrun, rfl, Nat.add_comm _ _, ?_, (peerLog_accounts hrun).1.trans ?_⟩
  · dsimp only
    omega
  · simp only [length_singleton, Loop.held]
    omega

end PeerLog
