import GoIpfs.Peering

/-!
# Stopping a peer handler

`peerHandler.stop` cancels the handler's context and drops its timer.  It
leaves no mark that a goroutine would look at: a `startIfDisconnected` that was
spawned before, or that a notification spawns after, arms a new timer, and a
`reconnect` that has already begun goes on to call `Connect`.

A handler stays stopped in the runs whose steps all meet `Halting`.
-/

namespace Peering

open StepRun List Option Service

variable {Peer Addr : Type} [DecidableEq Peer] [DecidableEq Addr]

def Service.armed (s : Service Peer Addr) (h : Nat) : Prop :=
  ∃ ph ∈ s.handlers[h]?, ph.reconnectTimer = some .armed

instance (s : Service Peer Addr) (h : Nat) : Decidable (s.armed h) :=
  match hh : s.handlers[h]? with
  | none => isFalse (by simp [Service.armed, hh])
  | some ph => decidable_of_iff (ph.reconnectTimer = some .armed) (by simp [Service.armed, hh])

/-- The step starts `host.Connect` for the handler. -/
def Action.dials (h : Nat) : Action Peer Addr → Bool
  | .run (.reconnect k (.loaded _)) _ => k = h
  | _ => false

/-- The step does not start `Connect` for a handler whose `stop` has returned, and
does not leave its timer armed. -/
def StaysStopped (s : Service Peer Addr) (a : Action Peer Addr) : Prop :=
  ∀ t ∈ step s a, ∀ h ∈ s.stopped, a.dials h = false ∧ ¬ t.armed h

instance (s : Service Peer Addr) (a : Action Peer Addr) : Decidable (StaysStopped s a) :=
  inferInstanceAs (Decidable (∀ t ∈ step s a, _))

/-- Peer 0 is removed before the goroutine that `Start` has spawned for it runs. -/
def lateStart : List (Action Nat Nat) :=
  [.addPeer 0 [], .start, .removePeer 0, .run (.startIfDisconnected 0) ⟨true, 0, 0⟩]

/-- **A stopped handler can be started.**  After `RemovePeer` has returned, the
goroutine arms the timer of the stopped handler. -/
theorem lateStart_arms :
    (run step (newPeeringService []) lateStart).isSome = true ∧
      ¬ Along step StaysStopped (newPeeringService []) lateStart := by
  decide

/-- The goroutine is a `reconnect` for the handler that has not yet called
`Connect`. -/
def Task.waitsToDial (h : Nat) : Task Addr → Bool
  | .reconnect k .entered | .reconnect k (.loaded _) => k = h
  | _ => false

/-- No `reconnect` for the handler is on the way to `Connect`. -/
def NoneWaiting (s : Service Peer Addr) (h : Nat) : Prop :=
  ∀ task ∈ s.tasks, task.waitsToDial h = false

instance (s : Service Peer Addr) (h : Nat) : Decidable (NoneWaiting s h) :=
  inferInstanceAs (Decidable (∀ task ∈ s.tasks, _))

/-- The condition on a step: a handler is stopped while no `reconnect` for it is
on the way to `Connect`, and a `startIfDisconnected` for a stopped handler finds
its peer connected. -/
def Halting (s : Service Peer Addr) : Action Peer Addr → Prop
  | .removePeer p => ∀ h ∈ s.peers.lookup p, NoneWaiting s h
  | .stopHandler h => NoneWaiting s h
  | .run (.startIfDisconnected h) _ =>
    h ∈ s.stopped → ∀ ph ∈ s.handlers[h]?, ph.peer ∈ s.conns
  | _ => True

instance (s : Service Peer Addr) : (a : Action Peer Addr) → Decidable (Halting s a)
  | .removePeer p => inferInstanceAs (Decidable (∀ h ∈ s.peers.lookup p, NoneWaiting s h))
  | .stopHandler h => inferInstanceAs (Decidable (NoneWaiting s h))
  | .run (.startIfDisconnected h) _ =>
    inferInstanceAs (Decidable (h ∈ s.stopped →
      ∀ ph ∈ s.handlers[h]?, ph.peer ∈ s.conns))
  | .run (.stopIfConnected _) _ | .run (.reconnect _ _) _ | .addPeer _ _ | .start
  | .stopNotify | .stopLock | .stopUnlock | .connect _ | .disconnect _ | .deliver _
  | .expire _ => inferInstanceAs (Decidable True)

/-- A stopped handler has no timer, and nothing on the way to `Connect`. -/
structure Halted (s : Service Peer Addr) : Prop where
  unset : ∀ h ∈ s.stopped, ∀ ph ∈ s.handlers[h]?, ph.reconnectTimer = none
  none_waiting : ∀ h ∈ s.stopped, NoneWaiting s h

variable {s t : Service Peer Addr} {h : Nat}

section

omit [DecidableEq Addr]

section

omit [DecidableEq Peer]

theorem halted_new (conns : List Peer) : Halted (newPeeringService conns : Service Peer Addr) :=
  ⟨fun _ hh => absurd hh not_mem_nil, fun _ hh => absurd hh not_mem_nil⟩

variable (hs : Halted s)
include hs

theorem Halted.mono (hstopped : t.stopped = s.stopped)
    (hhandlers : ∀ (k : Nat) (qh : Handler Peer Addr), k ∈ s.stopped → t.handlers[k]? = some qh →
      qh.reconnectTimer = none ∨ s.handlers[k]? = some qh)
    (htasks : ∀ task ∈ t.tasks, task ∈ s.tasks ∨ ∀ k ∈ s.stopped, task.waitsToDial k = false) :
    Halted t := by
  refine ⟨fun k hk qh hqh => ?_, fun k hk task htask => ?_⟩
  · rw [hstopped] at hk
    rcases hhandlers k qh hk hqh with hnone | hold
    · exact hnone
    · exact hs.unset k hk qh hold
  · rw [hstopped] at hk
    rcases htasks task htask with hold | hnew
    · exact hs.none_waiting k hk task hold
    · exact hnew k hk

theorem halted_update (f : Handler Peer Addr → Handler Peer Addr)
    (hf : h ∈ s.stopped → ∀ ph, s.handlers[h]? = some ph → ph.reconnectTimer = none →
      (f ph).reconnectTimer = none) :
    Halted (s.update h f) := by
  refine hs.mono rfl (fun k qh hk hqh => ?_) fun task htask => .inl htask
  obtain ⟨old, hold, rfl⟩ := handlers_update hqh
  by_cases hkh : k = h
  · subst hkh
    rw [if_pos rfl]
    exact .inl (hf hk old hold (hs.unset k hk old hold))
  · rw [if_neg hkh]
    exact .inr hold

theorem halted_stopHandler (hnone : NoneWaiting s h) : Halted (s.stopHandler h) := by
  have hup : Halted (s.update h Handler.stop) := halted_update hs _ fun _ _ _ _ => rfl
  refine ⟨fun k hk qh hqh => ?_, fun k hk => ?_⟩
  · rcases mem_cons.mp hk with rfl | hk
    · obtain ⟨old, _, rfl⟩ := handlers_update hqh
      rw [if_pos rfl]
      rfl
    · exact hup.unset k hk qh hqh
  · rcases mem_cons.mp hk with rfl | hk
    · exact hnone
    · exact hs.none_waiting k hk

theorem halted_spawn {task : Task Addr} (hnot : ∀ k ∈ s.stopped, task.waitsToDial k = false) :
    Halted (s.spawn task) := by
  refine hs.mono rfl (fun k qh _ hqh => .inr hqh) fun other hother => ?_
  rcases mem_cons.mp hother with rfl | hold
  · exact .inr hnot
  · exact .inl hold

theorem halted_start : Halted s.start := by
  unfold start
  split
  · refine hs.mono rfl (fun _ _ _ hqh => .inr hqh) fun task htask => ?_
    rcases mem_append.mp htask with hnew | hold
    · obtain ⟨e, _, rfl⟩ := mem_map.mp hnew
      exact .inr fun _ _ => rfl
    · exact .inl hold
  · exact hs
  · exact hs

end

theorem halted_addPeer (hs : Halted s) (p : Peer) (addrs : List Addr) :
    Halted (s.addPeer p addrs) := by
  have hreg : Halted (s.register p addrs) := by
    refine hs.mono rfl (fun k qh _ hqh => ?_) fun task htask => .inl htask
    by_cases hk : k < s.handlers.length
    · exact .inr ((getElem?_append_left hk).symm.trans hqh)
    · -- any other handler is the one that has just been made
      unfold register at hqh
      rw [getElem?_append_right (Nat.le_of_not_lt hk)] at hqh
      rw [mem_singleton.mp (mem_of_getElem? hqh)]
      exact .inl rfl
  unfold addPeer
  split
  · exact halted_update hs _ fun _ _ _ hnone => hnone
  · split
    · exact halted_spawn hreg fun _ _ => rfl
    · exact hreg

theorem halted_removePeer (hs : Halted s) (p : Peer)
    (hhalt : ∀ h ∈ s.peers.lookup p, NoneWaiting s h) : Halted (s.removePeer p) := by
  unfold removePeer
  split
  · rename_i h hlook
    exact (halted_stopHandler hs (hhalt h hlook)).mono rfl (fun _ _ _ hqh => .inr hqh)
      fun _ htask => .inl htask
  · exact hs

theorem halted_deliver (hs : Halted s) (e : Event Peer) :
    Halted (Service.notify { s with events := s.events.erase e } e) := by
  rw [notify_eq]
  refine hs.mono rfl (fun _ _ _ hqh => .inr hqh) fun task htask => ?_
  rcases mem_notify htask with hold | ⟨h, rfl | rfl⟩
  · exact .inl hold
  · exact .inr fun _ _ => rfl
  · exact .inr fun _ _ => rfl

end

/-- **A goroutine keeps the stopped handlers halted.** -/
theorem halted_run (hs : Halted s) {task : Task Addr} (hmem : task ∈ s.tasks)
    (o : Outcome) (hhalt : Halting s (.run task o)) :
    Halted (Service.body { s with tasks := s.tasks.erase task } o task) := by
  have hbase : Halted { s with tasks := s.tasks.erase task } :=
    hs.mono rfl (fun k qh _ hqh => .inr hqh) fun other hother =>
      .inl (mem_of_mem_erase hother)
  cases task with
  | startIfDisconnected h =>
    refine halted_update hbase _ fun hstop ph hph hnone => ?_
    have hconn := hhalt hstop ph hph
    unfold Handler.startIfDisconnected
    rw [if_neg fun hcond => hcond.2 hconn]
    exact hnone
  | stopIfConnected h =>
    refine halted_update hbase _ fun _ ph _ hnone => ?_
    unfold Handler.stopIfConnected
    rw [if_neg fun hcond => hcond.1 hnone]
    exact hnone
  | reconnect h phase =>
    cases phase with
    | entered =>
      refine halted_spawn hbase fun k hk => ?_
      simpa [Task.waitsToDial] using hs.none_waiting k hk _ hmem
    | loaded addrs => exact halted_spawn hbase fun _ _ => rfl
    | connecting addrs =>
      refine halted_spawn hbase fun _ _ => ?_
      cases o.connects <;> rfl
    | failed =>
      refine halted_spawn (halted_update hbase _ fun _ ph _ hnone => ?_) fun _ _ => rfl
      unfold Handler.extendTimeout
      rw [if_neg fun hset => hset hnone]
      exact hnone
    | finishing connected =>
      refine halted_update hbase _ fun _ ph _ hnone => ?_
      unfold Handler.stopIfConnected
      rw [if_neg fun hcond => hcond.1 hnone]
      exact hnone

/-- **Every step keeps the stopped handlers halted**, if it meets the condition. -/
theorem halted_step (s : Service Peer Addr) (a : Action Peer Addr) (t : Service Peer Addr)
    (hs : Halted s) (hhalt : Halting s a) (hstep : step s a = some t) : Halted t := by
  have hsame : ∀ {u : Service Peer Addr}, u.stopped = s.stopped →
      u.handlers = s.handlers → u.tasks = s.tasks → Halted u := by
    intro u hstopped hhandlers htasks
    exact hs.mono hstopped (fun _ _ _ hqh => .inr (hhandlers ▸ hqh))
      fun _ htask => .inl (htasks ▸ htask)
  cases transition_of_step hstep with
  | addPeer p addrs => exact halted_addPeer hs p addrs
  | removePeer p => exact halted_removePeer hs p hhalt
  | start => exact halted_start hs
  | stopNotify | stopUnlock | connect p | disconnect p => exact hsame rfl rfl rfl
  | stopLock =>
    unfold stopLock
    split <;> exact hsame rfl rfl rfl
  | stopHandler h =>
    exact (halted_stopHandler hs hhalt).mono rfl (fun _ _ _ hqh => .inr hqh)
      fun _ htask => .inl htask
  | deliver e => exact halted_deliver hs e
  | @expire h ph hph harmed =>
    -- an armed timer belongs to a handler that has not been stopped
    have hlive : h ∉ s.stopped := by
      intro hstop
      rw [hs.unset h hstop ph hph] at harmed
      cases harmed
    refine halted_spawn (halted_update hs _ fun hstop => absurd hstop hlive) ?_
    intro k hk
    have hne : h ≠ k := fun heq => hlive (heq ▸ hk)
    simp [Task.waitsToDial, hne]
  | run o hmem => exact halted_run hs hmem o hhalt

theorem stopped_subset_step {a : Action Peer Addr} (hstep : step s a = some t) :
    s.stopped ⊆ t.stopped := by
  cases transition_of_step hstep with
  | addPeer p addrs =>
    unfold addPeer
    split
    · exact List.Subset.refl _
    · split <;> exact List.Subset.refl _
  | removePeer p =>
    unfold removePeer
    split
    · exact subset_cons_self _ _
    · exact List.Subset.refl _
  | start =>
    unfold start
    split <;> exact List.Subset.refl _
  | stopLock =>
    unfold stopLock
    split <;> exact List.Subset.refl _
  | stopHandler h => exact subset_cons_self _ _
  | stopNotify | stopUnlock | connect p | disconnect p | expire => exact List.Subset.refl _
  | deliver e =>
    rw [notify_eq]
    exact List.Subset.refl _
  | run o =>
    rw [body_eq]
    exact List.Subset.refl _

theorem staysStopped_of_halted (s : Service Peer Addr) (a : Action Peer Addr)
    (hs : Halted s) (hhalt : Halting s a) : StaysStopped s a := by
  intro t ht h hh
  refine ⟨?_, ?_⟩
  · cases hdial : a.dials h with
    | false => rfl
    | true =>
      unfold Action.dials at hdial
      split at hdial
      · obtain ⟨hmem, _⟩ := guard_passed ht
        have hwait := hs.none_waiting h hh _ hmem
        rw [Task.waitsToDial, hdial] at hwait
        cases hwait
      · cases hdial
  · intro harmed
    obtain ⟨ph, hph, hset⟩ := harmed
    have hunset := (halted_step s a t hs hhalt ht).unset h (stopped_subset_step ht hh) ph hph
    rw [hset] at hunset
    cases hunset

/-- **`stop` is final in a halting run.**  If every handler is stopped while no
`reconnect` for it is on the way to `Connect`, and every `startIfDisconnected`
that runs for a stopped handler finds its peer connected, then no step of the run
arms the timer of a stopped handler or starts `Connect` for it. -/
theorem stop_is_final (conns : List Peer) (actions : List (Action Peer Addr))
    (hhalt : Along step Halting (newPeeringService conns) actions) :
    Along step StaysStopped (newPeeringService conns) actions :=
  Along.mono_of_invariant Halted halted_step staysStopped_of_halted
    (halted_new conns) hhalt

/-- Peer 0 is removed while it is connected, and peer 1 is stopped by `Stop`; the
goroutines that are left run afterwards. -/
def calmStop : List (Action Nat Nat) :=
  [.connect 0, .addPeer 0 [], .addPeer 1 [], .start,
    .run (.startIfDisconnected 1) ⟨true, 0, 0⟩, .removePeer 0,
    .run (.startIfDisconnected 0) ⟨true, 0, 0⟩, .stopNotify, .stopLock,
    .stopHandler 1, .stopUnlock]

/-- Both handlers of `calmStop` stay stopped. -/
theorem stop_is_final_calm :
    Along step Halting (newPeeringService []) calmStop ∧
      (run step (newPeeringService []) calmStop).any
        (fun s => s.stopped = [1, 0]) = true ∧
      Along step StaysStopped (newPeeringService []) calmStop := by
  have hhalt : Along step Halting (newPeeringService []) calmStop := by decide
  exact ⟨hhalt, by decide, stop_is_final [] calmStop hhalt⟩

end Peering
