import GoIpfs.StepRun

/-!
# The peering service

`PeeringService` keeps a connection to each registered peer.  A `peerHandler`
owns a reconnect timer; when it expires it runs `reconnect` in a goroutine of
its own, and the network notifications spawn `startIfDisconnected` and
`stopIfConnected`.

The system below interleaves all of them.  A goroutine is a `Task` that waits
to be run; its body is one step, since it holds the handler's lock, and
`reconnect` is cut at the places where it holds no lock.  A handler is a place
in the list of all handlers ever made, so a goroutine keeps its handler after
the peer has been removed.  The calls that take the service's lock are single
steps, except `Stop`, which calls `StopNotify` before it has the lock and then
stops one handler after the other.
-/

namespace Peering

open StepRun List Option

variable {Peer Addr : Type} [DecidableEq Peer]

inductive SvcState where
  | init
  | running
  | stopped
  deriving DecidableEq, Repr

/-- A `time.Timer` that has not been stopped. -/
inductive Timer where
  | armed
  | expired
  deriving DecidableEq, Repr

/-- A `peerHandler`; durations are in nanoseconds. -/
structure Handler (Peer Addr : Type) where
  peer : Peer
  addrs : List Addr
  cancelled : Bool
  reconnectTimer : Option Timer
  nextDelay : Nat
  deriving DecidableEq, Repr

def maxBackoff : Nat := 600 * 1000000000

def maxBackoffJitter : Nat := 10

def initialDelay : Nat := 5 * 1000000000

/-- The values that a goroutine does not choose: whether `Connect` succeeds, and
the two random numbers of `nextBackoff`. -/
structure Outcome where
  connects : Bool
  first : Nat
  second : Nat
  deriving DecidableEq, Repr

/-- `rand.Int63n`, for any raw random number. -/
def int63n (n raw : Nat) : Nat := raw % n

/-- `peerHandler.nextBackoff`: the new `nextDelay`, which is also returned. -/
def nextBackoff (nextDelay : Nat) (o : Outcome) : Nat :=
  let extended :=
    if nextDelay < maxBackoff then
      nextDelay + (nextDelay / 2 + int63n nextDelay o.first)
    else nextDelay
  if maxBackoff < extended then
    maxBackoff - int63n (maxBackoff * maxBackoffJitter / 100) o.second
  else extended

namespace Handler

/-- The handler that `AddPeer` makes. -/
def new (peer : Peer) (addrs : List Addr) (cancelled : Bool) : Handler Peer Addr :=
  ⟨peer, addrs, cancelled, none, initialDelay⟩

/-- `setAddrs`. -/
def setAddrs (addrs : List Addr) (ph : Handler Peer Addr) : Handler Peer Addr :=
  { ph with addrs := addrs }

/-- `stop`. -/
def stop (ph : Handler Peer Addr) : Handler Peer Addr :=
  { ph with cancelled := true, reconnectTimer := none }

/-- The timer expires; the field keeps pointing to it. -/
def expire (ph : Handler Peer Addr) : Handler Peer Addr :=
  { ph with reconnectTimer := some .expired }

/-- The critical section of `reconnect` after a failed `Connect`. -/
def extendTimeout (o : Outcome) (ph : Handler Peer Addr) : Handler Peer Addr :=
  if ph.reconnectTimer ≠ none then
    { ph with reconnectTimer := some .armed, nextDelay := nextBackoff ph.nextDelay o }
  else ph

/-- `stopIfConnected`. -/
def stopIfConnected (conns : List Peer) (ph : Handler Peer Addr) : Handler Peer Addr :=
  if ph.reconnectTimer ≠ none ∧ ph.peer ∈ conns then
    { ph with reconnectTimer := none, nextDelay := initialDelay }
  else ph

/-- `startIfDisconnected`. -/
def startIfDisconnected (conns : List Peer) (o : Outcome) (ph : Handler Peer Addr) :
    Handler Peer Addr :=
  if ph.reconnectTimer = none ∧ ph.peer ∉ conns then
    { ph with reconnectTimer := some .armed, nextDelay := nextBackoff ph.nextDelay o }
  else ph

end Handler

/-- Where a run of `reconnect` stands. -/
inductive Phase (Addr : Type) where
  | entered
  | loaded (addrs : List Addr)
  | connecting (addrs : List Addr)
  /-- `Connect` has failed; the lock for the longer timeout is not yet taken. -/
  | failed
  /-- Before the last `stopIfConnected`. -/
  | finishing (connected : Bool)
  deriving DecidableEq, Repr

/-- A goroutine that has not ended. -/
inductive Task (Addr : Type) where
  | startIfDisconnected (h : Nat)
  | stopIfConnected (h : Nat)
  | reconnect (h : Nat) (phase : Phase Addr)
  deriving DecidableEq, Repr

/-- A network notification that has not been delivered. -/
inductive Event (Peer : Type) where
  | connected (p : Peer)
  | disconnected (p : Peer)
  deriving DecidableEq, Repr

/-- `PeeringService`, with the tasks that are under way. -/
structure Service (Peer Addr : Type) where
  /-- All handlers ever made; goroutines refer to them by their place. -/
  handlers : List (Handler Peer Addr)
  peers : List (Peer × Nat)
  state : SvcState
  /-- The notifee is registered with the network. -/
  notified : Bool
  /-- The open connections of the network, by remote peer. -/
  conns : List Peer
  events : List (Event Peer)
  tasks : List (Task Addr)
  /-- The calls of `Stop` that wait for the service's lock. -/
  stops : Nat
  /-- The handlers that the `Stop` holding the lock has still to stop. -/
  stopping : Option (List Nat)
  /-- The handlers whose `stop` has returned. -/
  stopped : List Nat
  deriving DecidableEq, Repr

/-- `NewPeeringService`, on a host that may have connections already. -/
def newPeeringService (conns : List Peer) : Service Peer Addr :=
  ⟨[], [], .init, false, conns, [], [], 0, none, []⟩

namespace Service

/-- A method of a handler. -/
def update (s : Service Peer Addr) (h : Nat)
    (f : Handler Peer Addr → Handler Peer Addr) : Service Peer Addr :=
  { s with handlers := s.handlers.modify h f }

def spawn (s : Service Peer Addr) (task : Task Addr) : Service Peer Addr :=
  { s with tasks := task :: s.tasks }

/-- The handler's `stop` returns. -/
def stopHandler (s : Service Peer Addr) (h : Nat) : Service Peer Addr :=
  { s.update h Handler.stop with stopped := h :: s.stopped }

/-- `AddPeer` makes a handler; on a stopped service its context is cancelled. -/
def register (s : Service Peer Addr) (p : Peer) (addrs : List Addr) : Service Peer Addr :=
  { s with
    handlers := s.handlers ++ [Handler.new p addrs (s.state = .stopped)]
    peers := (p, s.handlers.length) :: s.peers }

/-- `PeeringService.AddPeer`. -/
def addPeer (s : Service Peer Addr) (p : Peer) (addrs : List Addr) : Service Peer Addr :=
  match s.peers.lookup p with
  | some h => s.update h (Handler.setAddrs addrs)
  | none =>
    if s.state = .running then
      (s.register p addrs).spawn (.startIfDisconnected s.handlers.length)
    else s.register p addrs

/-- `PeeringService.RemovePeer`. -/
def removePeer (s : Service Peer Addr) (p : Peer) : Service Peer Addr :=
  match s.peers.lookup p with
  | some h => { s.stopHandler h with peers := s.peers.filter (·.1 ≠ p) }
  | none => s

/-- `PeeringService.Start`; on a stopped service it only returns an error. -/
def start (s : Service Peer Addr) : Service Peer Addr :=
  match s.state with
  | .init => { s with
      notified := true
      state := .running
      tasks := s.peers.map (fun e => .startIfDisconnected e.2) ++ s.tasks }
  | .running | .stopped => s

/-- `Stop` gets the lock. -/
def stopLock (s : Service Peer Addr) : Service Peer Addr :=
  match s.state with
  | .init | .running => { s with
      stops := s.stops - 1
      stopping := some (s.peers.map Prod.snd) }
  | .stopped => { s with stops := s.stops - 1 }

/-- `netNotifee.Connected` and `netNotifee.Disconnected`, if the notifee is
registered. -/
def notify (s : Service Peer Addr) (e : Event Peer) : Service Peer Addr :=
  if s.notified then
    match e with
    | .connected p =>
      match s.peers.lookup p with
      | some h => s.spawn (.stopIfConnected h)
      | none => s
    | .disconnected p =>
      match s.peers.lookup p with
      | some h => s.spawn (.startIfDisconnected h)
      | none => s
  else s

/-- The next section of a goroutine. -/
def body (s : Service Peer Addr) (o : Outcome) : Task Addr → Service Peer Addr
  | .startIfDisconnected h => s.update h (Handler.startIfDisconnected s.conns o)
  | .stopIfConnected h => s.update h (Handler.stopIfConnected s.conns)
  | .reconnect h .entered =>
    s.spawn (.reconnect h (.loaded ((s.handlers[h]?.map Handler.addrs).getD [])))
  | .reconnect h (.loaded addrs) => s.spawn (.reconnect h (.connecting addrs))
  | .reconnect h (.connecting _) =>
    s.spawn (.reconnect h (if o.connects then .finishing true else .failed))
  | .reconnect h .failed =>
    (s.update h (Handler.extendTimeout o)).spawn (.reconnect h (.finishing false))
  | .reconnect h (.finishing _) => s.update h (Handler.stopIfConnected s.conns)

end Service

inductive Action (Peer Addr : Type) where
  | addPeer (p : Peer) (addrs : List Addr)
  | removePeer (p : Peer)
  | start
  /-- `Stop` is called and has called `StopNotify`. -/
  | stopNotify
  | stopLock
  | stopHandler (h : Nat)
  | stopUnlock
  | connect (p : Peer)
  | disconnect (p : Peer)
  | deliver (e : Event Peer)
  | expire (h : Nat)
  | run (task : Task Addr) (o : Outcome)
  deriving DecidableEq, Repr

/-- One step of the service, of the network or of a goroutine. -/
def step [DecidableEq Addr] (s : Service Peer Addr) :
    Action Peer Addr → Option (Service Peer Addr)
  | .addPeer p addrs => if s.stopping = none then some (s.addPeer p addrs) else none
  | .removePeer p => if s.stopping = none then some (s.removePeer p) else none
  | .start => if s.stopping = none then some s.start else none
  | .stopNotify => some { s with notified := false, stops := s.stops + 1 }
  | .stopLock => if s.stopping = none ∧ 0 < s.stops then some s.stopLock else none
  | .stopHandler h =>
    match s.stopping with
    | some rest =>
      if h ∈ rest then
        some { s.stopHandler h with stopping := some (rest.erase h) }
      else none
    | none => none
  | .stopUnlock =>
    if s.stopping = some [] then some { s with state := .stopped, stopping := none }
    else none
  | .connect p => some { s with
      conns := p :: s.conns
      events := .connected p :: s.events }
  | .disconnect p =>
    if p ∈ s.conns then
      some { s with
        conns := s.conns.erase p
        events := .disconnected p :: s.events }
    else none
  | .deliver e =>
    if s.stopping = none ∧ e ∈ s.events then
      some (Service.notify { s with events := s.events.erase e } e)
    else none
  | .expire h =>
    match s.handlers[h]? with
    | some ph =>
      if ph.reconnectTimer = some .armed then
        some ((s.update h Handler.expire).spawn (.reconnect h .entered))
      else none
    | none => none
  | .run task o =>
    if task ∈ s.tasks then
      some (Service.body { s with tasks := s.tasks.erase task } o task)
    else none

/-- What a step can do. -/
inductive Transition [DecidableEq Addr] (s : Service Peer Addr) :
    Action Peer Addr → Service Peer Addr → Prop where
  | addPeer (p : Peer) (addrs : List Addr) : Transition s (.addPeer p addrs) (s.addPeer p addrs)
  | removePeer (p : Peer) : Transition s (.removePeer p) (s.removePeer p)
  | start : Transition s .start s.start
  | stopNotify : Transition s .stopNotify { s with notified := false, stops := s.stops + 1 }
  | stopLock : Transition s .stopLock s.stopLock
  | stopHandler (h : Nat) (rest : List Nat) :
    Transition s (.stopHandler h) { s.stopHandler h with stopping := some rest }
  | stopUnlock : Transition s .stopUnlock { s with state := .stopped, stopping := none }
  | connect (p : Peer) : Transition s (.connect p)
      { s with conns := p :: s.conns, events := .connected p :: s.events }
  | disconnect (p : Peer) : Transition s (.disconnect p)
      { s with conns := s.conns.erase p, events := .disconnected p :: s.events }
  | deliver (e : Event Peer) :
    Transition s (.deliver e) (Service.notify { s with events := s.events.erase e } e)
  | expire {h : Nat} {ph : Handler Peer Addr} (hph : s.handlers[h]? = some ph)
      (harmed : ph.reconnectTimer = some .armed) :
    Transition s (.expire h) ((s.update h Handler.expire).spawn (.reconnect h .entered))
  | run {task : Task Addr} (o : Outcome) (hmem : task ∈ s.tasks) :
    Transition s (.run task o) (Service.body { s with tasks := s.tasks.erase task } o task)

/-- **Inversion.** Every step is one of the transitions. -/
theorem transition_of_step [DecidableEq Addr] {s t : Service Peer Addr} {a : Action Peer Addr}
    (hstep : step s a = some t) : Transition s a t := by
  cases a with
  | addPeer p addrs | removePeer p | start | stopLock | stopUnlock | disconnect p | deliver e =>
    obtain ⟨_, rfl⟩ := guard_passed hstep
    constructor
  | stopNotify | connect p =>
    obtain rfl := some.inj hstep
    constructor
  | stopHandler h | expire h =>
    unfold step at hstep
    dsimp only at hstep
    split at hstep
    · obtain ⟨_, rfl⟩ := guard_passed hstep
      constructor <;> assumption
    · cases hstep
  | run task o =>
    obtain ⟨hmem, rfl⟩ := guard_passed hstep
    exact .run o hmem

def Task.handler : Task Addr → Nat
  | .startIfDisconnected h | .stopIfConnected h | .reconnect h _ => h

namespace Service

variable {s : Service Peer Addr} {h k : Nat} {ph : Handler Peer Addr}
  {f : Handler Peer Addr → Handler Peer Addr}

section

omit [DecidableEq Peer]

theorem handlers_update_self (hk : s.handlers[h]? = some ph) :
    (s.update h f).handlers[h]? = some (f ph) := by
  simp [update, hk]

theorem handlers_update_ne (hne : k ≠ h) : (s.update h f).handlers[k]? = s.handlers[k]? := by
  have hne' : ¬ h = k := fun heq => hne heq.symm
  simp [update, hne']

/-- The handlers after a method of one of them. -/
theorem handlers_update (hk : (s.update h f).handlers[k]? = some ph) :
    ∃ old, s.handlers[k]? = some old ∧ ph = if k = h then f old else old := by
  by_cases hkh : k = h
  · subst hkh
    cases hold : s.handlers[k]? with
    | none => simp [update, hold] at hk
    | some old =>
      rw [handlers_update_self hold] at hk
      exact ⟨old, rfl, by rw [if_pos rfl]; exact (some.inj hk).symm⟩
  · rw [handlers_update_ne hkh] at hk
    exact ⟨ph, hk, by rw [if_neg hkh]⟩

end

theorem notify_eq (s : Service Peer Addr) (e : Event Peer) :
    s.notify e = { s with tasks := (s.notify e).tasks } := by
  unfold notify
  split
  · cases e <;> dsimp only <;> split <;> rfl
  · rfl

/-- A notification adds no other tasks than these. -/
theorem mem_notify {e : Event Peer} {task : Task Addr} (hmem : task ∈ (s.notify e).tasks) :
    task ∈ s.tasks ∨ ∃ h, task = .startIfDisconnected h ∨ task = .stopIfConnected h := by
  unfold notify at hmem
  split at hmem
  · cases e with
    | connected p =>
      dsimp only at hmem
      split at hmem
      · rename_i h _
        rcases mem_cons.mp hmem with heq | hold
        · exact .inr ⟨h, .inr heq⟩
        · exact .inl hold
      · exact .inl hmem
    | disconnected p =>
      dsimp only at hmem
      split at hmem
      · rename_i h _
        rcases mem_cons.mp hmem with heq | hold
        · exact .inr ⟨h, .inl heq⟩
        · exact .inl hold
      · exact .inl hmem
  · exact .inl hmem

theorem tasks_subset_notify (s : Service Peer Addr) (e : Event Peer) :
    s.tasks ⊆ (s.notify e).tasks := by
  intro task htask
  unfold notify
  split
  · cases e <;> dsimp only <;> split
    all_goals first
      | exact mem_cons_of_mem _ htask
      | exact htask
  · exact htask

/-- A registered peer that is lost gets a task. -/
theorem notify_disconnected {p : Peer} (hnot : s.notified = true)
    (hlook : s.peers.lookup p = some h) :
    .startIfDisconnected h ∈ (s.notify (.disconnected p)).tasks := by
  unfold notify
  rw [if_pos hnot]
  simp only [hlook]
  exact mem_cons_self

theorem body_eq (s : Service Peer Addr) (o : Outcome) (task : Task Addr) :
    s.body o task =
      { s with handlers := (s.body o task).handlers, tasks := (s.body o task).tasks } := by
  cases task with
  | startIfDisconnected h | stopIfConnected h => rfl
  | reconnect h phase => cases phase <;> rfl

theorem tasks_subset_body (s : Service Peer Addr) (o : Outcome) (task : Task Addr) :
    s.tasks ⊆ (s.body o task).tasks := by
  intro other hother
  cases task with
  | startIfDisconnected h | stopIfConnected h => exact hother
  | reconnect h phase =>
    cases phase with
    | finishing connected => exact hother
    | entered | loaded addrs | connecting addrs | failed => exact mem_cons_of_mem _ hother

/-- A task leaves the other handlers alone. -/
theorem handlers_body_ne (o : Outcome) {task : Task Addr} (hne : k ≠ task.handler) :
    (s.body o task).handlers[k]? = s.handlers[k]? := by
  cases task with
  | startIfDisconnected h | stopIfConnected h => exact handlers_update_ne hne
  | reconnect h phase =>
    cases phase with
    | finishing connected | failed => exact handlers_update_ne hne
    | entered | loaded addrs | connecting addrs => rfl

/-- A handler keeps its peer. -/
theorem peer_body (o : Outcome) (task : Task Addr) (hk : s.handlers[k]? = some ph) :
    ∃ ph', (s.body o task).handlers[k]? = some ph' ∧ ph'.peer = ph.peer := by
  by_cases hne : k = task.handler
  · subst hne
    cases task with
    | startIfDisconnected h =>
      refine ⟨_, handlers_update_self hk, ?_⟩
      unfold Handler.startIfDisconnected
      split <;> rfl
    | stopIfConnected h =>
      refine ⟨_, handlers_update_self hk, ?_⟩
      unfold Handler.stopIfConnected
      split <;> rfl
    | reconnect h phase =>
      cases phase with
      | finishing connected =>
        refine ⟨_, handlers_update_self hk, ?_⟩
        unfold Handler.stopIfConnected
        split <;> rfl
      | failed =>
        refine ⟨_, handlers_update_self hk, ?_⟩
        unfold Handler.extendTimeout
        split <;> rfl
      | entered | loaded addrs | connecting addrs => exact ⟨ph, hk, rfl⟩
  · exact ⟨ph, (handlers_body_ne o hne).trans hk, rfl⟩

end Service

end Peering
