import GoIpfs.Peering

/-!
# Reconnecting to every registered peer

A registered peer without a connection needs a timer that will fire.  The
invariant `Inv` says what keeps it so in a running service: a handler without a
timer has its peer connected, or somebody on the way to start it; a handler
whose timer has expired has a run of `reconnect` on the way.

The last step of `reconnect` is where this can break.  After a successful
`Connect` it leaves the expired timer in its field and relies on the connection
being there; if it has been lost in between, nobody is left who would start the
handler again.  `Attended` names the condition under which that does not happen.
-/

namespace Peering

open StepRun List Option Service Handler

variable {Peer Addr : Type} [DecidableEq Peer] [DecidableEq Addr]

/-- No goroutine, notification, reconnect callback or call of `Stop` is pending. -/
def Quiet (s : Service Peer Addr) : Prop :=
  s.tasks = [] ∧ s.events = [] ∧ s.stops = 0 ∧ s.stopping = none

instance (s : Service Peer Addr) : Decidable (Quiet s) :=
  inferInstanceAs (Decidable (_ ∧ _ ∧ _ ∧ _))

def Service.timerOf (s : Service Peer Addr) (p : Peer) : Option Timer :=
  ((s.peers.lookup p).bind fun h => s.handlers[h]?).bind Handler.reconnectTimer

/-- In a quiet running service, every registered peer that is not connected has
an armed timer. -/
def NoLostReconnect (s : Service Peer Addr) : Prop :=
  s.state = .running → Quiet s → ∀ e ∈ s.peers, e.1 ∉ s.conns →
    s.timerOf e.1 = some .armed

def calm : Outcome := ⟨true, 0, 0⟩

/-- Peer 0 is added, the timer expires and `Connect` succeeds.  The connection
is lost before the last `stopIfConnected` of `reconnect`, and before the
goroutine that its notification has spawned. -/
def lostConnection : List (Action Nat Nat) :=
  [.addPeer 0 [], .start,
    .run (.startIfDisconnected 0) calm, .expire 0,
    .run (.reconnect 0 .entered) calm, .run (.reconnect 0 (.loaded [])) calm,
    .connect 0, .deliver (.connected 0), .run (.reconnect 0 (.connecting [])) calm,
    .disconnect 0, .deliver (.disconnected 0),
    .run (.stopIfConnected 0) calm, .run (.startIfDisconnected 0) calm,
    .run (.reconnect 0 (.finishing true)) calm]

/-- **A reconnect can be lost.**  At the end nothing is pending, peer 0 is
registered and not connected, and its timer has expired for good. -/
theorem lostConnection_not_armed :
    ∃ s, run step (newPeeringService []) lostConnection = some s ∧
      ¬ NoLostReconnect s := by
  have hany : (run step (newPeeringService []) lostConnection).any (fun s =>
      decide (s.state = .running ∧ Quiet s ∧ (0, 0) ∈ s.peers ∧ 0 ∉ s.conns ∧
        s.timerOf 0 = some .expired)) = true := by decide
  obtain ⟨s, hs, hp⟩ := exists_run_of_any hany
  obtain ⟨hrunning, hquiet, hpeer, hconn, htimer⟩ := of_decide_eq_true hp
  refine ⟨s, hs, fun h => ?_⟩
  have harmed := h hrunning hquiet (0, 0) hpeer hconn
  rw [htimer] at harmed
  cases harmed

/-- A run of `reconnect` that will still set the timer or see a connection. -/
def Phase.attends : Phase Addr → Bool
  | .finishing connected => connected
  | _ => true

/-- The goroutine attends to the handler's expired timer. -/
def Task.attendsTo (h : Nat) : Task Addr → Bool
  | .reconnect k phase => k = h && phase.attends
  | _ => false

/-- A run of `reconnect` attends to the handler's expired timer. -/
def Retrying (tasks : List (Task Addr)) (h : Nat) : Prop :=
  ∃ task ∈ tasks, task.attendsTo h = true

instance (tasks : List (Task Addr)) (h : Nat) : Decidable (Retrying tasks h) :=
  inferInstanceAs (Decidable (∃ task ∈ tasks, _))

/-- The condition on a step: when the last `stopIfConnected` of a `reconnect`
whose `Connect` has succeeded is run, the peer is connected, or the timer is not
an expired one, or another run of `reconnect` is on the way. -/
def Attended (s : Service Peer Addr) : Action Peer Addr → Prop
  | .run (.reconnect h (.finishing true)) _ =>
    ∀ ph ∈ s.handlers[h]?, ph.peer ∈ s.conns ∨ ph.reconnectTimer ≠ some .expired ∨
      Retrying (s.tasks.erase (.reconnect h (.finishing true))) h
  | _ => True

instance (s : Service Peer Addr) (a : Action Peer Addr) : Decidable (Attended s a) := by
  unfold Attended
  split <;> infer_instance

/-- What keeps a registered handler going. -/
structure Kept (conns : List Peer) (events : List (Event Peer)) (tasks : List (Task Addr))
    (p : Peer) (h : Nat) (timer : Option Timer) : Prop where
  unset : timer = none →
    p ∈ conns ∨ .startIfDisconnected h ∈ tasks ∨ .disconnected p ∈ events
  expired : timer = some .expired → Retrying tasks h

/-- A running service that nobody is stopping is registered with the network
and keeps all its handlers going. -/
def Serving (s : Service Peer Addr) : Prop :=
  s.state = .running → s.stops = 0 → s.stopping = none →
    s.notified = true ∧ ∀ p h ph, s.peers.lookup p = some h →
      s.handlers[h]? = some ph →
      Kept s.conns s.events s.tasks p h ph.reconnectTimer

/-- The registered handlers exist and are for the peers they are registered
for. -/
def Owned (s : Service Peer Addr) : Prop :=
  ∀ p h, s.peers.lookup p = some h → ∃ ph, s.handlers[h]? = some ph ∧ ph.peer = p

/-- Before `Start` there are no goroutines and no timers. -/
def Fresh (s : Service Peer Addr) : Prop :=
  s.state = .init → s.notified = false ∧ s.tasks = [] ∧
    ∀ ph ∈ s.handlers, ph.reconnectTimer = none

structure Inv (s : Service Peer Addr) : Prop where
  owned : Owned s
  fresh : Fresh s
  serving : Serving s

variable {task : Task Addr} {q : Peer} {k : Nat}

section Kept

omit [DecidableEq Peer] [DecidableEq Addr]

variable {s t : Service Peer Addr} {p : Peer} {h : Nat} {ph : Handler Peer Addr}

theorem Retrying.mono {tasks tasks' : List (Task Addr)} (hsub : tasks ⊆ tasks')
    (hr : Retrying tasks h) : Retrying tasks' h := by
  obtain ⟨task, hmem, hatt⟩ := hr
  exact ⟨task, hsub hmem, hatt⟩

variable {conns conns' : List Peer} {events events' : List (Event Peer)}
  {tasks tasks' : List (Task Addr)} {timer : Option Timer}

theorem Kept.mono (hk : Kept conns events tasks p h timer)
    (hconns : p ∈ conns → p ∈ conns') (hevents : events ⊆ events')
    (htasks : tasks ⊆ tasks') : Kept conns' events' tasks' p h timer where
  unset hnone := by
    rcases hk.unset hnone with hc | ht | he
    · exact .inl (hconns hc)
    · exact .inr (.inl (htasks ht))
    · exact .inr (.inr (hevents he))
  expired hexp := (hk.expired hexp).mono htasks

theorem Kept.mono_tasks (hk : Kept conns events tasks p h timer) (htasks : tasks ⊆ tasks') :
    Kept conns events tasks' p h timer :=
  hk.mono id (List.Subset.refl _) htasks

theorem kept_of_armed : Kept conns events tasks p h (some .armed) where
  unset hnone := by cases hnone
  expired hexp := by cases hexp

theorem peer_update (f : Handler Peer Addr → Handler Peer Addr)
    (hf : ∀ qh, (f qh).peer = qh.peer) (h k : Nat) (qh : Handler Peer Addr)
    (hqh : s.handlers[k]? = some qh) :
    ∃ qh', (s.update h f).handlers[k]? = some qh' ∧ qh'.peer = qh.peer := by
  by_cases hkh : k = h
  · subst hkh
    exact ⟨f qh, handlers_update_self hqh, hf qh⟩
  · exact ⟨qh, (handlers_update_ne hkh).trans hqh, rfl⟩

theorem fresh_update (hfresh : Fresh s) (h : Nat) (f : Handler Peer Addr → Handler Peer Addr)
    (hf : ∀ ph, ph.reconnectTimer = none → (f ph).reconnectTimer = none) :
    Fresh (s.update h f) := by
  intro hinit
  obtain ⟨hnot, htasks, hnone⟩ := hfresh hinit
  refine ⟨hnot, htasks, fun ph hph => ?_⟩
  obtain ⟨k, hk⟩ := mem_iff_getElem?.mp hph
  obtain ⟨old, hold, rfl⟩ := handlers_update hk
  have hunset := hnone old (mem_of_getElem? hold)
  split
  · exact hf old hunset
  · exact hunset

end Kept

variable {peers : List (Peer × Nat)}

theorem lookup_filter_ne {p : Peer} (hlook : (peers.filter (·.1 ≠ p)).lookup q = some k) :
    q ≠ p ∧ peers.lookup q = some k := by
  induction peers with
  | nil => cases hlook
  | cons e rest ih =>
    obtain ⟨r, i⟩ := e
    by_cases hrp : r = p
    · have hrest : (rest.filter (·.1 ≠ p)).lookup q = some k := by
        simpa [hrp] using hlook
      obtain ⟨hne, hold⟩ := ih hrest
      have hqr : (q == r) = false := by simpa [hrp] using hne
      exact ⟨hne, by simp [lookup_cons, hqr, hold]⟩
    · have hcons : ((r, i) :: rest.filter (·.1 ≠ p)).lookup q = some k := by
        simpa [hrp] using hlook
      by_cases hqr : q = r
      · subst hqr
        exact ⟨hrp, by simpa [lookup_cons] using hcons⟩
      · have hbeq : (q == r) = false := by simpa using hqr
        obtain ⟨hne, hold⟩ := ih (by simpa [lookup_cons, hbeq] using hcons)
        exact ⟨hne, by simp [lookup_cons, hbeq, hold]⟩

theorem mem_of_lookup {p : Peer} {h : Nat} (hlook : peers.lookup p = some h) : (p, h) ∈ peers := by
  obtain ⟨before, after, heq, _⟩ := lookup_eq_some_iff.mp hlook
  rw [heq]
  exact mem_append_right _ mem_cons_self

theorem exists_lookup {e : Peer × Nat} (he : e ∈ peers) : ∃ h, peers.lookup e.1 = some h :=
  isSome_iff_exists.mp (lookup_isSome_iff.mpr ⟨e, he, beq_self_eq_true _⟩)

section Steps

variable {s t : Service Peer Addr} {p : Peer} {h : Nat} {ph : Handler Peer Addr}

section

omit [DecidableEq Addr]

theorem inv_new (conns : List Peer) :
    Inv (newPeeringService conns : Service Peer Addr) where
  owned := by
    intro p h hlook
    cases hlook
  fresh _ := ⟨rfl, rfl, fun ph hph => absurd hph not_mem_nil⟩
  serving hstate := by cases hstate

theorem Owned.handler_ne (hown : Owned s) (hp : s.peers.lookup p = some h)
    (hq : s.peers.lookup q = some k) (hne : q ≠ p) : k ≠ h := by
  intro heq
  subst heq
  obtain ⟨ph, hph, hpeer⟩ := hown p k hp
  obtain ⟨qh, hqh, hqeer⟩ := hown q k hq
  rw [hph] at hqh
  cases hqh
  exact hne (hqeer.symm.trans hpeer)

theorem Owned.mono (hown : Owned s)
    (hpeers : ∀ q k, t.peers.lookup q = some k → s.peers.lookup q = some k)
    (hhandlers : ∀ (k : Nat) (qh : Handler Peer Addr), s.handlers[k]? = some qh →
      ∃ qh', t.handlers[k]? = some qh' ∧ qh'.peer = qh.peer) : Owned t := by
  intro q k hlook
  obtain ⟨qh, hqh, hpeer⟩ := hown q k (hpeers q k hlook)
  obtain ⟨qh', hqh', hpeer'⟩ := hhandlers k qh hqh
  exact ⟨qh', hqh', hpeer'.trans hpeer⟩

theorem inv_setAddrs (hinv : Inv s) (h : Nat) (addrs : List Addr) :
    Inv (s.update h (Handler.setAddrs addrs)) where
  owned := hinv.owned.mono (fun _ _ hq => hq) fun k qh hqh =>
    peer_update (Handler.setAddrs addrs) (fun _ => rfl) h k qh hqh
  fresh := fresh_update hinv.fresh h _ fun _ hnone => hnone
  serving hrun hstops hfree := by
    obtain ⟨hnot, hkept⟩ := hinv.serving hrun hstops hfree
    refine ⟨hnot, fun q k qh hlook hqh => ?_⟩
    obtain ⟨old, hold, rfl⟩ := handlers_update hqh
    have hold' := hkept q k old hlook hold
    split
    · exact hold'
    · exact hold'

theorem owned_register (hown : Owned s) (p : Peer) (addrs : List Addr) :
    Owned (s.register p addrs) := by
  intro q k hlook
  unfold register at hlook ⊢
  rw [lookup_cons] at hlook
  cases hqp : q == p with
  | true =>
    obtain rfl : s.handlers.length = k := by simpa [hqp] using hlook
    exact ⟨_, getElem?_concat_length, (eq_of_beq hqp).symm⟩
  | false =>
    obtain ⟨qh, hqh, hpeer⟩ := hown q k (by simpa [hqp] using hlook)
    refine ⟨qh, ?_, hpeer⟩
    rw [List.getElem?_append_left (List.getElem?_eq_some_iff.mp hqh).1]
    exact hqh

theorem register_cases (hown : Owned s) {addrs : List Addr} {qh : Handler Peer Addr}
    (hlook : (s.register p addrs).peers.lookup q = some k)
    (hqh : (s.register p addrs).handlers[k]? = some qh) :
    (k = s.handlers.length ∧ qh = Handler.new p addrs (s.state = .stopped)) ∨
      (s.peers.lookup q = some k ∧ s.handlers[k]? = some qh) := by
  unfold register at hlook hqh
  rw [lookup_cons] at hlook
  cases hqp : q == p with
  | true =>
    obtain rfl : s.handlers.length = k := by simpa [hqp] using hlook
    exact .inl ⟨rfl, some.inj (hqh.symm.trans getElem?_concat_length)⟩
  | false =>
    have hold : s.peers.lookup q = some k := by simpa [hqp] using hlook
    obtain ⟨old, hk, _⟩ := hown q k hold
    rw [List.getElem?_append_left (List.getElem?_eq_some_iff.mp hk).1] at hqh
    exact .inr ⟨hold, hqh⟩

theorem inv_addPeer (hinv : Inv s) (p : Peer) (addrs : List Addr) : Inv (s.addPeer p addrs) := by
  unfold addPeer
  cases hp : s.peers.lookup p with
  | some h => exact inv_setAddrs hinv h addrs
  | none =>
    dsimp only
    split
    · rename_i hrunning
      refine ⟨owned_register hinv.owned p addrs, ?_, ?_⟩
      · intro hinit
        exact absurd (hrunning.symm.trans hinit) (by decide)
      intro _ hstops hfree
      obtain ⟨hnot, hkept⟩ := hinv.serving hrunning hstops hfree
      refine ⟨hnot, fun q k qh hlook hqh => ?_⟩
      rcases register_cases hinv.owned hlook hqh with ⟨rfl, rfl⟩ | ⟨hold, hqh⟩
      · exact ⟨fun _ => .inr (.inl mem_cons_self), nofun⟩
      · exact (hkept q k qh hold hqh).mono_tasks (subset_cons_self _ _)
    · rename_i hrunning
      refine ⟨owned_register hinv.owned p addrs, ?_, fun hrun => absurd hrun hrunning⟩
      intro hinit
      obtain ⟨hnot, htasks, hnone⟩ := hinv.fresh hinit
      refine ⟨hnot, htasks, fun ph hph => ?_⟩
      rcases mem_append.mp hph with hph | hph
      · exact hnone ph hph
      · rw [mem_singleton.mp hph]
        rfl

theorem inv_removePeer (hinv : Inv s) (p : Peer) : Inv (s.removePeer p) := by
  unfold removePeer
  cases hp : s.peers.lookup p with
  | none => exact hinv
  | some h =>
    refine ⟨hinv.owned.mono (fun q k hq => (lookup_filter_ne hq).2) fun k qh hqh =>
      peer_update stop (fun _ => rfl) h k qh hqh, ?_, ?_⟩
    · exact fresh_update hinv.fresh h stop fun _ _ => rfl
    intro hrun hstops hfree
    obtain ⟨hnot, hkept⟩ := hinv.serving hrun hstops hfree
    refine ⟨hnot, fun q k qh hlook hqh => ?_⟩
    obtain ⟨hne, hold⟩ := lookup_filter_ne hlook
    have hkh : k ≠ h := hinv.owned.handler_ne hp hold hne
    have hqh' : s.handlers[k]? = some qh :=
      (handlers_update_ne hkh).symm.trans hqh
    exact hkept q k qh hold hqh'

theorem inv_start (hinv : Inv s) : Inv s.start := by
  unfold start
  cases hstate : s.state with
  | running | stopped => exact hinv
  | init =>
    refine ⟨hinv.owned, nofun, fun _ _ _ => ⟨rfl, ?_⟩⟩
    intro q k qh hlook hqh
    have hnone := (hinv.fresh hstate).2.2 qh (mem_of_getElem? hqh)
    refine ⟨fun _ => .inr (.inl ?_), fun hexp => ?_⟩
    · exact mem_append_left _ (mem_map.mpr ⟨(q, k), mem_of_lookup hlook, rfl⟩)
    · rw [hnone] at hexp
      cases hexp

theorem inv_of_stopping (hown : Owned t) (hfresh : Fresh t)
    (hstop : t.state = .stopped ∨ t.stops ≠ 0 ∨ t.stopping ≠ none) : Inv t := by
  refine ⟨hown, hfresh, fun hrun hstops hfree => ?_⟩
  rcases hstop with h | h | h
  · exact absurd (hrun.symm.trans h) (by decide)
  · exact absurd hstops h
  · exact absurd hfree h

theorem inv_deliver (hinv : Inv s) (e : Event Peer) :
    Inv (Service.notify { s with events := s.events.erase e } e) := by
  rw [notify_eq]
  refine ⟨hinv.owned, ?_, ?_⟩
  · intro hinit
    obtain ⟨hnot, htasks, hnone⟩ := hinv.fresh hinit
    refine ⟨hnot, ?_, hnone⟩
    simp only [notify, hnot]
    exact htasks
  intro hrun hstops hfree
  obtain ⟨hnot, hkept⟩ := hinv.serving hrun hstops hfree
  refine ⟨hnot, fun q k qh hlook hqh => ?_⟩
  have hold := hkept q k qh hlook hqh
  have hsub := tasks_subset_notify { s with events := s.events.erase e } e
  refine ⟨fun hnone => ?_, fun hexp => (hold.expired hexp).mono hsub⟩
  rcases hold.unset hnone with hc | ht | he
  · exact .inl hc
  · exact .inr (.inl (hsub ht))
  · by_cases heq : .disconnected q = e
    · subst heq
      exact .inr (.inl (notify_disconnected hnot hlook))
    · exact .inr (.inr ((mem_erase_of_ne heq).mpr he))

theorem inv_expire (hinv : Inv s) (hph : s.handlers[h]? = some ph)
    (harmed : ph.reconnectTimer = some .armed) :
    Inv ((s.update h Handler.expire).spawn (.reconnect h .entered)) := by
  refine ⟨hinv.owned.mono (fun _ _ hq => hq) fun k qh hqh =>
    peer_update expire (fun _ => rfl) h k qh hqh, ?_, ?_⟩
  · intro hinit
    have hnone := (hinv.fresh hinit).2.2 ph (mem_of_getElem? hph)
    rw [harmed] at hnone
    cases hnone
  intro hrun hstops hfree
  obtain ⟨hnot, hkept⟩ := hinv.serving hrun hstops hfree
  refine ⟨hnot, fun q k qh hlook hqh => ?_⟩
  by_cases hkh : k = h
  · subst hkh
    have hexp : qh = ph.expire :=
      some.inj (hqh.symm.trans (handlers_update_self hph))
    subst hexp
    exact ⟨nofun,
      fun _ => ⟨_, mem_cons_self, by simp [Task.attendsTo, Phase.attends]⟩⟩
  · have hqh' : s.handlers[k]? = some qh :=
      (handlers_update_ne hkh).symm.trans hqh
    exact (hkept q k qh hlook hqh').mono_tasks (subset_cons_self _ _)

theorem noLostReconnect_of_inv (hinv : Inv s) : NoLostReconnect s := by
  intro hrun hquiet e he hconn
  obtain ⟨htasks, hevents, hstops, hfree⟩ := hquiet
  obtain ⟨_, hkept⟩ := hinv.serving hrun hstops hfree
  obtain ⟨h, hlook⟩ := exists_lookup he
  obtain ⟨ph, hph, _⟩ := hinv.owned e.1 h hlook
  have hk := hkept e.1 h ph hlook hph
  rw [htasks, hevents] at hk
  have htimer : s.timerOf e.1 = ph.reconnectTimer := by
    simp [timerOf, hlook, hph]
  rw [htimer]
  cases hset : ph.reconnectTimer with
  | none =>
    rcases hk.unset hset with hc | ht | hev
    · exact absurd hc hconn
    · exact absurd ht not_mem_nil
    · exact absurd hev not_mem_nil
  | some timer =>
    cases timer with
    | armed => rfl
    | expired =>
      obtain ⟨task, hmem, _⟩ := hk.expired hset
      exact absurd hmem not_mem_nil

theorem attendsTo_ne (hne : task.handler ≠ h) : task.attendsTo h = false := by
  cases task with
  | startIfDisconnected k | stopIfConnected k => rfl
  | reconnect k phase =>
    have hkh : k ≠ h := hne
    simp [Task.attendsTo, hkh]

end

theorem mem_erase_other {tasks : List (Task Addr)} {other : Task Addr}
    (hne : other.handler ≠ task.handler) (hmem : other ∈ tasks) : other ∈ tasks.erase task := by
  refine (mem_erase_of_ne ?_).mpr hmem
  intro heq
  exact hne (congrArg Task.handler heq)

theorem Retrying.erase {tasks : List (Task Addr)} (hr : Retrying tasks h)
    (hnot : task.attendsTo h = false) : Retrying (tasks.erase task) h := by
  obtain ⟨other, hmem, hatt⟩ := hr
  refine ⟨other, (mem_erase_of_ne ?_).mpr hmem, hatt⟩
  intro heq
  rw [heq, hnot] at hatt
  cases hatt

theorem kept_stopIfConnected (hk : Kept s.conns s.events s.tasks ph.peer h ph.reconnectTimer)
    (hstart : .startIfDisconnected h ≠ task)
    (hretry : ph.peer ∉ s.conns → ph.reconnectTimer = some .expired →
      Retrying (s.tasks.erase task) h) :
    Kept s.conns s.events (s.tasks.erase task) ph.peer h
      (ph.stopIfConnected s.conns).reconnectTimer := by
  unfold stopIfConnected
  split
  · rename_i hcond
    exact ⟨fun _ => .inl hcond.2, nofun⟩
  rename_i hcond
  refine ⟨fun hnone => ?_, fun hexp => hretry ?_ hexp⟩
  · rcases hk.unset hnone with hc | ht | he
    · exact .inl hc
    · exact .inr (.inl ((mem_erase_of_ne hstart).mpr ht))
    · exact .inr (.inr he)
  · intro hconn
    exact hcond ⟨by rw [hexp]; decide, hconn⟩

theorem kept_startIfDisconnected
    (hk : Kept s.conns s.events s.tasks ph.peer h ph.reconnectTimer) (o : Outcome) :
    Kept s.conns s.events (s.tasks.erase (.startIfDisconnected h)) ph.peer h
      (ph.startIfDisconnected s.conns o).reconnectTimer := by
  unfold startIfDisconnected
  split
  · exact kept_of_armed
  rename_i hcond
  refine ⟨fun hnone => ?_, fun hexp => ?_⟩
  · by_cases hconn : ph.peer ∈ s.conns
    · exact .inl hconn
    · exact absurd ⟨hnone, hconn⟩ hcond
  · exact (hk.expired hexp).erase rfl

omit [DecidableEq Peer] in
theorem kept_reconnect {phase next : Phase Addr} {timer : Option Timer}
    (hk : Kept s.conns s.events s.tasks p h timer)
    (hatt : timer = some .expired → next.attends = true) :
    Kept s.conns s.events (.reconnect h next :: s.tasks.erase (.reconnect h phase))
      p h timer := by
  refine ⟨fun hnone => ?_, fun hexp => ⟨_, mem_cons_self, ?_⟩⟩
  case refine_2 => simp [Task.attendsTo, hatt hexp]
  rcases hk.unset hnone with hc | ht | he
  · exact .inl hc
  · refine .inr (.inl (mem_cons_of_mem _ ?_))
    exact (mem_erase_of_ne (fun heq => by cases heq)).mpr ht
  · exact .inr (.inr he)

/-- **A goroutine's own handler.**  Under `Attended` every section leaves its
handler going. -/
theorem kept_body (hhandler : task.handler = h)
    (hk : Kept s.conns s.events s.tasks ph.peer h ph.reconnectTimer)
    (hph : s.handlers[h]? = some ph) (o : Outcome) (hatt : Attended s (.run task o))
    {ph' : Handler Peer Addr}
    (hph' : (Service.body { s with tasks := s.tasks.erase task } o task).handlers[h]? = some ph') :
    Kept s.conns s.events
      (Service.body { s with tasks := s.tasks.erase task } o task).tasks ph.peer h
      ph'.reconnectTimer := by
  subst hhandler
  cases task with
  | startIfDisconnected h =>
    obtain rfl := some.inj ((handlers_update_self hph).symm.trans hph')
    exact kept_startIfDisconnected hk o
  | stopIfConnected h =>
    obtain rfl := some.inj ((handlers_update_self hph).symm.trans hph')
    exact kept_stopIfConnected hk nofun fun _ hexp =>
      (hk.expired hexp).erase rfl
  | reconnect h phase =>
    cases phase with
    | entered | loaded addrs =>
      obtain rfl := some.inj (hph.symm.trans hph')
      exact kept_reconnect hk fun _ => rfl
    | connecting addrs =>
      obtain rfl := some.inj (hph.symm.trans hph')
      refine kept_reconnect hk fun _ => ?_
      cases o.connects <;> rfl
    | failed =>
      obtain rfl := some.inj ((handlers_update_self hph).symm.trans hph')
      unfold extendTimeout
      split
      · exact kept_of_armed
      · rename_i hset
        refine kept_reconnect hk fun hexp => ?_
        exact absurd (by rw [hexp]; decide) hset
    | finishing connected =>
      obtain rfl := some.inj ((handlers_update_self hph).symm.trans hph')
      refine kept_stopIfConnected hk nofun ?_
      intro hconn hexp
      cases connected with
      | true =>
        rcases hatt ph hph with hc | hne | hr
        · exact absurd hc hconn
        · exact absurd hexp hne
        · exact hr
      | false => exact (hk.expired hexp).erase (by simp [Task.attendsTo, Phase.attends])

/-- **A goroutine keeps the invariant.** -/
theorem inv_run (hinv : Inv s) (hmem : task ∈ s.tasks) (o : Outcome)
    (hatt : Attended s (.run task o)) :
    Inv (Service.body { s with tasks := s.tasks.erase task } o task) := by
  have hown : Owned (body { s with tasks := s.tasks.erase task } o task) := by
    rw [body_eq]
    exact hinv.owned.mono (fun _ _ hq => hq) fun k qh hqh =>
      peer_body (s := { s with tasks := s.tasks.erase task }) o task hqh
  have hsub := tasks_subset_body { s with tasks := s.tasks.erase task } o task
  refine ⟨hown, ?_, ?_⟩
  · rw [body_eq]
    intro hinit
    rw [(hinv.fresh hinit).2.1] at hmem
    exact absurd hmem not_mem_nil
  rw [body_eq]
  intro hrun hstops hfree
  obtain ⟨hnot, hkept⟩ := hinv.serving hrun hstops hfree
  refine ⟨hnot, fun q k qh hlook hqh => ?_⟩
  obtain ⟨old, hold, hpeer⟩ := hinv.owned q k hlook
  have hk := hkept q k old hlook hold
  subst hpeer
  by_cases hhandler : task.handler = k
  · exact kept_body hhandler hk hold o hatt hqh
  have hframe := handlers_body_ne (s := { s with tasks := s.tasks.erase task })
    o (fun heq => hhandler heq.symm)
  obtain rfl : old = qh := some.inj (hold.symm.trans (hframe.symm.trans hqh))
  refine ⟨fun hnone => ?_, fun hexp => ?_⟩
  · rcases hk.unset hnone with hc | ht | he
    · exact .inl hc
    · exact .inr (.inl (hsub (mem_erase_other (fun heq => hhandler heq.symm) ht)))
    · exact .inr (.inr he)
  · exact ((hk.expired hexp).erase (attendsTo_ne hhandler)).mono hsub

end Steps

/-- **Every step keeps the invariant**, if it is attended. -/
theorem inv_step (s : Service Peer Addr) (a : Action Peer Addr) (t : Service Peer Addr)
    (hinv : Inv s) (hatt : Attended s a) (hstep : step s a = some t) : Inv t := by
  cases transition_of_step hstep with
  | addPeer p addrs => exact inv_addPeer hinv p addrs
  | removePeer p => exact inv_removePeer hinv p
  | start => exact inv_start hinv
  | stopNotify =>
    refine inv_of_stopping hinv.owned ?_ (.inr (.inl (Nat.succ_ne_zero _)))
    exact fun hinit => ⟨rfl, (hinv.fresh hinit).2⟩
  | stopLock =>
    unfold stopLock
    split
    · exact inv_of_stopping hinv.owned hinv.fresh (.inr (.inr (by simp)))
    · exact inv_of_stopping hinv.owned hinv.fresh (.inr (.inr (by simp)))
    · rename_i hstate
      exact inv_of_stopping hinv.owned hinv.fresh (.inl hstate)
  | stopHandler h =>
    refine inv_of_stopping ?_ ?_ (.inr (.inr (by simp)))
    · exact hinv.owned.mono (fun _ _ hq => hq) fun k qh hqh =>
        peer_update stop (fun _ => rfl) h k qh hqh
    · exact fresh_update hinv.fresh h stop fun _ _ => rfl
  | stopUnlock => exact inv_of_stopping hinv.owned nofun (.inl rfl)
  | connect p =>
    refine ⟨hinv.owned, hinv.fresh, fun hrun hstops hfree => ?_⟩
    obtain ⟨hnot, hkept⟩ := hinv.serving hrun hstops hfree
    exact ⟨hnot, fun q k qh hlook hqh => (hkept q k qh hlook hqh).mono
      (mem_cons_of_mem p) (subset_cons_self _ _) (List.Subset.refl _)⟩
  | disconnect p =>
    refine ⟨hinv.owned, hinv.fresh, fun hrun hstops hfree => ?_⟩
    obtain ⟨hnot, hkept⟩ := hinv.serving hrun hstops hfree
    refine ⟨hnot, fun q k qh hlook hqh => ?_⟩
    have hk := hkept q k qh hlook hqh
    by_cases hqp : q = p
    · -- the lost connection may have been the last; its notification is pending
      subst hqp
      exact ⟨fun _ => .inr (.inr mem_cons_self), hk.expired⟩
    · exact hk.mono (mem_erase_of_ne hqp).mpr (subset_cons_self _ _) (List.Subset.refl _)
  | deliver e => exact inv_deliver hinv e
  | expire hph harmed => exact inv_expire hinv hph harmed
  | run o hmem => exact inv_run hinv hmem o hatt

/-- **No reconnect is lost in an attended run.**  If in every last section of a
`reconnect` whose `Connect` has succeeded the peer is still connected, or the
timer is not an expired one, or another `reconnect` is on the way, then every
state that the run reaches has an armed timer for every registered peer that is
not connected, once nothing is pending in a running service. -/
theorem no_lost_reconnect (conns : List Peer) (actions : List (Action Peer Addr))
    (s : Service Peer Addr)
    (hatt : Along step Attended (newPeeringService conns) actions)
    (hrun : run step (newPeeringService conns) actions = some s) : NoLostReconnect s :=
  noLostReconnect_of_inv
    (run_invariant_along Inv Attended inv_step (inv_new conns) hatt hrun)

/-- A peer that is reconnected, and lost and missed only after that. -/
def keptConnection : List (Action Nat Nat) :=
  [.addPeer 0 [7], .start,
    .run (.startIfDisconnected 0) calm, .expire 0,
    .run (.reconnect 0 .entered) calm, .run (.reconnect 0 (.loaded [7])) calm,
    .connect 0, .deliver (.connected 0), .run (.reconnect 0 (.connecting [7])) calm,
    .run (.reconnect 0 (.finishing true)) calm, .run (.stopIfConnected 0) calm,
    .disconnect 0, .deliver (.disconnected 0), .run (.startIfDisconnected 0) calm]

/-- The timer is armed again at the end of `keptConnection`. -/
theorem no_lost_reconnect_kept :
    Along step Attended (newPeeringService []) keptConnection ∧
      ∃ s, run step (newPeeringService []) keptConnection = some s ∧
        s.state = .running ∧ Quiet s ∧ (0, 0) ∈ s.peers ∧ 0 ∉ s.conns ∧
        s.timerOf 0 = some .armed := by
  have hatt : Along step Attended (newPeeringService []) keptConnection := by decide
  have hany : (run step (newPeeringService []) keptConnection).any (fun s =>
      decide (s.state = .running ∧ Quiet s ∧ (0, 0) ∈ s.peers ∧ 0 ∉ s.conns)) = true := by
    decide
  obtain ⟨s, hs, hp⟩ := exists_run_of_any hany
  obtain ⟨hrunning, hquiet, hpeer, hconn⟩ := of_decide_eq_true hp
  exact ⟨hatt, s, hs, hrunning, hquiet, hpeer, hconn,
    no_lost_reconnect [] keptConnection s hatt hs hrunning hquiet (0, 0) hpeer hconn⟩

end Peering
