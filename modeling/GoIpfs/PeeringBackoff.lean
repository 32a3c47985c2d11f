import GoIpfs.GoInt
import GoIpfs.Peering

/-!
# The reconnect delays

`nextBackoff` works on `time.Duration` values, which are `int64` nanoseconds,
and draws random numbers with `rand.Int63n`, which panics on an argument that
is not positive.  `nextBackoff64` is the function with these operations spelt
out; on the delays that occur it ends with the value of `nextBackoff`, on which
the model of the service is built, and neither overflows nor panics
(`yields_nextBackoff64`).

A delay grows by a half to one and a half of itself until it passes
`maxBackoff`, and is then drawn from the last tenth below it.  The bounds of one
call give those of every sequence of calls and resets (`backoff_bounds`), and
those of the timers of a running service (`delays_of_run`).
-/

namespace Peering

open GoInt GoInt.Calc StepRun

/-- The first half of `peerHandler.nextBackoff`: a delay below the maximum
grows. -/
def extend64 (nextDelay : Int) (raw : Nat) : Calc Int :=
  if nextDelay < maxBackoff then do
    let half ← int64 (nextDelay.tdiv 2)
    let random ← Calc.int63n nextDelay raw
    let growth ← int64 (half + random)
    int64 (nextDelay + growth)
  else pure nextDelay

/-- The second half: a delay above the maximum is reduced. -/
def reduce64 (nextDelay : Int) (raw : Nat) : Calc Int :=
  if maxBackoff < nextDelay then do
    let share ← int64 (maxBackoff * maxBackoffJitter)
    let tenth ← int64 (share.tdiv 100)
    let random ← Calc.int63n tenth raw
    int64 (maxBackoff - random)
  else pure nextDelay

/-- `peerHandler.nextBackoff` on `int64`, for the handler's `nextDelay`. -/
def nextBackoff64 (nextDelay : Int) (o : Outcome) : Calc Int := do
  let extended ← extend64 nextDelay o.first
  reduce64 extended o.second

/-- Nine tenths of `maxBackoff`, below which a full delay is not drawn. -/
def cutOff : Nat := maxBackoff * (100 - maxBackoffJitter) / 100

/-- The delays that a handler can have. -/
structure Delay (d : Nat) : Prop where
  pos : 0 < d
  le : d ≤ maxBackoff

theorem delay_initialDelay : Delay initialDelay :=
  ⟨by decide, by decide⟩

/-! ## One call -/

variable {d : Nat}

theorem yields_extend64 (hd : Delay d) (raw : Nat) :
    Yields (extend64 d raw)
      ((if d < maxBackoff then d + (d / 2 + int63n d raw) else d : Nat) : Int) := by
  have hpos := hd.pos
  have hle : d ≤ 600000000000 := hd.le
  unfold extend64
  by_cases hlt : d < maxBackoff
  · have hraw : int63n d raw < d := Nat.mod_lt raw hpos
    have hhalf : (d : Int).tdiv 2 = ((d / 2 : Nat) : Int) := by
      rw [Int.tdiv_eq_ediv_of_nonneg (Int.natCast_nonneg d), Int.natCast_ediv, Int.cast_ofNat_Int]
    have hrandom : (raw : Int) % (d : Int) = ((int63n d raw : Nat) : Int) := rfl
    have hsum : (d : Int) + (((d / 2 : Nat) : Int) + ((int63n d raw : Nat) : Int)) =
        ((d + (d / 2 + int63n d raw) : Nat) : Int) := by
      push_cast
      rfl
    rw [if_pos hlt, if_pos (Int.ofNat_lt.mpr hlt), hhalf, ← hsum]
    refine (yields_int64 ⟨by omega, by omega⟩).bind ?_
    refine (yields_int63n raw (by omega)).bind ?_
    refine (yields_int64 ⟨by omega, by omega⟩).bind ?_
    exact yields_int64 ⟨by omega, by omega⟩
  · rw [if_neg hlt, if_neg (fun h => hlt (Int.ofNat_lt.mp h))]
    exact yields_pure _

theorem yields_reduce64 (e raw : Nat) :
    Yields (reduce64 e raw)
      ((if maxBackoff < e then
        maxBackoff - int63n (maxBackoff * maxBackoffJitter / 100) raw else e : Nat) : Int) := by
  unfold reduce64
  by_cases hlt : maxBackoff < e
  · have hrandom : (raw : Int) % 60000000000 =
        ((int63n (maxBackoff * maxBackoffJitter / 100) raw : Nat) : Int) := rfl
    have hmax : maxBackoff = 600000000000 := rfl
    have hshare : ((maxBackoff : Int) * (maxBackoffJitter : Int)).tdiv 100 = 60000000000 := by
      decide
    have hsub : (maxBackoff : Int) -
        ((int63n (maxBackoff * maxBackoffJitter / 100) raw : Nat) : Int) =
        ((maxBackoff - int63n (maxBackoff * maxBackoffJitter / 100) raw : Nat) : Int) := by
      omega
    rw [if_pos hlt, if_pos (Int.ofNat_lt.mpr hlt), ← hsub]
    refine (yields_int64 (by decide)).bind ?_
    refine (yields_int64 (by decide)).bind ?_
    rw [hshare]
    refine (yields_int63n raw (by decide)).bind ?_
    exact yields_int64 ⟨by omega, by omega⟩
  · rw [if_neg hlt, if_neg (fun h => hlt (Int.ofNat_lt.mp h))]
    exact yields_pure _

/-- **The machine computes `nextBackoff`.**  On every delay that can occur the
`int64` operations neither overflow nor panic and give the value of the model. -/
theorem yields_nextBackoff64 (hd : Delay d) (o : Outcome) :
    Yields (nextBackoff64 d o) (nextBackoff d o : Nat) :=
  (yields_extend64 hd o.first).bind (yields_reduce64 _ o.second)

/-- The bounds of one call. -/
structure Backoff (d next : Nat) : Prop where
  delay : Delay next
  grows : min (d + d / 2) cutOff ≤ next
  bounded : next ≤ min (2 * d + d / 2) maxBackoff
  full : cutOff ≤ d → cutOff ≤ next

theorem backoff_nextBackoff (hd : Delay d) (o : Outcome) : Backoff d (nextBackoff d o) := by
  have hpos := hd.pos
  have hle : d ≤ 600000000000 := hd.le
  have hfirst : int63n d o.first < d := Nat.mod_lt _ hpos
  have hsecond : int63n (maxBackoff * maxBackoffJitter / 100) o.second < 60000000000 :=
    Nat.mod_lt _ (by decide)
  have hmax : maxBackoff = 600000000000 := rfl
  have hcut : cutOff = 540000000000 := rfl
  unfold nextBackoff
  dsimp only
  generalize int63n d o.first = r at *
  generalize int63n (maxBackoff * maxBackoffJitter / 100) o.second = q at *
  split <;> split
  -- the delay has grown past the maximum and is drawn from the last tenth
  · exact ⟨⟨by omega, by omega⟩, by omega, by omega, by omega⟩
  -- it has grown and stays below the maximum, so it was not full before
  · exact ⟨⟨by omega, by omega⟩, by omega, by omega, by omega⟩
  · omega
  · exact ⟨⟨by omega, by omega⟩, by omega, by omega, by omega⟩

/-! ## Sequences of calls and resets -/

/-- What is done to a handler's `nextDelay`. -/
inductive Call where
  | nextBackoff (o : Outcome)
  /-- `stopIfConnected` sets `nextDelay = initialDelay`. -/
  | reset
  deriving DecidableEq, Repr

/-- The new `nextDelay`; a panic of `nextBackoff` is no step. -/
def delayStep (nextDelay : Int) : Call → Option Int
  | .nextBackoff o => (nextBackoff64 nextDelay o).value
  | .reset => some initialDelay

theorem delayStep_nextBackoff (d : Int) (o : Outcome) :
    delayStep d (.nextBackoff o) = (nextBackoff64 d o).value := rfl

theorem delayStep_ok (hd : Delay d) (call : Call) :
    ∃ next : Nat, delayStep d call = some (next : Int) ∧ Delay next := by
  cases call with
  | nextBackoff o =>
    refine ⟨nextBackoff d o, ?_, (backoff_nextBackoff hd o).delay⟩
    rw [delayStep_nextBackoff, (yields_nextBackoff64 hd o).value]
  | reset => exact ⟨initialDelay, rfl, delay_initialDelay⟩

theorem delayRun_ok (hd : Delay d) (calls : List Call) :
    ∃ last : Nat, StepRun.run delayStep d calls = some (last : Int) ∧ Delay last := by
  induction calls generalizing d with
  | nil => exact ⟨d, rfl, hd⟩
  | cons call rest ih =>
    obtain ⟨next, hnext, hdelay⟩ := delayStep_ok hd call
    obtain ⟨last, hlast, hend⟩ := ih hdelay
    exact ⟨last, run_cons.mpr ⟨next, hnext, hlast⟩, hend⟩

theorem delayRun_full (hd : Delay d) (hfull : cutOff ≤ d) (os : List Outcome) :
    ∃ last : Nat, StepRun.run delayStep d (os.map Call.nextBackoff) = some (last : Int) ∧
      cutOff ≤ last ∧ last ≤ maxBackoff := by
  induction os generalizing d with
  | nil => exact ⟨d, rfl, hfull, hd.le⟩
  | cons o rest ih =>
    have hcall := backoff_nextBackoff hd o
    obtain ⟨last, hlast, hbounds⟩ := ih hcall.delay (hcall.full hfull)
    refine ⟨last, run_cons.mpr ⟨nextBackoff d o, ?_, hlast⟩, hbounds⟩
    rw [delayStep_nextBackoff, (yields_nextBackoff64 hd o).value]

/-- **Backoff bounds.**  Whatever calls and resets came before and whatever the
random numbers are, a call of `nextBackoff` finds a delay `d`, performs no
operation that overflows and no `Int63n` whose argument is not positive, and
returns a delay within the bounds given by `d`; once the returned delay is at
least nine tenths of the maximum, it stays there through all calls up to a
reset. -/
theorem backoff_bounds (calls : List Call) (o : Outcome) :
    ∃ d next : Int,
      StepRun.run delayStep initialDelay calls = some d ∧
      (nextBackoff64 d o).value = some next ∧
      (∀ op ∈ (nextBackoff64 d o).ops, op.Fine) ∧
      0 < next ∧ next ≤ maxBackoff ∧
      min (d + d / 2) (90 * maxBackoff / 100) ≤ next ∧
      next ≤ min (2 * d + d / 2) maxBackoff ∧
      (90 * (maxBackoff : Int) / 100 ≤ next → ∀ os : List Outcome, ∃ last : Int,
        StepRun.run delayStep next (os.map Call.nextBackoff) = some last ∧
        90 * (maxBackoff : Int) / 100 ≤ last ∧ last ≤ maxBackoff) := by
  obtain ⟨d, hrun, hd⟩ := delayRun_ok delay_initialDelay calls
  have hyields := yields_nextBackoff64 hd o
  have hbounds := backoff_nextBackoff hd o
  have hpos := hbounds.delay.pos
  have hgrows := hbounds.grows
  have hbounded := hbounds.bounded
  have hcut : 90 * (maxBackoff : Int) / 100 = cutOff := rfl
  refine ⟨d, nextBackoff d o, hrun, hyields.value, hyields.fine,
    by omega, by omega, ?_, ?_, ?_⟩
  · omega
  · omega
  · intro hfull os
    obtain ⟨last, hlast, hlow, hhigh⟩ :=
      delayRun_full hbounds.delay (Int.ofNat_le.mp hfull) os
    exact ⟨last, hlast, Int.ofNat_le.mpr hlow, Int.ofNat_le.mpr hhigh⟩

/-! ## The handlers of a service -/

section Handlers

variable {Peer Addr : Type} [DecidableEq Peer] {s : Service Peer Addr}

/-- Every handler's delay is one that `nextBackoff` accepts. -/
def Delays (s : Service Peer Addr) : Prop :=
  ∀ (k : Nat) (ph : Handler Peer Addr), s.handlers[k]? = some ph → Delay ph.nextDelay

omit [DecidableEq Peer] in
theorem delays_update (hs : Delays s) {h : Nat} {f : Handler Peer Addr → Handler Peer Addr}
    (hf : ∀ ph, Delay ph.nextDelay → Delay (f ph).nextDelay) : Delays (s.update h f) := by
  intro k ph hph
  obtain ⟨old, hold, rfl⟩ := Service.handlers_update hph
  split
  · exact hf old (hs k old hold)
  · exact hs k old hold

omit [DecidableEq Peer] in
theorem delays_register (hs : Delays s) (p : Peer) (addrs : List Addr) :
    Delays (s.register p addrs) := by
  intro k ph hph
  rcases List.mem_append.mp (List.mem_of_getElem? hph) with hold | hnew
  · obtain ⟨j, hj⟩ := List.getElem?_of_mem hold
    exact hs j ph hj
  · rw [List.mem_singleton.mp hnew]
    exact delay_initialDelay

theorem delays_addPeer (hs : Delays s) (p : Peer) (addrs : List Addr) :
    Delays (s.addPeer p addrs) := by
  unfold Service.addPeer
  split
  · exact delays_update hs fun _ hph => hph
  · split
    · exact delays_register hs p addrs
    · exact delays_register hs p addrs

theorem delays_body (hs : Delays s) (o : Outcome) (task : Task Addr) : Delays (s.body o task) := by
  have hstart : ∀ ph : Handler Peer Addr, Delay ph.nextDelay →
      Delay (ph.startIfDisconnected s.conns o).nextDelay := by
    intro ph hph
    unfold Handler.startIfDisconnected
    split
    · exact (backoff_nextBackoff hph o).delay
    · exact hph
  have hstop : ∀ ph : Handler Peer Addr, Delay ph.nextDelay →
      Delay (ph.stopIfConnected s.conns).nextDelay := by
    intro ph hph
    unfold Handler.stopIfConnected
    split
    · exact delay_initialDelay
    · exact hph
  have hextend : ∀ ph : Handler Peer Addr, Delay ph.nextDelay →
      Delay (ph.extendTimeout o).nextDelay := by
    intro ph hph
    unfold Handler.extendTimeout
    split
    · exact (backoff_nextBackoff hph o).delay
    · exact hph
  cases task with
  | startIfDisconnected h => exact delays_update hs hstart
  | stopIfConnected h => exact delays_update hs hstop
  | reconnect h phase =>
    cases phase with
    | entered | loaded addrs | connecting addrs => exact hs
    | failed => exact delays_update hs hextend
    | finishing connected => exact delays_update hs hstop

theorem delays_step [DecidableEq Addr] (s : Service Peer Addr) (a : Action Peer Addr)
    (t : Service Peer Addr) (hs : Delays s) (hstep : step s a = some t) : Delays t := by
  cases transition_of_step hstep with
  | addPeer p addrs => exact delays_addPeer hs p addrs
  | removePeer p =>
    unfold Service.removePeer
    split
    · exact delays_update (f := Handler.stop) hs fun _ hph => hph
    · exact hs
  | start =>
    unfold Service.start
    split <;> exact hs
  | stopLock =>
    unfold Service.stopLock
    split <;> exact hs
  | stopHandler h => exact delays_update (f := Handler.stop) hs fun _ hph => hph
  | stopNotify | stopUnlock | connect p | disconnect p => exact hs
  | deliver e =>
    rw [Service.notify_eq]
    exact hs
  | expire => exact delays_update (f := Handler.expire) hs fun _ hph => hph
  | @run task o =>
    have hs' : Delays { s with tasks := s.tasks.erase task } := hs
    exact delays_body hs' o task

/-- **Delays of a running service.**  In every run of the service every handler
waits with a delay on which `nextBackoff` neither overflows nor panics. -/
theorem delays_of_run [DecidableEq Addr] (conns : List Peer)
    (actions : List (Action Peer Addr)) {t : Service Peer Addr}
    (hrun : StepRun.run step (newPeeringService conns) actions = some t)
    {k : Nat} {ph : Handler Peer Addr} (hph : t.handlers[k]? = some ph) (o : Outcome) :
    Yields (nextBackoff64 ph.nextDelay o) (nextBackoff ph.nextDelay o : Nat) := by
  have hnew : Delays ((newPeeringService conns : Service Peer Addr)) := by
    intro k ph hph
    cases hph
  exact yields_nextBackoff64 (run_invariant Delays delays_step hnew hrun k ph hph) o

/-- The timer expires, and `Connect` fails. -/
def failedReconnect (o : Outcome) : List (Action Nat Nat) :=
  [.expire 0, .run (.reconnect 0 .entered) o, .run (.reconnect 0 (.loaded [])) o,
    .run (.reconnect 0 (.connecting [])) o, .run (.reconnect 0 .failed) o,
    .run (.reconnect 0 (.finishing false)) o]

/-- After ten failed attempts the delay has grown to the last tenth below the maximum,
where it is reduced and not extended. -/
theorem delays_of_run_backedOff :
    ∃ t ph, StepRun.run step (newPeeringService [])
        ([.addPeer 1 [], .start, .run (.startIfDisconnected 0) ⟨false, 4999999999, 7⟩] ++
          (List.replicate 10 (failedReconnect ⟨false, 4999999999, 7⟩)).flatten) = some t ∧
      t.handlers[0]? = some ph ∧ cutOff ≤ ph.nextDelay ∧
      ∀ o, Yields (nextBackoff64 ph.nextDelay o) (nextBackoff ph.nextDelay o : Nat) := by
  have hany : (StepRun.run step (newPeeringService [])
      ([.addPeer 1 [], .start, .run (.startIfDisconnected 0) ⟨false, 4999999999, 7⟩] ++
        (List.replicate 10 (failedReconnect ⟨false, 4999999999, 7⟩)).flatten)).any
      (fun t => t.handlers[0]?.any fun ph => decide (cutOff ≤ ph.nextDelay)) = true := by
    decide +kernel
  obtain ⟨t, hrun, hhandler⟩ := exists_run_of_any hany
  obtain ⟨ph, hph, hdelay⟩ := (Option.any_eq_true _ _).mp hhandler
  exact ⟨t, ph, hrun, hph, of_decide_eq_true hdelay, delays_of_run [] _ hrun hph⟩

end Handlers

end Peering
