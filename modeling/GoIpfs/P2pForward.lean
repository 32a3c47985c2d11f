import GoIpfs.StreamRegistry

/-!
# Forwarding connections

`ForwardLocal` opens a socket and registers a listener for it; `setupStream`
serves a connection to that socket, and `handleStream` a stream from a remote
peer, each by dialling the other side and registering the pair.  A socket or a
connection is safe when a registered listener or stream owns it, or when it was
closed or reset.

`forward_clean_iff` says which calls leave something behind: a `ForwardLocal`
whose address is already registered does not close its socket, and a
`handleStream` that fails after it has dialled resets the remote side only.
-/

namespace P2pForward

open StreamRegistry List

/-- What a call can obtain, by the listener or the stream that it is for. -/
inductive Resource where
  | socket (l : Nat)
  | localConn (s : StreamRef)
  | remoteConn (s : StreamRef)
  deriving DecidableEq, Repr

def Resource.ref : Resource → Nat
  | .socket l => l
  | .localConn s => s
  | .remoteConn s => s

/-- The two registries, with the state of what their entries hold.  Listeners
and streams are numbered as they are made, and none from `next` on is
registered. -/
structure World (Peer : Type) where
  /-- `ListenersLocal.Listeners`. -/
  listeners : List (String × Nat)
  /-- The socket of each local listener. -/
  socket : Nat → End
  streams : Registry Peer
  next : Nat
  listeners_lt : ∀ e ∈ listeners, e.2 < next
  streams_lt : ∀ e ∈ streams.streams, e.2 < next

variable {Peer : Type}

def World.start : World Peer where
  listeners := []
  socket _ := .live
  streams := Registry.start
  next := 0
  listeners_lt := by simp
  streams_lt := by simp [Registry.start]

namespace World

/-- A new listener or stream, with open ends. -/
def alloc (w : World Peer) : World Peer where
  listeners := w.listeners
  socket := Function.update w.socket w.next .live
  streams := { w.streams with
    localEnd := Function.update w.streams.localEnd w.next .live
    remoteEnd := Function.update w.streams.remoteEnd w.next .live }
  next := w.next + 1
  listeners_lt e he := Nat.lt_succ_of_lt (w.listeners_lt e he)
  streams_lt e he := Nat.lt_succ_of_lt (w.streams_lt e he)

theorem next_lt_alloc (w : World Peer) : w.next < w.alloc.next := Nat.lt_succ_self _

/-- `local.Close()` -/
def closeLocal (s : StreamRef) (w : World Peer) : World Peer where
  __ := w
  streams := { w.streams with localEnd := Function.update w.streams.localEnd s .closed }
  streams_lt := w.streams_lt

/-- `remote.Reset()` -/
def resetRemote (s : StreamRef) (w : World Peer) : World Peer where
  __ := w
  streams := { w.streams with remoteEnd := Function.update w.streams.remoteEnd s .wasReset }
  streams_lt := w.streams_lt

/-- `Listeners.Register` -/
def registerListener (key : String) (l : Nat) (w : World Peer) (hl : l < w.next) :
    Option String × World Peer :=
  if (w.listeners.lookup key).isSome then (some "listener already registered", w)
  else
    (none,
      { w with
        listeners := (key, l) :: w.listeners
        listeners_lt := forall_mem_cons.mpr ⟨hl, w.listeners_lt⟩ })

/-- `Streams.Register` -/
def registerStream [DecidableEq Peer] (peerOf : StreamRef → Peer) (s : StreamRef)
    (w : World Peer) (hs : s < w.next) : World Peer where
  __ := w
  streams := register peerOf s w.streams
  streams_lt := by
    refine forall_mem_cons.mpr ⟨hs, ?_⟩
    exact fun e he => w.streams_lt e (mem_of_mem_filter he)

end World

/-! ## The calls -/

inductive Exit where
  | returned (err : Option String)
  | panicked
  deriving DecidableEq, Repr

/-- The end of a call: what it has obtained, and the world it leaves behind. -/
structure Ended (Peer : Type) where
  exit : Exit
  obtained : List Resource
  world : World Peer

/-- `P2P.ForwardLocal`; `listen` is the result of `manet.Listen`, an error or the
address that is listened on. -/
def forwardLocal (listen : Except String String) (w : World Peer) : Ended Peer :=
  match listen with
  | .error err => ⟨.returned (some err), [], w⟩
  | .ok laddr =>
    let (err, w') := w.alloc.registerListener laddr w.next w.next_lt_alloc
    ⟨.returned err, [.socket w.next], w'⟩

section

variable [DecidableEq Peer] (peerOf : StreamRef → Peer)

/-- `localListener.setupStream` of an accepted connection; `dial` and
`targetAddress` are the errors of the dial and of `NewMultiaddr`. -/
def setupStream (dial targetAddress : Option String) (w : World Peer) : Ended Peer :=
  match dial with
  | some _ => ⟨.returned none, [.localConn w.next], w.alloc.closeLocal w.next⟩
  | none =>
    match targetAddress with
    | some _ => ⟨.panicked, [.localConn w.next, .remoteConn w.next], w.alloc⟩
    | none =>
      ⟨.returned none, [.localConn w.next, .remoteConn w.next],
        w.alloc.registerStream peerOf w.next w.next_lt_alloc⟩

/-- `remoteListener.handleStream` of a stream; `dial`, `write` and
`newMultiaddr` are the errors of the three steps that can fail. -/
def handleStream (dial : Option String) (reportRemote : Bool) (write newMultiaddr : Option String)
    (w : World Peer) : Ended Peer :=
  match dial with
  | some _ => ⟨.returned none, [.remoteConn w.next], w.alloc.resetRemote w.next⟩
  | none =>
    if reportRemote && write.isSome then
      ⟨.returned none, [.remoteConn w.next, .localConn w.next], w.alloc.resetRemote w.next⟩
    else
      match newMultiaddr with
      | some _ =>
        ⟨.returned none, [.remoteConn w.next, .localConn w.next], w.alloc.resetRemote w.next⟩
      | none =>
        ⟨.returned none, [.remoteConn w.next, .localConn w.next],
          w.alloc.registerStream peerOf w.next w.next_lt_alloc⟩

inductive Call where
  | forwardLocal (listen : Except String String)
  | setupStream (dial targetAddress : Option String)
  | handleStream (dial : Option String) (reportRemote : Bool) (write newMultiaddr : Option String)

def serve (w : World Peer) : Call → Ended Peer
  | .forwardLocal listen => forwardLocal listen w
  | .setupStream dial targetAddress => setupStream peerOf dial targetAddress w
  | .handleStream dial reportRemote write newMultiaddr =>
    handleStream peerOf dial reportRemote write newMultiaddr w

end

/-! ## Which calls leave something behind -/

/-- A registered listener or stream has it. -/
def Owned (w : World Peer) : Resource → Prop
  | .socket l => ∃ key, (key, l) ∈ w.listeners
  | .localConn s => ∃ id, (id, s) ∈ w.streams.streams
  | .remoteConn s => ∃ id, (id, s) ∈ w.streams.streams

def Released (w : World Peer) : Resource → Prop
  | .socket l => w.socket l ≠ .live
  | .localConn s => w.streams.localEnd s ≠ .live
  | .remoteConn s => w.streams.remoteEnd s ≠ .live

def Safe (w : World Peer) (res : Resource) : Prop := Owned w res ∨ Released w res

/-- When the call returns, everything that it has obtained is safe. -/
def Clean (e : Ended Peer) : Prop := e.exit ≠ .panicked → ∀ res ∈ e.obtained, Safe e.world res

/-- The calls that do not clean up: the address of a new listener is taken, or a
step after the dial of `handleStream` fails. -/
def Leaky (w : World Peer) : Call → Prop
  | .forwardLocal (.ok laddr) => (w.listeners.lookup laddr).isSome = true
  | .handleStream none reportRemote write newMultiaddr =>
    (reportRemote = true ∧ write ≠ none) ∨ newMultiaddr ≠ none
  | _ => False

variable {w : World Peer} {res : Resource}

theorem not_owned_of_le (h : w.next ≤ res.ref) : ¬ Owned w res := by
  intro howned
  cases res with
  | socket l =>
    obtain ⟨key, hkey⟩ := howned
    exact Nat.not_lt.mpr h (w.listeners_lt _ hkey)
  | localConn s | remoteConn s =>
    obtain ⟨id, hid⟩ := howned
    exact Nat.not_lt.mpr h (w.streams_lt _ hid)

theorem owned_alloc : Owned w.alloc res ↔ Owned w res := by
  cases res <;> exact Iff.rfl

theorem not_safe_alloc (res : Resource) (h : res.ref = w.next) : ¬ Safe w.alloc res := by
  intro hsafe
  rcases hsafe with howned | hreleased
  · exact not_owned_of_le h.ge (owned_alloc.mp howned)
  cases res with
  | socket l | localConn s | remoteConn s =>
    cases h
    exact hreleased (Function.update_self ..)

theorem safe_closeLocal (s : StreamRef) : Safe (w.closeLocal s) (.localConn s) := by
  refine .inr fun h => ?_
  have hclosed : (w.closeLocal s).streams.localEnd s = .closed := Function.update_self ..
  rw [h] at hclosed
  cases hclosed

theorem safe_resetRemote (s : StreamRef) : Safe (w.resetRemote s) (.remoteConn s) := by
  refine .inr fun h => ?_
  have hreset : (w.resetRemote s).streams.remoteEnd s = .wasReset := Function.update_self ..
  rw [h] at hreset
  cases hreset

theorem not_safe_local : ¬ Safe (w.alloc.resetRemote w.next) (.localConn w.next) :=
  not_safe_alloc (.localConn w.next) rfl

theorem forwardLocal_clean_iff (laddr : String) :
    Clean (forwardLocal (.ok laddr) w) ↔ ¬ (w.listeners.lookup laddr).isSome = true := by
  unfold forwardLocal World.registerListener
  have hsame : w.alloc.listeners = w.listeners := rfl
  by_cases htaken : (w.listeners.lookup laddr).isSome = true
  · simp only [hsame, htaken, if_true, not_true_eq_false, iff_false]
    intro hclean
    exact not_safe_alloc (.socket w.next) rfl (hclean (by simp) _ mem_cons_self)
  · simp only [hsame, htaken, Bool.false_eq_true, if_false, not_false_eq_true, iff_true]
    intro _ res hres
    rw [mem_singleton.mp hres]
    exact .inl ⟨laddr, mem_cons_self⟩

theorem not_clean_reset :
    ¬ Clean ⟨.returned none, [.remoteConn w.next, .localConn w.next],
      w.alloc.resetRemote w.next⟩ := by
  intro hclean
  exact not_safe_local (hclean (by simp) _ (by simp))

variable [DecidableEq Peer] {peerOf : StreamRef → Peer}

theorem owned_registerStream {s : StreamRef} (hs : s < w.next)
    (h : res = .localConn s ∨ res = .remoteConn s) : Owned (w.registerStream peerOf s hs) res := by
  have hmem : (w.streams.nextID, s) ∈ (w.registerStream peerOf s hs).streams.streams :=
    mem_cons_self
  rcases h with rfl | rfl
  · exact ⟨_, hmem⟩
  · exact ⟨_, hmem⟩

theorem clean_registered {obtained : List Resource}
    (h : ∀ res ∈ obtained, res = .localConn w.next ∨ res = .remoteConn w.next) :
    Clean ⟨.returned none, obtained, w.alloc.registerStream peerOf w.next w.next_lt_alloc⟩ :=
  fun _ res hres => .inl (owned_registerStream w.next_lt_alloc (h res hres))

theorem setupStream_clean (dial targetAddress : Option String) :
    Clean (setupStream peerOf dial targetAddress w) := by
  cases dial with
  | some err =>
    intro _ res hres
    rw [mem_singleton.mp hres]
    exact safe_closeLocal w.next
  | none =>
    cases targetAddress with
    | some err => exact absurd rfl
    | none => exact clean_registered (by simp)

theorem handleStream_clean_iff (reportRemote : Bool) (write newMultiaddr : Option String) :
    Clean (handleStream peerOf none reportRemote write newMultiaddr w) ↔
      ¬ ((reportRemote = true ∧ write ≠ none) ∨ newMultiaddr ≠ none) := by
  have hwrite : (reportRemote && write.isSome) = true ↔ reportRemote = true ∧ write ≠ none := by
    rw [Bool.and_eq_true, Option.isSome_iff_ne_none]
  unfold handleStream
  rw [← hwrite]
  dsimp only
  split
  · rename_i hfails
    exact ⟨fun h => absurd h not_clean_reset, fun h => absurd (.inl hfails) h⟩
  rename_i hsucceeds
  cases newMultiaddr with
  | some err =>
    exact ⟨fun h => absurd h not_clean_reset, fun h => absurd (.inr (Option.some_ne_none err)) h⟩
  | none =>
    refine ⟨fun _ h => ?_, fun _ => clean_registered (by simp)⟩
    exact h.elim hsucceeds fun hne => hne rfl

/-- **A call leaves nothing behind unless the address of a new listener is
taken, or `handleStream` fails after its dial.** -/
theorem forward_clean_iff (peerOf : StreamRef → Peer) (w : World Peer) (c : Call) :
    Clean (serve peerOf w c) ↔ ¬ Leaky w c := by
  cases c with
  | forwardLocal listen =>
    cases listen with
    | error err => exact ⟨fun _ h => h, fun _ _ res hres => absurd hres not_mem_nil⟩
    | ok laddr => exact forwardLocal_clean_iff laddr
  | setupStream dial targetAddress =>
    exact ⟨fun _ h => h, fun _ => setupStream_clean dial targetAddress⟩
  | handleStream dial reportRemote write newMultiaddr =>
    cases dial with
    | some err =>
      refine ⟨fun _ h => h, fun _ _ res hres => ?_⟩
      rw [mem_singleton.mp hres]
      exact safe_resetRemote w.next
    | none => exact handleStream_clean_iff reportRemote write newMultiaddr

/-- A `handleStream` whose write of the peer ID fails leaves the local
connection open, with no owner. -/
theorem handleStream_leaves_local :
    (serve (fun _ => ()) World.start (.handleStream none true (some "broken pipe") none)).exit =
        .returned none ∧
      .localConn 0 ∈ (serve (fun _ => ()) World.start
        (.handleStream none true (some "broken pipe") none)).obtained ∧
      ¬ Safe (serve (fun _ => ()) World.start
        (.handleStream none true (some "broken pipe") none)).world (.localConn 0) := by
  refine ⟨rfl, mem_cons_of_mem _ mem_cons_self, ?_⟩
  exact not_safe_local (w := World.start)

end P2pForward
