import GoIpfs.StepRun
import GoIpfs.GoBytes
import Mathlib.Logic.Function.Basic

/-!
# Copying between the ends of a stream

`Stream.startStreaming` of `p2p/stream.go`.  Two goroutines copy, one in each
direction; each reads a chunk of any size, writes it piece by piece, and at the
end of its source, or after an error, closes the local end and then the remote
one.  Both directions use both ends, so the goroutine that finishes first also
cuts off the other.

`delivered_iff` says when nothing is lost, `delivered_always_iff` that no
schedule loses anything only if there is nothing to send, and
`schedule_length_le` that every schedule comes to an end.
-/

namespace StreamCopy

open StepRun GoBytes List Function

/-- The ends of a stream, and the endpoints behind them. -/
inductive Side where
  | localEnd
  | remoteEnd
  deriving DecidableEq, Repr

def Side.other : Side → Side
  | .localEnd => .remoteEnd
  | .remoteEnd => .localEnd

@[simp] theorem Side.other_other (side : Side) : side.other.other = side := by
  cases side <;> rfl

@[simp] theorem Side.other_ne (side : Side) : side.other ≠ side := by
  cases side <;> decide

/-- Where a goroutine is. -/
inductive Copier where
  | reading
  /-- In `Write`, with the rest of its chunk. -/
  | writing (chunk : Bytes)
  /-- `io.Copy` has returned; `err` decides between `reset` and `close`. -/
  | ended (err : Bool)
  | closedLocal (err : Bool)
  | done
  deriving DecidableEq, Repr

def Copier.held : Copier → Bytes
  | .writing chunk => chunk
  | .reading | .ended _ | .closedLocal _ | .done => []

/-- A stream; the goroutine of a side reads from that side. -/
structure State where
  /-- What an endpoint has sent and its goroutine has not read. -/
  left : Side → Bytes
  /-- What an endpoint has received. -/
  got : Side → Bytes
  closed : Side → Bool
  copier : Side → Copier

/-- The stream at the start, with what each endpoint sends. -/
def start (sent : Side → Bytes) : State where
  left := sent
  got _ := []
  closed _ := false
  copier _ := .reading

inductive Action where
  /-- `Read` returns `n` bytes, or the end of the file, or an error. -/
  | read (src : Side) (n : Nat)
  /-- `Write` passes on `k` bytes, or fails. -/
  | write (src : Side) (k : Nat)
  | closeLocal (src : Side)
  /-- `Close` or `Reset` of the remote end. -/
  | closeRemote (src : Side)
  deriving DecidableEq, Repr

/-- The goroutine after `k` bytes of a chunk have been written. -/
def afterWrite (chunk : Bytes) (k : Nat) : Copier :=
  if chunk.drop k = [] then .reading else .writing (chunk.drop k)

/-- The goroutine of `src` goes on from `c`. -/
def State.goto (s : State) (src : Side) (c : Copier) : State :=
  { s with copier := Function.update s.copier src c }

def step (s : State) : Action → Option State
  | .read src n =>
    match s.copier src with
    | .reading =>
      if s.closed src = true then some (s.goto src (.ended true))
      else if s.left src = [] then some (s.goto src (.ended false))
      else if 0 < n ∧ n ≤ (s.left src).length then
        some { s.goto src (.writing ((s.left src).take n)) with
          left := Function.update s.left src ((s.left src).drop n) }
      else none
    | _ => none
  | .write src k =>
    match s.copier src with
    | .writing chunk =>
      if s.closed src.other = true then some (s.goto src (.ended true))
      else if 0 < k ∧ k ≤ chunk.length then
        some { s.goto src (afterWrite chunk k) with
          got := Function.update s.got src.other (s.got src.other ++ chunk.take k) }
      else none
    | _ => none
  | .closeLocal src =>
    match s.copier src with
    | .ended err =>
      some { s.goto src (.closedLocal err) with
        closed := Function.update s.closed .localEnd true }
    | _ => none
  | .closeRemote src =>
    match s.copier src with
    | .closedLocal _ =>
      some { s.goto src .done with closed := Function.update s.closed .remoteEnd true }
    | _ => none

/-! ## What a step can do -/

/-- The steps, one constructor for each way through `step`. -/
inductive Transition (s : State) : Action → State → Prop
  | readFails {src n} (hpc : s.copier src = .reading)
      (hclosed : s.closed src = true) : Transition s (.read src n) (s.goto src (.ended true))
  | eof {src n} (hpc : s.copier src = .reading) (hleft : s.left src = []) :
      Transition s (.read src n) (s.goto src (.ended false))
  | received {src n} (hpc : s.copier src = .reading)
      (hopen : s.closed src = false) (hpos : 0 < n) (hle : n ≤ (s.left src).length) :
      Transition s (.read src n) { s.goto src (.writing ((s.left src).take n)) with
        left := Function.update s.left src ((s.left src).drop n) }
  | writeFails {src k chunk} (hpc : s.copier src = .writing chunk)
      (hclosed : s.closed src.other = true) :
      Transition s (.write src k) (s.goto src (.ended true))
  | passed {src k chunk} (hpc : s.copier src = .writing chunk)
      (hopen : s.closed src.other = false) (hpos : 0 < k) (hle : k ≤ chunk.length) :
      Transition s (.write src k) { s.goto src (afterWrite chunk k) with
        got := Function.update s.got src.other (s.got src.other ++ chunk.take k) }
  | closedLocal {src err} (hpc : s.copier src = .ended err) :
      Transition s (.closeLocal src) { s.goto src (.closedLocal err) with
        closed := Function.update s.closed .localEnd true }
  | closedRemote {src err} (hpc : s.copier src = .closedLocal err) :
      Transition s (.closeRemote src) { s.goto src .done with
        closed := Function.update s.closed .remoteEnd true }

theorem transition_of_step {s t : State} {a : Action} (h : step s a = some t) :
    Transition s a t := by
  cases a with
  | read src n =>
    simp only [step] at h
    split at h
    · rename_i hpc
      split_ifs at h with hclosed hleft hn <;> cases h
      · exact .readFails hpc hclosed
      · exact .eof hpc hleft
      · exact .received hpc (by simpa using hclosed) hn.1 hn.2
    · cases h
  | write src k =>
    simp only [step] at h
    split at h
    · rename_i chunk hpc
      split_ifs at h with hclosed hk <;> cases h
      · exact .writeFails hpc hclosed
      · exact .passed hpc (by simpa using hclosed) hk.1 hk.2
    · cases h
  | closeLocal src =>
    simp only [step] at h
    split at h <;> cases h
    rename_i err hpc
    exact .closedLocal hpc
  | closeRemote src =>
    simp only [step] at h
    split at h <;> cases h
    rename_i err hpc
    exact .closedRemote hpc

/-- The goroutine that takes the step. -/
def Action.src : Action → Side
  | .read src _ | .write src _ | .closeLocal src | .closeRemote src => src

/-- The end that an action closes. -/
def Action.closes : Action → Option Side
  | .closeLocal _ => some .localEnd
  | .closeRemote _ => some .remoteEnd
  | _ => none

/-- A copier that has left the copy loop. -/
def Copier.stopped : Copier → Prop
  | .reading | .writing _ => False
  | _ => True

/-- What a step does to the bytes from `src`. -/
inductive Flow (s t : State) (src : Side) : Prop
  /-- It does not touch them. -/
  | idle (hleft : t.left src = s.left src) (hgot : t.got src.other = s.got src.other)
      (hpc : t.copier src = s.copier src ∨ (s.copier src).stopped ∧ (t.copier src).stopped)
  | received (n : Nat) (hpc : s.copier src = .reading) (hopen : s.closed src = false)
      (hpos : 0 < n) (hle : n ≤ (s.left src).length) (hleft : t.left src = (s.left src).drop n)
      (hgot : t.got src.other = s.got src.other)
      (hpc' : t.copier src = .writing ((s.left src).take n))
  | passed (k : Nat) (chunk : Bytes) (hpc : s.copier src = .writing chunk)
      (hopen : s.closed src.other = false) (hpos : 0 < k) (hle : k ≤ chunk.length)
      (hleft : t.left src = s.left src)
      (hgot : t.got src.other = s.got src.other ++ chunk.take k)
      (hpc' : t.copier src = afterWrite chunk k)
  /-- The copy ends. -/
  | ended (err : Bool) (hleft : t.left src = s.left src) (hgot : t.got src.other = s.got src.other)
      (hpc : s.copier src = .reading ∧ (s.closed src = true ∨ s.left src = []) ∨
        ∃ chunk, s.copier src = .writing chunk ∧ s.closed src.other = true)
      (hpc' : t.copier src = .ended err)

variable {s t : State} {a : Action}

@[simp] theorem goto_copier_self (src : Side) (c : Copier) : (s.goto src c).copier src = c :=
  update_self ..

variable {side : Side} {src : Side}

theorem goto_copier_of_ne (h : side ≠ src) (c : Copier) :
    (s.goto src c).copier side = s.copier side :=
  update_of_ne h ..

theorem flow_of_step (h : step s a = some t) (src : Side) : Flow s t src := by
  by_cases hside : src = a.src
  · subst hside
    cases transition_of_step h with
    | readFails hpc hclosed =>
      exact .ended true rfl rfl (.inl ⟨hpc, .inl hclosed⟩) (goto_copier_self ..)
    | eof hpc hleft => exact .ended false rfl rfl (.inl ⟨hpc, .inr hleft⟩) (goto_copier_self ..)
    | received hpc hopen hpos hle =>
      exact .received _ hpc hopen hpos hle (update_self ..) rfl (goto_copier_self ..)
    | writeFails hpc hclosed =>
      exact .ended true rfl rfl (.inr ⟨_, hpc, hclosed⟩) (goto_copier_self ..)
    | passed hpc hopen hpos hle =>
      exact .passed _ _ hpc hopen hpos hle rfl (update_self ..) (goto_copier_self ..)
    | closedLocal hpc | closedRemote hpc =>
      refine .idle rfl rfl (.inr ⟨?_, ?_⟩) <;> simp [Action.src, hpc, Copier.stopped]
  · -- the other goroutine waits
    have hother : src.other ≠ a.src.other := by
      intro heq
      apply hside
      simpa using congrArg Side.other heq
    cases transition_of_step h with
    | readFails | eof | writeFails | closedLocal | closedRemote =>
      exact .idle rfl rfl (.inl (goto_copier_of_ne hside _))
    | received => exact .idle (update_of_ne hside ..) rfl (.inl (goto_copier_of_ne hside _))
    | passed => exact .idle rfl (update_of_ne hother ..) (.inl (goto_copier_of_ne hside _))

theorem closed_iff_of_step (h : step s a = some t) (side : Side) :
    t.closed side = true ↔ s.closed side = true ∨ a.closes = some side := by
  cases transition_of_step h with
  | readFails | eof | received | writeFails | passed => simp [State.goto, Action.closes]
  | closedLocal | closedRemote => cases side <;> simp [Action.closes]

theorem Copier.held_of_stopped {c : Copier} (h : c.stopped) : c.held = [] := by
  cases c with
  | writing chunk => exact h.elim
  | _ => rfl

@[simp] theorem held_afterWrite (chunk : Bytes) (k : Nat) :
    (afterWrite chunk k).held = chunk.drop k := by
  unfold afterWrite
  split
  · rename_i h
    exact h.symm
  · rfl

/-! ## No byte is made up -/

/-- What holds in every state: a chunk has bytes, and an endpoint has sent at
least what has been received, held and left of it. -/
structure Inv (sent : Side → Bytes) (s : State) : Prop where
  chunk_ne : ∀ src, s.copier src ≠ .writing []
  length_le : ∀ src, (s.got src.other).length + (s.copier src).held.length +
    (s.left src).length ≤ (sent src).length

theorem inv_start (sent : Side → Bytes) : Inv sent (start sent) where
  chunk_ne _ := by simp [start]
  length_le _ := by simp [start, Copier.held]

variable {sent : Side → Bytes}

theorem inv_step (hs : Inv sent s) (h : step s a = some t) : Inv sent t := by
  constructor
  · intro src
    have hne := hs.chunk_ne src
    cases flow_of_step h src with
    | idle _ _ hpc =>
      rcases hpc with hpc | ⟨_, hpc⟩
      · rwa [hpc]
      · intro heq
        rw [heq] at hpc
        exact hpc
    | received n _ _ hpos hle _ _ hpc' =>
      rw [hpc']
      intro heq
      have hlen := congrArg length (Copier.writing.inj heq)
      rw [length_take, length_nil] at hlen
      omega
    | passed k chunk _ _ _ _ _ _ hpc' =>
      rw [hpc']
      unfold afterWrite
      split
      · simp
      · rename_i hrest
        simpa using hrest
    | ended err _ _ _ hpc' =>
      rw [hpc']
      simp
  · intro src
    have hlen := hs.length_le src
    cases flow_of_step h src with
    | idle hleft hgot hpc =>
      rw [hleft, hgot]
      rcases hpc with hpc | ⟨_, hpc⟩
      · rwa [hpc]
      · rw [Copier.held_of_stopped hpc, length_nil]
        omega
    | received n hpc _ hpos hle hleft hgot hpc' =>
      rw [hleft, hgot, hpc', Copier.held, length_take, length_drop]
      omega
    | passed k chunk hpc _ hpos hle hleft hgot hpc' =>
      rw [hpc] at hlen
      rw [hleft, hgot, hpc', held_afterWrite, length_append, length_take, length_drop]
      simp only [Copier.held] at hlen
      omega
    | ended err hleft hgot _ hpc' =>
      rw [hleft, hgot, hpc', Copier.held, length_nil]
      omega

theorem inv_run {actions : List Action} (h : run step (start sent) actions = some s) : Inv sent s :=
  run_invariant (Inv sent) (fun _ _ _ hs h => inv_step hs h) (inv_start sent) h

/-! ## Closing an end in time -/

/-- No byte has to pass through the end any more. -/
def Drained (s : State) (side : Side) : Prop :=
  s.left side = [] ∧ s.left side.other = [] ∧ (s.copier side.other).held = []

/-- The action closes no end through which bytes still have to pass. -/
def ClosesDrained (s : State) (a : Action) : Prop :=
  ∀ side, a.closes = some side → Drained s side

instance (s : State) (side : Side) : Decidable (Drained s side) :=
  inferInstanceAs (Decidable (_ ∧ _ ∧ _))

instance (s : State) (a : Action) : Decidable (ClosesDrained s a) :=
  match h : a.closes with
  | none => isTrue (by simp [ClosesDrained, h])
  | some side => decidable_of_iff (Drained s side) (by simp [ClosesDrained, h])

/-- What holds as long as no end is closed too early. -/
structure Sound (sent : Side → Bytes) (s : State) : Prop where
  account : ∀ src, s.got src.other ++ (s.copier src).held ++ s.left src = sent src
  drained : ∀ side, s.closed side = true → Drained s side
  exhausted : ∀ src, (s.copier src).stopped → s.left src = []

theorem sound_start (sent : Side → Bytes) : Sound sent (start sent) where
  account _ := by simp [start, Copier.held]
  drained _ h := by cases h
  exhausted _ h := h.elim

theorem left_nil_step (h : step s a = some t) (hleft : s.left src = []) : t.left src = [] := by
  cases flow_of_step h src with
  | idle heq _ _ | passed k chunk _ _ _ _ heq _ _ | ended err heq _ _ _ => rwa [heq]
  | received n _ _ hpos hle _ _ _ =>
    rw [hleft, length_nil] at hle
    omega

theorem held_nil_step (h : step s a = some t) (hleft : s.left src = [])
    (hheld : (s.copier src).held = []) : (t.copier src).held = [] := by
  cases flow_of_step h src with
  | idle _ _ hpc =>
    rcases hpc with hpc | ⟨_, hpc⟩
    · rwa [hpc]
    · exact Copier.held_of_stopped hpc
  | received n _ _ hpos hle _ _ _ =>
    rw [hleft, length_nil] at hle
    omega
  | passed k chunk hpc _ hpos hle _ _ hpc' =>
    rw [hpc, Copier.held] at hheld
    rw [hheld, length_nil] at hle
    omega
  | ended err _ _ _ hpc' =>
    rw [hpc']
    rfl

theorem drained_step (h : step s a = some t) (hs : Drained s side) : Drained t side :=
  ⟨left_nil_step h hs.1, left_nil_step h hs.2.1, held_nil_step h hs.2.1 hs.2.2⟩

theorem sound_step (hinv : Inv sent s) (hs : Sound sent s) (hclose : ClosesDrained s a)
    (h : step s a = some t) : Sound sent t := by
  -- a write fails only at a closed end, through which nothing has to pass
  have hwrite : ∀ src chunk, s.copier src = .writing chunk → s.closed src.other = true → False := by
    intro src chunk hpc hclosed
    obtain ⟨_, _, hheld⟩ := hs.drained src.other hclosed
    rw [Side.other_other, hpc, Copier.held] at hheld
    exact hinv.chunk_ne src (hheld ▸ hpc)
  constructor
  case drained =>
    intro side hclosed
    apply drained_step h
    rcases (closed_iff_of_step h side).mp hclosed with hclosed | hcloses
    · exact hs.drained side hclosed
    · exact hclose side hcloses
  case account =>
    intro src
    have hacc := hs.account src
    cases flow_of_step h src with
    | idle hleft hgot hpc =>
      rw [hleft, hgot]
      rcases hpc with hpc | ⟨hpc, hpc'⟩
      · rwa [hpc]
      · rwa [Copier.held_of_stopped hpc', ← Copier.held_of_stopped hpc]
    | received n hpc _ _ _ hleft hgot hpc' =>
      rw [hpc, Copier.held, append_nil] at hacc
      rw [hleft, hgot, hpc', Copier.held, append_assoc, take_append_drop, hacc]
    | passed k chunk hpc _ _ _ hleft hgot hpc' =>
      rw [hpc, Copier.held] at hacc
      rw [hleft, hgot, hpc', held_afterWrite, append_assoc (s.got _), take_append_drop, hacc]
    | ended err hleft hgot hpc hpc' =>
      rcases hpc with ⟨hpc, _⟩ | ⟨chunk, hpc, hclosed⟩
      · rw [hpc] at hacc
        rw [hleft, hgot, hpc']
        exact hacc
      · exact (hwrite src chunk hpc hclosed).elim
  case exhausted =>
    intro src hstopped
    cases flow_of_step h src with
    | idle hleft hgot hpc =>
      rw [hleft]
      rcases hpc with hpc | ⟨hpc, _⟩
      · exact hs.exhausted src (hpc ▸ hstopped)
      · exact hs.exhausted src hpc
    | received n _ _ _ _ _ _ hpc' =>
      rw [hpc'] at hstopped
      exact hstopped.elim
    | passed k chunk _ _ _ _ _ _ hpc' =>
      rw [hpc', afterWrite] at hstopped
      split at hstopped <;> exact hstopped.elim
    | ended err hleft hgot hpc hpc' =>
      rw [hleft]
      rcases hpc with ⟨_, hclosed | hnil⟩ | ⟨chunk, hpc, hclosed⟩
      · exact (hs.drained src hclosed).1
      · exact hnil
      · exact (hwrite src chunk hpc hclosed).elim

/-! ## Closing an end too early -/

/-- Bytes of `src` that can no longer be received. -/
def Lost (sent : Side → Bytes) (s : State) (src : Side) : Prop :=
  s.closed src = true ∧ s.left src ≠ [] ∨
    s.closed src.other = true ∧ (s.got src.other).length < (sent src).length

theorem lost_step (hs : Lost sent s src) (h : step s a = some t) : Lost sent t src := by
  have hstays : ∀ side, s.closed side = true → t.closed side = true := fun side hclosed =>
    (closed_iff_of_step h side).mpr (.inl hclosed)
  rcases hs with ⟨hclosed, hleft⟩ | ⟨hclosed, hlt⟩
  · left
    refine ⟨hstays src hclosed, ?_⟩
    cases flow_of_step h src with
    | idle heq _ _ | passed k chunk _ _ _ _ heq _ _ | ended err heq _ _ _ => rwa [heq]
    | received n _ hopen _ _ _ _ _ =>
      rw [hclosed] at hopen
      cases hopen
  · right
    refine ⟨hstays src.other hclosed, ?_⟩
    cases flow_of_step h src with
    | idle _ heq _ | received n _ _ _ _ _ heq _ | ended err _ heq _ _ => rwa [heq]
    | passed k chunk _ hopen _ _ _ _ _ =>
      rw [hclosed] at hopen
      cases hopen

theorem bytes_of_closes (h : step s a = some t) (hcloses : a.closes = some side) :
    t.left = s.left ∧ t.got = s.got := by
  cases transition_of_step h with
  | readFails | eof | received | writeFails | passed => cases hcloses
  | closedLocal | closedRemote => exact ⟨rfl, rfl⟩

theorem lost_of_closes (hs : Inv sent s) (h : step s a = some t) (hclose : ¬ ClosesDrained s a) :
    ∃ src, Lost sent t src := by
  simp only [ClosesDrained, not_forall] at hclose
  obtain ⟨side, hcloses, hdrained⟩ := hclose
  have hclosed : t.closed side = true := (closed_iff_of_step h side).mpr (.inr hcloses)
  obtain ⟨hleft, hgot⟩ := bytes_of_closes h hcloses
  by_cases hnil : s.left side = []
  · -- what is missing comes from the other side
    refine ⟨side.other, .inr ⟨by simpa using hclosed, ?_⟩⟩
    have hlen := hs.length_le side.other
    have hpos : 0 < (s.copier side.other).held.length + (s.left side.other).length := by
      by_contra hzero
      have hl : s.left side.other = [] := length_eq_zero_iff.mp (by omega)
      have hh : (s.copier side.other).held = [] := length_eq_zero_iff.mp (by omega)
      exact hdrained ⟨hnil, hl, hh⟩
    rw [hgot]
    omega
  · refine ⟨side, .inl ⟨hclosed, ?_⟩⟩
    rwa [hleft]

theorem Lost.not_delivered (hs : Inv sent s) (hlost : Lost sent s src) :
    s.got src.other ≠ sent src := by
  intro heq
  have hlen := hs.length_le src
  rcases hlost with ⟨_, hleft⟩ | ⟨_, hlt⟩
  · have hpos := length_pos_iff.mpr hleft
    rw [heq] at hlen
    omega
  · rw [heq] at hlt
    omega

/-! ## Complete schedules -/

theorem exists_step (hs : Inv sent s) (hpc : s.copier src ≠ .done) : ∃ a t, step s a = some t := by
  cases hc : s.copier src with
  | reading =>
    refine ⟨.read src 1, ?_⟩
    simp only [step, hc]
    split_ifs with hclosed hleft hn
    · exact ⟨_, rfl⟩
    · exact ⟨_, rfl⟩
    · exact ⟨_, rfl⟩
    · have hpos := length_pos_iff.mpr hleft
      omega
  | writing chunk =>
    refine ⟨.write src 1, ?_⟩
    simp only [step, hc]
    split_ifs with hclosed hn
    · exact ⟨_, rfl⟩
    · exact ⟨_, rfl⟩
    · have hne : chunk ≠ [] := fun heq => hs.chunk_ne src (heq ▸ hc)
      have hpos := length_pos_iff.mpr hne
      omega
  | ended err =>
    refine ⟨.closeLocal src, ?_⟩
    simp only [step, hc]
    exact ⟨_, rfl⟩
  | closedLocal err =>
    refine ⟨.closeRemote src, ?_⟩
    simp only [step, hc]
    exact ⟨_, rfl⟩
  | done => exact absurd hc hpc

theorem done_of_stuck (hs : Inv sent s) (hstuck : ∀ a, step s a = none) (src : Side) :
    s.copier src = .done := by
  by_contra hpc
  obtain ⟨a, t, h⟩ := exists_step hs hpc
  rw [hstuck a] at h
  cases h

/-- The steps that a goroutine has before it outside of the loop. -/
def Copier.toGo : Copier → Nat
  | .reading | .writing _ => 3
  | .ended _ => 2
  | .closedLocal _ => 1
  | .done => 0

/-- A bound on the steps that a goroutine can still take. -/
def State.work (s : State) (src : Side) : Nat :=
  2 * (s.left src).length + (s.copier src).held.length + (s.copier src).toGo

theorem work_other_step (h : step s a = some t) : t.work a.src.other = s.work a.src.other := by
  have hne : ∀ side : Side, side.other ≠ side := Side.other_ne
  cases transition_of_step h with
  | readFails | eof | received | writeFails | passed | closedLocal | closedRemote =>
    simp [State.work, State.goto, Action.src, hne]

theorem work_src_step (h : step s a = some t) : t.work a.src < s.work a.src := by
  cases transition_of_step h with
  | readFails hpc | eof hpc | closedLocal hpc | closedRemote hpc =>
    simp [State.work, State.goto, Action.src, hpc, Copier.held, Copier.toGo]
  | received hpc =>
    simp only [State.work, State.goto, Action.src, hpc, update_self, Copier.held,
      Copier.toGo, length_nil, length_take, length_drop]
    omega
  | writeFails hpc =>
    simp only [State.work, State.goto, Action.src, hpc, update_self, Copier.held,
      Copier.toGo, length_nil]
    omega
  | @passed src k chunk hpc =>
    have hgo : (afterWrite chunk k).toGo = 3 := by
      unfold afterWrite
      split <;> rfl
    simp only [State.work, State.goto, Action.src, hpc, hgo, update_self,
      held_afterWrite, length_drop]
    simp only [Copier.held, Copier.toGo]
    omega

def State.totalWork (s : State) : Nat := s.work .localEnd + s.work .remoteEnd

theorem totalWork_step (h : step s a = some t) : t.totalWork < s.totalWork := by
  have hsrc := work_src_step h
  have hother := work_other_step h
  unfold State.totalWork
  cases hside : a.src with
  | localEnd | remoteEnd =>
    rw [hside] at hsrc hother
    simp only [Side.other] at hother
    omega

theorem schedule_length_le {actions : List Action} (hrun : run step (start sent) actions = some s) :
    actions.length ≤ 2 * ((sent .localEnd).length + (sent .remoteEnd).length) + 6 := by
  have hle := run_length_le (fun _ => True) (fun _ _ => True) State.totalWork
    (fun _ _ _ _ _ h => ⟨True.intro, totalWork_step h⟩) True.intro
    (along_of_forall (fun _ _ _ => True.intro) _) hrun
  have hstart : (start sent).totalWork =
      2 * ((sent .localEnd).length + (sent .remoteEnd).length) + 6 := by
    simp only [State.totalWork, State.work, start, Copier.held, Copier.toGo, length_nil]
    omega
  omega

/-- **Delivery.**  When both goroutines have come to their end, each endpoint
has received what the other has sent exactly if every end was closed only after
all bytes had passed through it. -/
theorem delivered_iff {sent : Side → Bytes} {actions : List Action}
    (hrun : run step (start sent) actions = some s) (hstuck : ∀ a, step s a = none) :
    (∀ src, s.got src.other = sent src) ↔ Along step ClosesDrained (start sent) actions := by
  constructor
  · intro hall
    by_contra halong
    have hocc : Occurs step (fun s a => ¬ ClosesDrained s a) (start sent) actions := by
      by_contra hnot
      exact halong (Along.mono_of_invariant (fun _ => True) (fun _ _ _ _ _ _ => True.intro)
        (fun _ _ _ h => not_not.mp h) True.intro (along_not_of_not_occurs hnot))
    have hlost : ∃ src, Lost sent s src :=
      run_established (Inv sent) (fun s => ∃ src, Lost sent s src) _
        (fun _ _ _ hs h => inv_step hs h) (fun _ _ _ hs hP h => lost_of_closes hs h hP)
        (fun _ _ _ hs h => hs.imp fun _ hlost => lost_step hlost h) (inv_start sent) hocc hrun
    obtain ⟨src, hlost⟩ := hlost
    exact hlost.not_delivered (inv_run hrun) (hall src)
  · intro halong src
    have hsound : Inv sent s ∧ Sound sent s :=
      run_invariant_along (fun s => Inv sent s ∧ Sound sent s) ClosesDrained
        (fun _ _ _ hs hP h => ⟨inv_step hs.1 h, sound_step hs.1 hs.2 hP h⟩)
        ⟨inv_start sent, sound_start sent⟩ halong hrun
    have hdone := done_of_stuck hsound.1 hstuck src
    have hacc := hsound.2.account src
    have hleft : s.left src = [] := by
      apply hsound.2.exhausted
      rw [hdone]
      exact True.intro
    rw [hdone, hleft, Copier.held, append_nil, append_nil] at hacc
    exact hacc

/-- A local endpoint that sends a request to one that does not answer. -/
def request : Side → Bytes
  | .localEnd => ascii "hi"
  | .remoteEnd => []

/-- The request is copied before the remote half-close is noticed. -/
def copiedFirst : List Action :=
  [.read .localEnd 2, .write .localEnd 1, .write .localEnd 1, .read .remoteEnd 0,
    .closeLocal .remoteEnd, .read .localEnd 0, .closeRemote .remoteEnd, .closeLocal .localEnd,
    .closeRemote .localEnd]

theorem delivered_copiedFirst :
    ∃ s, run step (start request) copiedFirst = some s ∧
      ∀ src, s.got src.other = request src := by
  refine ⟨_, rfl, ?_⟩
  have hrun : run step (start request) copiedFirst = some _ := rfl
  refine (delivered_iff hrun ?_).mpr (by decide)
  rintro (⟨_ | _, _⟩ | ⟨_ | _, _⟩ | ⟨_ | _⟩ | ⟨_ | _⟩) <;> rfl

/-- The remote half-close is noticed before the request is read. -/
def closedFirst : List Action :=
  [.read .remoteEnd 0, .closeLocal .remoteEnd, .closeRemote .remoteEnd, .read .localEnd 1,
    .closeLocal .localEnd, .closeRemote .localEnd]

/-- Then no byte of the request arrives. -/
theorem closedFirst_loses :
    ∃ s, run step (start request) closedFirst = some s ∧ (∀ a, step s a = none) ∧
      s.got .remoteEnd = [] ∧ request .localEnd ≠ [] := by
  refine ⟨_, rfl, ?_, rfl, by decide⟩
  rintro (⟨_ | _, _⟩ | ⟨_ | _, _⟩ | ⟨_ | _⟩ | ⟨_ | _⟩) <;> rfl

theorem exists_copied (side : Side) (hpc : s.copier side = .reading)
    (hopen : ∀ x, s.closed x = false) :
    ∃ actions m, run step s actions = some m ∧ m.left side = [] ∧
      m.left side.other = s.left side.other ∧ m.copier side = .reading ∧ m.closed = s.closed := by
  by_cases hnil : s.left side = []
  · exact ⟨[], s, rfl, hnil, rfl, hpc, rfl⟩
  have hpos := length_pos_iff.mpr hnil
  let r : State := { s.goto side (.writing (s.left side)) with
    left := update s.left side [] }
  let m : State := { r.goto side .reading with
    got := update r.got side.other (r.got side.other ++ s.left side) }
  have hread : step s (.read side (s.left side).length) = some r := by
    simp [step, hpc, hopen, hnil, hpos, r]
  have hwrite : step r (.write side (s.left side).length) = some m := by
    have hr : r.copier side = .writing (s.left side) := goto_copier_self ..
    have hr' : r.closed side.other = false := hopen side.other
    simp [step, hr, hr', hpos, afterWrite, m]
  refine ⟨_, m, run_cons.mpr ⟨r, hread, run_cons.mpr ⟨m, hwrite, run_nil m⟩⟩, ?_, ?_, ?_, rfl⟩
  · exact update_self ..
  · exact update_of_ne (Side.other_ne side) ..
  · exact goto_copier_self ..

/-- Unless it has nothing to send, an endpoint can be cut off: the other one is
served first. -/
theorem exists_cut_off (hne : sent side ≠ []) :
    ∃ actions t src, run step (start sent) actions = some t ∧ Lost sent t src := by
  obtain ⟨copying, c, hcopy, hnil, hleft, hpc, hclosed⟩ :=
    exists_copied (s := start sent) side.other rfl (fun _ => rfl)
  rw [Side.other_other] at hleft
  let m := c.goto side.other (.ended false)
  have heof : step c (.read side.other 0) = some m := by
    simp [step, hpc, hclosed, hnil, start, m]
  have hpre := run_append.mpr ⟨c, hcopy, run_cons.mpr ⟨m, heof, run_nil m⟩⟩
  have ht : ∃ t, step m (.closeLocal side.other) = some t := by
    have hm : m.copier side.other = .ended false := goto_copier_self ..
    simp only [step, hm]
    exact ⟨_, rfl⟩
  obtain ⟨t, ht⟩ := ht
  have hleft : m.left side = sent side := hleft
  have hclose : ¬ ClosesDrained m (.closeLocal side.other) := by
    intro h
    have hdrained := h .localEnd rfl
    cases side with
    | localEnd => exact hne (hleft ▸ hdrained.1)
    | remoteEnd => exact hne (hleft ▸ hdrained.2.1)
  obtain ⟨src, hlost⟩ := lost_of_closes (inv_run hpre) ht hclose
  exact ⟨_, t, src, run_append.mpr ⟨m, hpre, run_cons.mpr ⟨t, ht, run_nil t⟩⟩, hlost⟩

/-- Delivery does not depend on the schedule only if there is nothing to deliver. -/
theorem delivered_always_iff :
    (∀ actions s, run step (start sent) actions = some s → (∀ a, step s a = none) →
      ∀ src, s.got src.other = sent src) ↔ ∀ side, sent side = [] := by
  constructor
  · intro hall side
    by_contra hne
    obtain ⟨actions, t, src, hrun, hlost⟩ := exists_cut_off hne
    have hfinish : ∃ rest u, run step t rest = some u ∧ ∀ a, step u a = none :=
      exists_run_stuck (fun _ => True) State.totalWork
        (fun _ _ _ _ h => ⟨True.intro, totalWork_step h⟩) True.intro
    obtain ⟨rest, u, hrest, hstuck⟩ := hfinish
    have hwhole := run_append.mpr ⟨t, hrun, hrest⟩
    have hlost' : Lost sent u src :=
      run_invariant (Lost sent · src) (fun _ _ _ hs h => lost_step hs h) hlost hrest
    exact hlost'.not_delivered (inv_run hwhole) (hall _ u hwhole hstuck src)
  · intro hnil actions s hrun _ src
    have hlen := (inv_run hrun).length_le src
    rw [hnil src, length_nil] at hlen
    rw [hnil src]
    exact length_eq_zero_iff.mp (by omega)

end StreamCopy
