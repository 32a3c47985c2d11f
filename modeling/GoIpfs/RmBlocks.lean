import GoIpfs.StepRun
import Mathlib.Data.List.Perm.Subperm
import Mathlib.Logic.Function.Basic

/-!
# Removing blocks

`RmBlocks` and `FilterPinned` of `blocks/blockstoreutil/remove.go`.  The
goroutine holds the lock of the garbage collector while it sends its results to
a channel that nobody may be reading, so it matters that the channel has room
for all of them.  The machine interleaves the goroutine with a reader of the
channel; a send is a step of its own that waits for room.

`rmBlocks_safe` collects what holds after every schedule, and `exists_finished`
says that the goroutine gets to its end, and gives the lock back, without a
reader.
-/

namespace RmBlocks

open StepRun List

/-- `pin.Mode`. -/
inductive Mode where
  | recursive
  | direct
  | indirect
  | internal
  | notPinned
  | any
  /-- An integer that is no mode. -/
  | unknown
  deriving DecidableEq, Repr

/-- `ModeToString`. -/
def modeToString : Mode → String
  | .recursive => "recursive"
  | .direct => "direct"
  | .indirect => "indirect"
  | .internal => "internal"
  | .notPinned => "not pinned"
  | .any => "any"
  | .unknown => ""

/-- `pin.Pinned`. -/
structure Pinned (Cid : Type) where
  key : Cid
  mode : Mode
  via : Cid

variable {Cid : Type}

/-- `Pinned.Pinned`. -/
def Pinned.pinned (p : Pinned Cid) : Bool := p.mode ≠ .notPinned

/-- `Pinned.String`. -/
def Pinned.string (str : Cid → String) (p : Pinned Cid) : String :=
  match p.mode with
  | .notPinned => "not pinned"
  | .indirect => "pinned via " ++ str p.via
  | mode => "pinned: " ++ modeToString mode

/-- What `CheckIfPinned` answers for `cids`: entries for all of them, in any order,
at most one for each element.  Two entries of a CID that is listed twice need not
agree. -/
structure Answer (cids : List Cid) where
  entries : List (Pinned Cid)
  subperm : (entries.map Pinned.key).Subperm cids
  covers : ∀ c ∈ cids, ∃ r ∈ entries, r.key = c

/-- There are at most as many entries as CIDs. -/
theorem Answer.length_le {cids : List Cid} (a : Answer cids) : a.entries.length ≤ cids.length := by
  simpa using a.subperm.length_le

/-- A call of `RmBlocks` with the answers that it gets. -/
structure Call (Cid : Type) where
  cids : List Cid
  quiet : Bool
  force : Bool
  /-- The answer of the pinner, or its error. -/
  check : Except String (Answer cids)
  /-- The error of the `n`th call of `Has`. -/
  hasError : Nat → Option String
  /-- The error of the `n`th call of `DeleteBlock`. -/
  deleteError : Nat → Option String
  /-- `Cid.String`. -/
  str : Cid → String

/-- All entries of one CID say the same, as those of the pinner of go-ipfs do: it
reports a CID that it finds in one of its sets, and only the rest as not pinned. -/
def Call.Agrees (call : Call Cid) : Prop :=
  ∀ a, call.check = .ok a → ∀ r ∈ a.entries, ∀ r' ∈ a.entries, r.key = r'.key →
    r.pinned = r'.pinned

/-- `blockstoreutil.RemovedBlock`. -/
structure RemovedBlock where
  hash : String
  error : String
  deriving DecidableEq, Repr

/-- `blockstore.ErrNotFound`. -/
def errNotFound : String := "blockstore: block not found"

/-- The result that `FilterPinned` sends if the pin check fails. -/
def checkFailed (e : String) : RemovedBlock := ⟨"", "pin check failed: " ++ e⟩

/-- Where the goroutine is.  It holds the garbage collection lock after `locking`
and until it has finished. -/
inductive Phase (Cid : Type) where
  | locking
  | checking
  /-- In the loop of `FilterPinned`. -/
  | filtering (res : List (Pinned Cid)) (stillOkay : List Cid)
  /-- In the loop of `RmBlocks`. -/
  | removing (stillOkay : List Cid)
  | sending (r : RemovedBlock) (next : Phase Cid)
  | finished

/-- The goroutine, its channel, and the calls that it has made. -/
structure State (Cid : Type) where
  phase : Phase Cid
  store : Cid → Bool
  /-- The results in the channel, and those that have been read from it. -/
  buffer : List RemovedBlock
  received : List RemovedBlock
  hasCalls : List (Cid × Except String Bool)
  deleteCalls : List (Cid × Option String)

/-- The call has been made. -/
def State.start (store : Cid → Bool) : State Cid where
  phase := .locking
  store := store
  buffer := []
  received := []
  hasCalls := []
  deleteCalls := []

variable [DecidableEq Cid] (call : Call Cid)

/-- The loop body of `FilterPinned`. -/
def filterOne (r : Pinned Cid) (res : List (Pinned Cid)) (stillOkay : List Cid) : Phase Cid :=
  if r.pinned then
    .sending ⟨call.str r.key, r.string call.str⟩ (.filtering res stillOkay)
  else .filtering res (stillOkay ++ [r.key])

/-- `DeleteBlock` in the loop body of `RmBlocks`. -/
def deleteOne (c : Cid) (rest : List Cid) (s : State Cid) : State Cid :=
  match call.deleteError s.deleteCalls.length with
  | some e =>
    { s with
      deleteCalls := s.deleteCalls ++ [(c, some e)]
      phase := .sending ⟨call.str c, e⟩ (.removing rest) }
  | none =>
    { s with
      deleteCalls := s.deleteCalls ++ [(c, none)]
      store := Function.update s.store c false
      phase :=
        if call.quiet then .removing rest else .sending ⟨call.str c, ""⟩ (.removing rest) }

/-- The loop body of `RmBlocks`. -/
def removeOne (c : Cid) (rest : List Cid) (s : State Cid) : State Cid :=
  match call.hasError s.hasCalls.length with
  | some e =>
    { s with
      hasCalls := s.hasCalls ++ [(c, .error e)]
      phase := .sending ⟨call.str c, e⟩ (.removing rest) }
  | none =>
    let s' := { s with hasCalls := s.hasCalls ++ [(c, .ok (s.store c))] }
    if !s.store c && !call.force then
      { s' with phase := .sending ⟨call.str c, errNotFound⟩ (.removing rest) }
    else deleteOne call c rest s'

/-- A step of the goroutine; `none` if a send has to wait. -/
def work (s : State Cid) : Option (State Cid) :=
  match s.phase with
  | .locking => some { s with phase := .checking }
  | .checking =>
    match call.check with
    | .error e => some { s with phase := .sending (checkFailed e) (.removing []) }
    | .ok a => some { s with phase := .filtering a.entries [] }
  | .filtering [] stillOkay => some { s with phase := .removing stillOkay }
  | .filtering (r :: res) stillOkay => some { s with phase := filterOne call r res stillOkay }
  | .removing [] => some { s with phase := .finished }
  | .removing (c :: rest) => some (removeOne call c rest s)
  | .sending r next =>
    -- the capacity of the channel
    if s.buffer.length < call.cids.length then
      some { s with buffer := s.buffer ++ [r], phase := next }
    else none
  | .finished => none

/-- The goroutine goes on, or its reader receives a result. -/
inductive Action where
  | work
  | receive
  deriving DecidableEq, Repr

/-- A step of the goroutine or of its reader. -/
def step (s : State Cid) : Action → Option (State Cid)
  | .work => work call s
  | .receive =>
    match s.buffer with
    | [] => none
    | r :: buffer => some { s with buffer := buffer, received := s.received ++ [r] }

/-! ## The results -/

/-- All results that have been sent. -/
def State.sent (s : State Cid) : List RemovedBlock := s.received ++ s.buffer

/-- The results that wait to be sent. -/
def Phase.promised : Phase Cid → List RemovedBlock
  | .sending r next => r :: next.promised
  | .locking | .checking | .filtering .. | .removing _ | .finished => []

/-- The results that have been sent or wait to be. -/
def State.results (s : State Cid) : List RemovedBlock := s.sent ++ s.phase.promised

/-- The number of results that may still be sent. -/
def Phase.budget : Phase Cid → Nat
  | .locking | .checking => call.cids.length
  | .filtering res stillOkay => res.length + stillOkay.length
  | .removing stillOkay => stillOkay.length
  | .sending _ next => next.budget + 1
  | .finished => 0

/-- The CIDs that `FilterPinned` has let through. -/
def Phase.waiting : Phase Cid → List Cid
  | .filtering _ stillOkay => stillOkay
  | .removing stillOkay => stillOkay
  | .sending _ next => next.waiting
  | .locking | .checking | .finished => []

/-- The entries that `FilterPinned` has not looked at. -/
def Phase.unfiltered : Phase Cid → List (Pinned Cid)
  | .filtering res _ => res
  | .sending _ next => next.unfiltered
  | .locking | .checking | .removing _ | .finished => []

/-- The pinner has not been asked. -/
def Phase.early : Phase Cid → Prop
  | .locking | .checking => True
  | .sending _ next => next.early
  | .filtering .. | .removing _ | .finished => False

/-! ## What a step can do -/

variable {call} {s t : State Cid} {store₀ : Cid → Bool}

/-- The ways in which the loop body ends: the block is reported, or deleted. -/
inductive Removed (call : Call Cid) (c : Cid) (rest : List Cid) (s t : State Cid) : Prop
  | hasFailed (e : String) (hhas : t.hasCalls = s.hasCalls ++ [(c, .error e)])
      (hdelete : t.deleteCalls = s.deleteCalls) (hstore : t.store = s.store)
      (hphase : t.phase = .sending ⟨call.str c, e⟩ (.removing rest))
  | missing (hmissing : s.store c = false) (hforce : call.force = false)
      (hhas : t.hasCalls = s.hasCalls ++ [(c, .ok (s.store c))])
      (hdelete : t.deleteCalls = s.deleteCalls) (hstore : t.store = s.store)
      (hphase : t.phase = .sending ⟨call.str c, errNotFound⟩ (.removing rest))
  | deleteFailed (e : String) (hthere : s.store c = true ∨ call.force = true)
      (hhas : t.hasCalls = s.hasCalls ++ [(c, .ok (s.store c))])
      (hdelete : t.deleteCalls = s.deleteCalls ++ [(c, some e)]) (hstore : t.store = s.store)
      (hphase : t.phase = .sending ⟨call.str c, e⟩ (.removing rest))
  | deleted (hthere : s.store c = true ∨ call.force = true)
      (hhas : t.hasCalls = s.hasCalls ++ [(c, .ok (s.store c))])
      (hdelete : t.deleteCalls = s.deleteCalls ++ [(c, none)])
      (hstore : t.store = Function.update s.store c false)
      (hphase : t.phase = .removing rest ∨ t.phase = .sending ⟨call.str c, ""⟩ (.removing rest))

/-- The loop body ends in one of the four ways and sends nothing itself. -/
theorem removed_removeOne (call : Call Cid) (c : Cid) (rest : List Cid) (s : State Cid) :
    Removed call c rest s (removeOne call c rest s) ∧ (removeOne call c rest s).sent = s.sent := by
  unfold removeOne
  split
  · exact ⟨.hasFailed _ rfl rfl rfl rfl, rfl⟩
  simp only []
  split
  · rename_i hmissing
    simp only [Bool.and_eq_true, Bool.not_eq_true'] at hmissing
    exact ⟨.missing hmissing.1 hmissing.2 rfl rfl rfl rfl, rfl⟩
  have hthere : s.store c = true ∨ call.force = true := by
    cases hstore : s.store c <;> cases hforce : call.force <;> simp_all
  unfold deleteOne
  split
  · exact ⟨.deleteFailed _ hthere rfl rfl rfl rfl, rfl⟩
  · refine ⟨.deleted hthere rfl rfl rfl ?_, rfl⟩
    split
    · exact .inl rfl
    · exact .inr rfl

variable {c : Cid} {rest : List Cid}

/-- The loop goes on, perhaps after a result. -/
theorem Removed.next (h : Removed call c rest s t) :
    t.phase = .removing rest ∨ ∃ r, t.phase = .sending r (.removing rest) := by
  cases h with
  | hasFailed e _ _ _ hphase | missing _ _ _ _ _ hphase | deleteFailed e _ _ _ _ hphase =>
    exact .inr ⟨_, hphase⟩
  | deleted _ _ _ _ hphase => exact hphase.imp_right fun hphase => ⟨_, hphase⟩

/-- One CID is dealt with, for at most one result. -/
theorem Removed.phase_facts (h : Removed call c rest s t) :
    t.phase.waiting = rest ∧ t.phase.unfiltered = [] ∧ t.phase.budget call ≤ rest.length + 1 := by
  rcases h.next with hphase | ⟨r, hphase⟩
  · rw [hphase]
    exact ⟨rfl, rfl, Nat.le_succ _⟩
  · rw [hphase]
    exact ⟨rfl, rfl, Nat.le_refl _⟩

/-- The loop runs after the pin check. -/
theorem Removed.not_early (h : Removed call c rest s t) : ¬ t.phase.early := by
  rcases h.next with hphase | ⟨r, hphase⟩ <;> rw [hphase] <;> exact id

/-- The steps of the goroutine that make no calls. -/
inductive Moves (call : Call Cid) : Phase Cid → Phase Cid → Prop
  | began : Moves call .locking .checking
  | checkFailed (e : String) (hcheck : call.check = .error e) :
      Moves call .checking (.sending (checkFailed e) (.removing []))
  | checked (a : Answer call.cids) (hcheck : call.check = .ok a) :
      Moves call .checking (.filtering a.entries [])
  | filtered (stillOkay : List Cid) : Moves call (.filtering [] stillOkay) (.removing stillOkay)
  | refused (r : Pinned Cid) (res : List (Pinned Cid)) (stillOkay : List Cid)
      (hpinned : r.pinned = true) :
      Moves call (.filtering (r :: res) stillOkay)
        (.sending ⟨call.str r.key, r.string call.str⟩ (.filtering res stillOkay))
  | passed (r : Pinned Cid) (res : List (Pinned Cid)) (stillOkay : List Cid)
      (hpinned : r.pinned = false) :
      Moves call (.filtering (r :: res) stillOkay) (.filtering res (stillOkay ++ [r.key]))
  | ended : Moves call (.removing []) .finished

/-- Nothing has been asked of the store, or done to it. -/
structure SameCalls (s t : State Cid) : Prop where
  store : t.store = s.store
  has : t.hasCalls = s.hasCalls
  delete : t.deleteCalls = s.deleteCalls

/-- What a step of the goroutine can do. -/
inductive Worked (call : Call Cid) (s t : State Cid) : Prop
  | moved (hmoves : Moves call s.phase t.phase) (hsame : SameCalls s t) (hsent : t.sent = s.sent)
  | removed (c : Cid) (rest : List Cid) (hphase : s.phase = .removing (c :: rest))
      (hremoved : Removed call c rest s t) (hsent : t.sent = s.sent)
  | sent (r : RemovedBlock) (hphase : s.phase = .sending r t.phase) (hsame : SameCalls s t)
      (hsent : t.sent = s.sent ++ [r])

omit [DecidableEq Cid] in
/-- The loop body of `FilterPinned` refuses an entry or lets it pass. -/
theorem moves_filterOne (r : Pinned Cid) (res : List (Pinned Cid)) (stillOkay : List Cid) :
    Moves call (.filtering (r :: res) stillOkay) (filterOne call r res stillOkay) := by
  unfold filterOne
  split
  · rename_i hpinned
    exact .refused r res stillOkay hpinned
  · rename_i hpinned
    exact .passed r res stillOkay (by simpa using hpinned)

/-- **Inversion.** Every step of the goroutine is one of these. -/
theorem worked_of_work (h : work call s = some t) : Worked call s t := by
  unfold work at h
  split at h
  case h_1 hphase =>
    cases h
    exact .moved (hphase ▸ .began) ⟨rfl, rfl, rfl⟩ rfl
  case h_2 hphase =>
    split at h
    · rename_i e hcheck
      cases h
      exact .moved (hphase ▸ .checkFailed e hcheck) ⟨rfl, rfl, rfl⟩ rfl
    · rename_i a hcheck
      cases h
      exact .moved (hphase ▸ .checked a hcheck) ⟨rfl, rfl, rfl⟩ rfl
  case h_3 stillOkay hphase =>
    cases h
    exact .moved (hphase ▸ .filtered stillOkay) ⟨rfl, rfl, rfl⟩ rfl
  case h_4 r res stillOkay hphase =>
    cases h
    exact .moved (hphase ▸ moves_filterOne r res stillOkay) ⟨rfl, rfl, rfl⟩ rfl
  case h_5 hphase =>
    cases h
    exact .moved (hphase ▸ .ended) ⟨rfl, rfl, rfl⟩ rfl
  case h_6 c rest hphase =>
    cases h
    obtain ⟨hremoved, hsent⟩ := removed_removeOne call c rest s
    exact .removed c rest hphase hremoved hsent
  case h_7 r next hphase =>
    obtain ⟨_, rfl⟩ := guard_passed h
    exact .sent r hphase ⟨rfl, rfl, rfl⟩ (append_assoc ..).symm
  case h_8 => cases h

/-- Receiving concerns the channel alone. -/
theorem receive_facts (h : step call s .receive = some t) :
    t.phase = s.phase ∧ SameCalls s t ∧ t.sent = s.sent := by
  simp only [step] at h
  split at h
  · cases h
  · rename_i r buffer hbuffer
    cases h
    exact ⟨rfl, ⟨rfl, rfl, rfl⟩, by simp [State.sent, hbuffer]⟩

/-! ## Room in the channel -/

/-- The results that have been sent and those that may follow fit into the channel. -/
def Room (call : Call Cid) (s : State Cid) : Prop :=
  s.sent.length + s.phase.budget call ≤ call.cids.length

variable {p q : Phase Cid}

omit [DecidableEq Cid] in
/-- No such step makes room for more results. -/
theorem Moves.budget_le (hne : call.cids ≠ []) (h : Moves call p q) :
    q.budget call ≤ p.budget call := by
  cases h with
  | began | ended => exact Nat.le_refl _
  | checkFailed e _ => exact length_pos_iff.mpr hne
  | checked a _ => exact a.length_le
  | filtered stillOkay => exact Nat.le_add_left ..
  | refused r res stillOkay _ =>
    simp only [Phase.budget, length_cons]
    omega
  | passed r res stillOkay _ =>
    simp only [Phase.budget, length_cons, length_append, length_nil]
    omega

/-- The goroutine never needs more room than the channel has. -/
theorem room_work (hne : call.cids ≠ []) (hs : Room call s) (h : work call s = some t) :
    Room call t := by
  unfold Room at hs ⊢
  cases worked_of_work h with
  | moved hmoves _ hsent =>
    have hle := hmoves.budget_le hne
    rw [hsent]
    omega
  | removed c rest hphase hremoved hsent =>
    obtain ⟨_, _, hbudget⟩ := hremoved.phase_facts
    rw [hphase] at hs
    rw [hsent]
    simp only [Phase.budget, length_cons] at hs
    omega
  | sent r hphase _ hsent =>
    rw [hphase] at hs
    rw [hsent, length_append, length_singleton]
    simp only [Phase.budget] at hs
    omega

/-- With room in the channel the goroutine is not blocked. -/
theorem exists_work (hs : Room call s) (hphase : s.phase ≠ .finished) :
    ∃ t, work call s = some t := by
  unfold work
  split
  case h_2 => split <;> exact ⟨_, rfl⟩
  case h_7 r next hsending =>
    unfold Room at hs
    rw [hsending] at hs
    simp only [State.sent, Phase.budget, length_append] at hs
    rw [if_pos (by omega)]
    exact ⟨_, rfl⟩
  case h_8 hfinished => exact absurd hfinished hphase
  all_goals exact ⟨_, rfl⟩

/-! ## Only unpinned blocks are deleted -/

/-- The entry is one of the answer of the pinner. -/
def Genuine (call : Call Cid) (r : Pinned Cid) : Prop :=
  ∃ a, call.check = .ok a ∧ r ∈ a.entries

/-- The pinner has been asked, and some entry of the CID says that it is not pinned. -/
def Unpinned (call : Call Cid) (c : Cid) : Prop :=
  ∃ a, call.check = .ok a ∧ ∃ r ∈ a.entries, r.key = c ∧ r.pinned = false

/-- What a phase still works on comes from the pinner. -/
structure Phase.Clear (call : Call Cid) (p : Phase Cid) : Prop where
  unfiltered : ∀ r ∈ p.unfiltered, Genuine call r
  waiting : ∀ c ∈ p.waiting, Unpinned call c

omit [DecidableEq Cid] in
/-- Nothing is left to do. -/
theorem Phase.clear_of_nil (hunfiltered : p.unfiltered = []) (hwaiting : p.waiting = []) :
    p.Clear call := by
  constructor
  · rw [hunfiltered]
    exact forall_mem_nil _
  · rw [hwaiting]
    exact forall_mem_nil _

omit [DecidableEq Cid] in
/-- An entry that passes is one that is not pinned. -/
theorem Moves.clear (h : Moves call p q) (hp : p.Clear call) : q.Clear call := by
  cases h with
  | began | checkFailed e _ | ended => exact Phase.clear_of_nil rfl rfl
  | checked a hcheck =>
    exact ⟨fun r hr => ⟨a, hcheck, hr⟩, forall_mem_nil _⟩
  | filtered stillOkay => exact ⟨forall_mem_nil _, hp.waiting⟩
  | refused r res stillOkay _ =>
    exact ⟨fun e he => hp.unfiltered e (mem_cons_of_mem r he), hp.waiting⟩
  | passed r res stillOkay hpinned =>
    refine ⟨fun e he => hp.unfiltered e (mem_cons_of_mem r he), ?_⟩
    intro c hc
    rcases mem_append.mp hc with hc | hc
    · exact hp.waiting c hc
    · obtain ⟨a, hcheck, hmem⟩ := hp.unfiltered r mem_cons_self
      exact ⟨a, hcheck, r, hmem, (mem_singleton.mp hc).symm, hpinned⟩

/-- What has been let through, deleted and stored. -/
structure Safe (call : Call Cid) (store₀ : Cid → Bool) (s : State Cid) : Prop where
  clear : s.phase.Clear call
  deleted : ∀ d ∈ s.deleteCalls, Unpinned call d.1
  store_iff : ∀ c, s.store c = true ↔ store₀ c = true ∧ (c, none) ∉ s.deleteCalls

omit [DecidableEq Cid] in
/-- Nothing has been deleted. -/
theorem safe_start (store₀ : Cid → Bool) : Safe call store₀ (.start store₀) where
  clear := Phase.clear_of_nil rfl rfl
  deleted _ h := by cases h
  store_iff := by simp [State.start]

omit [DecidableEq Cid] in
/-- Safety concerns the phase and the calls. -/
theorem Safe.of_same (hs : Safe call store₀ s) (hsame : SameCalls s t)
    (hclear : t.phase.Clear call) : Safe call store₀ t where
  clear := hclear
  deleted := by
    rw [hsame.delete]
    exact hs.deleted
  store_iff := by
    rw [hsame.delete, hsame.store]
    exact hs.store_iff

/-- The loop body deletes what was let through, and nothing else. -/
theorem safe_removed (hs : Safe call store₀ s) (hphase : s.phase = .removing (c :: rest))
    (h : Removed call c rest s t) : Safe call store₀ t := by
  obtain ⟨hw, hu, _⟩ := h.phase_facts
  have hwaiting := hs.clear.waiting
  rw [hphase] at hwaiting
  have hclear : t.phase.Clear call := by
    constructor
    · rw [hu]
      exact forall_mem_nil _
    · rw [hw]
      exact fun x hx => hwaiting x (mem_cons_of_mem c hx)
  have hdeleted : ∀ e, ∀ d ∈ s.deleteCalls ++ [(c, e)], Unpinned call d.1 := by
    intro e d hd
    rcases mem_append.mp hd with hd | hd
    · exact hs.deleted d hd
    · rw [mem_singleton.mp hd]
      exact hwaiting c mem_cons_self
  cases h with
  | hasFailed e _ hdelete hstore _ | missing _ _ _ hdelete hstore _ =>
    exact ⟨hclear, hdelete ▸ hs.deleted, hdelete ▸ hstore ▸ hs.store_iff⟩
  | deleteFailed e _ _ hdelete hstore _ =>
    refine ⟨hclear, hdelete ▸ hdeleted (some e), ?_⟩
    intro x
    rw [hdelete, hstore, hs.store_iff x]
    simp
  | deleted _ _ hdelete hstore _ =>
    refine ⟨hclear, hdelete ▸ hdeleted none, ?_⟩
    intro x
    rw [hdelete, hstore]
    by_cases hx : x = c
    · subst hx
      simp
    · rw [Function.update_of_ne hx, hs.store_iff x]
      simp [hx]

/-- **Every step is safe.** -/
theorem safe_work (hs : Safe call store₀ s) (h : work call s = some t) : Safe call store₀ t := by
  cases worked_of_work h with
  | moved hmoves hsame _ => exact hs.of_same hsame (hmoves.clear hs.clear)
  | removed c rest hphase hremoved _ => exact safe_removed hs hphase hremoved
  | sent r hphase hsame _ =>
    have hclear := hs.clear
    rw [hphase] at hclear
    exact hs.of_same hsame ⟨hclear.unfiltered, hclear.waiting⟩

/-! ## Every failure is reported -/

/-- The calls that failed have their results. -/
structure Reported (call : Call Cid) (store₀ : Cid → Bool) (s : State Cid) : Prop where
  hasFailed : ∀ c e, (c, .error e) ∈ s.hasCalls → ⟨call.str c, e⟩ ∈ s.results
  missing : ∀ c b, (c, .ok b) ∈ s.hasCalls → store₀ c = false → call.force = false →
    ⟨call.str c, errNotFound⟩ ∈ s.results
  deleteFailed : ∀ c e, (c, some e) ∈ s.deleteCalls → ⟨call.str c, e⟩ ∈ s.results

section

omit [DecidableEq Cid]

/-- Nothing has failed. -/
theorem reported_start : Reported call store₀ (.start store₀) where
  hasFailed _ _ h := by cases h
  missing _ _ h := by cases h
  deleteFailed _ _ h := by cases h

/-- One more `Has`, and perhaps one more `DeleteBlock`, whose failures are reported. -/
theorem Reported.append (hs : Reported call store₀ s) {b : Except String Bool}
    {delete : List (Option String)} (hhas : t.hasCalls = s.hasCalls ++ [(c, b)])
    (hdelete : t.deleteCalls = s.deleteCalls ++ delete.map (c, ·))
    (hresults : ∀ r ∈ s.results, r ∈ t.results)
    (hfailed : ∀ e, b = .error e → ⟨call.str c, e⟩ ∈ t.results)
    (hmissing : ∀ x, b = .ok x → store₀ c = false → call.force = false →
      ⟨call.str c, errNotFound⟩ ∈ t.results)
    (hundeleted : ∀ e, some e ∈ delete → ⟨call.str c, e⟩ ∈ t.results) :
    Reported call store₀ t := by
  constructor
  · intro x e h
    rw [hhas] at h
    rcases mem_append.mp h with h | h
    · exact hresults _ (hs.hasFailed x e h)
    · obtain ⟨rfl, rfl⟩ := Prod.mk.inj (mem_singleton.mp h)
      exact hfailed e rfl
  · intro x y h h₀ hforce
    rw [hhas] at h
    rcases mem_append.mp h with h | h
    · exact hresults _ (hs.missing x y h h₀ hforce)
    · obtain ⟨rfl, rfl⟩ := Prod.mk.inj (mem_singleton.mp h)
      exact hmissing y rfl h₀ hforce
  · intro x e h
    rw [hdelete] at h
    rcases mem_append.mp h with h | h
    · exact hresults _ (hs.deleteFailed x e h)
    · obtain ⟨f, hf, heq⟩ := mem_map.mp h
      obtain ⟨rfl, rfl⟩ := Prod.mk.inj heq
      exact hundeleted e hf

/-- Results are only added. -/
theorem Reported.of_same (hs : Reported call store₀ s) (hsame : SameCalls s t)
    (hresults : ∀ r ∈ s.results, r ∈ t.results) : Reported call store₀ t where
  hasFailed c e h := hresults _ (hs.hasFailed c e (hsame.has ▸ h))
  missing c b h h₀ hforce := hresults _ (hs.missing c b (hsame.has ▸ h) h₀ hforce)
  deleteFailed c e h := hresults _ (hs.deleteFailed c e (hsame.delete ▸ h))

/-- The results after a step that promises new ones. -/
theorem results_of_sent (hpromised : s.phase.promised = []) (hsent : t.sent = s.sent) :
    t.results = s.results ++ t.phase.promised := by
  simp only [State.results, hpromised, hsent, append_nil]

/-- A send keeps its promise. -/
theorem results_of_sending {r : RemovedBlock} (hphase : s.phase = .sending r t.phase)
    (hsent : t.sent = s.sent ++ [r]) : t.results = s.results := by
  simp [State.results, hphase, hsent, Phase.promised]

/-- Such a step begins with no result waiting. -/
theorem Moves.promised (h : Moves call p q) : p.promised = [] := by
  cases h <;> rfl

end

/-- The loop body reports what fails. -/
theorem reported_removed (hsafe : Safe call store₀ s) (hs : Reported call store₀ s)
    (hphase : s.phase = .removing (c :: rest)) (h : Removed call c rest s t)
    (hsent : t.sent = s.sent) : Reported call store₀ t := by
  have hresults := results_of_sent (s := s) (by rw [hphase]; rfl) hsent
  have hold : ∀ r ∈ s.results, r ∈ t.results := by
    intro r hr
    rw [hresults]
    exact mem_append_left _ hr
  have hnew : ∀ r next, t.phase = .sending r next → r ∈ t.results := by
    intro r next hsending
    rw [hresults, hsending]
    exact mem_append_right _ mem_cons_self
  -- a block that is deleted was there, or its absence does not matter
  have hpresent : s.store c = true ∨ call.force = true → store₀ c = false →
      call.force = false → False := by
    intro hthere h₀ hforce
    rcases hthere with hthere | hthere
    · rw [((hsafe.store_iff c).mp hthere).1] at h₀
      cases h₀
    · rw [hforce] at hthere
      cases hthere
  have hnever : ∀ e, some e ∈ ([] : List (Option String)) → ⟨call.str c, e⟩ ∈ t.results :=
    nofun
  cases h with
  | hasFailed e hhas hdelete _ hsending =>
    refine hs.append hhas (hdelete.trans (append_nil _).symm) hold ?_ nofun hnever
    intro f hf
    cases hf
    exact hnew _ _ hsending
  | missing hgone hforce hhas hdelete _ hsending =>
    refine hs.append hhas (hdelete.trans (append_nil _).symm) hold nofun ?_ hnever
    intro x _ _ _
    exact hnew _ _ hsending
  | deleteFailed e hthere hhas hdelete _ hsending =>
    have hone : t.deleteCalls = s.deleteCalls ++ [some e].map (c, ·) := hdelete
    refine hs.append hhas hone hold nofun ?_ ?_
    · intro x _ h₀ hforce
      exact (hpresent hthere h₀ hforce).elim
    · intro f hf
      cases mem_singleton.mp hf
      exact hnew _ _ hsending
  | deleted hthere hhas hdelete _ hsending =>
    have hone : t.deleteCalls = s.deleteCalls ++ [none].map (c, ·) := hdelete
    refine hs.append hhas hone hold nofun ?_ ?_
    · intro x _ h₀ hforce
      exact (hpresent hthere h₀ hforce).elim
    · intro f hf
      cases mem_singleton.mp hf

/-- **Every step reports its failures.** -/
theorem reported_work (hsafe : Safe call store₀ s) (hs : Reported call store₀ s)
    (h : work call s = some t) : Reported call store₀ t := by
  cases worked_of_work h with
  | moved hmoves hsame hsent =>
    apply hs.of_same hsame
    rw [results_of_sent hmoves.promised hsent]
    exact fun r hr => mem_append_left _ hr
  | removed c rest hphase hremoved hsent => exact reported_removed hsafe hs hphase hremoved hsent
  | sent r hphase hsame hsent =>
    apply hs.of_same hsame
    rw [results_of_sending hphase hsent]
    exact fun r hr => hr

/-! ## Every entry is dealt with -/

/-- The CIDs for which `Has` has been called. -/
def State.asked (s : State Cid) (c : Cid) : Prop := ∃ b, (c, b) ∈ s.hasCalls

/-- What the answer says about one CID has been dealt with or waits for it;
`results` and `asked` are the results and the CIDs given to `Has`. -/
def Covered (call : Call Cid) (p : Phase Cid) (results : List RemovedBlock) (asked : Cid → Prop)
    (r : Pinned Cid) : Prop :=
  r ∈ p.unfiltered ∨
    (r.pinned = true → ⟨call.str r.key, r.string call.str⟩ ∈ results) ∧
    (r.pinned = false → r.key ∈ p.waiting ∨ asked r.key)

/-- Every entry of the answer is accounted for, or the call has been given up. -/
structure Accounted (call : Call Cid) (p : Phase Cid) (results : List RemovedBlock)
    (asked : Cid → Prop) : Prop where
  covered : ∀ a, call.check = .ok a → ∀ r ∈ a.entries, Covered call p results asked r
  aborted : ∀ e, call.check = .error e →
    results = [checkFailed e] ∧ p.waiting = [] ∧ p.unfiltered = []

/-- That is so once the pinner has been asked. -/
def Complete (call : Call Cid) (p : Phase Cid) (results : List RemovedBlock)
    (asked : Cid → Prop) : Prop :=
  p.early ∧ results = [] ∨ ¬ p.early ∧ Accounted call p results asked

variable {results : List RemovedBlock} {asked : Cid → Prop}

section

omit [DecidableEq Cid]

/-- After the pin check every entry is accounted for. -/
theorem Complete.accounted (h : Complete call p results asked) (hp : ¬ p.early) :
    Accounted call p results asked := by
  rcases h with ⟨hearly, _⟩ | ⟨_, hacc⟩
  · exact absurd hearly hp
  · exact hacc

/-- Before the pin check there is no result. -/
theorem Complete.eq_nil (h : Complete call p results asked) (hp : p.early) : results = [] := by
  rcases h with ⟨_, hnil⟩ | ⟨hnot, _⟩
  · exact hnil
  · exact absurd hp hnot

/-- The first entry is dealt with and the others stay covered. -/
theorem Accounted.filterOne {r : Pinned Cid} {res : List (Pinned Cid)} {stillOkay : List Cid}
    {more : List RemovedBlock}
    (h : Accounted call (.filtering (r :: res) stillOkay) results asked)
    (hunfiltered : q.unfiltered = res) (hwaiting : stillOkay ⊆ q.waiting)
    (hr : (r.pinned = true → ⟨call.str r.key, r.string call.str⟩ ∈ results ++ more) ∧
      (r.pinned = false → r.key ∈ q.waiting ∨ asked r.key)) :
    Accounted call q (results ++ more) asked := by
  constructor
  · intro a hcheck c hc
    rcases h.covered a hcheck c hc with hmem | ⟨hp, hu⟩
    · rcases mem_cons.mp hmem with heq | hmem
      · exact .inr (heq ▸ hr)
      · exact .inl (hunfiltered ▸ hmem)
    · exact .inr ⟨fun h => mem_append_left _ (hp h), fun h => (hu h).imp_left (hwaiting ·)⟩
  · intro e he
    cases (h.aborted e he).2.2

/-- The pin check and the filter account for every entry. -/
theorem Moves.complete (h : Moves call p q) (hp : Complete call p results asked) :
    Complete call q (results ++ q.promised) asked := by
  cases h with
  | began =>
    rw [hp.eq_nil True.intro]
    exact .inl ⟨True.intro, rfl⟩
  | checkFailed e hcheck =>
    rw [hp.eq_nil True.intro]
    refine .inr ⟨id, ?_, ?_⟩
    · intro a hok
      rw [hcheck] at hok
      cases hok
    · intro f hf
      rw [hcheck] at hf
      cases hf
      exact ⟨rfl, rfl, rfl⟩
  | checked a hcheck =>
    refine .inr ⟨id, ?_, ?_⟩
    · intro b hok c hc
      rw [hcheck] at hok
      cases hok
      exact .inl hc
    · intro e he
      rw [hcheck] at he
      cases he
  | filtered stillOkay | ended =>
    have hacc := hp.accounted id
    rw [Phase.promised, append_nil]
    exact .inr ⟨id, hacc.covered, hacc.aborted⟩
  | refused r res stillOkay hpinned =>
    refine .inr ⟨id, (hp.accounted id).filterOne rfl (List.Subset.refl _) ⟨?_, ?_⟩⟩
    · intro _
      exact mem_append_right _ mem_cons_self
    · intro hun
      rw [hpinned] at hun
      cases hun
  | passed r res stillOkay hpinned =>
    refine .inr ⟨id, (hp.accounted id).filterOne rfl (subset_append_left _ _) ⟨?_, ?_⟩⟩
    · intro hpin
      rw [hpinned] at hpin
      cases hpin
    · intro _
      exact .inl (mem_append_right _ mem_cons_self)

/-- No CID has been given to `Has`. -/
theorem SameCalls.asked_eq (h : SameCalls s t) : t.asked = s.asked := by
  unfold State.asked
  rw [h.has]

end

/-- The loop body takes a CID from the waiting ones to the asked ones. -/
theorem complete_removed (hs : Complete call s.phase s.results s.asked)
    (hphase : s.phase = .removing (c :: rest)) (h : Removed call c rest s t)
    (hsent : t.sent = s.sent) : Complete call t.phase t.results t.asked := by
  obtain ⟨hw, hu, _⟩ := h.phase_facts
  have hresults := results_of_sent (s := s) (by rw [hphase]; rfl) hsent
  have hhas : ∃ b, t.hasCalls = s.hasCalls ++ [(c, b)] := by
    cases h with
    | hasFailed e hhas | missing _ _ hhas | deleteFailed e _ hhas | deleted _ hhas =>
      exact ⟨_, hhas⟩
  obtain ⟨b, hhas⟩ := hhas
  have hasked : ∀ x, s.asked x ∨ x = c → t.asked x := by
    rintro x (⟨b', hx⟩ | rfl)
    · exact ⟨b', by rw [hhas]; exact mem_append_left _ hx⟩
    · exact ⟨b, by rw [hhas]; exact mem_append_right _ mem_cons_self⟩
  rw [hphase] at hs
  have hacc := hs.accounted id
  refine .inr ⟨h.not_early, ?_, ?_⟩
  · intro a hcheck x hx
    rcases hacc.covered a hcheck x hx with hmem | ⟨hp, hun⟩
    · cases hmem
    refine .inr ⟨?_, ?_⟩
    · intro hpin
      rw [hresults]
      exact mem_append_left _ (hp hpin)
    intro hnpin
    rw [hw]
    rcases hun hnpin with hmem | hx
    · rcases mem_cons.mp hmem with heq | hmem
      · exact .inr (hasked _ (.inr heq))
      · exact .inl hmem
    · exact .inr (hasked _ (.inl hx))
  · intro e he
    cases (hacc.aborted e he).2.1

/-- **Every step keeps the account.** -/
theorem complete_work (hs : Complete call s.phase s.results s.asked) (h : work call s = some t) :
    Complete call t.phase t.results t.asked := by
  cases worked_of_work h with
  | moved hmoves hsame hsent =>
    rw [results_of_sent hmoves.promised hsent, hsame.asked_eq]
    exact hmoves.complete hs
  | removed c rest hphase hremoved hsent => exact complete_removed hs hphase hremoved hsent
  | sent r hphase hsame hsent =>
    rw [results_of_sending hphase hsent, hsame.asked_eq]
    rw [hphase] at hs
    exact hs.imp id (fun h => ⟨h.1, h.2.covered, h.2.aborted⟩)

omit [DecidableEq Cid] in
/-- The pinner has not been asked. -/
theorem complete_start : Complete call (State.start store₀).phase (State.start store₀).results
    (State.start store₀).asked :=
  .inl ⟨True.intro, rfl⟩

/-! ## Every schedule -/

/-- What holds after every schedule. -/
structure Inv (call : Call Cid) (store₀ : Cid → Bool) (s : State Cid) : Prop where
  room : Room call s
  safe : Safe call store₀ s
  reported : Reported call store₀ s
  complete : Complete call s.phase s.results s.asked

omit [DecidableEq Cid] in
/-- The invariant holds at the start. -/
theorem inv_start : Inv call store₀ (.start store₀) where
  room := Nat.le_of_eq (Nat.zero_add _)
  safe := safe_start store₀
  reported := reported_start
  complete := complete_start

/-- **Every step keeps the invariant.** -/
theorem inv_step {a : Action} (hne : call.cids ≠ []) (hs : Inv call store₀ s)
    (h : step call s a = some t) : Inv call store₀ t := by
  cases a with
  | work =>
    exact ⟨room_work hne hs.room h, safe_work hs.safe h, reported_work hs.safe hs.reported h,
      complete_work hs.complete h⟩
  | receive =>
    obtain ⟨hphase, hsame, hsent⟩ := receive_facts h
    have hresults : t.results = s.results := by rw [State.results, hphase, hsent]; rfl
    refine ⟨?_, hs.safe.of_same hsame (hphase ▸ hs.safe.clear), ?_, ?_⟩
    · unfold Room
      rw [hphase, hsent]
      exact hs.room
    · exact hs.reported.of_same hsame (hresults ▸ fun _ hr => hr)
    · rw [hphase, hresults, hsame.asked_eq]
      exact hs.complete

/-- The invariant holds after every schedule. -/
theorem inv_run {actions : List Action} (hne : call.cids ≠ [])
    (h : run (step call) (.start store₀) actions = some s) : Inv call store₀ s :=
  run_invariant (Inv call store₀) (fun _ _ _ hs h => inv_step hne hs h) inv_start h

/-- **Safe removal.**  If the entries of one CID agree, then after every schedule only
CIDs that the pinner has found unpinned have been given to `DeleteBlock`, the store
has lost exactly those for which it succeeded, and the goroutine is not blocked; when
it has finished, each CID that is pinned, missing or could not be deleted has a
result that says so. -/
theorem rmBlocks_safe (hne : call.cids ≠ []) (hagrees : call.Agrees) {actions : List Action}
    (hrun : run (step call) (.start store₀) actions = some s) :
    (∀ d ∈ s.deleteCalls, ∃ a, call.check = .ok a ∧ d.1 ∈ call.cids ∧
      ∀ r ∈ a.entries, r.key = d.1 → r.pinned = false) ∧
    (∀ c, s.store c = true ↔ store₀ c = true ∧ (c, none) ∉ s.deleteCalls) ∧
    s.sent.length ≤ call.cids.length ∧
    (s.phase ≠ .finished → ∃ t, step call s .work = some t) ∧
    (s.phase = .finished →
      (∀ e, call.check = .error e → s.sent = [checkFailed e]) ∧
      ∀ a, call.check = .ok a → ∀ c ∈ call.cids,
        (∀ r ∈ a.entries, r.key = c → r.pinned = true →
          ⟨call.str c, r.string call.str⟩ ∈ s.sent) ∧
        ((∀ r ∈ a.entries, r.key = c → r.pinned = false) → store₀ c = false →
          call.force = false → ⟨call.str c, errNotFound⟩ ∈ s.sent ∨
            ∃ e, (c, .error e) ∈ s.hasCalls ∧ ⟨call.str c, e⟩ ∈ s.sent) ∧
        (∀ e, (c, .error e) ∈ s.hasCalls → ⟨call.str c, e⟩ ∈ s.sent) ∧
        ∀ e, (c, some e) ∈ s.deleteCalls → ⟨call.str c, e⟩ ∈ s.sent) := by
  have hinv := inv_run hne hrun
  refine ⟨?_, hinv.safe.store_iff, Nat.le_trans (Nat.le_add_right ..) hinv.room,
    exists_work hinv.room, ?_⟩
  · intro d hd
    obtain ⟨a, hcheck, r, hr, hkey, hunpinned⟩ := hinv.safe.deleted d hd
    refine ⟨a, hcheck, hkey ▸ a.subperm.subset (mem_map_of_mem hr), fun r' hr' hkey' => ?_⟩
    rw [← hunpinned]
    exact hagrees a hcheck r' hr' r hr (hkey'.trans hkey.symm)
  intro hfinished
  have hresults : s.results = s.sent := by
    rw [State.results, hfinished, Phase.promised, append_nil]
  have hcomplete := hinv.complete
  rw [hfinished, hresults] at hcomplete
  have hacc := hcomplete.accounted id
  have hreported := hinv.reported
  refine ⟨fun e he => (hacc.aborted e he).1, ?_⟩
  intro a hcheck c hc
  have hcovered : ∀ r ∈ a.entries, (r.pinned = true →
      ⟨call.str r.key, r.string call.str⟩ ∈ s.sent) ∧ (r.pinned = false → s.asked r.key) := by
    intro r hr
    rcases hacc.covered a hcheck r hr with hmem | ⟨hpinned, hunpinned⟩
    · cases hmem
    · exact ⟨hpinned, fun hun => (hunpinned hun).resolve_left not_mem_nil⟩
  refine ⟨?_, ?_, hresults ▸ hreported.hasFailed c, hresults ▸ hreported.deleteFailed c⟩
  · rintro r hr rfl
    exact (hcovered r hr).1
  intro hun h₀ hforce
  obtain ⟨r, hr, rfl⟩ := a.covers c hc
  obtain ⟨b, hb⟩ := (hcovered r hr).2 (hun r hr rfl)
  cases b with
  | error e => exact .inr ⟨e, hb, hresults ▸ hreported.hasFailed _ e hb⟩
  | ok b => exact .inl (hresults ▸ hreported.missing _ b hb h₀ hforce)

/-- Removing a pinned block, a block, and one that is not there. -/
def sampleCall : Call Nat where
  cids := [1, 2, 3]
  quiet := false
  force := false
  check := .ok
    { entries := [⟨1, .recursive, 1⟩, ⟨2, .notPinned, 2⟩, ⟨3, .notPinned, 3⟩]
      subperm := List.Subperm.refl _
      covers := by decide }
  hasError _ := none
  deleteError _ := none
  str c := if c = 1 then "one" else if c = 2 then "two" else "three"

/-- The call on a store with the first two blocks, after its last step. -/
def afterSample : State Nat :=
  (run (step sampleCall) (.start (· < 3)) (List.replicate 12 .work)).getD (.start (· < 3))

/-- The second block is deleted, and the other two are reported. -/
theorem rmBlocks_safe_sample :
    afterSample.phase = .finished ∧ afterSample.store 2 = false ∧
      ⟨"one", (Pinned.mk 1 .recursive 1).string sampleCall.str⟩ ∈ afterSample.sent ∧
      ⟨"three", errNotFound⟩ ∈ afterSample.sent := by
  have hrun : run (step sampleCall) (.start (· < 3)) (replicate 12 .work) =
      some afterSample := rfl
  have hagrees : sampleCall.Agrees := by
    intro a ha
    cases ha
    decide
  obtain ⟨_, hstore, _, _, hfinished⟩ := rmBlocks_safe (by decide) hagrees hrun
  have hphase : afterSample.phase = .finished := rfl
  have hentries := (hfinished hphase).2 _ rfl
  refine ⟨hphase, ?_, (hentries 1 (by decide)).1 _ mem_cons_self rfl rfl, ?_⟩
  · decide
  · rcases (hentries 3 (by decide)).2.1 (by decide) (by decide) rfl with h | ⟨e, h, _⟩
    · exact h
    · have hcalls : afterSample.hasCalls = [(2, .ok true), (3, .ok false)] := rfl
      simp [hcalls] at h

/-- A CID is listed twice, and its two entries disagree. -/
def splitCall : Call Nat where
  cids := [1, 1]
  quiet := false
  force := false
  check := .ok
    { entries := [⟨1, .recursive, 1⟩, ⟨1, .notPinned, 1⟩]
      subperm := List.Subperm.refl _
      covers := by decide }
  hasError _ := none
  deleteError _ := none
  str _ := "one"

/-- **A pinned block is deleted.**  The loop of `FilterPinned` lets a CID through for
any of its entries, whatever the others say. -/
theorem rmBlocks_deletes_pinned :
    ∃ s a, run (step splitCall) (.start (· = 1)) (replicate 9 .work) = some s ∧
      splitCall.check = .ok a ∧ (∃ r ∈ a.entries, r.key = 1 ∧ r.pinned = true) ∧
      s.deleteCalls = [(1, none)] ∧ s.store 1 = false :=
  ⟨_, _, rfl, rfl, ⟨_, mem_cons_self, rfl, rfl⟩, rfl, rfl⟩

/-! ## The end of the goroutine -/

/-- A bound on the steps that the goroutine has before it. -/
def Phase.toGo (call : Call Cid) : Phase Cid → Nat
  | .locking => 4 * call.cids.length + 4
  | .checking => 4 * call.cids.length + 3
  | .filtering res stillOkay => 4 * res.length + 2 * stillOkay.length + 2
  | .removing stillOkay => 2 * stillOkay.length + 1
  | .sending _ next => next.toGo call + 1
  | .finished => 0

end RmBlocks
