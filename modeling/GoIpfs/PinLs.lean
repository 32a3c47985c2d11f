import GoIpfs.GraphWalk
import GoIpfs.StepRun
import Mathlib.Data.Finset.Lattice.Fold
import Mathlib.Order.Lattice.Nat

/-!
# Listing pins

`PinAPI.pinLsAll` (`core/coreapi/pin.go`).  A goroutine sends the pins over a
channel that the caller reads until it is closed.  `keys` holds what has been
listed, or is not to be listed; the indirect pins are gathered into a second set
by one walk for each recursive pin, with `SkipRoot` and `Concurrent`, and the
walks share that set.

A walk is a pool of workers, so any waiting node can be visited next and any
visited one can have its links fetched next; the root is not visited.  The keys
of a set come in any order.  The context is never cancelled.

A finished walk leaves the set closed under the links, so a later walk loses
nothing by not entering what an earlier one has seen, even where its own root
lies below another one.
-/

namespace PinLs

open GraphWalk LinkReach StepRun List

variable {Cid : Type}

/-- What the pinner and the DAG service answer. -/
structure Env (Cid : Type) where
  recursiveKeys : Except String (List Cid)
  directKeys : Except String (List Cid)
  /-- `merkledag.GetLinksWithDAG(api.dag)`. -/
  getLinks : Cid → Except String (List Cid)

def Env.links (env : Env Cid) (c : Cid) : List Cid :=
  match env.getLinks c with
  | .ok targets => targets
  | .error _ => []

/-- The types that can be asked for. -/
inductive ListType where
  | recursive
  | direct
  | indirect
  | all
  deriving DecidableEq, Repr

inductive PinType where
  | recursive
  | direct
  | indirect
  deriving DecidableEq, Repr

/-- `pinInfo`. -/
inductive PinInfo (Cid : Type) where
  | pin (pinType : PinType) (c : Cid)
  | err (err : String)
  deriving DecidableEq, Repr

def PinInfo.cid : PinInfo Cid → Option Cid
  | .pin _ c => some c
  | .err _ => none

/-- Where the goroutine is. -/
inductive Pc (Cid : Type) where
  | readRecursive
  | readDirect (rkeys : List Cid)
  /-- "We need to first visit the direct pins that have priority without
  emitting them". -/
  | hideDirect
  | hideRecursive
  /-- In the loop over the recursive pins. -/
  | roots (rkeys : List Cid)
  | walk (w : Walk Cid) (rkeys : List Cid)
  | emitSet
  | closed
  deriving DecidableEq

structure State (Cid : Type) where
  pc : Pc Cid
  keys : Finset Cid
  set : Finset Cid
  /-- What has been sent. -/
  out : List (PinInfo Cid)
  deriving DecidableEq

def ListType.entry : ListType → Pc Cid
  | .recursive | .all => .readRecursive
  | .direct => .readDirect []
  | .indirect => .hideDirect

def start (typ : ListType) : State Cid := ⟨typ.entry, ∅, ∅, []⟩

inductive Action (Cid : Type) where
  | next
  /-- A worker visits a waiting node. -/
  | visit (c : Cid)
  /-- A worker gets the links of a node it has visited. -/
  | fetch (c : Cid)
  /-- `set.Keys()` has returned `order`. -/
  | emit (order : List Cid)
  deriving DecidableEq, Repr

variable [DecidableEq Cid]

/-- The loop of `AddToResultKeys`: the new keys, and what is sent. -/
def addToResultKeys (pinType : PinType) : List Cid → Finset Cid → Finset Cid × List (PinInfo Cid)
  | [], keys => (keys, [])
  | c :: keyList, keys =>
    if c ∈ keys then addToResultKeys pinType keyList keys
    else
      let rest := addToResultKeys pinType keyList (insert c keys)
      (rest.1, .pin pinType c :: rest.2)

def visitKeys (keyList : List Cid) (keys : Finset Cid) : Finset Cid :=
  keyList.foldl (fun keys c => insert c keys) keys

def State.add (s : State Cid) (pinType : PinType) (keyList : List Cid) (pc : Pc Cid) : State Cid :=
  let result := addToResultKeys pinType keyList s.keys
  { s with pc := pc, keys := result.1, out := s.out ++ result.2 }

def State.hide (s : State Cid) (keyList : List Cid) (pc : Pc Cid) : State Cid :=
  { s with pc := pc, keys := visitKeys keyList s.keys }

/-- An error is the last thing that is sent. -/
def State.fail (s : State Cid) (err : String) : State Cid :=
  { s with pc := .closed, out := s.out ++ [.err err] }

variable (env : Env Cid) (typ : ListType)

def step (s : State Cid) : Action Cid → Option (State Cid)
  | .next =>
    match s.pc with
    | .readRecursive =>
      match env.recursiveKeys with
      | .error err => some (s.fail err)
      | .ok rkeys =>
        some (s.add .recursive rkeys (if typ = .all then .readDirect rkeys else .closed))
    | .readDirect rkeys =>
      match env.directKeys with
      | .error err => some (s.fail err)
      | .ok dkeys =>
        some (s.add .direct dkeys (if typ = .all then .roots rkeys else .closed))
    | .hideDirect =>
      match env.directKeys with
      | .error err => some (s.fail err)
      | .ok dkeys => some (s.hide dkeys .hideRecursive)
    | .hideRecursive =>
      match env.recursiveKeys with
      | .error err => some (s.fail err)
      | .ok rkeys => some (s.hide rkeys (.roots rkeys))
    | .roots (k :: rkeys) => some { s with pc := .walk (Walk.startBelow k) rkeys }
    | .roots [] => some { s with pc := .emitSet }
    | .walk w rkeys => if w.Finished then some { s with pc := .roots rkeys } else none
    | .emitSet | .closed => none
  | .visit c =>
    match s.pc with
    | .walk w rkeys =>
      if c ∈ w.queue then
        some { s with pc := .walk (w.visit s.set c).1 rkeys, set := (w.visit s.set c).2 }
      else none
    | _ => none
  | .fetch c =>
    match s.pc with
    | .walk w rkeys =>
      if c ∈ w.active then
        match env.getLinks c with
        | .error err => some (s.fail err)
        | .ok targets => some { s with pc := .walk (w.expand c targets) rkeys }
      else none
    | _ => none
  | .emit order =>
    match s.pc with
    | .emitSet =>
      if order.Nodup ∧ order.toFinset = s.set then some (s.add .indirect order .closed)
      else none
    | _ => none

def Stuck (s : State Cid) : Prop := ∀ a, step env typ s a = none

/-! ## What one step can do -/

/-- The steps, one constructor for each way through the code. -/
inductive Transition (s : State Cid) : Action Cid → State Cid → Prop where
  | readRecursive {rkeys} (hpc : s.pc = .readRecursive)
      (hkeys : env.recursiveKeys = .ok rkeys) :
      Transition s .next
        (s.add .recursive rkeys (if typ = .all then .readDirect rkeys else .closed))
  | readDirect {rkeys dkeys} (hpc : s.pc = .readDirect rkeys)
      (hkeys : env.directKeys = .ok dkeys) :
      Transition s .next (s.add .direct dkeys (if typ = .all then .roots rkeys else .closed))
  | hideDirect {dkeys} (hpc : s.pc = .hideDirect) (hkeys : env.directKeys = .ok dkeys) :
      Transition s .next (s.hide dkeys .hideRecursive)
  | hideRecursive {rkeys} (hpc : s.pc = .hideRecursive)
      (hkeys : env.recursiveKeys = .ok rkeys) :
      Transition s .next (s.hide rkeys (.roots rkeys))
  | root {k rkeys} (hpc : s.pc = .roots (k :: rkeys)) :
      Transition s .next { s with pc := .walk (Walk.startBelow k) rkeys }
  | gathered (hpc : s.pc = .roots []) : Transition s .next { s with pc := .emitSet }
  | walked {w rkeys} (hpc : s.pc = .walk w rkeys) (hfin : w.Finished) :
      Transition s .next { s with pc := .roots rkeys }
  | visit {w rkeys c} (hpc : s.pc = .walk w rkeys)
      (hc : c ∈ w.queue) :
      Transition s (.visit c)
        { s with pc := .walk (w.visit s.set c).1 rkeys, set := (w.visit s.set c).2 }
  | fetch {w rkeys c targets}
      (hpc : s.pc = .walk w rkeys) (hc : c ∈ w.active) (hget : env.getLinks c = .ok targets) :
      Transition s (.fetch c) { s with pc := .walk (w.expand c targets) rkeys }
  | emit {order} (hpc : s.pc = .emitSet) (hnodup : order.Nodup)
      (hset : order.toFinset = s.set) :
      Transition s (.emit order) (s.add .indirect order .closed)
  | readFailed {err} (hpc : s.pc ≠ .closed)
      (hfail : env.recursiveKeys = .error err ∨ env.directKeys = .error err) :
      Transition s .next (s.fail err)
  | fetchFailed {w rkeys c err}
      (hpc : s.pc = .walk w rkeys) (hc : c ∈ w.active) (hget : env.getLinks c = .error err) :
      Transition s (.fetch c) (s.fail err)

variable {env typ} {s t : State Cid} {a : Action Cid}

theorem transition_of_step (h : step env typ s a = some t) : Transition env typ s a t := by
  unfold step at h
  split at h
  · split at h
    · next hpc =>
      split at h <;> cases h
      · exact .readFailed (by simp [hpc]) (.inl (by assumption))
      · exact .readRecursive hpc (by assumption)
    · next hpc =>
      split at h <;> cases h
      · exact .readFailed (by simp [hpc]) (.inr (by assumption))
      · exact .readDirect hpc (by assumption)
    · next hpc =>
      split at h <;> cases h
      · exact .readFailed (by simp [hpc]) (.inr (by assumption))
      · exact .hideDirect hpc (by assumption)
    · next hpc =>
      split at h <;> cases h
      · exact .readFailed (by simp [hpc]) (.inl (by assumption))
      · exact .hideRecursive hpc (by assumption)
    · cases h
      exact .root (by assumption)
    · cases h
      exact .gathered (by assumption)
    · split at h <;> cases h
      exact .walked (by assumption) (by assumption)
    · cases h
    · cases h
  · split at h
    · split at h <;> cases h
      exact .visit (by assumption) (by assumption)
    · cases h
  · split at h
    · split at h
      · split at h <;> cases h
        · exact .fetchFailed (by assumption) (by assumption) (by assumption)
        · exact .fetch (by assumption) (by assumption) (by assumption)
      · cases h
    · cases h
  · split at h
    · obtain ⟨⟨hnodup, hset⟩, rfl⟩ := guard_passed h
      exact .emit (by assumption) hnodup hset
    · cases h

/-! ## What is sent -/

/-- The members of a list that are not among the keys, each once. -/
def fresh : List Cid → Finset Cid → List Cid
  | [], _ => []
  | c :: keyList, keys =>
    if c ∈ keys then fresh keyList keys else c :: fresh keyList (insert c keys)

theorem addToResultKeys_eq (pinType : PinType) (keyList : List Cid) (keys : Finset Cid) :
    addToResultKeys pinType keyList keys =
      (keys ∪ keyList.toFinset, (fresh keyList keys).map (.pin pinType)) := by
  induction keyList generalizing keys with
  | nil => simp [addToResultKeys, fresh]
  | cons c keyList ih =>
    unfold addToResultKeys fresh
    by_cases hc : c ∈ keys
    · rw [if_pos hc, if_pos hc, ih, toFinset_cons, Finset.union_insert,
        Finset.insert_eq_self.mpr (Finset.mem_union_left _ hc)]
    · rw [if_neg hc, if_neg hc, ih, toFinset_cons, Finset.union_insert,
        Finset.insert_union, map_cons]

theorem visitKeys_eq (keyList : List Cid) (keys : Finset Cid) :
    visitKeys keyList keys = keys ∪ keyList.toFinset := by
  unfold visitKeys
  induction keyList generalizing keys with
  | nil => simp
  | cons c keyList ih =>
    rw [foldl_cons, ih, toFinset_cons, Finset.union_insert, Finset.insert_union]

variable {c : Cid} {set : Finset Cid}

theorem mem_fresh {keyList : List Cid} {keys : Finset Cid} :
    c ∈ fresh keyList keys ↔ c ∈ keyList ∧ c ∉ keys := by
  induction keyList generalizing keys with
  | nil => simp [fresh]
  | cons b keyList ih =>
    unfold fresh
    by_cases hb : b ∈ keys
    · rw [if_pos hb, ih, mem_cons]
      refine ⟨fun h => ⟨.inr h.1, h.2⟩, fun h => ⟨h.1.resolve_left ?_, h.2⟩⟩
      intro heq
      exact h.2 (heq ▸ hb)
    · rw [if_neg hb, mem_cons, ih, mem_cons, Finset.mem_insert]
      by_cases hcb : c = b
      · simp [hcb, hb]
      · simp [hcb]

theorem nodup_fresh (keyList : List Cid) (keys : Finset Cid) : (fresh keyList keys).Nodup := by
  induction keyList generalizing keys with
  | nil => exact nodup_nil
  | cons b keyList ih =>
    unfold fresh
    by_cases hb : b ∈ keys
    · rw [if_pos hb]
      exact ih keys
    · rw [if_neg hb, nodup_cons, mem_fresh]
      exact ⟨fun h => h.2 (Finset.mem_insert_self _ _), ih _⟩

/-! ## What the walks gather -/

/-- A proper descendant of one of the roots. -/
def Below (env : Env Cid) (roots : List Cid) (c : Cid) : Prop :=
  ∃ r ∈ roots, ∃ b ∈ env.links r, Reach env.links b c

variable {roots : List Cid}

omit [DecidableEq Cid] in
theorem Below.mono {roots' : List Cid} (hsub : ∀ r ∈ roots, r ∈ roots') (h : Below env roots c) :
    Below env roots' c := by
  obtain ⟨r, hr, hrest⟩ := h
  exact ⟨r, hsub r hr, hrest⟩

omit [DecidableEq Cid] in
theorem Below.tail {b : Cid} (h : Below env roots c) (hb : b ∈ env.links c) :
    Below env roots b := by
  obtain ⟨r, hr, x, hx, hreach⟩ := h
  exact ⟨r, hr, x, hx, hreach.tail hb⟩

/-- The walks of the roots `done` have finished. -/
structure Gathered (env : Env Cid) (done : List Cid) (set : Finset Cid) : Prop where
  below : ∀ c ∈ set, Below env done c
  closed : Closed env.links (↑set : Set Cid)
  roots : ∀ r ∈ done, ∀ b ∈ env.links r, b ∈ set

/-- The walk of the root `k` goes on, after those of the roots `done`. -/
structure Gathering (env : Env Cid) (done : List Cid) (k : Cid) (w : Walk Cid)
    (set : Finset Cid) : Prop where
  below : ∀ c, Held w set c → Below env (k :: done) c
  active : ∀ c ∈ w.active, c = k ∨ Below env (k :: done) c
  covers : Covers env.links w set
  root : Settled env.links w set k
  roots : ∀ r ∈ done, ∀ b ∈ env.links r, b ∈ set

variable {done : List Cid}

omit [DecidableEq Cid] in
/-- **Finished walks have gathered the proper descendants of their roots.** -/
theorem mem_gathered (h : Gathered env done set) (c : Cid) : c ∈ set ↔ Below env done c := by
  refine ⟨h.below c, fun ⟨r, hr, b, hb, hreach⟩ => ?_⟩
  exact Reach.mem_of_closed h.closed (Finset.mem_coe.mpr (h.roots r hr b hb)) hreach

omit [DecidableEq Cid] in
theorem gathering_start (h : Gathered env done set) (k : Cid) :
    Gathering env done k (Walk.startBelow k) set where
  below c hc := by
    rcases hc with hset | hqueue
    · exact (h.below c hset).mono fun r hr => mem_cons_of_mem _ hr
    · exact absurd hqueue not_mem_nil
  active c hc := .inl (mem_singleton.mp hc)
  covers a ha := .inr fun b hb => .inl (h.closed a ha b hb)
  root := .inl mem_cons_self
  roots := h.roots

variable {k : Cid} {w : Walk Cid}

theorem gathering_visit (h : Gathering env done k w set) (hc : c ∈ w.queue) :
    Gathering env done k (w.visit set c).1 (w.visit set c).2 where
  below b hb := by
    rcases hb with hset | hqueue
    · rcases mem_seen_visit hset with hold | rfl
      · exact h.below b (.inl hold)
      · exact h.below b (.inr hc)
    · exact h.below b (.inr (mem_queue_visit hqueue))
  active b hb := by
    rcases mem_active_visit hb with hold | ⟨rfl, -⟩
    · exact h.active b hold
    · exact .inr (h.below b (.inr hc))
  covers := covers_visit c h.covers
  root := settled_visit c h.root
  roots r hr b hb := subset_visit c (h.roots r hr b hb)

theorem gathering_fetch {targets : List Cid} (h : Gathering env done k w set) (hc : c ∈ w.active)
    (hlinks : env.links c = targets) : Gathering env done k (w.expand c targets) set where
  below b hb := by
    rcases hb with hset | hqueue
    · exact h.below b (.inl hset)
    · rcases mem_append.mp hqueue with hold | hnew
      · exact h.below b (.inr hold)
      · rcases h.active c hc with rfl | hbelow
        · exact ⟨c, mem_cons_self, b, hlinks ▸ hnew, Reach.refl b⟩
        · exact hbelow.tail (hlinks ▸ hnew)
  active b hb := h.active b (mem_of_mem_erase hb)
  covers := covers_expand c (fun b hb => hlinks ▸ hb) h.covers
  root := settled_expand c (fun b hb => hlinks ▸ hb) h.root
  roots := h.roots

omit [DecidableEq Cid] in
theorem gathered_of_finished (h : Gathering env done k w set) (hfin : w.Finished) :
    Gathered env (k :: done) set where
  below c hc := h.below c (.inl hc)
  closed := closed_of_finished hfin h.covers
  roots r hr b hb := by
    rcases mem_cons.mp hr with rfl | hr
    · rcases h.root with hactive | hheld
      · rw [hfin.2] at hactive
        exact absurd hactive not_mem_nil
      · exact mem_of_finished hfin (hheld b hb)
    · exact h.roots r hr b hb

/-! ## The invariant -/

/-- The pinner answers, and every block below the recursive pins can be fetched
and lies in the finite set `nodes`. -/
structure Answers (env : Env Cid) (rkeys dkeys : List Cid) (nodes : Finset Cid) : Prop where
  recursiveKeys : env.recursiveKeys = .ok rkeys
  directKeys : env.directKeys = .ok dkeys
  roots : ∀ r ∈ rkeys, r ∈ nodes
  getLinks : ∀ c ∈ nodes, ∃ targets, env.getLinks c = .ok targets ∧ ∀ b ∈ targets, b ∈ nodes

variable {rkeys dkeys : List Cid} {nodes : Finset Cid}

/-- What the goroutine has listed or hidden before it gathers the indirect pins. -/
def Front (typ : ListType) (rkeys dkeys : List Cid) (keys : Finset Cid)
    (out : List (PinInfo Cid)) : Prop :=
  match typ with
  | .all =>
    keys = rkeys.toFinset ∪ dkeys.toFinset ∧
      out = (fresh rkeys ∅).map (.pin .recursive) ++
        (fresh dkeys rkeys.toFinset).map (.pin .direct)
  | .indirect => keys = dkeys.toFinset ∪ rkeys.toFinset ∧ out = []
  | .recursive | .direct => False

/-- What has been sent when the channel is closed. -/
def Listed (env : Env Cid) (typ : ListType) (rkeys dkeys : List Cid)
    (out : List (PinInfo Cid)) : Prop :=
  match typ with
  | .recursive => out = (fresh rkeys ∅).map (.pin .recursive)
  | .direct => out = (fresh dkeys ∅).map (.pin .direct)
  | .all | .indirect =>
    ∃ keys front order, Front typ rkeys dkeys keys front ∧
      (∀ c, c ∈ order ↔ Below env rkeys c) ∧
      out = front ++ (fresh order keys).map (.pin .indirect)

/-- What holds at each point of the goroutine. -/
def Inv (env : Env Cid) (typ : ListType) (rkeys dkeys : List Cid) (s : State Cid) : Prop :=
  match s.pc with
  | .readRecursive =>
    (typ = .recursive ∨ typ = .all) ∧ s.keys = ∅ ∧ s.set = ∅ ∧ s.out = []
  | .readDirect roots =>
    s.set = ∅ ∧ (typ = .direct ∧ s.keys = ∅ ∧ s.out = [] ∨
      typ = .all ∧ roots = rkeys ∧ s.keys = rkeys.toFinset ∧
        s.out = (fresh rkeys ∅).map (.pin .recursive))
  | .hideDirect => typ = .indirect ∧ s.keys = ∅ ∧ s.set = ∅ ∧ s.out = []
  | .hideRecursive => typ = .indirect ∧ s.keys = dkeys.toFinset ∧ s.set = ∅ ∧ s.out = []
  | .roots roots =>
    Front typ rkeys dkeys s.keys s.out ∧
      ∃ done, (∀ r, r ∈ rkeys ↔ r ∈ done ∨ r ∈ roots) ∧ Gathered env done s.set
  | .walk w roots =>
    Front typ rkeys dkeys s.keys s.out ∧
      ∃ done k, (∀ r, r ∈ rkeys ↔ r ∈ k :: done ∨ r ∈ roots) ∧ Gathering env done k w s.set
  | .emitSet => Front typ rkeys dkeys s.keys s.out ∧ ∀ c, c ∈ s.set ↔ Below env rkeys c
  | .closed => Listed env typ rkeys dkeys s.out

theorem inv_start (typ : ListType) : Inv env typ rkeys dkeys (start typ) := by
  cases typ with
  | recursive => exact ⟨.inl rfl, rfl, rfl, rfl⟩
  | direct => exact ⟨rfl, .inl ⟨rfl, rfl, rfl⟩⟩
  | indirect => exact ⟨rfl, rfl, rfl, rfl⟩
  | all => exact ⟨.inr rfl, rfl, rfl, rfl⟩

omit [DecidableEq Cid] in
theorem mem_nodes_of_below (hanswers : Answers env rkeys dkeys nodes) (h : Below env rkeys c) :
    c ∈ nodes := by
  have hclosed : Closed env.links (↑nodes : Set Cid) := by
    intro a ha b hb
    obtain ⟨targets, hget, htargets⟩ := hanswers.getLinks a ha
    unfold Env.links at hb
    rw [hget] at hb
    exact htargets b hb
  obtain ⟨r, hr, b, hb, hreach⟩ := h
  exact Reach.mem_of_closed hclosed (hclosed r (hanswers.roots r hr) b hb) hreach

omit [DecidableEq Cid] in
theorem mem_nodes_of_active (hanswers : Answers env rkeys dkeys nodes)
    (hroots : ∀ r, r ∈ rkeys ↔ r ∈ k :: done ∨ r ∈ roots) (h : Gathering env done k w set)
    (hc : c ∈ w.active) : c ∈ nodes := by
  rcases h.active c hc with rfl | hbelow
  · exact hanswers.roots c ((hroots c).mpr (.inl mem_cons_self))
  · exact mem_nodes_of_below hanswers (hbelow.mono fun r hr => (hroots r).mpr (.inl hr))

theorem add_eq (s : State Cid) (pinType : PinType) (keyList : List Cid) (pc : Pc Cid) :
    s.add pinType keyList pc =
      { s with
        pc := pc, keys := s.keys ∪ keyList.toFinset,
        out := s.out ++ (fresh keyList s.keys).map (.pin pinType) } := by
  unfold State.add
  rw [addToResultKeys_eq]

theorem hide_eq (s : State Cid) (keyList : List Cid) (pc : Pc Cid) :
    s.hide keyList pc = { s with pc := pc, keys := s.keys ∪ keyList.toFinset } := by
  unfold State.hide
  rw [visitKeys_eq]

omit [DecidableEq Cid] in
theorem gathered_empty (hset : set = ∅) : Gathered env [] set where
  below c hc := absurd (hset ▸ hc) (Finset.notMem_empty c)
  closed a ha := absurd (hset ▸ ha) (Finset.notMem_empty a)
  roots _ hr := absurd hr not_mem_nil

/-- **Every step keeps the invariant.** -/
theorem inv_step (hanswers : Answers env rkeys dkeys nodes) (s : State Cid) (a : Action Cid)
    (t : State Cid) (h : Inv env typ rkeys dkeys s) (hstep : step env typ s a = some t) :
    Inv env typ rkeys dkeys t := by
  unfold Inv at h
  cases transition_of_step hstep with
  | @readRecursive roots hpc hkeys =>
    cases hanswers.recursiveKeys.symm.trans hkeys
    rw [hpc] at h
    obtain ⟨htyp, hkeys, hset, hout⟩ := h
    rw [add_eq, hkeys, hout, Finset.empty_union, nil_append]
    rcases htyp with rfl | rfl
    · exact rfl
    · exact ⟨hset, .inr ⟨rfl, rfl, rfl, rfl⟩⟩
  | @readDirect roots keyList hpc hkeys =>
    cases hanswers.directKeys.symm.trans hkeys
    rw [hpc] at h
    obtain ⟨hset, ⟨rfl, hkeys, hout⟩ | ⟨rfl, rfl, hkeys, hout⟩⟩ := h
    · rw [add_eq, hkeys, hout, nil_append]
      exact rfl
    · rw [add_eq, hkeys, hout]
      refine ⟨⟨rfl, rfl⟩, [], ?_, gathered_empty hset⟩
      exact fun r => ⟨.inr, fun hr => hr.resolve_left not_mem_nil⟩
  | @hideDirect keyList hpc hkeys =>
    cases hanswers.directKeys.symm.trans hkeys
    rw [hpc] at h
    obtain ⟨rfl, hkeys, hset, hout⟩ := h
    rw [hide_eq, hkeys, Finset.empty_union]
    exact ⟨rfl, rfl, hset, hout⟩
  | @hideRecursive roots hpc hkeys =>
    cases hanswers.recursiveKeys.symm.trans hkeys
    rw [hpc] at h
    obtain ⟨rfl, hkeys, hset, hout⟩ := h
    rw [hide_eq, hkeys]
    refine ⟨⟨rfl, hout⟩, [], ?_, gathered_empty hset⟩
    exact fun r => ⟨.inr, fun hr => hr.resolve_left not_mem_nil⟩
  | @root k roots hpc =>
    rw [hpc] at h
    obtain ⟨hfront, done, hroots, hgathered⟩ := h
    refine ⟨hfront, done, k, fun r => ?_, gathering_start hgathered k⟩
    rw [hroots, mem_cons, mem_cons]
    tauto
  | gathered hpc =>
    rw [hpc] at h
    obtain ⟨hfront, done, hroots, hgathered⟩ := h
    refine ⟨hfront, fun c => (mem_gathered hgathered c).trans ?_⟩
    have hdone : ∀ r, r ∈ rkeys ↔ r ∈ done := fun r =>
      (hroots r).trans ⟨fun hr => hr.resolve_right not_mem_nil, .inl⟩
    exact ⟨Below.mono fun r hr => (hdone r).mpr hr, Below.mono fun r hr => (hdone r).mp hr⟩
  | @walked w roots hpc hfin =>
    rw [hpc] at h
    obtain ⟨hfront, done, k, hroots, hgathering⟩ := h
    exact ⟨hfront, k :: done, hroots, gathered_of_finished hgathering hfin⟩
  | @visit w roots c hpc hc =>
    rw [hpc] at h
    obtain ⟨hfront, done, k, hroots, hgathering⟩ := h
    exact ⟨hfront, done, k, hroots, gathering_visit hgathering hc⟩
  | @fetch w roots c targets hpc hc hget =>
    rw [hpc] at h
    obtain ⟨hfront, done, k, hroots, hgathering⟩ := h
    have hlinks : env.links c = targets := by simp [Env.links, hget]
    exact ⟨hfront, done, k, hroots, gathering_fetch hgathering hc hlinks⟩
  | @emit order hpc hnodup hset =>
    rw [hpc] at h
    obtain ⟨hfront, hbelow⟩ := h
    rw [add_eq]
    have horder : ∀ c, c ∈ order ↔ Below env rkeys c := by
      intro c
      rw [← hbelow, ← hset, mem_toFinset]
    cases typ with
    | all | indirect => exact ⟨s.keys, s.out, order, hfront, horder, rfl⟩
    | recursive | direct => exact hfront.elim
  | readFailed hpc hfail =>
    rcases hfail with hfail | hfail
    · cases hanswers.recursiveKeys.symm.trans hfail
    · cases hanswers.directKeys.symm.trans hfail
  | @fetchFailed w roots c err hpc hc hget =>
    rw [hpc] at h
    obtain ⟨-, done, k, hroots, hgathering⟩ := h
    have hnode := mem_nodes_of_active hanswers hroots hgathering hc
    obtain ⟨targets, hok, -⟩ := hanswers.getLinks c hnode
    cases hok.symm.trans hget

/-! ## Every run ends -/

/-- A bound on the steps of a run. -/
def rank (env : Env Cid) (rkeys : List Cid) (nodes : Finset Cid) (s : State Cid) : Nat :=
  let degree := nodes.sup fun c => (env.links c).length
  let idle := (⟨[], []⟩ : Walk Cid).work nodes s.set degree
  match s.pc with
  | .readRecursive | .hideDirect => 4 + (degree + 4) * rkeys.length + idle
  | .readDirect roots => 3 + (degree + 4) * roots.length + idle
  | .hideRecursive => 3 + (degree + 4) * rkeys.length + idle
  | .roots roots => 2 + (degree + 4) * roots.length + idle
  | .walk w roots => 3 + (degree + 4) * roots.length + w.work nodes s.set degree
  | .emitSet => 1
  | .closed => 0

/-- **Every step lowers the rank.** -/
theorem rank_step (hanswers : Answers env rkeys dkeys nodes) (s : State Cid) (a : Action Cid)
    (t : State Cid) (h : Inv env typ rkeys dkeys s) (hstep : step env typ s a = some t) :
    rank env rkeys nodes t < rank env rkeys nodes s := by
  unfold Inv at h
  cases transition_of_step hstep with
  | @readRecursive roots hpc hkeys =>
    cases hanswers.recursiveKeys.symm.trans hkeys
    rw [add_eq]
    by_cases htyp : typ = .all
    · simp only [rank, hpc, if_pos htyp]
      omega
    · simp only [rank, hpc, if_neg htyp]
      omega
  | @readDirect roots keyList hpc hkeys =>
    rw [add_eq]
    by_cases htyp : typ = .all
    · simp only [rank, hpc, if_pos htyp]
      omega
    · simp only [rank, hpc, if_neg htyp]
      omega
  | hideDirect hpc hkeys =>
    rw [hide_eq]
    simp only [rank, hpc]
    omega
  | @hideRecursive roots hpc hkeys =>
    cases hanswers.recursiveKeys.symm.trans hkeys
    rw [hide_eq]
    simp only [rank, hpc]
    omega
  | @root k roots hpc =>
    simp only [rank, hpc, work_startBelow, length_cons, Nat.mul_add]
    omega
  | gathered hpc =>
    simp only [rank, hpc]
    omega
  | @walked w roots hpc hfin =>
    rw [eq_idle_of_finished hfin] at hpc
    simp only [rank, hpc]
    omega
  | @visit w roots c hpc hc =>
    rw [hpc] at h
    obtain ⟨-, done, k, hroots, hgathering⟩ := h
    have hbelow := (hgathering.below c (.inr hc)).mono
      fun r hr => (hroots r).mpr (.inl hr)
    have hlt := work_visit_lt s.set (nodes.sup fun c => (env.links c).length) hc
      (mem_nodes_of_below hanswers hbelow)
    simp only [rank, hpc]
    omega
  | @fetch w roots c targets hpc hc hget =>
    rw [hpc] at h
    obtain ⟨-, done, k, hroots, hgathering⟩ := h
    have hnode := mem_nodes_of_active hanswers hroots hgathering hc
    have hlinks : env.links c = targets := by simp [Env.links, hget]
    have hdegree : targets.length ≤ nodes.sup fun c => (env.links c).length := by
      rw [← hlinks]
      exact Finset.le_sup (f := fun c => (env.links c).length) hnode
    have hlt := work_expand_lt nodes s.set hc hdegree
    simp only [rank, hpc]
    omega
  | emit hpc hnodup hset =>
    rw [add_eq]
    simp only [rank, hpc]
    omega
  | readFailed hpc hfail =>
    rcases hfail with hfail | hfail
    · cases hanswers.recursiveKeys.symm.trans hfail
    · cases hanswers.directKeys.symm.trans hfail
  | fetchFailed hpc hc hget =>
    simp only [rank, hpc, State.fail]
    omega

theorem closed_of_stuck (h : Stuck env typ s) : s.pc = .closed := by
  cases hpc : s.pc with
  | closed => rfl
  | readRecursive | readDirect roots | hideDirect | hideRecursive =>
    have hnext := h .next
    simp only [step, hpc] at hnext
    split at hnext <;> cases hnext
  | roots roots =>
    have hnext := h .next
    cases roots with
    | nil | cons k roots => simp [step, hpc] at hnext
  | walk w roots =>
    obtain ⟨queue, active⟩ := w
    cases active with
    | cons c active =>
      have hfetch := h (.fetch c)
      simp only [step, hpc, mem_cons_self, if_true] at hfetch
      split at hfetch <;> cases hfetch
    | nil =>
      cases queue with
      | cons c queue =>
        have hvisit := h (.visit c)
        simp [step, hpc] at hvisit
      | nil =>
        have hnext := h .next
        simp [step, hpc, Walk.Finished] at hnext
  | emitSet =>
    have hemit := h (.emit s.set.toList)
    simp [step, hpc, Finset.nodup_toList] at hemit

/-! ## The listings -/

/-- What the listing of all pins should be. -/
structure ListsAll (env : Env Cid) (rkeys dkeys : List Cid) (out : List (PinInfo Cid)) :
    Prop where
  noError : ∀ info ∈ out, ∃ pinType c, info = .pin pinType c
  once : (out.filterMap PinInfo.cid).Nodup
  recursive : ∀ c, .pin .recursive c ∈ out ↔ c ∈ rkeys
  direct : ∀ c, .pin .direct c ∈ out ↔ c ∈ dkeys ∧ c ∉ rkeys
  indirect : ∀ c, .pin .indirect c ∈ out ↔ Below env rkeys c ∧ c ∉ rkeys ∧ c ∉ dkeys

/-- What the listing of the indirect pins should be. -/
structure ListsIndirect (env : Env Cid) (rkeys dkeys : List Cid) (out : List (PinInfo Cid)) :
    Prop where
  only : ∀ info ∈ out, ∃ c, info = .pin .indirect c
  once : (out.filterMap PinInfo.cid).Nodup
  indirect : ∀ c, .pin .indirect c ∈ out ↔ Below env rkeys c ∧ c ∉ rkeys ∧ c ∉ dkeys

omit [DecidableEq Cid] in
theorem filterMap_cid_map (pinType : PinType) (keyList : List Cid) :
    (keyList.map (PinInfo.pin pinType)).filterMap PinInfo.cid = keyList := by
  rw [filterMap_map]
  exact filterMap_some

theorem listsAll_of_listed {out : List (PinInfo Cid)} (h : Listed env .all rkeys dkeys out) :
    ListsAll env rkeys dkeys out := by
  obtain ⟨keys, front, order, ⟨rfl, rfl⟩, horder, rfl⟩ := h
  constructor
  · intro info hinfo
    simp only [mem_append, mem_map] at hinfo
    rcases hinfo with (⟨c, -, rfl⟩ | ⟨c, -, rfl⟩) | ⟨c, -, rfl⟩ <;> exact ⟨_, c, rfl⟩
  · simp only [filterMap_append, filterMap_cid_map, nodup_append, mem_append,
      mem_fresh, Finset.mem_union, mem_toFinset]
    refine ⟨⟨nodup_fresh _ _, nodup_fresh _ _, ?_⟩, nodup_fresh _ _, ?_⟩
    · rintro c ⟨hc, -⟩ d ⟨-, hd⟩ rfl
      exact hd hc
    · rintro c (⟨hc, -⟩ | ⟨hc, -⟩) d ⟨-, hd⟩ rfl
      · exact hd (.inl hc)
      · exact hd (.inr hc)
  · simp [mem_fresh]
  · simp [mem_fresh]
  · simp [mem_fresh, horder]

theorem listsIndirect_of_listed {out : List (PinInfo Cid)}
    (h : Listed env .indirect rkeys dkeys out) : ListsIndirect env rkeys dkeys out := by
  obtain ⟨keys, front, order, ⟨rfl, rfl⟩, horder, rfl⟩ := h
  constructor
  · intro info hinfo
    obtain ⟨c, -, rfl⟩ := mem_map.mp hinfo
    exact ⟨c, rfl⟩
  · rw [nil_append, filterMap_cid_map]
    exact nodup_fresh _ _
  · simp [mem_fresh, horder, and_comm]

/-- **Pin listings.**  Every listing ends, in every schedule of the workers and
every order of the keys.  The listing of all pins has every CID once, under the
first of recursive, direct and indirect that applies, and the listing of the
indirect pins has exactly those that it lists as indirect. -/
theorem pinLsAll_consistent (env : Env Cid) (rkeys dkeys : List Cid) (nodes : Finset Cid)
    (hanswers : Answers env rkeys dkeys nodes) :
    (∀ typ, ∃ bound, ∀ schedule s, run (step env typ) (start typ) schedule = some s →
      schedule.length ≤ bound ∧ (Stuck env typ s → s.pc = .closed)) ∧
    (∀ schedule s, run (step env .all) (start .all) schedule = some s → s.pc = .closed →
      ListsAll env rkeys dkeys s.out) ∧
    ∀ schedule s, run (step env .indirect) (start .indirect) schedule = some s →
      s.pc = .closed → ListsIndirect env rkeys dkeys s.out ∧
        ∀ schedule' s', run (step env .all) (start .all) schedule' = some s' →
          s'.pc = .closed → ∀ c, .pin .indirect c ∈ s.out ↔ .pin .indirect c ∈ s'.out := by
  have hlisted : ∀ typ schedule s, run (step env typ) (start typ) schedule = some s →
      s.pc = .closed → Listed env typ rkeys dkeys s.out := by
    intro typ schedule s hrun hpc
    have hinv := run_invariant _ (inv_step hanswers) (inv_start typ) hrun
    unfold Inv at hinv
    rwa [hpc] at hinv
  refine ⟨fun typ => ⟨rank env rkeys nodes (start typ), fun schedule s hrun => ?_⟩, ?_, ?_⟩
  · have hlength := run_length_le (Inv env typ rkeys dkeys) (fun _ _ => True)
      (rank env rkeys nodes)
      (fun s a t h _ hstep => ⟨inv_step hanswers s a t h hstep, rank_step hanswers s a t h hstep⟩)
      (inv_start typ) (along_of_forall (fun _ _ _ => True.intro) _) hrun
    exact ⟨by omega, closed_of_stuck⟩
  · exact fun schedule s hrun hpc => listsAll_of_listed (hlisted .all schedule s hrun hpc)
  · intro schedule s hrun hpc
    have hindirect := listsIndirect_of_listed (hlisted .indirect schedule s hrun hpc)
    refine ⟨hindirect, fun schedule' s' hrun' hpc' c => ?_⟩
    have hall := listsAll_of_listed (hlisted .all schedule' s' hrun' hpc')
    rw [hindirect.indirect, hall.indirect]

/-- The pins 1 and 2 are recursive and 2 lies below 1; 3 is a direct pin. -/
def nested : Env Nat where
  recursiveKeys := .ok [1, 2]
  directKeys := .ok [3]
  getLinks c := .ok (if c = 1 then [2, 3] else if c = 2 then [3, 4] else [])

theorem pinLsAll_consistent_nested :
    (run (step nested .all) (start .all)
        [.next, .next, .next, .fetch 1, .visit 2, .fetch 2, .visit 3, .visit 4, .visit 3,
          .fetch 4, .fetch 3, .next, .next, .fetch 2, .visit 4, .visit 3, .next, .next,
          .emit [4, 2, 3]]).map State.out =
      some [.pin .recursive 1, .pin .recursive 2, .pin .direct 3, .pin .indirect 4] ∧
    ∀ schedule s, run (step nested .all) (start .all) schedule = some s → s.pc = .closed →
      ListsAll nested [1, 2] [3] s.out := by
  refine ⟨by decide, (pinLsAll_consistent nested [1, 2] [3] {1, 2, 3, 4} ?_).2.1⟩
  refine ⟨rfl, rfl, by decide, fun c hc => ⟨_, rfl, ?_⟩⟩
  revert c
  decide

end PinLs
