import GoIpfs.CollectorTransition

/-!
# The collector deletes only garbage

The collector shares one visited set between a strict walk from the recursive
pins, a best-effort walk from the MFS root and the plain additions of direct
pins.  `Progress` says what that set has achieved at each point of the code as
long as no error was remembered: inside a walk it is covered by the walk, at a
loop head it is closed under the retrievable links, and from the direct pins
on it *keeps* a closed part with all live roots.  A remembered error drops the
promise, and `markDone` is the only way into the sweep.

The invariant is relative to a set `base` of blocks that stay stored while the
collector marks, so it also holds when other writers add blocks meanwhile.
-/

namespace Gc

open GraphWalk LinkReach StepRun

variable {Cid : Type} [DecidableEq Cid]

def answered : Except String (List Cid) → List Cid
  | .ok keys => keys
  | .error _ => []

/-- `k` is neither pinned directly nor reachable, through blocks retrievable
from `base`, from a recursive pin or a best-effort root. -/
def Garbage (env : Env Cid) (base : Finset Cid) (broots : List Cid) (k : Cid) : Prop :=
  k ∉ answered env.directKeys ∧
    ∀ r ∈ answered env.recursiveKeys ++ broots, ¬ Reach (storedLinks env base) r k

/-- The roots that the set must cover once a stage is through. -/
def Stage.due (env : Env Cid) (broots : List Cid) : Stage → List Cid
  | .recursive => answered env.recursiveKeys
  | _ => answered env.recursiveKeys ++ broots

/-- The marked set contains the direct pins and a closed part that contains
the roots.  The direct pins themselves need not be closed. -/
structure Keeps (env : Env Cid) (base : Finset Cid) (broots : List Cid)
    (gcs : Finset Cid) : Prop where
  core : ∃ M : Set Cid, Closed (storedLinks env base) M ∧
    (∀ r ∈ answered env.recursiveKeys ++ broots, r ∈ M) ∧ ∀ c ∈ M, c ∈ gcs
  direct : ∀ d ∈ answered env.directKeys, d ∈ gcs

/-- The part of the collector that holds the marking phase. -/
def Pc.marking : Pc Cid → Bool
  | .recursiveKeys | .descendants _ _ | .walk _ _ _ | .drain _ _ _ | .report _ _
  | .directKeys | .internalPins | .marked => true
  | _ => false

/-- What the marked set has achieved at each point of an error-free run. -/
def Progress (env : Env Cid) (base : Finset Cid) (broots : List Cid)
    (gcs : Finset Cid) : Pc Cid → Prop
  | .recursiveKeys => gcs = ∅
  | .descendants .internal _ | .walk .internal _ _ => Keeps env base broots gcs
  | .descendants stage roots =>
    Closed (storedLinks env base) (↑gcs : Set Cid) ∧
      ∀ r ∈ stage.due env broots, r ∈ gcs ∨ r ∈ roots
  | .walk stage roots w =>
    Covers (storedLinks env base) w gcs ∧
      ∀ r ∈ stage.due env broots, Held w gcs r ∨ r ∈ roots
  | .directKeys =>
    Closed (storedLinks env base) (↑gcs : Set Cid) ∧
      ∀ r ∈ answered env.recursiveKeys ++ broots, r ∈ gcs
  | .internalPins | .marked | .allKeys | .sweep | .receive | .deleted _ =>
    Keeps env base broots gcs
  | .report _ _ => False
  | _ => True

/-- The collector's invariant relative to a set of blocks that stay stored
while it marks. -/
structure Inv (env : Env Cid) (base : Finset Cid) (broots : List Cid)
    (s : State Cid) : Prop where
  roots : s.bestEffortRoots = broots
  stored : s.pc.marking = true → base ⊆ s.store
  safe : ∀ k ∈ s.deleteCalls, Garbage env base broots k
  progress : s.errors = true ∧ s.pc.marking = true ∨ Progress env base broots s.gcs s.pc

variable {env : Env Cid} {base : Finset Cid} {broots : List Cid}

variable {gcs : Finset Cid}

theorem Keeps.mono {gcs' : Finset Cid} (hsub : gcs ⊆ gcs') (h : Keeps env base broots gcs) :
    Keeps env base broots gcs' := by
  obtain ⟨M, hclosed, hroots, hM⟩ := h.core
  exact ⟨⟨M, hclosed, hroots, fun c hc => hsub (hM c hc)⟩, fun d hd => hsub (h.direct d hd)⟩

theorem Keeps.garbage (h : Keeps env base broots gcs) {k : Cid} (hk : k ∉ gcs) :
    Garbage env base broots k := by
  obtain ⟨M, hclosed, hroots, hM⟩ := h.core
  refine ⟨fun hd => hk (h.direct k hd), ?_⟩
  intro r hr hreach
  exact hk (hM k (hreach.mem_of_closed hclosed (hroots r hr)))

variable {store : Finset Cid} {c : Cid}

theorem storedLinks_subset (hsub : base ⊆ store) {targets : List Cid}
    (hget : ipldGetLinks env store c = .ok targets) :
    ∀ b ∈ storedLinks env base c, b ∈ targets := by
  intro b hb
  unfold storedLinks ipldGetLinks at hb
  unfold ipldGetLinks at hget
  split at hb
  · simp [Except.toOption] at hb
  rename_i hraw
  split at hb
  · rename_i hc
    rw [if_neg hraw, if_pos (hsub hc)] at hget
    cases herr : env.fetchError c with
    | none =>
      simp only [herr, Except.ok.injEq] at hget
      subst hget
      simpa [herr, Except.toOption] using hb
    | some err => simp [herr] at hget
  · simp [Except.toOption] at hb

theorem storedLinks_missing (hsub : base ⊆ store) {err : FetchError}
    (hget : ipldGetLinks env store c = .error err) : storedLinks env base c = [] := by
  unfold ipldGetLinks at hget
  unfold storedLinks ipldGetLinks
  split at hget
  · cases hget
  rename_i hraw
  rw [if_neg hraw]
  by_cases hc : c ∈ base
  · rw [if_pos (hsub hc)] at hget
    rw [if_pos hc]
    cases herr : env.fetchError c with
    | none => simp [herr] at hget
    | some e => simp [Except.toOption]
  · simp [if_neg hc, Except.toOption]

variable {stage : Stage} {roots : List Cid}

private theorem progress_descendants (hstage : stage ≠ .internal) :
    Progress env base broots gcs (.descendants stage roots) ↔
      Closed (storedLinks env base) (↑gcs : Set Cid) ∧
        ∀ r ∈ stage.due env broots, r ∈ gcs ∨ r ∈ roots := by
  cases stage with
  | internal => exact absurd rfl hstage
  | _ => exact Iff.rfl

variable {w : Walk Cid}

private theorem progress_walk (hstage : stage ≠ .internal) :
    Progress env base broots gcs (.walk stage roots w) ↔
      Covers (storedLinks env base) w gcs ∧
        ∀ r ∈ stage.due env broots, Held w gcs r ∨ r ∈ roots := by
  cases stage with
  | internal => exact absurd rfl hstage
  | _ => exact Iff.rfl

private theorem progress_nextRoot
    (h : Progress env base broots gcs (.descendants stage (c :: roots))) :
    Progress env base broots gcs (.walk stage roots (Walk.start c)) := by
  by_cases hstage : stage = .internal
  · subst hstage
    exact h
  obtain ⟨hclosed, hdue⟩ := (progress_descendants hstage).mp h
  refine (progress_walk hstage).mpr ⟨covers_start c hclosed, ?_⟩
  intro r hr
  rcases hdue r hr with hseen | hroots
  · exact .inl (.inl hseen)
  · rcases List.mem_cons.mp hroots with rfl | hrest
    · exact .inl (held_start r)
    · exact .inr hrest

private theorem progress_walkDone (hfin : w.Finished)
    (h : Progress env base broots gcs (.walk stage roots w)) :
    Progress env base broots gcs (.descendants stage roots) := by
  by_cases hstage : stage = .internal
  · subst hstage
    exact h
  obtain ⟨hcovers, hdue⟩ := (progress_walk hstage).mp h
  refine (progress_descendants hstage).mpr ⟨closed_of_finished hfin hcovers, ?_⟩
  intro r hr
  rcases hdue r hr with hheld | hroots
  · exact .inl (mem_of_finished hfin hheld)
  · exact .inr hroots

private theorem progress_visit (c : Cid) (h : Progress env base broots gcs (.walk stage roots w)) :
    Progress env base broots (w.visit gcs c).2
      (.walk stage roots (w.visit gcs c).1) := by
  by_cases hstage : stage = .internal
  · subst hstage
    exact Keeps.mono (subset_visit c) h
  · obtain ⟨hcovers, hdue⟩ := (progress_walk hstage).mp h
    refine (progress_walk hstage).mpr ⟨covers_visit c hcovers, ?_⟩
    intro r hr
    exact (hdue r hr).imp_left (held_visit c)

private theorem progress_expand {targets : List Cid}
    (hsub : ∀ b ∈ storedLinks env base c, b ∈ targets)
    (h : Progress env base broots gcs (.walk stage roots w)) :
    Progress env base broots gcs (.walk stage roots (w.expand c targets)) := by
  by_cases hstage : stage = .internal
  · subst hstage
    exact h
  · obtain ⟨hcovers, hdue⟩ := (progress_walk hstage).mp h
    refine (progress_walk hstage).mpr ⟨covers_expand c hsub hcovers, ?_⟩
    intro r hr
    exact (hdue r hr).imp_left (held_expand c targets)

variable {s : State Cid}

private theorem progress_rootsDone (hroots : s.bestEffortRoots = broots)
    (h : Progress env base broots s.gcs (.descendants stage [])) :
    Progress env base broots s.gcs (afterStage s stage) := by
  cases stage with
  | recursive =>
    obtain ⟨hclosed, hdue⟩ := h
    refine ⟨hclosed, ?_⟩
    intro r hr
    rcases List.mem_append.mp hr with hrec | hbest
    · exact .inl ((hdue r hrec).resolve_right (by simp))
    · exact .inr (hroots ▸ hbest)
  | bestEffort =>
    obtain ⟨hclosed, hdue⟩ := h
    exact ⟨hclosed, fun r hr => (hdue r hr).resolve_right (by simp)⟩
  | internal => exact h

private theorem keeps_directKeys {dkeys : List Cid} (hkeys : env.directKeys = .ok dkeys)
    (h : Progress env base broots gcs .directKeys) :
    Keeps env base broots (gcs ∪ dkeys.toFinset) := by
  obtain ⟨hclosed, hroots⟩ := h
  refine ⟨⟨↑gcs, hclosed, fun r hr => by simpa using hroots r hr, ?_⟩, ?_⟩
  · intro c hc
    exact Finset.mem_union_left _ (by simpa using hc)
  · intro d hd
    rw [hkeys] at hd
    exact Finset.mem_union_right _ (by simpa [answered] using hd)

omit [DecidableEq Cid] in
theorem afterStage_marking (s : State Cid) (stage : Stage) :
    (afterStage s stage).marking = true := by
  cases stage <;> rfl

variable {t : State Cid} {ch : Choice Cid}

theorem Transition.roots_eq (h : Transition env s ch t) :
    t.bestEffortRoots = s.bestEffortRoots := by
  cases h <;> rfl

/-- While it marks, the collector leaves the store alone. -/
theorem marking_back (htrans : Transition env s ch t) (ht : t.pc.marking = true) :
    s.pc.marking = true ∧ t.store = s.store ∧ t.deleteCalls = s.deleteCalls ∧
      t.deleteErrors = s.deleteErrors := by
  cases htrans with
  | cancel => exact ⟨ht, rfl, rfl, rfl⟩
  | rkeys hpc | rootsDone hpc | nextRoot hpc | visit hpc | explored hpc | missing hpc
  | swallowed hpc | unsent hpc | rejected hpc | walkDone hpc | walkCanceled hpc
  | drainVisit hpc | drainFetch hpc | drained hpc | reported hpc | dkeys hpc
  | ikeys hpc => exact ⟨by rw [hpc]; rfl, rfl, rfl, rfl⟩
  | _ => exact absurd ht (by simp [Pc.marking])

private theorem progress_transition (h : Inv env base broots s) (htrans : Transition env s ch t) :
    t.errors = true ∧ t.pc.marking = true ∨ Progress env base broots t.gcs t.pc := by
  have hprog := h.progress
  cases htrans with
  | cancel => exact hprog
  | rkeys hpc hkeys =>
    rw [hpc] at hprog
    refine hprog.imp (fun he => ⟨he.1, rfl⟩) ?_
    intro hempty
    refine ⟨?_, ?_⟩
    · intro a ha
      simp [show s.gcs = ∅ from hempty] at ha
    · intro r hr
      simp only [Stage.due, hkeys, answered] at hr
      exact .inr hr
  | rootsDone hpc =>
    rw [hpc] at hprog
    exact hprog.imp (fun he => ⟨he.1, afterStage_marking s _⟩) (progress_rootsDone h.roots)
  | nextRoot hpc =>
    rw [hpc] at hprog
    exact hprog.imp (fun he => ⟨he.1, rfl⟩) progress_nextRoot
  | visit hpc hc =>
    rw [hpc] at hprog
    exact hprog.imp (fun he => ⟨he.1, rfl⟩) (progress_visit _)
  | explored hpc hc hvalid hget =>
    have hsub := storedLinks_subset (h.stored (by rw [hpc]; rfl)) hget
    rw [hpc] at hprog
    exact hprog.imp (fun he => ⟨he.1, rfl⟩) (progress_expand hsub)
  | missing hpc hc hvalid hget =>
    have hnone := storedLinks_missing (h.stored (by rw [hpc]; rfl)) hget
    rw [hpc] at hprog
    exact hprog.imp (fun he => ⟨he.1, rfl⟩) (progress_expand (by simp [hnone]))
  | walkDone hpc hfin =>
    rw [hpc] at hprog
    exact hprog.imp (fun he => ⟨he.1, rfl⟩) (progress_walkDone hfin)
  -- the flag is set, so nothing is promised about the set any more
  | swallowed | unsent | drained => exact .inl ⟨rfl, rfl⟩
  | reported hpc =>
    rw [hpc] at hprog
    exact .inl ⟨(hprog.resolve_right id).1, afterStage_marking s _⟩
  | dkeys hpc hkeys =>
    rw [hpc] at hprog
    exact hprog.imp (fun he => ⟨he.1, rfl⟩) (keeps_directKeys hkeys)
  | ikeys hpc hkeys =>
    rw [hpc] at hprog
    exact hprog.imp (fun he => ⟨he.1, rfl⟩) id
  | markDone hpc herrors =>
    rw [hpc] at hprog
    exact .inr (hprog.resolve_left fun he => by simp [herrors] at he)
  | allKeys hpc | sweepOn hpc | keyMarked hpc | deletedSent hpc | deleteErr hpc | deleteOk hpc =>
    rw [hpc] at hprog
    exact .inr (hprog.resolve_left (by simp [Pc.marking]))
  | _ => exact .inr trivial

/-- **Every step keeps the invariant.** -/
theorem inv_transition (h : Inv env base broots s) (htrans : Transition env s ch t) :
    Inv env base broots t where
  roots := htrans.roots_eq.trans h.roots
  stored ht := by
    obtain ⟨hs, hstore, _⟩ := marking_back htrans ht
    exact hstore ▸ h.stored hs
  safe := by
    have hprog := h.progress
    cases htrans with
    | deleteErr hpc _ hk | deleteOk hpc _ hk =>
      rw [hpc] at hprog
      have hkeeps : Keeps env base broots s.gcs := hprog.resolve_left (by simp [Pc.marking])
      exact List.forall_mem_cons.mpr ⟨hkeeps.garbage hk, h.safe⟩
    | _ => exact h.safe
  progress := progress_transition h htrans

theorem inv_step (s : State Cid) (ch : Choice Cid) (t : State Cid)
    (h : Inv env base broots s) (hstep : step env s ch = some t) :
    Inv env base broots t :=
  inv_transition h (transition_of_step hstep)

theorem inv_init (hsub : base ⊆ store) : Inv env base broots (init store broots) :=
  ⟨rfl, fun _ => hsub, by simp [init], .inr rfl⟩

/-- A step of the collector removes a block from the store only by a recorded
`DeleteBlock` call, and adds none. -/
theorem store_transition (h : Transition env s ch t) :
    t.store ⊆ s.store ∧ (∀ k ∈ s.deleteCalls, k ∈ t.deleteCalls) ∧
      ∀ k ∈ s.store, k ∉ t.store → k ∈ t.deleteCalls := by
  cases h with
  | deleteErr =>
    exact ⟨Finset.Subset.refl _, fun k hk => List.mem_cons_of_mem _ hk,
      fun k hk hgone => absurd hk hgone⟩
  | @deleteOk d =>
    refine ⟨Finset.erase_subset _ _, fun k hk => List.mem_cons_of_mem _ hk, ?_⟩
    intro k hk hgone
    by_cases hkd : k = d
    · exact hkd ▸ List.mem_cons_self
    · exact absurd (Finset.mem_erase.mpr ⟨hkd, hk⟩) hgone
  | _ =>
    exact ⟨Finset.Subset.refl _, fun k hk => hk, fun k hk hgone => absurd hk hgone⟩

/-- **What a collection takes out of the store is garbage.** -/
theorem garbage_of_removed {schedule : List (Choice Cid)}
    (hrun : run (step env) (init store broots) schedule = some s) {k : Cid} (hk : k ∈ store)
    (hgone : k ∉ s.store) : Garbage env store broots k := by
  have hinv : Inv env store broots s :=
    run_invariant _ inv_step (inv_init (Finset.Subset.refl _)) hrun
  have hrecorded : ∀ k ∈ store, k ∉ s.store → k ∈ s.deleteCalls := by
    refine run_invariant (fun s => ∀ k ∈ store, k ∉ s.store → k ∈ s.deleteCalls) ?_
      (fun k hk hnot => absurd hk hnot) hrun
    intro s ch t h hstep k hk hnot
    obtain ⟨_, hcalls, hdeleted⟩ := store_transition (transition_of_step hstep)
    by_cases hs : k ∈ s.store
    · exact hdeleted k hs hnot
    · exact hcalls k (h k hk hs)
  exact hinv.safe k (hrecorded k hk hgone)

/-- **The collector deletes only garbage.**  In every run, whatever the order
of the concurrent walks and of the key enumeration, whatever fetches and
deletions fail and whenever the context is cancelled, `DeleteBlock` is only
called for keys that are not pinned directly and not reachable from a
recursive pin or a best-effort root. -/
theorem deleteBlock_only_garbage (env : Env Cid) (store : Finset Cid)
    (broots : List Cid) (schedule : List (Choice Cid)) {s : State Cid}
    (hrun : run (step env) (init store broots) schedule = some s)
    {k : Cid} (hk : k ∈ s.deleteCalls) :
    k ∉ answered env.directKeys ∧
      ∀ r ∈ answered env.recursiveKeys ++ broots,
        ¬ Reach (storedLinks env store) r k := by
  have hinv : Inv env store broots s :=
    run_invariant _ inv_step (inv_init (Finset.Subset.refl _)) hrun
  exact hinv.safe k hk

/-- A store with a recursively pinned chain `1 → 2`, a directly pinned block
`5` and an unpinned block `3`. -/
def sampleEnv : Env Nat where
  recursiveKeys := .ok [1]
  directKeys := .ok [5]
  internalPins := .ok []
  validateCid := fun _ => none
  isRaw := fun _ => false
  links := fun c => if c = 1 then [2] else []
  fetchError := fun _ => none
  allKeysError := none
  collectGarbage := none

/-- Mark from the pin, then sweep the keys 1, 3 and 5. -/
def sampleSchedule : List (Choice Nat) :=
  [.next, .next, .visit 1, .fetch 1 false true, .visit 2, .fetch 2 false true,
    .next, .next, .next, .next, .next, .next, .next, .next, .next, .recvKey 1 none,
    .next, .recvKey 3 none, .send, .next, .recvKey 5 none]

theorem deleteBlock_only_garbage_sample :
    ∃ s, run (step sampleEnv) (init {1, 2, 3, 5} []) sampleSchedule = some s ∧
      3 ∈ s.deleteCalls ∧ 3 ∉ answered sampleEnv.directKeys ∧
      ∀ r ∈ answered sampleEnv.recursiveKeys ++ [],
        ¬ Reach (storedLinks sampleEnv {1, 2, 3, 5}) r 3 := by
  have hany : (run (step sampleEnv) (init {1, 2, 3, 5} []) sampleSchedule).any
      (fun s => decide (3 ∈ s.deleteCalls)) = true := by decide
  obtain ⟨s, hs, hp⟩ := exists_run_of_any hany
  have hk : 3 ∈ s.deleteCalls := of_decide_eq_true hp
  exact ⟨s, hs, hk, deleteBlock_only_garbage sampleEnv _ [] sampleSchedule hs hk⟩

end Gc
