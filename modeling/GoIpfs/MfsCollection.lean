import GoIpfs.CollectorSafety

/-!
# MFS updates during a collection

`corerepo.GarbageCollect` reads the root of the MFS in `BestEffortRoots` and
only then enters `gc.GC`, which takes the GC lock, marks and sweeps.  The MFS
commands take no pin lock: an update such as `ipfs files write` stores its
blocks and later makes its node the root, and both steps may fall anywhere into
the collection.

The system below interleaves any number of updates with one collection.  An
update that becomes the root after the read is swept away with all its blocks;
the guard `Settled` names what has to stay still for the MFS content to
survive.
-/

namespace CoreRepo

open LinkReach StepRun Option

variable {Cid : Type} [DecidableEq Cid]

/-- An MFS update: the blocks it stores and the node it makes the root. -/
structure Update (Cid : Type) where
  blocks : List Cid
  node : Cid
  deriving DecidableEq, Repr

/-- How far `GarbageCollect` has come. -/
inductive Phase (Cid : Type) where
  | idle
  /-- `BestEffortRoots` has returned an error, and so has `GarbageCollect`. -/
  | failed
  /-- `BestEffortRoots` has returned the roots; the GC lock is not yet held. -/
  | rooted (roots : List Cid)
  /-- Inside `gc.GC`. -/
  | collecting (gc : Gc.State Cid)

/-- The node: its blockstore, its MFS root, the updates that have stored their
blocks but are not yet the root, and the collection.  `written` records the
blocks that updates have stored so far. -/
structure Node (Cid : Type) where
  store : Finset Cid
  mfsRoot : Cid
  pending : List (Update Cid)
  written : Finset Cid
  phase : Phase Cid

inductive Action (Cid : Type) where
  | storeBlocks (u : Update Cid)
  | setRoot (u : Update Cid)
  | bestEffortRoots (fails : Bool)
  | gcLock
  | gc (ch : Gc.Choice Cid)
  deriving DecidableEq, Repr

/-- The collector works on the blockstore of the node. -/
def onStore (gc : Gc.State Cid) (store : Finset Cid) : Gc.State Cid :=
  { gc with store := store }

/-- One step of an update or of `GarbageCollect`. -/
def step (env : Gc.Env Cid) (n : Node Cid) : Action Cid → Option (Node Cid)
  | .storeBlocks u => some { n with
      store := n.store ∪ u.blocks.toFinset
      written := n.written ∪ u.blocks.toFinset
      pending := u :: n.pending }
  | .setRoot u =>
    if u ∈ n.pending then
      some { n with mfsRoot := u.node, pending := n.pending.erase u }
    else none
  | .bestEffortRoots fails =>
    match n.phase with
    | .idle => some { n with phase := if fails then .failed else .rooted [n.mfsRoot] }
    | _ => none
  | .gcLock =>
    match n.phase with
    | .rooted roots => some { n with phase := .collecting (Gc.init n.store roots) }
    | _ => none
  | .gc ch =>
    match n.phase with
    | .collecting gc =>
      (Gc.step env (onStore gc n.store) ch).map fun gc' =>
        { n with store := gc'.store, phase := .collecting gc' }
    | _ => none

/-- A node before the collection starts. -/
def init (store : Finset Cid) (mfsRoot : Cid) : Node Cid :=
  ⟨store, mfsRoot, [], ∅, .idle⟩

/-- `GarbageCollect` has come to its end. -/
def Phase.ended : Phase Cid → Bool
  | .failed => true
  | .collecting gc => gc.pc = .done
  | _ => false

/-- The links of a block, stored or not. -/
def dagLinks (env : Gc.Env Cid) (c : Cid) : List Cid :=
  if env.isRaw c then [] else env.links c

/-- Every block that an update has stored and that lies below the MFS root is
still in the blockstore. -/
def ContentKept (env : Gc.Env Cid) (n : Node Cid) : Prop :=
  ∀ k ∈ n.written, Reach (dagLinks env) n.mfsRoot k → k ∈ n.store

/-- An unpinned world without links. -/
def bareEnv : Gc.Env Nat where
  recursiveKeys := .ok []
  directKeys := .ok []
  internalPins := .ok []
  validateCid := fun _ => none
  isRaw := fun _ => false
  links := fun _ => []
  fetchError := fun _ => none
  allKeysError := none
  collectGarbage := none

/-- Block 1 is written and becomes the MFS root between the read of the old
root 0 and the sweep. -/
def lateUpdate : List (Action Nat) :=
  [.bestEffortRoots false, .storeBlocks ⟨[1], 1⟩, .setRoot ⟨[1], 1⟩, .gcLock] ++
    [.next, .next, .next, .visit 0, .fetch 0 false true, .next, .next, .next,
      .next, .next, .next, .next, .next, .recvKey 1 none, .send, .next, .keysClosed,
      .next, .next].map .gc

/-- **A late update is lost.**  The root that is current when the collection
ends was stored by an update, and the collection has deleted it. -/
theorem lateUpdate_lost :
    ∃ n, run (step bareEnv) (init {0} 0) lateUpdate = some n ∧
      n.phase.ended = true ∧ ¬ ContentKept bareEnv n := by
  have hany : (run (step bareEnv) (init {0} 0) lateUpdate).any
      (fun n => decide (n.phase.ended = true ∧ n.mfsRoot ∈ n.written ∧
        n.mfsRoot ∉ n.store)) = true := by decide
  obtain ⟨n, hn, hp⟩ := exists_run_of_any hany
  obtain ⟨hended, hwritten, hgone⟩ : n.phase.ended = true ∧ n.mfsRoot ∈ n.written ∧
    n.mfsRoot ∉ n.store := of_decide_eq_true hp
  exact ⟨n, hn, hended, fun h => hgone (h _ hwritten (Reach.refl _))⟩

/-- Between the read of the MFS root and the end of the collection. -/
def Phase.active : Phase Cid → Bool
  | .rooted _ | .collecting _ => true
  | _ => false

/-- What a step must respect for the MFS content to survive.  While the
collection is active no update becomes the root and none stores an absent block
below the root; and when the root is read, no stored block hangs below a block
that cannot be retrieved. -/
def Settled (env : Gc.Env Cid) (n : Node Cid) : Action Cid → Prop
  | .storeBlocks u => n.phase.active = true →
      ∀ b ∈ u.blocks, b ∉ n.store → ¬ Reach (dagLinks env) n.mfsRoot b
  | .setRoot _ => n.phase.active = false
  | .bestEffortRoots _ => ∀ k ∈ n.store, Reach (dagLinks env) n.mfsRoot k →
      Reach (Gc.storedLinks env n.store) n.mfsRoot k
  | _ => True

/-- What lies below the MFS root lies there through blocks of `base`. -/
def Based (env : Gc.Env Cid) (base : Finset Cid) (n : Node Cid) : Prop :=
  ∀ k, k ∈ n.written ∨ k ∈ n.store → Reach (dagLinks env) n.mfsRoot k →
    k ∈ base ∧ Reach (Gc.storedLinks env base) n.mfsRoot k

/-- The invariant of a run with settled updates; `base` is the blockstore at
the moment the MFS root was read. -/
def Inv (env : Gc.Env Cid) (n : Node Cid) : Prop :=
  match n.phase with
  | .idle | .failed => n.written ⊆ n.store
  | .rooted roots => roots = [n.mfsRoot] ∧ ∃ base ⊆ n.store, Based env base n
  | .collecting gc => ∃ base, Gc.Inv env base [n.mfsRoot] (onStore gc n.store) ∧
      Based env base n ∧ ∀ k ∈ base, k ∉ n.store → k ∈ gc.deleteCalls

variable {env : Gc.Env Cid} {n m : Node Cid}

theorem inv_onStore {base store store' : Finset Cid} {broots : List Cid}
    {gc : Gc.State Cid} (hsub : store ⊆ store')
    (h : Gc.Inv env base broots (onStore gc store)) :
    Gc.Inv env base broots (onStore gc store') :=
  ⟨h.roots, fun hmark => (h.stored hmark).trans hsub, h.safe, h.progress⟩

private theorem based_storeBlocks {base : Finset Cid} {u : Update Cid}
    (hfresh : ∀ b ∈ u.blocks, b ∉ n.store → ¬ Reach (dagLinks env) n.mfsRoot b)
    (h : Based env base n) :
    Based env base { n with
      store := n.store ∪ u.blocks.toFinset
      written := n.written ∪ u.blocks.toFinset
      pending := u :: n.pending } := by
  intro k hk hreach
  by_cases hold : k ∈ n.written ∨ k ∈ n.store
  · exact h k hold hreach
  · have hblock : k ∈ u.blocks := by
      simp only [Finset.mem_union, List.mem_toFinset] at hk
      tauto
    exact absurd hreach (hfresh k hblock fun hstore => hold (.inr hstore))

private theorem inv_storeBlocks {u : Update Cid} (h : Inv env n)
    (hfresh : n.phase.active = true →
      ∀ b ∈ u.blocks, b ∉ n.store → ¬ Reach (dagLinks env) n.mfsRoot b) :
    Inv env { n with
      store := n.store ∪ u.blocks.toFinset
      written := n.written ∪ u.blocks.toFinset
      pending := u :: n.pending } := by
  simp only [Inv] at h ⊢
  cases hphase : n.phase with
  | idle | failed =>
    rw [hphase] at h
    exact Finset.union_subset_union_left h
  | rooted roots =>
    rw [hphase] at h hfresh
    obtain ⟨hroots, base, hsub, hbased⟩ := h
    exact ⟨hroots, base, hsub.trans Finset.subset_union_left, based_storeBlocks (hfresh rfl) hbased⟩
  | collecting gc =>
    rw [hphase] at h hfresh
    obtain ⟨base, hinv, hbased, hgone⟩ := h
    refine ⟨base, inv_onStore Finset.subset_union_left hinv,
      based_storeBlocks (hfresh rfl) hbased, ?_⟩
    intro k hk hnot
    exact hgone k hk fun hstore => hnot (Finset.mem_union_left _ hstore)

private theorem inv_bestEffortRoots (fails : Bool) (hwritten : n.written ⊆ n.store)
    (hbelow : ∀ k ∈ n.store, Reach (dagLinks env) n.mfsRoot k →
      Reach (Gc.storedLinks env n.store) n.mfsRoot k) :
    Inv env { n with phase := if fails then .failed else .rooted [n.mfsRoot] } := by
  cases fails with
  | true => exact hwritten
  | false =>
    refine ⟨rfl, n.store, Finset.Subset.refl _, ?_⟩
    intro k hk hreach
    have hstore : k ∈ n.store := hk.elim (fun hw => hwritten hw) id
    exact ⟨hstore, hbelow k hstore hreach⟩

private theorem inv_gc {gc gc' : Gc.State Cid} {ch : Gc.Choice Cid}
    (hphase : n.phase = .collecting gc) (h : Inv env n)
    (hstep : Gc.step env (onStore gc n.store) ch = some gc') :
    Inv env { n with store := gc'.store, phase := .collecting gc' } := by
  simp only [Inv] at h ⊢
  rw [hphase] at h
  obtain ⟨base, hinv, hbased, hgone⟩ := h
  obtain ⟨hsub, hcalls, hdeleted⟩ := Gc.store_transition (Gc.transition_of_step hstep)
  refine ⟨base, Gc.inv_step _ ch _ hinv hstep, ?_, ?_⟩
  · intro k hk hreach
    exact hbased k (hk.imp_right fun hstore => hsub hstore) hreach
  · intro k hk hnot
    by_cases hstore : k ∈ n.store
    · exact hdeleted k hstore hnot
    · exact hcalls k (hgone k hk hstore)

/-- **Settled steps keep the invariant.** -/
theorem inv_step (n : Node Cid) (a : Action Cid) (m : Node Cid) (h : Inv env n)
    (hsettled : Settled env n a) (hstep : step env n a = some m) : Inv env m := by
  cases a with
  | storeBlocks u =>
    obtain rfl := some.inj hstep
    exact inv_storeBlocks h hsettled
  | setRoot u =>
    simp only [step] at hstep
    split at hstep
    · obtain rfl := some.inj hstep
      simp only [Inv] at h ⊢
      cases hphase : n.phase with
      | idle | failed =>
        rw [hphase] at h
        exact h
      | rooted | collecting => simp [Settled, hphase, Phase.active] at hsettled
    · cases hstep
  | bestEffortRoots fails =>
    cases hphase : n.phase with
    | idle =>
      simp only [step, hphase, some.injEq] at hstep
      subst hstep
      simp only [Inv, hphase] at h
      exact inv_bestEffortRoots fails h hsettled
    | _ => simp [step, hphase] at hstep
  | gcLock =>
    cases hphase : n.phase with
    | rooted roots =>
      simp only [step, hphase, some.injEq] at hstep
      subst hstep
      simp only [Inv, hphase] at h
      obtain ⟨rfl, base, hsub, hbased⟩ := h
      exact ⟨base, Gc.inv_init hsub, hbased, fun k hk hnot => absurd (hsub hk) hnot⟩
    | _ => simp [step, hphase] at hstep
  | gc ch =>
    cases hphase : n.phase with
    | collecting gc =>
      simp only [step, hphase, map_eq_some_iff] at hstep
      obtain ⟨gc', hgc, rfl⟩ := hstep
      exact inv_gc hphase h hgc
    | _ => simp [step, hphase] at hstep

theorem Inv.contentKept (h : Inv env n) (hended : n.phase.ended = true) : ContentKept env n := by
  intro k hk hreach
  simp only [Inv] at h
  cases hphase : n.phase with
  | idle | failed =>
    rw [hphase] at h
    exact h hk
  | rooted roots => simp [hphase, Phase.ended] at hended
  | collecting gc =>
    rw [hphase] at h
    obtain ⟨base, hinv, hbased, hgone⟩ := h
    obtain ⟨hbase, hpath⟩ := hbased k (.inl hk) hreach
    by_contra hnot
    have hgarbage := hinv.safe k (hgone k hbase hnot)
    exact hgarbage.2 n.mfsRoot (by simp) hpath

/-- **Settled MFS content survives a collection.**  In every interleaving of
MFS updates with one `GarbageCollect` run in which every step is settled, each
block that an update has stored and that lies below the current MFS root is
still stored when the collection ends. -/
theorem content_kept_of_settled (env : Gc.Env Cid) (store : Finset Cid)
    (mfsRoot : Cid) (actions : List (Action Cid)) {n : Node Cid}
    (hsettled : Along (step env) (Settled env) (init store mfsRoot) actions)
    (hrun : run (step env) (init store mfsRoot) actions = some n)
    (hended : n.phase.ended = true) : ContentKept env n := by
  have hinv : Inv env n :=
    run_invariant_along (Inv env) (Settled env) inv_step
      (show Inv env (init store mfsRoot) from Finset.empty_subset _) hsettled hrun
  exact hinv.contentKept hended

/-- The same update, made before the collection reads the root. -/
def earlyUpdate : List (Action Nat) :=
  [.storeBlocks ⟨[1], 1⟩, .setRoot ⟨[1], 1⟩, .bestEffortRoots false, .gcLock] ++
    [.next, .next, .next, .visit 1, .fetch 1 false true, .next, .next, .next,
      .next, .next, .next, .next, .next, .recvKey 0 none, .send, .next, .recvKey 1 none,
      .next, .keysClosed, .next, .next].map .gc

theorem content_kept_of_settled_early :
    ∃ n, run (step bareEnv) (init {0} 0) earlyUpdate = some n ∧
      1 ∈ n.written ∧ n.mfsRoot = 1 ∧ ContentKept bareEnv n := by
  have hany : (run (step bareEnv) (init {0} 0) earlyUpdate).any
      (fun n => decide (n.phase.ended = true ∧ 1 ∈ n.written ∧ n.mfsRoot = 1)) = true := by
    decide
  obtain ⟨n, hn, hp⟩ := exists_run_of_any hany
  obtain ⟨hended, hwritten, hroot⟩ : n.phase.ended = true ∧ 1 ∈ n.written ∧
    n.mfsRoot = 1 := of_decide_eq_true hp
  have hself : ∀ k, Reach (dagLinks bareEnv) 1 k → k = 1 := by
    intro k hk
    rcases hk.cases_head with heq | ⟨b, hb, _⟩
    · exact heq.symm
    · simp [dagLinks, bareEnv] at hb
  have hsettled : Along (step bareEnv) (Settled bareEnv) (init {0} 0) earlyUpdate := by
    refine ⟨fun hactive => absurd hactive (by decide), ?_⟩
    intro n₁ h₁
    obtain rfl := some.inj h₁
    refine ⟨rfl, ?_⟩
    intro n₂ h₂
    obtain rfl := some.inj h₂
    refine ⟨fun k _ hreach => hself k hreach ▸ Reach.refl _, ?_⟩
    intro n₃ _
    refine along_of_forall ?_ n₃
    intro a ha n'
    rcases List.mem_cons.mp ha with rfl | hgc
    · exact True.intro
    · obtain ⟨ch, _, rfl⟩ := List.mem_map.mp hgc
      exact True.intro
  exact ⟨n, hn, hwritten, hroot, content_kept_of_settled bareEnv _ _ earlyUpdate hsettled hn hended⟩

end CoreRepo
