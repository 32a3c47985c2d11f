import GoIpfs.AdderTree
import GoIpfs.CollectorSafety

/-!
# Adding survives collections

The adder releases the pin lock only after it has pinned the root of all it has
completed, and a collection spares what is below a pin.  So whatever
collections run at the pauses, at any depth of the tree, the MFS under
construction stays stored, every completed file is below a pin whenever the
lock is released, and the DAG that is returned is in the store.
-/

namespace CoreUnix

open Effects LinkReach Mfs

variable {Cid File : Type} [DecidableEq Cid]
variable {env : Env Cid File}

/-- **The collector keeps its promise.**  What any run of `gc.GC` with these
recursive pins leaves of the store may serve as `collect`. -/
theorem gc_spares {u : Unixfs Cid} {genv : Gc.Env Cid} {store : Finset Cid}
    {pins broots : List Cid} {schedule : List (Gc.Choice Cid)} {g : Gc.State Cid}
    (hpins : genv.recursiveKeys = .ok pins)
    (hlinks : ∀ c ∈ store, Gc.storedLinks genv store c = u.links c)
    (hrun : StepRun.run (Gc.step genv) (Gc.init store broots) schedule = some g) :
    ∀ k ∈ store, k ∉ g.store → ∀ r ∈ pins, ¬ Reach (linksWithin u store) r k := by
  intro k hk hgone r hr hreach
  have hgarbage := (Gc.garbage_of_removed hrun hk hgone).2 r
    (by rw [hpins]; exact List.mem_append_left _ hr)
  refine hgarbage (hreach.mono ?_)
  intro a b hb
  unfold linksWithin at hb
  split at hb
  · rename_i ha
    rw [hlinks a ha]
    exact hb
  · simp at hb

mutual

/-- **Adding a node** grows the tree as specified and pins the roots of the
pauses. -/
theorem addFileNode_wp (node : FileNode File) {path : String} {toplevel : Bool}
    {t : Mfs.Tree Cid} {s : Adder Cid} {Q : Unit → Adder Cid → Prop}
    (hb : Building env t s) (hpin : s.unlocker = true → env.pin = true)
    (h : ∀ visited t' s', grow env path toplevel node t = some (visited, t') →
      Building env t' s' →
      Added s s' (pausedRoots env s.unlocker s.queries visited) visited.length → Q () s') :
    Wp (Safe env) (addFileNode env path toplevel node) Q s := by
  cases node with
  | file f =>
    simp only [addFileNode, wp_bind]
    refine beforeNode_wp hb hpin ?_
    intro s₁ hb₁ hadded₁
    unfold addFile
    cases hlayout : env.layout f with
    | error msg =>
      simp only [wp_throw]
      exact hb₁.safe
    | ok r =>
      obtain ⟨node, blocks⟩ := r
      obtain ⟨hkind, hblocks⟩ := env.layout_dag hlayout
      refine addBlocks_wp hb₁ hkind hblocks ?_
      intro t' s' ht' hb' hadded₂
      refine h [t] t' s' (by simp [grow, hlayout, ht']) hb' ?_
      simpa using hadded₁.trans hadded₂
  | symlink target =>
    simp only [addFileNode, wp_bind]
    refine beforeNode_wp hb hpin ?_
    intro s₁ hb₁ hadded₁
    unfold addSymlink
    cases hlink : env.symlinkNode target with
    | error msg =>
      simp only [wp_throw]
      exact hb₁.safe
    | ok node =>
      obtain ⟨hkind, hleaf⟩ := env.symlink_dag hlink
      have hblocks : ∀ k, Reach env.links node k → k ∈ [node] := by
        intro k hk
        rcases hk.cases_head with rfl | ⟨b, hb, _⟩
        · exact List.mem_singleton_self _
        · simp [hleaf] at hb
      refine addBlocks_wp hb₁ hkind hblocks ?_
      intro t' s' ht' hb' hadded₂
      refine h [t] t' s' (by simp [grow, hlink, ht']) hb' ?_
      simpa using hadded₁.trans hadded₂
  | directory entries =>
    simp only [addFileNode, wp_bind]
    refine beforeNode_wp hb hpin ?_
    intro s₁ hb₁ hadded₁
    refine makeDir_wp hb₁ ?_
    intro t₂ s₂ ht₂ hb₂ hadded₂
    have hadded := hadded₁.trans hadded₂
    refine addEntries_wp entries hb₂ (hadded.unlocker ▸ hpin) ?_
    intro visited t' s' hgrow hb' hadded₃
    rw [hadded.unlocker, hadded.queries] at hadded₃
    refine h (t :: visited) t' s' (by simp [grow, ht₂, hgrow]) hb' ?_
    rw [pausedRoots_cons, List.length_cons, Nat.add_comm visited.length]
    simpa using hadded.trans hadded₃
  | unknown =>
    simp only [addFileNode, wp_bind]
    refine beforeNode_wp hb hpin ?_
    intro s₁ hb₁ _
    simp only [wp_throw]
    exact hb₁.safe

/-- **Adding the entries of a directory**, one after the other. -/
theorem addEntries_wp (entries : DirIterator File) {path : String}
    {t : Mfs.Tree Cid} {s : Adder Cid} {Q : Unit → Adder Cid → Prop}
    (hb : Building env t s) (hpin : s.unlocker = true → env.pin = true)
    (h : ∀ visited t' s', growEntries env path entries t = some (visited, t') →
      Building env t' s' →
      Added s s' (pausedRoots env s.unlocker s.queries visited) visited.length → Q () s') :
    Wp (Safe env) (addEntries env path entries) Q s := by
  cases entries with
  | done err =>
    cases err with
    | none =>
      simp only [addEntries, wp_pure]
      exact h [] t s (by simp [growEntries]) hb (Added.refl s)
    | some msg =>
      simp only [addEntries, wp_throw]
      exact hb.safe
  | next name node rest =>
    simp only [addEntries, wp_bind]
    refine addFileNode_wp node hb hpin ?_
    intro visited₁ t₁ s₁ hgrow₁ hb₁ hadded₁
    refine addEntries_wp rest hb₁ (hadded₁.unlocker ▸ hpin) ?_
    intro visited₂ t₂ s₂ hgrow₂ hb₂ hadded₂
    rw [hadded₁.unlocker, hadded₁.queries] at hadded₂
    refine h (visited₁ ++ visited₂) t₂ s₂ (by simp [growEntries, hgrow₁, hgrow₂]) hb₂ ?_
    rw [pausedRoots_append, List.length_append]
    exact hadded₁.trans hadded₂

end

variable {s : Adder Cid}

private theorem rootFSNode_wp {t : Mfs.Tree Cid} {name : Option String} {mr : Directory Cid}
    {Q : FSNode Cid × Directory Cid → Adder Cid → Prop} (hsafe : Safe env s)
    (hshow : Shows env.toUnixfs mr t) (hst : mr.Stored env.toUnixfs s.dag.store)
    (h : ∀ fsn mr', Shows env.toUnixfs mr' t → mr'.Stored env.toUnixfs s.dag.store →
      (∀ c, fsn = .file c → Complete env.toUnixfs s.dag.store c) →
      (∀ d, fsn = .dir d → ∃ sub, Shows env.toUnixfs d sub ∧ d.Stored env.toUnixfs s.dag.store) →
      Q (fsn, mr') s) :
    Wp (Safe env) (rootFSNode env name mr) Q s := by
  unfold rootFSNode
  cases name with
  | none =>
    simp only [wp_pure]
    refine h _ mr hshow hst (by simp) ?_
    intro d hd
    cases hd
    exact ⟨t, hshow, hst⟩
  | some name =>
    simp only [wp_bind, wp_get]
    rcases child_cases name hshow hst with
      ⟨hchild, _⟩ | ⟨c, hchild, _, hc⟩ | ⟨d, mr', sub, hchild, _, hsub, hd, hshow', hst'⟩
    · rw [hchild]
      simp only [wp_throw]
      exact hsafe
    · rw [hchild]
      simp only [wp_pure]
      refine h _ mr hshow hst ?_ (by simp)
      intro c' hc'
      cases hc'
      exact hc
    · rw [hchild]
      simp only [wp_pure]
      refine h _ mr' hshow' hst' (by simp) ?_
      intro d' hd'
      cases hd'
      exact ⟨sub, hsub, hd⟩

private theorem fsnGetNode_wp {fsn : FSNode Cid} {Q : Cid → Adder Cid → Prop} (hsafe : Safe env s)
    (hfile : ∀ c, fsn = .file c → Complete env.toUnixfs s.dag.store c)
    (hdir : ∀ d, fsn = .dir d → ∃ sub, Shows env.toUnixfs d sub ∧ d.Stored env.toUnixfs s.dag.store)
    (h : ∀ nd dag', Complete env.toUnixfs dag'.store nd → Q nd { s with dag := dag' }) :
    Wp (Safe env) (fsnGetNode env fsn) Q s := by
  cases fsn with
  | file c =>
    simp only [fsnGetNode, wp_pure]
    exact h c s.dag (hfile c rfl)
  | dir d =>
    obtain ⟨sub, hsub, hst⟩ := hdir d rfl
    simp only [fsnGetNode, wp_bind]
    refine onDag_wp hsafe ?_
    intro r dag' hget
    obtain ⟨node, d'⟩ := r
    obtain ⟨rfl, _, _, hfull, _⟩ := getNode_ok hsub hst hget
    simp only [wp_pure]
    exact h _ dag' hfull

omit [DecidableEq Cid] in
private theorem rootName_wp {E : Adder Cid → Prop} {file : FileNode File} {mr : Directory Cid}
    {Q : Option String → Adder Cid → Prop} (herr : E s) (h : ∀ name, Q name s) :
    Wp E (rootName file mr) Q s := by
  unfold rootName
  split
  · exact wp_pure.mpr (h none)
  · split
    · exact wp_throw.mpr herr
    · exact wp_pure.mpr (h _)

/-- The pins of the last step of `AddAllAndPin`. -/
def finalPins (env : Env Cid File) (pins : Finset Cid) (nd : Cid) : Finset Cid :=
  if env.pin then insert nd pins else pins

private theorem finish_wp {nd : Cid} {Q : Cid → Adder Cid → Prop} (hsafe : Safe env s)
    (hnone : s.tempRoot = none) (hfull : Complete env.toUnixfs s.dag.store nd)
    (h : ∀ s', Safe env s' → Complete env.toUnixfs s'.dag.store nd →
      s'.pins = finalPins env s.pins nd → s'.unlocker = s.unlocker → Q nd s') :
    Wp (Safe env) (do
      onDag (serviceCall env.toServices)
      pinRoot env nd
      pure nd) Q s := by
  simp only [wp_bind]
  refine onDag_wp hsafe ?_
  intro _ dag₁ hcall
  have hfull₁ : Complete env.toUnixfs dag₁.store nd := by
    rw [serviceCall_store hcall]
    exact hfull
  by_cases hpin : env.pin = true
  · refine pinRoot_wp ⟨hsafe.due, hsafe.releases⟩ hnone hpin ?_
    intro dag₂ hgrow
    simp only [wp_pure]
    refine h _ ⟨?_, hsafe.releases⟩ (hfull₁.mono hgrow) ?_ rfl
    · intro f hf k hk
      obtain ⟨p, hp, hreach⟩ := hsafe.due f hf k hk
      exact ⟨p, Finset.mem_insert_of_mem hp, hreach⟩
    · rw [finalPins, if_pos hpin]
  · unfold pinRoot
    rw [if_neg hpin]
    simp only [wp_pure]
    exact h _ ⟨hsafe.due, hsafe.releases⟩ hfull₁ (by rw [finalPins, if_neg hpin]) rfl

/-- **The whole add.**  A successful `AddAllAndPin` has grown the tree from
nothing, has pinned the roots of its pauses and the node it returns, and has
stored that node's DAG. -/
theorem addAll_wp (env : Env Cid File) (file : FileNode File) (hb : Building env .empty s)
    (hpin : s.unlocker = true → env.pin = true) :
    Wp (Safe env) (addAll env file) (fun nd s' =>
      Safe env s' ∧ Complete env.toUnixfs s'.dag.store nd ∧ s'.unlocker = s.unlocker ∧
      ∃ visited t, grow env "" true file .empty = some (visited, t) ∧
        s'.pins = finalPins env
          (s.pins ∪ (pausedRoots env s.unlocker s.queries visited).toFinset) nd) s := by
  unfold addAll
  simp only [wp_bind]
  refine addFileNode_wp file hb hpin ?_
  intro visited t s₁ hgrow hb₁ hadded
  refine mfsRoot_wp hb₁ ?_
  intro d hshow hst hb₂
  refine onDag_wp hb₂.safe ?_
  intro r dag₁ hget
  obtain ⟨node, mr₁⟩ := r
  obtain ⟨rfl, hshow₁, hsync, hfull, _⟩ := getNode_ok hshow hst hget
  refine onDag_wp ⟨hb₁.safe.due, hb₁.safe.releases⟩ ?_
  intro _ dag₂ hadd
  have hst₁ : mr₁.Stored env.toUnixfs dag₂.store := by
    refine hshow₁.stored_of_root hsync (hfull.mono ?_)
    rw [dagAdd_ok hadd]
    exact Finset.subset_union_left
  have hsafe : ∀ dag, Safe env { s₁ with mroot := some d, dag := dag } :=
    fun _ => ⟨hb₁.safe.due, hb₁.safe.releases⟩
  refine rootName_wp (hsafe dag₂) ?_
  intro name
  refine rootFSNode_wp (hsafe dag₂) hshow₁ hst₁ ?_
  intro _ mr₂ hshow₂ hst₂ _ _
  refine onDag_wp (hsafe dag₂) ?_
  intro r dag₃ hclose
  obtain ⟨_, mr₃⟩ := r
  obtain ⟨rfl, hshow₃, hsync₃, hfull₃, _⟩ := getNode_ok hshow₂ hst₂ hclose
  refine rootFSNode_wp (hsafe dag₃) hshow₃ (hshow₃.stored_of_root hsync₃ hfull₃) ?_
  intro root mr₄ _ _ hfile hdir
  refine fsnGetNode_wp (hsafe dag₃) hfile hdir ?_
  intro nd dag₄ hnd
  have hfinish := finish_wp (hsafe dag₄) hb₁.noTemp hnd
    (Q := fun nd s' => Safe env s' ∧ Complete env.toUnixfs s'.dag.store nd ∧
      s'.unlocker = s.unlocker ∧ ∃ visited t, grow env "" true file .empty = some (visited, t) ∧
        s'.pins = finalPins env
          (s.pins ∪ (pausedRoots env s.unlocker s.queries visited).toFinset) nd) ?_
  · simpa only [wp_bind] using hfinish
  · intro s' hsafe' hfull' hpins hunlocker
    refine ⟨hsafe', hfull', hunlocker.trans hadded.unlocker, visited, t, hgrow, ?_⟩
    rw [hpins, hadded.pins]

private theorem Safe.release (h : Safe env s) : Safe env s.release := by
  refine ⟨h.due, ?_⟩
  intro r hr
  rcases List.mem_append.mp hr with hold | hnew
  · exact h.releases r hold
  · rw [List.mem_singleton.mp hnew]
    exact h.due

theorem building_newAdder (env : Env Cid File) (dag : Dag Cid) (pins : Finset Cid) :
    Building env .empty { newAdder dag pins with unlocker := env.pin } :=
  ⟨⟨fun f hf => by simp [newAdder] at hf, fun r hr => by simp [newAdder] at hr⟩, rfl, rfl,
    fun f hf => by simp [newAdder] at hf⟩

/-! ## Blocks for examples -/

/-- Blocks that are their own CIDs: data, and directories as entry lists. -/
inductive Block where
  | data (n : Nat)
  | nil
  | entry (name : String) (child rest : Block)
  deriving DecidableEq, Repr

def Block.entries? : Block → Option (List (String × Block))
  | .data _ => none
  | .nil => some []
  | .entry name child rest => rest.entries?.map fun es => (name, child) :: es

def Block.ofEntries : List (String × Block) → Block
  | [] => .nil
  | (name, child) :: rest => .entry name child (Block.ofEntries rest)

def Block.links (b : Block) : List Block := (b.entries?.getD []).map Prod.snd

def Block.kind (b : Block) : Kind Block :=
  match b.entries? with
  | some es => .dir es
  | none => .file

theorem Block.entries?_ofEntries (es : List (String × Block)) :
    (Block.ofEntries es).entries? = some es := by
  induction es with
  | nil => rfl
  | cons e rest ih => simp [Block.ofEntries, Block.entries?, ih]

theorem Block.reach_data {n : Nat} {k : Block} (h : Reach Block.links (.data n) k) :
    k = .data n := by
  rcases h.cases_head with heq | ⟨b, hb, _⟩
  · exact heq.symm
  · simp [Block.links, Block.entries?] at hb

/-- Plain directories of such blocks. -/
def blockUnixfs : Unixfs Block where
  links := Block.links
  kind := Block.kind
  dirNode := Block.ofEntries
  dirBlocks := fun _ => []
  kind_dirNode := fun _ => by simp [Block.kind, Block.entries?_ofEntries]
  entry_below := by
    intro c es hkind e he
    have hentries : c.entries? = some es := by
      unfold Block.kind at hkind
      split at hkind
      · cases hkind
        assumption
      · cases hkind
    refine ⟨e.2, ?_, Reach.refl _⟩
    simp only [Block.links, hentries, Option.getD_some]
    exact List.mem_map_of_mem he
  below_dirNode := by
    intro es k h
    rcases h.cases_head with heq | ⟨b, hb, hbk⟩
    · exact Or.inl heq.symm
    · simp only [Block.links, Block.entries?_ofEntries, Option.getD_some] at hb
      obtain ⟨e, he, rfl⟩ := List.mem_map.mp hb
      exact Or.inr (Or.inr ⟨e, he, hbk⟩)

/-- Files of one block each; a collection is waiting as `gcRequested` says and
removes nothing. -/
def blockEnv (gcRequested : Nat → Bool) : Env Block Nat where
  toUnixfs := blockUnixfs
  fault := fun _ => none
  layout := fun n => .ok (.data n, [.data n])
  symlinkNode := fun _ => .ok (.data 0)
  cidString := fun _ => "cid"
  pin := true
  liveCacheSize := 256
  gcRequested := gcRequested
  collect := fun _ _ store => store
  layout_dag := by
    intro n node blocks h
    cases h
    exact ⟨rfl, fun k hk => by simp [Block.reach_data hk]⟩
  symlink_dag := by
    intro target node h
    cases h
    exact ⟨rfl, rfl⟩
  collect_spares := fun _ _ _ k hk hgone => absurd hk hgone

/-- A directory of two files. -/
def sampleTree : FileNode Nat :=
  .directory (.next "a" (.file 1) (.next "b" (.file 2) (.done none)))

/-- The collector on a store of such blocks. -/
def blockGc (pins : List Block) : Gc.Env Block where
  recursiveKeys := .ok pins
  directKeys := .ok []
  internalPins := .ok []
  validateCid := fun _ => none
  isRaw := fun _ => false
  links := Block.links
  fetchError := fun _ => none
  allKeysError := none
  collectGarbage := none

/-- A run of the collector that marks the block `1` and deletes the block `99`. -/
def sweepSchedule : List (Gc.Choice Block) :=
  [.next, .next, .visit (.data 1), .fetch (.data 1) false false] ++ List.replicate 9 .next ++
    [.recvKey (.data 99) none, .send, .next, .keysClosed, .next, .next]

/-- What that run leaves of the store, where the block `1` is the only pin. -/
def sweep (pins store : Finset Block) : Finset Block :=
  if pins = {.data 1} then
    match StepRun.run (Gc.step (blockGc [.data 1])) (Gc.init store []) sweepSchedule with
    | some g => g.store
    | none => store
  else store

theorem sweep_spares (pins store : Finset Block) : ∀ k ∈ store, k ∉ sweep pins store →
    ∀ r ∈ pins, ¬ Reach (linksWithin blockUnixfs store) r k := by
  intro k hk hgone r hr
  unfold sweep at hgone
  split at hgone
  · rename_i hpins
    rw [hpins, Finset.mem_singleton] at hr
    split at hgone
    · rename_i g hrun
      refine gc_spares rfl (fun c hc => ?_) hrun k hk hgone r (List.mem_singleton.mpr hr)
      simp [Gc.storedLinks, Gc.ipldGetLinks, blockGc, blockUnixfs, hc, Except.toOption]
    · exact absurd hk hgone
  · exact absurd hk hgone

/-- A collection that deletes a block runs before the second file is added. -/
def sweepEnv : Env Block Nat :=
  { blockEnv (fun n => n = 2) with
    collect := fun _ => sweep
    collect_spares := fun _ => sweep_spares }

/-- **Adding survives collections.**  Whenever the pin lock is released, the
whole DAG of every file or symlink that was completed before a pause is below
the recursive pins; and when `AddAllAndPin` succeeds, the DAG it returns is in
the store.  Neither the number and the placement of the collections nor the
calls that fail matter. -/
theorem addAllAndPin_survives_gc (env : Env Cid File) (file : FileNode File)
    (dag : Dag Cid) (pins : Finset Cid) :
    (∀ r ∈ (addAllAndPin env file (newAdder dag pins)).2.releases,
      ∀ f ∈ r.due, ∀ k, Reach env.links f k → ∃ p ∈ r.pins, Reach env.links p k) ∧
    ∀ nd, (addAllAndPin env file (newAdder dag pins)).1 = .ok nd →
      ∀ k, Reach env.links nd k →
        k ∈ (addAllAndPin env file (newAdder dag pins)).2.dag.store := by
  have hwp := addAll_wp env file (building_newAdder env dag pins) (fun h => h)
  rcases hrun : exec (addAll env file) { newAdder dag pins with unlocker := env.pin } with ⟨r, t⟩
  have hsafe : Safe env t := by
    cases r with
    | ok nd => exact (hwp.ok hrun).1
    | error e => exact hwp.error hrun
  have heq : addAllAndPin env file (newAdder dag pins) =
      (r, if t.unlocker then t.release else t) := by
    rw [addAllAndPin, hrun]
  rw [heq]
  refine ⟨?_, ?_⟩
  · have hfinal : Safe env (if t.unlocker then t.release else t) := by
      split
      · exact hsafe.release
      · exact hsafe
    exact hfinal.releases
  · intro nd hnd k hk
    obtain rfl : r = .ok nd := hnd
    have hmem := (hwp.ok hrun).2.1 k hk
    split
    · exact hmem
    · exact hmem

/-- The collection takes a block that nothing needs, and the directory that is
added is whole. -/
theorem addAllAndPin_survives_gc_swept :
    .data 99 ∉ (addAllAndPin sweepEnv sampleTree (newAdder ⟨{.data 99}, 0⟩ ∅)).2.dag.store ∧
      ∀ k, Reach sweepEnv.links (.entry "a" (.data 1) (.entry "b" (.data 2) .nil)) k →
        k ∈ (addAllAndPin sweepEnv sampleTree (newAdder ⟨{.data 99}, 0⟩ ∅)).2.dag.store := by
  have hroot : (addAllAndPin sweepEnv sampleTree (newAdder ⟨{.data 99}, 0⟩ ∅)).1 =
      .ok (.entry "a" (.data 1) (.entry "b" (.data 2) .nil)) := by decide +kernel
  have hswept : .data 99 ∉ (addAllAndPin sweepEnv sampleTree
      (newAdder ⟨{.data 99}, 0⟩ ∅)).2.dag.store := by decide +kernel
  have hwhole := addAllAndPin_survives_gc sweepEnv sampleTree ⟨{.data 99}, 0⟩ ∅
  -- from here on the run must not be evaluated
  generalize addAllAndPin sweepEnv sampleTree (newAdder ⟨{.data 99}, 0⟩ ∅) = result at *
  exact ⟨hswept, hwhole.2 _ hroot⟩

end CoreUnix
