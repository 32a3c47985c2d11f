import GoIpfs.Adder
import GoIpfs.MfsRefinement
import Mathlib.Data.Finset.Lattice.Lemmas

/-!
# The tree an add builds

`grow` says what adding a tree of files means, with no DAG service, cache,
lock or collection in sight: the MFS tree it leads to, and the trees at the
points where the adder may pause.  The lemmas of this file carry the adder
through that: from a state whose MFS shows a tree and is stored, each function
either fails or ends in a state whose MFS shows the tree that `grow` computes,
again stored, however many collections have run in between.
-/

namespace CoreUnix

open Effects LinkReach Mfs List

variable {Cid File : Type} [DecidableEq Cid]

def treeMkdir (path : String) (t : Mfs.Tree Cid) : Option (Mfs.Tree Cid) :=
  if path = "" then none else Tree.mkdirAll (mkdirParts path) t

def treePut (path : String) (node : Cid) (t : Mfs.Tree Cid) : Option (Mfs.Tree Cid) :=
  let (dirp, filename) := GoPath.split path
  if filename = "" then none else Tree.put filename node (lookupParts dirp) t

def treeMkParent (path : String) (t : Mfs.Tree Cid) : Option (Mfs.Tree Cid) :=
  if GoPath.dir path = "." then some t else treeMkdir (GoPath.dir path) t

def treeAddNode (env : Env Cid File) (node : Cid) (path : String) (t : Mfs.Tree Cid) :
    Option (Mfs.Tree Cid) :=
  (treeMkParent (nodePath env node path) t).bind (treePut (nodePath env node path) node)

def treeMakeDir (path : String) (toplevel : Bool) (t : Mfs.Tree Cid) : Option (Mfs.Tree Cid) :=
  if toplevel && path = "" then some t else treeMkdir path t

mutual

/-- Adding a node to a tree: the trees at the pause points, and the result. -/
def grow (env : Env Cid File) (path : String) (toplevel : Bool) :
    FileNode File → Mfs.Tree Cid → Option (List (Mfs.Tree Cid) × Mfs.Tree Cid)
  | .file f, t =>
    match env.layout f with
    | .error _ => none
    | .ok (node, _) => (treeAddNode env node path t).map fun t' => ([t], t')
  | .symlink target, t =>
    match env.symlinkNode target with
    | .error _ => none
    | .ok node => (treeAddNode env node path t).map fun t' => ([t], t')
  | .directory entries, t =>
    (treeMakeDir path toplevel t).bind fun t₁ =>
      (growEntries env path entries t₁).map fun r => (t :: r.1, r.2)
  | .unknown, _ => none

def growEntries (env : Env Cid File) (path : String) :
    DirIterator File → Mfs.Tree Cid → Option (List (Mfs.Tree Cid) × Mfs.Tree Cid)
  | .done none, t => some ([], t)
  | .done (some _), _ => none
  | .next name node rest, t =>
    (grow env (GoPath.join path name) false node t).bind fun r₁ =>
      (growEntries env path rest r₁.2).map fun r₂ => (r₁.1 ++ r₂.1, r₂.2)

end

/-- The root that would be pinned for a tree: its directory node, or the only
child of that. -/
def treeRoot (env : Env Cid File) (t : Mfs.Tree Cid) : Cid :=
  match env.links (t.root env.dirNode) with
  | [only] => only
  | _ => t.root env.dirNode

/-- The roots of the pauses at which a collection was waiting, the first pause
point being the `n`-th question. -/
def pausedRoots (env : Env Cid File) (locked : Bool) : Nat → List (Mfs.Tree Cid) → List Cid
  | _, [] => []
  | n, t :: rest =>
    if locked && env.gcRequested n then treeRoot env t :: pausedRoots env locked (n + 1) rest
    else pausedRoots env locked (n + 1) rest

/-- Every block of the DAGs of `due` is reachable from a pin. -/
def Covered (u : Unixfs Cid) (pins : Finset Cid) (due : List Cid) : Prop :=
  ∀ f ∈ due, ∀ k, Reach u.links f k → ∃ p ∈ pins, Reach u.links p k

/-- What holds in every state, after an error too. -/
structure Safe (env : Env Cid File) (s : Adder Cid) : Prop where
  due : Covered env.toUnixfs s.pins s.due
  releases : ∀ r ∈ s.releases, Covered env.toUnixfs r.pins r.due

/-- The MFS object shows the tree and is stored; without an object the tree is
empty. -/
def RootShows (env : Env Cid File) (store : Finset Cid) (t : Mfs.Tree Cid) :
    Option (Directory Cid) → Prop
  | none => t = .empty
  | some d => Shows env.toUnixfs d t ∧ d.Stored env.toUnixfs store

/-- The adder is building `t`, and no temporary root is noted. -/
structure Building (env : Env Cid File) (t : Mfs.Tree Cid) (s : Adder Cid) : Prop where
  safe : Safe env s
  noTemp : s.tempRoot = none
  shows : RootShows env s.dag.store t s.mroot
  completed : ∀ f ∈ s.completed, f ∈ t.files

/-- What an add leaves alone, and the pins it adds. -/
structure Added (s s' : Adder Cid) (pinned : List Cid) (asked : Nat) : Prop where
  pins : s'.pins = s.pins ∪ pinned.toFinset
  queries : s'.queries = s.queries + asked
  unlocker : s'.unlocker = s.unlocker

variable {env : Env Cid File} {t : Mfs.Tree Cid} {s s' : Adder Cid}

theorem Added.refl (s : Adder Cid) : Added s s [] 0 := ⟨by simp, rfl, rfl⟩

theorem Added.trans {s₁ s₂ s₃ : Adder Cid} {pinned₁ pinned₂ : List Cid} {n₁ n₂ : Nat}
    (h₁ : Added s₁ s₂ pinned₁ n₁) (h₂ : Added s₂ s₃ pinned₂ n₂) :
    Added s₁ s₃ (pinned₁ ++ pinned₂) (n₁ + n₂) := by
  refine ⟨?_, ?_, h₂.unlocker.trans h₁.unlocker⟩
  · rw [h₂.pins, h₁.pins, toFinset_append, Finset.union_assoc]
  · rw [h₂.queries, h₁.queries, Nat.add_assoc]

theorem pausedRoots_cons (env : Env Cid File) (locked : Bool) (n : Nat) (t : Mfs.Tree Cid)
    (rest : List (Mfs.Tree Cid)) :
    pausedRoots env locked n (t :: rest) =
      pausedRoots env locked n [t] ++ pausedRoots env locked (n + 1) rest := by
  simp only [pausedRoots]
  split <;> rfl

theorem pausedRoots_append (env : Env Cid File) (locked : Bool) (n : Nat)
    (ts us : List (Mfs.Tree Cid)) :
    pausedRoots env locked n (ts ++ us) =
      pausedRoots env locked n ts ++ pausedRoots env locked (n + ts.length) us := by
  induction ts generalizing n with
  | nil => simp [pausedRoots]
  | cons t rest ih =>
    rw [cons_append, pausedRoots_cons, pausedRoots_cons env locked n t rest, ih,
      length_cons, append_assoc, Nat.add_assoc, Nat.add_comm 1]

theorem onDag_wp {α : Type} {m : DagM Cid α} {Q : α → Adder Cid → Prop} (hsafe : Safe env s)
    (h : ∀ a dag', exec m s.dag = (.ok a, dag') → Q a { s with dag := dag' }) :
    Wp (Safe env) (onDag m) Q s := by
  have hexec : exec (onDag m) s =
      ((exec m s.dag).1.mapError .mfs, { s with dag := (exec m s.dag).2 }) := rfl
  rcases hm : exec m s.dag with ⟨r, dag'⟩
  rw [hm] at hexec
  refine wp_of_exec ?_ ?_
  · intro a s' hrun
    rw [hexec] at hrun
    cases r with
    | ok b =>
      cases hrun
      exact h a dag' hm
    | error e => cases hrun
  · intro e s' hrun
    obtain rfl : { s with dag := dag' } = s' := congrArg Prod.snd (hexec.symm.trans hrun)
    exact ⟨hsafe.due, hsafe.releases⟩

theorem mfsRoot_wp {Q : Directory Cid → Adder Cid → Prop} (hb : Building env t s)
    (h : ∀ d, Shows env.toUnixfs d t → d.Stored env.toUnixfs s.dag.store →
      Building env t { s with mroot := some d } → Q d { s with mroot := some d }) :
    Wp (Safe env) mfsRoot Q s := by
  have hshows := hb.shows
  unfold mfsRoot
  simp only [wp_bind, wp_get]
  cases hroot : s.mroot with
  | some d =>
    rw [hroot] at hshows
    have heq : { s with mroot := some d } = s := by rw [← hroot]
    have hq := h d hshows.1 hshows.2 (heq ▸ hb)
    rw [heq] at hq
    exact wp_pure.mpr hq
  | none =>
    rw [hroot] at hshows
    obtain rfl : t = .empty := hshows
    simp only [wp_bind, wp_modify, wp_pure]
    exact h .empty .empty True.intro
      ⟨⟨hb.safe.due, hb.safe.releases⟩, hb.noTemp, ⟨.empty, True.intro⟩, hb.completed⟩

/-- The root of the tree, or its only child, has everything that lies properly
below the root. -/
theorem below_treeRoot {x k : Cid} (hx : x ∈ env.links (t.root env.dirNode))
    (hk : Reach env.links x k) : Reach env.links (treeRoot env t) k := by
  unfold treeRoot
  split
  · rename_i only honly
    rw [honly, mem_singleton] at hx
    exact hx ▸ hk
  · exact Reach.head hx hk

/-- **The root of a stored tree.**  `curRootNode` stores the whole tree and
returns its root. -/
theorem curRootNode_wp {Q : Cid → Adder Cid → Prop} (hb : Building env t s)
    (h : ∀ d dag', Shows env.toUnixfs d t → d.Synced env.toUnixfs → s.dag.store ⊆ dag'.store →
      Complete env.toUnixfs dag'.store (t.root env.dirNode) →
      Q (treeRoot env t) { s with mroot := some d, dag := dag' }) :
    Wp (Safe env) (curRootNode env) Q s := by
  unfold curRootNode
  simp only [wp_bind]
  refine mfsRoot_wp hb ?_
  intro d hshow hst hb'
  refine onDag_wp hb'.safe ?_
  intro r dag' hget
  obtain ⟨node, d'⟩ := r
  obtain ⟨rfl, hshow', hsync, hfull, hgrow⟩ := getNode_ok hshow hst hget
  have hq := h d' dag' hshow' hsync hgrow hfull
  simp only [wp_modify]
  unfold treeRoot at hq
  split
  · rename_i only honly
    rw [honly] at hq
    have hmem : only ∈ dag'.store :=
      hfull only (Reach.of_link (by rw [honly]; exact mem_singleton_self _))
    simp only [wp_bind, wp_get, hmem, if_true, wp_pure]
    exact hq
  · rename_i hnot
    simp only [wp_pure]
    split at hq
    · rename_i only honly
      exact absurd honly (hnot only)
    · exact hq

variable {Q : Unit → Adder Cid → Prop}

/-- **Pinning a root** adds exactly that pin while no temporary root is noted. -/
theorem pinRoot_wp {root : Cid} (hsafe : Safe env s) (hnone : s.tempRoot = none)
    (hpin : env.pin = true)
    (h : ∀ dag', s.dag.store ⊆ dag'.store →
      Q () { s with pins := insert root s.pins, dag := dag' }) :
    Wp (Safe env) (pinRoot env root) Q s := by
  unfold pinRoot
  simp only [hpin, if_true, wp_bind]
  refine onDag_wp hsafe ?_
  intro _ dag₁ hadd
  simp only [wp_get]
  have hmore : Safe env { s with pins := insert root s.pins, dag := dag₁ } := by
    refine ⟨?_, hsafe.releases⟩
    intro f hf k hk
    obtain ⟨p, hp, hreach⟩ := hsafe.due f hf k hk
    exact ⟨p, Finset.mem_insert_of_mem hp, hreach⟩
  split
  · rename_i temp htemp
    exact absurd (htemp.symm.trans hnone) (by simp)
  simp only [wp_bind, wp_modify]
  refine onDag_wp hmore ?_
  intro _ dag₂ hcall
  refine h dag₂ ?_
  rw [serviceCall_store hcall, dagAdd_ok hadd]
  exact Finset.subset_union_left

theorem reach_within {u : Unixfs Cid} {store : Finset Cid} {c k : Cid}
    (hfull : Complete u store c) (hk : Reach u.links c k) :
    Reach (linksWithin u store) c k := by
  induction hk with
  | refl => exact Reach.refl _
  | @tail b k hcb hlink ih =>
    refine ih.tail ?_
    rw [linksWithin, if_pos (hfull b hcb)]
    exact hlink

theorem complete_collect {n : Nat} {pins store : Finset Cid} {root : Cid}
    (hpin : root ∈ pins) (hfull : Complete env.toUnixfs store root) :
    Complete env.toUnixfs (env.collect n pins store) root := by
  intro k hk
  by_contra hgone
  exact env.collect_spares n pins store k (hfull k hk) hgone root hpin (reach_within hfull hk)

variable {d : Directory Cid}

/-- After a pause the MFS is still stored, and everything completed so far is
below a pin. -/
private theorem building_pause {n : Nat} {s : Adder Cid} (hb : Building env t s)
    (hroot : s.mroot = some d) (hsync : d.Synced env.toUnixfs) (hpin : treeRoot env t ∈ s.pins)
    (hfull : Complete env.toUnixfs s.dag.store (treeRoot env t)) :
    Building env t (s.pause env n) := by
  have hshows := hb.shows
  rw [hroot] at hshows
  have hcovered : Covered env.toUnixfs s.pins s.completed := by
    intro f hf k hk
    obtain ⟨x, hx, hxf⟩ := hshows.1.file_below_root (hb.completed f hf)
    exact ⟨_, hpin, below_treeRoot hx (hxf.trans hk)⟩
  refine ⟨⟨hcovered, ?_⟩, hb.noTemp, ?_, hb.completed⟩
  · intro r hr
    rcases mem_append.mp hr with hold | hnew
    · exact hb.safe.releases r hold
    · rw [mem_singleton.mp hnew]
      exact hcovered
  · show RootShows env _ t s.mroot
    rw [hroot]
    refine ⟨hshows.1, hshows.1.stored_of_entries hsync ?_⟩
    intro e he
    obtain ⟨x, hx, hxe⟩ := env.entry_below hshows.1.kind_root e he
    exact (complete_collect hpin hfull).below (below_treeRoot hx hxe)

section

variable (hb : Building env t s) (hpin : s.unlocker = true → env.pin = true)
  (h : ∀ s', Building env t s' → Added s s' (pausedRoots env s.unlocker s.queries [t]) 1 → Q () s')
include hb hpin h

/-- **A pause.**  `maybePauseForGC` keeps the tree through a collection and
pins the root of the tree when it pauses. -/
theorem maybePauseForGC_wp : Wp (Safe env) (maybePauseForGC env) Q s := by
  unfold maybePauseForGC
  simp only [wp_bind, wp_get, wp_modify]
  have hb₁ : Building env t { s with queries := s.queries + 1 } :=
    ⟨⟨hb.safe.due, hb.safe.releases⟩, hb.noTemp, hb.shows, hb.completed⟩
  split
  · rename_i hasked
    obtain ⟨hlocked, hreq⟩ : s.unlocker = true ∧ env.gcRequested s.queries = true := by
      simpa using hasked
    simp only [wp_bind]
    refine curRootNode_wp hb₁ ?_
    intro d dag' hshow hsync hgrow hfull
    have hrootFull : Complete env.toUnixfs dag'.store (treeRoot env t) := by
      unfold treeRoot
      split
      · rename_i only honly
        exact hfull.below (Reach.of_link (by rw [honly]; exact mem_singleton_self _))
      · exact hfull
    refine pinRoot_wp ⟨hb.safe.due, hb.safe.releases⟩ hb.noTemp (hpin hlocked) ?_
    intro dag'' hgrow'
    simp only [wp_modify]
    have hst : d.Stored env.toUnixfs dag''.store :=
      hshow.stored_of_root hsync (hfull.mono hgrow')
    refine h _ (building_pause (d := d) ⟨?_, hb.noTemp, ⟨hshow, hst⟩, hb.completed⟩ rfl hsync
      (Finset.mem_insert_self _ _) (hrootFull.mono hgrow')) ?_
    · refine ⟨?_, hb.safe.releases⟩
      intro f hf k hk
      obtain ⟨p, hp, hreach⟩ := hb.safe.due f hf k hk
      exact ⟨p, Finset.mem_insert_of_mem hp, hreach⟩
    · refine ⟨?_, rfl, rfl⟩
      simp only [pausedRoots, hasked, if_true, toFinset_cons, toFinset_nil]
      simp [Adder.pause, Adder.release]
  · rename_i hasked
    simp only [wp_pure]
    refine h _ hb₁ ⟨?_, rfl, rfl⟩
    simp [pausedRoots, hasked]

/-- **Before each node** the adder pauses if it must and flushes if it must;
neither changes the tree. -/
theorem beforeNode_wp : Wp (Safe env) (beforeNode env) Q s := by
  unfold beforeNode
  simp only [wp_bind]
  refine maybePauseForGC_wp hb hpin ?_
  intro s₁ hb₁ hadded
  simp only [wp_get]
  split
  · simp only [wp_bind]
    refine mfsRoot_wp hb₁ ?_
    intro d hshow hst hb₂
    refine onDag_wp hb₂.safe ?_
    intro d' dag' hflush
    obtain ⟨hshow', hst'⟩ := flushMemFree_ok hshow hst hflush
    simp only [wp_modify]
    exact h _ ⟨⟨hb₁.safe.due, hb₁.safe.releases⟩, hb₁.noTemp, ⟨hshow', hst'⟩,
      hb₁.completed⟩ ⟨hadded.pins, hadded.queries, hadded.unlocker⟩
  · simp only [wp_modify]
    exact h _ ⟨⟨hb₁.safe.due, hb₁.safe.releases⟩, hb₁.noTemp, hb₁.shows,
      hb₁.completed⟩ ⟨hadded.pins, hadded.queries, hadded.unlocker⟩

end

variable {path : String}

private theorem mkdir_wp {Q : Directory Cid → Adder Cid → Prop} (hsafe : Safe env s)
    (hshow : Shows env.toUnixfs d t) (hst : d.Stored env.toUnixfs s.dag.store)
    (h : ∀ t' d' dag', treeMkdir path t = some t' → Shows env.toUnixfs d' t' →
      d'.Stored env.toUnixfs dag'.store → s.dag.store ⊆ dag'.store → Q d' { s with dag := dag' }) :
    Wp (Safe env) (onDag (mkdir env.toServices path d)) Q s := by
  refine onDag_wp hsafe ?_
  intro d' dag' hmk
  unfold mkdir at hmk
  split at hmk
  · simp at hmk
  · rename_i hpath
    obtain ⟨⟨t', ht', hshow'⟩, hst', hgrow⟩ := mkdirAll_ok hshow hst hmk
    exact h t' d' dag' (by rw [treeMkdir, if_neg hpath, ht']) hshow' hst' hgrow

omit [DecidableEq Cid] in
private theorem files_treeMkdir {t' : Mfs.Tree Cid} (h : treeMkdir path t = some t') {f : Cid}
    (hf : f ∈ t.files) : f ∈ t'.files := by
  unfold treeMkdir at h
  split at h
  · cases h
  · exact Tree.files_mkdirAll h hf

theorem makeDir_wp {toplevel : Bool} (hb : Building env t s)
    (h : ∀ t' s', treeMakeDir path toplevel t = some t' → Building env t' s' → Added s s' [] 0 →
      Q () s') :
    Wp (Safe env) (makeDir env path toplevel) Q s := by
  unfold makeDir
  by_cases htop : (toplevel && path = "") = true
  · rw [if_pos htop, wp_pure]
    exact h t s (by rw [treeMakeDir, if_pos htop]) hb (Added.refl s)
  rw [if_neg htop]
  simp only [wp_bind]
  refine mfsRoot_wp hb ?_
  intro d hshow hst hb₁
  refine mkdir_wp hb₁.safe hshow hst ?_
  intro t' d' dag' ht' hshow' hst' _
  simp only [wp_modify]
  refine h t' _ (by rw [treeMakeDir, if_neg htop, ht'])
    ⟨⟨hb.safe.due, hb.safe.releases⟩, hb.noTemp, ⟨hshow', hst'⟩, ?_⟩ ⟨by simp, rfl, rfl⟩
  intro f hf
  exact files_treeMkdir ht' (hb.completed f hf)

private theorem mkParent_wp {Q : Directory Cid → Adder Cid → Prop} (hsafe : Safe env s)
    (hshow : Shows env.toUnixfs d t) (hst : d.Stored env.toUnixfs s.dag.store)
    (h : ∀ t' d' dag', treeMkParent path t = some t' → (∀ f ∈ t.files, f ∈ t'.files) →
      Shows env.toUnixfs d' t' → d'.Stored env.toUnixfs dag'.store →
      s.dag.store ⊆ dag'.store → Q d' { s with dag := dag' }) :
    Wp (Safe env) (mkParent env path d) Q s := by
  unfold mkParent
  by_cases hdot : GoPath.dir path = "."
  · rw [if_pos hdot, wp_pure]
    exact h t d s.dag (by rw [treeMkParent, if_pos hdot]) (fun f hf => hf) hshow hst
      (Finset.Subset.refl _)
  · rw [if_neg hdot]
    refine mkdir_wp hsafe hshow hst ?_
    intro t' d' dag' ht' hshow' hst' hgrow
    exact h t' d' dag' (by rw [treeMkParent, if_neg hdot, ht'])
      (fun f hf => files_treeMkdir ht' hf) hshow' hst' hgrow

variable {node : Cid}

private theorem putNode_wp {Q : Directory Cid → Adder Cid → Prop} (hsafe : Safe env s)
    (hshow : Shows env.toUnixfs d t) (hst : d.Stored env.toUnixfs s.dag.store)
    (hkind : env.kind node = .file) (hnode : Complete env.toUnixfs s.dag.store node)
    (h : ∀ t' d' dag', treePut path node t = some t' →
      (∀ f, f = node ∨ f ∈ t.files → f ∈ t'.files) → Shows env.toUnixfs d' t' →
      d'.Stored env.toUnixfs dag'.store → Q d' { s with dag := dag' }) :
    Wp (Safe env) (onDag (putNode env.toServices path node d)) Q s := by
  refine onDag_wp hsafe ?_
  intro d' dag' hput
  simp only [putNode] at hput
  split at hput
  · simp at hput
  · rename_i hname
    obtain ⟨⟨t', ht', hshow'⟩, hst', _⟩ := putAt_ok hshow hst hput hkind hnode
    exact h t' d' dag' (by simp only [treePut, if_neg hname, ht'])
      (fun f hf => Tree.files_put ht' hf) hshow' hst'

/-- **Linking a node** puts it into the tree. -/
theorem addNode_wp (hb : Building env t s) (hkind : env.kind node = .file)
    (hnode : Complete env.toUnixfs s.dag.store node)
    (h : ∀ t' s', treeAddNode env node path t = some t' → Building env t' s' → node ∈ t'.files →
      Added s s' [] 0 → Q () s') :
    Wp (Safe env) (addNode env node path) Q s := by
  unfold addNode
  simp only [wp_bind]
  refine mfsRoot_wp hb ?_
  intro d hshow hst hb₁
  refine mkParent_wp hb₁.safe hshow hst ?_
  intro t₁ d₁ dag₁ ht₁ hfiles₁ hshow₁ hst₁ hgrow₁
  refine putNode_wp ⟨hb.safe.due, hb.safe.releases⟩ hshow₁ hst₁ hkind (hnode.mono hgrow₁) ?_
  intro t₂ d₂ dag₂ ht₂ hfiles₂ hshow₂ hst₂
  simp only [wp_modify]
  have hspec : treeAddNode env node path t = some t₂ := by
    rw [treeAddNode, ht₁, Option.bind_some, ht₂]
  refine h t₂ _ hspec ⟨⟨hb.safe.due, hb.safe.releases⟩, hb.noTemp, ⟨hshow₂, hst₂⟩, ?_⟩
    (hfiles₂ node (.inl rfl)) ⟨by simp, rfl, rfl⟩
  intro f hf
  exact hfiles₂ f (.inr (hfiles₁ f (hb.completed f hf)))

/-- **Adding one node**: the blocks of its DAG are stored, then it is linked,
then it counts as completed. -/
theorem addBlocks_wp {blocks : List Cid} (hb : Building env t s) (hkind : env.kind node = .file)
    (hblocks : ∀ k, Reach env.links node k → k ∈ blocks)
    (h : ∀ t' s', treeAddNode env node path t = some t' → Building env t' s' → Added s s' [] 0 →
      Q () s') :
    Wp (Safe env) (do
      onDag (dagAdd env.toServices blocks)
      addNode env node path
      modify fun s => { s with completed := node :: s.completed }) Q s := by
  simp only [wp_bind]
  refine onDag_wp hb.safe ?_
  intro _ dag₁ hadd
  have hstore := dagAdd_ok hadd
  have hgrow : s.dag.store ⊆ dag₁.store := by
    rw [hstore]
    exact Finset.subset_union_left
  have hnode : Complete env.toUnixfs dag₁.store node := by
    intro k hk
    rw [hstore]
    exact Finset.mem_union_right _ (mem_toFinset.mpr (hblocks k hk))
  have hb₁ : Building env t { s with dag := dag₁ } := by
    refine ⟨⟨hb.safe.due, hb.safe.releases⟩, hb.noTemp, ?_, hb.completed⟩
    have hshows := hb.shows
    cases hroot : s.mroot with
    | none =>
      rw [hroot] at hshows
      exact hshows
    | some d =>
      rw [hroot] at hshows
      exact ⟨hshows.1, hshows.2.mono hgrow⟩
  refine addNode_wp hb₁ hkind hnode ?_
  intro t' s' ht' hb' hmem hadded
  simp only [wp_modify]
  refine h t' _ ht' ⟨⟨hb'.safe.due, hb'.safe.releases⟩, hb'.noTemp, hb'.shows, ?_⟩
    ⟨hadded.pins, hadded.queries, hadded.unlocker⟩
  exact forall_mem_cons.mpr ⟨hmem, hb'.completed⟩

end CoreUnix
