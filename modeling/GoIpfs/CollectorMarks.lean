import GoIpfs.CollectorSweep

/-!
# The marked set, exactly

`ColoredSet` (`gc/gc.go`) processes four groups with one visited set: it walks
from the recursive pins and from the best-effort roots, adds the direct pins
without walking, and then walks from the internal pins.  A walk does not go on
from a node that is in the set already.  That is harmless as long as the set is
closed under the links, but the direct pins break the closure: an internal walk
that meets a direct pin stops there and never sees what is below it.

`mem_gcs_iff` says what a successful marking has in the set: the direct pins,
everything reachable from a recursive pin or a best-effort root, and what can be
reached from an internal pin without going on from a direct pin.
-/

namespace Gc

open GraphWalk LinkReach StepRun List

variable {Cid : Type} [DecidableEq Cid]

/-- The links that the internal walks follow: they do not go on from a direct
pin. -/
def openLinks (env : Env Cid) (store : Finset Cid) (c : Cid) : List Cid :=
  if c ∈ answered env.directKeys then [] else storedLinks env store c

/-- Reachable from a recursive pin or a best-effort root. -/
def Live (env : Env Cid) (store : Finset Cid) (broots : List Cid) (c : Cid) : Prop :=
  ∃ r ∈ answered env.recursiveKeys ++ broots, Reach (storedLinks env store) r c

/-- Reachable from an internal pin without going on from a direct pin. -/
def Shown (env : Env Cid) (store : Finset Cid) (c : Cid) : Prop :=
  ∃ i ∈ answered env.internalPins, Reach (openLinks env store) i c

/-- The links that the walks of a stage follow. -/
def Stage.links (env : Env Cid) (store : Finset Cid) : Stage → Cid → List Cid
  | .internal => openLinks env store
  | _ => storedLinks env store

/-- The roots that the set must cover once a stage is through. -/
def Stage.sources (env : Env Cid) (broots : List Cid) : Stage → List Cid
  | .internal => answered env.internalPins
  | stage => stage.due env broots

/-- What the walks of a stage come across. -/
def Stage.Frontier (env : Env Cid) (store : Finset Cid) (broots : List Cid) :
    Stage → Cid → Prop
  | .internal => Shown env store
  | _ => Live env store broots

/-- What may be in the set during a stage. -/
def Stage.Allowed (env : Env Cid) (store : Finset Cid) (broots : List Cid) (stage : Stage)
    (c : Cid) : Prop :=
  Live env store broots c ∨
    stage = .internal ∧ (c ∈ answered env.directKeys ∨ Shown env store c)

/-- A stage with the walk `w` under way and the roots left to walk; at the head of
the loop the walk is idle. -/
structure Marking (env : Env Cid) (store : Finset Cid) (broots : List Cid) (stage : Stage)
    (roots : List Cid) (w : Walk Cid) (gcs : Finset Cid) : Prop where
  covers : Covers (stage.links env store) w gcs
  held : ∀ r ∈ stage.sources env broots, Held w gcs r ∨ r ∈ roots
  roots : ∀ c ∈ roots, stage.Frontier env store broots c
  queue : ∀ c ∈ w.queue, stage.Frontier env store broots c
  active : ∀ c ∈ w.active, stage.Frontier env store broots c ∧
    (stage = .internal → c ∉ answered env.directKeys)
  seen : ∀ c ∈ gcs, stage.Allowed env store broots c
  direct : stage = .internal → ∀ d ∈ answered env.directKeys, d ∈ gcs

/-- The walk of a stage that has no root under way. -/
def idle : Walk Cid := ⟨[], []⟩

variable {env : Env Cid} {store : Finset Cid} {broots roots : List Cid} {stage : Stage}
  {w : Walk Cid} {gcs : Finset Cid} {c : Cid}

/-! ## One walk -/

theorem Stage.Frontier.allowed (h : stage.Frontier env store broots c) :
    stage.Allowed env store broots c := by
  cases stage with
  | internal => exact .inr ⟨rfl, .inr h⟩
  | recursive | bestEffort => exact .inl h

theorem Stage.Frontier.link (h : stage.Frontier env store broots c)
    (hdirect : stage = .internal → c ∉ answered env.directKeys) {b : Cid}
    (hb : b ∈ storedLinks env store c) : stage.Frontier env store broots b := by
  cases stage with
  | internal =>
    obtain ⟨i, hi, hreach⟩ := h
    refine ⟨i, hi, hreach.tail ?_⟩
    unfold openLinks
    rw [if_neg (hdirect rfl)]
    exact hb
  | recursive | bestEffort =>
    obtain ⟨r, hr, hreach⟩ := h
    exact ⟨r, hr, hreach.tail hb⟩

theorem mem_storedLinks_of_links {b : Cid} (hb : b ∈ stage.links env store c) :
    b ∈ storedLinks env store c := by
  cases stage with
  | internal =>
    have hb : b ∈ openLinks env store c := hb
    unfold openLinks at hb
    split at hb
    · simp at hb
    · exact hb
  | recursive | bestEffort => exact hb

theorem Marking.nextRoot (h : Marking env store broots stage (c :: roots) idle gcs) :
    Marking env store broots stage roots (Walk.start c) gcs := by
  refine ⟨covers_start c (closed_of_finished ⟨rfl, rfl⟩ h.covers), ?_, ?_, ?_, ?_, h.seen, h.direct⟩
  · intro r hr
    rcases h.held r hr with hheld | hroots
    · exact .inl (.inl (mem_of_finished ⟨rfl, rfl⟩ hheld))
    · rcases mem_cons.mp hroots with rfl | hrest
      · exact .inl (held_start r)
      · exact .inr hrest
  · intro r hr
    exact h.roots r (mem_cons_of_mem _ hr)
  · intro r hr
    rw [mem_singleton.mp hr]
    exact h.roots c mem_cons_self
  · intro r hr
    simp [Walk.start] at hr

theorem Marking.visit (h : Marking env store broots stage roots w gcs) (hc : c ∈ w.queue) :
    Marking env store broots stage roots (w.visit gcs c).1 (w.visit gcs c).2 := by
  refine ⟨covers_visit c h.covers, fun r hr => (h.held r hr).imp_left (held_visit c), h.roots,
    fun b hb => h.queue b (mem_queue_visit hb), ?_, ?_, ?_⟩
  · intro b hb
    rcases mem_active_visit hb with hactive | ⟨rfl, hfresh⟩
    · exact h.active b hactive
    · -- a direct pin is in the set before the internal walks begin
      exact ⟨h.queue b hc, fun hstage hd => hfresh (h.direct hstage b hd)⟩
  · intro b hb
    rcases mem_seen_visit hb with hseen | rfl
    · exact h.seen b hseen
    · exact (h.queue b hc).allowed
  · intro hstage d hd
    exact subset_visit c (h.direct hstage d hd)

variable {targets rkeys : List Cid}

theorem Marking.expand (htargets : targets = storedLinks env store c) (hc : c ∈ w.active)
    (h : Marking env store broots stage roots w gcs) :
    Marking env store broots stage roots (w.expand c targets) gcs := by
  refine ⟨covers_expand c ?_ h.covers, fun r hr => (h.held r hr).imp_left (held_expand c _),
    h.roots, ?_, fun b hb => h.active b (mem_of_mem_erase hb), h.seen, h.direct⟩
  · intro b hb
    rw [htargets]
    exact mem_storedLinks_of_links hb
  · intro b hb
    rcases mem_append.mp hb with hold | hnew
    · exact h.queue b hold
    · obtain ⟨hfrontier, hdirect⟩ := h.active c hc
      exact hfrontier.link hdirect (htargets ▸ hnew)

theorem Marking.finished (hfin : w.Finished) (h : Marking env store broots stage roots w gcs) :
    Marking env store broots stage roots idle gcs := by
  rw [eq_idle_of_finished hfin] at h
  exact h

/-! ## From stage to stage -/

/-- What the set has at each point of an error-free marking. -/
def Marks (env : Env Cid) (store : Finset Cid) (broots : List Cid) (gcs : Finset Cid) :
    Pc Cid → Prop
  | .recursiveKeys => gcs = ∅
  | .descendants stage roots => Marking env store broots stage roots idle gcs
  | .walk stage roots w => Marking env store broots stage roots w gcs
  | .directKeys => Marking env store broots .bestEffort [] idle gcs
  | .internalPins =>
    Closed (openLinks env store) (↑gcs : Set Cid) ∧
      (∀ c ∈ gcs, Live env store broots c ∨ c ∈ answered env.directKeys) ∧
      ∀ d ∈ answered env.directKeys, d ∈ gcs
  | .marked | .allKeys => Marking env store broots .internal [] idle gcs
  | .report _ _ => False
  | _ => True

theorem live_recursive (hkeys : env.recursiveKeys = .ok rkeys) (hc : c ∈ rkeys) :
    Live env store broots c :=
  ⟨c, mem_append_left _ (by rw [hkeys]; exact hc), Reach.refl c⟩

theorem live_bestEffort (hc : c ∈ broots) : Live env store broots c :=
  ⟨c, mem_append_right _ hc, Reach.refl c⟩

theorem marks_rkeys (hkeys : env.recursiveKeys = .ok rkeys) :
    Marking env store broots .recursive rkeys idle ∅ := by
  refine ⟨by simp [Covers], ?_, fun c hc => live_recursive hkeys hc, by simp [idle],
    by simp [idle], by simp, by simp⟩
  intro r hr
  have hr : r ∈ answered env.recursiveKeys := hr
  rw [hkeys] at hr
  exact .inr hr

theorem marks_afterStage {s : State Cid} (hbroots : s.bestEffortRoots = broots)
    (h : Marking env store broots stage [] idle s.gcs) :
    Marks env store broots s.gcs (afterStage s stage) := by
  cases stage with
  | recursive =>
    refine ⟨h.covers, ?_, ?_, by simp [idle], by simp [idle], ?_, by simp⟩
    · intro r hr
      rcases mem_append.mp hr with hrec | hbest
      · exact .inl ((h.held r hrec).resolve_right (by simp))
      · exact .inr (hbroots ▸ hbest)
    · intro c hc
      exact live_bestEffort (hbroots ▸ hc)
    · intro c hc
      exact .inl ((h.seen c hc).resolve_right (by simp))
  | bestEffort | internal => exact h

theorem marks_dkeys {dkeys : List Cid} (hkeys : env.directKeys = .ok dkeys)
    (h : Marking env store broots .bestEffort [] idle gcs) :
    Marks env store broots (gcs ∪ dkeys.toFinset) .internalPins := by
  have hanswer : answered env.directKeys = dkeys := by rw [hkeys]; rfl
  refine ⟨?_, ?_, ?_⟩
  · intro a ha b hb
    simp only [openLinks, hanswer] at hb
    split at hb
    · simp at hb
    · rename_i hnot
      have hold : a ∈ gcs := by simpa [hnot] using ha
      have hclosed := closed_of_finished ⟨rfl, rfl⟩ h.covers
      have hnew : b ∈ gcs := by simpa using hclosed a (by simpa using hold) b hb
      simp [hnew]
  · intro c hc
    rcases Finset.mem_union.mp hc with hold | hdirect
    · exact .inl ((h.seen c hold).resolve_right (by simp))
    · exact .inr (by simpa [hanswer] using hdirect)
  · intro d hd
    rw [hanswer] at hd
    simp [hd]

theorem marks_ikeys {ikeys : List Cid} (hkeys : env.internalPins = .ok ikeys)
    (h : Marks env store broots gcs .internalPins) :
    Marking env store broots .internal ikeys idle gcs := by
  obtain ⟨hclosed, hseen, hdirect⟩ := h
  have hanswer : answered env.internalPins = ikeys := by rw [hkeys]; rfl
  refine ⟨?_, ?_, ?_, by simp [idle], by simp [idle], ?_, fun _ => hdirect⟩
  · intro a ha
    exact .inr fun b hb => .inl (by simpa using hclosed a (by simpa using ha) b hb)
  · intro r hr
    have hr : r ∈ answered env.internalPins := hr
    rw [hanswer] at hr
    exact .inr hr
  · intro c hc
    exact ⟨c, hanswer ▸ hc, Reach.refl c⟩
  · intro c hc
    exact (hseen c hc).imp_right fun hd => ⟨rfl, .inl hd⟩

/-! ## The whole marking -/

/-- The invariant of the marking phase. -/
structure Exact (env : Env Cid) (store : Finset Cid) (broots : List Cid) (s : State Cid) :
    Prop where
  effort : s.bestEffortRoots = broots
  stored : s.pc.early = true → s.store = store
  marks : s.errors = true ∧ s.pc.marking = true ∨ Marks env store broots s.gcs s.pc

theorem targets_of_ok (hget : ipldGetLinks env store c = .ok targets) :
    targets = storedLinks env store c := by
  unfold storedLinks
  rw [hget]
  rfl

theorem targets_of_error {err : FetchError} (hget : ipldGetLinks env store c = .error err) :
    [] = storedLinks env store c := by
  unfold storedLinks
  rw [hget]
  rfl

theorem Exact.marks_of {s : State Cid} {pc pc' : Pc Cid} (h : Exact env store broots s)
    (hpc : s.pc = pc) (hmarking : pc'.marking = true)
    (himp : Marks env store broots s.gcs pc → Marks env store broots gcs pc') :
    s.errors = true ∧ pc'.marking = true ∨ Marks env store broots gcs pc' :=
  h.marks.imp (fun he => ⟨he.1, hmarking⟩) fun hmarks => himp (hpc ▸ hmarks)

/-- **Every step keeps the marked set exact.** -/
theorem exact_step (s : State Cid) (ch : Choice Cid) (t : State Cid)
    (h : Exact env store broots s) (hstep : step env s ch = some t) :
    Exact env store broots t := by
  have hmarks := h.marks
  have htrans := transition_of_step hstep
  refine ⟨htrans.roots_eq.trans h.effort, fun ht => ?_, ?_⟩
  · obtain ⟨hs, hstore, _⟩ := early_back htrans ht
    exact hstore.trans (h.stored hs)
  cases htrans with
  | cancel => exact hmarks
  | rkeys hpc hkeys => exact h.marks_of hpc rfl fun hempty => hempty ▸ marks_rkeys hkeys
  | rootsDone hpc => exact h.marks_of hpc (afterStage_marking s _) (marks_afterStage h.effort)
  | nextRoot hpc => exact h.marks_of hpc rfl Marking.nextRoot
  | visit hpc hc => exact h.marks_of hpc rfl fun hw => Marking.visit hw hc
  | explored hpc hc hvalid hget =>
    rw [h.stored (by rw [hpc]; rfl)] at hget
    exact h.marks_of hpc rfl (Marking.expand (targets_of_ok hget) hc)
  | missing hpc hc hvalid hget =>
    rw [h.stored (by rw [hpc]; rfl)] at hget
    exact h.marks_of hpc rfl (Marking.expand (targets_of_error hget) hc)
  | walkDone hpc hfin => exact h.marks_of hpc rfl (Marking.finished hfin)
  -- the flag is set, so nothing is promised about the set any more
  | swallowed | unsent | drained => exact .inl ⟨rfl, rfl⟩
  | reported hpc =>
    rw [hpc] at hmarks
    exact .inl ⟨(hmarks.resolve_right id).1, afterStage_marking s _⟩
  | dkeys hpc hkeys => exact h.marks_of hpc rfl (marks_dkeys hkeys)
  | ikeys hpc hkeys => exact h.marks_of hpc rfl (marks_ikeys hkeys)
  | markDone hpc herrors =>
    rw [hpc] at hmarks
    exact .inr (hmarks.resolve_left fun he => by simp [herrors] at he)
  | _ => exact .inr trivial

/-- **What a successful marking has in the set.** -/
theorem mem_gcs_iff {s : State Cid} {marking : List (Choice Cid)}
    (hrun : run (step env) (init store broots) marking = some s) (hpc : s.pc = .allKeys) :
    c ∈ s.gcs ↔
      c ∈ answered env.directKeys ∨ Live env store broots c ∨ Shown env store c := by
  have hstart : Exact env store broots (init store broots) :=
    ⟨rfl, fun _ => rfl, .inr rfl⟩
  have hexact : Exact env store broots s := run_invariant _ exact_step hstart hrun
  have hinv : Inv env store broots s :=
    run_invariant _ inv_step (inv_init (Finset.Subset.refl _)) hrun
  have hmarks : Marking env store broots .internal [] idle s.gcs := by
    have h := hexact.marks
    rw [hpc] at h
    exact h.resolve_left (by simp [Pc.marking])
  have hkeeps : Keeps env store broots s.gcs := by
    have h := hinv.progress
    rw [hpc] at h
    exact h.resolve_left (by simp [Pc.marking])
  constructor
  · intro hc
    rcases hmarks.seen c hc with hlive | ⟨-, hd | hshown⟩
    · exact .inr (.inl hlive)
    · exact .inl hd
    · exact .inr (.inr hshown)
  · rintro (hd | ⟨r, hr, hreach⟩ | ⟨i, hi, hreach⟩)
    · exact hkeeps.direct c hd
    · obtain ⟨M, hclosed, hroots, hM⟩ := hkeeps.core
      exact hM c (hreach.mem_of_closed hclosed (hroots r hr))
    · have hclosed := closed_of_finished ⟨rfl, rfl⟩ hmarks.covers
      have hroot : i ∈ s.gcs :=
        mem_of_finished ⟨rfl, rfl⟩ ((hmarks.held i hi).resolve_right (by simp))
      simpa using hreach.mem_of_closed hclosed (by simpa using hroot)

/-- **When the marked set is closed under internal pins.**  A successful marking
has exactly the direct pins and everything reachable from the other three groups,
whatever their order, if and only if what is reachable from an internal pin is a
direct pin, is live anyway, or can be reached from an internal pin without going
on from a direct pin. -/
theorem marked_closed_iff (env : Env Cid) (store : Finset Cid) (broots : List Cid)
    (marking : List (Choice Cid)) (s : State Cid)
    (hrun : run (step env) (init store broots) marking = some s) (hpc : s.pc = .allKeys) :
    (∀ c, c ∈ s.gcs ↔ c ∈ answered env.directKeys ∨
      ∃ r ∈ answered env.recursiveKeys ++ broots ++ answered env.internalPins,
        Reach (storedLinks env store) r c) ↔
    ∀ i ∈ answered env.internalPins, ∀ c, Reach (storedLinks env store) i c →
      c ∈ answered env.directKeys ∨
      (∃ r ∈ answered env.recursiveKeys ++ broots, Reach (storedLinks env store) r c) ∨
      ∃ j ∈ answered env.internalPins, Reach (openLinks env store) j c := by
  constructor
  · intro hall i hi c hreach
    exact (mem_gcs_iff hrun hpc).mp ((hall c).mpr (.inr ⟨i, mem_append_right _ hi, hreach⟩))
  intro hcond c
  rw [mem_gcs_iff hrun hpc]
  constructor
  · rintro (hd | ⟨r, hr, hreach⟩ | ⟨i, hi, hreach⟩)
    · exact .inl hd
    · exact .inr ⟨r, mem_append_left _ hr, hreach⟩
    · refine .inr ⟨i, mem_append_right _ hi, hreach.mono ?_⟩
      intro a b hb
      have hopen : b ∈ Stage.links env store .internal a := hb
      exact mem_storedLinks_of_links hopen
  · rintro (hd | ⟨r, hr, hreach⟩)
    · exact .inl hd
    · rcases mem_append.mp hr with hlive | hinternal
      · exact .inr (.inl ⟨r, hlive, hreach⟩)
      · exact hcond r hinternal c hreach

/-- The block `1` is pinned directly and internally, and `2` is below it. -/
def sharedEnv : Env Nat where
  recursiveKeys := .ok []
  directKeys := .ok [1]
  internalPins := .ok [1]
  validateCid := fun _ => none
  isRaw := fun _ => false
  links := fun c => if c = 1 then [2] else []
  fetchError := fun _ => none
  allKeysError := none
  collectGarbage := none

/-- The internal walk finds its root in the set and ends, so `2` is not marked. -/
theorem marked_not_closed :
    (run (step sharedEnv) (init {1, 2} [])
        [.next, .next, .next, .next, .next, .next, .visit 1, .next, .next, .next]).any
      (fun s => decide (s.pc = .allKeys ∧ s.errors = false ∧ 1 ∈ s.gcs ∧ 2 ∉ s.gcs)) = true ∧
    2 ∈ storedLinks sharedEnv {1, 2} 1 := by
  decide

/-- With `1` pinned internally only, `2` is marked. -/
theorem marked_closed_internal :
    let env := { sharedEnv with directKeys := .ok [2] }
    ∃ s, run (step env) (init {1, 2} [])
        [.next, .next, .next, .next, .next, .next, .visit 1, .fetch 1 false false, .visit 2,
          .next, .next, .next] = some s ∧ s.pc = .allKeys ∧
      ∀ c, c ∈ s.gcs ↔ c ∈ [2] ∨ ∃ r ∈ [1], Reach (storedLinks env {1, 2}) r c := by
  intro env
  have hany : (run (step env) (init {1, 2} [])
      [.next, .next, .next, .next, .next, .next, .visit 1, .fetch 1 false false, .visit 2,
        .next, .next, .next]).any (fun s => decide (s.pc = .allKeys)) = true := by decide
  obtain ⟨s, hs, hp⟩ := exists_run_of_any hany
  have hpc : s.pc = .allKeys := of_decide_eq_true hp
  refine ⟨s, hs, hpc, ?_⟩
  refine (marked_closed_iff env {1, 2} [] _ s hs hpc).mpr ?_
  intro i hi c hreach
  have hi : i = 1 := mem_singleton.mp hi
  subst hi
  rcases hreach.cases_head with rfl | ⟨b, hb, hrest⟩
  · exact .inr (.inr ⟨1, mem_singleton.mpr rfl, Reach.refl 1⟩)
  have hb : b ∈ [2] := hb
  rw [mem_singleton] at hb
  subst hb
  rcases hrest.cases_head with rfl | ⟨d, hd, -⟩
  · exact .inl (mem_singleton.mpr rfl)
  · have hd : d ∈ ([] : List Nat) := hd
    simp at hd

end Gc
