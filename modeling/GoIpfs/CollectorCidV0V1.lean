import GoIpfs.CollectorAbort
import GoIpfs.CidV0V1

/-!
# Collections through the CIDv0/v1 wrapper

The collector of `gc/gc.go` reads and deletes through the wrapper of
`BaseBlockstoreCtor`.  It marks exact CIDs while a read also accepts the other
version of a CID, so what protects a pinned block that is filed under its other
version is a side effect: the read that fetches its links files it under the
CID that is marked, and all reads come before the keys are enumerated.

`Phase` says how far this has come at each point of the collector: a pinned CID
that has been marked is still being fetched or is filed under itself.
-/

namespace WrappedGc

open GraphWalk LinkReach StepRun CidV0V1
open Gc (Env State Choice Pc Stage Transition answered)

/-- The collector asks the store for the block: the CID is valid, it is not raw,
and the context did not break the fetch off. -/
def reads (env : Env Cid) (c : Cid) (broken : Bool) : Bool :=
  (env.validateCid c).isNone && !env.isRaw c && !broken

/-- The store as a read of `c` through the wrapper sees it. -/
def view (data : Contents) (keys : Finset Cid) (c : Cid) : Finset Cid :=
  match (get data keys c).1 with
  | .ok _ => insert c keys
  | .error _ => keys

/-- A step of the collector over the wrapper.  Fetching the links of a node is a
read, which may file the block under the CID that was asked for; deleting the
key of an identity CID does nothing. -/
def step (env : Env Cid) (data : Contents) (s : State Cid) : Choice Cid → Option (State Cid)
  | .fetch c broken sent =>
    (Gc.step env { s with store := view data s.store c } (.fetch c broken sent)).map fun t =>
      { t with store := if reads env c broken then (get data s.store c).2 else s.store }
  | .recvKey k deleteErr =>
    (Gc.step env s (.recvKey k deleteErr)).map fun t =>
      { t with store := if k.hash.code = identity then s.store else t.store }
  | ch => Gc.step env s ch

variable {env : Env Cid} {data : Contents} {s t : State Cid} {ch : Choice Cid}

variable {c : Cid} {keys gcs keys' : Finset Cid}

theorem mem_view : c ∈ view data keys c ↔ Readable data keys c := by
  unfold view Readable
  cases hget : (get data keys c).1 with
  | ok block => simp
  | error err =>
    simp only [reduceCtorEq, exists_false, iff_false]
    intro hc
    obtain ⟨block, hblock⟩ : Readable data keys c := Filed.readable (.inr hc)
    rw [hget] at hblock
    cases hblock

/-- What a step does to the store, next to a transition of the collector on the
store that it sees. -/
def Effect (env : Env Cid) (data : Contents) (keys seen after keys' : Finset Cid) :
    Choice Cid → Prop
  | .fetch c broken _ =>
    (c ∈ seen ↔ Readable data keys c) ∧
      keys' = if reads env c broken then (get data keys c).2 else keys
  | .recvKey k _ => seen = keys ∧ keys' = if k.hash.code = identity then keys else after
  | _ => seen = keys ∧ keys' = after

/-- **Inversion.**  A step is a transition of the collector on the store it sees,
and changes the store by its own effect. -/
theorem transition_of_step (h : step env data s ch = some t) :
    ∃ seen u, Transition env { s with store := seen } ch u ∧
      (t.pc = u.pc ∧ t.gcs = u.gcs ∧ t.errors = u.errors) ∧
      Effect env data s.store seen u.store t.store ch := by
  cases ch with
  | fetch c broken sent =>
    obtain ⟨u, hu, rfl⟩ := Option.map_eq_some_iff.mp h
    exact ⟨_, u, Gc.transition_of_step hu, ⟨rfl, rfl, rfl⟩, mem_view, rfl⟩
  | recvKey k deleteErr =>
    obtain ⟨u, hu, rfl⟩ := Option.map_eq_some_iff.mp h
    exact ⟨s.store, u, Gc.transition_of_step hu, ⟨rfl, rfl, rfl⟩, rfl, rfl⟩
  | _ => exact ⟨s.store, t, Gc.transition_of_step h, ⟨rfl, rfl, rfl⟩, rfl, rfl⟩

/-! ## Pinned blocks -/

def blockLinks (env : Env Cid) (c : Cid) : List Cid := Gc.storedLinks env {c} c

def Pinned (env : Env Cid) (c : Cid) : Prop :=
  ∃ r ∈ answered env.recursiveKeys, Reach (blockLinks env) r c

/-- Reachable from a recursive pin or pinned directly. -/
def Live (env : Env Cid) (c : Cid) : Prop :=
  Pinned env c ∨ c ∈ answered env.directKeys

/-- Every CID with `P` is marked, and its block is filed under it. -/
def Kept (P : Cid → Prop) (gcs keys : Finset Cid) : Prop :=
  ∀ c, P c → c ∈ gcs ∧ Filed keys c

/-- What marking has achieved at each point of a run without errors. -/
def Phase (env : Env Cid) (gcs keys : Finset Cid) : Pc Cid → Prop
  | .recursiveKeys => gcs = ∅
  | .descendants .recursive roots =>
    Closed (blockLinks env) (↑gcs : Set Cid) ∧
      (∀ r ∈ answered env.recursiveKeys, r ∈ gcs ∨ r ∈ roots) ∧
      ∀ c ∈ gcs, Pinned env c → Filed keys c
  | .walk .recursive roots w =>
    Covers (blockLinks env) w gcs ∧
      (∀ r ∈ answered env.recursiveKeys, Held w gcs r ∨ r ∈ roots) ∧
      ∀ c ∈ gcs, Pinned env c → c ∈ w.active ∨ Filed keys c
  | .descendants .bestEffort _ | .walk .bestEffort _ _ | .directKeys =>
    Kept (Pinned env) gcs keys
  | .descendants .internal _ | .walk .internal _ _ | .internalPins | .marked | .allKeys
  | .sweep | .receive | .deleted _ => Kept (Live env) gcs keys
  | .report _ _ => False
  | _ => True

/-- The invariant of a collection that started on the store `keys₀`. -/
structure Inv (env : Env Cid) (data : Contents) (keys₀ : Finset Cid) (s : State Cid) : Prop where
  grows : s.pc.marking = true → keys₀ ⊆ s.store
  readable : ∀ c, Live env c → Readable data s.store c
  phase : s.errors = true ∧ s.pc.marking = true ∨ Phase env s.gcs s.store s.pc

theorem Kept.mono {P : Cid → Prop} {gcs' : Finset Cid} (hgcs : gcs ⊆ gcs') (hkeys : keys ⊆ keys')
    (h : Kept P gcs keys) : Kept P gcs' keys' :=
  fun c hc => ⟨hgcs (h c hc).1, (h c hc).2.mono hkeys⟩

theorem Phase.mono {pc : Pc Cid} (hkeys : keys ⊆ keys') (h : Phase env gcs keys pc) :
    Phase env gcs keys' pc := by
  have hkept : ∀ {P}, Kept P gcs keys → Kept P gcs keys' :=
    fun h => h.mono (Finset.Subset.refl _) hkeys
  cases pc with
  | descendants stage roots =>
    cases stage with
    | recursive => exact ⟨h.1, h.2.1, fun c hc hp => (h.2.2 c hc hp).mono hkeys⟩
    | _ => exact hkept h
  | walk stage roots w =>
    cases stage with
    | recursive =>
      exact ⟨h.1, h.2.1, fun c hc hp => (h.2.2 c hc hp).imp_right fun hf => hf.mono hkeys⟩
    | _ => exact hkept h
  | directKeys | internalPins | marked | allKeys | sweep | receive | deleted => exact hkept h
  | _ => exact h

theorem targets_eq {seen : Finset Cid} {targets : List Cid}
    (h : Gc.ipldGetLinks env seen c = .ok targets) : targets = blockLinks env c := by
  unfold blockLinks Gc.storedLinks
  unfold Gc.ipldGetLinks at h ⊢
  split at h
  · rename_i hraw
    obtain rfl := Except.ok.inj h
    simp [hraw, Except.toOption]
  rename_i hraw
  split at h
  · cases herr : env.fetchError c with
    | none =>
      rw [herr] at h
      obtain rfl := Except.ok.inj h
      simp [hraw, Except.toOption]
    | some err =>
      rw [herr] at h
      cases h
  · cases h

theorem visit_marked {w : Walk Cid} {x : Cid} (hx : x ∈ (w.visit gcs c).2) :
    x ∈ gcs ∨ x ∈ (w.visit gcs c).1.active := by
  unfold Walk.visit at *
  split
  · rename_i hc
    rw [if_pos hc] at hx
    exact .inl hx
  · rename_i hc
    rw [if_neg hc] at hx
    rcases Finset.mem_insert.mp hx with rfl | hx
    · exact .inr List.mem_cons_self
    · exact .inl hx

theorem active_visit {w : Walk Cid} {x : Cid} (hx : x ∈ w.active) :
    x ∈ (w.visit gcs c).1.active := by
  unfold Walk.visit
  split
  · exact hx
  · exact List.mem_cons_of_mem c hx

/-! ## The phases of a collection -/

variable {gcs keys keys' : Finset Cid} {roots : List Cid} {w : Walk Cid}

variable {stage : Stage}

theorem phase_nextRoot (h : Phase env gcs keys (.descendants stage (c :: roots))) :
    Phase env gcs keys (.walk stage roots (Walk.start c)) := by
  cases stage with
  | recursive =>
    obtain ⟨hclosed, hroots, hfiled⟩ := h
    refine ⟨covers_start c hclosed, ?_, fun x hx hp => .inr (hfiled x hx hp)⟩
    intro r hr
    rcases hroots r hr with hseen | hrest
    · exact .inl (.inl hseen)
    · rcases List.mem_cons.mp hrest with rfl | hrest
      · exact .inl (held_start r)
      · exact .inr hrest
  | _ => exact h

theorem phase_visit (c : Cid) (h : Phase env gcs keys (.walk stage roots w)) :
    Phase env (w.visit gcs c).2 keys (.walk stage roots (w.visit gcs c).1) := by
  cases stage with
  | recursive =>
    obtain ⟨hcovers, hroots, hfiled⟩ := h
    refine ⟨covers_visit c hcovers, fun r hr => (hroots r hr).imp_left (held_visit c), ?_⟩
    intro x hx hp
    rcases visit_marked hx with hold | hactive
    · exact (hfiled x hold hp).imp_left active_visit
    · exact .inl hactive
  | _ => exact Kept.mono (subset_visit c) (Finset.Subset.refl _) h

theorem phase_expand {targets : List Cid}
    (htargets : stage = .recursive → targets = blockLinks env c) (hkeys : keys ⊆ keys')
    (hfiled : Pinned env c → Filed keys' c) (h : Phase env gcs keys (.walk stage roots w)) :
    Phase env gcs keys' (.walk stage roots (w.expand c targets)) := by
  cases stage with
  | recursive =>
    obtain ⟨hcovers, hroots, hold⟩ := h
    obtain rfl := htargets rfl
    refine ⟨covers_expand c (fun b hb => hb) hcovers,
      fun r hr => (hroots r hr).imp_left (held_expand c _), ?_⟩
    intro x hx hp
    by_cases hxc : x = c
    · subst hxc
      exact .inr (hfiled hp)
    · exact (hold x hx hp).imp (List.mem_erase_of_ne hxc).mpr fun hf => hf.mono hkeys
  | _ => exact Kept.mono (Finset.Subset.refl _) hkeys h

theorem phase_walkDone (hfin : w.Finished) (h : Phase env gcs keys (.walk stage roots w)) :
    Phase env gcs keys (.descendants stage roots) := by
  cases stage with
  | recursive =>
    obtain ⟨hcovers, hroots, hfiled⟩ := h
    refine ⟨closed_of_finished hfin hcovers,
      fun r hr => (hroots r hr).imp_left (mem_of_finished hfin), ?_⟩
    intro x hx hp
    exact (hfiled x hx hp).resolve_left (by simp [hfin.2])
  | _ => exact h

/-- **The recursive pins are through**: everything they reach is marked and filed. -/
theorem phase_rootsDone (h : Phase env s.gcs keys (.descendants stage [])) :
    Phase env s.gcs keys (Gc.afterStage s stage) := by
  cases stage with
  | recursive =>
    obtain ⟨hclosed, hroots, hfiled⟩ := h
    intro c hc
    obtain ⟨r, hr, hreach⟩ := hc
    have hroot : r ∈ s.gcs := (hroots r hr).resolve_right List.not_mem_nil
    have hmarked : c ∈ s.gcs := by
      simpa using hreach.mem_of_closed hclosed (by simpa using hroot)
    exact ⟨hmarked, hfiled c hmarked ⟨r, hr, hreach⟩⟩
  | _ => exact h

theorem phase_directKeys {dkeys : List Cid} (hkeys : env.directKeys = .ok dkeys)
    (hfiled : ∀ d ∈ dkeys, Filed keys d) (h : Phase env gcs keys .directKeys) :
    Kept (Live env) (gcs ∪ dkeys.toFinset) keys := by
  intro c hc
  rcases hc with hpinned | hdirect
  · exact ⟨Finset.mem_union_left _ (h c hpinned).1, (h c hpinned).2⟩
  · rw [hkeys] at hdirect
    exact ⟨Finset.mem_union_right _ (List.mem_toFinset.mpr hdirect), hfiled c hdirect⟩

theorem kept_deleteBlock {P : Cid → Prop} {k : Cid} (hk : k ∉ gcs) (h : Kept P gcs keys) :
    Kept P gcs (deleteBlock keys k) := by
  intro c hc
  obtain ⟨hmarked, hfiled⟩ := h c hc
  refine ⟨hmarked, hfiled.deleteBlock ?_⟩
  rintro rfl
  exact hk hmarked

/-! ## Every step keeps the invariant -/

/-- What is known before the collection: everything pinned can be read through
the wrapper, direct pins are filed under their own CIDs, and raw CIDs are those
with the raw codec. -/
structure Start (env : Env Cid) (data : Contents) (keys₀ : Finset Cid) : Prop where
  pinned : ∀ c, Pinned env c → Readable data keys₀ c
  direct : ∀ d ∈ answered env.directKeys, Filed keys₀ d
  isRaw : ∀ c, env.isRaw c = decide (c.codec = raw)

variable {keys₀ : Finset Cid}

theorem Start.live (h : Start env data keys₀) (hc : Live env c) : Readable data keys₀ c := by
  rcases hc with hpinned | hdirect
  · exact h.pinned c hpinned
  · exact (h.direct c hdirect).readable

theorem store_step (h : step env data s ch = some t) :
    s.store ⊆ t.store ∨
      ∃ k, s.pc = .receive ∧ k ∉ s.gcs ∧ t.store = deleteBlock s.store k ∧
        t.gcs = s.gcs ∧ t.pc = .deleted (.keyRemoved k) := by
  obtain ⟨seen, u, htrans, ⟨hpc', hgcs, _⟩, heff⟩ := transition_of_step h
  cases htrans with
  | explored | missing | swallowed | unsent | rejected | drainFetch =>
    left
    rw [heff.2]
    split
    · exact subset_get
    · exact Finset.Subset.refl _
  | @deleteOk k hpc hstore hk =>
    right
    refine ⟨k, hpc, hk, ?_, hgcs, hpc'⟩
    rw [heff.2, heff.1]
    rfl
  | keyMarked | deleteErr =>
    left
    rw [heff.2, heff.1]
    split <;> exact Finset.Subset.refl _
  | _ =>
    left
    rw [heff.2, heff.1]

section

variable (hstart : Start env data keys₀)
include hstart

theorem filed_of_explored (hvalid : env.validateCid c = none) (hread : Readable data s.store c)
    (hstore : t.store = if reads env c false then (get data s.store c).2 else s.store) :
    Filed t.store c := by
  rw [hstore]
  cases hraw : env.isRaw c with
  | false =>
    have hreads : reads env c false = true := by simp [reads, hvalid, hraw]
    rw [if_pos hreads]
    exact filed_get hread
  | true =>
    -- a raw block has no other version
    have hcodec : c.codec = raw := by simpa [hstart.isRaw c] using hraw
    have hreads : ¬ reads env c false = true := by simp [reads, hraw]
    rw [if_neg hreads]
    exact hread.filed_of_codec (by rw [hcodec]; decide)

/-- What marking has achieved survives every step that only adds files. -/
theorem phase_step (hinv : Inv env data keys₀ s) (hsub : s.store ⊆ t.store)
    (h : step env data s ch = some t) :
    t.errors = true ∧ t.pc.marking = true ∨ Phase env t.gcs t.store t.pc := by
  obtain ⟨seen, u, htrans, ⟨hpc', hgcs, herrors⟩, heff⟩ := transition_of_step h
  have hphase : s.errors = true ∧ s.pc.marking = true ∨ Phase env s.gcs t.store s.pc :=
    hinv.phase.imp_right fun hp => hp.mono hsub
  rw [hpc', hgcs, herrors]
  cases htrans with
  | cancel => exact hphase
  | rkeys hpc hkeys =>
    rw [show s.pc = _ from hpc] at hphase
    refine hphase.imp (fun he => ⟨he.1, rfl⟩) ?_
    intro hempty
    have hempty : s.gcs = ∅ := hempty
    refine ⟨?_, ?_, ?_⟩
    · intro a ha
      simp [hempty] at ha
    · intro r hr
      rw [hkeys] at hr
      exact .inr hr
    · intro c hc
      simp [hempty] at hc
  | rootsDone hpc =>
    rw [show s.pc = _ from hpc] at hphase
    exact hphase.imp (fun he => ⟨he.1, Gc.afterStage_marking _ _⟩) phase_rootsDone
  | nextRoot hpc =>
    rw [show s.pc = _ from hpc] at hphase
    exact hphase.imp (fun he => ⟨he.1, rfl⟩) phase_nextRoot
  | visit hpc hc =>
    rw [show s.pc = _ from hpc] at hphase
    exact hphase.imp (fun he => ⟨he.1, rfl⟩) (phase_visit _)
  | @explored stage roots w c sent targets hpc hc hvalid hget =>
    rw [show s.pc = _ from hpc] at hphase
    refine hphase.imp (fun he => ⟨he.1, rfl⟩) ?_
    refine phase_expand (fun _ => targets_eq hget) (Finset.Subset.refl _) ?_
    intro hp
    exact filed_of_explored hstart hvalid (hinv.readable c (.inl hp)) heff.2
  | missing hpc hc hvalid hget | ikeys hpc hkeys =>
    rw [show s.pc = _ from hpc] at hphase
    exact hphase.imp (fun he => ⟨he.1, rfl⟩) id
  | walkDone hpc hfin =>
    rw [show s.pc = _ from hpc] at hphase
    exact hphase.imp (fun he => ⟨he.1, rfl⟩) (phase_walkDone hfin)
  | swallowed | unsent | drained => exact .inl ⟨rfl, rfl⟩
  | reported hpc =>
    rw [show s.pc = _ from hpc] at hphase
    exact .inl ⟨(hphase.resolve_right id).1, Gc.afterStage_marking _ _⟩
  | dkeys hpc hkeys =>
    have hgrows : keys₀ ⊆ t.store :=
      (hinv.grows (by rw [show s.pc = _ from hpc]; rfl)).trans hsub
    rw [show s.pc = _ from hpc] at hphase
    refine hphase.imp (fun he => ⟨he.1, rfl⟩) (phase_directKeys hkeys ?_)
    intro d hd
    exact (hstart.direct d (by rw [hkeys]; exact hd)).mono hgrows
  | markDone hpc hno =>
    rw [show s.pc = _ from hpc] at hphase
    exact .inr (hphase.resolve_left fun he => by simp [show s.errors = _ from hno] at he)
  | allKeys hpc | sweepOn hpc | keyMarked hpc | deletedSent hpc | deleteErr hpc | deleteOk hpc =>
    rw [show s.pc = _ from hpc] at hphase
    exact .inr (hphase.resolve_left (by simp [Gc.Pc.marking]))
  | _ => exact .inr trivial

/-- **Every step keeps the invariant.** -/
theorem inv_step (s : State Cid) (ch : Choice Cid) (t : State Cid) (hinv : Inv env data keys₀ s)
    (h : step env data s ch = some t) : Inv env data keys₀ t := by
  rcases store_step h with hsub | ⟨k, hpc, hk, hstore, hgcs, hpc'⟩
  · refine ⟨?_, fun c hc => (hinv.readable c hc).mono hsub, phase_step hstart hinv hsub h⟩
    intro hmarking
    obtain ⟨seen, u, htrans, ⟨hpc', _, _⟩, _⟩ := transition_of_step h
    rw [hpc'] at hmarking
    exact (hinv.grows (Gc.marking_back htrans hmarking).1).trans hsub
  have hkept : Kept (Live env) s.gcs s.store := by
    have hphase := hinv.phase
    rw [hpc] at hphase
    exact hphase.resolve_left (by simp [Gc.Pc.marking])
  have hkept' : Kept (Live env) t.gcs t.store := by
    rw [hstore, hgcs]
    exact kept_deleteBlock hk hkept
  refine ⟨by simp [hpc', Gc.Pc.marking], fun c hc => (hkept' c hc).2.readable, .inr ?_⟩
  rw [hpc']
  exact hkept'

theorem inv_init (bestEffortRoots : List Cid) :
    Inv env data keys₀ (Gc.init keys₀ bestEffortRoots) where
  grows := fun _ => Finset.Subset.refl _
  readable := fun _ hc => hstart.live hc
  phase := .inr rfl

end

/-- **A collection keeps pinned content readable.**  If everything reachable from
the recursive pins can be read through the wrapper and every direct pin is filed
under its own CID, then in every state that any run of the collector reaches,
all of it can still be read through the wrapper under the same CIDs. -/
theorem pinned_readable_after_gc (env : Env Cid) (data : Contents) (keys₀ : Finset Cid)
    (bestEffortRoots : List Cid) (hraw : ∀ c, env.isRaw c = decide (c.codec = raw))
    (hpinned : ∀ r ∈ answered env.recursiveKeys, ∀ c, Reach (blockLinks env) r c →
      Readable data keys₀ c)
    (hdirect : ∀ d ∈ answered env.directKeys, Filed keys₀ d)
    (schedule : List (Choice Cid)) {s : State Cid}
    (hrun : run (step env data) (Gc.init keys₀ bestEffortRoots) schedule = some s) :
    (∀ r ∈ answered env.recursiveKeys, ∀ c, Reach (blockLinks env) r c →
        Readable data s.store c) ∧
      ∀ d ∈ answered env.directKeys, Readable data s.store d := by
  have hstart : Start env data keys₀ :=
    ⟨fun c hc => hc.elim fun r hr => hpinned r hr.1 c hr.2, hdirect, hraw⟩
  have hinv : Inv env data keys₀ s :=
    run_invariant _ (inv_step hstart) (inv_init hstart bestEffortRoots) hrun
  exact ⟨fun r hr c hc => hinv.readable c (.inl ⟨r, hr, hc⟩), fun d hd => hinv.readable d (.inr hd)⟩

/-- The block is pinned as CIDv1. -/
def sampleEnv : Env Cid where
  recursiveKeys := .ok [sampleV1]
  directKeys := .ok []
  internalPins := .ok []
  validateCid := fun _ => none
  isRaw := fun c => decide (c.codec = raw)
  links := fun _ => []
  fetchError := fun _ => none
  allKeysError := none
  collectGarbage := none

/-- Mark the pin, then sweep the key of the CIDv0. -/
def sampleSchedule : List (Choice Cid) :=
  [.next, .next, .visit sampleV1, .fetch sampleV1 false true, .next, .next, .next, .next, .next,
    .next, .next, .next, .next, .recvKey sampleV0 none]

theorem sample_reach (h : Reach (blockLinks sampleEnv) sampleV1 c) : c = sampleV1 := by
  rcases h.cases_head with heq | ⟨b, hb, _⟩
  · exact heq.symm
  · have hnone : blockLinks sampleEnv sampleV1 = [] := by decide
    simp [hnone] at hb

/-- The block is filed as CIDv0 only and pinned as CIDv1: the collection files it
under the pin, deletes the CIDv0 key, and the pin is still readable. -/
theorem pinned_readable_after_gc_refiled :
    ∃ s, run (step sampleEnv fun _ => []) (Gc.init {sampleV0} []) sampleSchedule = some s ∧
      s.store = {sampleV1} ∧ Readable (fun _ => []) s.store sampleV1 := by
  have hany : (run (step sampleEnv fun _ => []) (Gc.init {sampleV0} []) sampleSchedule).any
      (fun s => decide (s.store = {sampleV1})) = true := by decide
  obtain ⟨s, hs, hstore⟩ := exists_run_of_any hany
  refine ⟨s, hs, of_decide_eq_true hstore, ?_⟩
  refine (pinned_readable_after_gc sampleEnv _ {sampleV0} [] (fun _ => rfl) ?_ ?_
    sampleSchedule hs).1 sampleV1 (by decide) sampleV1 (Reach.refl _)
  · intro r hr c hc
    obtain rfl : r = sampleV1 := by simpa [sampleEnv, answered] using hr
    rw [sample_reach hc]
    exact ⟨⟨sampleV1, []⟩, by decide⟩
  · intro d hd
    simp [sampleEnv, answered] at hd

end WrappedGc
