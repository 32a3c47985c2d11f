import GoIpfs.CollectorMarks

/-!
# Collecting again

What is marked stays: the steps after a marking take only unmarked blocks out of
the store, however far the sweep gets.  The links that a later marking follows are
therefore those that the first one followed, so it ends with the same set, and
where the first sweep has left nothing unmarked the second one deletes nothing.
-/

namespace Gc

open LinkReach StepRun

variable {Cid : Type} [DecidableEq Cid] {env : Env Cid} {store gcs : Finset Cid}
  {broots : List Cid} {s t : State Cid} {c : Cid}

/-- The steps after a marking keep the set and its blocks. -/
structure Kept (store gcs : Finset Cid) (s : State Cid) : Prop where
  marked : s.pc.marking = false
  gcs_eq : s.gcs = gcs
  sub : s.store ⊆ store
  kept : ∀ k ∈ store, k ∈ gcs → k ∈ s.store

theorem kept_step (s : State Cid) (ch : Choice Cid) (t : State Cid) (h : Kept store gcs s)
    (hstep : step env s ch = some t) : Kept store gcs t := by
  have htrans := transition_of_step hstep
  have hmarked : t.pc.marking = false := by
    refine Bool.eq_false_iff.mpr fun ht => ?_
    have hmarking := (marking_back htrans ht).1
    rw [h.marked] at hmarking
    cases hmarking
  cases htrans with
  | visit hpc | drainVisit hpc | dkeys hpc =>
    have hfalse := h.marked
    rw [hpc] at hfalse
    cases hfalse
  | deleteOk _ _ hk =>
    refine ⟨hmarked, h.gcs_eq, (Finset.erase_subset _ _).trans h.sub, fun k hstore hgcs => ?_⟩
    refine Finset.mem_erase.mpr ⟨?_, h.kept k hstore hgcs⟩
    rintro rfl
    exact hk (h.gcs_eq ▸ hgcs)
  | _ => exact ⟨hmarked, h.gcs_eq, h.sub, h.kept⟩

theorem kept_run {sweeping : List (Choice Cid)} (hpc : s.pc = .allKeys)
    (hsweep : run (step env) s sweeping = some t) : Kept s.store s.gcs t :=
  run_invariant _ kept_step ⟨by rw [hpc]; rfl, rfl, Finset.Subset.refl _, fun _ hk _ => hk⟩ hsweep

/-- A marked block has the links that it had. -/
theorem Kept.storedLinks_eq (h : Kept store gcs t) (hc : c ∈ gcs) :
    storedLinks env t.store c = storedLinks env store c := by
  have hmem : c ∈ t.store ↔ c ∈ store := ⟨fun hk => h.sub hk, fun hk => h.kept c hk hc⟩
  simp only [storedLinks, ipldGetLinks, hmem]

/-- **Collecting again.**  After a collection that was broken off at any point, or
ran to its end, a marking for the same pins ends with the same set.  If the first
sweep has left no unmarked block, the second one leaves the store as it is. -/
theorem collect_again {marking sweeping marking' : List (Choice Cid)} {s' : State Cid}
    (hrun : run (step env) (init store broots) marking = some s) (hpc : s.pc = .allKeys)
    (hsweep : run (step env) s sweeping = some t)
    (hrun' : run (step env) (init t.store broots) marking' = some s') (hpc' : s'.pc = .allKeys) :
    s'.gcs = s.gcs ∧
      (t.store ⊆ s.gcs → ∀ rest u, run (step env) s' rest = some u → u.store = t.store) := by
  have hkept : Kept store s.gcs t := (unswept_of_run hrun hpc).1 ▸ kept_run hpc hsweep
  have hlive : ∀ c, Live env t.store broots c ↔ Live env store broots c := fun c =>
    exists_reach_congr fun a ha =>
      hkept.storedLinks_eq ((mem_gcs_iff hrun hpc).mpr (.inr (.inl ha)))
  have hshown : ∀ c, Shown env t.store c ↔ Shown env store c := by
    refine fun c => exists_reach_congr fun a ha => ?_
    unfold openLinks
    rw [hkept.storedLinks_eq ((mem_gcs_iff hrun hpc).mpr (.inr (.inr ha)))]
  have hgcs : s'.gcs = s.gcs := by
    ext c
    rw [mem_gcs_iff hrun hpc, mem_gcs_iff hrun' hpc', hlive, hshown]
  refine ⟨hgcs, fun hall rest u hrest => ?_⟩
  have hkept' : Kept t.store s'.gcs u := (unswept_of_run hrun' hpc').1 ▸ kept_run hpc' hrest
  exact hkept'.sub.antisymm fun k hk => hkept'.kept k hk (hgcs ▸ hall hk)

/-- The block `3` is swept; whatever a second collection does, the rest stays. -/
theorem collect_again_sample :
    ∃ t s', run (step sampleEnv) (init {1, 2, 3, 5} []) sampleSchedule = some t ∧
      run (step sampleEnv) (init t.store []) (sampleSchedule.take 13) = some s' ∧
      ∀ rest u, run (step sampleEnv) s' rest = some u → u.store = t.store := by
  have hany : (run (step sampleEnv) (init {1, 2, 3, 5} []) (sampleSchedule.take 13)).any (fun s =>
      (run (step sampleEnv) s (sampleSchedule.drop 13)).any fun t =>
        (run (step sampleEnv) (init t.store []) (sampleSchedule.take 13)).any fun s' =>
          decide (s.pc = .allKeys ∧ t.store ⊆ s.gcs ∧ s'.pc = .allKeys)) = true := by
    decide
  obtain ⟨s, hs, hany⟩ := exists_run_of_any hany
  obtain ⟨t, ht, hany⟩ := exists_run_of_any hany
  obtain ⟨s', hs', hp⟩ := exists_run_of_any hany
  obtain ⟨hpc, hall, hpc'⟩ := of_decide_eq_true hp
  exact ⟨t, s', run_append.mpr ⟨s, hs, ht⟩, hs', (collect_again hs hpc ht hs' hpc').2 hall⟩

end Gc
