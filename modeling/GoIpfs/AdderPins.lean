import GoIpfs.AdderSafety

/-!
# The pins an add leaves behind

At a pause the adder pins the root it has built so far, and `PinRoot` means to
unpin the root of the previous pause.  But it notes the temporary root only
where one is noted already, so none ever is: every root pinned at a pause
stays pinned after the add.  The pins are therefore exactly the old ones, the
node that is returned, and the roots of all pauses.
-/

namespace CoreUnix

open Effects LinkReach Mfs

/-- **A stray pin.**  A collection is waiting when the add of one file begins:
the empty directory is pinned and stays pinned. -/
theorem addAllAndPin_stray_pin :
    (addAllAndPin (blockEnv (fun n => n = 0)) (.file 7) (newAdder ⟨∅, 0⟩ ∅)).1 =
        .ok (.data 7) ∧
      (addAllAndPin (blockEnv (fun n => n = 0)) (.file 7) (newAdder ⟨∅, 0⟩ ∅)).2.pins ≠
        insert (.data 7) ∅ := by
  decide +kernel

variable {Cid File : Type} [DecidableEq Cid]
variable {env : Env Cid File}

theorem mem_pausedRoots {n : Nat} {ts : List (Mfs.Tree Cid)} {r : Cid} :
    r ∈ pausedRoots env true n ts ↔
      ∃ i t, ts[i]? = some t ∧ env.gcRequested (n + i) = true ∧ r = treeRoot env t := by
  induction ts generalizing n with
  | nil => simp [pausedRoots]
  | cons t rest ih =>
    have hstep : r ∈ pausedRoots env true n (t :: rest) ↔
        (env.gcRequested n = true ∧ r = treeRoot env t) ∨
          r ∈ pausedRoots env true (n + 1) rest := by
      simp only [pausedRoots, Bool.true_and]
      split <;> simp_all
    rw [hstep, ih]
    constructor
    · intro h
      rcases h with ⟨hreq, hr⟩ | ⟨i, u, hu, hreq, hr⟩
      · exact ⟨0, t, rfl, hreq, hr⟩
      · exact ⟨i + 1, u, hu, by rwa [Nat.add_assoc, Nat.add_comm 1] at hreq, hr⟩
    · intro h
      obtain ⟨i, u, hu, hreq, hr⟩ := h
      cases i with
      | zero =>
        cases hu
        exact .inl ⟨hreq, hr⟩
      | succ i => exact .inr ⟨i, u, hu, by rwa [Nat.add_assoc, Nat.add_comm 1], hr⟩

theorem addAllAndPin_pins {file : FileNode File} {dag : Dag Cid} {pins : Finset Cid}
    {nd : Cid} {s : Adder Cid} (hpin : env.pin = true)
    (hrun : addAllAndPin env file (newAdder dag pins) = (.ok nd, s)) :
    ∃ visited t, grow env "" true file .empty = some (visited, t) ∧
      s.pins = insert nd (pins ∪ (pausedRoots env true 0 visited).toFinset) := by
  have hwp := addAll_wp env file (building_newAdder env dag pins) (fun h => h)
  rcases hexec : exec (addAll env file) { newAdder dag pins with unlocker := env.pin } with ⟨r, t⟩
  rw [addAllAndPin, hexec] at hrun
  obtain ⟨rfl, rfl⟩ : r = .ok nd ∧ (if t.unlocker then t.release else t) = s := by
    simpa using hrun
  obtain ⟨_, _, _, visited, tree, hgrow, hpins⟩ := hwp.ok hexec
  refine ⟨visited, tree, hgrow, ?_⟩
  have hsame : (if t.unlocker then t.release else t).pins = t.pins := by
    split <;> rfl
  rw [hsame, hpins, finalPins, if_pos hpin, hpin]
  rfl

/-- **When an add leaves no stray pin.**  After a successful add the pins are
the old ones and the returned node exactly when, at every pause point at which
a collection is waiting, the root of the part of the tree before that point is
pinned already or is the returned node. -/
theorem addAllAndPin_pins_iff (env : Env Cid File) (hpin : env.pin = true)
    (file : FileNode File) (dag : Dag Cid) (pins : Finset Cid) {nd : Cid} {s : Adder Cid}
    (hrun : addAllAndPin env file (newAdder dag pins) = (.ok nd, s)) :
    ∃ visited t, grow env "" true file .empty = some (visited, t) ∧
      (s.pins = insert nd pins ↔
        ∀ i t, visited[i]? = some t → env.gcRequested i = true →
          treeRoot env t ∈ pins ∨ treeRoot env t = nd) := by
  obtain ⟨visited, tree, hgrow, hpins⟩ := addAllAndPin_pins hpin hrun
  refine ⟨visited, tree, hgrow, ?_⟩
  rw [hpins]
  constructor
  · intro heq i t ht hreq
    have hmem : treeRoot env t ∈ insert nd (pins ∪ (pausedRoots env true 0 visited).toFinset) := by
      simp only [Finset.mem_insert, Finset.mem_union, List.mem_toFinset]
      exact .inr (.inr (mem_pausedRoots.mpr ⟨i, t, ht, by simpa using hreq, rfl⟩))
    rw [heq, Finset.mem_insert] at hmem
    exact hmem.symm
  intro h
  ext c
  simp only [Finset.mem_insert, Finset.mem_union, List.mem_toFinset]
  constructor
  · intro hc
    rcases hc with hnd | hold | hpaused
    · exact .inl hnd
    · exact .inr hold
    · obtain ⟨i, t, ht, hreq, rfl⟩ := mem_pausedRoots.mp hpaused
      exact (h i t ht (by simpa using hreq)).symm
  · intro hc
    exact hc.imp_right .inl

/-- A collection is waiting before the second file, and the first file, which
is the root at that point, has been pinned before. -/
theorem addAllAndPin_pins_iff_sample :
    ∃ s, addAllAndPin (blockEnv (fun n => n = 2)) sampleTree
        (newAdder ⟨{.data 1}, 0⟩ {.data 1}) =
          (.ok (.entry "a" (.data 1) (.entry "b" (.data 2) .nil)), s) ∧
      s.pins = insert (.entry "a" (.data 1) (.entry "b" (.data 2) .nil)) {.data 1} := by
  have hok : (addAllAndPin (blockEnv (fun n => n = 2)) sampleTree
      (newAdder ⟨{.data 1}, 0⟩ {.data 1})).1 =
        .ok (.entry "a" (.data 1) (.entry "b" (.data 2) .nil)) := by
    decide +kernel
  have hgrow : grow (blockEnv (fun n => n = 2)) "" true sampleTree .empty =
      some ([.empty, .empty, .file "a" (.data 1) .empty],
        .file "a" (.data 1) (.file "b" (.data 2) .empty)) := by
    decide +kernel
  generalize hrun : addAllAndPin (blockEnv (fun n => n = 2)) sampleTree
    (newAdder ⟨{.data 1}, 0⟩ {.data 1}) = result at hok
  obtain ⟨r, s⟩ := result
  obtain rfl : r = .ok (.entry "a" (.data 1) (.entry "b" (.data 2) .nil)) := hok
  obtain ⟨visited, t, hgrow', hiff⟩ := addAllAndPin_pins_iff _ rfl _ _ _ hrun
  rw [hgrow] at hgrow'
  obtain ⟨rfl, rfl⟩ := Prod.mk.inj (Option.some.inj hgrow')
  refine ⟨s, rfl, hiff.mpr ?_⟩
  intro i t ht hreq
  obtain rfl : i = 2 := by simpa [blockEnv] using hreq
  obtain rfl : Mfs.Tree.file "a" (.data 1) .empty = t := by simpa using ht
  exact .inl (by decide)

end CoreUnix
