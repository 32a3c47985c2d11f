import GoIpfs.Refs

/-!
# Walks of `ipfs refs`

What holds with and without `--unique`: a walk only asks for CIDs within the
depth limit, it fails only if one of them cannot be retrieved or a line cannot
be sent, and it counts the lines it has sent.
-/

namespace Refs

open FiniteDag

variable {Cid : Type} [DecidableEq Cid] {o : Options} {dag : Dag Cid} {env : Env Cid}
  {w w₁ w₂ : RefWriter Cid} {c n : Cid} {d : Nat}

/-- CIDs at this depth are listed. -/
def Allowed (o : Options) (depth : Nat) : Prop :=
  o.maxDepth < 0 ∨ (depth : Int) ≤ o.maxDepth

instance (o : Options) (depth : Nat) : Decidable (Allowed o depth) :=
  inferInstanceAs (Decidable (_ ∨ _))

theorem Allowed.mono {k : Nat} (h : Allowed o k) (hdk : d ≤ k) : Allowed o d := by
  unfold Allowed at *
  omega

theorem overMaxDepth_eq (o : Options) (d : Nat) : overMaxDepth o d = !decide (Allowed o d) := by
  rw [Bool.eq_iff_iff]
  simp only [overMaxDepth, Bool.and_eq_true, decide_eq_true_eq, Bool.not_eq_true',
    decide_eq_false_iff_not]
  unfold Allowed
  omega

theorem not_atMaxDepth (h : Allowed o d) : (!atMaxDepth o d) = decide (Allowed o (d + 1)) := by
  rw [Bool.eq_iff_iff]
  simp only [atMaxDepth, Bool.not_eq_true', Bool.and_eq_false_iff, decide_eq_false_iff_not,
    decide_eq_true_eq]
  unfold Allowed at *
  omega

/-! ## Walks that do not fail -/

/-- Every line can be sent, and every CID listed below `n` can be retrieved. -/
def AllReadable (o : Options) (dag : Dag Cid) (env : Env Cid) (n : Cid) (d : Nat) : Prop :=
  (∀ j, env.emit j = true) ∧
    ∀ k, 0 < k → Allowed o (d + k) → ∀ c, Path dag.children k n c → ∀ j, env.get j c = true

omit [DecidableEq Cid] in
theorem AllReadable.child (h : AllReadable o dag env n d) (hc : c ∈ dag.children n) :
    AllReadable o dag env c (d + 1) := by
  refine ⟨h.1, ?_⟩
  intro k _ hallowed x hpath
  refine h.2 (k + 1) (by omega) ?_ x ⟨c, hc, hpath⟩
  rwa [Nat.add_assoc, Nat.add_comm 1 k] at hallowed

theorem visit_allowed (h : ¬ (!(visit o c d w).shouldWrite && !(visit o c d w).goDeeper) = true) :
    Allowed o d := by
  by_contra hallowed
  have hover : overMaxDepth o d = true := by simp [overMaxDepth_eq, hallowed]
  simp [visit, hover] at h

omit [DecidableEq Cid] in
theorem fetchAndWrite_err_none {l : Link Cid} {shouldWrite : Bool}
    (hget : ∀ j, env.get j l.cid = true) (hemit : ∀ j, env.emit j = true) :
    (fetchAndWrite env n l shouldWrite w).err = none := by
  refine Outcome.andThen_err_none.mpr ⟨by simp [get, hget], ?_⟩
  cases shouldWrite with
  | false => rfl
  | true => simp [writeEdge, hemit]

variable {deeper : Cid → Nat → RefWriter Cid → Outcome Cid}

theorem writeLinks_err_none (hread : AllReadable o dag env n d) (ls : List (Link Cid))
    (hls : ∀ l ∈ ls, l.cid ∈ dag.children n ∧ ∀ w, (deeper l.cid (d + 1) w).err = none)
    (w : RefWriter Cid) : (writeLinks o env deeper n d ls w).err = none := by
  induction ls generalizing w with
  | nil => rfl
  | cons l rest ih =>
    obtain ⟨hl, hdeeper⟩ := hls l List.mem_cons_self
    refine Outcome.andThen_err_none.mpr ⟨?_, ih (fun x hx => hls x (List.mem_cons_of_mem l hx)) _⟩
    unfold writeLink
    dsimp only
    split
    · rfl
    rename_i hvisit
    have hget := hread.2 1 (by omega) (visit_allowed hvisit) l.cid ⟨l.cid, hl, rfl⟩
    refine Outcome.andThen_err_none.mpr ⟨fetchAndWrite_err_none hget hread.1, ?_⟩
    split
    · exact hdeeper _
    · rfl

/-- **A walk over readable nodes does not fail.** -/
theorem writeRefsRecursive_err_none (fuel : Nat) (hread : AllReadable o dag env n d)
    (w : RefWriter Cid) : (writeRefsRecursive o dag env fuel n d w).err = none := by
  induction fuel generalizing n d w with
  | zero => rfl
  | succ fuel ih =>
    refine writeLinks_err_none hread (dag.links n) ?_ w
    intro l hl
    have hc : l.cid ∈ dag.children n := List.mem_map_of_mem hl
    exact ⟨hc, fun w => ih (hread.child hc) w⟩

def Env.Available (env : Env Cid) : Prop :=
  (∀ k c, env.get k c = true) ∧ ∀ k, env.emit k = true

theorem writeRefs_err_none (hroot : env.get 0 c = true) (hread : AllReadable o dag env c 0) :
    (writeRefs o dag env c w).err = none :=
  Outcome.andThen_err_none.mpr
    ⟨by simp [get, hroot], writeRefsRecursive_err_none _ hread _⟩

omit [DecidableEq Cid] in
theorem Env.Available.allReadable (h : env.Available) : AllReadable o dag env c d :=
  ⟨h.2, fun _ _ _ x _ j => h.1 j x⟩

/-! ## Counting -/

/-- The count is the number of edges that have been written. -/
def Counts (k : Nat) (w w' : RefWriter Cid) : Prop := w'.edges.length = w.edges.length + k

omit [DecidableEq Cid] in
theorem Counts.trans {m k : Nat} (h₁ : Counts m w w₁) (h₂ : Counts k w₁ w₂) :
    Counts (m + k) w w₂ := by
  unfold Counts at *
  omega

omit [DecidableEq Cid] in
theorem counts_fetchAndWrite {l : Link Cid} {shouldWrite : Bool} :
    Counts (fetchAndWrite env n l shouldWrite w).count w
      (fetchAndWrite env n l shouldWrite w).writer := by
  refine Outcome.andThen_rel Counts.trans rfl ?_
  cases shouldWrite with
  | false => rfl
  | true =>
    simp only [if_true, writeEdge]
    split <;> simp [Counts]

theorem visit_edges : (visit o c d w).writer.edges = w.edges := by
  unfold visit
  split
  · rfl
  · split
    · rfl
    · split
      · split <;> rfl
      · rfl

theorem counts_writeLinks (hdeeper : ∀ c d w, Counts (deeper c d w).count w (deeper c d w).writer)
    (ls : List (Link Cid)) (w : RefWriter Cid) :
    Counts (writeLinks o env deeper n d ls w).count w
      (writeLinks o env deeper n d ls w).writer := by
  induction ls generalizing w with
  | nil => rfl
  | cons l rest ih =>
    refine Outcome.andThen_rel Counts.trans ?_ (ih _)
    have hvisit : Counts 0 w (visit o l.cid (d + 1) w).writer := by
      simp [Counts, visit_edges]
    unfold writeLink
    dsimp only
    split
    · exact hvisit
    · rw [← Nat.zero_add (Outcome.count _)]
      refine hvisit.trans (Outcome.andThen_rel Counts.trans counts_fetchAndWrite ?_)
      split
      · exact hdeeper _ _ _
      · rfl

/-- **The count of a call**, whether it fails or not. -/
theorem counts_writeRefsRecursive (fuel : Nat) (n : Cid) (d : Nat) (w : RefWriter Cid) :
    Counts (writeRefsRecursive o dag env fuel n d w).count w
      (writeRefsRecursive o dag env fuel n d w).writer := by
  induction fuel generalizing n d w with
  | zero => rfl
  | succ fuel ih => exact counts_writeLinks ih (dag.links n) w

theorem counts_writeRefs : Counts (writeRefs o dag env c w).count w
    (writeRefs o dag env c w).writer := by
  exact Outcome.andThen_rel Counts.trans rfl (counts_writeRefsRecursive _ _ _ _)

theorem counts_writeAll (qs : List (Request Cid)) (w : RefWriter Cid) :
    Counts ((writeAll o dag qs w).1.map Prod.fst).sum w (writeAll o dag qs w).2 := by
  induction qs generalizing w with
  | nil => rfl
  | cons q rest ih => exact counts_writeRefs.trans (ih _)

end Refs
