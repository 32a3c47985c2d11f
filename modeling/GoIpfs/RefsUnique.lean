import GoIpfs.RefsWalk

/-!
# `ipfs refs --unique`

The memo of a `RefWriter` maps a CID to the smallest depth at which it has been
visited.  What makes pruning right is a local property: a CID marked at depth
`d` has each of its children marked at depth `d + 1` or above (`Covered`).  The
walk breaks it for the CIDs on its stack only, so a call of
`writeRefsRecursive` leaves every mark as it was or covered (`Explored`).
-/

namespace Refs

open FiniteDag List Option RefWriter

variable {Cid : Type} [DecidableEq Cid] {o : Options} {dag : Dag Cid} {env : Env Cid}
  {w w₁ w₂ : RefWriter Cid} {c n : Cid} {d : Nat}

/-- The memo already answers for the CID at this depth. -/
def Held (o : Options) (w : RefWriter Cid) (c : Cid) (depth : Nat) : Prop :=
  ∃ old, w.seen c = some old ∧ (o.maxDepth < 0 ∨ old ≤ depth)

/-- The memo answers for all children of a CID that is visited at this depth. -/
def Covered (o : Options) (dag : Dag Cid) (w : RefWriter Cid) (c : Cid) (depth : Nat) : Prop :=
  Allowed o (depth + 1) → ∀ x ∈ dag.children c, Held o w x (depth + 1)

/-- The marked CIDs are the written ones, and each is written once. -/
def Logged (w : RefWriter Cid) : Prop :=
  w.written.Nodup ∧ ∀ c, c ∈ w.written ↔ w.seen c ≠ none

omit [DecidableEq Cid] in
theorem Held.mono {k : Nat} (h : Held o w c d) (hdk : d ≤ k) : Held o w c k := by
  obtain ⟨old, hseen, hold⟩ := h
  exact ⟨old, hseen, by omega⟩

omit [DecidableEq Cid] in
theorem Held.ne_none (h : Held o w c d) : w.seen c ≠ none := by
  obtain ⟨old, hseen, _⟩ := h
  simp [hseen]

/-! ## One link -/

theorem visit_pruned (hunique : o.unique = true) (h : ¬ Allowed o d ∨ Held o w c d) :
    visit o c d w = ⟨false, false, w⟩ := by
  unfold visit
  split
  · rfl
  · rename_i hover
    have hallowed : Allowed o d := by simpa [overMaxDepth_eq] using hover
    obtain ⟨old, hseen, hold⟩ := h.resolve_left (not_not_intro hallowed)
    simp only [hunique, Bool.not_true, Bool.false_eq_true, if_false, hseen]
    exact if_pos hold

theorem visit_fresh (hunique : o.unique = true) (hallowed : Allowed o d) (hheld : ¬ Held o w c d) :
    visit o c d w =
      ⟨decide (Allowed o (d + 1)), (w.seen c).isNone, w.mark c d⟩ := by
  have hover : overMaxDepth o d = false := by simp [overMaxDepth_eq, hallowed]
  unfold visit
  simp only [hover, hunique, Bool.not_true, Bool.false_eq_true, if_false, not_atMaxDepth hallowed]
  cases hseen : w.seen c with
  | none => rfl
  | some old => exact if_neg fun hold => hheld ⟨old, hseen, hold⟩

/-- The writer once `c` is marked at depth `d` and, when it is new, written. -/
structure Marked (w : RefWriter Cid) (c : Cid) (d : Nat) (w₁ : RefWriter Cid) : Prop where
  seen : w₁.seen = (w.mark c d).seen
  written : w₁.written = w.written ++ if w.seen c = none then [c] else []

variable {l : Link Cid}

omit [DecidableEq Cid] in
theorem fetchAndWrite_ok {shouldWrite : Bool}
    (herr : (fetchAndWrite env n l shouldWrite w).err = none) :
    (fetchAndWrite env n l shouldWrite w).writer.seen = w.seen ∧
      (fetchAndWrite env n l shouldWrite w).writer.written =
        w.written ++ if shouldWrite then [l.cid] else [] := by
  obtain ⟨hget, hwrite⟩ := Outcome.andThen_err_none.mp herr
  unfold fetchAndWrite
  rw [Outcome.andThen_writer hget]
  cases shouldWrite with
  | false => simp [get, written]
  | true =>
    simp only [writeEdge, if_true] at hwrite ⊢
    split at hwrite
    · rename_i hemit
      rw [if_pos hemit]
      simp [get, written]
    · cases hwrite

variable {deeper : Cid → Nat → RefWriter Cid → Outcome Cid}

/-- **One iteration of the loop**, when it does not fail: the link is pruned, or
its CID is marked, written when it is new, and explored when that is allowed. -/
theorem writeLink_ok (hunique : o.unique = true)
    (herr : (writeLink o env deeper n d l w).err = none) :
    ((¬ Allowed o (d + 1) ∨ Held o w l.cid (d + 1)) ∧
        (writeLink o env deeper n d l w).writer = w) ∨
      Allowed o (d + 1) ∧ ¬ Held o w l.cid (d + 1) ∧
        ∃ w₁, Marked w l.cid (d + 1) w₁ ∧
          (if Allowed o (d + 2) then
            (deeper l.cid (d + 1) w₁).err = none ∧
              (writeLink o env deeper n d l w).writer = (deeper l.cid (d + 1) w₁).writer
          else (writeLink o env deeper n d l w).writer = w₁) := by
  by_cases hprune : ¬ Allowed o (d + 1) ∨ Held o w l.cid (d + 1)
  · refine .inl ⟨hprune, ?_⟩
    simp [writeLink, visit_pruned hunique hprune]
  obtain ⟨hallowed, hheld⟩ := not_or.mp hprune
  have hallowed := not_not.mp hallowed
  refine .inr ⟨hallowed, hheld, ?_⟩
  unfold writeLink at herr ⊢
  rw [visit_fresh hunique hallowed hheld] at herr ⊢
  dsimp only at herr ⊢
  split at herr
  · -- marked at a smaller depth than before, but already written and at the limit
    rename_i hskip
    rw [if_pos hskip]
    simp only [Bool.and_eq_true, Bool.not_eq_true', isNone_eq_false_iff,
      decide_eq_false_iff_not] at hskip
    refine ⟨w.mark l.cid (d + 1), ⟨rfl, ?_⟩, ?_⟩
    · have hseen : w.seen l.cid ≠ none := isSome_iff_ne_none.mp hskip.1
      simp [written, mark, hseen]
    · rw [if_neg hskip.2]
      rfl
  · rename_i hskip
    rw [if_neg hskip]
    obtain ⟨hwrite, hdeep⟩ := Outcome.andThen_err_none.mp herr
    obtain ⟨hseen, hwritten⟩ := fetchAndWrite_ok hwrite
    rw [Outcome.andThen_writer hwrite]
    refine ⟨_, ⟨hseen, hwritten.trans (by simp [written, mark])⟩, ?_⟩
    split
    · rename_i hdown
      rw [if_pos (by simpa using hdown)] at hdeep ⊢
      exact ⟨hdeep, rfl⟩
    · rename_i hdown
      rw [if_neg (by simpa using hdown)]
      rfl

/-! ## What a walk does to the memo -/

/-- What a walk below `n`, visited at depth `d`, may do to the memo. -/
structure Explored (o : Options) (dag : Dag Cid) (n : Cid) (d : Nat)
    (w w' : RefWriter Cid) : Prop where
  /-- No answer of the memo is lost. -/
  held : ∀ c e, Held o w c e → Held o w' c e
  /-- A mark is old, or the children of its CID have been visited. -/
  covered : ∀ c e, w'.seen c = some e → w.seen c = some e ∨ Covered o dag w' c e
  /-- A mark is old, or its depth is the length of a path through `n`. -/
  reached : ∀ c e, w'.seen c = some e →
    w.seen c = some e ∨ Allowed o e ∧ ∃ k, 0 < k ∧ e = d + k ∧ Path dag.children k n c
  logged : Logged w → Logged w'

section

omit [DecidableEq Cid]

theorem Covered.mono (hheld : ∀ c e, Held o w c e → Held o w₁ c e)
    (h : Covered o dag w c d) : Covered o dag w₁ c d :=
  fun hallowed x hx => hheld x _ (h hallowed x hx)

theorem Explored.refl (w : RefWriter Cid) : Explored o dag n d w w where
  held := fun _ _ h => h
  covered := fun _ _ h => .inl h
  reached := fun _ _ h => .inl h
  logged := fun h => h

theorem Explored.trans (h₁ : Explored o dag n d w w₁) (h₂ : Explored o dag n d w₁ w₂) :
    Explored o dag n d w w₂ where
  held := fun c e h => h₂.held c e (h₁.held c e h)
  covered := by
    intro c e h
    rcases h₂.covered c e h with hold | hcov
    · rcases h₁.covered c e hold with holder | hcov
      · exact .inl holder
      · exact .inr (hcov.mono h₂.held)
    · exact .inr hcov
  reached := by
    intro c e h
    rcases h₂.reached c e h with hold | hpath
    · exact h₁.reached c e hold
    · exact .inr hpath
  logged := fun h => h₂.logged (h₁.logged h)

end

variable {x : Cid}

section

variable (h : Marked w c d w₁)
include h

theorem Marked.seen_eq {e : Nat} (hx : w₁.seen x = some e) :
    x = c ∧ e = d ∨ x ≠ c ∧ w.seen x = some e := by
  rw [h.seen] at hx
  by_cases hxc : x = c
  · subst hxc
    simp only [mark, Function.update_self, some.injEq] at hx
    exact .inl ⟨rfl, hx.symm⟩
  · simp only [mark, Function.update_of_ne hxc] at hx
    exact .inr ⟨hxc, hx⟩

theorem Marked.held_self : Held o w₁ c d :=
  ⟨d, by simp [h.seen, mark], .inr (Nat.le_refl d)⟩

theorem Marked.held (hheld : ¬ Held o w c d) {e : Nat} (hx : Held o w x e) : Held o w₁ x e := by
  obtain ⟨old, hseen, hold⟩ := hx
  by_cases hxc : x = c
  · subst hxc
    have hlt : ¬ (o.maxDepth < 0 ∨ old ≤ d) := fun hle => hheld ⟨old, hseen, hle⟩
    exact (h.held_self (o := o)).mono (by omega)
  · refine ⟨old, ?_, hold⟩
    rw [h.seen]
    simpa [mark, Function.update_of_ne hxc] using hseen

theorem Marked.logged (hlog : Logged w) : Logged w₁ := by
  obtain ⟨hnodup, hmem⟩ := hlog
  have hseen : ∀ x, w₁.seen x ≠ none ↔ x = c ∨ w.seen x ≠ none := by
    intro x
    rw [h.seen]
    by_cases hxc : x = c <;> simp [mark, hxc]
  unfold Logged
  rw [h.written]
  by_cases hnew : w.seen c = none
  · have hc : c ∉ w.written := fun hc => (hmem c).mp hc hnew
    simp only [hnew, if_true]
    refine ⟨?_, ?_⟩
    · exact nodup_append.mpr ⟨hnodup, nodup_singleton c, by
        intro x hx y hy
        obtain rfl : y = c := by simpa using hy
        exact fun heq => hc (heq ▸ hx)⟩
    · intro x
      rw [hseen x, mem_append, hmem x, mem_singleton]
      exact or_comm
  · simp only [hnew, if_false, append_nil]
    refine ⟨hnodup, ?_⟩
    intro x
    rw [hseen x, hmem x]
    constructor
    · exact .inr
    · rintro (rfl | hx)
      · exact hnew
      · exact hx

end

theorem Explored.of_child (hc : c ∈ dag.children n) (hallowed : Allowed o (d + 1))
    (hheld : ¬ Held o w c (d + 1)) (hmark : Marked w c (d + 1) w₁)
    (hbelow : Explored o dag c (d + 1) w₁ w₂) (hcov : Covered o dag w₂ c (d + 1)) :
    Explored o dag n d w w₂ where
  held := fun x e hx => hbelow.held x e (hmark.held hheld hx)
  covered := by
    intro x e hx
    rcases hbelow.covered x e hx with hmarked | hxcov
    · rcases hmark.seen_eq hmarked with ⟨rfl, rfl⟩ | ⟨_, hold⟩
      · exact .inr hcov
      · exact .inl hold
    · exact .inr hxcov
  reached := by
    intro x e hx
    rcases hbelow.reached x e hx with hmarked | ⟨hxallowed, k, _, heq, hpath⟩
    · rcases hmark.seen_eq hmarked with ⟨rfl, rfl⟩ | ⟨_, hold⟩
      · exact .inr ⟨hallowed, 1, by omega, rfl, x, hc, rfl⟩
      · exact .inl hold
    · exact .inr ⟨hxallowed, k + 1, by omega, by omega, c, hc, hpath⟩
  logged := fun h => hbelow.logged (hmark.logged h)

/-- What a successful call below `c` has to achieve. -/
def Explores (o : Options) (dag : Dag Cid) (deeper : Cid → Nat → RefWriter Cid → Outcome Cid)
    (c : Cid) : Prop :=
  ∀ d w, (deeper c d w).err = none →
    Explored o dag c d w (deeper c d w).writer ∧ Covered o dag (deeper c d w).writer c d

theorem explored_writeLink (hunique : o.unique = true) (hl : l.cid ∈ dag.children n)
    (hdeeper : Explores o dag deeper l.cid) (herr : (writeLink o env deeper n d l w).err = none) :
    Explored o dag n d w (writeLink o env deeper n d l w).writer ∧
      (Allowed o (d + 1) →
        Held o (writeLink o env deeper n d l w).writer l.cid (d + 1)) := by
  rcases writeLink_ok hunique herr with ⟨hprune, hw⟩ | ⟨hallowed, hheld, w₁, hmark, hrest⟩
  · rw [hw]
    exact ⟨Explored.refl w, fun hallowed => hprune.resolve_left (not_not_intro hallowed)⟩
  by_cases hdown : Allowed o (d + 2)
  · rw [if_pos hdown] at hrest
    obtain ⟨hok, hw⟩ := hrest
    obtain ⟨hbelow, hcov⟩ := hdeeper (d + 1) w₁ hok
    rw [hw]
    exact ⟨Explored.of_child hl hallowed hheld hmark hbelow hcov,
      fun _ => hbelow.held _ _ hmark.held_self⟩
  · rw [if_neg hdown] at hrest
    rw [hrest]
    -- at the depth limit there is nothing to cover
    exact ⟨Explored.of_child hl hallowed hheld hmark (Explored.refl w₁)
      (fun h => absurd h hdown), fun _ => hmark.held_self⟩

theorem explored_writeLinks (hunique : o.unique = true) (ls : List (Link Cid))
    (hls : ∀ l ∈ ls, l.cid ∈ dag.children n ∧ Explores o dag deeper l.cid) (w : RefWriter Cid)
    (herr : (writeLinks o env deeper n d ls w).err = none) :
    Explored o dag n d w (writeLinks o env deeper n d ls w).writer ∧
      (Allowed o (d + 1) → ∀ l ∈ ls,
        Held o (writeLinks o env deeper n d ls w).writer l.cid (d + 1)) := by
  induction ls generalizing w with
  | nil => exact ⟨Explored.refl w, fun _ l hl => absurd hl not_mem_nil⟩
  | cons l rest ih =>
    obtain ⟨hfirst, hrest⟩ := Outcome.andThen_err_none.mp herr
    obtain ⟨hl, hdeeper⟩ := hls l mem_cons_self
    obtain ⟨hexp, hheld⟩ := explored_writeLink hunique hl hdeeper hfirst
    obtain ⟨hexps, hhelds⟩ :=
      ih (fun x hx => hls x (mem_cons_of_mem l hx)) _ hrest
    unfold writeLinks
    rw [Outcome.andThen_writer hfirst]
    refine ⟨hexp.trans hexps, ?_⟩
    intro hallowed x hx
    rcases mem_cons.mp hx with rfl | hx
    · exact hexps.held _ _ (hheld hallowed)
    · exact hhelds hallowed x hx

/-- **The recursion.**  A call that does not fail explores below its node and
leaves the children of the node covered. -/
theorem explores_writeRefsRecursive (hunique : o.unique = true) (fuel : Nat)
    (hfuel : dag.rank n ≤ fuel) : Explores o dag (writeRefsRecursive o dag env fuel) n := by
  induction fuel generalizing n with
  | zero =>
    intro d w _
    refine ⟨Explored.refl w, ?_⟩
    intro _ x hx
    -- a node of rank zero has no links
    obtain ⟨l, hl, rfl⟩ := mem_map.mp hx
    have hlt := dag.rank_lt n l hl
    omega
  | succ fuel ih =>
    intro d w herr
    have hls : ∀ l ∈ dag.links n, l.cid ∈ dag.children n ∧
        Explores o dag (writeRefsRecursive o dag env fuel) l.cid := by
      intro l hl
      have hlt := dag.rank_lt n l hl
      exact ⟨mem_map_of_mem hl, ih (by omega)⟩
    obtain ⟨hexp, hheld⟩ := explored_writeLinks hunique (dag.links n) hls w herr
    refine ⟨hexp, ?_⟩
    intro hallowed x hx
    obtain ⟨l, hl, rfl⟩ := mem_map.mp hx
    exact hheld hallowed l hl

/-! ## Sessions -/

/-- The memo of a session in which the walks of `roots` were not broken off. -/
structure Settled (o : Options) (dag : Dag Cid) (roots : List Cid) (w : RefWriter Cid) :
    Prop where
  logged : Logged w
  covered : ∀ c e, w.seen c = some e → Covered o dag w c e
  reached : ∀ c e, w.seen c = some e →
    0 < e ∧ Allowed o e ∧ ∃ r ∈ roots, Path dag.children e r c
  roots : ∀ r ∈ roots, Covered o dag w r 0

omit [DecidableEq Cid] in
theorem settled_new : Settled o dag [] (RefWriter.new : RefWriter Cid) where
  logged := by simp [Logged, RefWriter.new, RefWriter.written]
  covered := fun c e h => by simp [RefWriter.new] at h
  reached := fun c e h => by simp [RefWriter.new] at h
  roots := fun r hr => absurd hr not_mem_nil

variable {roots : List Cid}

omit [DecidableEq Cid] in
theorem Settled.congr (h : Settled o dag roots w) (hseen : w₁.seen = w.seen)
    (hedges : w₁.edges = w.edges) : Settled o dag roots w₁ := by
  have hheld : ∀ c e, Held o w c e → Held o w₁ c e := by
    intro c e hc
    unfold Held at *
    rwa [hseen]
  refine ⟨?_, ?_, ?_, ?_⟩
  · unfold Logged written
    rw [hseen, hedges]
    exact h.logged
  · intro c e hc
    rw [hseen] at hc
    exact (h.covered c e hc).mono hheld
  · intro c e hc
    rw [hseen] at hc
    exact h.reached c e hc
  · intro r hr
    exact (h.roots r hr).mono hheld

theorem Settled.writeRefs (hunique : o.unique = true) (h : Settled o dag roots w)
    (herr : (writeRefs o dag env c w).err = none) :
    Settled o dag (roots ++ [c]) (writeRefs o dag env c w).writer := by
  obtain ⟨hget, hrec⟩ := Outcome.andThen_err_none.mp herr
  have hstart : Settled o dag roots (get env c { w with calls := 0 }).writer := h.congr rfl rfl
  obtain ⟨hexp, hcov⟩ :=
    explores_writeRefsRecursive hunique (dag.rank c) (Nat.le_refl _) 0 _ hrec
  unfold Refs.writeRefs
  rw [Outcome.andThen_writer hget]
  refine ⟨hexp.logged hstart.logged, ?_, ?_, ?_⟩
  · intro x e hx
    rcases hexp.covered x e hx with hold | hxcov
    · exact (hstart.covered x e hold).mono hexp.held
    · exact hxcov
  · intro x e hx
    rcases hexp.reached x e hx with hold | ⟨hallowed, k, hk, heq, hpath⟩
    · obtain ⟨hpos, hallowed, r, hr, hpath⟩ := hstart.reached x e hold
      exact ⟨hpos, hallowed, r, mem_append_left _ hr, hpath⟩
    · obtain rfl : e = k := by omega
      exact ⟨hk, hallowed, c, by simp, hpath⟩
  · intro r hr
    rcases mem_append.mp hr with hr | hr
    · exact (hstart.roots r hr).mono hexp.held
    · obtain rfl : r = c := by simpa using hr
      exact hcov

omit [DecidableEq Cid] in
/-- **Completeness of a settled memo**, by induction on the path: the memo
answers for the first CID on it at a depth that leaves room for the rest. -/
theorem held_of_path (hcovered : ∀ c e, w.seen c = some e → Covered o dag w c e) {k : Nat}
    (hc : Covered o dag w c d) (hpath : Path dag.children (k + 1) c x)
    (hallowed : Allowed o (d + (k + 1))) : Held o w x (d + (k + 1)) := by
  induction k generalizing c d with
  | zero =>
    obtain ⟨m, hm, rfl⟩ := hpath
    exact hc hallowed m hm
  | succ k ih =>
    obtain ⟨m, hm, hrest⟩ := hpath
    obtain ⟨e, hseen, hle⟩ := hc (hallowed.mono (by omega)) m hm
    have hbelow : Allowed o (e + (k + 1)) := by
      unfold Allowed at *
      omega
    obtain ⟨old, hx, hold⟩ := ih (hcovered m e hseen) hrest hbelow
    exact ⟨old, hx, by omega⟩

omit [DecidableEq Cid] in
theorem Settled.mem_written (h : Settled o dag roots w) (c : Cid) :
    c ∈ w.written ↔
      ∃ r ∈ roots, ∃ k, 1 ≤ k ∧ Allowed o k ∧ Path dag.children k r c := by
  rw [h.logged.2 c]
  constructor
  · intro hc
    obtain ⟨e, he⟩ := ne_none_iff_exists'.mp hc
    obtain ⟨hpos, hallowed, r, hr, hpath⟩ := h.reached c e he
    exact ⟨r, hr, e, hpos, hallowed, hpath⟩
  · rintro ⟨r, hr, k, hk, hallowed, hpath⟩
    obtain ⟨k, rfl⟩ := Nat.exists_eq_add_of_le' hk
    have hheld := held_of_path h.covered (h.roots r hr) hpath (by rwa [Nat.zero_add])
    exact hheld.ne_none

theorem settled_writeAll (hunique : o.unique = true) (qs : List (Request Cid))
    (havail : ∀ q ∈ qs, q.env.Available) (w : RefWriter Cid) (h : Settled o dag roots w) :
    (∀ p ∈ (writeAll o dag qs w).1, p.2 = none) ∧
      Settled o dag (roots ++ qs.map Request.root) (writeAll o dag qs w).2 := by
  induction qs generalizing roots w with
  | nil => exact ⟨fun p hp => absurd hp not_mem_nil, by simpa [writeAll] using h⟩
  | cons q rest ih =>
    have hq := havail q mem_cons_self
    have herr : (writeRefs o dag q.env q.root w).err = none :=
      writeRefs_err_none (hq.1 0 q.root) hq.allReadable
    obtain ⟨herrs, hsettled⟩ :=
      ih (fun x hx => havail x (mem_cons_of_mem q hx)) _ (h.writeRefs hunique herr)
    refine ⟨?_, by simpa [writeAll] using hsettled⟩
    exact forall_mem_cons.mpr ⟨herr, herrs⟩

/-- **`refs --unique` is exact.**  If everything can be retrieved, no call
fails, the CIDs written are those at the end of a path of a listed length from
some root, each is written once, and the counts add up to the lines. -/
theorem writeAll_unique_exact (o : Options) (hunique : o.unique = true) (dag : Dag Cid)
    (enc : Cid → String) (qs : List (Request Cid)) (havail : ∀ q ∈ qs, q.env.Available) :
    (∀ p ∈ (writeAll o dag qs RefWriter.new).1, p.2 = none) ∧
      (∀ c, c ∈ (writeAll o dag qs RefWriter.new).2.written ↔
        ∃ q ∈ qs, ∃ k, 1 ≤ k ∧ Allowed o k ∧ Path dag.children k q.root c) ∧
      (writeAll o dag qs RefWriter.new).2.written.Nodup ∧
      ((writeAll o dag qs RefWriter.new).1.map Prod.fst).sum =
        ((writeAll o dag qs RefWriter.new).2.lines o enc).length := by
  obtain ⟨herrs, hsettled⟩ := settled_writeAll hunique qs havail new settled_new
  refine ⟨herrs, ?_, hsettled.logged.1, ?_⟩
  · intro c
    rw [hsettled.mem_written c]
    simp
  · have hcounts : Counts ((writeAll o dag qs new).1.map Prod.fst).sum
        new (writeAll o dag qs new).2 := counts_writeAll qs _
    simpa [Counts, new, lines] using hcounts.symm

/-- Two roots, `0` and `5`, over a diamond: `0` links to `1` and `2`, these to
`3`, and `3` to `4`; `5` links to `3`. -/
def diamond : Dag Nat where
  links := fun c =>
    match c with
    | 0 => [⟨"left", 1⟩, ⟨"right", 2⟩]
    | 1 => [⟨"top", 3⟩]
    | 2 => [⟨"top", 3⟩]
    | 3 => [⟨"leaf", 4⟩]
    | 5 => [⟨"top", 3⟩]
    | _ => []
  rank := fun c =>
    match c with
    | 0 => 3
    | 1 => 2
    | 2 => 2
    | 3 => 1
    | 5 => 2
    | _ => 0
  rank_lt := by
    intro c l hl
    split at hl <;> simp at hl
    · rcases hl with rfl | rfl <;> decide
    all_goals subst hl; decide

def reliable : Env Nat where
  get := fun _ _ => true
  emit := fun _ => true

/-- At depth 2, node `4` is too deep below `0` and listed below `5` only. -/
theorem writeAll_unique_exact_diamond :
    (writeAll ⟨true, 2, "<dst>"⟩ diamond [⟨0, reliable⟩, ⟨5, reliable⟩]
        RefWriter.new).2.written = [1, 3, 2, 4] ∧
      (4 ∈ (writeAll ⟨true, 2, "<dst>"⟩ diamond [⟨0, reliable⟩, ⟨5, reliable⟩]
          RefWriter.new).2.written ↔
        ∃ q ∈ [⟨0, reliable⟩, (⟨5, reliable⟩ : Request Nat)], ∃ k, 1 ≤ k ∧
          Allowed ⟨true, 2, "<dst>"⟩ k ∧ Path diamond.children k q.root 4) := by
  refine ⟨by decide, (writeAll_unique_exact ⟨true, 2, "<dst>"⟩ rfl diamond toString
    [⟨0, reliable⟩, ⟨5, reliable⟩] ?_).2.1 4⟩
  intro q hq
  simp only [mem_cons, not_mem_nil, or_false] at hq
  rcases hq with rfl | rfl <;> exact ⟨fun _ _ => rfl, fun _ => rfl⟩

/-! ## Failed roots

A mark is set before the node is retrieved and before its subtree is walked, so
a walk that is broken off leaves marks that nothing stands behind. -/

/-- An outside in which node `3` cannot be retrieved. -/
def withoutTop : Env Nat where
  get := fun _ c => decide (c ≠ 3)
  emit := fun _ => true

/-- **A failed root hides references.**  The walk of `0` fails at `3`, which is
marked by then.  The walk of `5` takes the mark for an answer and returns
without an error, although `3` and `4`, to which it leads, were never written. -/
theorem failed_root_hides_refs :
    (refsRun ⟨true, -1, "<dst>"⟩ diamond [⟨0, withoutTop⟩] RefWriter.new).1 = none ∧
      (writeRefs ⟨true, -1, "<dst>"⟩ diamond reliable 5
        (refsRun ⟨true, -1, "<dst>"⟩ diamond [⟨0, withoutTop⟩] RefWriter.new).2).err = none ∧
      Path diamond.children 1 5 3 ∧
      3 ∉ (writeRefs ⟨true, -1, "<dst>"⟩ diamond reliable 5
        (refsRun ⟨true, -1, "<dst>"⟩ diamond [⟨0, withoutTop⟩]
          RefWriter.new).2).writer.written := by
  refine ⟨by decide, by decide, ⟨3, by decide, rfl⟩, by decide⟩

/-- The root itself cannot be retrieved, so that nothing is visited, or its walk
meets only CIDs that can be retrieved and lines that can be sent. -/
def NotBrokenOff (o : Options) (dag : Dag Cid) (q : Request Cid) : Prop :=
  q.env.get 0 q.root = false ∨ AllReadable o dag q.env q.root 0

theorem settled_refsRun (hunique : o.unique = true) (qs : List (Request Cid))
    (hqs : ∀ q ∈ qs, NotBrokenOff o dag q) (w : RefWriter Cid) (h : Settled o dag roots w) :
    ∃ roots', Settled o dag roots' (refsRun o dag qs w).2 := by
  induction qs generalizing roots w with
  | nil => exact ⟨roots, h⟩
  | cons q rest ih =>
    have hrest := fun x hx => hqs x (mem_cons_of_mem q hx)
    unfold refsRun
    dsimp only
    cases hroot : q.env.get 0 q.root with
    | true =>
      have hread : AllReadable o dag q.env q.root 0 :=
        (hqs q mem_cons_self).resolve_left (by simp [hroot])
      have herr : (writeRefs o dag q.env q.root w).err = none :=
        writeRefs_err_none hroot hread
      rw [herr]
      exact ih hrest _ (h.writeRefs hunique herr)
    | false =>
      -- only the call counter has changed
      have heq : writeRefs o dag q.env q.root w =
          ⟨0, some (.get q.root), { w with calls := 1 }⟩ := by
        simp [writeRefs, Outcome.andThen, get, hroot]
      rw [heq]
      dsimp only
      split
      · exact ih hrest _ (h.congr rfl rfl)
      · exact ⟨roots, h.congr rfl rfl⟩

/-- **Completeness after failed roots.**  If no walk of the session so far was
broken off below its root, a root whose walk succeeds has everything listed
below it written. -/
theorem writeRefs_complete_of_notBrokenOff (o : Options) (hunique : o.unique = true)
    (dag : Dag Cid) (earlier : List (Request Cid))
    (hearlier : ∀ q ∈ earlier, NotBrokenOff o dag q) (q : Request Cid)
    (hok : (writeRefs o dag q.env q.root (refsRun o dag earlier RefWriter.new).2).err = none)
    (k : Nat) (hk : 1 ≤ k) (hallowed : Allowed o k) (c : Cid)
    (hpath : Path dag.children k q.root c) :
    c ∈ (writeRefs o dag q.env q.root
      (refsRun o dag earlier RefWriter.new).2).writer.written := by
  obtain ⟨roots, hsettled⟩ := settled_refsRun hunique earlier hearlier new settled_new
  rw [(hsettled.writeRefs hunique hok).mem_written c]
  exact ⟨q.root, by simp, k, hk, hallowed, hpath⟩

/-- An outside in which node `0` cannot be retrieved. -/
def withoutFirst : Env Nat where
  get := fun _ c => decide (c ≠ 0)
  emit := fun _ => true

/-- After a root that cannot be retrieved, the next one is complete. -/
theorem writeRefs_complete_after_missing_root :
    3 ∈ (writeRefs ⟨true, -1, "<dst>"⟩ diamond reliable 5
      (refsRun ⟨true, -1, "<dst>"⟩ diamond [⟨0, withoutFirst⟩] RefWriter.new).2).writer.written :=
  writeRefs_complete_of_notBrokenOff ⟨true, -1, "<dst>"⟩ rfl diamond [⟨0, withoutFirst⟩]
    (fun q hq => by
      obtain rfl : q = ⟨0, withoutFirst⟩ := by simpa using hq
      exact .inl rfl)
    ⟨5, reliable⟩ (by decide) 1 (by decide) (by decide) 3 ⟨3, by decide, rfl⟩

end Refs
