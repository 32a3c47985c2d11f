import GoIpfs.OnlyOne

/-!
# The calls that `OnlyOne` makes

Here the world is the list of the calls to the `open` functions of the holders and
to the `Close` of the repos.  `open` is called when nobody holds the key, and the
repo is closed by its last holder, once.
-/

namespace SharedRepo

open StepRun Effects List Option

variable {Key : Type} [DecidableEq Key]

/-- A call to the `open` of a holder, or to the `Close` of a repo. -/
inductive Call (Key : Type) where
  | opened (key : Key)
  | closed (repo : Nat)
deriving DecidableEq

/-- What has been called.  Repos are numbered in the order in which they were
opened. -/
structure Log (Key : Type) where
  calls : List (Call Key)
  repos : Nat

def openFn (key : Key) (ok : Bool) : Prog Unit (Log Key) Nat := do
  modify fun w => { w with calls := w.calls ++ [.opened key] }
  if ok then
    let w ← get
    modify fun w => { w with repos := w.repos + 1 }
    return w.repos
  else
    throw ()

def closeFn (ok : Bool) (repo : Nat) : Prog Unit (Log Key) Unit := do
  modify fun w => { w with calls := w.calls ++ [.closed repo] }
  if ok then return () else throw ()

inductive Action (Key : Type) where
  /-- `Open(key, open)`; `ok` says whether `open` will succeed if it is called. -/
  | opens (key : Key) (ok : Bool)
  /-- `Close` on an outstanding handle; `ok` is the same for `Repo.Close`. -/
  | closes (h : Nat) (ok : Bool)

def step (s : System Key Nat (Log Key)) : Action Key → Option (System Key Nat (Log Key))
  | .opens key ok => some (s.openKey key (openFn key ok)).2
  | .closes h ok =>
    if h ∈ s.handles then some (s.closeHandle h (closeFn ok)).2 else none

def fresh : System Key Nat (Log Key) := ⟨⟨[], []⟩, ⟨[], 0⟩, []⟩

/-- The condition on a step: an `Open` leaves fewer than `2 ^ 32` handles of its
key. -/
def FewHolders (s : System Key Nat (Log Key)) : Action Key → Prop
  | .opens key _ => s.outstanding key + 1 < 2 ^ 32
  | .closes _ _ => True

instance (s : System Key Nat (Log Key)) : (a : Action Key) → Decidable (FewHolders s a)
  | .opens key _ => inferInstanceAs (Decidable (s.outstanding key + 1 < 2 ^ 32))
  | .closes _ _ => inferInstanceAs (Decidable True)

/-- The repos are numbered by their refs, and a repo has been closed once if nobody
holds it and not at all otherwise. -/
structure ClosedOnce (s : System Key Nat (Log Key)) : Prop extends Tracked s where
  repos : s.world.repos = s.one.items.length
  numbered : ∀ (i : Nat) (r : Ref Key Nat), s.one.items[i]? = some r → r.repo = i
  closes : ∀ i < s.one.items.length,
    s.world.calls.count (.closed i) = if i ∈ s.handles then 0 else 1
  unopened : ∀ i, s.one.items.length ≤ i → s.world.calls.count (.closed i) = 0

section Logging

variable {s t : System Key Nat (Log Key)} {key : Key} {h : Nat}

theorem closedOnce_fresh : ClosedOnce (fresh : System Key Nat (Log Key)) := by
  refine ⟨tracked_new _, rfl, ?_, ?_, ?_⟩
  · intro i r hr
    simp [fresh] at hr
  · intro i hi
    simp [fresh] at hi
  · intro i _
    rfl

omit [DecidableEq Key] in
theorem exec_openFn_ok {ok : Bool} {w w' : Log Key} {repo : Nat}
    (hcall : exec (openFn key ok) w = (.ok repo, w')) :
    repo = w.repos ∧ w' = ⟨w.calls ++ [.opened key], w.repos + 1⟩ := by
  cases ok <;> cases hcall
  exact ⟨rfl, rfl⟩

omit [DecidableEq Key] in
theorem exec_openFn_error {ok : Bool} {w w' : Log Key} {e : Unit}
    (hcall : exec (openFn key ok) w = (.error e, w')) :
    w' = ⟨w.calls ++ [.opened key], w.repos⟩ := by
  cases ok <;> cases hcall
  rfl

omit [DecidableEq Key] in
theorem exec_closeFn (ok : Bool) (repo : Nat) (w : Log Key) :
    (exec (closeFn ok repo) w).2 = ⟨w.calls ++ [.closed repo], w.repos⟩ := by
  cases ok <;> rfl

theorem calls_openKey (s : System Key Nat (Log Key)) (key : Key) (ok : Bool) :
    (s.openKey key (openFn key ok)).2.world.calls =
      s.world.calls ++ if s.one.active.lookup key = none then [.opened key] else [] := by
  rcases openKey_cases s key (openFn key ok) with
    ⟨item, hitem, heq⟩ | ⟨hnew, e, w, hcall, heq⟩ | ⟨hnew, repo, w, hcall, heq⟩
  · rw [heq, hitem]
    simp
  · rw [heq, hnew, if_pos rfl, exec_openFn_error hcall]
  · rw [heq, hnew, if_pos rfl, (exec_openFn_ok hcall).2]

theorem calls_closeHandle {r : Ref Key Nat} (hr : s.one.items[h]? = some r) (ok : Bool) :
    (s.closeHandle h (closeFn ok)).2.world.calls =
      s.world.calls ++ if r.refs - 1 = 0 then [.closed r.repo] else [] := by
  rcases closeHandle_cases hr (closeFn ok) with ⟨hpos, heq⟩ | ⟨hzero, heq⟩
  · rw [heq, if_neg hpos]
    simp
  · rw [heq, if_pos hzero, exec_closeFn]

theorem closedOnce_openKey (hs : ClosedOnce s) (ok : Bool) (hfew : s.outstanding key + 1 < 2 ^ 32) :
    ClosedOnce (s.openKey key (openFn key ok)).2 := by
  have hcount : ∀ i, (s.openKey key (openFn key ok)).2.world.calls.count (.closed i) =
      s.world.calls.count (.closed i) := by
    intro i
    rw [calls_openKey, count_append]
    split <;> simp
  have htracked := tracked_openKey hs.toTracked key (openFn key ok) hfew
  rcases openKey_cases s key (openFn key ok) with
    ⟨item, hitem, heq⟩ | ⟨_, e, w, hcall, heq⟩ | ⟨_, repo, w, hcall, heq⟩
  · have hlen : (s.openKey key (openFn key ok)).2.one.items.length = s.one.items.length := by
      rw [heq]
      simp [OnlyOne.incr]
    have hmem := (hs.held key item hitem).1
    refine ⟨htracked, ?_, ?_, ?_, ?_⟩
    · rw [hlen, heq]
      exact hs.repos
    · rw [heq]
      exact Numbered.modify hs.numbered (fun _ => by rfl) item
    · intro i hi
      rw [hlen] at hi
      rw [hcount, hs.closes i hi, heq]
      have hiff : i ∈ item :: s.handles ↔ i ∈ s.handles :=
        mem_cons.trans (or_iff_right_of_imp fun heq => heq ▸ hmem)
      simp only [hiff]
    · intro i hi
      rw [hlen] at hi
      rw [hcount]
      exact hs.unopened i hi
  · refine ⟨htracked, ?_, ?_, ?_, ?_⟩
    · rw [heq, exec_openFn_error hcall]
      exact hs.repos
    · rw [heq]
      exact hs.numbered
    · intro i hi
      rw [hcount]
      rw [heq] at hi ⊢
      exact hs.closes i hi
    · intro i hi
      rw [hcount]
      rw [heq] at hi
      exact hs.unopened i hi
  · have hlen : (s.openKey key (openFn key ok)).2.one.items.length =
        s.one.items.length + 1 := by
      rw [heq]
      simp [OnlyOne.incr, OnlyOne.insert]
    obtain ⟨hrepo, rfl⟩ := exec_openFn_ok hcall
    cases hrepo.trans hs.repos
    refine ⟨htracked, ?_, ?_, ?_, ?_⟩
    · rw [hlen, heq]
      exact congrArg (· + 1) hs.repos
    · rw [heq]
      exact Numbered.insert hs.numbered key
    · intro i hi
      rw [hcount]
      rw [hlen] at hi
      rw [heq]
      by_cases hnew : i = s.one.items.length
      · rw [hs.unopened i (by omega), if_pos (hnew ▸ mem_cons_self)]
      · rw [hs.closes i (by omega)]
        simp only [mem_cons, hnew, false_or]
    · intro i hi
      rw [hlen] at hi
      rw [hcount]
      exact hs.unopened i (by omega)

theorem closedOnce_closeHandle (hs : ClosedOnce s) (hh : h ∈ s.handles) (ok : Bool) :
    ClosedOnce (s.closeHandle h (closeFn ok)).2 := by
  obtain ⟨r, hr⟩ := hs.made h hh
  have hcalls := calls_closeHandle hr ok
  have hrepo := hs.numbered h r hr
  have hlast := hs.last_iff hr hh
  have hh' : h < s.one.items.length := (List.getElem?_eq_some_iff.mp hr).1
  have hitems : (s.closeHandle h (closeFn ok)).2.one.items = (s.one.decr h).items ∧
      (s.closeHandle h (closeFn ok)).2.world.repos = s.world.repos := by
    rcases closeHandle_cases hr (closeFn ok) with ⟨_, heq⟩ | ⟨_, heq⟩
    · rw [heq]
      exact ⟨rfl, rfl⟩
    · rw [heq, exec_closeFn]
      exact ⟨rfl, rfl⟩
  have hlen : (s.closeHandle h (closeFn ok)).2.one.items.length = s.one.items.length := by
    rw [hitems.1]
    simp [OnlyOne.decr]
  refine ⟨tracked_closeHandle hs.toTracked hh _, ?_, ?_, ?_, ?_⟩
  · rw [hlen, hitems.2]
    exact hs.repos
  · rw [hitems.1]
    exact Numbered.modify hs.numbered (fun _ => by rfl) h
  · intro i hi
    rw [hlen] at hi
    rw [hcalls, hrepo, count_append, hs.closes i hi, handles_closeHandle]
    by_cases hih : i = h
    · subst hih
      by_cases hcount : s.handles.count i = 1
      · -- the last holder: the repo is closed now
        have hgone : i ∉ s.handles.erase i := by
          apply count_eq_zero.mp
          rw [count_erase_self, hcount]
        rw [if_pos hh, if_pos (hlast.mpr hcount), if_neg hgone]
        simp
      · have hstays : i ∈ s.handles.erase i := by
          apply count_pos_iff.mp
          have hpos := count_pos_iff.mpr hh
          rw [count_erase_self]
          omega
        rw [if_pos hh, if_neg (fun hz => hcount (hlast.mp hz)), if_pos hstays]
        simp
    · have hother : ((if r.refs - 1 = 0 then [Call.closed h] else []) : List (Call Key)).count
          (.closed i) = 0 := by
        split
        · simp [Ne.symm hih]
        · rfl
      have hmem : i ∈ s.handles.erase h ↔ i ∈ s.handles := mem_erase_of_ne hih
      simp only [hother, hmem]
      omega
  · intro i hi
    rw [hlen] at hi
    have hih : h ≠ i := by omega
    rw [hcalls, hrepo, count_append, hs.unopened i hi]
    split
    · simp [hih]
    · rfl

theorem closedOnce_step {a : Action Key} (hs : ClosedOnce s) (hfew : FewHolders s a)
    (hstep : step s a = some t) : ClosedOnce t := by
  cases a with
  | opens key ok =>
    obtain rfl := some.inj hstep
    exact closedOnce_openKey hs ok hfew
  | closes h ok =>
    obtain ⟨hh, rfl⟩ := guard_passed hstep
    exact closedOnce_closeHandle hs hh ok

end Logging

/-- **Reference counting.**  After every sequence of calls that leaves fewer than
`2 ^ 32` handles per key outstanding: a key has an entry exactly if one of its
handles is outstanding; the entry counts the outstanding handles of the key, which
share one repo; a repo that was opened has been closed once, unless it is still
held; and the next call to `Open` calls `open` exactly if no handle of the key is
outstanding, the next call to `Close` closes the repo exactly if it closes the last
handle. -/
theorem onlyOne_counts {actions : List (Action Key)} {s : System Key Nat (Log Key)}
    (hrun : run step fresh actions = some s) (hfew : Along step FewHolders fresh actions) :
    (∀ key, (s.one.active.lookup key).isSome ↔ ∃ h ∈ s.handles, s.keyOf h = some key) ∧
    (∀ key item, s.one.active.lookup key = some item →
      ∃ r, s.one.items[item]? = some r ∧ r.refs.toNat = s.outstanding key) ∧
    (∀ h ∈ s.handles, ∀ k ∈ s.handles, s.keyOf h = s.keyOf k → s.repoOf h = s.repoOf k) ∧
    (∀ repo < s.world.repos, s.world.calls.count (.closed repo) =
      if ∃ h ∈ s.handles, s.repoOf h = some repo then 0 else 1) ∧
    (∀ key ok t, step s (.opens key ok) = some t → t.world.calls =
      s.world.calls ++ if s.outstanding key = 0 then [.opened key] else []) ∧
    (∀ h ok t, step s (.closes h ok) = some t → ∃ r, s.one.items[h]? = some r ∧
      t.world.calls =
        s.world.calls ++ if s.outstanding r.key = 1 then [.closed r.repo] else []) := by
  have hs : ClosedOnce s :=
    run_invariant_along ClosedOnce FewHolders (fun _ _ _ => closedOnce_step)
      closedOnce_fresh hfew hrun
  refine ⟨?_, ?_, ?_, ?_, ?_, ?_⟩
  · intro key
    constructor
    · intro hsome
      obtain ⟨item, hitem⟩ := isSome_iff_exists.mp hsome
      exact ⟨item, hs.held key item hitem⟩
    · rintro ⟨h, hh, hkey⟩
      rw [hs.active h hh key hkey]
      rfl
  · intro key item hitem
    obtain ⟨hmem, hkey⟩ := hs.held key item hitem
    obtain ⟨r, hr⟩ := hs.made item hmem
    refine ⟨r, hr, ?_⟩
    rw [hs.toNat_refs hr hmem, hs.outstanding_eq hmem hkey]
  · intro h hh k hk heq
    obtain ⟨r, hr⟩ := hs.made h hh
    have hkey : s.keyOf h = some r.key := by simp [System.keyOf, hr]
    have hlh := hs.active h hh r.key hkey
    have hlk := hs.active k hk r.key (heq ▸ hkey)
    have hhk : h = k := some.inj (hlh.symm.trans hlk)
    rw [hhk]
  · intro repo hrepo
    have hlt : repo < s.one.items.length := hs.repos ▸ hrepo
    have hiff : (∃ h ∈ s.handles, s.repoOf h = some repo) ↔ repo ∈ s.handles := by
      constructor
      · rintro ⟨h, hh, hrepo⟩
        obtain ⟨r, hr⟩ := hs.made h hh
        have hnum := hs.numbered h r hr
        simp only [System.repoOf, hr, map_some, some.injEq] at hrepo
        rw [← hrepo, hnum]
        exact hh
      · intro hmem
        obtain ⟨r, hr⟩ := hs.made repo hmem
        refine ⟨repo, hmem, ?_⟩
        simp [System.repoOf, hr, hs.numbered repo r hr]
    rw [hs.closes repo hlt]
    simp only [hiff]
  · intro key ok t ht
    obtain rfl := some.inj ht
    rw [calls_openKey]
    cases hactive : s.one.active.lookup key with
    | none => rw [if_pos rfl, if_pos (hs.outstanding_eq_zero hactive)]
    | some item =>
      obtain ⟨hmem, hkey⟩ := hs.held key item hactive
      have hpos : s.outstanding key ≠ 0 := by
        rw [hs.outstanding_eq hmem hkey]
        exact Nat.ne_of_gt (count_pos_iff.mpr hmem)
      rw [if_neg (by simp), if_neg hpos]
  · intro h ok t ht
    obtain ⟨hh, rfl⟩ := guard_passed ht
    obtain ⟨r, hr⟩ := hs.made h hh
    have hkey : s.keyOf h = some r.key := by simp [System.keyOf, hr]
    refine ⟨r, hr, ?_⟩
    rw [calls_closeHandle hr]
    simp only [hs.last_iff hr hh, hs.outstanding_eq hh hkey]

/-- Two holders of key 0, a failed `open` of key 1, and key 0 opened again after both
holders have closed it. -/
def reopened : List (Action Nat) :=
  [.opens 0 true, .opens 1 false, .opens 0 true, .closes 0 true, .closes 0 false,
    .opens 0 true]

theorem onlyOne_counts_reopened :
    ∃ s, run step fresh reopened = some s ∧ Along step FewHolders fresh reopened ∧
      s.world.calls = [.opened 0, .opened 1, .closed 0, .opened 0] ∧
      s.world.calls.count (.closed 0) =
        if ∃ h ∈ s.handles, s.repoOf h = some 0 then 0 else 1 := by
  obtain ⟨s, hrun, hs⟩ : ∃ s, run step fresh reopened = some s ∧
      decide (s.world.calls = [.opened 0, .opened 1, .closed 0, .opened 0] ∧
        0 < s.world.repos) = true :=
    exists_run_of_any (by decide)
  have hfew : Along step FewHolders fresh reopened := by decide
  obtain ⟨hcalls, hrepos⟩ := of_decide_eq_true hs
  exact ⟨s, hrun, hfew, hcalls, (onlyOne_counts hrun hfew).2.2.2.1 0 hrepos⟩

end SharedRepo
