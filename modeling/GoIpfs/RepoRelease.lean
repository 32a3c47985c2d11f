import GoIpfs.RepoLifecycle

/-!
# What a repo takes, it gives back

A repo that is open accounts for the lockfile and for every datastore that is open,
and somebody holds it (`Accounted`).  `create` leaves nothing behind when it fails
at its first datastore, `open` leaves nothing behind when no later step fails, and
closing a repo releases all of it when no datastore reports an error.

Nothing here bounds the number of handles: when a counter wraps around, the repo is
closed while it is still held, and its last `Close` finds it closed.
-/

namespace RepoLifecycle

open Effects StepRun SharedRepo List World

variable {Spec : Type}

/-! ### Datastores are created and closed as a whole -/

mutual

def Datastore.leaves : Datastore → List Nat
  | .mem n => [n]
  | .plugin n => [n]
  | .log child _ => child.leaves
  | .measure child _ => child.leaves
  | .mount mounts => leavesEach mounts

def leavesEach : List (Datastore × String) → List Nat
  | [] => []
  | (ds, _) :: rest => ds.leaves ++ leavesEach rest

end

/-- The world after the leaves `opened` have been created. -/
def World.plus (w : World) (opened : List Nat) : World :=
  { w with stores := w.stores ++ opened, asked := w.asked + opened.length }

theorem World.plus_nil (w : World) : w.plus [] = w := by
  simp [plus]

theorem World.plus_plus (w : World) (a b : List Nat) : (w.plus a).plus b = w.plus (a ++ b) := by
  simp [plus, Nat.add_assoc]

variable {E : World → Prop} {Q : Unit → World → Prop} {w : World}

@[simp] theorem wp_failing {e : Option String} :
    Wp E (failing e) Q w ↔ (e = none → Q () w) ∧ (e ≠ none → E w) := by
  cases e <;> simp [failing]

/-- Only the first leaf that is asked for can be missing, so a failure leaves no
leaf behind. -/
def FirstFails (fault : Nat → Option String) (w t : World) : Prop :=
  fault w.asked ≠ none ∧ t = { w with asked := w.asked + 1 }

theorem createLeaf_wp (fault : Nat → Option String) (w : World) :
    Wp (FirstFails fault w) (createLeaf fault)
      (fun n t => t = w.plus [n]) w := by
  simp only [createLeaf, wp_bind, wp_get, wp_modify, wp_failing, wp_pure]
  exact ⟨fun _ => rfl, fun hfault => ⟨hfault, rfl⟩⟩

variable {fault : Nat → Option String}

theorem createLeaf_mem_wp (w : World) :
    Wp (FirstFails fault w) (createLeaf fun _ => none) (fun n t => t = w.plus [n]) w := by
  simp only [createLeaf, wp_bind, wp_get, wp_modify, wp_failing, wp_pure]
  exact ⟨fun _ => rfl, absurd rfl⟩

mutual

/-- **A datastore is created with all its leaves, or leaves nothing behind**, if
only the first leaf can fail. -/
theorem create_wp :
    ∀ (c : DatastoreConfig) (w : World), (∀ n, w.asked < n → fault n = none) →
      Wp (FirstFails fault w) (create fault c) (fun ds t => t = w.plus ds.leaves) w
  | .mem, w, _ => by
      simp only [create, wp_bind, wp_pure]
      exact (createLeaf_mem_wp w).mono fun n t ht => ht
  | .plugin _, w, _ => by
      simp only [create, wp_bind, wp_pure]
      exact (createLeaf_wp fault w).mono fun n t ht => ht
  | .log child _, w, hfault | .measure child _, w, hfault => by
      simp only [create, wp_bind, wp_pure]
      exact (create_wp child w hfault).mono fun ds t ht => ht
  | .mount mounts, w, hfault => by
      simp only [create, wp_bind, wp_pure]
      exact (createEach_wp mounts w hfault).mono fun created t ht => ht

theorem createEach_wp :
    ∀ (mounts : List (DatastoreConfig × String)) (w : World),
      (∀ n, w.asked < n → fault n = none) →
      Wp (FirstFails fault w) (createEach fault mounts)
        (fun created t => t = w.plus (leavesEach created)) w
  | [], w, _ => by
      simp only [createEach, wp_pure]
      exact (World.plus_nil w).symm
  | (c, pre) :: rest, w, hfault => by
      simp only [createEach, wp_bind, wp_pure]
      apply (create_wp c w hfault).mono
      rintro ds _ rfl
      have hlater : ∀ n, (w.plus ds.leaves).asked < n → fault n = none := by
        intro n hn
        apply hfault
        simp only [plus] at hn
        omega
      have hrest := createEach_wp rest (w.plus ds.leaves) hlater
      apply Wp.imp (hrest.mono fun created t ht => ht.trans (plus_plus w _ _))
      rintro t ⟨hfails, rfl⟩
      -- a later failure means that nothing has been created so far
      have hnone : ds.leaves = [] := by
        apply length_eq_zero_iff.mp
        by_contra hne
        exact hfails (hfault _ (by simp only [plus]; omega))
      rw [hnone, plus_nil] at hfails ⊢
      exact ⟨hfails, rfl⟩

end

/-- The world after leaves have been closed. -/
def World.minus (w : World) (closed : List Nat) : World :=
  { w with stores := w.stores.filter fun n => n ∉ closed }

theorem World.minus_minus (w : World) (a b : List Nat) :
    (w.minus a).minus b = w.minus (a ++ b) := by
  simp only [minus, filter_filter]
  congr 2
  simp [Bool.and_comm]

theorem World.release_eq (w : World) (n : Nat) : w.release n = w.minus [n] := by
  simp [release, minus]

mutual

theorem close_eq {result : Nat → CloseResult} (hresult : ∀ n, result n = .closed) :
    ∀ (ds : Datastore) (w : World), ds.close result w = (none, w.minus ds.leaves)
  | .mem n, w => by
      simp only [Datastore.close, Datastore.leaves, World.release_eq]
  | .plugin n, w => by
      simp only [Datastore.close, Datastore.leaves, hresult, World.release_eq]
  | .log child _, w | .measure child _, w => by
      simp only [Datastore.close, Datastore.leaves, close_eq hresult child w]
  | .mount mounts, w => by
      simp only [Datastore.close, Datastore.leaves, closeEach_eq hresult mounts w]

theorem closeEach_eq {result : Nat → CloseResult} (hresult : ∀ n, result n = .closed) :
    ∀ (mounts : List (Datastore × String)) (w : World),
      closeEach result mounts w = (none, w.minus (leavesEach mounts))
  | [], w => by
      simp [closeEach, leavesEach, World.minus]
  | (ds, pre) :: rest, w => by
      simp only [closeEach, leavesEach, close_eq hresult ds w,
        closeEach_eq hresult rest, World.minus_minus]
      rfl

end

/-! ### What `open` and `Close` leave behind -/

/-- The same lockfile, open datastores and repos. -/
def World.Same (w t : World) : Prop :=
  t.locked = w.locked ∧ t.stores = w.stores ∧ t.repos = w.repos

variable {env : OpenEnv Spec}

theorem checkInitialized_wp {path : String} (hQ : Q () w) (hE : E w) :
    Wp E (checkInitialized env path) Q w := by
  unfold checkInitialized
  split
  · exact wp_pure.mpr hQ
  · split <;> exact wp_throw.mpr hE

theorem checkVersion_wp {v : VersionFile} (hQ : Q () w) (hE : E w) : Wp E (checkVersion v) Q w := by
  unfold checkVersion
  split
  · exact wp_throw.mpr hE
  · exact wp_throw.mpr hE
  · split
    · exact wp_throw.mpr hE
    · split
      · exact wp_throw.mpr hE
      · exact wp_pure.mpr hQ

theorem openDatastore_wp (code : SpecCode Spec) (config : Config Spec)
    (hfault : ∀ n, w.asked < n → env.creation n = none) :
    Wp w.Same (openDatastore code env config) (fun ds t => t = w.plus ds.leaves) w := by
  have hsame : w.Same w := ⟨rfl, rfl, rfl⟩
  unfold openDatastore
  split
  · exact wp_throw.mpr hsame
  split
  · exact wp_throw.mpr hsame
  rw [wp_bind, wp_ofResult]
  refine ⟨fun dsc _ => ?_, fun _ => hsame⟩
  rw [wp_bind, wp_ofResult]
  refine ⟨fun oldSpec _ => ?_, fun _ => hsame⟩
  split
  · exact wp_throw.mpr hsame
  rw [wp_bind]
  have hcreate := create_wp dsc w hfault
  refine Wp.imp (hcreate.mono ?_) ?_
  · intro ds t ht
    exact wp_pure.mpr ht
  · rintro t ⟨_, rfl⟩
    exact ⟨rfl, rfl, rfl⟩

/-- `open` has made a repo that is not closed, with the lockfile held and its
datastore open. -/
structure Opened (w : World) (i : Nat) (t : World) : Prop where
  free : w.locked = false
  locked : t.locked = true
  new : i = w.repos.length
  repo : ∃ r, r.closed = false ∧ t.repos = w.repos ++ [r] ∧
    t.stores = w.stores ++ r.ds.leaves

/-- **`open` takes everything or nothing**, if no step fails after a datastore has
been created. -/
theorem openRepo_wp (code : SpecCode Spec) (hkeystore : env.keystore = none)
    (hfault : ∀ n, w.asked < n → env.creation n = none) :
    Wp w.Same (openRepo code env) (Opened w) w := by
  have hsame : w.Same w := ⟨rfl, rfl, rfl⟩
  unfold openRepo
  rw [wp_bind, wp_ofResult]
  refine ⟨fun path _ => ?_, fun _ => hsame⟩
  rw [wp_bind]
  refine checkInitialized_wp ?_ hsame
  rw [wp_bind]
  unfold takeLock
  rw [wp_bind, wp_failing]
  refine ⟨fun _ => ?_, fun _ => hsame⟩
  rw [wp_bind, wp_get]
  split
  · exact wp_throw.mpr hsame
  rename_i hlocked
  have hfree : w.locked = false := by simpa using hlocked
  -- from here on an error drops the lockfile that was just taken
  have hback : ∀ t : World, World.Same { w with locked := true } t →
      w.Same { t with locked := false } := by
    intro t ht
    exact ⟨hfree.symm, ht.2.1, ht.2.2⟩
  have hdrop : w.Same { w with locked := false } := ⟨hfree.symm, rfl, rfl⟩
  rw [wp_modify, wp_onError, wp_bind]
  refine checkVersion_wp ?_ hdrop
  rw [wp_bind, wp_failing]
  refine ⟨fun _ => ?_, fun _ => hdrop⟩
  rw [wp_bind, wp_ofResult]
  refine ⟨fun config _ => ?_, fun _ => hdrop⟩
  rw [wp_bind]
  apply Wp.imp _ hback
  apply (openDatastore_wp code (w := { w with locked := true }) config hfault).mono
  rintro ds _ rfl
  rw [wp_bind, wp_failing]
  refine ⟨fun _ => ?_, fun hne => absurd hkeystore hne⟩
  simp only [register, wp_bind, wp_get, wp_modify, wp_pure]
  exact ⟨hfree, rfl, rfl, _, rfl, rfl, rfl⟩

variable {code : SpecCode Spec}

theorem openRepo_ok (henv : env.Faultless code) (hfree : w.locked = false) :
    ∃ i t, exec (openRepo code env) w = (.ok i, t) := by
  obtain ⟨path, hpath, hinit⟩ := henv.expanded
  obtain ⟨config, params, dsc, hconfig, htype, hdspath, hspec, hdsc, hread⟩ := henv.config
  have hcreate : ∀ v : World, Wp (fun _ => False) (create env.creation dsc)
      (fun _ _ => True) v := by
    intro v
    have hall := create_wp dsc v (fun n _ => henv.creation n)
    apply Wp.imp (hall.mono fun _ _ _ => True.intro)
    intro t ht
    exact ht.1 (henv.creation _)
  have hdatastore : ∀ v : World, Wp (fun _ => False) (openDatastore code env config)
      (fun _ _ => True) v := by
    intro v
    simp only [openDatastore, htype, hdspath, hspec, hdsc, hread, ofResult, ne_eq,
      not_true_eq_false, or_self, if_false, wp_bind, wp_pure]
    exact hcreate v
  have hwp : Wp (fun _ => False) (openRepo code env) (fun _ _ => True) w := by
    simp only [openRepo, checkInitialized, takeLock, checkVersion, hpath, hinit, henv.lock,
      hfree, henv.version, henv.writable, hconfig, henv.keystore, ofResult, failing, register,
      Nat.lt_irrefl, if_true, if_false, Bool.false_eq_true, wp_bind, wp_pure, wp_get,
      wp_modify, wp_onError]
    exact hdatastore _
  rcases hexec : exec (openRepo code env) w with ⟨res, t⟩
  cases res with
  | ok i => exact ⟨i, t, rfl⟩
  | error e => exact (hwp.error hexec).elim

/-! ### Every sequence of calls -/

structure Free (w : World) : Prop where
  locked : w.locked = false
  stores : w.stores = []
  closed : ∀ (i : Nat) (r : FSRepo), w.repos[i]? = some r → r.closed = true

/-- One repo is open, and all that is taken is taken for it. -/
structure HeldBy (w : World) (i : Nat) : Prop where
  locked : w.locked = true
  repo : ∃ r, w.repos[i]? = some r ∧ r.closed = false ∧ w.stores = r.ds.leaves
  closed : ∀ (j : Nat) (r : FSRepo), w.repos[j]? = some r → j ≠ i → r.closed = true

/-- What is taken is taken for a repo that somebody holds. -/
structure Accounted (s : State) : Prop extends Counted s where
  repos : s.world.repos.length = s.one.items.length
  numbered : ∀ (i : Nat) (r : Ref String Nat), s.one.items[i]? = some r → r.repo = i
  taken : Free s.world ∨ ∃ i ∈ s.handles, HeldBy s.world i

theorem accounted_fresh : Accounted fresh := by
  refine ⟨counted_new _, rfl, ?_, .inl ⟨rfl, rfl, ?_⟩⟩
  · intro i r hr
    simp [fresh] at hr
  · intro i r hr
    simp [fresh] at hr

theorem Free.of_same {t : World} (hw : Free w) (h : w.Same t) : Free t := by
  refine ⟨h.1.trans hw.locked, h.2.1.trans hw.stores, ?_⟩
  rw [h.2.2]
  exact hw.closed

variable {i : Nat}

theorem HeldBy.of_same {t : World} (hw : HeldBy w i) (h : w.Same t) : HeldBy t i := by
  refine ⟨h.1.trans hw.locked, ?_, ?_⟩
  · rw [h.2.1, h.2.2]
    exact hw.repo
  · rw [h.2.2]
    exact hw.closed

theorem Opened.heldBy {t : World} (h : Opened w i t) (hw : Free w) : HeldBy t i := by
  obtain ⟨r, hr, hrepos, hstores⟩ := h.repo
  refine ⟨h.locked, ⟨r, ?_, hr, ?_⟩, ?_⟩
  · rw [hrepos, h.new]
    simp
  · rw [hstores, hw.stores]
    rfl
  intro j r' hr' hj
  rw [hrepos] at hr'
  have hlt : j < w.repos.length := by
    have hlen := (List.getElem?_eq_some_iff.mp hr').1
    rw [length_append, length_singleton] at hlen
    have := h.new
    omega
  rw [getElem?_append_left hlt] at hr'
  exact hw.closed j r' hr'

variable {result : Nat → CloseResult}

theorem closeRepo_open (hw : HeldBy w i) (hresult : ∀ n, result n = .closed) :
    Free (exec (closeRepo result i) w).2 ∧
      (exec (closeRepo result i) w).2.repos.length = w.repos.length := by
  obtain ⟨r, hr, hopen, hstores⟩ := hw.repo
  have hexec : exec (closeRepo result i) w = (.ok (),
      { w.minus r.ds.leaves with
        repos := w.repos.modify i fun r => { r with closed := true }
        locked := false }) := by
    simp [closeRepo, exec_bind, hr, hopen, close_eq hresult, minus]
  rw [hexec]
  refine ⟨⟨rfl, ?_, ?_⟩, ?_⟩
  · simp [minus, hstores]
  · intro j r' hr'
    rw [getElem?_modify] at hr'
    by_cases hj : i = j
    · subst hj
      simp only [hr, if_true] at hr'
      rw [← Option.some.inj hr']
    · simp only [if_neg hj] at hr'
      exact hw.closed j r' (by simpa using hr') (Ne.symm hj)
  · simp

theorem closeRepo_closed (hclosed : ∀ r, w.repos[i]? = some r → r.closed = true) :
    (exec (closeRepo result i) w).2 = w := by
  cases hr : w.repos[i]? with
  | none => simp [closeRepo, exec_bind, hr]
  | some r => simp [closeRepo, exec_bind, hr, hclosed r hr]

variable {s : State}

/-- **`Open` accounts for what it takes.** -/
theorem accounted_open (hs : Accounted s) (path : String) (hkeystore : env.keystore = none)
    (hfault : ∀ n, s.world.asked < n → env.creation n = none) :
    Accounted (s.openKey path (openRepo code env)).2 := by
  have hcounted := counted_openKey hs.toCounted path (openRepo code env)
  have hwp := openRepo_wp code hkeystore hfault
  rcases openKey_cases s path (openRepo code env) with
    ⟨item, _, heq⟩ | ⟨_, e, w, hcall, heq⟩ | ⟨_, repo, w, hcall, heq⟩
  · rw [heq] at hcounted ⊢
    refine ⟨hcounted, ?_, ?_, ?_⟩
    · show s.world.repos.length = (s.one.incr item).items.length
      rw [hs.repos]
      simp [OnlyOne.incr]
    · exact Numbered.modify hs.numbered (fun _ => by rfl) item
    · rcases hs.taken with hfree | ⟨i, hi, hheld⟩
      · exact .inl hfree
      · exact .inr ⟨i, mem_cons_of_mem _ hi, hheld⟩
  · have hsame : s.world.Same w := hwp.error hcall
    rw [heq] at hcounted ⊢
    refine ⟨hcounted, ?_, hs.numbered, ?_⟩
    · show w.repos.length = _
      rw [hsame.2.2]
      exact hs.repos
    · rcases hs.taken with hfree | ⟨i, hi, hheld⟩
      · exact .inl (hfree.of_same hsame)
      · exact .inr ⟨i, hi, hheld.of_same hsame⟩
  · have hopened : Opened s.world repo w := hwp.ok hcall
    have hnew : repo = s.one.items.length := hopened.new.trans hs.repos
    have hfree : Free s.world := by
      rcases hs.taken with hfree | ⟨i, _, hheld⟩
      · exact hfree
      · have hlocked := hheld.locked
        rw [hopened.free] at hlocked
        cases hlocked
    rw [heq] at hcounted ⊢
    refine ⟨hcounted, ?_, ?_, .inr ⟨s.one.items.length, mem_cons_self, ?_⟩⟩
    · obtain ⟨r, _, hrepos, _⟩ := hopened.repo
      show w.repos.length = _
      rw [hrepos]
      simp [OnlyOne.incr, OnlyOne.insert, hs.repos]
    · exact hnew ▸ Numbered.insert hs.numbered path
    · rw [← hnew]
      exact hopened.heldBy hfree

/-- **`Close` accounts for what it releases.** -/
theorem accounted_close (hs : Accounted s) {h : Nat} (hh : h ∈ s.handles)
    (hresult : ∀ n, result n = .closed) : Accounted (s.closeHandle h (closeRepo result)).2 := by
  have hcounted := counted_closeHandle hs.toCounted hh (closeRepo result)
  obtain ⟨r, hr⟩ := hs.made h hh
  have hlen : (s.one.decr h).items.length = s.one.items.length := by simp [OnlyOne.decr]
  have hnumbered : Numbered (s.one.decr h).items :=
    Numbered.modify hs.numbered (fun _ => by rfl) h
  rcases closeHandle_cases hr (closeRepo result) with ⟨hpos, heq⟩ | ⟨_, heq⟩
  · rw [heq] at hcounted ⊢
    refine ⟨hcounted, hs.repos.trans hlen.symm, hnumbered, ?_⟩
    rcases hs.taken with hfree | ⟨i, hi, hheld⟩
    · exact .inl hfree
    · refine .inr ⟨i, ?_, hheld⟩
      by_cases hih : i = h
      · subst hih
        exact hs.mem_erase hh hr hpos
      · exact (mem_erase_of_ne hih).mpr hi
  have hrepo : r.repo = h := hs.numbered h r hr
  rw [heq] at hcounted ⊢
  rw [hrepo] at hcounted ⊢
  by_cases hheld : HeldBy s.world h
  · obtain ⟨hfree, hrepos⟩ := closeRepo_open hheld hresult
    exact ⟨hcounted, hrepos.trans (hs.repos.trans hlen.symm), hnumbered, .inl hfree⟩
  have hclosed : ∀ r, s.world.repos[h]? = some r → r.closed = true := by
    intro r hr
    rcases hs.taken with hfree | ⟨i, _, hi⟩
    · exact hfree.closed h r hr
    · exact hi.closed h r hr fun heq => hheld (heq ▸ hi)
  have hworld : (exec (closeRepo result h) s.world).2 = s.world :=
    closeRepo_closed hclosed
  refine ⟨hcounted, ?_, hnumbered, ?_⟩
  · rw [hworld]
    exact hs.repos.trans hlen.symm
  · rw [hworld]
    rcases hs.taken with hfree | ⟨i, hi, hi'⟩
    · exact .inl hfree
    · have hne : i ≠ h := fun heq => hheld (heq ▸ hi')
      exact .inr ⟨i, (mem_erase_of_ne hne).mpr hi, hi'⟩

theorem accounted_step {path : String} {t : State} {a : Action Spec} (hs : Accounted s)
    (ha : Contained s a) (hstep : step code path s a = some t) : Accounted t := by
  cases a with
  | opens env =>
    obtain rfl := Option.some.inj hstep
    exact accounted_open hs path ha.1 ha.2
  | closes h result =>
    obtain ⟨hh, rfl⟩ := guard_passed hstep
    exact accounted_close hs hh ha

/-- **The lifecycle releases everything**, if no step of an `Open` fails after a
datastore has been created and no datastore fails to close: whenever no handle is
outstanding, the lockfile is free, no datastore is open, and an `Open` on which no
step fails succeeds. -/
theorem released_of_contained (code : SpecCode Spec) (path : String)
    {actions : List (Action Spec)} {s : State}
    (hrun : run (step code path) fresh actions = some s)
    (hcontained : Along (step code path) Contained fresh actions)
    (hnone : s.handles = []) : Released code path s := by
  have hs : Accounted s :=
    run_invariant_along Accounted Contained (fun _ _ _ => accounted_step)
      accounted_fresh hcontained hrun
  have hfree : Free s.world := by
    rcases hs.taken with hfree | ⟨i, hi, _⟩
    · exact hfree
    · rw [hnone] at hi
      exact absurd hi not_mem_nil
  have hinactive : s.one.active.lookup path = none := by
    cases hactive : s.one.active.lookup path with
    | none => rfl
    | some item =>
      have hmem := (hs.held path item hactive).1
      rw [hnone] at hmem
      exact absurd hmem not_mem_nil
  refine ⟨hfree.locked, hfree.stores, ?_⟩
  intro env henv
  obtain ⟨i, t, hexec⟩ := openRepo_ok henv hfree.locked
  refine ⟨s.one.items.length, ?_⟩
  simp [System.openKey, onlyOneOpen, hinactive, hexec]

-- an `Open` that fails on the keystore leaves its datastore open
example :
    (run (step oneStore "/repo") fresh
      [.opens { noFault with keystore := some "permission denied" }]).any
      (fun s => s.handles.isEmpty && !s.world.stores.isEmpty) = true := by
  decide

/-- Two holders, and an `Open` that fails on the version file while none is left. -/
def openedTwice : List (Action Unit) :=
  [.opens noFault, .opens noFault, .closes 0 fun _ => .closed, .closes 0 fun _ => .closed,
    .opens { noFault with version := .missing }]

theorem released_openedTwice :
    ∃ s, run (step oneStore "/repo") fresh openedTwice = some s ∧
      Along (step oneStore "/repo") Contained fresh openedTwice ∧ s.handles = [] ∧
      Released oneStore "/repo" s := by
  obtain ⟨s, hrun, hs⟩ : ∃ s, run (step oneStore "/repo") fresh openedTwice = some s ∧
      s.handles.isEmpty = true := exists_run_of_any (by decide)
  have hcontained : Along (step oneStore "/repo") Contained fresh openedTwice := by
    apply along_of_forall
    intro a ha s
    simp only [openedTwice, mem_cons, not_mem_nil, or_false] at ha
    rcases ha with rfl | rfl | rfl | rfl | rfl
    · exact ⟨rfl, fun _ _ => rfl⟩
    · exact ⟨rfl, fun _ _ => rfl⟩
    · exact fun _ => rfl
    · exact fun _ => rfl
    · exact ⟨rfl, fun _ _ => rfl⟩
  have hnone := isEmpty_iff.mp hs
  exact ⟨s, hrun, hcontained, hnone, released_of_contained oneStore "/repo" hrun hcontained hnone⟩

end RepoLifecycle
