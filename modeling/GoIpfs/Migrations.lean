import Mathlib.Data.List.Nodup
import Mathlib.Data.List.Perm.Subperm
import Mathlib.Tactic.Ring

/-!
# Repo migrations

`RunMigration` of `repo/fsrepo/migrations/migrations.go`: find the binaries for
the steps between two repo versions, download those that are not there, and run
all of them in order.  The outside world is a record of answers: what is found
on the search path, how the downloads end and in which order, and which runs
fail.

A binary is a file at a path.  `program` says which migration the file is; the
search path and the distribution site hand out the migration that they are asked
for, which makes sense because a name stands for one pair of versions only
(`migrationName_inj`).  `runMigrations_chain` is the result.
-/

namespace Migrations

open List

def migrationName (fromVer toVer : Int) : String :=
  "fs-repo-" ++ fromVer.repr ++ "-to-" ++ toVer.repr

/-! ## Names -/

theorem isDigit_of_mem_repr {n : Nat} {c : Char} (h : c ∈ n.repr.toList) : c.isDigit = true := by
  rw [Nat.toList_repr] at h
  exact Nat.isDigit_of_mem_toDigits (by decide) (by decide) h

theorem not_t_of_mem_repr {n : Int} {c : Char} (h : c ∈ n.repr.toList) : c ≠ 't' := by
  rintro rfl
  have hdigit : ¬ 't'.isDigit = true := by decide
  cases n with
  | ofNat m => exact hdigit (isDigit_of_mem_repr h)
  | negSucc m =>
    rw [Int.repr, String.toList_append] at h
    rcases mem_append.mp h with h | h
    · revert h
      decide
    · exact hdigit (isDigit_of_mem_repr h)

theorem natRepr_inj {m n : Nat} (h : m.repr = n.repr) : m = n := by
  have hdigits := congrArg String.toList h
  rw [Nat.toList_repr, Nat.toList_repr] at hdigits
  calc m = Nat.ofDigitChars 10 (Nat.toDigits 10 m) 0 := Nat.ofDigitChars_ten_toDigits.symm
    _ = n := by rw [hdigits, Nat.ofDigitChars_ten_toDigits]

theorem repr_inj {a b : Int} (h : a.repr = b.repr) : a = b := by
  have hsign : ∀ m n : Nat, m.repr ≠ "-" ++ n.repr := by
    intro m n heq
    have hminus : '-' ∈ m.repr.toList := by
      rw [heq, String.toList_append]
      exact mem_append_left _ (by decide)
    exact absurd (isDigit_of_mem_repr hminus) (by decide)
  cases a with
  | ofNat m =>
    cases b with
    | ofNat n => rw [natRepr_inj h]
    | negSucc n => exact absurd h (hsign m _)
  | negSucc m =>
    cases b with
    | ofNat n => exact absurd h.symm (hsign n _)
    | negSucc n =>
      have hlist := congrArg String.toList h
      rw [Int.repr, Int.repr, String.toList_append, String.toList_append] at hlist
      rw [Nat.succ.inj (natRepr_inj (String.ext (append_cancel_left hlist)))]

theorem cut_inj {x x' y y' : List Char} (hx : ∀ c ∈ x, c ≠ 't') (hx' : ∀ c ∈ x', c ≠ 't')
    (h : x ++ 't' :: y = x' ++ 't' :: y') : x = x' ∧ y = y' := by
  have hcut : ∀ u v : List Char, (∀ c ∈ u, c ≠ 't') →
      (u ++ 't' :: v).takeWhile (· ≠ 't') = u := by
    intro u v hu
    rw [takeWhile_append_of_pos (by simpa using hu)]
    simp
  have heq : x = x' := by rw [← hcut x y hx, h, hcut x' y' hx']
  subst heq
  exact ⟨rfl, tail_eq_of_cons_eq (append_cancel_left h)⟩

theorem migrationName_inj {a b a' b' : Int} (h : migrationName a b = migrationName a' b') :
    a = a' ∧ b = b' := by
  have hlist := congrArg String.toList h
  simp only [migrationName, String.toList_append, append_assoc] at hlist
  have hrest := append_cancel_left hlist
  have hcut : ∀ n m : Int, n.repr.toList ++ ("-to-".toList ++ m.repr.toList) =
      (n.repr.toList ++ ['-']) ++ 't' :: (['o', '-'] ++ m.repr.toList) := by
    simp
  have hno : ∀ n : Int, ∀ c ∈ n.repr.toList ++ ['-'], c ≠ 't' := by
    intro n c hc
    rcases mem_append.mp hc with hc | hc
    · exact not_t_of_mem_repr hc
    · rw [mem_singleton.mp hc]
      decide
  rw [hcut, hcut] at hrest
  obtain ⟨hleft, hright⟩ := cut_inj (hno a) (hno a') hrest
  constructor
  · exact repr_inj (String.ext (append_cancel_right hleft))
  · exact repr_inj (String.ext (append_cancel_left hright))

/-! ## The world -/

/-- The answers that `RunMigration` gets from outside. -/
structure World where
  /-- The error of `CheckIpfsDir`. -/
  checkIpfsDir : Option String
  /-- The error of `RepoVersion`. -/
  repoVersionError : Option String
  /-- `ctx.Err()` when the `n`th binary is looked for. -/
  ctxErr : Nat → Option String
  /-- `exec.LookPath`. -/
  lookPath : String → Option String
  /-- The error of `TempDir`. -/
  tempDirError : Option String
  osWithVariant : Except String String
  latestDistVersion : String → Except String String
  /-- `FetchBinary` of a migration in a version. -/
  fetchBinary : String → String → Except String String
  /-- The order in which `n` downloads end. -/
  order : Nat → List Nat
  order_perm : ∀ n, (order n).Perm (List.range n)
  /-- `ctx.Err()` after the downloads. -/
  ctxErrAfter : Option String
  /-- The migration that a file is. -/
  program : String → Int × Int
  /-- The error of the `n`th run. -/
  runError : Nat → Option String
  lookPath_program : ∀ a b path, lookPath (migrationName a b) = some path → program path = (a, b)
  fetchBinary_program : ∀ a b ver path,
    fetchBinary (migrationName a b) ver = .ok path → program path = (a, b)

abbrev Paths := List (String × String)

/-- `m[key] = value`. -/
def setKey (key value : String) (m : Paths) : Paths := (key, value) :: m.filter (·.1 ≠ key)

variable (w : World)

/-! ## Finding binaries -/

/-- The loop of `findMigrations`, from `cur` with `n` steps to go; `i` counts the
rounds. -/
def findLoop (step toVer : Int) : Nat → Nat → Int → List String → Paths →
    Except String (List String × Paths)
  | 0, _, _, migrations, binPaths => .ok (migrations, binPaths)
  | n + 1, i, cur, migrations, binPaths =>
    if cur = toVer then .ok (migrations, binPaths)
    else
      match w.ctxErr i with
      | some err => .error err
      | none =>
        let migName :=
          if step = -1 then migrationName (cur + step) cur else migrationName cur (cur + step)
        match w.lookPath migName with
        | none => findLoop step toVer n (i + 1) (cur + step) (migrations ++ [migName]) binPaths
        | some bin =>
          findLoop step toVer n (i + 1) (cur + step) (migrations ++ [migName])
            (setKey migName bin binPaths)

def findMigrations (fromVer toVer : Int) : Except String (List String × Paths) :=
  let step : Int := if fromVer > toVer then -1 else 1
  findLoop w step toVer (toVer - fromVer).natAbs 0 fromVer [] []

/-! ## Downloading binaries -/

/-- The body of a download goroutine: the path that it stores, if any. -/
def download (name : String) : Option String :=
  match w.latestDistVersion name with
  | .error _ => none
  | .ok ver =>
    match w.fetchBinary name ver with
    | .error _ => none
    | .ok loc => some loc

/-- The goroutine of index `i` has come to its end. -/
def finishDownload (needed bins : List String) (i : Nat) : List String :=
  match needed[i]? with
  | none => bins
  | some name =>
    match download w name with
    | none => bins
    | some loc => bins.set i loc

def fetchMigrations (needed : List String) : Except String (List String) :=
  match w.osWithVariant with
  | .error err => .error err
  | .ok osv =>
    if osv = "linux-musl" then
      .error "linux-musl not supported, you must build the binary from source for your platform"
    else
      let bins := (w.order needed.length).foldl (finishDownload w needed)
        (needed.map fun _ => "")
      let fails := (needed.zip bins).filterMap fun p => if p.2 = "" then some p.1 else none
      if fails ≠ [] then
        let err := "failed to download migrations: " ++ " ".intercalate fails
        match w.ctxErrAfter with
        | some ctxErr => .error (ctxErr ++ ", " ++ err)
        | none => .error err
      else .ok bins

/-! ## Running binaries -/

/-- A run of a binary: the file, `-revert`, and the repo version before it. -/
structure Run where
  binPath : String
  revert : Bool
  version : Int
  succeeded : Bool
  deriving DecidableEq, Repr

structure Repo where
  version : Int
  runs : List Run
  deriving DecidableEq, Repr

def endpoints (revert : Bool) (m : Int × Int) : Int × Int := if revert then (m.2, m.1) else m

/-- A binary moves a repo that is at its source version, or fails. -/
def runMigration (binPath : String) (revert : Bool) (r : Repo) : Repo × Option String :=
  let logged (ok : Bool) : List Run := r.runs ++ [⟨binPath, revert, r.version, ok⟩]
  match w.runError r.runs.length with
  | some err => ({ r with runs := logged false }, some err)
  | none =>
    if r.version = (endpoints revert (w.program binPath)).1 then
      ({ version := (endpoints revert (w.program binPath)).2, runs := logged true }, none)
    else ({ r with runs := logged false }, some "exit status 1")

/-- The last loop of `RunMigration`. -/
def runLoop (binPaths : Paths) (revert : Bool) : List String → Repo → Repo × Option String
  | [], r => (r, none)
  | migration :: rest, r =>
    match runMigration w ((binPaths.lookup migration).getD "") revert r with
    | (r, some err) => (r, some ("migration " ++ migration ++ " failed: " ++ err))
    | (r, none) => runLoop binPaths revert rest r

/-- `binPaths[missing[i]] = fetched[i]`. -/
def addFetched (missing fetched : List String) (binPaths : Paths) : Paths :=
  (missing.zip fetched).foldl (fun m p => setKey p.1 p.2 m) binPaths

/-- The part of `RunMigration` after the binaries have been looked for. -/
def fetchAndRun (fromVer targetVer : Int) (migrations : List String) (binPaths : Paths)
    (r : Repo) : Repo × Option String :=
  let revert : Bool := fromVer > targetVer
  if binPaths.length < migrations.length then
    let missing := migrations.filter fun mig => (binPaths.lookup mig).isNone
    match w.tempDirError with
    | some err => (r, some err)
    | none =>
      match fetchMigrations w missing with
      | .error err => (r, some err)
      | .ok fetched => runLoop w (addFetched missing fetched binPaths) revert migrations r
  else runLoop w binPaths revert migrations r

/-- `RunMigration` on a repo. -/
def runMigrations (targetVer : Int) (allowDowngrade : Bool) (r : Repo) : Repo × Option String :=
  match w.checkIpfsDir, w.repoVersionError with
  | some err, _ => (r, some err)
  | none, some err => (r, some ("could not get repo version: " ++ err))
  | none, none =>
    if r.version = targetVer then (r, none)
    else if r.version > targetVer ∧ allowDowngrade = false then
      (r, some ("downgrade not allowed from " ++ r.version.repr ++ " to " ++ targetVer.repr))
    else
      match findMigrations w r.version targetVer with
      | .error err => (r, some err)
      | .ok (migrations, binPaths) =>
        fetchAndRun w r.version targetVer migrations binPaths r

/-! ## The chain between two versions -/

/-- The migration that leads one step on from `cur`. -/
def migrationAt (step cur : Int) : Int × Int :=
  if step = -1 then (cur + step, cur) else (cur, cur + step)

/-- The migrations of the next `n` steps. -/
def chainFrom (step : Int) : Nat → Int → List (Int × Int)
  | 0, _ => []
  | n + 1, cur => migrationAt step cur :: chainFrom step n (cur + step)

def direction (fromVer toVer : Int) : Int := if fromVer > toVer then -1 else 1

def chain (fromVer toVer : Int) : List (Int × Int) :=
  chainFrom (direction fromVer toVer) (toVer - fromVer).natAbs fromVer

def nameOf (m : Int × Int) : String := migrationName m.1 m.2

theorem direction_mul (fromVer toVer : Int) :
    fromVer + (toVer - fromVer).natAbs * direction fromVer toVer = toVer := by
  unfold direction
  split <;> omega

theorem direction_eq (fromVer toVer : Int) :
    direction fromVer toVer = -1 ∨ direction fromVer toVer = 1 := by
  unfold direction
  split
  · exact .inl rfl
  · exact .inr rfl

variable {step : Int}

theorem endpoints_migrationAt (hstep : step = -1 ∨ step = 1) (cur : Int) :
    endpoints (step = -1) (migrationAt step cur) = (cur, cur + step) := by
  rcases hstep with rfl | rfl <;> rfl

variable {n : Nat} {cur : Int}

theorem mem_chainFrom (hstep : step = -1 ∨ step = 1) {m : Int × Int}
    (h : m ∈ chainFrom step n cur) :
    ∃ k : Nat, (endpoints (step = -1) m).1 = cur + k * step := by
  induction n generalizing cur with
  | zero => cases h
  | succ n ih =>
    rcases mem_cons.mp h with rfl | h
    · exact ⟨0, by rw [endpoints_migrationAt hstep]; simp⟩
    · obtain ⟨k, hk⟩ := ih h
      exact ⟨k + 1, by rw [hk]; push_cast; ring⟩

theorem nodup_chainFrom (hstep : step = -1 ∨ step = 1) (n : Nat) (cur : Int) :
    (chainFrom step n cur).Nodup := by
  induction n generalizing cur with
  | zero => exact nodup_nil
  | succ n ih =>
    refine nodup_cons.mpr ⟨?_, ih _⟩
    intro h
    obtain ⟨k, hk⟩ := mem_chainFrom hstep h
    rw [endpoints_migrationAt hstep] at hk
    rcases hstep with rfl | rfl <;> omega

/-! ## What is found -/

variable {w}

variable {m : Paths} {value : String} {key name : String}

theorem mem_setKey {e : String × String} (h : e ∈ setKey key value m) : e = (key, value) ∨ e ∈ m :=
  (mem_cons.mp h).imp_right fun h => (mem_filter.mp h).1

theorem nodup_setKey (h : (m.map Prod.fst).Nodup) : ((setKey key value m).map Prod.fst).Nodup := by
  simp only [setKey, map_cons, nodup_cons]
  constructor
  · simp
  · exact (filter_sublist.map Prod.fst).nodup h

theorem lookup_setKey {k : String} :
    (setKey key value m).lookup k = if k = key then some value else m.lookup k := by
  unfold setKey
  rw [lookup_cons]
  by_cases hk : k = key
  · simp [hk]
  simp only [hk, if_false, beq_eq_false_iff_ne.mpr hk]
  induction m with
  | nil => rfl
  | cons e m ih =>
    by_cases he : e.1 = key
    · have hke : k ≠ e.1 := fun h => hk (h.trans he)
      rw [filter_cons_of_neg (by simpa using he), ih, lookup_cons, beq_eq_false_iff_ne.mpr hke]
    · rw [filter_cons_of_pos (by simpa using he), lookup_cons, lookup_cons, ih]

/-- The map of `findMigrations` holds binaries from the search path. -/
structure Found (w : World) (migrations : List String) (binPaths : Paths) : Prop where
  nodup : (binPaths.map Prod.fst).Nodup
  sub : ∀ e ∈ binPaths, e.1 ∈ migrations ∧ w.lookPath e.1 = some e.2

variable {i : Nat} {migrations : List String} {binPaths : Paths}

theorem findLoop_ok {toVer : Int} (hstep : step = -1 ∨ step = 1) {migrations' : List String}
    {binPaths' : Paths} (hto : cur + n * step = toVer) (hfound : Found w migrations binPaths)
    (h : findLoop w step toVer n i cur migrations binPaths = .ok (migrations', binPaths')) :
    migrations' = migrations ++ (chainFrom step n cur).map nameOf ∧
      Found w migrations' binPaths' := by
  induction n generalizing i cur migrations binPaths with
  | zero =>
    cases h
    exact ⟨by simp [chainFrom], hfound⟩
  | succ n ih =>
    have hne : cur ≠ toVer := by
      push_cast at hto
      rcases hstep with rfl | rfl <;> omega
    have hto' : cur + step + n * step = toVer := by
      rw [← hto]
      push_cast
      ring
    simp only [findLoop, if_neg hne] at h
    have hname : (if step = -1 then migrationName (cur + step) cur
        else migrationName cur (cur + step)) = nameOf (migrationAt step cur) := by
      unfold migrationAt nameOf
      split <;> rfl
    rw [hname] at h
    have hgrow : Found w (migrations ++ [nameOf (migrationAt step cur)]) binPaths :=
      ⟨hfound.nodup, fun e he =>
        ⟨mem_append_left _ (hfound.sub e he).1, (hfound.sub e he).2⟩⟩
    split at h
    · cases h
    split at h
    · obtain ⟨hm, hf⟩ := ih hto' hgrow h
      exact ⟨by rw [hm]; simp [chainFrom], hf⟩
    rename_i bin hbin
    have hset : Found w (migrations ++ [nameOf (migrationAt step cur)])
        (setKey (nameOf (migrationAt step cur)) bin binPaths) := by
      refine ⟨nodup_setKey hgrow.nodup, ?_⟩
      intro e he
      rcases mem_setKey he with rfl | he
      · exact ⟨mem_append_right _ mem_cons_self, hbin⟩
      · exact hgrow.sub e he
    obtain ⟨hm, hf⟩ := ih hto' hset h
    exact ⟨by rw [hm]; simp [chainFrom], hf⟩

theorem findMigrations_ok {fromVer toVer : Int}
    (h : findMigrations w fromVer toVer = .ok (migrations, binPaths)) :
    migrations = (chain fromVer toVer).map nameOf ∧ Found w migrations binPaths := by
  have hnil : Found w [] [] := ⟨nodup_nil, forall_mem_nil _⟩
  obtain ⟨hm, hf⟩ :=
    findLoop_ok (direction_eq fromVer toVer) (direction_mul fromVer toVer) hnil h
  exact ⟨by rw [hm]; rfl, hf⟩

/-! ## What is downloaded -/

/-- What the goroutine of a migration leaves in its entry. -/
def downloaded (w : World) (name : String) : String := (download w name).getD ""

variable {needed bins : List String}

theorem getElem?_finishDownload
    (h : bins[i]? = needed[i]?.map (downloaded w) ∨ bins[i]? = needed[i]?.map fun _ => "") :
    (finishDownload w needed bins i)[i]? = needed[i]?.map (downloaded w) := by
  unfold finishDownload
  cases hname : needed[i]? with
  | none => simpa [hname] using h
  | some name =>
    simp only [hname, Option.map_some] at h
    cases hload : download w name with
    | none => simpa [downloaded, hload] using h
    | some loc =>
      have hlt : i < bins.length := by
        rcases h with h | h <;> exact (List.getElem?_eq_some_iff.mp h).1
      simp [downloaded, hload, hlt]

theorem getElem?_finishDownload_ne {j : Nat} (hj : j ≠ i) :
    (finishDownload w needed bins i)[j]? = bins[j]? := by
  unfold finishDownload
  split
  · rfl
  · split
    · rfl
    · exact getElem?_set_ne (Ne.symm hj)

/-- The downloads, whatever the order in which they end: an entry that is not as
it will be is empty, and its goroutine is still to end. -/
theorem foldl_finishDownload {order : List Nat}
    (h : ∀ j, bins[j]? = needed[j]?.map (downloaded w) ∨ j ∈ order ∧ bins[j]? =
      needed[j]?.map fun _ => "") :
    order.foldl (finishDownload w needed) bins = needed.map (downloaded w) := by
  induction order generalizing bins with
  | nil =>
    apply ext_getElem?
    intro j
    rw [getElem?_map]
    exact (h j).resolve_right (by simp)
  | cons i order ih =>
    apply ih
    intro j
    by_cases hj : j = i
    · subst hj
      exact .inl (getElem?_finishDownload ((h j).imp_right And.right))
    · rw [getElem?_finishDownload_ne hj]
      exact (h j).imp_right fun hb => ⟨(mem_cons.mp hb.1).resolve_left hj, hb.2⟩

theorem fetchMigrations_ok (h : fetchMigrations w needed = .ok bins) :
    bins = needed.map (downloaded w) ∧
      ∀ name ∈ needed, ∃ path, download w name = some path ∧ path ≠ "" := by
  unfold fetchMigrations at h
  split at h
  · cases h
  split at h
  · cases h
  have hbins : (w.order needed.length).foldl (finishDownload w needed)
      (needed.map fun _ => "") = needed.map (downloaded w) := by
    apply foldl_finishDownload
    intro j
    by_cases hj : j < needed.length
    · exact .inr ⟨(w.order_perm _).mem_iff.mpr (mem_range.mpr hj), getElem?_map⟩
    · left
      rw [getElem?_map, getElem?_eq_none (by omega)]
      rfl
  simp only [hbins, ← map_prod_left_eq_zip] at h
  split at h
  · split at h <;> cases h
  rename_i hfails
  cases h
  refine ⟨rfl, ?_⟩
  intro name hname
  have hfull : downloaded w name ≠ "" := by
    intro hempty
    apply hfails
    apply ne_nil_of_mem (a := name)
    rw [mem_filterMap]
    exact ⟨(name, downloaded w name), mem_map.mpr ⟨name, hname, rfl⟩, by simp [hempty]⟩
  cases hload : download w name with
  | none => simp [downloaded, hload] at hfull
  | some path => exact ⟨path, rfl, by simpa [downloaded, hload] using hfull⟩

/-! ## The binaries of a chain -/

/-- A migration that was found on the search path or downloaded, at its path. -/
def Provided (w : World) (name path : String) : Prop :=
  w.lookPath name = some path ∨ download w name = some path ∧ path ≠ ""

def Ready (w : World) (migrations : List String) (binPaths : Paths) : Prop :=
  ∀ name ∈ migrations, ∃ path, binPaths.lookup name = some path ∧ Provided w name path

variable {path : String}

theorem Provided.program_eq {m : Int × Int} (h : Provided w (nameOf m) path) :
    w.program path = m := by
  rcases h with h | ⟨h, _⟩
  · exact w.lookPath_program m.1 m.2 path h
  unfold download at h
  split at h
  · cases h
  · split at h
    · cases h
    · rename_i ver _ _ loc hloc
      cases h
      exact w.fetchBinary_program m.1 m.2 ver path hloc

theorem lookup_foldl_setKey {pairs : Paths}
    (h : (∃ path, (name, path) ∈ pairs) ∨ ∃ path, binPaths.lookup name = some path) :
    ∃ path, (pairs.foldl (fun m p => setKey p.1 p.2 m) binPaths).lookup name = some path ∧
      ((name, path) ∈ pairs ∨ binPaths.lookup name = some path) := by
  induction pairs generalizing binPaths with
  | nil =>
    obtain ⟨path, hpath⟩ := h.resolve_left (by simp)
    exact ⟨path, hpath, .inr hpath⟩
  | cons e pairs ih =>
    have hnext : (∃ path, (name, path) ∈ pairs) ∨
        ∃ path, (setKey e.1 e.2 binPaths).lookup name = some path := by
      rcases h with ⟨path, hpath⟩ | ⟨path, hpath⟩
      · rcases mem_cons.mp hpath with rfl | hpath
        · exact .inr ⟨path, by rw [lookup_setKey, if_pos rfl]⟩
        · exact .inl ⟨path, hpath⟩
      · by_cases hname : name = e.1
        · exact .inr ⟨e.2, by rw [lookup_setKey, if_pos hname]⟩
        · exact .inr ⟨path, by rw [lookup_setKey, if_neg hname, hpath]⟩
    obtain ⟨path, hlookup, hpath⟩ := ih hnext
    refine ⟨path, hlookup, ?_⟩
    rcases hpath with hpath | hpath
    · exact .inl (mem_cons_of_mem _ hpath)
    rw [lookup_setKey] at hpath
    split at hpath
    · rename_i hname
      cases hpath
      rw [hname]
      exact .inl mem_cons_self
    · exact .inr hpath

section

variable (h : Found w migrations binPaths)
include h

theorem Found.provided (hlookup : binPaths.lookup name = some path) : Provided w name path := by
  obtain ⟨l₁, l₂, heq, _⟩ := lookup_eq_some_iff.mp hlookup
  exact .inl (h.sub (name, path) (heq ▸ mem_append_right _ mem_cons_self)).2

theorem Found.ready_of_length (hlen : ¬ binPaths.length < migrations.length) :
    Ready w migrations binPaths := by
  have hsub : (binPaths.map Prod.fst).Subperm migrations := by
    apply List.Nodup.subperm h.nodup
    intro k hk
    obtain ⟨e, he, rfl⟩ := mem_map.mp hk
    exact (h.sub e he).1
  have hperm : (binPaths.map Prod.fst).Perm migrations :=
    hsub.perm_of_length_le (by simpa using hlen)
  intro name hname
  have hkey := hperm.mem_iff.mpr hname
  cases hlookup : binPaths.lookup name with
  | some path => exact ⟨path, rfl, h.provided hlookup⟩
  | none =>
    obtain ⟨e, he, rfl⟩ := mem_map.mp hkey
    have hne := lookup_eq_none_iff.mp hlookup e he
    simp at hne

theorem Found.ready_of_fetched {missing fetched : List String}
    (hmissing : missing = migrations.filter fun mig => (binPaths.lookup mig).isNone)
    (hfetched : fetchMigrations w missing = .ok fetched) :
    Ready w migrations (addFetched missing fetched binPaths) := by
  obtain ⟨rfl, hall⟩ := fetchMigrations_ok hfetched
  rw [addFetched, ← map_prod_left_eq_zip]
  intro name hname
  have hpairs : ∀ path, (name, path) ∈ missing.map (fun n => (n, downloaded w n)) →
      Provided w name path := by
    intro path hpath
    obtain ⟨_, hn, heq⟩ := mem_map.mp hpath
    cases heq
    obtain ⟨path, hload, hne⟩ := hall name hn
    exact .inr (by simp [downloaded, hload, hne])
  have hsome : (∃ path, (name, path) ∈ missing.map fun n => (n, downloaded w n)) ∨
      ∃ path, binPaths.lookup name = some path := by
    cases hlookup : binPaths.lookup name with
    | some path => exact .inr ⟨path, rfl⟩
    | none =>
      refine .inl ⟨downloaded w name, mem_map_of_mem ?_⟩
      rw [hmissing]
      exact mem_filter.mpr ⟨hname, by simp [hlookup]⟩
  obtain ⟨path, hlookup, hpath⟩ := lookup_foldl_setKey hsome
  exact ⟨path, hlookup, hpath.elim (hpairs path) h.provided⟩

end

/-! ## Running a chain -/

/-- What the runs of a loop over the next `n` steps from `cur` have done: `k` of
them succeeded, and the next one, if it was run, failed. -/
structure Ran (w : World) (step : Int) (n : Nat) (cur : Int) (runs : List Run) (version : Int)
    (err : Option String) : Prop where
  programs : runs.map (fun run => w.program run.binPath) <+: chainFrom step n cur
  source : ∀ run ∈ runs, run.version = (endpoints run.revert (w.program run.binPath)).1
  version_eq : version = cur + (runs.countP Run.succeeded : Nat) * step
  bound : runs.countP Run.succeeded ≤ n
  complete : err = none → runs.countP Run.succeeded = n

variable {r : Repo}

section

variable (hstep : step = -1 ∨ step = 1)
include hstep

theorem runMigration_provided (h : Provided w (nameOf (migrationAt step r.version)) path) :
    (∃ err, runMigration w path (step = -1) r =
      ({ r with runs := r.runs ++ [⟨path, step = -1, r.version, false⟩] }, some err)) ∨
    runMigration w path (step = -1) r =
      ({ version := r.version + step, runs := r.runs ++ [⟨path, step = -1, r.version, true⟩] },
        none) := by
  unfold runMigration
  cases w.runError r.runs.length with
  | some err => exact .inl ⟨err, rfl⟩
  | none =>
    right
    simp only [h.program_eq, endpoints_migrationAt hstep, if_true]

theorem ran_failed {err : String} (h : Provided w (nameOf (migrationAt step cur)) path) :
    Ran w step (n + 1) cur [⟨path, step = -1, cur, false⟩] cur (some err) where
  programs := by
    simp only [map_singleton, h.program_eq]
    exact ⟨_, rfl⟩
  source := by
    intro run hrun
    rw [mem_singleton.mp hrun]
    simp only [h.program_eq, endpoints_migrationAt hstep]
  version_eq := by simp
  bound := by simp
  complete := nofun

theorem Ran.cons {version : Int} {runs : List Run} {err : Option String}
    (h : Provided w (nameOf (migrationAt step cur)) path)
    (hran : Ran w step n (cur + step) runs version err) :
    Ran w step (n + 1) cur (⟨path, step = -1, cur, true⟩ :: runs) version err where
  programs := by
    simp only [map_cons, h.program_eq, chainFrom]
    exact (prefix_cons_inj _).mpr hran.programs
  source := by
    intro run hrun
    rcases mem_cons.mp hrun with rfl | hrun
    · simp only [h.program_eq, endpoints_migrationAt hstep]
    · exact hran.source run hrun
  version_eq := by
    rw [hran.version_eq, countP_cons_of_pos rfl]
    push_cast
    ring
  bound := by
    rw [countP_cons_of_pos rfl]
    have hbound := hran.bound
    omega
  complete := by
    intro herr
    rw [countP_cons_of_pos rfl, hran.complete herr]

theorem runLoop_ran {r' : Repo} {err : Option String}
    (hready : Ready w ((chainFrom step n r.version).map nameOf) binPaths)
    (hloop : runLoop w binPaths (step = -1) ((chainFrom step n r.version).map nameOf) r =
      (r', err)) :
    ∃ runs, r'.runs = r.runs ++ runs ∧ Ran w step n r.version runs r'.version err := by
  induction n generalizing r with
  | zero =>
    cases hloop
    exact ⟨[], by simp, by constructor <;> simp [chainFrom]⟩
  | succ n ih =>
    simp only [chainFrom, map_cons] at hready hloop
    obtain ⟨path, hlookup, hprovided⟩ := hready _ mem_cons_self
    rw [runLoop, hlookup, Option.getD_some] at hloop
    rcases runMigration_provided hstep hprovided with ⟨e, hrun⟩ | hrun
    · rw [hrun] at hloop
      cases hloop
      exact ⟨_, rfl, ran_failed hstep hprovided⟩
    rw [hrun] at hloop
    obtain ⟨runs, hruns, hran⟩ := ih
      (r := ⟨r.version + step, r.runs ++ [⟨path, step = -1, r.version, true⟩]⟩)
      (fun name hname => hready name (mem_cons_of_mem _ hname)) hloop
    refine ⟨⟨path, step = -1, r.version, true⟩ :: runs, ?_, hran.cons hstep hprovided⟩
    rw [hruns]
    simp

end

/-! ## The whole migration -/

/-- A migration whose binary was found or downloaded. -/
def Available (w : World) (name : String) : Prop := ∃ path, Provided w name path

theorem fetchAndRun_cases (fromVer targetVer : Int) (hfound : Found w migrations binPaths) :
    (∃ err, fetchAndRun w fromVer targetVer migrations binPaths r = (r, some err)) ∨
    ∃ paths, Ready w migrations paths ∧
      fetchAndRun w fromVer targetVer migrations binPaths r =
        runLoop w paths (fromVer > targetVer) migrations r := by
  unfold fetchAndRun
  simp only []
  split
  · split
    · exact .inl ⟨_, rfl⟩
    · split
      · exact .inl ⟨_, rfl⟩
      · rename_i hfetched
        exact .inr ⟨_, hfound.ready_of_fetched rfl hfetched, rfl⟩
  · rename_i hlen
    exact .inr ⟨_, hfound.ready_of_length hlen, rfl⟩

theorem runMigrations_cases (w : World) (targetVer : Int) (allowDowngrade : Bool) (r : Repo) :
    (r.version = targetVer ∧ runMigrations w targetVer allowDowngrade r = (r, none)) ∨
    (∃ err, runMigrations w targetVer allowDowngrade r = (r, some err)) ∨
    (targetVer < r.version → allowDowngrade = true) ∧
      ∃ paths, Ready w ((chain r.version targetVer).map nameOf) paths ∧
        runMigrations w targetVer allowDowngrade r =
          runLoop w paths (direction r.version targetVer = -1)
            ((chain r.version targetVer).map nameOf) r := by
  unfold runMigrations
  split
  · exact .inr (.inl ⟨_, rfl⟩)
  · exact .inr (.inl ⟨_, rfl⟩)
  split_ifs with heq hdown
  · exact .inl ⟨heq, rfl⟩
  · exact .inr (.inl ⟨_, rfl⟩)
  cases hfind : findMigrations w r.version targetVer with
  | error err => exact .inr (.inl ⟨err, rfl⟩)
  | ok found =>
    obtain ⟨migrations, binPaths⟩ := found
    obtain ⟨rfl, hfound⟩ := findMigrations_ok hfind
    rcases fetchAndRun_cases r.version targetVer (r := r) hfound with herr | ⟨paths, hready, hrun⟩
    · exact .inr (.inl herr)
    refine .inr (.inr ⟨?_, paths, hready, ?_⟩)
    · intro hlt
      by_contra hallow
      exact hdown ⟨hlt, by simpa using hallow⟩
    · simp only []
      unfold direction
      split <;> simp_all

/-- **The right chain.**  Whatever is found, however the downloads end and
whichever binary fails: nothing is run unless every binary of the chain is there
and the direction is allowed; the binaries that are run are the first ones of
the chain, each once and at its source version; without an error the repo is at
the target, and with one it is as many steps on the way as runs succeeded. -/
theorem runMigrations_chain (w : World) (targetVer : Int) (allowDowngrade : Bool) (version : Int) :
    let result := runMigrations w targetVer allowDowngrade ⟨version, []⟩
    let steps := result.1.runs.countP Run.succeeded
    (result.1.runs ≠ [] → (∀ m ∈ chain version targetVer, Available w (nameOf m)) ∧
      (targetVer < version → allowDowngrade = true)) ∧
    result.1.runs.map (fun run => w.program run.binPath) <+: chain version targetVer ∧
    (result.1.runs.map Run.binPath).Nodup ∧
    (∀ run ∈ result.1.runs, run.version = (endpoints run.revert (w.program run.binPath)).1) ∧
    (result.2 = none → result.1.version = targetVer) ∧
    (∀ err, result.2 = some err → steps ≤ (targetVer - version).natAbs ∧
      result.1.version = version + steps * direction version targetVer) := by
  intro result steps
  rcases runMigrations_cases w targetVer allowDowngrade ⟨version, []⟩ with
    ⟨heq, hres⟩ | ⟨err, hres⟩ | ⟨hallow, paths, hready, hres⟩
  · simp [result, hres, heq]
  · simp [result, steps, hres]
  have hstep := direction_eq version targetVer
  obtain ⟨runs, hruns, hran⟩ := runLoop_ran hstep hready hres.symm
  have hruns : result.1.runs = runs := hruns
  have hsteps : steps = runs.countP Run.succeeded := by rw [← hruns]
  have hnodup : (runs.map fun run => w.program run.binPath).Nodup :=
    hran.programs.sublist.nodup (nodup_chainFrom hstep _ _)
  rw [hruns, hsteps]
  refine ⟨fun _ => ⟨?_, hallow⟩, hran.programs, ?_, hran.source, ?_, ?_⟩
  · intro m hm
    obtain ⟨path, _, hprovided⟩ := hready (nameOf m) (mem_map_of_mem hm)
    exact ⟨path, hprovided⟩
  · apply List.Nodup.of_map w.program
    rw [map_map]
    exact hnodup
  · intro hnone
    have hversion := hran.version_eq
    rw [hran.complete hnone] at hversion
    exact hversion.trans (direction_mul version targetVer)
  · intro err _
    exact ⟨hran.bound, hran.version_eq⟩

/-- One binary is installed and one is downloaded; the second run fails. -/
def sampleWorld : World where
  checkIpfsDir := none
  repoVersionError := none
  ctxErr _ := none
  lookPath name := if name = migrationName 11 12 then some "/usr/bin/fs-repo-11-to-12" else none
  tempDirError := none
  osWithVariant := .ok "linux"
  latestDistVersion _ := .ok "v1.0.0"
  fetchBinary name _ :=
    if name = migrationName 10 11 then .ok "/tmp/fs-repo-10-to-11" else .error "not found"
  order n := (List.range n).reverse
  order_perm n := List.reverse_perm _
  ctxErrAfter := none
  program path := if path = "/usr/bin/fs-repo-11-to-12" then (11, 12) else (10, 11)
  runError n := if n = 1 then some "exit status 1" else none
  lookPath_program := by
    intro a b path h
    split at h
    · rename_i hname
      cases h
      obtain ⟨rfl, rfl⟩ := migrationName_inj hname
      rfl
    · cases h
  fetchBinary_program := by
    intro a b _ path h
    split at h
    · rename_i hname
      cases h
      obtain ⟨rfl, rfl⟩ := migrationName_inj hname
      rfl
    · cases h

/-- From 12 down to 10: the repo stays where the first run has left it. -/
theorem runMigrations_chain_reverted :
    (runMigrations sampleWorld 10 true ⟨12, []⟩).1.version = 11 ∧
      (runMigrations sampleWorld 10 true ⟨12, []⟩).1.runs.map
        (fun run => sampleWorld.program run.binPath) <+: chain 12 10 := by
  have hchain := runMigrations_chain sampleWorld 10 true 12
  exact ⟨by decide +kernel, hchain.2.1⟩

end Migrations
