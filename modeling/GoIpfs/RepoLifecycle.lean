import GoIpfs.OnlyOne

/-!
# Opening and closing a repo on disk

`fsrepo.Open` goes through the package's `OnlyOne`.  The `open` inside takes the
lockfile, makes the checks, creates the datastore and opens the keystore; a
deferred function drops the lockfile again if one of these steps fails.
`FSRepo.Close` closes the datastore and drops the lockfile.

What a call finds on disk, and which of its steps fail, is an argument of the call.
The world is what the calls leave behind: the lockfile, the datastores that are
open, and the `FSRepo` values.
-/

namespace RepoLifecycle

open Effects StepRun SharedRepo

/-! ### Datastores -/

/-- `DatastoreConfig`: a spec after reading.  `plugin` stands for the types that
`AddDatastoreConfigHandler` registers. -/
inductive DatastoreConfig where
  | mem
  | plugin (name : String)
  | log (child : DatastoreConfig) (name : String)
  | measure (child : DatastoreConfig) (pre : String)
  | mount (mounts : List (DatastoreConfig × String))

/-- A datastore that has been created.  The leaves carry the number under which the
world knows them. -/
inductive Datastore where
  | mem (n : Nat)
  | plugin (n : Nat)
  | log (child : Datastore) (name : String)
  | measure (child : Datastore) (pre : String)
  | mount (mounts : List (Datastore × String))

/-- `filestore.FileManager` -/
structure FileManager where
  allowFiles : Bool
  allowUrls : Bool

/-- `FSRepo` -/
structure FSRepo where
  closed : Bool
  path : String
  ds : Datastore
  filemgr : Option FileManager

/-- The lockfile, the leaf datastores that are open, how many have been asked for,
and the repos. -/
structure World where
  locked : Bool
  stores : List Nat
  asked : Nat
  repos : List FSRepo

abbrev RepoM (α : Type) := Prog String World α

def failing : Option String → RepoM Unit
  | none => pure ()
  | some e => throw e

/-- A leaf datastore is created, or it is not. -/
def createLeaf (fault : Nat → Option String) : RepoM Nat := do
  let w ← get
  modify fun w => { w with asked := w.asked + 1 }
  failing (fault w.asked)
  modify fun v => { v with stores := v.stores ++ [w.asked] }
  return w.asked

mutual

/-- `DatastoreConfig.Create`.  A datastore in memory cannot fail. -/
def create (fault : Nat → Option String) : DatastoreConfig → RepoM Datastore
  | .mem => do
      let n ← createLeaf fun _ => none
      return .mem n
  | .plugin _ => do
      let n ← createLeaf fault
      return .plugin n
  | .log child name => do
      let ds ← create fault child
      return .log ds name
  | .measure child pre => do
      let ds ← create fault child
      return .measure ds pre
  | .mount mounts => do
      let created ← createEach fault mounts
      return .mount created

/-- The loop of `mountDatastoreConfig.Create`. -/
def createEach (fault : Nat → Option String) :
    List (DatastoreConfig × String) → RepoM (List (Datastore × String))
  | [] => pure []
  | (c, pre) :: rest => do
      let ds ← create fault c
      let created ← createEach fault rest
      return (ds, pre) :: created

end

/-- What closing a leaf datastore does.  One that reports an error may have been
closed or not. -/
inductive CloseResult where
  | closed
  | failed (msg : String) (stillOpen : Bool)

def World.release (w : World) (n : Nat) : World :=
  { w with stores := w.stores.filter fun m => m ≠ n }

/-- `multierr.Append` -/
def appendErr : Option String → Option String → Option String
  | none, e => e
  | some e, none => some e
  | some e, some e' => some (e ++ "; " ++ e')

mutual

/-- `Datastore.Close`.  A mount closes all its datastores and collects their
errors. -/
def Datastore.close (result : Nat → CloseResult) :
    Datastore → World → Option String × World
  | .mem n, w => (none, w.release n)
  | .plugin n, w =>
    match result n with
    | .closed => (none, w.release n)
    | .failed msg true => (some msg, w)
    | .failed msg false => (some msg, w.release n)
  | .log child _, w => child.close result w
  | .measure child _, w => child.close result w
  | .mount mounts, w => closeEach result mounts w

def closeEach (result : Nat → CloseResult) :
    List (Datastore × String) → World → Option String × World
  | [], w => (none, w)
  | (ds, pre) :: rest, w =>
    let first := ds.close result w
    let others := closeEach result rest first.2
    (appendErr (first.1.map fun e => "closing datastore at " ++ pre ++ ": " ++ e) others.1,
      others.2)

end

/-! ### Opening -/

/-- `RepoVersion` -/
def repoVersion : Nat := 11

def migrationInstructions : String :=
  "See https://github.com/ipfs/fs-repo-migrations/blob/master/run.md\n" ++
    "Sorry for the inconvenience. In the future, these will run automatically."

def errNoVersion : String :=
  "no version file found, please run 0-to-1 migration tool.\n" ++ migrationInstructions

def errOldRepo : String :=
  "ipfs repo found in old '~/.go-ipfs' location, please run migration tool.\n" ++
    migrationInstructions

def errNeedMigration : String := "ipfs repo needs migration"

def programTooLowMessage (program repo : Nat) : String :=
  "Your programs version (" ++ toString program ++ ") is lower than your repos (" ++
    toString repo ++ ").\nPlease update ipfs to a version that supports the existing repo, " ++
    "or run\na migration in reverse.\n\n" ++
    "See https://github.com/ipfs/fs-repo-migrations/blob/master/run.md for details."

/-- `NoRepoError` -/
def noRepoError (path : String) : String :=
  "no IPFS repo found in " ++ path ++ ".\nplease run: 'ipfs init'"

/-- What reading the version file gives. -/
inductive VersionFile where
  | missing
  | unreadable (msg : String)
  | version (n : Nat)

/-- The part of the config that `open` reads. -/
structure Config (Spec : Type) where
  dsType : String
  dsPath : String
  spec : Option Spec
  filestoreEnabled : Bool
  urlstoreEnabled : Bool

/-- The reading of specs: `AnyDatastoreConfig`, and `DiskSpec().String()` of its
result. -/
structure SpecCode (Spec : Type) where
  anyDatastoreConfig : Spec → Except String DatastoreConfig
  diskSpec : DatastoreConfig → String

/-- What a call of `Open` meets. -/
structure OpenEnv (Spec : Type) where
  /-- `homedir.Expand(filepath.Clean(rpath))` -/
  expanded : Except String String
  /-- `isInitializedUnsynced` -/
  initialized : String → Bool
  /-- An error of `lockfile.Lock` other than that the lock is held. -/
  lock : Option String
  version : VersionFile
  /-- `dir.Writable` -/
  writable : Option String
  /-- `serialize.Load` -/
  config : Except String (Config Spec)
  readSpec : Except String String
  /-- Which leaf datastores cannot be created. -/
  creation : Nat → Option String
  keystore : Option String

variable {Spec : Type}

/-- `strings.Replace(s, old, new, 1)` for a nonempty `old`. -/
def replaceFirst (old new : List Char) : List Char → List Char
  | [] => []
  | c :: rest =>
    if old.isPrefixOf (c :: rest) then new ++ (c :: rest).drop old.length
    else c :: replaceFirst old new rest

def checkInitialized (env : OpenEnv Spec) (path : String) : RepoM Unit :=
  if env.initialized path then pure ()
  else if env.initialized
      (String.ofList (replaceFirst ".ipfs".toList ".go-ipfs".toList path.toList)) then
    throw errOldRepo
  else throw (noRepoError path)

/-- `lockfile.Lock` -/
def takeLock (env : OpenEnv Spec) (path : String) : RepoM Unit := do
  failing env.lock
  let w ← get
  if w.locked then throw ("lock " ++ path ++ "/repo.lock: lock is already held by us")
  else modify fun w => { w with locked := true }

def checkVersion : VersionFile → RepoM Unit
  | .missing => throw errNoVersion
  | .unreadable msg => throw msg
  | .version ver =>
    if ver < repoVersion then throw errNeedMigration
    else if repoVersion < ver then throw (programTooLowMessage repoVersion ver)
    else pure ()

def openDatastore (code : SpecCode Spec) (env : OpenEnv Spec) (config : Config Spec) :
    RepoM Datastore :=
  if config.dsType ≠ "" ∨ config.dsPath ≠ "" then
    throw "old style datatstore config detected"
  else
    match config.spec with
    | none => throw "required Datastore.Spec entry missing from config file"
    | some params => do
        let dsc ← ofResult (code.anyDatastoreConfig params)
        let oldSpec ← ofResult env.readSpec
        if oldSpec ≠ code.diskSpec dsc then
          throw ("datastore configuration of '" ++ oldSpec ++
            "' does not match what is on disk '" ++ code.diskSpec dsc ++ "'")
        else do
          let d ← create env.creation dsc
          return .measure d "ipfs.fsrepo.datastore"

/-- Make the `FSRepo` value; a pointer to it is its position. -/
def register (r : FSRepo) : RepoM Nat := do
  let w ← get
  modify fun w => { w with repos := w.repos ++ [r] }
  return w.repos.length

/-- `open` -/
def openRepo (code : SpecCode Spec) (env : OpenEnv Spec) : RepoM Nat := do
  let path ← ofResult env.expanded
  checkInitialized env path
  takeLock env path
  -- unlock on error, leave it locked on success
  onError (fun w => { w with locked := false }) do
    checkVersion env.version
    failing env.writable
    let config ← ofResult env.config
    let ds ← openDatastore code env config
    failing env.keystore
    register {
      closed := false
      path := path
      ds := ds
      filemgr :=
        if config.filestoreEnabled || config.urlstoreEnabled then
          some ⟨config.filestoreEnabled, config.urlstoreEnabled⟩
        else none }

/-- `FSRepo.Close`.  A failure to remove the api file is only logged. -/
def closeRepo (result : Nat → CloseResult) (i : Nat) : RepoM Unit := do
  let w ← get
  match w.repos[i]? with
  | none => pure ()
  | some r =>
    if r.closed then throw "repo is closed"
    else
      match r.ds.close result w with
      | (some e, w') => do
          modify fun _ => w'
          throw e
      | (none, w') =>
        modify fun _ =>
          { w' with
            repos := w'.repos.modify i fun r => { r with closed := true }
            locked := false }

/-! ### Sequences of calls on one path -/

inductive Action (Spec : Type) where
  | opens (env : OpenEnv Spec)
  /-- `Close` on an outstanding handle. -/
  | closes (h : Nat) (result : Nat → CloseResult)

abbrev State := System String Nat World

def step (code : SpecCode Spec) (path : String) (s : State) : Action Spec → Option State
  | .opens env => some (s.openKey path (openRepo code env)).2
  | .closes h result =>
    if h ∈ s.handles then some (s.closeHandle h (closeRepo result)).2 else none

def fresh : State := ⟨⟨[], []⟩, ⟨false, [], 0, []⟩, []⟩

/-- No step of the call fails. -/
structure OpenEnv.Faultless (code : SpecCode Spec) (env : OpenEnv Spec) : Prop where
  expanded : ∃ path, env.expanded = .ok path ∧ env.initialized path = true
  lock : env.lock = none
  version : env.version = .version repoVersion
  writable : env.writable = none
  config : ∃ config params dsc, env.config = .ok config ∧ config.dsType = "" ∧
    config.dsPath = "" ∧ config.spec = some params ∧
    code.anyDatastoreConfig params = .ok dsc ∧ env.readSpec = .ok (code.diskSpec dsc)
  creation : ∀ n, env.creation n = none
  keystore : env.keystore = none

/-- **Everything is released.**  The lockfile is not held, no datastore is open, and
an `Open` on which no step fails succeeds. -/
def Released (code : SpecCode Spec) (path : String) (s : State) : Prop :=
  s.world.locked = false ∧ s.world.stores = [] ∧
    ∀ env : OpenEnv Spec, env.Faultless code →
      ∃ h, (s.openKey path (openRepo code env)).1 = .ok h

def oneStore : SpecCode Unit := ⟨fun _ => .ok (.plugin "flatfs"), fun _ => "flatfs"⟩

def noFault : OpenEnv Unit where
  expanded := .ok "/repo"
  initialized := fun _ => true
  lock := none
  version := .version repoVersion
  writable := none
  config := .ok ⟨"", "", some (), false, false⟩
  readSpec := .ok "flatfs"
  creation := fun _ => none
  keystore := none

/-- The datastore reports an error when the only handle is closed. -/
def closeFails : List (Action Unit) :=
  [.opens noFault, .closes 0 fun _ => .failed "sync: input/output error" false]

/-- **A failed `Close` keeps the lockfile.**  The registry has already forgotten the
repo, so no later call can release it. -/
theorem closeFails_keeps_lock :
    ∃ s, run (step oneStore "/repo") fresh closeFails = some s ∧ s.handles = [] ∧
      s.world.locked = true ∧ ¬ Released oneStore "/repo" s := by
  obtain ⟨s, hrun, hs⟩ : ∃ s, run (step oneStore "/repo") fresh closeFails = some s ∧
      (s.handles.isEmpty && s.world.locked) = true := exists_run_of_any (by decide)
  rw [Bool.and_eq_true] at hs
  refine ⟨s, hrun, List.isEmpty_iff.mp hs.1, hs.2, ?_⟩
  intro hreleased
  have hfree := hreleased.1
  rw [hs.2] at hfree
  cases hfree

/-- The condition on a step: an `Open` opens the keystore and creates every
datastore but, possibly, the first; a `Close` closes every datastore. -/
def Contained (s : State) : Action Spec → Prop
  | .opens env => env.keystore = none ∧ ∀ n, s.world.asked < n → env.creation n = none
  | .closes _ result => ∀ n, result n = .closed

end RepoLifecycle
