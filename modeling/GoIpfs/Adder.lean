import GoIpfs.Mfs

/-!
# The adder

`coreunix.Adder` (`core/coreunix/add.go`): it walks a tree of files, imports
each file into the DAG and links it into an MFS of its own.  The adder holds
the pin lock; before each node of the tree it asks whether a collection is
waiting, and if so it pins the root built so far, releases the lock and takes
it again.  A collection runs exactly while the lock is released.

The fields `completed`, `due` and `releases` of the state only record what
happens: the nodes whose `addFile` or `addSymlink` has returned, those that had
at the latest pause, and the pins at each release of the lock.
-/

namespace CoreUnix

open Effects LinkReach Mfs

mutual

/-- A `files.Node`. -/
inductive FileNode (File : Type) where
  | file (f : File)
  | symlink (target : String)
  | directory (entries : DirIterator File)
  | unknown

/-- A `files.DirIterator` with the error it ends with. -/
inductive DirIterator (File : Type) where
  | done (err : Option String)
  | next (name : String) (node : FileNode File) (rest : DirIterator File)

end

/-- `_, dir := file.(files.Directory)`. -/
def FileNode.isDirectory {File : Type} : FileNode File → Bool
  | .directory _ => true
  | _ => false

variable {Cid File : Type} [DecidableEq Cid]

def linksWithin (u : Unixfs Cid) (store : Finset Cid) (c : Cid) : List Cid :=
  if c ∈ store then u.links c else []

/-- What the adder works with: the DAG service, the importer, its switches,
and the collections: `gcRequested n` answers the `n`-th question and
`collect n` is what the collection of that pause leaves of the store.  The last
three fields are what importer and collector promise. -/
structure Env (Cid File : Type) [DecidableEq Cid] extends Services Cid where
  /-- Chunker and layout: the root of a file's DAG and all its blocks. -/
  layout : File → Except String (Cid × List Cid)
  symlinkNode : String → Except String Cid
  cidString : Cid → String
  pin : Bool
  liveCacheSize : Nat
  gcRequested : Nat → Bool
  collect : Nat → Finset Cid → Finset Cid → Finset Cid
  layout_dag : ∀ {f node blocks}, layout f = .ok (node, blocks) →
    kind node = .file ∧ ∀ k, Reach links node k → k ∈ blocks
  symlink_dag : ∀ {target node}, symlinkNode target = .ok node →
    kind node = .file ∧ links node = []
  collect_spares : ∀ n pins store, ∀ k ∈ store, k ∉ collect n pins store →
    ∀ r ∈ pins, ¬ Reach (linksWithin toUnixfs store) r k

inductive AddError where
  | mfs (err : MfsError)
  | layout (msg : String)
  | symlink (msg : String)
  | iterator (msg : String)
  | notPinned
  | noChild
  | unknownFileType
  deriving DecidableEq, Repr

/-- The recursive pins when the pin lock is released, and the files that were
completed before the latest pause. -/
structure Release (Cid : Type) where
  pins : Finset Cid
  due : List Cid

/-- The adder with the blockstore and the recursive pins it works on. -/
structure Adder (Cid : Type) where
  dag : Dag Cid
  pins : Finset Cid
  mroot : Option (Directory Cid)
  tempRoot : Option Cid
  liveNodes : Nat
  /-- The adder holds the pin lock. -/
  unlocker : Bool
  /-- How often `maybePauseForGC` has been called. -/
  queries : Nat
  completed : List Cid
  due : List Cid
  releases : List (Release Cid)

abbrev AddM (Cid α : Type) := Prog AddError (Adder Cid) α

/-- `NewAdder` on a blockstore and a pin set. -/
def newAdder (dag : Dag Cid) (pins : Finset Cid) : Adder Cid where
  dag := dag
  pins := pins
  mroot := none
  tempRoot := none
  liveNodes := 0
  unlocker := false
  queries := 0
  completed := []
  due := []
  releases := []

def onDag {α : Type} (m : DagM Cid α) : AddM Cid α :=
  ExceptT.mk fun s =>
    ((exec m s.dag).1.mapError .mfs, { s with dag := (exec m s.dag).2 })

/-- `Adder.mfsRoot`. -/
def mfsRoot : AddM Cid (Directory Cid) := do
  match (← get).mroot with
  | some root => pure root
  | none =>
    modify fun s => { s with mroot := some .empty }
    pure .empty

/-- `Adder.curRootNode`: a root with one link gives way to its only child. -/
def curRootNode (env : Env Cid File) : AddM Cid Cid := do
  let mr ← mfsRoot
  let (root, mr') ← onDag (mr.getNode env.toServices)
  modify fun s => { s with mroot := some mr' }
  match env.links root with
  | [only] => if only ∈ (← get).dag.store then pure only else throw (.mfs .notFound)
  | _ => pure root

/-- `Pinner.Unpin` of a recursive pin. -/
def unpin (c : Cid) : AddM Cid Unit := do
  if c ∈ (← get).pins then modify fun s => { s with pins := s.pins.erase c }
  else throw .notPinned

/-- `Adder.PinRoot`.  The temporary root is only replaced where there is one
already. -/
def pinRoot (env : Env Cid File) (root : Cid) : AddM Cid Unit := do
  if env.pin then
    onDag (dagAdd env.toServices [root])
    match (← get).tempRoot with
    | some temp =>
      unpin temp
      modify fun s => { s with tempRoot := some root }
    | none => pure ()
    modify fun s => { s with pins := insert root s.pins }
    onDag (serviceCall env.toServices)
  else pure ()

def Adder.release (s : Adder Cid) : Adder Cid :=
  { s with releases := s.releases ++ [⟨s.pins, s.due⟩] }

/-- The lock is released, a collection runs, and the lock is taken again. -/
def Adder.pause (env : Env Cid File) (n : Nat) (s : Adder Cid) : Adder Cid :=
  let s := { s with due := s.completed }.release
  { s with dag := { s.dag with store := env.collect n s.pins s.dag.store } }

/-- `Adder.maybePauseForGC`. -/
def maybePauseForGC (env : Env Cid File) : AddM Cid Unit := do
  let s ← get
  modify fun s => { s with queries := s.queries + 1 }
  if s.unlocker && env.gcRequested s.queries then
    let rn ← curRootNode env
    pinRoot env rn
    modify fun t => t.pause env s.queries
  else pure ()

/-- What `addFileNode` does before it looks at the node: pause for a
collection, and flush the MFS when too many nodes are live. -/
def beforeNode (env : Env Cid File) : AddM Cid Unit := do
  maybePauseForGC env
  if env.liveCacheSize ≤ (← get).liveNodes then
    let mr ← mfsRoot
    let mr' ← onDag (flushMemFree env.toServices mr)
    modify fun s => { s with mroot := some mr', liveNodes := 0 }
  else pure ()
  modify fun s => { s with liveNodes := s.liveNodes + 1 }

/-- A node without a path is named after its CID. -/
def nodePath (env : Env Cid File) (node : Cid) (path : String) : String :=
  if path = "" then env.cidString node else path

/-- Make the directory of a path, unless it is the current one. -/
def mkParent (env : Env Cid File) (path : String) (mr : Directory Cid) : AddM Cid (Directory Cid) :=
  if GoPath.dir path = "." then pure mr
  else onDag (mkdir env.toServices (GoPath.dir path) mr)

/-- `Adder.addNode`: link a node into the MFS under its path. -/
def addNode (env : Env Cid File) (node : Cid) (path : String) : AddM Cid Unit := do
  let mr ← mfsRoot
  let mr₁ ← mkParent env (nodePath env node path) mr
  let mr₂ ← onDag (putNode env.toServices (nodePath env node path) node mr₁)
  modify fun s => { s with mroot := some mr₂ }

/-- `Adder.addFile`: import the file, commit the buffered blocks and link the
node. -/
def addFile (env : Env Cid File) (path : String) (f : File) : AddM Cid Unit := do
  match env.layout f with
  | .error msg => throw (.layout msg)
  | .ok (node, blocks) =>
    onDag (dagAdd env.toServices blocks)
    addNode env node path
    modify fun s => { s with completed := node :: s.completed }

/-- `Adder.addSymlink`. -/
def addSymlink (env : Env Cid File) (path target : String) : AddM Cid Unit := do
  match env.symlinkNode target with
  | .error msg => throw (.symlink msg)
  | .ok node =>
    onDag (dagAdd env.toServices [node])
    addNode env node path
    modify fun s => { s with completed := node :: s.completed }

/-- The first half of `Adder.addDir`: the directory itself, unless it is the
root. -/
def makeDir (env : Env Cid File) (path : String) (toplevel : Bool) : AddM Cid Unit :=
  if toplevel && path = "" then pure ()
  else do
    let mr ← mfsRoot
    let mr' ← onDag (mkdir env.toServices path mr)
    modify fun s => { s with mroot := some mr' }

mutual

/-- `Adder.addFileNode`, with `Adder.addDir` in the case of a directory. -/
def addFileNode (env : Env Cid File) (path : String) (toplevel : Bool) :
    FileNode File → AddM Cid Unit
  | .file f => do
      beforeNode env
      addFile env path f
  | .symlink target => do
      beforeNode env
      addSymlink env path target
  | .directory entries => do
      beforeNode env
      makeDir env path toplevel
      addEntries env path entries
  | .unknown => do
      beforeNode env
      throw .unknownFileType

/-- The loop of `Adder.addDir`. -/
def addEntries (env : Env Cid File) (path : String) : DirIterator File → AddM Cid Unit
  | .done none => pure ()
  | .done (some msg) => throw (.iterator msg)
  | .next name node rest => do
      addFileNode env (GoPath.join path name) false node
      addEntries env path rest

end

/-- The node that `AddAllAndPin` returns: the MFS root, or its child `name`. -/
def rootFSNode (env : Env Cid File) (name : Option String) (mr : Directory Cid) :
    AddM Cid (FSNode Cid × Directory Cid) := do
  match name with
  | none => pure (.dir mr, mr)
  | some name =>
    match mr.child env.toServices (← get).dag.store name with
    | .ok r => pure r
    | .error err => throw (.mfs err)

/-- `FSNode.GetNode`. -/
def fsnGetNode (env : Env Cid File) : FSNode Cid → AddM Cid Cid
  | .file node => pure node
  | .dir d => do
      let (node, _) ← onDag (d.getNode env.toServices)
      pure node

/-- The first name of `ListNames`, for a file added without a directory. -/
def rootName (file : FileNode File) (mr : Directory Cid) : AddM Cid (Option String) :=
  if file.isDirectory then pure none
  else
    match mr.entries with
    | [] => throw .noChild
    | (name, _) :: _ => pure (some name)

/-- The body of `Adder.AddAllAndPin`.  `outputDirs` and the `Sync` of the DAG
service change nothing here but may fail. -/
def addAll (env : Env Cid File) (file : FileNode File) : AddM Cid Cid := do
  addFileNode env "" true file
  let mr ← mfsRoot
  let (node, mr₁) ← onDag (mr.getNode env.toServices)
  onDag (dagAdd env.toServices [node])
  let name ← rootName file mr₁
  let (_, mr₂) ← rootFSNode env name mr₁
  let (_, mr₃) ← onDag (mr₂.getNode env.toServices)
  let (root, _) ← rootFSNode env name mr₃
  let nd ← fsnGetNode env root
  onDag (serviceCall env.toServices)
  pinRoot env nd
  pure nd

/-- `Adder.AddAllAndPin`: the lock is taken first and released at the end,
whatever the result. -/
def addAllAndPin (env : Env Cid File) (file : FileNode File) (s : Adder Cid) :
    Except AddError Cid × Adder Cid :=
  let (r, t) := exec (addAll env file) { s with unlocker := env.pin }
  (r, if t.unlocker then t.release else t)

end CoreUnix
