import GoIpfs.Effects
import GoIpfs.GoPath
import GoIpfs.LinkReach
import Mathlib.Data.Finset.Basic
import Mathlib.Data.String.Basic

/-!
# The mutable file system

The part of `go-mfs` that the add path uses.  A `Directory` keeps the links of
its UnixFS node together with `entriesCache`, the subdirectories that have been
opened or created since; both maps are one list here, so a cached child always
has a link, which may be stale until `sync` renews it.  A cached `File` holds
the node its link points to and is left out.  The list is in the order of names,
in which `EncodeProtobuf` sorts the links of a node.

`Unixfs` is the DAG layer below: how a directory node is built from its
entries, which blocks that takes, and what a block is when it is read back.
It covers basic directories and HAMT shards alike.
-/

namespace Mfs

open Effects LinkReach

variable {Cid : Type} [DecidableEq Cid]

/-- What `cacheNode` makes of a node: a file (or symlink or raw leaf), a
directory with its entries, or something it rejects. -/
inductive Kind (Cid : Type) where
  | file
  | dir (entries : List (String × Cid))
  | other

/-- Every name once, and in order. -/
def ByName (entries : List (String × Cid)) : Prop := entries.Pairwise fun a b => a.1 < b.1

/-- The DAG layer.  The fields after the first four state what a UnixFS
directory is: it reads back as its entries in the order of names, each entry
lies properly below it, and apart from its own blocks only its entries' DAGs do. -/
structure Unixfs (Cid : Type) where
  links : Cid → List Cid
  kind : Cid → Kind Cid
  dirNode : List (String × Cid) → Cid
  /-- The blocks `unixfsDir.GetNode` stores beside the node: the shards. -/
  dirBlocks : List (String × Cid) → List Cid
  kind_dirNode : ∀ {entries}, ByName entries → kind (dirNode entries) = .dir entries
  entry_below : ∀ {c entries}, kind c = .dir entries → ∀ e ∈ entries,
    ∃ x ∈ links c, Reach links x e.2
  below_dirNode : ∀ {entries k}, Reach links (dirNode entries) k →
    k = dirNode entries ∨ k ∈ dirBlocks entries ∨ ∃ e ∈ entries, Reach links e.2 k

/-- A `Directory` object: its links by name, each with the cached subdirectory
if there is one. -/
inductive Directory (Cid : Type) where
  | empty
  | link (name : String) (node : Cid) (rest : Directory Cid)
  | cached (name : String) (node : Cid) (dir rest : Directory Cid)
  deriving DecidableEq, Repr

/-- An `FSNode`. -/
inductive FSNode (Cid : Type) where
  | file (node : Cid)
  | dir (d : Directory Cid)

inductive MfsError where
  | notExist
  | notFound
  | invalidChild
  | notDirectory
  | exist
  | dirExists
  | emptyName
  | noPath
  | service (msg : String)
  deriving DecidableEq, Repr

/-- The DAG service: the blockstore, and the number of calls so far. -/
structure Dag (Cid : Type) where
  store : Finset Cid
  calls : Nat

/-- The DAG layer with the calls that fail. -/
structure Services (Cid : Type) extends Unixfs Cid where
  fault : Nat → Option String

abbrev DagM (Cid α : Type) := Prog MfsError (Dag Cid) α

/-- A call of a service, which may fail. -/
def serviceCall (srv : Services Cid) : DagM Cid Unit := do
  let dag ← get
  modify fun dag => { dag with calls := dag.calls + 1 }
  match srv.fault dag.calls with
  | some msg => throw (.service msg)
  | none => pure ()

/-- `dagService.Add` of some blocks. -/
def dagAdd (srv : Services Cid) (blocks : List Cid) : DagM Cid Unit := do
  serviceCall srv
  modify fun dag => { dag with store := dag.store ∪ blocks.toFinset }

namespace Directory

/-- The links of the directory's UnixFS node. -/
def entries : Directory Cid → List (String × Cid)
  | .empty => []
  | .link name node rest => (name, node) :: rest.entries
  | .cached name node _ rest => (name, node) :: rest.entries

/-- `NewDirectory` on the node of a directory. -/
def ofEntries : List (String × Cid) → Directory Cid
  | [] => .empty
  | (name, node) :: rest => .link name node (ofEntries rest)

/-- The entry of a name: a cached subdirectory or only a link. -/
def find? (name : String) : Directory Cid → Option (Cid ⊕ Directory Cid)
  | .empty => none
  | .link n node rest => if n = name then some (.inl node) else rest.find? name
  | .cached n _ dir rest => if n = name then some (.inr dir) else rest.find? name

/-- Put a subdirectory into the cache under the name of an existing link. -/
def setCached : Directory Cid → String → Directory Cid → Directory Cid
  | .empty, _, _ => .empty
  | .link n node rest, name, sub =>
    if n = name then .cached n node sub rest else .link n node (rest.setCached name sub)
  | .cached n node dir rest, name, sub =>
    if n = name then .cached n node sub rest
    else .cached n node dir (rest.setCached name sub)

def remove (name : String) : Directory Cid → Directory Cid
  | .empty => .empty
  | .link n node rest =>
    if n = name then rest.remove name else .link n node (rest.remove name)
  | .cached n node dir rest =>
    if n = name then rest.remove name else .cached n node dir (rest.remove name)

/-- Put a new link at its place. -/
def insert (name : String) (link : Directory Cid → Directory Cid) : Directory Cid → Directory Cid
  | .empty => link .empty
  | .link n node rest =>
    if name < n then link (.link n node rest) else .link n node (rest.insert name link)
  | .cached n node dir rest =>
    if name < n then link (.cached n node dir rest)
    else .cached n node dir (rest.insert name link)

/-- `Directory.childUnsync`: the cache first, then the DAG. -/
def child (srv : Services Cid) (store : Finset Cid) (name : String)
    (d : Directory Cid) : Except MfsError (FSNode Cid × Directory Cid) :=
  match d.find? name with
  | none => .error .notExist
  | some (.inr sub) => .ok (.dir sub, d)
  | some (.inl node) =>
    if node ∈ store then
      match srv.kind node with
      | .file => .ok (.file node, d)
      | .dir entries => .ok (.dir (ofEntries entries), d.setCached name (ofEntries entries))
      | .other => .error .invalidChild
    else .error .notFound

/-- The second half of `Directory.Mkdir`: a new empty directory replaces
whatever link the name had. -/
def create (srv : Services Cid) (name : String) (d : Directory Cid) :
    DagM Cid (Directory Cid) := do
  dagAdd srv [srv.dirNode []]
  pure ((d.remove name).insert name (.cached name (srv.dirNode []) .empty))

/-- `Directory.AddChild`: only a child that can be opened counts as existing. -/
def addChild (srv : Services Cid) (name : String) (node : Cid) (d : Directory Cid) :
    DagM Cid (Directory Cid) := do
  match d.child srv (← get).store name with
  | .ok _ => throw .dirExists
  | .error _ =>
    dagAdd srv [node]
    pure ((d.remove name).insert name (.link name node))

/-- The loop of `mfs.Mkdir` with `Mkparents`; the last part goes through
`Directory.Mkdir`, which creates the directory after any failure to open it. -/
def mkdirAll (srv : Services Cid) : List String → Directory Cid → DagM Cid (Directory Cid)
  | [], d => pure d
  | [part], d => do
      match d.child srv (← get).store part with
      | .ok (.dir _, d') => pure d'
      | .ok (.file _, _) => throw .exist
      | .error _ => d.create srv part
  | part :: parts, d => do
      match d.child srv (← get).store part with
      | .ok (.dir sub, d') =>
        let sub' ← sub.mkdirAll srv parts
        pure (d'.setCached part sub')
      | .ok (.file _, _) => throw .notDirectory
      | .error .notExist =>
        let d' ← d.create srv part
        let sub' ← (.empty : Directory Cid).mkdirAll srv parts
        pure (d'.setCached part sub')
      | .error err => throw err

/-- `DirLookup` down to a directory, then `AddChild` there. -/
def putAt (srv : Services Cid) (name : String) (node : Cid) : List String →
    Directory Cid → DagM Cid (Directory Cid)
  | [], d => d.addChild srv name node
  | part :: parts, d => do
      match d.child srv (← get).store part with
      | .ok (.dir sub, d') =>
        let sub' ← sub.putAt srv name node parts
        pure (d'.setCached part sub')
      | .ok (.file _, _) => throw .notDirectory
      | .error err => throw err

/-- The end of `Directory.GetNode`: build the node from the entries and store
it. -/
def storeNode (srv : Services Cid) (d : Directory Cid) : DagM Cid Cid := do
  dagAdd srv (srv.dirNode d.entries :: srv.dirBlocks d.entries)
  pure (srv.dirNode d.entries)

/-- `Directory.sync`: every cached subdirectory is stored (`GetNode`) and its
link renewed. -/
def sync (srv : Services Cid) : Directory Cid → DagM Cid (Directory Cid)
  | .empty => pure .empty
  | .link name node rest => do
      let rest' ← rest.sync srv
      pure (.link name node rest')
  | .cached name _ dir rest => do
      let dir' ← dir.sync srv
      let node ← dir'.storeNode srv
      let rest' ← rest.sync srv
      pure (.cached name node dir' rest')

/-- `Directory.GetNode`. -/
def getNode (srv : Services Cid) (d : Directory Cid) :
    DagM Cid (Cid × Directory Cid) := do
  let d' ← d.sync srv
  let node ← d'.storeNode srv
  pure (node, d')

/-- Drop every cached child, as `FlushMemFree` does. -/
def uncacheAll : Directory Cid → Directory Cid
  | .empty => .empty
  | .link name node rest => .link name node rest.uncacheAll
  | .cached name node _ rest => .link name node rest.uncacheAll

end Directory

/-- The parts of a path as `mfs.Mkdir` counts them. -/
def mkdirParts (path : String) : List String :=
  let parts := GoPath.splitList path
  let parts := if parts.head? = some "" then parts.tail else parts
  if parts.getLast? = some "" then parts.dropLast else parts

/-- `mfs.Mkdir` with `Mkparents` and without `Flush`. -/
def mkdir (srv : Services Cid) (path : String) (root : Directory Cid) : DagM Cid (Directory Cid) :=
  if path = "" then throw .noPath
  else root.mkdirAll srv (mkdirParts path)

/-- The parts of a path as `DirLookup` counts them. -/
def lookupParts (path : String) : List String :=
  let parts := GoPath.splitList (GoPath.trim path)
  if parts = [""] then [] else parts

/-- `mfs.PutNode`. -/
def putNode (srv : Services Cid) (path : String) (node : Cid) (root : Directory Cid) :
    DagM Cid (Directory Cid) :=
  let (dirp, filename) := GoPath.split path
  if filename = "" then throw .emptyName
  else root.putAt srv filename node (lookupParts dirp)

/-- `Root.FlushMemFree`: the flush of the root directory stores its node, the
root stores it once more (`updateChildEntry`), and the cache is dropped. -/
def flushMemFree (srv : Services Cid) (root : Directory Cid) :
    DagM Cid (Directory Cid) := do
  let (node, root') ← root.getNode srv
  dagAdd srv [node]
  pure root'.uncacheAll

end Mfs
