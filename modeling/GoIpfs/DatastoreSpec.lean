import GoIpfs.GoJsonText
import GoIpfs.GoPath

/-!
# Datastore specs and what of them is on disk

`AnyDatastoreConfig` reads the spec of a datastore, a tree of maps, and
`DiskSpec` says what of it concerns the data on disk.  `initSpec` writes that to
a file when a repo is created; `openDatastore` refuses a config whose disk spec
has another text.
-/

namespace DatastoreSpec

open GoJson

/-- How reading a spec fails; a type assertion may panic. -/
inductive Failure where
  | err (text : String)
  | panic
  deriving DecidableEq, Repr

/-- What the disk spec of a leaf datastore consists of: a map, whose numbers are
printed as numbers. -/
abbrev DiskMap := { m : Members // Canonical (.obj m) ∧ Numeric (.obj m) }

/-- A `DatastoreConfig`.  A leaf is known by its disk spec. -/
inductive Config where
  | mount (mounts : List (String × Config))
  | mem
  | log (child : Config) (name : String)
  | measure (child : Config) (pre : String)
  | leaf (spec : Option DiskMap)

/-- What the specs depend on: the leaf datastores, which read their own fields but
not where they are mounted, `sort.Slice` by decreasing prefixes, which sees
nothing but the prefixes, and the creation of a datastore. -/
structure Lib where
  leaf : String → Option (Members → Except Failure (Option DiskMap))
  leaf_congr : ∀ {which parse}, leaf which = some parse → ∀ {m m' : Members},
    (∀ k, k ≠ "mountpoint" → m.lookup k = m'.lookup k) → parse m = parse m'
  sort : {α : Type} → List (String × α) → List (String × α)
  sort_perm : ∀ {α : Type} (l : List (String × α)), (sort l).Perm l
  sort_pairwise : ∀ {α : Type} (l : List (String × α)), (sort l).Pairwise fun a b => ¬ a.1 < b.1
  sort_map : ∀ {α β : Type} (f : α → β) (l : List (String × α)),
    sort (l.map fun e => (e.1, f e.2)) = (sort l).map fun e => (e.1, f e.2)
  create : Config → Except Failure Unit

/-- The text of `ds.NewKey`. -/
def newKey (s : String) : String :=
  if s = "" then "/"
  else if s.toList.head? = some '/' then GoPath.clean s
  else GoPath.clean ("/" ++ s)

/-- The assertion to a map. -/
def isMap : Json → Bool
  | .obj _ => true
  | _ => false

def mountpoint : Json → Except Failure String
  | .obj cfg =>
    match cfg.lookup "mountpoint" with
    | none => .error (.err "no 'mountpoint' on mount")
    | some (.str s) => .ok s
    | some _ => .error .panic
  | _ => .error (.err "expected map for mountpoint")

/-- The field of a log or measure datastore that is its own. -/
def stringField (params : Members) (name : String) : Except Failure String :=
  match params.lookup name with
  | some (.str s) => .ok s
  | _ => .error (.err ("'" ++ name ++ "' field was missing or not a string"))

section Parse

variable (lib : Lib)

mutual

/-- `AnyDatastoreConfig`, with the functions of the four types it knows itself. -/
def anyDatastoreConfig : Json → Except Failure Config
  | .obj params =>
    match params.lookup "type" with
    | some (.str which) =>
      if which = "mount" then
        (mountsField params).map fun mounts => .mount (lib.sort mounts)
      else if which = "mem" then .ok .mem
      else if which = "log" then do
        let child ← childField params
        let name ← stringField params "name"
        .ok (.log child name)
      else if which = "measure" then do
        let child ← childField params
        let pre ← stringField params "prefix"
        .ok (.measure child pre)
      else
        match lib.leaf which with
        | some parse => (parse params).map .leaf
        | none => .error (.err ("unknown datastore type: " ++ which))
    | _ => .error (.err "'type' field missing or not a string")
  | _ => .error .panic

def childField : Members → Except Failure Config
  | [] => .error (.err "'child' field is missing or not a map")
  | (k, j) :: rest =>
    if k = "child" then
      if isMap j then anyDatastoreConfig j
      else .error (.err "'child' field is missing or not a map")
    else childField rest

def mountsField : Members → Except Failure (List (String × Config))
  | [] => .error (.err "'mounts' field is missing or not an array")
  | (k, j) :: rest => if k = "mounts" then mountsArray j else mountsField rest

def mountsArray : Json → Except Failure (List (String × Config))
  | .arr items => premounts items
  | _ => .error (.err "'mounts' field is missing or not an array")

/-- The loop of `MountDatastoreConfig`. -/
def premounts : List Json → Except Failure (List (String × Config))
  | [] => .ok []
  | j :: rest => do
      let child ←
        if isMap j then anyDatastoreConfig j else .error (.err "expected map for mountpoint")
      let pre ← mountpoint j
      let mounts ← premounts rest
      .ok ((newKey pre, child) :: mounts)

end

end Parse

mutual

/-- `DiskSpec`; `none` is a nil map. -/
def diskSpec : Config → Option Members
  | .mount mounts => some (setKey "mounts" (.arr (mountSpecs mounts)) [("type", .str "mount")])
  | .mem => none
  | .log child _ => diskSpec child
  | .measure child _ => diskSpec child
  | .leaf spec => spec.map Subtype.val

def mountSpecs : List (String × Config) → List Json
  | [] => []
  | (pre, c) :: rest =>
    .obj (setKey "mountpoint" (.str pre) ((diskSpec c).getD [])) :: mountSpecs rest

end

/-- `unicode.IsSpace`. -/
def isSpace (c : Char) : Bool :=
  c.toNat ∈ [0x09, 0x0a, 0x0b, 0x0c, 0x0d, 0x20, 0x85, 0xa0, 0x1680, 0x2028, 0x2029, 0x202f,
    0x205f, 0x3000] || (0x2000 ≤ c.toNat && c.toNat ≤ 0x200a)

/-- `strings.TrimSpace`. -/
def trimSpace (s : String) : String :=
  String.ofList ((s.toList.dropWhile isSpace).reverse.dropWhile isSpace).reverse

def specValue : Option Members → Json
  | none => .null
  | some m => .obj m

/-- `DiskSpec.String`. -/
def specString (spec : Option Members) : String := trimSpace (text (specValue spec))

section Repo

variable (lib : Lib)

/-- The calls of the file system that fail. -/
structure Faults where
  path : Option String := none
  write : Option String := none
  read : Option String := none

structure DatastoreConf where
  type : String := ""
  path : String := ""
  spec : Option Members

/-- `initSpec`: the content of the spec file afterwards. -/
def initSpec (faults : Faults) (file : Option String) (conf : Members) : Except Failure String :=
  match faults.path with
  | some e => .error (.err e)
  | none =>
    match file with
    | some content => .ok content
    | none => do
        let dsc ← anyDatastoreConfig lib (.obj conf)
        match faults.write with
        | some e => .error (.err e)
        | none => .ok (specString (diskSpec dsc))

def readSpec (faults : Faults) (file : Option String) : Except Failure String :=
  match faults.path with
  | some e => .error (.err e)
  | none =>
    match faults.read, file with
    | some e, _ => .error (.err e)
    | none, none => .error (.err "no such file or directory")
    | none, some content => .ok (trimSpace content)

def openDatastore (faults : Faults) (file : Option String) (conf : DatastoreConf) :
    Except Failure Unit :=
  if conf.type ≠ "" ∨ conf.path ≠ "" then
    .error (.err "old style datatstore config detected")
  else
    match conf.spec with
    | none => .error (.err "required Datastore.Spec entry missing from config file")
    | some params => do
        let dsc ← anyDatastoreConfig lib (.obj params)
        let oldSpec ← readSpec faults file
        if oldSpec ≠ specString (diskSpec dsc) then
          .error (.err ("datastore configuration of '" ++ oldSpec ++
            "' does not match what is on disk '" ++ specString (diskSpec dsc) ++ "'"))
        else lib.create dsc

end Repo

end DatastoreSpec
