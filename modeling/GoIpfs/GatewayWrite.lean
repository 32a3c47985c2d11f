import GoIpfs.AdderPins
import GoIpfs.GoPathParts
import GoIpfs.MfsResolve

/-!
# Writing through the gateway

`putHandler` and `deleteHandler` of a writable gateway.  Each loads the tree of a
root CID, changes one path of it through an MFS and answers with the CID of the
new tree.  The MFS is a store of file trees here; every call of it and of the DAG
service may fail, as `Env.fault` says.

A handler answers once: with the new tree when no step has failed, and with an
error otherwise.  The exception is the last step of `deleteHandler`, which writes
its error and does not return: the node it goes on with is nil
(`GatewayWriteOutcome`).
-/

namespace GatewayWrite

open Effects GoPath
open Mfs (mkdirParts lookupParts)
open Mfs.Tree (resolve IsDir updateAt putHere eraseHere)

variable {Cid Body α : Type}

/-! ## Errors and answers -/

/-- The errors of the steps.  `webError` tells the first three from the others,
the handlers tell `os.ErrNotExist`. -/
inductive Err where
  | noLink (text : String)
  | routingNotFound
  | deadlineExceeded
  | notExist
  | other (text : String)
  deriving DecidableEq, Repr

def Err.text : Err → String
  | .noLink text => text
  | .routingNotFound => "routing: not found"
  | .deadlineExceeded => "context deadline exceeded"
  | .notExist => "file does not exist"
  | .other text => text

/-- An error of a service; only an MFS that has looked answers `os.ErrNotExist`. -/
abbrev Fault := { e : Err // e ≠ .notExist }

/-- What has been written to the `ResponseWriter`. -/
structure Response where
  code : Option Nat := none
  body : String := ""
  ipfsHash : Option String := none
  location : Option String := none
  deriving DecidableEq, Repr

/-- The steps of the two handlers that may fail. -/
inductive Step where
  | getRoot
  | asProtobuf
  | add
  | getFile
  | newRoot
  | mkdir
  | lookup
  | asDirectory
  | unlink
  | addChild
  | getNode
  deriving DecidableEq, Repr

/-- The state of a handler: the tree of its MFS, the steps that have failed, what
has been answered, and whether it has panicked. -/
structure Server (Cid : Type) where
  tree : Mfs.Tree Cid := .empty
  failed : List Step := []
  response : Response := {}
  panicked : Bool := false
  deriving DecidableEq, Repr

/-- A handler, which may return early. -/
abbrev HandlerM (Cid α : Type) := Prog Unit (Server Cid) α

/-- The node behind a CID: not a protobuf node, a protobuf node from which
`NewRoot` makes no directory, or the node of a file tree. -/
inductive RootNode (Cid : Type) where
  | other
  | file (text : String)
  | dir (t : Mfs.Tree Cid)
  deriving DecidableEq, Repr

/-- What the handlers call: CIDs as text, the nodes behind them, the layout of an
uploaded file and of a directory, and the calls that fail. -/
structure Env (Cid Body : Type) where
  decode : String → Except String Cid
  string : Cid → String
  quote : String → String
  node : Cid → RootNode Cid
  fileNode : Body → Cid
  dirNode : List (String × Cid) → Cid
  fault : Step → Option Fault

/-- `http.Error`; the status line is written once. -/
def httpError (error : String) (code : Nat) : HandlerM Cid Unit :=
  modify fun s => { s with
    response := { s.response with
      code := s.response.code.or (some code)
      body := s.response.body ++ error ++ "\n" } }

def errorCode (err : Option Err) (defaultCode : Nat) : Nat :=
  match err with
  | some (.noLink _) => 404
  | some .routingNotFound => 404
  | some .deadlineExceeded => 408
  | _ => defaultCode

/-- How `%s` prints an error. -/
def printed : Option Err → String
  | some err => err.text
  | none => "%!s(<nil>)"

def webError (message : String) (err : Option Err) (defaultCode : Nat) : HandlerM Cid Unit :=
  httpError (message ++ ": " ++ printed err) (errorCode err defaultCode)

/-- The `IPFS-Hash` header and the redirect of a successful write. -/
def created (hash location : String) : HandlerM Cid Unit :=
  modify fun s => { s with
    response := { s.response with
      code := s.response.code.or (some 201)
      ipfsHash := some hash
      location := some location } }

/-- A nil dereference. -/
def nilNode : HandlerM Cid α := do
  modify fun s => { s with panicked := true }
  throw ()

def setTree (t : Mfs.Tree Cid) : HandlerM Cid Unit := modify fun s => { s with tree := t }

/-- A step and its result.  That there is nothing to unlink is no failure. -/
def attempt (step : Step) (result : Except Err α) : HandlerM Cid (Except Err α) := do
  match result with
  | .ok _ => pure ()
  | .error e =>
    if step = .unlink ∧ e = .notExist then pure ()
    else modify fun s => { s with failed := s.failed ++ [step] }
  pure result

/-- A step whose error is reported with `webError`, after which the handler
returns. -/
def orFail (step : Step) (result : Except Err α) (message : String) (code : Nat) :
    HandlerM Cid α := do
  match ← attempt step result with
  | .ok a => pure a
  | .error e =>
    webError message (some e) code
    throw ()

/-- A type assertion whose failure is reported with `http.Error`. -/
def assertOr (step : Step) (result : Except Err α) (message : String) (code : Nat) :
    HandlerM Cid α := do
  match ← attempt step result with
  | .ok a => pure a
  | .error _ =>
    httpError message code
    throw ()

/-! ## The file trees of an MFS -/

/-- The loop of `mfs.Mkdir` with `Mkparents`, after the parts `done`. -/
def mkdirLoop (done : List String) : List String → Mfs.Tree Cid → Except Err (Mfs.Tree Cid)
  | [], t => .ok t
  | part :: parts, t =>
    match t.find? part with
    | none =>
      (mkdirLoop (done ++ [part]) parts .empty).map fun sub => t.insert part (.inr sub)
    | some (.inr sub) =>
      (mkdirLoop (done ++ [part]) parts sub).map fun sub' => t.setDir part sub'
    | some (.inl _) =>
      .error (.other (if parts = [] then "file already exists"
        else "/".intercalate done ++ " was not a directory"))

/-- `mfs.Mkdir`. -/
def mkdir (path : String) (t : Mfs.Tree Cid) : Except Err (Mfs.Tree Cid) :=
  if path = "" then .error (.other "no path given to Mkdir") else mkdirLoop [] (mkdirParts path) t

/-- The loop of `DirLookup`, after the parts `done`. -/
def dirLookup (done : List String) : List String → Mfs.Tree Cid → Except Err (Cid ⊕ Mfs.Tree Cid)
  | [], t => .ok (.inr t)
  | part :: parts, t =>
    match t.find? part with
    | none => .error .notExist
    | some (.inr sub) => dirLookup (done ++ [part]) parts sub
    | some (.inl node) =>
      match parts with
      | [] => .ok (.inl node)
      | next :: _ =>
        .error (.other ("cannot access " ++ "/".intercalate (done ++ [part, next]) ++
          ": Not a directory"))

/-- `mfs.Lookup`. -/
def lookup (path : String) (t : Mfs.Tree Cid) : Except Err (Cid ⊕ Mfs.Tree Cid) :=
  dirLookup [] (lookupParts path) t

/-- `Directory.Unlink` of the directory at a path. -/
def unlink (parts : List String) (name : String) (t : Mfs.Tree Cid) : Except Err (Mfs.Tree Cid) :=
  match updateAt (eraseHere name) parts t with
  | some t' => .ok t'
  | none => .error .notExist

/-- `Directory.AddChild` of the directory at a path. -/
def addChild (parts : List String) (name : String) (node : Cid) (t : Mfs.Tree Cid) :
    Except Err (Mfs.Tree Cid) :=
  match Mfs.Tree.put name node parts t with
  | some t' => .ok t'
  | none => .error (.other "directory already has entry by that name")

/-- The assertion `rnode.(*dag.ProtoNode)`. -/
def asProtobuf : RootNode Cid → Except Err (Except String (Mfs.Tree Cid))
  | .other => .error (.other "expected protobuf dag node")
  | .file text => .ok (.error text)
  | .dir t => .ok (.ok t)

/-- `mfs.NewRoot`. -/
def newRoot : Except String (Mfs.Tree Cid) → Except Err (Mfs.Tree Cid)
  | .error text => .error (.other text)
  | .ok t => .ok t

/-- The assertion `dirNode.(*mfs.Directory)`. -/
def asDirectory : Cid ⊕ Mfs.Tree Cid → Except Err Unit
  | .inl _ => .error (.other "")
  | .inr _ => .ok ()

/-! ## Paths -/

section Paths

variable (env : Env Cid Body)

/-- `decodeCid` of `go-path`. -/
def decodeCid (cstr : String) : Except String Cid :=
  match env.decode cstr with
  | .ok c => .ok c
  | .error e =>
    if cstr.utf8ByteSize = 46 ∧ cstr.toList.take 2 = ['q', 'm'] then
      .error (e ++ " (possible lowercased CIDv0; consider converting to a case-agnostic CIDv1," ++
        " such as base32)")
    else .error e

/-- The text of a `pathError`. -/
def pathError (error path : String) : String := "invalid path " ++ env.quote path ++ ": " ++ error

/-- The branch of `ParsePath` for a text that does not start with a slash. -/
def parseHash (txt first : String) : Except String String :=
  match decodeCid env first with
  | .error e => .error (pathError env e txt)
  | .ok _ => .ok ("/ipfs/" ++ txt)

/-- `ParsePath` of `go-path`. -/
def parsePath (txt : String) : Except String String :=
  match splitList txt with
  | [] => .error (pathError env "path does not begin with '/'" txt)
  | [key] =>
    if key = "" then .error (pathError env "path does not begin with '/'" txt)
    else
      match decodeCid env txt with
      | .ok c => .ok ("/ipfs/" ++ env.string c)
      | .error _ => parseHash env txt key
  | first :: _ =>
    if first ≠ "" then parseHash env txt first
    else
      match splitList txt with
      | _ :: ns :: key :: _ =>
        if ns = "ipfs" ∨ ns = "ipld" then
          if key = "" then .error (pathError env "not enough path components" txt)
          else
            match decodeCid env key with
            | .error e => .error (pathError env ("invalid CID: " ++ e) txt)
            | .ok _ => .ok txt
        else if ns = "ipns" then
          if key = "" then .error (pathError env "not enough path components" txt) else .ok txt
        else .error (pathError env ("unknown namespace " ++ env.quote ns) txt)
      | _ => .error (pathError env "path does not begin with '/'" txt)

/-- `Path.Segments`. -/
def segments (p : String) : List String :=
  let segs := splitList (clean p)
  if segs.head? = some "" then segs.tail else segs

/-- How `parseIpfsPath` fails; an index may be out of range. -/
inductive ParseFailure where
  | err (e : Err)
  | panic
  deriving DecidableEq, Repr

def parseIpfsPath (p : String) : Except ParseFailure (Cid × String) :=
  match parsePath env p with
  | .error e => .error (.err (.other e))
  | .ok rootPath =>
    match segments rootPath with
    | [] => .error .panic
    | ns :: rest =>
      if ns ≠ "ipfs" then
        .error (.err (.other "WritableGateway: only ipfs paths supported"))
      else
        match rest with
        | [] => .error .panic
        | key :: names =>
          match env.decode key with
          | .error e => .error (.err (.other e))
          | .ok rootCid => .ok (rootCid, "/".intercalate names)

end Paths

/-! ## The handlers -/

section Handlers

variable (env : Env Cid Body)

def Env.call (step : Step) (result : Except Err α) : Except Err α :=
  match env.fault step with
  | some e => .error e.1
  | none => result

/-- How both handlers begin. -/
def target (urlPath : String) : HandlerM Cid (Cid × String) :=
  match parseIpfsPath env urlPath with
  | .error .panic => nilNode
  | .error (.err e) => do
      webError "WritableGateway: failed to parse the path" (some e) 400
      throw ()
  | .ok (rootCid, newPath) =>
    if newPath = "" ∨ newPath = "/" then do
      httpError "WritableGateway: empty path" 400
      throw ()
    else pure (rootCid, newPath)

/-- `Unlink`, for which `os.ErrNotExist` is as good as nil. -/
def unlinkOr (parts : List String) (name : String) (report : Err → HandlerM Cid Unit) :
    HandlerM Cid Unit := do
  match ← attempt .unlink (env.call .unlink (unlink parts name (← get).tree)) with
  | .ok t => setTree t
  | .error .notExist => pure ()
  | .error e =>
    report e
    throw ()

/-- The new directories of `putHandler`. -/
def mkdirOr (newDirectory : String) : HandlerM Cid Unit :=
  if newDirectory = "" then pure ()
  else do
    let t ← orFail .mkdir (env.call .mkdir (mkdir newDirectory (← get).tree))
      "WritableGateway: failed to create MFS directory" 500
    setTree t

def putHandler (urlPath : String) (body : Body) : HandlerM Cid Unit := do
  let (rootCid, newPath) ← target env urlPath
  let newDirectory := (split newPath).1
  let newFileName := (split newPath).2
  let rnode ← orFail .getRoot (env.call .getRoot (.ok (env.node rootCid)))
    "WritableGateway: Could not create DAG from request" 500
  let pbnd ← orFail .asProtobuf (asProtobuf rnode)
    "Cannot read non protobuf nodes through gateway" 400
  let newFilePath ← orFail .add (env.call .add (.ok (env.fileNode body)))
    "WritableGateway: could not create DAG from request" 500
  let newFile ← orFail .getFile (env.call .getFile (.ok newFilePath))
    "WritableGateway: failed to resolve new file" 500
  let root ← orFail .newRoot (env.call .newRoot (newRoot pbnd))
    "WritableGateway: failed to create MFS root" 400
  setTree root
  mkdirOr env newDirectory
  let dirNode ← orFail .lookup (env.call .lookup (lookup newDirectory (← get).tree))
    "WritableGateway: failed to lookup directory" 500
  assertOr .asDirectory (asDirectory dirNode)
    "WritableGateway: target directory is not a directory" 400
  unlinkOr env (lookupParts newDirectory) newFileName fun err =>
    webError "WritableGateway: failed to replace existing file" (some err) 400
  let t ← orFail .addChild
    (env.call .addChild (addChild (lookupParts newDirectory) newFileName newFile (← get).tree))
    "WritableGateway: failed to link file into directory" 500
  setTree t
  let nnode ← orFail .getNode (env.call .getNode (.ok ((← get).tree.root env.dirNode)))
    "WritableGateway: failed to finalize" 500
  created (env.string nnode) (clean ("/ipfs/" ++ "/" ++ env.string nnode ++ "/" ++ newPath))

/-- The end of `deleteHandler`: the error is written, and nothing is returned. -/
def finalize (directory : String) : HandlerM Cid Unit := do
  match ← attempt .getNode (env.call .getNode (.ok ((← get).tree.root env.dirNode))) with
  | .ok nnode => created (env.string nnode) (join ("/ipfs/" ++ env.string nnode) directory)
  | .error e =>
    webError "WritableGateway: failed to finalize" (some e) 500
    nilNode

def deleteHandler (urlPath : String) : HandlerM Cid Unit := do
  let (rootCid, newPath) ← target env urlPath
  let directory := (split newPath).1
  let filename := (split newPath).2
  let rootNodeIPLD ← orFail .getRoot (env.call .getRoot (.ok (env.node rootCid)))
    "WritableGateway: failed to resolve root CID" 500
  let rootNode ← assertOr .asProtobuf (asProtobuf rootNodeIPLD)
    "WritableGateway: empty path" 500
  let root ← orFail .newRoot (env.call .newRoot (newRoot rootNode))
    "WritableGateway: failed to construct the MFS root" 400
  setTree root
  let parentNode ← orFail .lookup (env.call .lookup (lookup directory (← get).tree))
    "WritableGateway: failed to look up parent" 500
  assertOr .asDirectory (asDirectory parentNode)
    "WritableGateway: parent is not a directory" 500
  -- the error reported here is the one of the lookup, which is nil
  unlinkOr env (lookupParts directory) filename fun _ =>
    webError "WritableGateway: failed to remove file" none 500
  finalize env directory

inductive Request (Body : Type) where
  | put (body : Body)
  | delete
  deriving DecidableEq, Repr

/-- The state in which a handler ends. -/
def serve (request : Request Body) (urlPath : String) : Server Cid :=
  match request with
  | .put body => (exec (putHandler env urlPath body) {}).2
  | .delete => (exec (deleteHandler env urlPath) {}).2

end Handlers

end GatewayWrite
