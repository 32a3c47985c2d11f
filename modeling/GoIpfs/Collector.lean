import GoIpfs.GraphWalk
import GoIpfs.StepRun

/-!
# The mark and sweep collector

`gc.GC` with its helpers `ColoredSet` and `Descendants` (`gc/gc.go`), written
as a machine.  One step is one statement of the collector's goroutine, one
visit or one link fetch of a worker of `dag.Walk`, or the cancellation of the
caller's context, so a schedule fixes every interleaving, every outcome of a
`select` and every failure.

The walk is kept as general as `merkledag.Walk` promises to be: `visit` calls
are serialized, the links of a node are explored exactly when its visit
returned true, and the walk returns nil only when no node needs work.  The
FIFO feed and the 32 workers of `parallelWalkDepth` only restrict the order.
-/

namespace Gc

open GraphWalk

variable {Cid : Type} [DecidableEq Cid]

/-- An error of `ipld.GetLinks`: `ipld.ErrNotFound` or any other one. -/
inductive FetchError where
  | notFound
  | other (msg : String)
  deriving DecidableEq, Repr

/-- The errors of `verifcid.ValidateCid`. -/
inductive VerifError where
  | possiblyInsecureHashFunction
  | belowMinimumHashLength
  deriving DecidableEq, Repr

/-- What makes `dag.Walk` return an error: a CID that `verifyGetLinks`
rejects, in the long form of `verboseCidError`, or the context. -/
inductive WalkError where
  | insecure (err : VerifError)
  | canceled
  deriving DecidableEq, Repr

/-- The errors that reach the output channel. -/
inductive GcError (Cid : Type) where
  | cannotFetchLinks (key : Cid) (err : FetchError)
  | cannotDeleteBlock (key : Cid) (msg : String)
  | cannotFetchAllLinks
  | cannotDeleteSomeBlocks
  | walk (err : WalkError)
  | pinner (msg : String)
  | datastore (msg : String)
  deriving DecidableEq, Repr

/-- `gc.Result`. -/
inductive Result (Cid : Type) where
  | keyRemoved (key : Cid)
  | error (err : GcError Cid)
  deriving DecidableEq, Repr

/-- What the collector is given: the pinner's answers, the DAG behind the
CIDs, and the failures of the calls that each run makes once. -/
structure Env (Cid : Type) where
  recursiveKeys : Except String (List Cid)
  directKeys : Except String (List Cid)
  internalPins : Except String (List Cid)
  validateCid : Cid → Option VerifError
  isRaw : Cid → Bool
  links : Cid → List Cid
  fetchError : Cid → Option FetchError
  allKeysError : Option String
  /-- `some` when the datastore is a `GCDatastore`. -/
  collectGarbage : Option (Option String)

/-- `ipld.GetLinks` on the offline DAG service: raw leaves have no links and
are not read, and a block that is not stored is `ErrNotFound`. -/
def ipldGetLinks (env : Env Cid) (store : Finset Cid) (c : Cid) : Except FetchError (List Cid) :=
  if env.isRaw c then .ok []
  else if c ∈ store then
    match env.fetchError c with
    | none => .ok (env.links c)
    | some err => .error err
  else .error .notFound

/-- The links that can be followed: those of blocks retrievable from `store`. -/
def storedLinks (env : Env Cid) (store : Finset Cid) (c : Cid) : List Cid :=
  (ipldGetLinks env store c).toOption.getD []

/-- The three `Descendants` calls of `ColoredSet`. -/
inductive Stage where
  | recursive
  | bestEffort
  | internal
  deriving DecidableEq, Repr

/-- The error test of the stage's closure: `getLinks` minds every error,
`bestEffortGetLinks` all but `ipld.ErrNotFound`. -/
def Stage.minds : Stage → FetchError → Bool
  | .bestEffort, .notFound => false
  | _, _ => true

/-- Where the collector's goroutine is. -/
inductive Pc (Cid : Type) where
  /-- `pn.RecursiveKeys`. -/
  | recursiveKeys
  /-- The head of the loop of `Descendants`, with the roots left to walk. -/
  | descendants (stage : Stage) (roots : List Cid)
  /-- Inside `dag.Walk` for one root. -/
  | walk (stage : Stage) (roots : List Cid) (w : Walk Cid)
  /-- `dag.Walk` is about to return `err` and waits for its workers. -/
  | drain (stage : Stage) (err : WalkError) (w : Walk Cid)
  /-- `ColoredSet` sends the error of a failed `Descendants`. -/
  | report (stage : Stage) (err : WalkError)
  | directKeys
  | internalPins
  /-- The `if errors` at the end of `ColoredSet`. -/
  | marked
  /-- `GC` sends the error of `ColoredSet`. -/
  | abort (err : GcError Cid)
  | allKeys
  /-- The head of the sweep loop, `for ctx.Err() == nil`. -/
  | sweep
  /-- The `select` of the sweep loop. -/
  | receive
  /-- Sending the result of a `DeleteBlock` call. -/
  | deleted (result : Result Cid)
  | swept
  | collectGarbage
  /-- `GC` sends the error of `AllKeysChan` or `CollectGarbage`. -/
  | fail (err : GcError Cid)
  | done
  deriving DecidableEq, Repr

/-- The collector's state, with the blockstore it works on.  `deleteCalls`
records the keys `DeleteBlock` was called with, latest first. -/
structure State (Cid : Type) where
  pc : Pc Cid
  bestEffortRoots : List Cid
  store : Finset Cid
  gcs : Finset Cid
  errors : Bool
  deleteErrors : Bool
  cancelled : Bool
  output : List (Result Cid)
  deleteCalls : List Cid

/-- `GC` once it holds the GC lock. -/
def init (store : Finset Cid) (bestEffortRoots : List Cid) : State Cid where
  pc := .recursiveKeys
  bestEffortRoots := bestEffortRoots
  store := store
  gcs := ∅
  errors := false
  deleteErrors := false
  cancelled := false
  output := []
  deleteCalls := []

/-- The choices of a schedule.  `send` and `ctxDone` are the two cases of the
collector's `select` statements, `fetch` carries the one made inside
`getLinks` and whether a cancelled context broke the fetch. -/
inductive Choice (Cid : Type) where
  | cancel
  | next
  | send
  | ctxDone
  | visit (c : Cid)
  | fetch (c : Cid) (broken sent : Bool)
  | recvKey (k : Cid) (deleteErr : Option String)
  | keysClosed
  deriving DecidableEq, Repr

/-- Where `ColoredSet` continues after the `Descendants` call of a stage. -/
def afterStage (s : State Cid) : Stage → Pc Cid
  | .recursive => .descendants .bestEffort s.bestEffortRoots
  | .bestEffort => .directKeys
  | .internal => .marked

/-- The link fetch proper; only a cancelled context can break it off. -/
def fetchLinks (env : Env Cid) (s : State Cid) (c : Cid) (broken : Bool) :
    Option (Except FetchError (List Cid)) :=
  if broken then
    if s.cancelled then some (.error (.other "context canceled")) else none
  else some (ipldGetLinks env s.store c)

/-- `verifyGetLinks` around the closure of a stage: the CID is validated
first, and a minded error is swallowed, remembered in `errors` and sent. -/
def verifyGetLinks (env : Env Cid) (stage : Stage) (s : State Cid) (c : Cid)
    (broken sent : Bool) : Option (State Cid × Except WalkError (List Cid)) :=
  match env.validateCid c with
  | some err => some (s, .error (.insecure err))
  | none =>
    match fetchLinks env s c broken with
    | none => none
    | some (.ok targets) => some (s, .ok targets)
    | some (.error err) =>
      if stage.minds err then
        if sent then
          some ({ s with
            errors := true
            output := s.output ++ [.error (.cannotFetchLinks c err)] }, .ok [])
        else if s.cancelled then
          some ({ s with errors := true }, .error .canceled)
        else none
      else some (s, .ok [])

/-- A worker of `dag.Walk` visits a waiting node or explores an active one. -/
def walkStep (env : Env Cid) (s : State Cid) (stage : Stage)
    (roots : List Cid) (w : Walk Cid) : Choice Cid → Option (State Cid)
  | .visit c =>
    if c ∈ w.queue then
      some { s with
        pc := .walk stage roots (w.visit s.gcs c).1
        gcs := (w.visit s.gcs c).2 }
    else none
  | .fetch c broken sent =>
    if c ∈ w.active then
      match verifyGetLinks env stage s c broken sent with
      | none => none
      | some (t, .ok targets) =>
        some { t with pc := .walk stage roots (w.expand c targets) }
      | some (t, .error err) =>
        some { t with pc := .drain stage err (w.expand c []) }
    else none
  | .next =>
    if w.Finished then some { s with pc := .descendants stage roots } else none
  | .ctxDone =>
    if s.cancelled then some { s with pc := .drain stage .canceled w } else none
  | _ => none

/-- The walk has failed: workers that already hold a node still finish it, but
its links are not explored any more. -/
def drainStep (env : Env Cid) (s : State Cid) (stage : Stage)
    (err : WalkError) (w : Walk Cid) : Choice Cid → Option (State Cid)
  | .visit c =>
    if c ∈ w.queue then
      some { s with
        pc := .drain stage err (w.visit s.gcs c).1
        gcs := (w.visit s.gcs c).2 }
    else none
  | .fetch c broken sent =>
    if c ∈ w.active then
      match verifyGetLinks env stage s c broken sent with
      | none => none
      | some (t, _) => some { t with pc := .drain stage err (w.expand c []) }
    else none
  | .next =>
    if w.active = [] then
      some { s with errors := true, pc := .report stage err }
    else none
  | _ => none

/-- A `select` that sends `r` or notices a cancelled context. -/
def selectStep (s : State Cid) (r : Result Cid) (onSend onDone : Pc Cid) :
    Choice Cid → Option (State Cid)
  | .send => some { s with output := s.output ++ [r], pc := onSend }
  | .ctxDone => if s.cancelled then some { s with pc := onDone } else none
  | _ => none

/-- The `select` of the sweep loop: a key that is not marked is deleted. -/
def receiveStep (s : State Cid) : Choice Cid → Option (State Cid)
  | .recvKey k deleteErr =>
    if k ∈ s.store then
      if k ∈ s.gcs then some { s with pc := .sweep }
      else
        match deleteErr with
        | some msg => some { s with
            deleteCalls := k :: s.deleteCalls
            deleteErrors := true
            pc := .deleted (.error (.cannotDeleteBlock k msg)) }
        | none => some { s with
            deleteCalls := k :: s.deleteCalls
            store := s.store.erase k
            pc := .deleted (.keyRemoved k) }
    else none
  | .keysClosed => some { s with pc := .swept }
  | .ctxDone => if s.cancelled then some { s with pc := .swept } else none
  | _ => none

/-- The statements that are executed without waiting for anything. -/
def nextStep (env : Env Cid) (s : State Cid) : Option (State Cid) :=
  match s.pc with
  | .recursiveKeys =>
    match env.recursiveKeys with
    | .error msg => some { s with pc := .abort (.pinner msg) }
    | .ok rkeys => some { s with pc := .descendants .recursive rkeys }
  | .descendants stage [] => some { s with pc := afterStage s stage }
  | .descendants stage (c :: roots) =>
    some { s with pc := .walk stage roots (Walk.start c) }
  | .directKeys =>
    match env.directKeys with
    | .error msg => some { s with pc := .abort (.pinner msg) }
    | .ok dkeys => some { s with gcs := s.gcs ∪ dkeys.toFinset, pc := .internalPins }
  | .internalPins =>
    match env.internalPins with
    | .error msg => some { s with pc := .abort (.pinner msg) }
    | .ok ikeys => some { s with pc := .descendants .internal ikeys }
  | .marked =>
    if s.errors then some { s with pc := .abort .cannotFetchAllLinks }
    else some { s with pc := .allKeys }
  | .allKeys =>
    match env.allKeysError with
    | some msg => some { s with pc := .fail (.datastore msg) }
    | none => some { s with pc := .sweep }
  | .sweep => some { s with pc := if s.cancelled then .swept else .receive }
  | .swept => some { s with pc := .collectGarbage }
  | .collectGarbage =>
    match env.collectGarbage with
    | some (some msg) => some { s with pc := .fail (.datastore msg) }
    | _ => some { s with pc := .done }
  | _ => none

def step (env : Env Cid) (s : State Cid) (ch : Choice Cid) : Option (State Cid) :=
  if ch = .cancel then some { s with cancelled := true }
  else
    match s.pc with
    | .walk stage roots w => walkStep env s stage roots w ch
    | .drain stage err w => drainStep env s stage err w ch
    | .report stage err =>
      selectStep s (.error (.walk err)) (afterStage s stage)
        (.abort (.walk .canceled)) ch
    | .abort err => selectStep s (.error err) .done .done ch
    | .receive => receiveStep s ch
    | .deleted result => selectStep s result .sweep .swept ch
    | .fail err => selectStep s (.error err) .done .done ch
    | .swept =>
      if s.deleteErrors then
        selectStep s (.error .cannotDeleteSomeBlocks) .collectGarbage .done ch
      else if ch = .next then nextStep env s else none
    | _ => if ch = .next then nextStep env s else none

end Gc
