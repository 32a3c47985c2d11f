import GoIpfs.FiniteDag

/-!
# `ipfs refs`

`RefWriter` and the loop of `RefsCmd.Run` (`core/commands/refs.go`).  A node is
represented by its CID, since `Get` returns the node filed under the CID it is
asked for.  The memo `seen` is keyed by the bytes of a CID, hence by the CID.

The walk keeps its effects when it fails: an `Outcome` always carries the
writer as the call has left it, next to the count and the error.
-/

namespace Refs

variable {Cid : Type}

/-- `ipld.Link`; the size is not used by the walk. -/
structure Link (Cid : Type) where
  name : String
  cid : Cid
  deriving DecidableEq, Repr

/-- A finite DAG: the links of each node, and a rank that every link lowers.
The rank stands for the finiteness and acyclicity of the graph and bounds the
recursion; the length of the longest walk from a node is one. -/
structure Dag (Cid : Type) where
  links : Cid → List (Link Cid)
  rank : Cid → Nat
  rank_lt : ∀ c, ∀ l ∈ links c, rank l.cid < rank c

def Dag.children (dag : Dag Cid) (c : Cid) : List Cid := (dag.links c).map Link.cid

theorem exists_dag [Finite Cid] (links : Cid → List (Link Cid))
    (hacyclic : ∀ c, ¬ Relation.TransGen (fun a b => b ∈ (links a).map Link.cid) c c) :
    ∃ dag : Dag Cid, dag.links = links := by
  obtain ⟨rank, hrank⟩ := FiniteDag.exists_ranked hacyclic
  refine ⟨⟨links, rank, ?_⟩, rfl⟩
  intro c l hl
  exact hrank c l.cid (List.mem_map_of_mem hl)

structure Options where
  unique : Bool
  maxDepth : Int
  printFmt : String

/-- One edge handed to `WriteEdge`. -/
structure Edge (Cid : Type) where
  src : Cid
  dst : Cid
  linkname : String
  deriving DecidableEq, Repr

def Edge.line (printFmt : String) (enc : Cid → String) (e : Edge Cid) : String :=
  if printFmt ≠ "" then
    ((printFmt.replace "<src>" (enc e.src)).replace "<dst>" (enc e.dst)).replace
      "<linkname>" e.linkname
  else enc e.dst

/-- Why `WriteRefs` fails: a node that cannot be retrieved, or a line that
cannot be sent. -/
inductive Failure (Cid : Type) where
  | get (c : Cid)
  | emit
  deriving DecidableEq, Repr

/-- How the outside behaves while one root is handled: whether the `k`-th call
retrieves the node it asks for, and whether it delivers the line it sends. -/
structure Env (Cid : Type) where
  get : Nat → Cid → Bool
  emit : Nat → Bool

/-- The mutable part of a `RefWriter`, with the edges and the errors it has
sent.  `calls` counts the calls made for the root at hand. -/
structure RefWriter (Cid : Type) where
  seen : Cid → Option Nat
  edges : List (Edge Cid)
  errs : List (Failure Cid)
  calls : Nat

/-- The writer of a new session. -/
def RefWriter.new : RefWriter Cid where
  seen := fun _ => none
  edges := []
  errs := []
  calls := 0

def RefWriter.written (w : RefWriter Cid) : List Cid := w.edges.map Edge.dst

def RefWriter.lines (o : Options) (enc : Cid → String) (w : RefWriter Cid) : List String :=
  w.edges.map (Edge.line o.printFmt enc)

/-- What a call returns, and the writer it leaves. -/
structure Outcome (Cid : Type) where
  count : Nat
  err : Option (Failure Cid)
  writer : RefWriter Cid

/-- Go on unless there was an error, and add up the counts. -/
def Outcome.andThen (r : Outcome Cid) (next : RefWriter Cid → Outcome Cid) : Outcome Cid :=
  match r.err with
  | some _ => r
  | none => ⟨r.count + (next r.writer).count, (next r.writer).err, (next r.writer).writer⟩

def skip (w : RefWriter Cid) : Outcome Cid := ⟨0, none, w⟩

/-- `Get` on the DAG or on a promise of `GetDAG`. -/
def get (env : Env Cid) (c : Cid) (w : RefWriter Cid) : Outcome Cid where
  count := 0
  err := if env.get w.calls c then none else some (.get c)
  writer := { w with calls := w.calls + 1 }

/-- `WriteEdge`; the caller counts an edge once it is written. -/
def writeEdge (env : Env Cid) (src : Cid) (l : Link Cid) (w : RefWriter Cid) : Outcome Cid :=
  if env.emit w.calls then
    ⟨1, none, { w with edges := w.edges ++ [⟨src, l.cid, l.name⟩], calls := w.calls + 1 }⟩
  else ⟨0, some .emit, { w with calls := w.calls + 1 }⟩

/-- The middle of the loop's body: the linked node is retrieved, and its edge is
written if `visit` has asked for it. -/
def fetchAndWrite (env : Env Cid) (nc : Cid) (l : Link Cid) (shouldWrite : Bool)
    (w : RefWriter Cid) : Outcome Cid :=
  (get env l.cid w).andThen fun w =>
    if shouldWrite then writeEdge env nc l w else skip w

variable [DecidableEq Cid]

/-- Go's `rw.seen[key] = depth`. -/
def RefWriter.mark (w : RefWriter Cid) (c : Cid) (depth : Nat) : RefWriter Cid :=
  { w with seen := Function.update w.seen c (some depth) }

/-- The two answers of `visit`, and the writer with the mark it has set. -/
structure Visit (Cid : Type) where
  goDeeper : Bool
  shouldWrite : Bool
  writer : RefWriter Cid

def atMaxDepth (o : Options) (depth : Nat) : Bool :=
  decide (0 ≤ o.maxDepth) && decide ((depth : Int) = o.maxDepth)

def overMaxDepth (o : Options) (depth : Nat) : Bool :=
  decide (0 ≤ o.maxDepth) && decide (o.maxDepth < (depth : Int))

def visit (o : Options) (c : Cid) (depth : Nat) (w : RefWriter Cid) : Visit Cid :=
  if overMaxDepth o depth then ⟨false, false, w⟩
  else if !o.unique then ⟨!atMaxDepth o depth, true, w⟩
  else
    match w.seen c with
    | some oldDepth =>
      -- seen before, and explored deep enough
      if o.maxDepth < 0 ∨ oldDepth ≤ depth then ⟨false, false, w⟩
      else ⟨!atMaxDepth o depth, false, w.mark c depth⟩
    | none => ⟨!atMaxDepth o depth, true, w.mark c depth⟩

/-- One iteration of the loop over the links of `nc`. -/
def writeLink (o : Options) (env : Env Cid)
    (deeper : Cid → Nat → RefWriter Cid → Outcome Cid) (nc : Cid) (depth : Nat)
    (l : Link Cid) (w : RefWriter Cid) : Outcome Cid :=
  let v := visit o l.cid (depth + 1) w
  if !v.shouldWrite && !v.goDeeper then skip v.writer
  else
    (fetchAndWrite env nc l v.shouldWrite v.writer).andThen fun w =>
      if v.goDeeper then deeper l.cid (depth + 1) w else skip w

/-- The loop over the links of `nc`. -/
def writeLinks (o : Options) (env : Env Cid)
    (deeper : Cid → Nat → RefWriter Cid → Outcome Cid) (nc : Cid) (depth : Nat) :
    List (Link Cid) → RefWriter Cid → Outcome Cid
  | [], w => skip w
  | l :: rest, w =>
    (writeLink o env deeper nc depth l w).andThen
      (writeLinks o env deeper nc depth rest)

/-- `writeRefsRecursive`; the fuel is never less than the rank of the node, so
it ends at a node without links. -/
def writeRefsRecursive (o : Options) (dag : Dag Cid) (env : Env Cid) :
    Nat → Cid → Nat → RefWriter Cid → Outcome Cid
  | 0, _, _, w => skip w
  | fuel + 1, n, depth, w =>
    writeLinks o env (writeRefsRecursive o dag env fuel) n depth (dag.links n) w

/-- `WriteRefs`. -/
def writeRefs (o : Options) (dag : Dag Cid) (env : Env Cid) (c : Cid)
    (w : RefWriter Cid) : Outcome Cid :=
  (get env c { w with calls := 0 }).andThen fun w =>
    writeRefsRecursive o dag env (dag.rank c) c 0 w

/-- One root of a session, with the outside's behaviour while it is handled. -/
structure Request (Cid : Type) where
  root : Cid
  env : Env Cid

/-- `WriteRefs` for a list of roots with one `RefWriter`: what each call has
returned, and the writer in the end. -/
def writeAll (o : Options) (dag : Dag Cid) :
    List (Request Cid) → RefWriter Cid → List (Nat × Option (Failure Cid)) × RefWriter Cid
  | [], w => ([], w)
  | q :: rest, w =>
    let r := writeRefs o dag q.env q.root w
    let t := writeAll o dag rest r.writer
    ((r.count, r.err) :: t.1, t.2)

/-- The loop of `RefsCmd.Run`: an error is reported and the loop goes on, unless
the report cannot be sent. -/
def refsRun (o : Options) (dag : Dag Cid) :
    List (Request Cid) → RefWriter Cid → Option (Failure Cid) × RefWriter Cid
  | [], w => (none, w)
  | q :: rest, w =>
    let r := writeRefs o dag q.env q.root w
    match r.err with
    | none => refsRun o dag rest r.writer
    | some e =>
      if q.env.emit r.writer.calls then
        refsRun o dag rest
          { r.writer with errs := r.writer.errs ++ [e], calls := r.writer.calls + 1 }
      else (some .emit, { r.writer with calls := r.writer.calls + 1 })

/-! ## Outcomes of sequences -/

section outcomes

omit [DecidableEq Cid]

variable {r : Outcome Cid} {next : RefWriter Cid → Outcome Cid} {w : RefWriter Cid}

@[simp] theorem skip_err (w : RefWriter Cid) : (skip w).err = none := rfl

@[simp] theorem skip_writer (w : RefWriter Cid) : (skip w).writer = w := rfl

@[simp] theorem skip_count (w : RefWriter Cid) : (skip w).count = 0 := rfl

theorem Outcome.andThen_of_err {e : Failure Cid} (h : r.err = some e) : r.andThen next = r := by
  simp [Outcome.andThen, h]

theorem Outcome.andThen_of_ok (h : r.err = none) :
    r.andThen next =
      ⟨r.count + (next r.writer).count, (next r.writer).err, (next r.writer).writer⟩ := by
  simp [Outcome.andThen, h]

theorem Outcome.andThen_err_none :
    (r.andThen next).err = none ↔ r.err = none ∧ (next r.writer).err = none := by
  cases h : r.err with
  | none | some e => simp [Outcome.andThen, h]

theorem Outcome.andThen_writer (h : r.err = none) :
    (r.andThen next).writer = (next r.writer).writer := by
  rw [Outcome.andThen_of_ok h]

/-- **Sequencing.**  A reflexive and transitive relation that both parts keep
is kept by the sequence, whether it fails or not. -/
theorem Outcome.andThen_rel {R : Nat → RefWriter Cid → RefWriter Cid → Prop}
    (htrans : ∀ {m n a b c}, R m a b → R n b c → R (m + n) a c)
    (hr : R r.count w r.writer) (hnext : R (next r.writer).count r.writer (next r.writer).writer) :
    R (r.andThen next).count w (r.andThen next).writer := by
  cases h : r.err with
  | none =>
    rw [Outcome.andThen_of_ok h]
    exact htrans hr hnext
  | some e =>
    rw [Outcome.andThen_of_err h]
    exact hr

end outcomes

end Refs
