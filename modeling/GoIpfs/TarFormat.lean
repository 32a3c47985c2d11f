import GoIpfs.GoBytes
import GoIpfs.GoPath

/-!
# Tar archives as DAGs

`ImportTar` makes a tree of the entries of a tar file: each entry is a node with
the bytes of its header, a link `data` to its contents if it has any, and links
to the entries below its path.  The names of these links start with a `-`, so
none of them is `data`.  `ExportTar` walks the tree and writes the headers and
contents out again; its reader hands out the bytes in pieces as large as the
caller asks for.

`streams_bytes` says what a caller reads from it in the end, whatever the sizes
of its buffers.
-/

namespace TarFormat

open GoBytes List Option

/-- An entry of a tar file, with the header as `marshalHeader` prints it.  The tar
reader returns no contents for an entry of size zero. -/
structure Entry where
  name : String
  header : Bytes
  size : Nat
  data : Bytes
  header_ne_nil : header ≠ []
  data_eq_nil : size = 0 → data = []

/-- The node of an entry: the header, and the contents behind the link `data`. -/
structure Record where
  header : Bytes
  file : Option Bytes
  deriving DecidableEq, Repr

/-- The links of a node to the entries below it: the name, the record of the
node unless it was created on the way down, the links below it, and the links
after it. -/
inductive Links where
  | nil
  | cons (name : String) (record : Option Record) (below rest : Links)
  deriving DecidableEq, Repr

structure Node where
  record : Option Record
  links : Links
  deriving DecidableEq, Repr

/-- The node that `InsertNodeAtPath` creates on the way down. -/
def emptyNode : Node := ⟨none, .nil⟩

namespace Links

/-- `GetLinkedProtoNode`. -/
def find? (name : String) : Links → Option Node
  | .nil => none
  | .cons n record below rest => if n = name then some ⟨record, below⟩ else rest.find? name

/-- `RemoveNodeLink`. -/
def remove (name : String) : Links → Links
  | .nil => .nil
  | .cons n record below rest =>
    if n = name then rest.remove name else .cons n record below (rest.remove name)

/-- `AddNodeLink`; the encoding of a node sorts its links. -/
def place (name : String) (nd : Node) : Links → Links
  | .nil => .cons name nd.record nd.links .nil
  | .cons n record below rest =>
    if name < n then .cons name nd.record nd.links (.cons n record below rest)
    else .cons n record below (rest.place name nd)

end Links

/-- `addLink` of the editor. -/
def addLink (name : String) (nd : Node) (links : Links) : Links :=
  (links.remove name).place name nd

/-- `insertNodeAtPath` of the editor, on the links of the root. -/
def insertNodeAtPath (toinsert : Node) : List String → Links → Links
  | [], links => links
  | [name], links => addLink name toinsert links
  | name :: next :: rest, links =>
    let nd := (links.find? name).getD emptyNode
    addLink name { nd with links := insertNodeAtPath toinsert (next :: rest) nd.links } links

/-- `escapePath`. -/
def escapePath (pth : String) : String :=
  "/".intercalate ((GoPath.splitList (GoPath.trim pth)).map fun e => "-" ++ e)

def Entry.node (h : Entry) : Node :=
  ⟨some ⟨h.header, if h.size > 0 then some h.data else none⟩, .nil⟩

/-- One round of the loop of `ImportTar`. -/
def insertEntry (links : Links) (h : Entry) : Links :=
  insertNodeAtPath h.node (GoPath.splitList (escapePath h.name)) links

/-- The loop of `ImportTar`: reading the `n`-th entry or storing its nodes may
fail. -/
def importLoop (fault : Nat → Option String) : Nat → List Entry → Links → Except String Links
  | n, [], links =>
    match fault n with
    | some err => .error err
    | none => .ok links
  | n, h :: rest, links =>
    match fault n with
    | some err => .error err
    | none => importLoop fault (n + 1) rest (insertEntry links h)

structure Root where
  data : Bytes
  links : Links

def importTar (fault : Nat → Option String) (entries : List Entry) : Except String Root :=
  (importLoop fault 0 entries .nil).map fun links => ⟨ascii "ipfs/tar", links⟩

/-! ## The reader -/

def blockSize : Nat := 512

/-- The zeros after `n` bytes of contents. -/
def padding (n : Nat) : Nat := (blockSize - n % blockSize) % blockSize

def zeros (n : Nat) : Bytes := List.replicate n 0

/-- `tarReader`; `nil` is a nil pointer.  `fileRead` has the contents that are
left and the count of those that have been read. -/
inductive Reader where
  | nil
  | mk (links : Links) (hdrBuf : Option Bytes) (childRead : Reader)
      (fileRead : Option (Bytes × Nat)) (pad : Nat)
  deriving DecidableEq, Repr

def newReader (links : Links) : Reader := .mk links none .nil none 0

/-- The header of a node; one that was created on the way down has none. -/
def headerOf (record : Option Record) : Bytes := record.elim [] Record.header

def fileOf (record : Option Record) : Option (Bytes × Nat) :=
  (record.bind Record.file).map fun content => (content, 0)

/-- The reader of what is below a node, which is not read if there are contents. -/
def childOf (record : Option Record) (below : Links) : Reader :=
  if (record.bind Record.file).isSome ∨ below = .nil then .nil else newReader below

/-- What a call of `Read` returns: bytes, or `io.EOF`, and the reader it leaves. -/
structure Result where
  out : Bytes
  eof : Bool
  next : Reader

/-- The first case of `Read`: the rest of a header. -/
def readHeader (k : Nat) (buf : Bytes) (links : Links) (child : Reader)
    (file : Option (Bytes × Nat)) (pad : Nat) : Result :=
  if buf = [] then ⟨[], false, .mk links none child file pad⟩
  else ⟨buf.take k, false, .mk links (some (buf.drop k)) child file pad⟩

/-- `tarReader.Read` with a buffer of `k` bytes. -/
def read (k : Nat) : Reader → Result
  | .nil => ⟨[], true, .nil⟩
  | .mk links (some buf) child file pad => readHeader k buf links child file pad
  | .mk links none (.mk l h c f p) file pad =>
    let r := read k (.mk l h c f p)
    if r.eof then ⟨r.out, false, .mk links none .nil file pad⟩
    else ⟨r.out, false, .mk links none r.next file pad⟩
  | .mk links none .nil (some (content, n)) pad =>
    -- the reader of the contents returns EOF together with its last bytes
    if content.length < k then
      ⟨content, false, .mk links none .nil none (padding (n + content.length))⟩
    else ⟨content.take k, false, .mk links none .nil (some (content.drop k, n + k)) pad⟩
  | .mk links none .nil none pad =>
    if pad > 0 then
      ⟨zeros (min k pad), false, .mk links none .nil none (pad - min k pad)⟩
    else
      match links with
      | .nil => ⟨[], true, .mk .nil none .nil none pad⟩
      | .cons _ record below rest =>
        readHeader k (headerOf record) rest (childOf record below) (fileOf record) 0

/-- `ExportTar`. -/
def exportTar (root : Root) : Except String Reader :=
  if root.data ≠ ascii "ipfs/tar" then .error "not an IPFS tarchive"
  else .ok (newReader root.links)

/-- Calls of `Read` up to the end, with nonempty buffers, return these bytes. -/
inductive Reads : Reader → Bytes → Prop
  | eof {k : Nat} {r : Reader} (hk : 0 < k) (h : (read k r).eof = true) : Reads r (read k r).out
  | more {k : Nat} {r : Reader} {out : Bytes} (hk : 0 < k) (h : (read k r).eof = false)
      (hrest : Reads (read k r).next out) : Reads r ((read k r).out ++ out)

/-- A caller that reads to the end gets these bytes, whatever its buffers. -/
def Streams (r : Reader) (out : Bytes) : Prop := ∀ bytes, Reads r bytes ↔ bytes = out

/-! ## What is read -/

/-- Contents with the zeros after them. -/
def padded (content : Bytes) : Bytes := content ++ zeros (padding content.length)

def Entry.bytes (h : Entry) : Bytes := h.header ++ padded h.data

def Record.bytes (r : Record) : Bytes := r.header ++ r.file.elim [] padded

/-- The bytes of a tree.  What is below an entry with contents is passed over. -/
def Links.bytes : Links → Bytes
  | .nil => []
  | .cons _ record below rest =>
    record.elim [] Record.bytes ++
      (if (record.bind Record.file).isSome then [] else below.bytes) ++ rest.bytes

def Reader.bytes : Reader → Bytes
  | .nil => []
  | .mk links hdrBuf childRead fileRead pad =>
    hdrBuf.getD [] ++ (childRead.bytes ++
      ((match fileRead with
        | some (content, n) => content ++ zeros (padding (n + content.length))
        | none => zeros pad) ++ links.bytes))

/-- A bound on the calls that a tree takes. -/
def Links.work : Links → Nat
  | .nil => 0
  | .cons _ record below rest =>
    (record.elim 0 fun r => r.header.length) + 2 +
      ((record.bind Record.file).elim 0 fun content => content.length + 1 + blockSize) +
      (below.work + 1) + rest.work

/-- A bound on the calls that a reader takes. -/
def Reader.work : Reader → Nat
  | .nil => 0
  | .mk links hdrBuf childRead fileRead pad =>
    1 + (hdrBuf.elim 0 fun buf => buf.length + 1) + childRead.work +
      (match fileRead with
        | some (content, _) => content.length + 1 + blockSize
        | none => pad) + links.work

section Reading

variable {k : Nat} {r : Reader} {links below rest : Links} {record : Option Record}

/-- A call of `Read` returns the next bytes and comes nearer to the end, or there
are none left. -/
def Served (r : Reader) (s : Result) : Prop :=
  (s.eof = true → s.out = [] ∧ r.bytes = []) ∧
  (s.eof = false → r.bytes = s.out ++ s.next.bytes ∧ s.next.work < r.work)

theorem served_header (hk : 0 < k) (buf : Bytes) (links : Links) (child : Reader)
    (file : Option (Bytes × Nat)) (pad : Nat) :
    Served (.mk links (some buf) child file pad) (readHeader k buf links child file pad) := by
  unfold readHeader Served
  split
  · rename_i hnil
    refine ⟨nofun, fun _ => ⟨?_, ?_⟩⟩
    · simp [Reader.bytes, hnil]
    · simp [Reader.work, hnil]
  · rename_i hne
    have hlen := length_pos_iff.mpr hne
    refine ⟨nofun, fun _ => ⟨?_, ?_⟩⟩
    · simp only [Reader.bytes, getD_some]
      rw [← append_assoc (buf.take k), take_append_drop]
    · simp only [Reader.work, elim_some, length_drop]
      omega

theorem bytes_newReader (links : Links) : (newReader links).bytes = links.bytes := by
  simp [newReader, Reader.bytes, zeros]

theorem work_newReader (links : Links) : (newReader links).work = links.work + 1 := by
  simp [newReader, Reader.work, Nat.add_comm]

theorem bytes_node (name : String) (record : Option Record) (below rest : Links) :
    (Reader.mk rest (some (headerOf record)) (childOf record below) (fileOf record) 0).bytes =
      (Links.cons name record below rest).bytes := by
  cases record with
  | none =>
    by_cases hbelow : below = .nil
    · simp [headerOf, childOf, fileOf, Reader.bytes, Links.bytes, hbelow, zeros]
    · simp [headerOf, childOf, fileOf, Reader.bytes, Links.bytes, hbelow, zeros, bytes_newReader]
  | some rec =>
    obtain ⟨header, file⟩ := rec
    cases file with
    | none =>
      by_cases hbelow : below = .nil
      · simp [headerOf, childOf, fileOf, Reader.bytes, Links.bytes, hbelow, zeros, Record.bytes]
      · simp [headerOf, childOf, fileOf, Reader.bytes, Links.bytes, hbelow, zeros, Record.bytes,
          bytes_newReader]
    | some content =>
      simp [headerOf, childOf, fileOf, Reader.bytes, Links.bytes, Record.bytes, padded]

theorem work_childOf (record : Option Record) (below : Links) :
    (childOf record below).work ≤ below.work + 1 := by
  unfold childOf
  split
  · exact Nat.zero_le _
  · rw [work_newReader]

theorem work_node (name : String) (record : Option Record) (below rest : Links) :
    (Reader.mk rest (some (headerOf record)) (childOf record below) (fileOf record) 0).work ≤
      (Links.cons name record below rest).work := by
  have hchild := work_childOf record below
  cases record with
  | none =>
    simp only [Reader.work, Links.work, headerOf, fileOf, bind_none, elim_none,
      elim_some, map_none, length_nil]
    omega
  | some rec =>
    obtain ⟨header, file⟩ := rec
    cases file with
    | none =>
      simp only [Reader.work, Links.work, headerOf, fileOf, bind_some, elim_none,
        elim_some, map_none]
      omega
    | some content =>
      simp only [Reader.work, Links.work, headerOf, fileOf, bind_some, elim_some, map_some]
      omega

theorem padding_lt (n : Nat) : padding n < blockSize := by
  unfold padding blockSize
  omega

theorem served_child (child : Reader) (hchild : child ≠ .nil)
    (hserved : Served child (read k child)) (file : Option (Bytes × Nat)) (pad : Nat) :
    Served (.mk links none child file pad)
      (if (read k child).eof then ⟨(read k child).out, false, .mk links none .nil file pad⟩
        else ⟨(read k child).out, false, .mk links none (read k child).next file pad⟩) := by
  cases heof : (read k child).eof with
  | true =>
    obtain ⟨hout, hbytes⟩ := hserved.1 heof
    refine ⟨nofun, fun _ => ⟨?_, ?_⟩⟩
    · simp [Reader.bytes, hout, hbytes]
    · cases child with
      | nil => exact absurd rfl hchild
      | mk l h c f p =>
        simp only [Reader.work, if_true]
        omega
  | false =>
    obtain ⟨hbytes, hwork⟩ := hserved.2 heof
    refine ⟨nofun, fun _ => ⟨?_, ?_⟩⟩
    · simp [Reader.bytes, hbytes]
    · simp only [Reader.work, Bool.false_eq_true, if_false]
      omega

theorem served_file (hk : 0 < k) (content : Bytes) (n pad : Nat) :
    Served (.mk links none .nil (some (content, n)) pad)
      (if content.length < k then
        ⟨content, false, .mk links none .nil none (padding (n + content.length))⟩
      else ⟨content.take k, false, .mk links none .nil (some (content.drop k, n + k)) pad⟩) := by
  split
  · refine ⟨nofun, fun _ => ⟨?_, ?_⟩⟩
    · simp [Reader.bytes]
    · have hpad := padding_lt (n + content.length)
      simp only [Reader.work]
      omega
  have htotal : n + k + (content.drop k).length = n + content.length := by
    rw [length_drop]
    omega
  refine ⟨nofun, fun _ => ⟨?_, ?_⟩⟩
  · simp only [Reader.bytes, htotal, getD_none, nil_append]
    rw [append_assoc, append_assoc, ← append_assoc (content.take k), take_append_drop]
  · simp only [Reader.work, length_drop]
    omega

theorem zeros_split (k n : Nat) : zeros n = zeros (min k n) ++ zeros (n - min k n) := by
  have hsum : min k n + (n - min k n) = n := by omega
  rw [zeros, zeros, zeros, replicate_append_replicate, hsum]

theorem served_pad (hk : 0 < k) {pad : Nat} (hpad : 0 < pad) :
    Served (.mk links none .nil none pad)
      ⟨zeros (min k pad), false, .mk links none .nil none (pad - min k pad)⟩ := by
  refine ⟨nofun, fun _ => ⟨?_, ?_⟩⟩
  · simp [Reader.bytes, zeros_split k pad]
  · simp only [Reader.work]
    omega

/-- **One call of `Read`.** -/
theorem served_read (hk : 0 < k) (r : Reader) : Served r (read k r) := by
  induction r with
  | nil =>
    exact ⟨fun _ => ⟨rfl, rfl⟩, nofun⟩
  | mk links hdrBuf child file pad ih =>
    cases hdrBuf with
    | some buf =>
      exact served_header hk buf links child file pad
    | none =>
      cases child with
      | mk l h c f p =>
        exact served_child _ (by simp) ih file pad
      | nil =>
        cases file with
        | some f =>
          obtain ⟨content, n⟩ := f
          exact served_file hk content n pad
        | none =>
          rw [read.eq_def]
          simp only []
          split
          · rename_i hpad
            exact served_pad hk hpad
          obtain rfl : pad = 0 := by omega
          cases links with
          | nil =>
            refine ⟨fun _ => ⟨rfl, ?_⟩, nofun⟩
            simp [Reader.bytes, Links.bytes, zeros]
          | cons name record below rest =>
            have hserved := served_header hk (headerOf record) rest
              (childOf record below) (fileOf record) 0
            have hbytes := bytes_node name record below rest
            have hwork := work_node name record below rest
            refine ⟨fun h => ?_, fun h => ?_⟩
            · obtain ⟨hout, hnil⟩ := hserved.1 h
              refine ⟨hout, ?_⟩
              rw [hbytes] at hnil
              simpa [Reader.bytes, zeros] using hnil
            · obtain ⟨hmore, hless⟩ := hserved.2 h
              refine ⟨?_, ?_⟩
              · rw [← hmore, hbytes]
                simp [Reader.bytes, zeros]
              · refine Nat.lt_of_lt_of_le hless (Nat.le_trans hwork ?_)
                simp [Reader.work]

/-- **What a caller reads.**  The bytes of the reader, whatever the buffers. -/
theorem streams_bytes (r : Reader) : Streams r r.bytes := by
  intro bytes
  constructor
  · intro h
    induction h with
    | eof hk heof =>
      obtain ⟨hout, hnil⟩ := (served_read hk _).1 heof
      rw [hout, hnil]
    | more hk heof _ ih =>
      rw [ih]
      exact ((served_read hk _).2 heof).1.symm
  · rintro rfl
    -- buffers of one byte get to the end as well as any
    induction hwork : r.work using Nat.strongRecOn generalizing r with
    | ind n ih =>
      have hserved := served_read Nat.one_pos r
      cases heof : (read 1 r).eof with
      | true =>
        obtain ⟨hout, hnil⟩ := hserved.1 heof
        have hreads := Reads.eof Nat.one_pos heof
        rwa [hout, ← hnil] at hreads
      | false =>
        obtain ⟨hbytes, hless⟩ := hserved.2 heof
        rw [hbytes]
        exact Reads.more Nat.one_pos heof (ih _ (hwork ▸ hless) _ rfl)

end Reading

end TarFormat
