import GoIpfs.GoReader
import GoIpfs.TarFormat

/-!
# The tar reader over any data reader

`tarReader.Read` and `countReader.Read` (`tar/format.go`), with the readers of
the contents left open: they may return short and empty answers, and `io.EOF`
with their last bytes or after them.  Links that cannot be fetched are part of
the model; a failed fetch is returned by the call that needs it.

A tar reader delivers what its state still holds, stage by stage: a header, what
is below the node or its contents, the zeros after the contents, and the links
that are left.  Each stage is a lemma that puts bytes in front of what follows,
by induction on the stage's own reader.

The reader of `TarFormat` is the one with a data reader that fills every buffer
(`read_embed`).
-/

namespace TarStream

open GoBytes GoReader List Option
open TarFormat (blockSize padding zeros zeros_split padded)

/-- The links of a node, with what comes of fetching each: an error, or the
header with an error, nothing or a reader behind the link `data`, and the links
below it. -/
inductive Links (ρ : Type) where
  | nil
  | cons (node : Except String (Bytes × Except String (Option ρ))) (below rest : Links ρ)

/-- `tarReader`; `nil` is a nil pointer.  `fileRead` is a `countReader`: the
reader of the contents and the count of the bytes that it has returned. -/
inductive Reader (ρ : Type) where
  | nil
  | mk (links : Links ρ) (hdrBuf : Option Bytes) (childRead : Reader ρ)
      (fileRead : Option (ρ × Nat)) (pad : Nat)

variable {ρ : Type}

def newReader (links : Links ρ) : Reader ρ := .mk links none .nil none 0

def childOf : Links ρ → Reader ρ
  | .nil => .nil
  | below => newReader below

/-- The first case of `Read`: the rest of a header. -/
def readHeader (k : Nat) (buf : Bytes) (links : Links ρ) (child : Reader ρ)
    (file : Option (ρ × Nat)) (pad : Nat) : Answer (Reader ρ) :=
  if buf = [] then ⟨[], none, .mk links none child file pad⟩
  else ⟨buf.take k, none, .mk links (some (buf.drop k)) child file pad⟩

variable (dataRead : Nat → ρ → Answer ρ)

/-- `tarReader.Read` with a buffer of `k` bytes. -/
def read (k : Nat) : Reader ρ → Answer (Reader ρ)
  | .nil => ⟨[], some .eof, .nil⟩
  | .mk links (some buf) child file pad => readHeader k buf links child file pad
  | .mk links none (.mk l h c f p) file pad =>
    let r := read k (.mk l h c f p)
    if r.err = some .eof then ⟨r.out, none, .mk links none .nil file pad⟩
    else ⟨r.out, r.err, .mk links none r.next file pad⟩
  | .mk links none .nil (some (file, n)) pad =>
    let r := dataRead k file
    if r.err = some .eof then
      ⟨r.out, none, .mk links none .nil none (padding (n + r.out.length))⟩
    else ⟨r.out, r.err, .mk links none .nil (some (r.next, n + r.out.length)) pad⟩
  | .mk links none .nil none pad =>
    if pad > 0 then
      ⟨zeros (min k pad), none, .mk links none .nil none (pad - min k pad)⟩
    else
      match links with
      | .nil => ⟨[], some .eof, .mk .nil none .nil none pad⟩
      | .cons (.error err) _ rest => ⟨[], some (.other err), .mk rest none .nil none pad⟩
      | .cons (.ok (header, .error err)) _ rest =>
        ⟨[], some (.other err), .mk rest (some header) .nil none pad⟩
      | .cons (.ok (header, .ok (some data))) _ rest =>
        readHeader k header rest .nil (some (data, 0)) pad
      | .cons (.ok (header, .ok none)) below rest =>
        readHeader k header rest (childOf below) none pad

/-! ## What is read -/

variable {dataRead} {content : ρ → Bytes}

/-- Every link can be fetched, and the readers behind `data` deliver their
contents. -/
def Fetched (dataRead : Nat → ρ → Answer ρ) (content : ρ → Bytes) : Links ρ → Prop
  | .nil => True
  | .cons node below rest =>
    (∃ header, node = .ok (header, .ok none) ∨
      ∃ data, node = .ok (header, .ok (some data)) ∧ Delivers dataRead data (content data)) ∧
    Fetched dataRead content below ∧ Fetched dataRead content rest

/-- The archive of the links: for each its header, and then its contents with the
zeros after them, or else what is below it. -/
def Links.bytes (content : ρ → Bytes) : Links ρ → Bytes
  | .nil => []
  | .cons (.error _) _ rest => rest.bytes content
  | .cons (.ok (header, .error _)) _ rest => header ++ rest.bytes content
  | .cons (.ok (header, .ok (some data))) _ rest =>
    header ++ padded (content data) ++ rest.bytes content
  | .cons (.ok (header, .ok none)) below rest =>
    header ++ below.bytes content ++ rest.bytes content

/-- The length of every header is a multiple of the block size. -/
def Links.Aligned : Links ρ → Prop
  | .nil => True
  | .cons (.error _) below rest => below.Aligned ∧ rest.Aligned
  | .cons (.ok (header, _)) below rest =>
    blockSize ∣ header.length ∧ below.Aligned ∧ rest.Aligned

section Stages

variable {links : Links ρ} {child : Reader ρ} {file : Option (ρ × Nat)} {pad : Nat} {out : Bytes}

theorem length_zeros (n : Nat) : (zeros n).length = n := length_replicate

theorem delivers_pad (hrest : Delivers (read dataRead) (.mk links none .nil none 0) out) :
    Delivers (read dataRead) (.mk links none .nil none pad) (zeros pad ++ out) := by
  induction pad using Nat.strong_induction_on with
  | _ pad ih =>
    cases Nat.eq_zero_or_pos pad with
    | inl hzero =>
      subst hzero
      exact hrest
    | inr hpos =>
      refine Delivers.of_step fun k hk => ?_
      have hread : read dataRead k (.mk links none .nil none pad) =
          ⟨zeros (min k pad), none, .mk links none .nil none (pad - min k pad)⟩ := by
        exact if_pos hpos
      rw [hread]
      refine ⟨zeros (pad - min k pad) ++ out, ?_, ?_, rfl, ih _ (by omega)⟩
      · rw [← append_assoc, ← zeros_split]
      · rw [length_zeros]
        exact Nat.min_le_left _ _

theorem delivers_file {data : ρ} {bytes : Bytes} (h : Delivers dataRead data bytes) (n : Nat)
    (hrest : Delivers (read dataRead) (.mk links none .nil none 0) out) :
    Delivers (read dataRead) (.mk links none .nil (some (data, n)) pad)
      (bytes ++ (zeros (padding (n + bytes.length)) ++ out)) := by
  induction h generalizing n with
  | @intro data bytes hfits hend _ ih =>
    refine Delivers.of_step fun k hk => ?_
    obtain ⟨hlen, rest, hbytes⟩ := hfits k hk
    rw [read.eq_def]
    dsimp only
    cases herr : (dataRead k data).err with
    | some e =>
      obtain ⟨rfl, hout⟩ := hend k hk e herr
      rw [if_pos rfl]
      refine ⟨_, ?_, hlen, rfl, delivers_pad hrest⟩
      rw [hout]
    | none =>
      have hdrop : bytes.drop (dataRead k data).out.length = rest := by
        rw [← hbytes, drop_left]
      have hnext := ih k hk herr (n + (dataRead k data).out.length)
      rw [hdrop] at hnext
      rw [if_neg (by simp)]
      refine ⟨_, ?_, hlen, rfl, hnext⟩
      rw [← hbytes, length_append, append_assoc, Nat.add_assoc]

theorem delivers_child {bytes : Bytes} (h : Delivers (read dataRead) child bytes)
    (hrest : Delivers (read dataRead) (.mk links none .nil file pad) out) :
    Delivers (read dataRead) (.mk links none child file pad) (bytes ++ out) := by
  induction h with
  | @intro child bytes hfits hend _ ih =>
    cases child with
    | nil =>
      -- a nil reader has nothing to deliver
      have hnil : bytes = [] := (hend 1 Nat.one_pos .eof rfl).2.symm
      rw [hnil]
      exact hrest
    | mk l h c f p =>
      refine Delivers.of_step fun k hk => ?_
      obtain ⟨hlen, rest, hbytes⟩ := hfits k hk
      have hread : read dataRead k (.mk links none (.mk l h c f p) file pad) =
          if (read dataRead k (.mk l h c f p)).err = some .eof then
            ⟨(read dataRead k (.mk l h c f p)).out, none, .mk links none .nil file pad⟩
          else
            ⟨(read dataRead k (.mk l h c f p)).out, (read dataRead k (.mk l h c f p)).err,
              .mk links none (read dataRead k (.mk l h c f p)).next file pad⟩ := by
        rw [read]
      rw [hread]
      cases herr : (read dataRead k (.mk l h c f p)).err with
      | some e =>
        obtain ⟨rfl, hout⟩ := hend k hk e herr
        rw [if_pos rfl]
        exact ⟨out, by rw [hout], hlen, rfl, hrest⟩
      | none =>
        have hdrop : bytes.drop (read dataRead k (.mk l h c f p)).out.length = rest := by
          rw [← hbytes, drop_left]
        have hnext := ih k hk herr
        rw [hdrop] at hnext
        rw [if_neg (by simp)]
        exact ⟨rest ++ out, by rw [← hbytes, append_assoc], hlen, rfl, hnext⟩

theorem delivers_header (buf : Bytes)
    (hrest : Delivers (read dataRead) (.mk links none child file pad) out) :
    Delivers (read dataRead) (.mk links (some buf) child file pad) (buf ++ out) := by
  induction hlen : buf.length using Nat.strong_induction_on generalizing buf with
  | _ n ih =>
    refine Delivers.of_step fun k hk => ?_
    rw [read, readHeader]
    by_cases hnil : buf = []
    · rw [if_pos hnil]
      exact ⟨out, by rw [hnil], Nat.zero_le _, rfl, hrest⟩
    · have hpos := length_pos_iff.mpr hnil
      rw [if_neg hnil]
      refine ⟨buf.drop k ++ out, ?_, length_take_le _ _, rfl, ?_⟩
      · rw [← append_assoc, take_append_drop]
      · exact ih _ (by rw [length_drop]; omega) _ rfl

end Stages

/-- **A tar reader delivers the archive of its links.** -/
theorem delivers_links {links : Links ρ} (h : Fetched dataRead content links) :
    Delivers (read dataRead) (newReader links) (links.bytes content) := by
  induction links with
  | nil =>
    refine Delivers.of_eof fun k _ => ?_
    exact ⟨rfl, rfl⟩
  | cons node below rest ihbelow ihrest =>
    obtain ⟨⟨header, hnode⟩, hbelow, hrest⟩ := h
    have hnext := ihrest hrest
    -- the call that fetches a node answers as one on the fetched node does
    rcases hnode with rfl | ⟨data, rfl, hdata⟩
    · have hchild : Delivers (read dataRead) (childOf below) (below.bytes content) := by
        cases below with
        | nil =>
          refine Delivers.of_eof fun k _ => ?_
          exact ⟨rfl, rfl⟩
        | cons node' below' rest' => exact ihbelow hbelow
      rw [Links.bytes, append_assoc]
      refine (delivers_header header (delivers_child hchild hnext)).congr fun k _ => ?_
      rfl
    · have hfile : Delivers (read dataRead) (.mk rest none .nil (some (data, 0)) 0) _ :=
        delivers_file hdata 0 hnext
      rw [Nat.zero_add, ← append_assoc] at hfile
      rw [Links.bytes, append_assoc]
      refine (delivers_header header hfile).congr fun k _ => ?_
      rfl

theorem dvd_length_padded (bytes : Bytes) : blockSize ∣ (padded bytes).length := by
  unfold padded padding blockSize
  rw [length_append, length_zeros]
  omega

theorem dvd_length_bytes {links : Links ρ} (h : links.Aligned) :
    blockSize ∣ (links.bytes content).length := by
  induction links with
  | nil => exact Nat.dvd_zero _
  | cons node below rest ihbelow ihrest =>
    cases node with
    | error err => exact ihrest h.2
    | ok node =>
      obtain ⟨header, data⟩ := node
      obtain ⟨hheader, hbelow, hrest⟩ := h
      have hnext := ihrest hrest
      cases data with
      | error err =>
        rw [Links.bytes, length_append]
        exact Nat.dvd_add hheader hnext
      | ok data =>
        cases data with
        | none =>
          rw [Links.bytes, length_append, length_append]
          exact Nat.dvd_add (Nat.dvd_add hheader (ihbelow hbelow)) hnext
        | some data =>
          rw [Links.bytes, length_append, length_append]
          exact Nat.dvd_add (Nat.dvd_add hheader (dvd_length_padded _)) hnext

/-- **The tar reader streams the archive.**  Whatever the buffers and however the
data readers cut their contents, a caller gets parts of the archive without an
error and comes to its end, with all of it; and the archive is made of whole
blocks if the headers are. -/
theorem tarReader_streams (dataRead : Nat → ρ → Answer ρ) (content : ρ → Bytes)
    (links : Links ρ) (hfetched : Fetched dataRead content links) :
    (∀ buffers : List Nat, (∀ k ∈ buffers, 0 < k) →
      let answer := readAll (read dataRead) buffers (newReader links)
      answer.err = none ∧ answer.out <+: links.bytes content ∨
        answer.err = some .eof ∧ answer.out = links.bytes content) ∧
    (∀ buffers : Nat → Nat, (∀ i, 0 < buffers i) → ∃ n,
      (readAll (read dataRead) ((List.range n).map buffers) (newReader links)).err =
        some .eof) ∧
    (links.Aligned → blockSize ∣ (links.bytes content).length) :=
  ⟨fun _ hpos => readAll_of_delivers (delivers_links hfetched) hpos,
    exists_readAll_eof (delivers_links hfetched), dvd_length_bytes⟩

/-! ## Readers of contents -/

/-- A reader that returns its content in given pieces, some of them empty, and
`io.EOF` after the last one. -/
def pieceRead (k : Nat) : List Bytes → Answer (List Bytes)
  | [] => ⟨[], some .eof, []⟩
  | piece :: rest =>
    if piece.length ≤ k then ⟨piece, none, rest⟩
    else ⟨piece.take k, none, piece.drop k :: rest⟩

theorem delivers_pieces (pieces : List Bytes) : Delivers pieceRead pieces pieces.flatten := by
  induction pieces with
  | nil => exact Delivers.of_eof fun _ _ => ⟨rfl, rfl⟩
  | cons piece rest ih =>
    induction hlen : piece.length using Nat.strong_induction_on generalizing piece with
    | _ n ihpiece =>
      refine Delivers.of_step fun k hk => ?_
      rw [pieceRead]
      by_cases hfits : piece.length ≤ k
      · rw [if_pos hfits]
        exact ⟨rest.flatten, flatten_cons, hfits, rfl, ih⟩
      · rw [if_neg hfits]
        refine ⟨(piece.drop k :: rest).flatten, ?_, length_take_le _ _, rfl, ?_⟩
        · rw [flatten_cons, flatten_cons, ← append_assoc, take_append_drop]
        · exact ihpiece _ (by rw [length_drop]; omega) _ rfl

/-- A directory with a file whose contents come in two pieces. -/
def twoPieces : Links (List Bytes) :=
  .cons (.ok ([1], .ok none))
    (.cons (.ok ([2], .ok (some [[3], [], [4, 5]]))) .nil .nil) .nil

theorem tarReader_streams_twoPieces :
    let archive : Bytes := [1, 2, 3, 4, 5] ++ zeros 509
    (∀ buffers : List Nat, (∀ k ∈ buffers, 0 < k) →
      let answer := readAll (read pieceRead) buffers (newReader twoPieces)
      answer.err = none ∧ answer.out <+: archive ∨
        answer.err = some .eof ∧ answer.out = archive) ∧
    ∀ buffers : Nat → Nat, (∀ i, 0 < buffers i) → ∃ n,
      (readAll (read pieceRead) ((List.range n).map buffers) (newReader twoPieces)).err =
        some .eof := by
  have hfetched : Fetched pieceRead flatten twoPieces :=
    ⟨⟨_, .inl rfl⟩, ⟨⟨_, .inr ⟨_, rfl, delivers_pieces _⟩⟩, trivial, trivial⟩, trivial⟩
  have hpad : padding 3 = 509 := rfl
  have harchive : twoPieces.bytes flatten = [1, 2, 3, 4, 5] ++ zeros 509 := by
    simp [twoPieces, Links.bytes, padded, hpad]
  have hstreams := tarReader_streams pieceRead flatten twoPieces hfetched
  rw [harchive] at hstreams
  exact ⟨hstreams.1, hstreams.2.1⟩

/-- The data reader of `TarFormat`: it fills the buffer, and returns `io.EOF` with
its last bytes. -/
def fullRead (k : Nat) (content : Bytes) : Answer Bytes :=
  if content.length < k then ⟨content, some .eof, []⟩
  else ⟨content.take k, none, content.drop k⟩

def embedLinks : TarFormat.Links → Links Bytes
  | .nil => .nil
  | .cons _ record below rest =>
    .cons (.ok (TarFormat.headerOf record, .ok (record.bind TarFormat.Record.file)))
      (embedLinks below) (embedLinks rest)

def embed : TarFormat.Reader → Reader Bytes
  | .nil => .nil
  | .mk links hdrBuf childRead fileRead pad =>
    .mk (embedLinks links) hdrBuf (embed childRead) fileRead pad

def embedResult (result : TarFormat.Result) : Answer (Reader Bytes) :=
  ⟨result.out, if result.eof then some .eof else none, embed result.next⟩

theorem readHeader_embed (k : Nat) (buf : Bytes) (links : TarFormat.Links)
    (child : TarFormat.Reader) (file : Option (Bytes × Nat)) (pad : Nat) :
    readHeader k buf (embedLinks links) (embed child) file pad =
      embedResult (TarFormat.readHeader k buf links child file pad) := by
  unfold readHeader TarFormat.readHeader
  split
  · rfl
  · rfl

theorem childOf_embed (below : TarFormat.Links) :
    childOf (embedLinks below) =
      embed (if below = .nil then .nil else TarFormat.newReader below) := by
  cases below with
  | nil | cons name record below rest => rfl

/-- **The reader of `TarFormat` is the one over `fullRead`.** -/
theorem read_embed (k : Nat) (r : TarFormat.Reader) :
    read fullRead k (embed r) = embedResult (TarFormat.read k r) := by
  induction r with
  | nil => rfl
  | mk links hdrBuf child file pad ih =>
    cases hdrBuf with
    | some buf =>
      exact readHeader_embed k buf links child file pad
    | none =>
      cases child with
      | mk l h c f p =>
        rw [TarFormat.read, embed]
        rw [embed] at ih ⊢
        rw [read, ih]
        cases heof : (TarFormat.read k (.mk l h c f p)).eof with
        | true | false => simp [embedResult, heof, embed]
      | nil =>
        cases file with
        | some f =>
          obtain ⟨content, n⟩ := f
          rw [TarFormat.read, embed, embed, read]
          unfold fullRead
          by_cases hlen : content.length < k
          · rw [if_pos hlen, if_pos hlen, if_pos rfl]
            rfl
          · have htake : (content.take k).length = k := by
              rw [length_take]
              omega
            rw [if_neg hlen, if_neg hlen, if_neg (by simp), htake]
            rfl
        | none =>
          rw [TarFormat.read.eq_def, embed, embed, read.eq_def]
          dsimp only
          by_cases hpad : pad > 0
          · rw [if_pos hpad, if_pos hpad]
            rfl
          rw [if_neg hpad, if_neg hpad]
          obtain rfl : pad = 0 := Nat.eq_zero_of_not_pos hpad
          cases links with
          | nil => rfl
          | cons name record below rest =>
            unfold TarFormat.childOf TarFormat.fileOf
            rw [embedLinks]
            cases hfile : record.bind TarFormat.Record.file with
            | none =>
              dsimp only
              rw [childOf_embed, readHeader_embed]
              simp only [hfile, isSome_none, Bool.false_eq_true, false_or, map_none]
            | some content =>
              dsimp only
              simp only [hfile, isSome_some, true_or, if_true, map_some]
              exact readHeader_embed k _ rest .nil (some (content, 0)) 0

end TarStream
