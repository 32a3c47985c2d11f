import Mathlib.Data.Finset.Insert
import Mathlib.Data.Finset.Erase

/-!
# The CIDv0/v1 blockstore wrapper

`cidv0v1.NewBlockstore` (`thirdparty/cidv0v1/blockstore.go`) over the identity
store of `BaseBlockstoreCtor` (`core/node/storage.go`).  The store files a block
under its CID, so the same dag-pb block may be filed as CIDv0, as CIDv1 or as
both.  A store is given by the set of keys under which blocks are filed and by
the data that belongs to each multihash.
-/

namespace CidV0V1

inductive Version where
  | v0
  | v1
  deriving DecidableEq, Repr

/-- `cid.DagProtobuf`. -/
def dagProtobuf : Nat := 0x70

/-- `cid.Raw`. -/
def raw : Nat := 0x55

/-- `mh.SHA2_256`. -/
def sha2_256 : Nat := 0x12

/-- `mh.ID`, whose digest is the data itself. -/
def identity : Nat := 0x00

structure Multihash where
  code : Nat
  digest : List UInt8
  deriving DecidableEq, Repr

/-- The multihash can be written as a CIDv0. -/
def Multihash.FitsV0 (hash : Multihash) : Prop :=
  hash.code = sha2_256 ∧ hash.digest.length = 32

instance (hash : Multihash) : Decidable hash.FitsV0 :=
  inferInstanceAs (Decidable (_ ∧ _))

/-- A CID; a CIDv0 is always dag-pb with a sha2-256 multihash. -/
structure Cid where
  version : Version
  codec : Nat
  hash : Multihash
  v0_shape : version = .v0 → codec = dagProtobuf ∧ hash.FitsV0
  deriving DecidableEq

def newCidV0 (hash : Multihash) (h : hash.FitsV0) : Cid :=
  ⟨.v0, dagProtobuf, hash, fun _ => ⟨rfl, h⟩⟩

def newCidV1 (codec : Nat) (hash : Multihash) : Cid :=
  ⟨.v1, codec, hash, fun h => nomatch h⟩

/-- `tryOtherCidVersion`; `none` is `cid.Undef`. -/
def tryOtherCidVersion (c : Cid) : Option Cid :=
  if h : c.codec = dagProtobuf ∧ c.hash.FitsV0 then
    match c.version with
    | .v0 => some (newCidV1 dagProtobuf c.hash)
    | .v1 => some (newCidV0 c.hash h.2)
  else none

structure Block where
  cid : Cid
  data : List UInt8
  deriving DecidableEq

/-- `bs.ErrNotFound`, the only error of a store that does not fail. -/
inductive StoreError where
  | notFound
  deriving DecidableEq, Repr

/-- The data of each multihash. -/
abbrev Contents := Multihash → List UInt8

/-! ## The store below the wrapper -/

/-- `idstore.Get`: the data of an identity CID is in the CID. -/
def innerGet (data : Contents) (keys : Finset Cid) (c : Cid) : Except StoreError Block :=
  if c.hash.code = identity then .ok ⟨c, c.hash.digest⟩
  else if c ∈ keys then .ok ⟨c, data c.hash⟩
  else .error .notFound

/-- `idstore.Put`. -/
def innerPut (keys : Finset Cid) (block : Block) : Finset Cid :=
  if block.cid.hash.code = identity then keys else insert block.cid keys

/-- `idstore.DeleteBlock`, which the wrapper inherits. -/
def deleteBlock (keys : Finset Cid) (c : Cid) : Finset Cid :=
  if c.hash.code = identity then keys else keys.erase c

/-! ## The wrapper -/

/-- `Get`: a block that is only filed under its other version is returned with
the CID that was asked for and filed under it as well. -/
def get (data : Contents) (keys : Finset Cid) (c : Cid) : Except StoreError Block × Finset Cid :=
  match innerGet data keys c with
  | .ok block => (.ok block, keys)
  | .error .notFound =>
    match tryOtherCidVersion c with
    | none => (.error .notFound, keys)
    | some c1 =>
      match innerGet data keys c1 with
      | .error err => (.error err, keys)
      | .ok block => (.ok ⟨c, block.data⟩, innerPut keys ⟨c, block.data⟩)

def Readable (data : Contents) (keys : Finset Cid) (c : Cid) : Prop :=
  ∃ block, (get data keys c).1 = .ok block

/-- The block is filed under this very CID, or needs no file. -/
def Filed (keys : Finset Cid) (c : Cid) : Prop :=
  c.hash.code = identity ∨ c ∈ keys

variable {data : Contents} {keys keys' : Finset Cid} {c : Cid}

theorem tryOtherCidVersion_shape {c1 : Cid} (h : tryOtherCidVersion c = some c1) :
    c.codec = dagProtobuf ∧ c.hash.FitsV0 ∧ c1.hash = c.hash := by
  unfold tryOtherCidVersion at h
  split at h
  · rename_i hshape
    split at h <;> cases h <;> exact ⟨hshape.1, hshape.2, rfl⟩
  · cases h

theorem innerGet_ok_iff : (∃ block, innerGet data keys c = .ok block) ↔ Filed keys c := by
  unfold innerGet Filed
  split
  · simp [*]
  · split <;> simp [*]

/-- What a read finds: the CID itself, or its other version. -/
theorem readable_iff :
    Readable data keys c ↔
      Filed keys c ∨ ∃ c1, tryOtherCidVersion c = some c1 ∧ Filed keys c1 := by
  unfold Readable
  rw [← innerGet_ok_iff]
  unfold get
  cases hget : innerGet data keys c with
  | ok block => simp
  | error err =>
    cases err with
    | notFound =>
      cases hother : tryOtherCidVersion c with
      | none => simp
      | some c1 =>
        simp only [reduceCtorEq, exists_false, Option.some.injEq, exists_eq_left', false_or]
        rw [← innerGet_ok_iff]
        cases innerGet data keys c1 <;> simp

theorem Filed.mono (hsub : keys ⊆ keys') (h : Filed keys c) : Filed keys' c :=
  h.imp_right fun hc => hsub hc

theorem Filed.readable (h : Filed keys c) : Readable data keys c :=
  readable_iff.mpr (.inl h)

theorem Readable.mono (hsub : keys ⊆ keys') (h : Readable data keys c) : Readable data keys' c := by
  rw [readable_iff] at h ⊢
  rcases h with hc | ⟨c1, hother, hc1⟩
  · exact .inl (hc.mono hsub)
  · exact .inr ⟨c1, hother, hc1.mono hsub⟩

theorem Readable.filed_of_codec (hcodec : c.codec ≠ dagProtobuf) (h : Readable data keys c) :
    Filed keys c := by
  rcases readable_iff.mp h with hc | ⟨c1, hother, _⟩
  · exact hc
  · exact absurd (tryOtherCidVersion_shape hother).1 hcodec

theorem subset_get : keys ⊆ (get data keys c).2 := by
  unfold get
  split
  · exact Finset.Subset.refl _
  split
  · exact Finset.Subset.refl _
  split
  · exact Finset.Subset.refl _
  · unfold innerPut
    split
    · exact Finset.Subset.refl _
    · exact Finset.subset_insert _ _

/-- **A successful read leaves the block filed under the CID it was asked for.** -/
theorem filed_get (h : Readable data keys c) : Filed (get data keys c).2 c := by
  obtain ⟨block, hblock⟩ := h
  unfold get at hblock ⊢
  split
  · rename_i inner hinner
    exact innerGet_ok_iff.mp ⟨inner, hinner⟩
  rename_i hinner
  rw [hinner] at hblock
  dsimp only at hblock
  split
  · rename_i hother
    rw [hother] at hblock
    cases hblock
  rename_i c1 hother
  rw [hother] at hblock
  dsimp only at hblock
  split
  · rename_i err hinner1
    rw [hinner1] at hblock
    cases hblock
  · unfold innerPut
    split
    · rename_i hid
      exact .inl hid
    · exact .inr (Finset.mem_insert_self _ _)

theorem Filed.deleteBlock {k : Cid} (h : Filed keys c) (hne : c ≠ k) :
    Filed (deleteBlock keys k) c := by
  rcases h with hid | hc
  · exact .inl hid
  · refine .inr ?_
    unfold CidV0V1.deleteBlock
    split
    · exact hc
    · exact Finset.mem_erase.mpr ⟨hne, hc⟩

/-! ## A block for examples -/

/-- The multihash of a dag-pb block. -/
def sampleHash : Multihash := ⟨sha2_256, List.replicate 32 0⟩

/-- Its CIDv0. -/
def sampleV0 : Cid := newCidV0 sampleHash ⟨rfl, rfl⟩

/-- Its CIDv1. -/
def sampleV1 : Cid := newCidV1 dagProtobuf sampleHash

end CidV0V1
