import GoIpfs.CidV0V1
import GoIpfs.RmBlocks

/-!
# Reading and deleting through the CIDv0/v1 wrapper

`Has`, `Get` and `GetSize` of `thirdparty/cidv0v1/blockstore.go` ask for both
versions of a CID, and `Get` files a second copy of a block that it finds under
the other version.  `DeleteBlock` is inherited and knows nothing of versions.

All three reads are views of one partial map, `contents`: the data that the
wrapper has for a CID.  A read leaves that map as it is (`contents_after`), which
gives the consistency of any sequence of reads (`reads_consistent`).  A deletion
does not remove the CID from the map as long as a copy under the other version
remains, and `deleteBlock_removes_iff` says when one remains.
-/

namespace CidV0V1

open Option

/-! ## The other reads -/

/-- `idstore.Has`. -/
def innerHas (keys : Finset Cid) (c : Cid) : Bool :=
  if c.hash.code = identity then true else c ∈ keys

/-- `idstore.GetSize`. -/
def innerGetSize (data : Contents) (keys : Finset Cid) (c : Cid) : Except StoreError Nat :=
  if c.hash.code = identity then .ok c.hash.digest.length
  else if c ∈ keys then .ok (data c.hash).length
  else .error .notFound

def has (keys : Finset Cid) (c : Cid) : Bool :=
  if innerHas keys c then true
  else
    match tryOtherCidVersion c with
    | none => false
    | some c1 => innerHas keys c1

def getSize (data : Contents) (keys : Finset Cid) (c : Cid) : Except StoreError Nat :=
  match innerGetSize data keys c with
  | .ok size => .ok size
  | .error .notFound =>
    match tryOtherCidVersion c with
    | none => .error .notFound
    | some c1 => innerGetSize data keys c1

/-- A read through the wrapper. -/
inductive Call where
  | has (c : Cid)
  | get (c : Cid)
  | getSize (c : Cid)
  deriving DecidableEq

inductive Answer where
  | has (found : Bool)
  | get (result : Except StoreError Block)
  | getSize (result : Except StoreError Nat)

def answer (data : Contents) (keys : Finset Cid) : Call → Answer
  | .has c => .has (has keys c)
  | .get c => .get (get data keys c).1
  | .getSize c => .getSize (getSize data keys c)

/-- What a call leaves in the store; only `Get` writes. -/
def afterCall (data : Contents) (keys : Finset Cid) : Call → Finset Cid
  | .get c => (get data keys c).2
  | .has _ | .getSize _ => keys

def after (data : Contents) (keys : Finset Cid) (calls : List Call) : Finset Cid :=
  calls.foldl (afterCall data) keys

def answers (data : Contents) : Finset Cid → List Call → List Answer
  | _, [] => []
  | keys, call :: calls => answer data keys call :: answers data (afterCall data keys call) calls

/-! ## One partial map behind the three reads -/

/-- The data that the store below the wrapper has for a CID. -/
def innerContents (data : Contents) (keys : Finset Cid) (c : Cid) : Option (List UInt8) :=
  if c.hash.code = identity then some c.hash.digest
  else if c ∈ keys then some (data c.hash)
  else none

/-- The data that the wrapper has for a CID. -/
def contents (data : Contents) (keys : Finset Cid) (c : Cid) : Option (List UInt8) :=
  (innerContents data keys c).or ((tryOtherCidVersion c).bind (innerContents data keys))

variable {data : Contents} {keys : Finset Cid} {c c1 : Cid}

theorem Cid.ext_shape {a b : Cid} (hversion : a.version = b.version) (hcodec : a.codec = b.codec)
    (hhash : a.hash = b.hash) : a = b := by
  cases b
  cases hversion
  cases hcodec
  cases hhash
  rfl

section

variable (h : tryOtherCidVersion c = some c1)
include h

theorem tryOtherCidVersion_symm : tryOtherCidVersion c1 = some c := by
  obtain ⟨hcodec, hfits, -⟩ := tryOtherCidVersion_shape h
  have hshape : c.codec = dagProtobuf ∧ c.hash.FitsV0 := ⟨hcodec, hfits⟩
  unfold tryOtherCidVersion at h
  rw [dif_pos hshape] at h
  cases hversion : c.version with
  | v0 =>
    rw [hversion] at h
    cases h
    unfold tryOtherCidVersion newCidV1
    rw [dif_pos ⟨rfl, hfits⟩]
    exact congrArg some (Cid.ext_shape hversion.symm hcodec.symm rfl)
  | v1 =>
    rw [hversion] at h
    cases h
    unfold tryOtherCidVersion newCidV0
    rw [dif_pos ⟨rfl, hfits⟩]
    exact congrArg some (Cid.ext_shape hversion.symm hcodec.symm rfl)

theorem tryOtherCidVersion_ne : c1 ≠ c := by
  rintro rfl
  obtain ⟨hcodec, hfits, -⟩ := tryOtherCidVersion_shape h
  unfold tryOtherCidVersion at h
  rw [dif_pos ⟨hcodec, hfits⟩] at h
  cases hversion : c1.version <;> rw [hversion] at h <;>
    have := congrArg Cid.version (some.inj h) <;> rw [hversion] at this <;> cases this

theorem tryOtherCidVersion_not_identity : c.hash.code ≠ identity := by
  rw [(tryOtherCidVersion_shape h).2.1.1]
  decide

end

theorem contents_eq :
    contents data keys c =
      if c.hash.code = identity then some c.hash.digest
      else if c ∈ keys ∨ ∃ c1 ∈ tryOtherCidVersion c, c1 ∈ keys then some (data c.hash)
      else none := by
  unfold contents innerContents
  by_cases hid : c.hash.code = identity
  · simp [hid]
  · cases hother : tryOtherCidVersion c with
    | none => by_cases hc : c ∈ keys <;> simp [hid, hc]
    | some c1 =>
      have hhash : c1.hash = c.hash := (tryOtherCidVersion_shape hother).2.2
      by_cases hc : c ∈ keys <;> simp [hid, hc, hhash]

theorem contents_other (h : tryOtherCidVersion c = some c1) :
    contents data keys c1 = contents data keys c := by
  rw [contents_eq, contents_eq, tryOtherCidVersion_symm h, h, (tryOtherCidVersion_shape h).2.2]
  simp [or_comm]

theorem innerHas_eq (data : Contents) : innerHas keys c = (innerContents data keys c).isSome := by
  unfold innerHas innerContents
  split
  · rfl
  · split <;> simp [*]

theorem innerGet_eq :
    innerGet data keys c =
      match innerContents data keys c with
      | some bytes => .ok ⟨c, bytes⟩
      | none => .error .notFound := by
  unfold innerGet innerContents
  split
  · rfl
  · split <;> rfl

theorem innerGetSize_eq :
    innerGetSize data keys c =
      match innerContents data keys c with
      | some bytes => .ok bytes.length
      | none => .error .notFound := by
  unfold innerGetSize innerContents
  split
  · rfl
  · split <;> rfl

theorem has_eq (data : Contents) : has keys c = (contents data keys c).isSome := by
  unfold has contents
  rw [innerHas_eq data]
  cases innerContents data keys c with
  | some bytes => rfl
  | none =>
    cases tryOtherCidVersion c with
    | none => rfl
    | some c1 => exact innerHas_eq data

theorem get_eq :
    (get data keys c).1 =
      match contents data keys c with
      | some bytes => .ok ⟨c, bytes⟩
      | none => .error .notFound := by
  unfold get contents
  rw [innerGet_eq]
  cases innerContents data keys c with
  | some bytes => rfl
  | none =>
    cases tryOtherCidVersion c with
    | none => rfl
    | some c1 =>
      simp only [innerGet_eq, none_or, bind_some]
      cases innerContents data keys c1 <;> rfl

theorem getSize_eq :
    getSize data keys c =
      match contents data keys c with
      | some bytes => .ok bytes.length
      | none => .error .notFound := by
  unfold getSize contents
  rw [innerGetSize_eq]
  cases innerContents data keys c with
  | some bytes => rfl
  | none =>
    cases tryOtherCidVersion c with
    | none => rfl
    | some c1 => exact innerGetSize_eq

theorem contents_isSome : (contents data keys c).isSome ↔ Readable data keys c := by
  unfold Readable
  rw [get_eq]
  cases contents data keys c <;> simp

/-! ## Reads leave the map alone -/

/-- What `Get` writes: the CID it was asked for, if only its other version is
filed. -/
theorem get_keys {k : Cid} :
    k ∈ (get data keys c).2 ↔
      k ∈ keys ∨ k = c ∧ ∃ c1 ∈ tryOtherCidVersion c, c1 ∈ keys := by
  unfold get innerGet innerPut
  by_cases hid : c.hash.code = identity
  · have hnone : tryOtherCidVersion c = none := by
      cases hother : tryOtherCidVersion c with
      | none => rfl
      | some c1 => exact absurd hid (tryOtherCidVersion_not_identity hother)
    simp [hid, hnone]
  cases hother : tryOtherCidVersion c with
  | none => by_cases hc : c ∈ keys <;> simp [hid, hc]
  | some c1 =>
    have hid1 : c1.hash.code ≠ identity :=
      tryOtherCidVersion_not_identity (tryOtherCidVersion_symm hother)
    by_cases hc : c ∈ keys
    · simp only [hid, hc, if_true, if_false, mem_some_iff, exists_eq_left']
      refine ⟨.inl, ?_⟩
      rintro (hk | ⟨rfl, -⟩)
      · exact hk
      · exact hc
    · by_cases hc1 : c1 ∈ keys <;> simp [hid, hid1, hc, hc1, or_comm]

theorem contents_get {k : Cid} : contents data (get data keys k).2 c = contents data keys c := by
  have hiff : (c ∈ (get data keys k).2 ∨
        ∃ c1 ∈ tryOtherCidVersion c, c1 ∈ (get data keys k).2) ↔
      (c ∈ keys ∨ ∃ c1 ∈ tryOtherCidVersion c, c1 ∈ keys) := by
    simp only [get_keys]
    constructor
    · rintro ((hc | ⟨rfl, hcopy⟩) | ⟨c1, hother, hc1 | ⟨rfl, c2, hback, hc2⟩⟩)
      · exact .inl hc
      · exact .inr hcopy
      · exact .inr ⟨c1, hother, hc1⟩
      · -- the copy was made from the CID itself
        have heq := (tryOtherCidVersion_symm hother).symm.trans hback
        cases heq
        exact .inl hc2
    · rintro (hc | ⟨c1, hother, hc1⟩)
      · exact .inl (.inl hc)
      · exact .inr ⟨c1, hother, .inl hc1⟩
  rw [contents_eq, contents_eq]
  simp only [hiff]

variable (calls : List Call)

/-- **A sequence of reads leaves every CID with the data it had.** -/
theorem contents_after : contents data (after data keys calls) c = contents data keys c := by
  unfold after
  induction calls generalizing keys with
  | nil => rfl
  | cons call calls ih =>
    rw [List.foldl_cons, ih]
    cases call with
    | has k | getSize k => rfl
    | get k => exact contents_get

theorem answer_after (call : Call) :
    answer data (after data keys calls) call = answer data keys call := by
  cases call with
  | has k => simp only [answer, has_eq data, contents_after]
  | get k => simp only [answer, get_eq, contents_after]
  | getSize k => simp only [answer, getSize_eq, contents_after]

theorem answers_eq : answers data keys calls = calls.map (answer data keys) := by
  induction calls generalizing keys with
  | nil => rfl
  | cons call calls ih =>
    have hsame : answer data (afterCall data keys call) = answer data keys :=
      funext (answer_after [call])
    rw [answers, ih, hsame, List.map_cons]

/-- **The wrapper reads consistently.**  After any sequence of reads, the three
reads agree about every CID and about its other version, and every later
sequence of reads gets the answers that the store gave at the start. -/
theorem reads_consistent (data : Contents) (keys : Finset Cid) (before : List Call) (c : Cid) :
    let keys' := after data keys before
    (has keys' c = true ↔ ∃ block, (get data keys' c).1 = .ok block) ∧
    (has keys' c = true ↔ ∃ size, getSize data keys' c = .ok size) ∧
    (∀ block, (get data keys' c).1 = .ok block →
      block.cid = c ∧ getSize data keys' c = .ok block.data.length) ∧
    (∀ c1, tryOtherCidVersion c = some c1 →
      has keys' c1 = has keys' c ∧ getSize data keys' c1 = getSize data keys' c ∧
      (get data keys' c1).1.map Block.data = (get data keys' c).1.map Block.data) ∧
    (∀ later, answers data keys' later = later.map (answer data keys)) := by
  intro keys'
  have hcases : contents data keys' c = none ∨ ∃ bytes, contents data keys' c = some bytes := by
    cases contents data keys' c with
    | none => exact .inl rfl
    | some bytes => exact .inr ⟨bytes, rfl⟩
  refine ⟨?_, ?_, ?_, ?_, ?_⟩
  · rw [has_eq data, get_eq]
    rcases hcases with h | ⟨bytes, h⟩ <;> simp [h]
  · rw [has_eq data, getSize_eq]
    rcases hcases with h | ⟨bytes, h⟩ <;> simp [h]
  · intro block hblock
    rw [get_eq] at hblock
    rw [getSize_eq]
    rcases hcases with h | ⟨bytes, h⟩ <;> rw [h] at hblock ⊢ <;> cases hblock
    exact ⟨rfl, rfl⟩
  · intro c1 hother
    simp only [has_eq data, getSize_eq, get_eq, contents_other hother]
    rcases hcases with h | ⟨bytes, h⟩ <;> rw [h] <;> exact ⟨trivial, trivial, rfl⟩
  · intro later
    rw [answers_eq]
    exact List.map_congr_left fun call _ => answer_after before call

/-! ## Deleting -/

section Deleting

open RmBlocks (RemovedBlock errNotFound)

/-- The loop body of `RmBlocks` over the wrapped store: what it sends, if it
sends something, and what it leaves. -/
def rmBlock (str : Cid → String) (quiet force : Bool) (keys : Finset Cid) (c : Cid) :
    Option RemovedBlock × Finset Cid :=
  if !has keys c && !force then (some ⟨str c, errNotFound⟩, keys)
  else (if quiet then none else some ⟨str c, ""⟩, deleteBlock keys c)

/-- The loop body does over the wrapped store what it does over any store that
answers `Has` the same way and does not fail. -/
theorem rmBlock_removeOne (call : RmBlocks.Call Cid) (rest : List Cid) (s : RmBlocks.State Cid)
    (hstore : s.store c = has keys c) (hhas : call.hasError s.hasCalls.length = none)
    (hdelete : call.deleteError s.deleteCalls.length = none) :
    (RmBlocks.removeOne call c rest s).phase =
      match (rmBlock call.str call.quiet call.force keys c).1 with
      | none => .removing rest
      | some r => .sending r (.removing rest) := by
  unfold RmBlocks.removeOne rmBlock
  rw [hhas]
  simp only [hstore]
  split
  · rfl
  · unfold RmBlocks.deleteOne
    simp only [hdelete]
    cases call.quiet <;> rfl

theorem contents_deleteBlock :
    contents data (deleteBlock keys c) c = none ↔
      c.hash.code ≠ identity ∧ ∀ c1, tryOtherCidVersion c = some c1 → c1 ∉ keys := by
  rw [contents_eq]
  unfold deleteBlock
  by_cases hid : c.hash.code = identity
  · simp [hid]
  · cases hother : tryOtherCidVersion c with
    | none => simp [hid]
    | some c1 =>
      have hne : c1 ≠ c := tryOtherCidVersion_ne hother
      simp [hid, hne]

/-- Where a sequence of reads leaves a copy: where one was, and where the other
version was filed and the copy has been asked for. -/
theorem mem_after_iff (hother : tryOtherCidVersion c = some c1) (calls : List Call) :
    c1 ∈ after data keys calls ↔ c1 ∈ keys ∨ c ∈ keys ∧ Call.get c1 ∈ calls := by
  have hback := tryOtherCidVersion_symm hother
  have hne : c ≠ c1 := (tryOtherCidVersion_ne hother).symm
  induction calls generalizing keys with
  | nil => simp [after]
  | cons call calls ih =>
    refine Iff.trans ih ?_
    cases call with
    | has k | getSize k => simp [afterCall]
    | get k =>
      simp only [afterCall, get_keys, List.mem_cons, Call.get.injEq]
      by_cases hk : c1 = k
      · subst hk
        simp only [hback, hne, mem_some_iff, exists_eq_left', true_and, false_and,
          true_or, or_false, and_true]
        tauto
      · by_cases hck : c = k
        · subst hck
          simp only [hother, hk, mem_some_iff, exists_eq_left', true_and, false_and,
            false_or, or_false]
          tauto
        · simp only [hk, hck, false_and, false_or, or_false]

/-- **When a deletion removes a block.**  After a sequence of reads and
`DeleteBlock(c)`, the CID is gone, and what `RmBlocks` reports as removed is
gone, exactly if the CID does not carry its data, its other version was not
filed, and no read has made a copy under the other version. -/
theorem deleteBlock_removes_iff (data : Contents) (keys : Finset Cid) (reads : List Call)
    (c : Cid) :
    let keys' := after data keys reads
    ((has (deleteBlock keys' c) c = false ∧
        (get data (deleteBlock keys' c) c).1 = .error .notFound) ∧
      ∀ str quiet force, (rmBlock str quiet force keys' c).1 = some ⟨str c, ""⟩ →
        ¬ Readable data (rmBlock str quiet force keys' c).2 c) ↔
    (c.hash.code ≠ identity ∧ ∀ c1, tryOtherCidVersion c = some c1 →
      c1 ∉ keys ∧ (c ∈ keys → Call.get c1 ∉ reads)) := by
  intro keys'
  have hgone : (has (deleteBlock keys' c) c = false ∧
      (get data (deleteBlock keys' c) c).1 = .error .notFound) ↔
      contents data (deleteBlock keys' c) c = none := by
    rw [has_eq data, get_eq]
    cases contents data (deleteBlock keys' c) c <;> simp
  have hcond : (c.hash.code ≠ identity ∧ ∀ c1, tryOtherCidVersion c = some c1 → c1 ∉ keys') ↔
      (c.hash.code ≠ identity ∧ ∀ c1, tryOtherCidVersion c = some c1 →
        c1 ∉ keys ∧ (c ∈ keys → Call.get c1 ∉ reads)) := by
    refine and_congr_right fun _ => forall_congr' fun c1 => forall_congr' fun hother => ?_
    rw [mem_after_iff hother]
    tauto
  rw [hgone, ← hcond, ← contents_deleteBlock]
  refine ⟨And.left, fun hnone => ⟨hnone, ?_⟩⟩
  intro str quiet force hreport
  have hdeleted : (rmBlock str quiet force keys' c).2 = deleteBlock keys' c := by
    unfold rmBlock at hreport ⊢
    split
    · rename_i hmissing
      rw [if_pos hmissing] at hreport
      have herror : errNotFound = "" := congrArg RemovedBlock.error (some.inj hreport)
      exact absurd herror (by decide)
    · rfl
  rw [hdeleted, ← contents_isSome, hnone]
  exact Bool.false_ne_true

/-- A block is filed as CIDv1 and has been read once as CIDv0.  `RmBlocks` reports
the CIDv1 as removed, and it can be read as before. -/
theorem deleteBlock_leaves_copy :
    let data : Contents := fun _ => [7]
    let keys := after data {sampleV1} [.get sampleV0]
    has (deleteBlock keys sampleV1) sampleV1 = true ∧
    (get data (deleteBlock keys sampleV1) sampleV1).1 = .ok ⟨sampleV1, [7]⟩ ∧
    (rmBlock (fun _ => "bafy") false false keys sampleV1).1 = some ⟨"bafy", ""⟩ ∧
    has (rmBlock (fun _ => "bafy") false false keys sampleV1).2 sampleV1 = true := by
  decide

end Deleting

end CidV0V1
