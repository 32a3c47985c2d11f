import GoIpfs.GoBytes
import GoIpfs.GoInt

/-!
# Reading several files with an offset and a length

`cat` (`core/commands/cat.go`).  Offset and length
are `int64`, the sum of the sizes is a `uint64`.  Files that end before the offset
are passed over, the first other one is read from the offset, and once the length
is reached the last reader is cut by the overshoot.

The readers together hold the bytes that they should.  Their number is returned
modulo `2^64`: without a length nothing keeps the sum below that.
-/

namespace Cat

open GoBytes GoInt List

/-- A file of the API.  `Size` is given by the number of the call, `Seek` is from
the start. -/
structure File where
  content : Bytes
  size : Nat → Except String Int
  seek : Int → Except String Int

inductive Node where
  | file (f : File)
  | directory
  | other

/-- A file that has been moved to `pos`, perhaps in a `LimitReader`. -/
structure Reader where
  file : File
  pos : Int
  limit : Option Int

def Reader.bytes (r : Reader) : Bytes :=
  let rest := r.file.content.drop r.pos.toNat
  match r.limit with
  | none => rest
  | some n => rest.take n.toNat

theorem bytes_whole (f : File) (offset : Nat) :
    Reader.bytes ⟨f, offset, none⟩ = f.content.drop offset := rfl

theorem bytes_limited (f : File) (offset n : Nat) :
    Reader.bytes ⟨f, offset, some n⟩ = (f.content.drop offset).take n := rfl

/-- How the loop goes on after a file. -/
inductive Step where
  | skip (offset : Int)
  | add (reader : Reader) (length : Nat)
  | last (reader : Reader) (length : Nat)

/-- The body of the loop of `cat`, for a file. -/
def File.cat (max offset : Int) (length : Nat) (file : File) : Except String Step := do
  let fsize ← file.size 0
  if offset > fsize then return .skip (wrap64 (offset - fsize))
  let count ← file.seek offset
  let fsize ← file.size 1
  let size := uint64 (wrap64 (fsize - count))
  let length := (length + size) % 18446744073709551616
  if max > 0 ∧ length ≥ uint64 max then
    let overshoot := wrap64 (length - uint64 max : Nat)
    if overshoot ≠ 0 then
      return .last ⟨file, count, some (wrap64 (wrap64 size - overshoot))⟩ (uint64 max)
    return .last ⟨file, count, none⟩ length
  return .add ⟨file, count, none⟩ length

section

variable {Path : Type} (get : Path → Except String Node)

/-- The loop of `cat`, with the readers so far. -/
def catLoop (max : Int) :
    List Path → Int → Nat → List Reader → Except String (List Reader × Nat)
  | [], _, length, readers => .ok (readers, length)
  | p :: paths, offset, length, readers =>
    match get p with
    | .error err => .error err
    | .ok .directory => .error "this dag node is a directory"
    | .ok .other => .error "operation not supported"
    | .ok (.file file) =>
      match file.cat max offset length with
      | .error err => .error err
      | .ok (.skip offset) => catLoop max paths offset length readers
      | .ok (.add reader length) => catLoop max paths 0 length (readers ++ [reader])
      | .ok (.last reader length) => .ok (readers ++ [reader], length)

def cat (paths : List Path) (offset max : Int) : Except String (List Reader × Nat) :=
  if max = 0 then .ok ([], 0) else catLoop get max paths offset 0 []

end

/-! ## One file -/

/-- A file whose size is stable, and that is moved to where it is asked to. -/
structure Regular (f : File) : Prop where
  fits : f.content.length < 9223372036854775808
  size : ∀ call, f.size call = .ok f.content.length
  seek : ∀ offset, 0 ≤ offset → f.seek offset = .ok offset

section File

variable {f : File} {max : Int} {offset length : Nat}

theorem wrap64_ofNat {n : Nat} (hn : n < 9223372036854775808) : wrap64 n = n :=
  wrap64_of_inInt64 ⟨by omega, by omega⟩

theorem cat_skip (h : Regular f) (hfits : offset < 9223372036854775808)
    (hlong : f.content.length < offset) :
    f.cat max offset length = .ok (.skip (offset - f.content.length : Nat)) := by
  have hgt : (offset : Int) > f.content.length := by omega
  have hsub : ((offset : Int) - f.content.length) = (offset - f.content.length : Nat) := by omega
  unfold File.cat
  simp only [h.size, bind, Except.bind, if_pos hgt, hsub]
  rw [wrap64_ofNat (by omega)]
  rfl

variable (h : Regular f) (hshort : offset ≤ f.content.length)
include h hshort

theorem cat_file :
    f.cat max offset length =
      let sum := (length + (f.content.length - offset)) % 18446744073709551616
      if max > 0 ∧ sum ≥ uint64 max then
        let overshoot := wrap64 (sum - uint64 max : Nat)
        if overshoot ≠ 0 then
          .ok (.last ⟨f, offset,
            some (wrap64 ((f.content.length - offset : Nat) - overshoot))⟩ (uint64 max))
        else .ok (.last ⟨f, offset, none⟩ sum)
      else .ok (.add ⟨f, offset, none⟩ sum) := by
  have hfits := h.fits
  have hle : ¬ (offset : Int) > f.content.length := by omega
  have hsub : ((f.content.length : Int) - offset) = (f.content.length - offset : Nat) := by omega
  have hwrap : wrap64 (f.content.length - offset : Nat) = (f.content.length - offset : Nat) :=
    wrap64_ofNat (by omega)
  have huint : uint64 (f.content.length - offset : Nat) = f.content.length - offset :=
    uint64_ofNat (by omega)
  unfold File.cat
  simp only [h.size, h.seek offset (by omega), bind, Except.bind, if_neg hle, hsub, hwrap, huint,
    pure, Except.pure]

theorem cat_add_all :
    f.cat (-1) offset length =
      .ok (.add ⟨f, offset, none⟩
        ((length + (f.content.length - offset)) % 18446744073709551616)) := by
  rw [cat_file h hshort]
  exact if_neg fun hpos => absurd hpos.1 (by decide)

theorem cat_add {max : Nat} (hmax : max < 9223372036854775808)
    (hless : length + (f.content.length - offset) < max) :
    f.cat max offset length =
      .ok (.add ⟨f, offset, none⟩ (length + (f.content.length - offset))) := by
  have hsum : (length + (f.content.length - offset)) % 18446744073709551616 =
      length + (f.content.length - offset) := Nat.mod_eq_of_lt (by omega)
  have hmaxU : uint64 max = max := uint64_ofNat (by omega)
  rw [cat_file h hshort]
  simp only [hsum, hmaxU]
  exact if_neg fun hreached => absurd hreached.2 (by omega)

theorem cat_last {max : Nat} (hmax : max < 9223372036854775808) (hlength : length < max)
    (hreached : max ≤ length + (f.content.length - offset)) :
    ∃ reader : Reader, f.cat max offset length = .ok (.last reader max) ∧
      reader.bytes = (f.content.drop offset).take (max - length) := by
  have hfits := h.fits
  have hsize : (f.content.drop offset).length = f.content.length - offset := length_drop
  have hsum : (length + (f.content.length - offset)) % 18446744073709551616 =
      length + (f.content.length - offset) := Nat.mod_eq_of_lt (by omega)
  have hmaxU : uint64 max = max := uint64_ofNat (by omega)
  have hovershoot : wrap64 (length + (f.content.length - offset) - max : Nat) =
      (length + (f.content.length - offset) - max : Nat) := wrap64_ofNat (by omega)
  have hcond : (max : Int) > 0 ∧ length + (f.content.length - offset) ≥ max :=
    ⟨by omega, hreached⟩
  rw [cat_file h hshort]
  simp only [hsum, hmaxU, hovershoot, if_pos hcond]
  by_cases hover : length + (f.content.length - offset) = max
  · refine ⟨⟨f, offset, none⟩, ?_, ?_⟩
    · rw [if_neg (by omega), hover]
    · rw [bytes_whole, take_of_length_le (by omega)]
  have hlimit : wrap64 ((f.content.length - offset : Nat) -
      ((length + (f.content.length - offset) - max : Nat) : Int)) = (max - length : Nat) := by
    have hexact : ((f.content.length - offset : Nat) : Int) -
        ((length + (f.content.length - offset) - max : Nat) : Int) = (max - length : Nat) := by
      omega
    rw [hexact, wrap64_ofNat (by omega)]
  refine ⟨⟨f, offset, some (max - length : Nat)⟩, ?_, bytes_limited f offset _⟩
  rw [if_pos (by omega), hlimit]

end File

/-! ## The loop -/

section Loop

variable {Path : Type} {get : Path → Except String Node}

def contents (get : Path → Except String Node) (paths : List Path) : Bytes :=
  paths.flatMap fun p =>
    match get p with
    | .ok (.file f) => f.content
    | _ => []

def AllRegular (get : Path → Except String Node) (paths : List Path) : Prop :=
  ∀ p ∈ paths, ∃ f, get p = .ok (.file f) ∧ Regular f

section

variable {p : Path} {f : File} (hget : get p = .ok (.file f)) (paths : List Path)
include hget

theorem contents_cons : contents get (p :: paths) = f.content ++ contents get paths := by
  unfold contents
  rw [flatMap_cons, hget]

theorem drop_contents_skip {offset : Nat} (hlong : f.content.length < offset) :
    (contents get (p :: paths)).drop offset =
      (contents get paths).drop (offset - f.content.length) := by
  rw [contents_cons hget, drop_append, drop_eq_nil_of_le (Nat.le_of_lt hlong), nil_append]

theorem drop_contents_file {offset : Nat} (hshort : offset ≤ f.content.length) :
    (contents get (p :: paths)).drop offset = f.content.drop offset ++ contents get paths := by
  rw [contents_cons hget, drop_append_of_le_length hshort]

end

theorem bytes_append (readers : List Reader) (reader : Reader) :
    (readers ++ [reader]).flatMap Reader.bytes =
      readers.flatMap Reader.bytes ++ reader.bytes := by
  rw [flatMap_append, flatMap_singleton]

/-- Without a length the loop goes through all files, and the sum of the sizes is
taken modulo `2^64`. -/
theorem catLoop_all {paths : List Path} (hfiles : AllRegular get paths) {offset length : Nat}
    (hoffset : offset < 9223372036854775808) (hlength : length < 18446744073709551616)
    (readers : List Reader) :
    ∃ all, catLoop get (-1) paths offset length readers =
        .ok (all, (length + ((contents get paths).drop offset).length) % 18446744073709551616) ∧
      all.flatMap Reader.bytes =
        readers.flatMap Reader.bytes ++ (contents get paths).drop offset := by
  induction paths generalizing offset length readers with
  | nil =>
    refine ⟨readers, ?_, ?_⟩
    · rw [catLoop, contents, flatMap_nil, drop_nil, length_nil, Nat.add_zero,
        Nat.mod_eq_of_lt hlength]
    · rw [contents, flatMap_nil, drop_nil, append_nil]
  | cons p paths ih =>
    obtain ⟨⟨f, hget, hf⟩, hrest⟩ := forall_mem_cons.mp hfiles
    by_cases hlong : f.content.length < offset
    · rw [drop_contents_skip hget paths hlong]
      simp only [catLoop, hget, cat_skip hf hoffset hlong]
      exact ih hrest (by omega) hlength readers
    have hshort : offset ≤ f.content.length := Nat.le_of_not_lt hlong
    obtain ⟨all, hall, hbytes⟩ := ih hrest (by decide : 0 < 9223372036854775808)
      (Nat.mod_lt (length + (f.content.length - offset)) (by decide))
      (readers ++ [⟨f, offset, none⟩])
    rw [drop_zero] at hall hbytes
    rw [drop_contents_file hget paths hshort]
    simp only [catLoop, hget, cat_add_all hf hshort]
    refine ⟨all, hall.trans ?_, ?_⟩
    · rw [length_append, length_drop, ← Nat.add_assoc, Nat.mod_add_mod]
    · rw [hbytes, bytes_append, bytes_whole, append_assoc]

theorem catLoop_upTo {paths : List Path} (hfiles : AllRegular get paths)
    {max offset length : Nat} (hmax : max < 9223372036854775808)
    (hoffset : offset < 9223372036854775808) (hlength : length < max) (readers : List Reader) :
    ∃ all, catLoop get max paths offset length readers =
        .ok (all, length + (((contents get paths).drop offset).take (max - length)).length) ∧
      all.flatMap Reader.bytes =
        readers.flatMap Reader.bytes ++ ((contents get paths).drop offset).take (max - length) := by
  induction paths generalizing offset length readers with
  | nil =>
    refine ⟨readers, ?_, ?_⟩
    · rw [catLoop, contents, flatMap_nil, drop_nil, take_nil, length_nil, Nat.add_zero]
    · rw [contents, flatMap_nil, drop_nil, take_nil, append_nil]
  | cons p paths ih =>
    obtain ⟨⟨f, hget, hf⟩, hrest⟩ := forall_mem_cons.mp hfiles
    by_cases hlong : f.content.length < offset
    · rw [drop_contents_skip hget paths hlong]
      simp only [catLoop, hget, cat_skip hf hoffset hlong]
      exact ih hrest (by omega) hlength readers
    have hshort : offset ≤ f.content.length := Nat.le_of_not_lt hlong
    have hsize : (f.content.drop offset).length = f.content.length - offset := length_drop
    rw [drop_contents_file hget paths hshort]
    by_cases hreached : max ≤ length + (f.content.length - offset)
    · obtain ⟨reader, hcat, hreader⟩ := cat_last hf hshort hmax hlength hreached
      simp only [catLoop, hget, hcat]
      rw [take_append_of_le_length (by omega)]
      refine ⟨_, ?_, (bytes_append readers reader).trans (by rw [hreader])⟩
      have hcount : length + ((f.content.drop offset).take (max - length)).length = max := by
        rw [length_take]
        omega
      rw [hcount]
    · have hless : length + (f.content.length - offset) < max := Nat.lt_of_not_le hreached
      obtain ⟨all, hall, hbytes⟩ := ih hrest (by decide : 0 < 9223372036854775808) hless
        (readers ++ [⟨f, offset, none⟩])
      rw [drop_zero] at hall hbytes
      have hleft : max - length - (f.content.length - offset) =
          max - (length + (f.content.length - offset)) := by omega
      simp only [catLoop, hget, cat_add hf hshort hmax hless]
      rw [take_append, take_of_length_le (by omega), hsize, hleft]
      refine ⟨all, hall.trans ?_, ?_⟩
      · rw [length_append, hsize, Nat.add_assoc]
      · rw [hbytes, bytes_append, bytes_whole, append_assoc]

end Loop

/-! ## The command -/

section Command

variable {Path : Type} {get : Path → Except String Node}

/-- The bytes that should be read; `-1` stands for no limit. -/
def slice (offset max : Int) (bytes : Bytes) : Bytes :=
  let rest := bytes.drop offset.toNat
  if max = -1 then rest else rest.take max.toNat

/-- The readers hold the slice of the contents, and the length is its length. -/
def Correct (get : Path → Except String Node) (paths : List Path) (offset max : Int) : Prop :=
  ∃ readers length, cat get paths offset max = .ok (readers, length) ∧
    readers.flatMap Reader.bytes = slice offset max (contents get paths) ∧
    length = (slice offset max (contents get paths)).length

/-- The values of the options that `cat` is called with. -/
structure Admissible (offset max : Int) : Prop where
  offset : 0 ≤ offset ∧ InInt64 offset
  max : (max = -1 ∨ 0 ≤ max) ∧ InInt64 max

theorem cat_regular {paths : List Path} {offset max : Int} (hfiles : AllRegular get paths)
    (h : Admissible offset max) :
    ∃ readers, cat get paths offset max =
        .ok (readers, (slice offset max (contents get paths)).length % 18446744073709551616) ∧
      readers.flatMap Reader.bytes = slice offset max (contents get paths) := by
  obtain ⟨⟨hoffset, -, hoffsetLt⟩, hmax, -, hmaxLt⟩ := h
  obtain ⟨offset, rfl⟩ := Int.eq_ofNat_of_zero_le hoffset
  unfold cat slice
  rcases hmax with rfl | hmax
  · obtain ⟨all, hall, hbytes⟩ := catLoop_all hfiles (by omega : offset < 9223372036854775808)
      (by decide : 0 < 18446744073709551616) []
    rw [Nat.zero_add] at hall
    exact ⟨all, hall, hbytes⟩
  obtain ⟨max, rfl⟩ := Int.eq_ofNat_of_zero_le hmax
  rw [if_neg (by omega : ¬ (max : Int) = -1)]
  cases max with
  | zero => exact ⟨[], rfl, rfl⟩
  | succ max =>
    obtain ⟨all, hall, hbytes⟩ := catLoop_upTo hfiles (by omega : max + 1 < 9223372036854775808)
      (by omega : offset < 9223372036854775808) (Nat.succ_pos max) []
    rw [Nat.zero_add, Nat.sub_zero] at hall
    refine ⟨all, hall.trans ?_, hbytes⟩
    have hlen := length_take_le (max + 1) ((contents get paths).drop offset)
    rw [Int.toNat_natCast, Int.toNat_natCast, Nat.mod_eq_of_lt (by omega)]

end Command

/-- **Offset and length.**  Over regular files the readers and the length that
`cat` returns are right exactly if there is a limit, or fewer than `2^64` bytes
follow the offset. -/
theorem cat_correct_iff {Path : Type} (get : Path → Except String Node) (paths : List Path)
    (offset max : Int) (hfiles : AllRegular get paths) (hargs : Admissible offset max) :
    Correct get paths offset max ↔
      max ≠ -1 ∨ ((contents get paths).drop offset.toNat).length < 18446744073709551616 := by
  obtain ⟨readers, hcat, hbytes⟩ := cat_regular hfiles hargs
  have hcorrect : Correct get paths offset max ↔
      (slice offset max (contents get paths)).length < 18446744073709551616 := by
    refine ⟨fun ⟨readers', length, hcat', _, hlength⟩ => ?_, fun hless => ?_⟩
    · cases hcat.symm.trans hcat'
      rw [← hlength]
      exact Nat.mod_lt _ (by decide)
    · exact ⟨readers, _, hcat, hbytes, Nat.mod_eq_of_lt hless⟩
  rw [hcorrect]
  unfold slice
  by_cases hmax : max = -1
  · rw [if_pos hmax]
    exact ⟨.inr, fun h => h.resolve_left fun hne => hne hmax⟩
  · have hlimit := hargs.max.2.2
    have hlen := length_take_le max.toNat ((contents get paths).drop offset.toNat)
    rw [if_neg hmax]
    exact ⟨fun _ => .inl hmax, fun _ => by omega⟩

def memory (content : Bytes) : File where
  content := content
  size _ := .ok content.length
  seek offset := .ok offset

theorem regular_memory {content : Bytes} (h : content.length < 9223372036854775808) :
    Regular (memory content) := ⟨h, fun _ => rfl, fun _ _ => rfl⟩

theorem cat_correct_iff_small :
    Correct (fun name : Bytes => .ok (.file (memory name))) [[1, 2, 3], [], [4, 5]] 2 2 := by
  refine (cat_correct_iff _ _ _ _ (fun name hname => ⟨_, rfl, regular_memory ?_⟩) ?_).mpr
    (.inl (by decide))
  · revert name
    decide
  · exact ⟨by decide, by decide⟩

/-- Four times the same file of `2^62` bytes: the length that is returned is zero. -/
theorem cat_four_huge_files :
    let huge : File := memory (List.replicate 4611686018427387904 0)
    ∃ readers, cat (fun _ : Unit => .ok (.file huge)) [(), (), (), ()] 0 (-1) =
        .ok (readers, 0) ∧
      (readers.flatMap Reader.bytes).length = 18446744073709551616 := by
  intro huge
  have hlength : huge.content.length = 4611686018427387904 := length_replicate
  have hregular : Regular huge := regular_memory (by rw [length_replicate]; decide)
  have hcontents : (slice 0 (-1)
      (contents (fun _ : Unit => .ok (.file huge)) [(), (), (), ()])).length =
        18446744073709551616 := by
    simp only [slice, contents, Int.toNat_zero, drop_zero, if_true, flatMap_cons,
      flatMap_nil, length_append, hlength, length_nil]
  obtain ⟨readers, hcat, hbytes⟩ := cat_regular
    (fun _ _ => ⟨huge, rfl, hregular⟩ : AllRegular (fun _ : Unit => .ok (.file huge))
      [(), (), (), ()])
    (⟨by decide, by decide⟩ : Admissible 0 (-1))
  rw [hcontents] at hcat
  exact ⟨readers, hcat, by rw [hbytes, hcontents]⟩

end Cat
