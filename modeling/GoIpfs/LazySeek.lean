import GoIpfs.GoInt
import Mathlib.Data.List.Basic

/-!
# The lazy seeker of the gateway

`http.ServeContent` seeks to the end of a file to learn its size, and seeking in
a DAG is slow, so the gateway hands it a `lazySeeker`: `Seek` only notes the
position, and `Read` moves the underlying reader when it has to.

The underlying reader is any state machine that `Serves` a content: a `Seek`
within the content moves or fails in place, and a `Read` gives bytes from the
position, as few as it likes and with any error.  `Eager` describes the calls of
a seeker that moves at once over the same reader.  The lazy seeker is in step
with it at the position `offset`, and it keeps the position of the reader in
`realOffset` (`InStep`); the two are kept by every call, so every sequence of
calls is one of the eager seeker (`lazySeeker_refines`).
-/

namespace LazySeek

open GoInt Option List

inductive Err where
  /-- `io.EOF` -/
  | eof
  | other (text : String)
  deriving DecidableEq, Repr

def seekStart : Int := 0

def seekCurrent : Int := 1

def seekEnd : Int := 2

/-- An `io.ReadSeeker` with state `ρ`. -/
structure Reader (ρ : Type) where
  /-- `Seek` with `io.SeekStart`. -/
  seek : Int → ρ → (Int × Option Err) × ρ
  /-- `Read` into a buffer of the given length: the bytes it puts there. -/
  read : Nat → ρ → (List UInt8 × Option Err) × ρ

/-- A `lazySeeker`. -/
structure Seeker (ρ : Type) where
  reader : ρ
  size : Int
  offset : Int
  realOffset : Int

variable {ρ : Type}

/-- The `lazySeeker` that `serveFile` makes for a reader. -/
def newLazySeeker (size : Int) (reader : ρ) : Seeker ρ := ⟨reader, size, 0, 0⟩

def invalidOffset : Err := .other "invalid seek offset"

def invalidWhence (whence : Int) : Err := .other ("invalid whence: " ++ toString whence)

namespace Seeker

/-- `lazySeeker.Seek` with `io.SeekStart`. -/
def seekFromStart (s : Seeker ρ) (offset : Int) : (Int × Option Err) × Seeker ρ :=
  if offset < 0 then ((s.offset, some invalidOffset), s)
  else ((offset, none), { s with offset := offset })

/-- `lazySeeker.Seek`. -/
def seek (s : Seeker ρ) (offset whence : Int) : (Int × Option Err) × Seeker ρ :=
  if whence = seekEnd then s.seekFromStart (wrap64 (s.size + offset))
  else if whence = seekCurrent then s.seekFromStart (wrap64 (s.offset + offset))
  else if whence = seekStart then s.seekFromStart offset
  else ((s.offset, some (invalidWhence whence)), s)

/-- How the loop of `Read` is left: the error it returns, if any, and the
arguments of the calls of `Seek` that it has made. -/
structure Moved (ρ : Type) where
  err : Option Err
  seeker : Seeker ρ
  seeks : List Int

/-- The loop of `lazySeeker.Read`; `none` when the fuel does not suffice. -/
def moveLoop (R : Reader ρ) : Nat → Seeker ρ → Option (Moved ρ)
  | fuel, s =>
    if s.offset = s.realOffset then some ⟨none, s, []⟩
    else
      match fuel with
      | 0 => none
      | fuel + 1 =>
        match R.seek s.offset s.reader with
        | ((_, some e), reader) =>
          some ⟨some e, { s with reader := reader }, [s.offset]⟩
        | ((off, none), reader) =>
          (moveLoop R fuel { s with reader := reader, realOffset := off }).map
            fun m => { m with seeks := s.offset :: m.seeks }

/-- `lazySeeker.Read` into a buffer of length `n`: the bytes, the error, the
seeker afterwards and the calls of the underlying `Seek`. -/
def read (R : Reader ρ) (fuel : Nat) (s : Seeker ρ) (n : Nat) :
    Option ((List UInt8 × Option Err) × Seeker ρ × List Int) :=
  if s.size ≤ s.offset then some (([], some .eof), s, [])
  else
    (moveLoop R fuel s).map fun m =>
      match m.err with
      | some e => (([], some e), m.seeker, m.seeks)
      | none =>
        let answer := R.read n m.seeker.reader
        (answer.1,
          { m.seeker with
            reader := answer.2
            realOffset := wrap64 (m.seeker.realOffset + answer.1.1.length)
            offset := wrap64 (m.seeker.offset + answer.1.1.length) },
          m.seeks)

end Seeker

/-! ## Sequences of calls -/

inductive Call where
  | seek (offset whence : Int)
  | read (n : Nat)
  deriving DecidableEq, Repr

inductive Result where
  | seek (position : Int) (err : Option Err)
  | read (data : List UInt8) (err : Option Err)
  deriving DecidableEq, Repr

/-- A call that has returned, with the two offsets before it. -/
structure Entry where
  call : Call
  result : Result
  offset : Int
  realOffset : Int
  /-- The calls of the underlying `Seek` made by it. -/
  seeks : List Int
  deriving DecidableEq, Repr

def call (R : Reader ρ) (fuel : Nat) (s : Seeker ρ) (c : Call) : Option (Entry × Seeker ρ) :=
  match c with
  | .seek offset whence =>
    let answer := s.seek offset whence
    some (⟨c, .seek answer.1.1 answer.1.2, s.offset, s.realOffset, []⟩, answer.2)
  | .read n =>
    (s.read R fuel n).map fun answer =>
      (⟨c, .read answer.1.1 answer.1.2, s.offset, s.realOffset, answer.2.2⟩, answer.2.1)

def calls (R : Reader ρ) (fuel : Nat) : Seeker ρ → List Call → Option (List Entry × Seeker ρ)
  | s, [] => some ([], s)
  | s, c :: rest =>
    (call R fuel s c).bind fun done =>
      (calls R fuel done.2 rest).map fun later => (done.1 :: later.1, later.2)

/-! ## The eager seeker -/

/-- The reader gives the bytes of `content` from its position `pos`: inside the
content a `Seek` moves there or fails in place, and a `Read` gives at most as
many bytes as fit into the buffer, with any error. -/
structure Serves (R : Reader ρ) (content : List UInt8) (pos : ρ → Nat) : Prop where
  seek : ∀ (off : Nat) (r : ρ), off < content.length →
    ((R.seek off r).1 = ((off : Int), none) ∧ pos (R.seek off r).2 = off) ∨
    (∃ e, (R.seek off r).1.2 = some e) ∧ pos (R.seek off r).2 = pos r
  read : ∀ (n : Nat) (r : ρ),
    (R.read n r).1.1 = (content.drop (pos r)).take (R.read n r).1.1.length ∧
    (R.read n r).1.1.length ≤ n ∧
    pos (R.read n r).2 = pos r + (R.read n r).1.1.length

/-- The position that a `Seek` asks for, in exact integers. -/
def target (size p : Nat) (offset whence : Int) : Option Int :=
  if whence = seekEnd then some (size + offset)
  else if whence = seekCurrent then some (p + offset)
  else if whence = seekStart then some offset
  else none

/-- A call of a seeker over the reader that moves at once, from the position `p`
to the position `q`. -/
inductive Eager (R : Reader ρ) (content : List UInt8) (pos : ρ → Nat) :
    (p : Nat) → Call → Result → (q : Nat) → Prop where
  | moved {p q : Nat} {offset whence : Int} :
      target content.length p offset whence = some (q : Int) →
      Eager R content pos p (.seek offset whence) (.seek q none) q
  | negative {p : Nat} {offset whence t : Int} :
      target content.length p offset whence = some t → t < 0 →
      Eager R content pos p (.seek offset whence) (.seek p (some invalidOffset)) p
  | unknown {p : Nat} {offset whence : Int} :
      target content.length p offset whence = none →
      Eager R content pos p (.seek offset whence) (.seek p (some (invalidWhence whence))) p
  | atEnd {p n : Nat} :
      content.length ≤ p → Eager R content pos p (.read n) (.read [] (some .eof)) p
  /-- The reader refuses to go to the position. -/
  | refused {p n : Nat} {r : ρ} {e : Err} :
      p < content.length → pos r ≠ p → (R.seek p r).1.2 = some e →
      Eager R content pos p (.read n) (.read [] (some e)) p
  /-- The reader, at the position, gives the bytes that follow it. -/
  | given {p n : Nat} {r : ρ} {data : List UInt8} {err : Option Err} :
      p < content.length → pos r = p → (R.read n r).1 = (data, err) →
      data = (content.drop p).take data.length → data.length ≤ n →
      Eager R content pos p (.read n) (.read data err) (p + data.length)

/-- The calls of the eager seeker, one after the other. -/
inductive EagerRun (R : Reader ρ) (content : List UInt8) (pos : ρ → Nat) :
    (p : Nat) → List (Call × Result) → (q : Nat) → Prop where
  | nil {p : Nat} : EagerRun R content pos p [] p
  | cons {p q t : Nat} {c : Call} {result : Result} {rest : List (Call × Result)} :
      Eager R content pos p c result q → EagerRun R content pos q rest t →
      EagerRun R content pos p ((c, result) :: rest) t

/-- The sum that a `Seek` forms does not overflow. -/
def Entry.Fits (size : Nat) (entry : Entry) : Prop :=
  match entry.call with
  | .seek offset whence =>
    (whence = seekEnd → InInt64 (size + offset)) ∧
    (whence = seekCurrent → InInt64 (entry.offset + offset))
  | .read _ => True

instance (size : Nat) : (entry : Entry) → Decidable (entry.Fits size)
  | ⟨.seek offset whence, _, before, _, _⟩ => inferInstanceAs (Decidable
      ((whence = seekEnd → InInt64 (size + offset)) ∧
        (whence = seekCurrent → InInt64 (before + offset))))
  | ⟨.read _, _, _, _, _⟩ => inferInstanceAs (Decidable True)

/-- The underlying `Seek` is called by `Read` only, for the wanted position, and
only when the reader is elsewhere. -/
def Entry.Sparing (entry : Entry) : Prop :=
  entry.seeks ≠ [] →
    (∃ n, entry.call = .read n) ∧ entry.offset ≠ entry.realOffset ∧
      entry.seeks = [entry.offset]

/-! ## The two seekers in step -/

variable {R : Reader ρ} {content : List UInt8} {pos : ρ → Nat} {s : Seeker ρ} {p : Nat}

/-- The lazy seeker stands for an eager one at `p`, and knows where its reader
is. -/
structure InStep (content : List UInt8) (pos : ρ → Nat) (s : Seeker ρ) (p : Nat) : Prop where
  size : s.size = content.length
  offset : s.offset = p
  realOffset : s.realOffset = pos s.reader

theorem inStep_newLazySeeker (content : List UInt8) {r : ρ} (hr : pos r = 0) :
    InStep content pos (newLazySeeker content.length r) 0 :=
  ⟨rfl, rfl, (congrArg Nat.cast hr).symm⟩

section

variable (hs : InStep content pos s p)
include hs

theorem seekFromStart_inStep (t : Int) :
    (∃ q : Nat, t = q ∧ (s.seekFromStart t).1 = ((q : Int), none) ∧
      InStep content pos (s.seekFromStart t).2 q) ∨
    (t < 0 ∧ (s.seekFromStart t).1 = ((p : Int), some invalidOffset) ∧
      InStep content pos (s.seekFromStart t).2 p) := by
  unfold Seeker.seekFromStart
  by_cases hneg : t < 0
  · rw [if_pos hneg]
    exact .inr ⟨hneg, by rw [hs.offset], hs⟩
  · obtain ⟨q, rfl⟩ := Int.eq_ofNat_of_zero_le (Int.not_lt.mp hneg)
    exact .inl ⟨q, rfl, rfl, hs.size, rfl, hs.realOffset⟩

theorem seek_eq {offset whence : Int}
    (hfits : Entry.Fits content.length
      ⟨.seek offset whence, .seek 0 none, s.offset, s.realOffset, []⟩) :
    s.seek offset whence =
      match target content.length p offset whence with
      | some t => s.seekFromStart t
      | none => ((s.offset, some (invalidWhence whence)), s) := by
  obtain ⟨hend, hcurrent⟩ := hfits
  unfold Seeker.seek target
  split
  · rename_i hw
    rw [hs.size, wrap64_of_inInt64 (hend hw)]
  · split
    · rename_i hw
      rw [wrap64_of_inInt64 (hcurrent hw), hs.offset]
    · split <;> rfl

theorem seek_inStep (offset whence : Int) :
    ∃ q : Nat, InStep content pos (s.seek offset whence).2 q := by
  have hstart : ∀ t, ∃ q : Nat, InStep content pos (s.seekFromStart t).2 q := by
    intro t
    rcases seekFromStart_inStep hs t with ⟨q, _, _, hq⟩ | ⟨_, _, hp⟩
    · exact ⟨q, hq⟩
    · exact ⟨p, hp⟩
  unfold Seeker.seek
  split
  · exact hstart _
  · split
    · exact hstart _
    · split
      · exact hstart _
      · exact ⟨p, hs⟩

/-- **A `Seek` of the lazy seeker is one of the eager seeker.** -/
theorem seek_eager {offset whence : Int}
    (hfits : Entry.Fits content.length
      ⟨.seek offset whence, .seek 0 none, s.offset, s.realOffset, []⟩) :
    ∃ q : Nat, InStep content pos (s.seek offset whence).2 q ∧
      Eager R content pos p (.seek offset whence)
        (.seek (s.seek offset whence).1.1 (s.seek offset whence).1.2) q := by
  rw [seek_eq hs hfits]
  cases ht : target content.length p offset whence with
  | none =>
    refine ⟨p, hs, ?_⟩
    rw [hs.offset]
    exact Eager.unknown ht
  | some t =>
    rcases seekFromStart_inStep hs t with ⟨q, rfl, hanswer, hq⟩ | ⟨hneg, hanswer, hp⟩
    · refine ⟨q, hq, ?_⟩
      rw [hanswer]
      exact Eager.moved ht
    · refine ⟨p, hp, ?_⟩
      rw [hanswer]
      exact Eager.negative ht hneg

end

variable {fuel : Nat}

/-- The loop of `Read` ends: the reader is at the wanted position, or has
refused to go there and stays where it was. -/
theorem moveLoop_inStep (hserves : Serves R content pos) (hs : InStep content pos s p)
    (hp : p < content.length) (hfuel : 0 < fuel) :
    ∃ m : Seeker.Moved ρ, Seeker.moveLoop R fuel s = some m ∧
      InStep content pos m.seeker p ∧
      (m.seeks ≠ [] → s.offset ≠ s.realOffset ∧ m.seeks = [s.offset]) ∧
      ((m.err = none ∧ pos m.seeker.reader = p) ∨
        ∃ e, m.err = some e ∧ pos s.reader ≠ p ∧ (R.seek p s.reader).1.2 = some e) := by
  obtain ⟨fuel, rfl⟩ : ∃ k, fuel = k + 1 := ⟨fuel - 1, by omega⟩
  unfold Seeker.moveLoop
  by_cases hsame : s.offset = s.realOffset
  · rw [if_pos hsame]
    refine ⟨_, rfl, hs, absurd rfl, .inl ⟨rfl, ?_⟩⟩
    have hreal : (p : Int) = pos s.reader := by
      rw [← hs.offset, hsame, hs.realOffset]
    exact (Int.ofNat_inj.mp hreal).symm
  rw [if_neg hsame]
  have helse : pos s.reader ≠ p := by
    intro heq
    exact hsame (by rw [hs.offset, hs.realOffset, heq])
  dsimp only
  rw [hs.offset]
  rcases hserves.seek p s.reader hp with ⟨hanswer, hpos⟩ | ⟨⟨e, he⟩, hpos⟩
  -- the reader moves, so the loop finds the offsets equal
  · split
    · rename_i e reader heq
      rw [heq] at hanswer
      cases hanswer
    rename_i off reader heq
    rw [heq] at hanswer hpos
    cases hanswer
    unfold Seeker.moveLoop
    rw [if_pos rfl]
    refine ⟨_, rfl, ⟨hs.size, rfl, ?_⟩, ?_, .inl ⟨rfl, hpos⟩⟩
    · show (p : Int) = pos reader
      rw [← hpos]
    · intro _
      exact ⟨by rwa [← hs.offset], rfl⟩
  -- it refuses, and the loop returns its error
  · split
    · rename_i o _ reader heq
      rw [heq] at he hpos
      cases he
      refine ⟨_, rfl, ⟨hs.size, rfl, ?_⟩, ?_, .inr ⟨e, rfl, helse, by rw [heq]⟩⟩
      · show s.realOffset = pos reader
        rw [hs.realOffset, ← hpos]
      · intro _
        exact ⟨by rwa [← hs.offset], rfl⟩
    · rename_i off reader heq
      rw [heq] at he
      cases he

theorem read_length_le (hserves : Serves R content pos) (n : Nat) {r : ρ} (hr : pos r = p) :
    (R.read n r).1.1.length ≤ content.length - p := by
  have hdata := congrArg length (hserves.read n r).1
  rw [length_take, length_drop, hr] at hdata
  omega

section

variable (hserves : Serves R content pos) (hsize : content.length < 9223372036854775808)
include hserves hsize

/-- **A `Read` of the lazy seeker ends and is one of the eager seeker.**  It
calls the underlying `Seek` at most once, and only if the reader is elsewhere. -/
theorem read_eager (hs : InStep content pos s p) (hfuel : 0 < fuel) (n : Nat) :
    ∃ (data : List UInt8) (err : Option Err) (t : Seeker ρ) (seeks : List Int) (q : Nat),
      s.read R fuel n = some ((data, err), t, seeks) ∧
      InStep content pos t q ∧
      Eager R content pos p (.read n) (.read data err) q ∧
      (seeks ≠ [] → s.offset ≠ s.realOffset ∧ seeks = [s.offset]) := by
  unfold Seeker.read
  by_cases hend : s.size ≤ s.offset
  · rw [if_pos hend]
    rw [hs.size, hs.offset] at hend
    exact ⟨[], some .eof, s, [], p, rfl, hs, Eager.atEnd (Int.ofNat_le.mp hend),
      absurd rfl⟩
  rw [if_neg hend]
  rw [hs.size, hs.offset] at hend
  have hp : p < content.length := by omega
  obtain ⟨m, hm, hin, hseeks, hcases⟩ := moveLoop_inStep hserves hs hp hfuel
  rw [hm]
  rcases hcases with ⟨hok, hpos⟩ | ⟨e, hfail, helse, hrefused⟩
  · have hdata := hserves.read n m.seeker.reader
    have hlen := read_length_le hserves n hpos
    have hadvance : wrap64 ((p : Int) + (R.read n m.seeker.reader).1.1.length) =
        ((p + (R.read n m.seeker.reader).1.1.length : Nat) : Int) := by
      exact wrap64_of_inInt64 ⟨by omega, by omega⟩
    refine ⟨(R.read n m.seeker.reader).1.1, (R.read n m.seeker.reader).1.2, { m.seeker with
        reader := (R.read n m.seeker.reader).2
        realOffset := wrap64
          (m.seeker.realOffset + (R.read n m.seeker.reader).1.1.length)
        offset := wrap64 (m.seeker.offset + (R.read n m.seeker.reader).1.1.length) },
      m.seeks, p + (R.read n m.seeker.reader).1.1.length, ?_, ⟨hin.size, ?_, ?_⟩, ?_, hseeks⟩
    · rw [map_some, hok]
    · show wrap64 (m.seeker.offset + _) = _
      rw [hin.offset, hadvance]
    · show wrap64 (m.seeker.realOffset + _) = _
      rw [hin.realOffset, hpos, hadvance, hdata.2.2, hpos]
    · refine Eager.given hp hpos rfl ?_ hdata.2.1
      rw [← hpos]
      exact hdata.1
  · refine ⟨[], some e, m.seeker, m.seeks, p, ?_, hin, Eager.refused hp helse hrefused, hseeks⟩
    rw [map_some, hfail]

theorem call_inStep (hs : InStep content pos s p) (hfuel : 0 < fuel) (c : Call) :
    ∃ (entry : Entry) (t : Seeker ρ) (q : Nat),
      call R fuel s c = some (entry, t) ∧ entry.call = c ∧ entry.Sparing ∧
      InStep content pos t q ∧
      (entry.Fits content.length → Eager R content pos p c entry.result q) := by
  cases c with
  | seek offset whence =>
    by_cases hfits : Entry.Fits content.length
      ⟨.seek offset whence, .seek 0 none, s.offset, s.realOffset, []⟩
    · obtain ⟨q, hq, heager⟩ := seek_eager (R := R) hs hfits
      exact ⟨_, _, q, rfl, rfl, absurd rfl, hq, fun _ => heager⟩
    · obtain ⟨q, hq⟩ := seek_inStep hs offset whence
      exact ⟨_, _, q, rfl, rfl, absurd rfl, hq, fun h => absurd h hfits⟩
  | read n =>
    obtain ⟨data, err, t, seeks, q, hread, hq, heager, hseeks⟩ :=
      read_eager hserves hsize hs hfuel n
    refine ⟨⟨.read n, .read data err, s.offset, s.realOffset, seeks⟩, t, q, ?_, rfl, ?_, hq,
      fun _ => heager⟩
    · simp only [call, hread, map_some]
    · intro hne
      exact ⟨⟨n, rfl⟩, hseeks hne⟩

theorem calls_inStep (hfuel : 0 < fuel) (cs : List Call) (hs : InStep content pos s p) :
    ∃ (entries : List Entry) (t : Seeker ρ) (q : Nat),
      calls R fuel s cs = some (entries, t) ∧ entries.map Entry.call = cs ∧
      (∀ entry ∈ entries, entry.Sparing) ∧ InStep content pos t q ∧
      ((∀ entry ∈ entries, entry.Fits content.length) →
        EagerRun R content pos p (entries.map fun e => (e.call, e.result)) q) := by
  induction cs generalizing s p with
  | nil =>
    exact ⟨[], s, p, rfl, rfl, fun _ h => absurd h not_mem_nil, hs, fun _ => EagerRun.nil⟩
  | cons c rest ih =>
    obtain ⟨entry, t, q, hcall, hkind, hsparing, ht, heager⟩ :=
      call_inStep hserves hsize hs hfuel c
    obtain ⟨entries, u, q', hcalls, hkinds, hsparings, hu, hrun⟩ := ih ht
    refine ⟨entry :: entries, u, q', ?_, ?_, ?_, hu, ?_⟩
    · simp only [calls, hcall, bind_some, hcalls, map_some]
    · rw [map_cons, hkind, hkinds]
    · exact forall_mem_cons.mpr ⟨hsparing, hsparings⟩
    · intro hfits
      obtain ⟨hfirst, hlater⟩ := forall_mem_cons.mp hfits
      refine EagerRun.cons ?_ (hrun hlater)
      rw [hkind]
      exact heager hfirst

end

/-- **The lazy seeker refines the eager one.**  Over every reader that serves
the content and for every sequence of calls, all calls return, whatever fuel the
loop of `Read` is given beyond one round.  The underlying `Seek` is called by
`Read` only, and only when the reader is not at the wanted position.  If no sum
overflows, the results are those of a seeker that moves at once, and the
position at the end is its position. -/
theorem lazySeeker_refines (hserves : Serves R content pos)
    (hsize : content.length < 9223372036854775808) {r : ρ} (hr : pos r = 0)
    {fuel : Nat} (hfuel : 0 < fuel) (cs : List Call) :
    ∃ (entries : List Entry) (t : Seeker ρ) (q : Nat),
      calls R fuel (newLazySeeker content.length r) cs = some (entries, t) ∧
      entries.map Entry.call = cs ∧
      (∀ entry ∈ entries, entry.Sparing) ∧
      t.offset = q ∧ t.realOffset = pos t.reader ∧
      ((∀ entry ∈ entries, entry.Fits content.length) →
        EagerRun R content pos 0 (entries.map fun e => (e.call, e.result)) q) := by
  obtain ⟨entries, t, q, hcalls, hkinds, hsparing, ht, hrun⟩ :=
    calls_inStep hserves hsize hfuel cs (inStep_newLazySeeker content hr)
  exact ⟨entries, t, q, hcalls, hkinds, hsparing, ht.offset, ht.realOffset, hrun⟩

/-! ## A difficult reader -/

/-- A reader that refuses every second `Seek` and gives at most two bytes at a
time; its state is the position and the number of calls of `Seek`. -/
def reluctantReader (content : List UInt8) : Reader (Nat × Nat) where
  seek off r :=
    if r.2 % 2 = 1 then ((r.1, some (.other "I'm a bad seeker")), (r.1, r.2 + 1))
    else ((off, none), (off.toNat, r.2 + 1))
  read n r :=
    let data := (content.drop r.1).take (min n 2)
    ((data, if data = [] then some .eof else none), (r.1 + data.length, r.2))

theorem serves_reluctantReader (content : List UInt8) :
    Serves (reluctantReader content) content Prod.fst where
  seek off r hoff := by
    by_cases hodd : r.2 % 2 = 1
    · have hanswer : (reluctantReader content).seek off r = _ := if_pos hodd
      rw [hanswer]
      exact .inr ⟨⟨_, rfl⟩, rfl⟩
    · have hanswer : (reluctantReader content).seek off r = _ := if_neg hodd
      rw [hanswer]
      exact .inl ⟨rfl, Int.toNat_natCast off⟩
  read n r := by
    refine ⟨?_, ?_, rfl⟩
    · show (content.drop r.1).take (min n 2) =
        (content.drop r.1).take ((content.drop r.1).take (min n 2)).length
      rw [length_take, take_eq_take_iff]
      omega
    · show ((content.drop r.1).take (min n 2)).length ≤ n
      rw [length_take]
      omega

/-- The content of the gateway's own tests, `"fubar"`. -/
def fubar : List UInt8 := [102, 117, 98, 97, 114]

/-- Calls on `fubar` and what they return: the second `Seek` of the reader fails
and the `Read` after it gives the byte that was asked for. -/
def fubarEntries : List Entry :=
  [⟨.seek 0 seekEnd, .seek 5 none, 0, 0, []⟩,
    ⟨.read 4, .read [] (some .eof), 5, 0, []⟩,
    ⟨.seek 1 seekStart, .seek 1 none, 5, 0, []⟩,
    ⟨.read 4, .read [117, 98] none, 1, 0, [1]⟩,
    ⟨.seek (-100) seekCurrent, .seek 3 (some invalidOffset), 3, 3, []⟩,
    ⟨.seek 7 3, .seek 3 (some (invalidWhence 3)), 3, 3, []⟩,
    ⟨.seek (-2) seekCurrent, .seek 1 none, 3, 3, []⟩,
    ⟨.read 1, .read [] (some (.other "I'm a bad seeker")), 1, 3, [1]⟩,
    ⟨.read 1, .read [117] none, 1, 3, [1]⟩]

theorem lazySeeker_refines_fubar :
    (∀ entry ∈ fubarEntries, entry.Fits fubar.length) ∧
    ∃ q, EagerRun (reluctantReader fubar) fubar Prod.fst 0
      (fubarEntries.map fun e => (e.call, e.result)) q := by
  have hfits : ∀ entry ∈ fubarEntries, entry.Fits fubar.length := by decide +kernel
  have heval : (calls (reluctantReader fubar) 1 (newLazySeeker fubar.length (0, 0))
      (fubarEntries.map Entry.call)).map Prod.fst = some fubarEntries := by decide +kernel
  obtain ⟨entries, t, q, hcalls, -, -, -, -, hrun⟩ :=
    lazySeeker_refines (serves_reluctantReader fubar) (by decide) (r := (0, 0)) rfl
      (by decide : 0 < 1) (fubarEntries.map Entry.call)
  rw [hcalls] at heval
  obtain rfl : entries = fubarEntries := some.inj heval
  exact ⟨hfits, q, hrun hfits⟩

end LazySeek
