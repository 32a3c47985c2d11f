import GoIpfs.GoBytes
import Mathlib.Data.List.Infix

/-!
# Readers of Go

An `io.Reader` is a state machine: a call of `Read` with a buffer of `k` bytes
returns bytes, perhaps an error, and a new state.  It may return fewer bytes than
fit, also none, and it may return `io.EOF` with its last bytes or after them.

`Delivers` says that a reader hands out a content and then ends, whatever
buffers it is called with.  The predicate is inductive, so a reader that delivers
cannot return empty answers for ever.
-/

namespace GoReader

open GoBytes List

inductive Err where
  | eof
  | other (msg : String)
  deriving DecidableEq, Repr

/-- What a call of `Read` returns, and the state it leaves. -/
structure Answer (σ : Type) where
  out : Bytes
  err : Option Err
  next : σ

variable {σ : Type}

/-- Whatever nonempty buffers the reader is called with, it returns `content` and
ends with `io.EOF`. -/
inductive Delivers (read : Nat → σ → Answer σ) : σ → Bytes → Prop where
  | intro {s : σ} {content : Bytes}
      (hfits : ∀ k, 0 < k → (read k s).out.length ≤ k ∧ (read k s).out <+: content)
      (hend : ∀ k, 0 < k → ∀ e, (read k s).err = some e → e = .eof ∧ (read k s).out = content)
      (hmore : ∀ k, 0 < k → (read k s).err = none →
        Delivers read (read k s).next (content.drop (read k s).out.length)) :
      Delivers read s content

/-- Calls of `Read` with the given buffers, up to an error. -/
def readAll (read : Nat → σ → Answer σ) : List Nat → σ → Answer σ
  | [], s => ⟨[], none, s⟩
  | k :: buffers, s =>
    match (read k s).err with
    | some _ => read k s
    | none =>
      let rest := readAll read buffers (read k s).next
      ⟨(read k s).out ++ rest.out, rest.err, rest.next⟩

variable {read : Nat → σ → Answer σ} {s : σ} {content : Bytes}

theorem Delivers.congr {s' : σ} (h : Delivers read s' content)
    (heq : ∀ k, 0 < k → read k s = read k s') : Delivers read s content := by
  cases h with
  | intro hfits hend hmore =>
    refine .intro (fun k hk => ?_) (fun k hk => ?_) (fun k hk => ?_)
    · rw [heq k hk]
      exact hfits k hk
    · rw [heq k hk]
      exact hend k hk
    · rw [heq k hk]
      exact hmore k hk

theorem Delivers.of_step (hstep : ∀ k, 0 < k → ∃ rest, content = (read k s).out ++ rest ∧
      (read k s).out.length ≤ k ∧ (read k s).err = none ∧ Delivers read (read k s).next rest) :
    Delivers read s content := by
  refine .intro (fun k hk => ?_) (fun k hk e he => ?_) (fun k hk _ => ?_)
  · obtain ⟨rest, rfl, hlen, -, -⟩ := hstep k hk
    exact ⟨hlen, prefix_append _ _⟩
  · obtain ⟨-, -, -, hnone, -⟩ := hstep k hk
    cases hnone.symm.trans he
  · obtain ⟨rest, hcontent, -, -, hrest⟩ := hstep k hk
    rw [hcontent, drop_left]
    exact hrest

theorem Delivers.of_eof (hend : ∀ k, 0 < k → (read k s).out = [] ∧ (read k s).err = some .eof) :
    Delivers read s [] := by
  refine .intro (fun k hk => ?_) (fun k hk e he => ?_) (fun k hk hnone => ?_)
  · rw [(hend k hk).1]
    exact ⟨Nat.zero_le _, nil_prefix⟩
  · cases (hend k hk).2.symm.trans he
    exact ⟨rfl, (hend k hk).1⟩
  · cases (hend k hk).2.symm.trans hnone

theorem readAll_of_delivers (h : Delivers read s content) {buffers : List Nat}
    (hpos : ∀ k ∈ buffers, 0 < k) :
    (readAll read buffers s).err = none ∧ (readAll read buffers s).out <+: content ∨
      (readAll read buffers s).err = some .eof ∧ (readAll read buffers s).out = content := by
  induction buffers generalizing s content with
  | nil => exact .inl ⟨rfl, nil_prefix⟩
  | cons k buffers ih =>
    obtain ⟨hk, hbuffers⟩ := forall_mem_cons.mp hpos
    cases h with
    | intro hfits hend hmore =>
      unfold readAll
      cases herr : (read k s).err with
      | some e =>
        obtain ⟨rfl, hout⟩ := hend k hk e herr
        exact .inr ⟨herr, hout⟩
      | none =>
        obtain ⟨rest, hcontent⟩ := (hfits k hk).2
        have hdrop : content.drop (read k s).out.length = rest := by
          rw [← hcontent, drop_left]
        rcases ih (hmore k hk herr) hbuffers with ⟨hnone, hpart⟩ | ⟨heof, hall⟩
        · refine .inl ⟨hnone, ?_⟩
          rw [← hcontent, prefix_append_right_inj, ← hdrop]
          exact hpart
        · refine .inr ⟨heof, ?_⟩
          dsimp only
          rw [hall, hdrop, hcontent]

/-- **A reader that delivers comes to its end**, whatever the buffers. -/
theorem exists_readAll_eof (h : Delivers read s content) (buffers : Nat → Nat)
    (hpos : ∀ i, 0 < buffers i) :
    ∃ n, (readAll read ((range n).map buffers) s).err = some .eof := by
  induction h generalizing buffers with
  | @intro s content _ hend _ ih =>
    cases herr : (read (buffers 0) s).err with
    | some e =>
      obtain ⟨rfl, -⟩ := hend _ (hpos 0) e herr
      refine ⟨1, ?_⟩
      simp only [range_one, map_singleton, readAll, herr]
    | none =>
      obtain ⟨n, hn⟩ := ih _ (hpos 0) herr (fun i => buffers (i + 1)) fun i => hpos (i + 1)
      refine ⟨n + 1, ?_⟩
      rw [range_succ_eq_map, map_cons, map_map]
      simp only [readAll, herr]
      exact hn

end GoReader
