import Mathlib.Algebra.Order.Ring.Int

/-!
# Arithmetic of `int64`

A signed 64-bit operation yields the exact result brought back into
`[-2^63, 2^63)` by a multiple of `2^64`.  Values are kept as integers, so a
machine operation is the exact one followed by `wrap64`, and a computation
without overflow is one all of whose exact results are `InInt64`.

`Calc` is a computation on such values that remembers its exact results.  It
also remembers the arguments of `rand.Int63n`, which panics unless its argument
is positive, so that what is asked of a whole computation can be read off its
list of operations (`Calc.Fine`).
-/

namespace GoInt

/-- The integers that an `int64` holds. -/
def InInt64 (x : Int) : Prop :=
  -9223372036854775808 ≤ x ∧ x < 9223372036854775808

instance (x : Int) : Decidable (InInt64 x) := inferInstanceAs (Decidable (_ ∧ _))

/-- What an `int64` operation leaves when its exact result is `x`. -/
def wrap64 (x : Int) : Int := x.bmod 18446744073709551616

theorem wrap64_of_inInt64 {x : Int} (hx : InInt64 x) : wrap64 x = x := by
  obtain ⟨hlow, hhigh⟩ := hx
  exact Int.bmod_eq_of_le (by simpa using hlow) (by simpa using hhigh)

/-- The conversion to `uint64`. -/
def uint64 (x : Int) : Nat := (x % 18446744073709551616).toNat

theorem uint64_ofNat {n : Nat} (hn : n < 18446744073709551616) : uint64 n = n := by
  unfold uint64
  omega

/-- An operation of a computation. -/
inductive Op where
  /-- Arithmetic with this exact result. -/
  | arith (exact : Int)
  /-- A call of `rand.Int63n`. -/
  | int63n (arg : Int)
  deriving DecidableEq, Repr

/-- The operation neither overflows nor panics. -/
def Op.Fine : Op → Prop
  | .arith exact => InInt64 exact
  | .int63n arg => 0 < arg

instance : (op : Op) → Decidable op.Fine
  | .arith exact => inferInstanceAs (Decidable (InInt64 exact))
  | .int63n arg => inferInstanceAs (Decidable (0 < arg))

/-- A computation: its operations in order, and its value unless it panics. -/
structure Calc (α : Type) where
  ops : List Op
  value : Option α
  deriving DecidableEq, Repr

namespace Calc

variable {α β : Type}

protected def pure (a : α) : Calc α := ⟨[], some a⟩

protected def bind (x : Calc α) (f : α → Calc β) : Calc β :=
  match x.value with
  | none => ⟨x.ops, none⟩
  | some a => ⟨x.ops ++ (f a).ops, (f a).value⟩

instance : Monad Calc where
  pure := Calc.pure
  bind := Calc.bind

/-- An `int64` operation with the given exact result. -/
def int64 (exact : Int) : Calc Int := ⟨[.arith exact], some (wrap64 exact)⟩

/-- `rand.Int63n`, for any raw random number. -/
def int63n (n : Int) (raw : Nat) : Calc Int :=
  ⟨[.int63n n], if 0 < n then some (raw % n) else none⟩

/-- The computation ends with `a`, without overflow and without a panic. -/
structure Yields (x : Calc α) (a : α) : Prop where
  fine : ∀ op ∈ x.ops, op.Fine
  value : x.value = some a

theorem yields_pure (a : α) : Yields (pure a : Calc α) a :=
  ⟨fun _ hop => absurd hop List.not_mem_nil, rfl⟩

theorem Yields.bind {x : Calc α} {f : α → Calc β} {a : α} {b : β}
    (hx : Yields x a) (hf : Yields (f a) b) : Yields (x >>= f) b := by
  have heq : (x >>= f) = ⟨x.ops ++ (f a).ops, (f a).value⟩ := by
    show Calc.bind x f = _
    simp only [Calc.bind, hx.value]
  rw [heq]
  refine ⟨?_, hf.value⟩
  exact List.forall_mem_append.mpr ⟨hx.fine, hf.fine⟩

theorem yields_int64 {x : Int} (hx : InInt64 x) : Yields (int64 x) x := by
  refine ⟨?_, congrArg some (wrap64_of_inInt64 hx)⟩
  intro op hop
  obtain rfl := List.mem_singleton.mp hop
  exact hx

theorem yields_int63n {n : Int} (raw : Nat) (hn : 0 < n) : Yields (int63n n raw) (raw % n) := by
  refine ⟨?_, if_pos hn⟩
  intro op hop
  obtain rfl := List.mem_singleton.mp hop
  exact hn

end Calc

end GoInt
