import Mathlib.Algebra.Ring.Int.Defs
import Mathlib.Data.List.Basic

/-!
# When a collection is started

`NewGC` and `maybeGC` (`core/corerepo/gc.go`).  `NewGC` reads
the two limits of the datastore from the configuration, writes defaults for the
ones that are missing, and computes the size at which to collect; `maybeGC`
compares it with the storage in use and the space that is about to be needed.

All sizes are `uint64`.  The product `storageMax * watermark` is formed before
the division by 100 and the sum `storage + offset` before the comparison, and
both wrap at `2^64`.  The first makes the limit too small from about 205 PB on
at the default watermark, the second hides a full store; `watermark_iff` is the
exact condition under which neither happens.
-/

namespace GcWatermark

inductive Value where
  | text (s : String)
  | number (n : Int)
  deriving DecidableEq, Repr

/-- The part of the `Datastore` section that `NewGC` reads. -/
structure Datastore where
  storageMax : String
  storageGCWatermark : Int
  deriving DecidableEq, Repr

/-- What the functions ask of the repository and of the libraries. -/
structure Env where
  config : Except String Datastore
  /-- The error of `SetConfigKey`, if any. -/
  setConfigKey : String → Value → Option String
  /-- `humanize.ParseBytes` -/
  parseBytes : String → Except String UInt64
  getStorageUsage : Except String UInt64
  /-- The error of `GarbageCollect`, if any. -/
  garbageCollect : Option String

structure Limits where
  storageMax : UInt64
  storageGC : UInt64
  slackGB : UInt64
  deriving DecidableEq, Repr

def defaultStorageMax : String := "10GB"

def defaultStorageGCWatermark : Int := 90

/-- The missing limits are written to the repository and filled in. -/
def withDefaults (env : Env) (cfg : Datastore) : Except String Datastore := do
  let cfg ←
    if cfg.storageMax = "" then
      match env.setConfigKey "Datastore.StorageMax" (.text defaultStorageMax) with
      | some err => .error err
      | none => .ok { cfg with storageMax := defaultStorageMax }
    else .ok cfg
  if cfg.storageGCWatermark = 0 then
    match env.setConfigKey "Datastore.StorageGCWatermark" (.number defaultStorageGCWatermark) with
    | some err => .error err
    | none => .ok { cfg with storageGCWatermark := defaultStorageGCWatermark }
  else .ok cfg

/-- The sizes that `NewGC` computes from the parsed limit and the watermark. -/
def limits (storageMax : UInt64) (watermark : Int) : Limits :=
  let storageGC := storageMax * UInt64.ofInt watermark / 100
  let slackGB := (storageMax - storageGC) / 10000000000
  ⟨storageMax, storageGC, if slackGB < 1 then 1 else slackGB⟩

def newGC (env : Env) : Except String Limits := do
  let cfg ← env.config
  let cfg ← withDefaults env cfg
  let storageMax ← env.parseBytes cfg.storageMax
  return limits storageMax cfg.storageGCWatermark

/-- How `maybeGC` ends. -/
structure Outcome where
  /-- A collection has been started. -/
  started : Bool
  err : Option String
  deriving DecidableEq, Repr

def maybeGC (env : Env) (gc : Limits) (offset : UInt64) : Outcome :=
  match env.getStorageUsage with
  | .error err => ⟨false, some err⟩
  | .ok storage =>
    if gc.storageGC < storage + offset then ⟨true, env.garbageCollect⟩
    else ⟨false, none⟩

/-- What is wanted of the two functions, in integers: the watermark is computed
exactly and does not exceed the maximum, and a collection is started when the
storage in use and the needed space together exceed it. -/
def Exact (env : Env) (storageMax : UInt64) (watermark : Int) (storage offset : UInt64) : Prop :=
  ∃ gc, newGC env = .ok gc ∧
    (gc.storageGC.toNat : Int) = storageMax.toNat * watermark / 100 ∧
    gc.storageGC ≤ gc.storageMax ∧
    ((maybeGC env gc offset).started = true ↔
      gc.storageGC.toNat < storage.toNat + offset.toNat)

/-! ## What is computed -/

theorem limits_storageGC (storageMax : UInt64) {watermark : Nat} (hhigh : watermark ≤ 100) :
    (limits storageMax watermark).storageGC.toNat =
      storageMax.toNat * watermark % 18446744073709551616 / 100 := by
  have hword : (UInt64.ofInt watermark).toNat = watermark := by
    have hsmall : (watermark : Int) % 2 ^ 64 = watermark := by omega
    simp only [UInt64.ofInt, hsmall, Int.toNat_natCast, UInt64.toNat_ofNat']
    omega
  show (storageMax * UInt64.ofInt watermark / 100).toNat = _
  rw [UInt64.toNat_div, UInt64.toNat_mul, hword]
  rfl

theorem wrapped_div_eq_iff (x : Nat) :
    x % 18446744073709551616 / 100 = x / 100 ↔ x < 18446744073709551616 := by
  constructor
  · omega
  · intro hlt
    rw [Nat.mod_eq_of_lt hlt]

/-- With an exact watermark the wrapped sum decides as the exact one does,
unless it wraps below the watermark. -/
theorem wrapped_sum_iff {limit sum : Nat} (hlimit : limit < 18446744073709551616)
    (hsum : sum < 2 * 18446744073709551616) :
    (limit < sum % 18446744073709551616 ↔ limit < sum) ↔
      sum < 18446744073709551616 ∨ limit + 18446744073709551616 < sum := by
  omega

theorem maybeGC_started {env : Env} {storage : UInt64}
    (husage : env.getStorageUsage = .ok storage) (gc : Limits) (offset : UInt64) :
    (maybeGC env gc offset).started = true ↔
      gc.storageGC.toNat < (storage.toNat + offset.toNat) % 18446744073709551616 := by
  have hlt : gc.storageGC < storage + offset ↔
      gc.storageGC.toNat < (storage.toNat + offset.toNat) % 18446744073709551616 := by
    rw [UInt64.lt_iff_toNat_lt, UInt64.toNat_add]
  unfold maybeGC
  rw [husage]
  dsimp only
  by_cases h : gc.storageGC < storage + offset
  · rw [if_pos h]
    exact ⟨fun _ => hlt.mp h, fun _ => rfl⟩
  · rw [if_neg h]
    exact ⟨fun hfalse => absurd hfalse Bool.false_ne_true, fun hmod => absurd (hlt.mpr hmod) h⟩

theorem newGC_ok {env : Env} {cfg : Datastore} {storageMax : UInt64}
    (hconfig : env.config = .ok cfg)
    (hset : cfg.storageMax = "" →
      env.setConfigKey "Datastore.StorageMax" (.text defaultStorageMax) = none)
    (hparse : env.parseBytes
      (if cfg.storageMax = "" then defaultStorageMax else cfg.storageMax) = .ok storageMax)
    (hwatermark : cfg.storageGCWatermark ≠ 0) :
    newGC env = .ok (limits storageMax cfg.storageGCWatermark) := by
  have hcfg : withDefaults env cfg = .ok { cfg with
      storageMax := if cfg.storageMax = "" then defaultStorageMax else cfg.storageMax } := by
    unfold withDefaults
    by_cases hempty : cfg.storageMax = ""
    · simp [hempty, hset hempty, hwatermark, bind, Except.bind]
    · simp [hempty, hwatermark, bind, Except.bind]
  unfold newGC
  rw [hconfig]
  show (withDefaults env cfg >>= _) = _
  rw [hcfg]
  show (env.parseBytes _ >>= _) = _
  rw [hparse]
  rfl

/-- **When the watermark arithmetic is exact.**  For every configured maximum,
every watermark from 1 to 100, every storage in use and every offset: the two
functions do what they do over the integers exactly when the product of maximum
and watermark is below `2^64`, and the sum of storage and offset is below `2^64`
or exceeds the watermark by more than `2^64`. -/
theorem watermark_iff {env : Env} {cfg : Datastore} {storageMax storage : UInt64}
    (hconfig : env.config = .ok cfg)
    (hset : cfg.storageMax = "" →
      env.setConfigKey "Datastore.StorageMax" (.text defaultStorageMax) = none)
    (hparse : env.parseBytes
      (if cfg.storageMax = "" then defaultStorageMax else cfg.storageMax) = .ok storageMax)
    (hlow : 1 ≤ cfg.storageGCWatermark) (hhigh : cfg.storageGCWatermark ≤ 100)
    (husage : env.getStorageUsage = .ok storage) (offset : UInt64) :
    Exact env storageMax cfg.storageGCWatermark storage offset ↔
      storageMax.toNat * cfg.storageGCWatermark < 2 ^ 64 ∧
        ((storage.toNat + offset.toNat : Int) < 2 ^ 64 ∨
          storageMax.toNat * cfg.storageGCWatermark / 100 + 2 ^ 64 <
            (storage.toNat + offset.toNat : Int)) := by
  have hnew := newGC_ok hconfig hset hparse (by omega)
  obtain ⟨w, hw⟩ := Int.eq_ofNat_of_zero_le (by omega : 0 ≤ cfg.storageGCWatermark)
  rw [hw] at hnew hlow hhigh ⊢
  have hgc := limits_storageGC storageMax (by omega : w ≤ 100)
  have hstarted := maybeGC_started husage (limits storageMax w) offset
  rw [hgc] at hstarted
  have hstorage := storage.toNat_lt
  have hoffset := offset.toNat_lt
  have hle : storageMax.toNat * w ≤ storageMax.toNat * 100 :=
    Nat.mul_le_mul_left _ (by omega)
  have hexact := wrapped_div_eq_iff (storageMax.toNat * w)
  unfold Exact
  rw [← Int.natCast_mul]
  generalize storageMax.toNat * w = x at *
  constructor
  · rintro ⟨gc, hgc', hvalue, -, hiff⟩
    obtain rfl : limits storageMax w = gc := Except.ok.inj (hnew.symm.trans hgc')
    rw [hgc] at hvalue hiff
    have hx : x < 18446744073709551616 := hexact.mp (by omega)
    rw [hexact.mpr hx] at hiff hstarted
    have hsum := (wrapped_sum_iff (by omega : x / 100 < 18446744073709551616) (by omega)).mp
      (hstarted.symm.trans hiff)
    refine ⟨by omega, ?_⟩
    rcases hsum with hsmall | hlarge
    · exact .inl (by omega)
    · exact .inr (by omega)
  · rintro ⟨hproduct, hsum⟩
    have hx : x < 18446744073709551616 := by omega
    have hdiv := hexact.mpr hx
    refine ⟨limits storageMax w, hnew, ?_, ?_, ?_⟩
    · omega
    · rw [UInt64.le_iff_toNat_le, hgc, hdiv]
      show x / 100 ≤ storageMax.toNat
      omega
    · rw [hstarted, hgc, hdiv]
      refine (wrapped_sum_iff (by omega) (by omega)).mpr ?_
      rcases hsum with hsmall | hlarge
      · exact .inl (by omega)
      · exact .inr (by omega)

/-! ## Two configurations -/

/-- A repository with the given `Datastore` section and storage in use, and the
sizes that the text of the section and the default stand for. -/
def sampleEnv (cfg : Datastore) (storage : UInt64) : Env where
  config := .ok cfg
  setConfigKey := fun _ _ => none
  parseBytes s :=
    if s = "10GB" then .ok 10000000000
    else if s = "1EB" then .ok 1000000000000000000
    else .error ("unhandled size name: " ++ s)
  getStorageUsage := .ok storage
  garbageCollect := none

/-- The default maximum with a watermark of 90, nine gigabytes in use and one
more needed. -/
theorem watermark_iff_default :
    Exact (sampleEnv ⟨"", 90⟩ 9000000000) 10000000000 90 9000000000 1000000000 :=
  (watermark_iff (rfl : (sampleEnv ⟨"", 90⟩ 9000000000).config = .ok ⟨"", 90⟩)
    (fun _ => rfl) rfl (by decide) (by decide) rfl 1000000000).mpr (by decide)

/-- A maximum of one exabyte with a watermark of 90: the product wraps and the
collection is due at 162 PB. -/
theorem storageGC_exabyte_wraps :
    (∃ gc, newGC (sampleEnv ⟨"1EB", 90⟩ 200000000000000000) = .ok gc ∧
      gc.storageGC = 162130237051617935 ∧
      (maybeGC (sampleEnv ⟨"1EB", 90⟩ 200000000000000000) gc 0).started = true) ∧
    ¬ Exact (sampleEnv ⟨"1EB", 90⟩ 200000000000000000) 1000000000000000000 90
      200000000000000000 0 := by
  have hnew : newGC (sampleEnv ⟨"1EB", 90⟩ 200000000000000000) =
      .ok ⟨1000000000000000000, 162130237051617935, 83786976⟩ := rfl
  refine ⟨⟨_, hnew, rfl, rfl⟩, ?_⟩
  rintro ⟨gc, hgc, hvalue, -⟩
  obtain rfl := Except.ok.inj (hnew.symm.trans hgc)
  exact absurd hvalue (by decide)

end GcWatermark
