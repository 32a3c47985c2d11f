import Mathlib.Algebra.Order.Ring.Nat

/-!
# The limit of open files

`ManageFdLimit` first asks for a soft and a hard limit of one size, the target.  The
kernel grants that to every process whose hard limit does not grow by it, so a hard
limit above the target comes down.  Only a process that is refused asks again with
the hard limit that it has.
-/

namespace FdLimit

/-- What the kernel keeps for `RLIMIT_NOFILE`. -/
structure Limits where
  soft : Nat
  hard : Nat
  soft_le : soft ≤ hard

inductive Errno where
  | eperm
  | einval

def Errno.text : Errno → String
  | .eperm => "operation not permitted"
  | .einval => "invalid argument"

def setLimit (privileged : Bool) (soft max : Nat) (s : Limits) : Except Errno Limits :=
  if h : soft ≤ max then
    if privileged ∨ max ≤ s.hard then .ok ⟨soft, max, h⟩ else .error .eperm
  else .error .einval

def minFds : Nat := 2048

def maxFds : Nat := 8192

/-- `strconv.ParseUint` with base 10 and 64 bits. -/
def parseUint (val : String) : Option Nat :=
  if val ≠ "" ∧ val.toList.all Char.isDigit then
    (some (val.toList.foldl (fun n c => 10 * n + (c.toNat - '0'.toNat)) 0)).filter (· < 2 ^ 64)
  else none

/-- `userMaxFDs` for the value of `IPFS_FD_MAX`, which is empty if it is not set. -/
def userMaxFDs (val : String) : Nat :=
  if val ≠ "" then (parseUint val).getD 0 else 0

def targetLimit (val : String) : Nat :=
  if userMaxFDs val > 0 then userMaxFDs val else maxFds

/-- The warning on a lowered limit. -/
def warning (userLimit newLimit : Nat) : Option String :=
  if newLimit < userLimit then
    some s!"failed to raise ulimit to IPFS_FD_MAX ({userLimit}): set to {newLimit}"
  else if userLimit = 0 ∧ newLimit < minFds then
    some s!"failed to raise ulimit to minimum {minFds}: set to {newLimit}"
  else none

structure Report where
  changed : Bool
  newLimit : Nat
  err : Option String

/-- `ManageFdLimit` on a platform that supports it, and the limits after it. -/
def manageFdLimit (privileged : Bool) (val : String) (s : Limits) : Report × Limits :=
  let target := targetLimit val
  if target ≤ s.soft then (⟨false, 0, none⟩, s)
  else
    match setLimit privileged target target s with
    | .ok t => (⟨target > 0, target, none⟩, t)
    | .error .eperm =>
      let lowered := if target > s.hard then s.hard else target
      match setLimit privileged lowered s.hard s with
      | .ok t => (⟨lowered > 0, lowered, warning (userMaxFDs val) lowered⟩, t)
      | .error e => (⟨false, 0, some ("error setting ulimit without hard limit: " ++ e.text)⟩, s)
    | .error e => (⟨false, 0, some ("error setting: ulimit: " ++ e.text)⟩, s)

/-- No limit is smaller than before, a reported limit is the one in force, and a soft
limit below what the user asks for is an error. -/
structure Raises (user : Nat) (s : Limits) (out : Report × Limits) : Prop where
  soft : s.soft ≤ out.2.soft
  hard : s.hard ≤ out.2.hard
  reported : 0 < out.1.newLimit → out.1.newLimit = out.2.soft
  told : out.2.soft < user → out.1.err ≠ none

variable {privileged : Bool} {val : String} {s : Limits}

theorem user_le_target (val : String) : userMaxFDs val ≤ targetLimit val := by
  unfold targetLimit
  split <;> omega

theorem manageFdLimit_granted (hsoft : s.soft < targetLimit val)
    (h : privileged ∨ targetLimit val ≤ s.hard) : manageFdLimit privileged val s =
      (⟨targetLimit val > 0, targetLimit val, none⟩,
        ⟨targetLimit val, targetLimit val, le_rfl⟩) := by
  simp only [manageFdLimit, if_neg (not_le.mpr hsoft), setLimit, dif_pos le_rfl, if_pos h]

theorem manageFdLimit_refused (h : ¬ (privileged ∨ targetLimit val ≤ s.hard)) :
    manageFdLimit privileged val s =
      (⟨s.hard > 0, s.hard, warning (userMaxFDs val) s.hard⟩, ⟨s.hard, s.hard, le_rfl⟩) := by
  have hlow : s.hard < targetLimit val := not_le.mp fun hle => h (.inr hle)
  have hsoft : ¬ targetLimit val ≤ s.soft := not_le.mpr (lt_of_le_of_lt s.soft_le hlow)
  simp [manageFdLimit, if_neg hsoft, setLimit, if_neg h, if_pos hlow]

/-- **When the limits only grow.**  The hard limit comes down exactly if the target is
above the soft limit and below the hard one. -/
theorem manageFdLimit_raises_iff (privileged : Bool) (val : String) (s : Limits) :
    Raises (userMaxFDs val) s (manageFdLimit privileged val s) ↔
      ¬ (s.soft < targetLimit val ∧ targetLimit val < s.hard) := by
  have huser := user_le_target val
  by_cases hsoft : targetLimit val ≤ s.soft
  · have hsame : manageFdLimit privileged val s = (⟨false, 0, none⟩, s) := if_pos hsoft
    rw [hsame]
    have hmet : userMaxFDs val ≤ s.soft := le_trans huser hsoft
    exact iff_of_true ⟨le_rfl, le_rfl, nofun, fun hlt => absurd hmet (not_le.mpr hlt)⟩ (by omega)
  · by_cases h : privileged ∨ targetLimit val ≤ s.hard
    · rw [manageFdLimit_granted (not_le.mp hsoft) h]
      constructor
      · intro hraises
        have hhard : s.hard ≤ targetLimit val := hraises.hard
        omega
      · intro hno
        exact ⟨by dsimp only; omega, by dsimp only; omega, fun _ => rfl,
          fun hlt => absurd huser (not_le.mpr hlt)⟩
    · rw [manageFdLimit_refused h]
      refine iff_of_true ⟨s.soft_le, le_rfl, fun _ => rfl, fun hlt => ?_⟩ (by omega)
      simp [warning, show s.hard < userMaxFDs val from hlt]

/-- Without `IPFS_FD_MAX` a hard limit of a million becomes one of 8192. -/
theorem manageFdLimit_lowers_hard :
    ¬ Raises (userMaxFDs "") ⟨1024, 1048576, by decide⟩
      (manageFdLimit false "" ⟨1024, 1048576, by decide⟩) := by
  intro h
  exact absurd h.hard (by decide)

end FdLimit
