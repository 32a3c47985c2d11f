import GoIpfs.StepRun
import Mathlib.Data.List.Range
import Mathlib.Logic.Function.Basic

/-!
# The request log

`ReqLog` keeps pointers to the entries of its callers.  `AddEntry` and `Finish` call
`cleanup` now and then, and `ClearInactive` always; it drops the inactive entries
whose time is over, by moving the others to the front of the list.

The state keeps the memory of the entries, the last reading of the clock, and what
has been added and dropped so far.  A call carries the readings that it takes.
-/

namespace ReqLog

open StepRun List Function

/-- The fields of a `ReqLogEntry` that the log uses; a time is a number of
nanoseconds. -/
structure ReqLogEntry where
  endTime : Int
  active : Bool
  id : Nat

/-- An entry as it was when it was dropped, with the time and the keep time. -/
structure Drop where
  rle : Nat
  entry : ReqLogEntry
  now : Int
  keep : Int

/-- The log.  `nextID`, an `int`, counts the calls of `AddEntry` and stays below 2⁶³. -/
structure State where
  heap : Nat → ReqLogEntry
  requests : List Nat := []
  nextID : Nat := 0
  keep : Int := 0
  clock : Int := 0
  added : List Nat := []
  dropped : List Drop := []

/-- The condition of `cleanup`. -/
def State.kept (s : State) (now : Int) (rle : Nat) : Bool :=
  (s.heap rle).active || now < (s.heap rle).endTime + s.keep

/-- The loop of `cleanup`, with `n` iterations to go. -/
def cleanupLoop (kept : Nat → Bool) : Nat → Nat → Nat → List Nat → List Nat
  | 0, i, _, requests => requests.take i
  | n + 1, i, j, requests =>
    match requests[j]? with
    | some rj =>
      if kept rj then cleanupLoop kept n (i + 1) (j + 1) (requests.set i rj)
      else cleanupLoop kept n i (j + 1) requests
    | none => requests.take i

def cleanup (now : Int) (s : State) : State :=
  { s with
    requests := cleanupLoop (s.kept now) s.requests.length 0 0 s.requests
    clock := now
    dropped := s.dropped ++ (s.requests.filter fun rle => !s.kept now rle).map
      fun rle => ⟨rle, s.heap rle, now, s.keep⟩ }

def maybeCleanup (now : Int) (s : State) : State :=
  if s.requests.length % 10 = 0 then cleanup now s else s

def addEntry (rle : Nat) (now : Int) (s : State) : State :=
  let s := { s with
    heap := update s.heap rle { s.heap rle with id := s.nextID }
    nextID := s.nextID + 1
    requests := s.requests ++ [rle]
    added := s.added ++ [rle] }
  if (s.heap rle).active then s else maybeCleanup now s

def clearInactive (now : Int) (s : State) : State :=
  { cleanup now { s with keep := 0 } with keep := s.keep }

/-- `Finish`, which reads the clock for the end time and again for `cleanup`. -/
def finish (rle : Nat) (ended now : Int) (s : State) : State :=
  maybeCleanup now { s with
    heap := update s.heap rle { s.heap rle with active := false, endTime := ended }
    clock := ended }

inductive Action where
  | addEntry (rle : Nat) (now : Int)
  | finish (rle : Nat) (ended now : Int)
  | clearInactive (now : Int)
  | setKeepTime (t : Int)

/-- An entry is added once, and the clock does not go back. -/
def step (s : State) : Action → Option State
  | .addEntry rle now =>
    if rle ∉ s.added ∧ s.clock ≤ now then some (addEntry rle now s) else none
  | .finish rle ended now =>
    if s.clock ≤ ended ∧ ended ≤ now then some (finish rle ended now s) else none
  | .clearInactive now => if s.clock ≤ now then some (clearInactive now s) else none
  | .setKeepTime t => some { s with keep := t }

/-! ## Moving entries to the front -/

variable {s : State} {now : Int} {rle : Nat}

/-- The front of the list has been cleaned up, the rest has not been touched. -/
theorem cleanupLoop_eq (kept : Nat → Bool) {n i j : Nat} {requests : List Nat} (hij : i ≤ j)
    (hn : j + n = requests.length) :
    cleanupLoop kept n i j requests = requests.take i ++ (requests.drop j).filter kept := by
  induction n generalizing i j requests with
  | zero => rw [cleanupLoop, drop_eq_nil_of_le (by omega), filter_nil, append_nil]
  | succ n ih =>
    have hj : j < requests.length := by omega
    rw [cleanupLoop, getElem?_eq_getElem hj, drop_eq_getElem_cons hj]
    dsimp only
    split
    · next hkept =>
      rw [ih (by omega) (by rw [length_set]; omega), filter_cons_of_pos hkept,
        drop_set_of_lt (by omega), take_add_one, take_set_of_le (Nat.le_refl i),
        getElem?_set_self (by omega), append_assoc]
      rfl
    · next hkept => rw [ih (by omega) (by omega), filter_cons_of_neg hkept]

@[simp] theorem requests_cleanup :
    (cleanup now s).requests = s.requests.filter (s.kept now) := by
  rw [cleanup, cleanupLoop_eq _ (Nat.le_refl 0) (Nat.zero_add _)]
  rfl

/-! ## The invariant -/

structure Inv (s : State) : Prop where
  ids : s.added.map (fun rle => (s.heap rle).id) = range s.nextID
  listed : s.requests <+ s.added
  gone : ∀ rle ∈ s.added, rle ∈ s.requests ∨
    (s.heap rle).active = false ∧ ∃ d ∈ s.dropped, d.rle = rle
  stale : ∀ d ∈ s.dropped, d.entry.active = false ∧ d.entry.endTime + d.keep ≤ d.now

theorem kept_eq_false : s.kept now rle = false ↔
    (s.heap rle).active = false ∧ (s.heap rle).endTime + s.keep ≤ now := by
  simp [State.kept]

theorem Inv.cleanup (h : Inv s) : Inv (cleanup now s) where
  ids := h.ids
  listed := requests_cleanup ▸ filter_sublist.trans h.listed
  gone rle hrle := by
    rcases h.gone rle hrle with hin | ⟨hoff, d, hd, heq⟩
    · cases hkept : s.kept now rle with
      | true => exact .inl (by simp [hin, hkept])
      | false =>
        refine .inr ⟨(kept_eq_false.mp hkept).1, _, mem_append_right _ (mem_map_of_mem ?_), rfl⟩
        simp [hin, hkept]
    · exact .inr ⟨hoff, d, mem_append_left _ hd, heq⟩
  stale d hd := by
    rcases mem_append.mp hd with hd | hd
    · exact h.stale d hd
    · obtain ⟨rle, hrle, rfl⟩ := mem_map.mp hd
      exact kept_eq_false.mp (by simpa using (mem_filter.mp hrle).2)

theorem Inv.maybeCleanup (h : Inv s) : Inv (maybeCleanup now s) := by
  unfold ReqLog.maybeCleanup
  split
  · exact h.cleanup
  · exact h

theorem inv_addEntry (h : Inv s) (hnew : rle ∉ s.added) : Inv (addEntry rle now s) := by
  have hother : ∀ r ∈ s.added, ∀ e, update s.heap rle e r = s.heap r :=
    fun r hr e => update_of_ne (ne_of_mem_of_not_mem hr hnew) ..
  have hadded : Inv { s with
      heap := update s.heap rle { s.heap rle with id := s.nextID }
      nextID := s.nextID + 1
      requests := s.requests ++ [rle]
      added := s.added ++ [rle] } := by
    refine ⟨?_, h.listed.append (.refl _), fun r hr => ?_, h.stale⟩
    · rw [map_append, range_succ, ← h.ids]
      congr 1
      · exact map_congr_left fun r hr => congrArg _ (hother r hr _)
      · simp
    · rcases mem_append.mp hr with hr | hr
      · dsimp only
        rw [hother r hr]
        exact (h.gone r hr).imp_left (mem_append_left _)
      · exact .inl (mem_append_right _ hr)
  unfold addEntry
  dsimp only
  split
  · exact hadded
  · exact hadded.maybeCleanup

theorem inv_finish (h : Inv s) (ended : Int) : Inv (finish rle ended now s) := by
  refine Inv.maybeCleanup ⟨h.ids ▸ map_congr_left fun r _ => ?_, h.listed, fun r hr => ?_, h.stale⟩
  all_goals
    dsimp only
    by_cases heq : r = rle
  · rw [heq, update_self]
  · rw [update_of_ne heq]
  · refine (h.gone r hr).imp_right fun hgone => ⟨?_, hgone.2⟩
    rw [heq, update_self]
  · rw [update_of_ne heq]
    exact h.gone r hr

theorem inv_step (s : State) (a : Action) (t : State) (h : Inv s) (hstep : step s a = some t) :
    Inv t := by
  cases a with
  | addEntry rle now =>
    obtain ⟨⟨hnew, _⟩, rfl⟩ := guard_passed hstep
    exact inv_addEntry h hnew
  | finish rle ended now =>
    obtain ⟨_, rfl⟩ := guard_passed hstep
    exact inv_finish h ended
  | clearInactive now =>
    obtain ⟨_, rfl⟩ := guard_passed hstep
    have hcleaned : Inv (cleanup now { s with keep := 0 }) := Inv.cleanup { h with }
    exact { hcleaned with }
  | setKeepTime t =>
    cases hstep
    exact { h with }

/-- **Running requests are kept.** -/
theorem reqLog_keeps {heap : Nat → ReqLogEntry} {clock : Int} {actions : List Action}
    (hrun : run step { heap, clock } actions = some s) :
    (s.requests.map fun rle => (s.heap rle).id).Pairwise (· < ·) ∧
      (s.added.map fun rle => (s.heap rle).id).Nodup ∧
      (∀ rle ∈ s.added, (s.heap rle).active = true → rle ∈ s.requests) ∧
      (∀ rle ∈ s.added, rle ∉ s.requests → ∃ d ∈ s.dropped, d.rle = rle) ∧
      (∀ d ∈ s.dropped, d.entry.active = false ∧ d.entry.endTime + d.keep ≤ d.now) ∧
      ∀ now, (clearInactive now s).keep = s.keep ∧ (clearInactive now s).requests =
        s.requests.filter fun rle => (s.heap rle).active || now < (s.heap rle).endTime := by
  have h : Inv s := run_invariant Inv inv_step ⟨rfl, .slnil, by simp, by simp⟩ hrun
  refine ⟨?_, h.ids ▸ nodup_range, fun rle hrle hactive => ?_, fun rle hrle hout => ?_, h.stale,
    fun now => ⟨rfl, ?_⟩⟩
  · exact pairwise_lt_range.sublist (h.ids ▸ h.listed.map _)
  · refine (h.gone rle hrle).resolve_right fun hgone => ?_
    rw [hactive] at hgone
    cases hgone.1
  · exact ((h.gone rle hrle).resolve_left hout).2
  · unfold clearInactive
    rw [requests_cleanup]
    exact filter_congr fun rle _ => by simp [State.kept]

/-- Of two requests the one that has finished is dropped. -/
theorem reqLog_keeps_running :
    ∃ s, run step { heap := fun _ => ⟨0, true, 0⟩ }
        [.addEntry 7 1, .addEntry 8 2, .finish 7 3 3, .clearInactive 4] = some s ∧
      s.requests = [8] ∧ ∃ d ∈ s.dropped, d.rle = 7 := by
  have hrun : run step { heap := fun _ => ⟨0, true, 0⟩ }
      [.addEntry 7 1, .addEntry 8 2, .finish 7 3 3, .clearInactive 4] = some _ := rfl
  exact ⟨_, hrun, rfl, (reqLog_keeps hrun).2.2.2.1 7 (by decide) (by decide)⟩

end ReqLog
