import GoIpfs.CollectorSafety
import Mathlib.Data.Finset.Lattice.Fold
import Mathlib.Order.Lattice.Nat
import Mathlib.Tactic.Ring

/-!
# Marking ends

Marking follows links of stored blocks only, so the nodes it can meet form a
finite set and each enters the shared set once.  `Pc.rest` counts the
statements that are left outside the walks, `Walk.work` what is left inside
one, and their sum falls with every statement of the marking phase, in every
schedule.  `exists_step` is the other half: until the collector is done, some
choice other than a cancellation is always enabled.
-/

namespace Gc

open GraphWalk StepRun Pc List

variable {Cid : Type} [DecidableEq Cid]

/-- The nodes marking can meet: the roots and the links of stored blocks. -/
def markNodes (env : Env Cid) (store : Finset Cid) (broots : List Cid) : Finset Cid :=
  (answered env.recursiveKeys ++ broots ++ answered env.internalPins).toFinset ∪
    store.biUnion fun c => (env.links c).toFinset

/-- The largest number of links of a stored block. -/
def markDegree (env : Env Cid) (store : Finset Cid) : Nat :=
  store.sup fun c => (env.links c).length

/-- Statements left after the `Descendants` call of a stage. -/
def Stage.rest (env : Env Cid) (broots : List Cid) : Stage → Nat
  | .internal => 2
  | .bestEffort => 5 * (answered env.internalPins).length + 5
  | .recursive =>
    5 * broots.length + 1 + (5 * (answered env.internalPins).length + 5)

/-- Statements left in the marking phase, those inside the current walk not
counted; five for a root that is still to be walked. -/
def Pc.rest (env : Env Cid) (broots : List Cid) : Pc Cid → Nat
  | .recursiveKeys =>
    5 * (answered env.recursiveKeys).length + 2 + Stage.recursive.rest env broots
  | .descendants stage roots => 5 * roots.length + 1 + stage.rest env broots
  | .walk stage roots _ => 5 * roots.length + 3 + stage.rest env broots
  | .drain stage _ _ => 2 + stage.rest env broots
  | .report stage _ => 1 + stage.rest env broots
  | .directKeys => Stage.bestEffort.rest env broots
  | .internalPins => 5 * (answered env.internalPins).length + 4
  | .marked => 2
  | .abort _ => 1
  | _ => 0

/-- The walk in progress, or an idle one. -/
def Pc.walking : Pc Cid → Walk Cid
  | .walk _ _ w | .drain _ _ w => w
  | _ => ⟨[], []⟩

/-- What is left of the marking phase. -/
def markRank (env : Env Cid) (store : Finset Cid) (broots : List Cid) (s : State Cid) : Nat :=
  s.pc.walking.work (markNodes env store broots) s.gcs (markDegree env store) +
    s.pc.rest env broots

/-- The nodes that the marking phase has still to visit. -/
def Pc.pending : Pc Cid → List Cid
  | .descendants _ roots => roots
  | .walk _ roots w => roots ++ w.queue
  | .drain _ _ w => w.queue
  | _ => []

/-- Marking works on the initial store and stays within `markNodes`. -/
structure Within (env : Env Cid) (store : Finset Cid) (broots : List Cid)
    (s : State Cid) : Prop where
  stored : s.pc.marking = true → s.store = store
  roots : s.bestEffortRoots = broots
  pending : ∀ c ∈ s.pc.pending, c ∈ markNodes env store broots

variable {env : Env Cid} {store : Finset Cid} {broots : List Cid} {s t : State Cid}

variable {c : Cid}

theorem mem_markNodes_recursive {rkeys : List Cid} (hkeys : env.recursiveKeys = .ok rkeys)
    (hc : c ∈ rkeys) : c ∈ markNodes env store broots := by
  simp [markNodes, hkeys, answered, hc]

theorem mem_markNodes_bestEffort (hc : c ∈ broots) : c ∈ markNodes env store broots := by
  simp [markNodes, hc]

theorem mem_markNodes_internal {ikeys : List Cid} (hkeys : env.internalPins = .ok ikeys)
    (hc : c ∈ ikeys) : c ∈ markNodes env store broots := by
  simp [markNodes, hkeys, answered, hc]

variable {targets : List Cid}

section

variable (hget : ipldGetLinks env store c = .ok targets)
include hget

private theorem fetched_cases : targets = [] ∨ c ∈ store ∧ targets = env.links c := by
  unfold ipldGetLinks at hget
  split at hget
  · cases hget
    exact .inl rfl
  split at hget
  · rename_i hc
    split at hget
    · cases hget
      exact .inr ⟨hc, rfl⟩
    · cases hget
  · cases hget

theorem fetched_mem : ∀ b ∈ targets, b ∈ markNodes env store broots := by
  intro b hb
  rcases fetched_cases hget with rfl | ⟨hc, rfl⟩
  · simp at hb
  · simp only [markNodes, Finset.mem_union, Finset.mem_biUnion, mem_toFinset]
    exact .inr ⟨c, hc, hb⟩

theorem fetched_length : targets.length ≤ markDegree env store := by
  rcases fetched_cases hget with rfl | ⟨hc, rfl⟩
  · exact Nat.zero_le _
  · exact Finset.le_sup (f := fun c => (env.links c).length) hc

end

theorem within_init : Within env store broots (init store broots) :=
  ⟨fun _ => rfl, rfl, by simp [init, pending]⟩

private theorem queue_visit {w : Walk Cid} {gcs : Finset Cid} {b : Cid}
    (hb : b ∈ (w.visit gcs c).1.queue) : b ∈ w.queue := by
  have hqueue : (w.visit gcs c).1.queue = w.queue.erase c := by
    unfold Walk.visit
    split <;> rfl
  rw [hqueue] at hb
  exact mem_of_mem_erase hb

private theorem queue_expand {w : Walk Cid} {b : Cid} (hb : b ∈ (w.expand c targets).queue) :
    b ∈ w.queue ∨ b ∈ targets := by
  simpa [Walk.expand] using hb

private theorem within_afterStage (hroots : s.bestEffortRoots = broots) {stage : Stage} :
    ∀ c ∈ (afterStage s stage).pending, c ∈ markNodes env store broots := by
  intro c hc
  cases stage with
  | recursive => exact mem_markNodes_bestEffort (hroots ▸ hc)
  | bestEffort | internal => simp [afterStage, pending] at hc

theorem within_transition {ch : Choice Cid} (h : Within env store broots s)
    (htrans : Transition env s ch t) : Within env store broots t := by
  have hpending := h.pending
  have hstored : t.pc.marking = true → t.store = store := by
    intro ht
    obtain ⟨hs, hstore, _⟩ := marking_back htrans ht
    exact hstore.trans (h.stored hs)
  refine ⟨hstored, htrans.roots_eq.trans h.roots, ?_⟩
  cases htrans with
  | cancel => exact hpending
  | rkeys hpc hkeys => exact fun c hc => mem_markNodes_recursive hkeys hc
  | ikeys hpc hkeys => exact fun c hc => mem_markNodes_internal hkeys hc
  | rootsDone | reported => exact within_afterStage h.roots
  | nextRoot hpc =>
    rw [hpc] at hpending
    intro b hb
    refine hpending b ?_
    simpa [pending, Walk.start, or_comm] using hb
  | visit hpc hc =>
    rw [hpc] at hpending
    intro b hb
    rcases mem_append.mp hb with hroots | hqueue
    · exact hpending b (mem_append_left _ hroots)
    · exact hpending b (mem_append_right _ (queue_visit hqueue))
  | explored hpc hc hvalid hget =>
    rw [h.stored (by rw [hpc]; rfl)] at hget
    rw [hpc] at hpending
    intro b hb
    rcases mem_append.mp hb with hroots | hqueue
    · exact hpending b (mem_append_left _ hroots)
    · rcases queue_expand hqueue with hold | hnew
      · exact hpending b (mem_append_right _ hold)
      · exact fetched_mem hget b hnew
  | missing hpc | swallowed hpc =>
    rw [hpc] at hpending
    intro b hb
    refine hpending b ?_
    simpa [pending, Walk.expand] using hb
  | unsent hpc | rejected hpc =>
    rw [hpc] at hpending
    intro b hb
    have hqueue : b ∈ _ ∨ b ∈ [] := queue_expand hb
    exact hpending b (mem_append_right _ (hqueue.resolve_right (by simp)))
  | walkDone hpc =>
    rw [hpc] at hpending
    exact fun b hb => hpending b (mem_append_left _ hb)
  | walkCanceled hpc =>
    rw [hpc] at hpending
    exact fun b hb => hpending b (mem_append_right _ hb)
  | drainVisit hpc =>
    rw [hpc] at hpending
    exact fun b hb => hpending b (queue_visit hb)
  | drainFetch hpc =>
    rw [hpc] at hpending
    exact fun b hb => hpending b ((queue_expand hb).resolve_right (by simp))
  | _ => simp [pending]

omit [DecidableEq Cid] in
private theorem walking_afterStage (s : State Cid) (stage : Stage) :
    (afterStage s stage).walking = ⟨[], []⟩ := by
  cases stage <;> rfl

omit [DecidableEq Cid] in
private theorem rest_afterStage (hroots : s.bestEffortRoots = broots) (stage : Stage) :
    (afterStage s stage).rest env broots = stage.rest env broots := by
  cases stage with
  | recursive => simp only [afterStage, rest, Stage.rest, hroots]
  | _ => rfl

/-- **Marking ends.**  Every step of the marking phase and of the abort that
may follow it lowers the rank, unless it is a cancellation. -/
theorem markRank_lt {ch : Choice Cid} (h : Within env store broots s)
    (htrans : Transition env s ch t) (hch : ch ≠ .cancel)
    (hpc : s.pc.marking = true ∨ ∃ err, s.pc = .abort err) :
    markRank env store broots t < markRank env store broots s := by
  have hpending := h.pending
  have hstored := h.stored
  simp only [markRank]
  cases htrans with
  | cancel => exact absurd rfl hch
  | rkeysErr hpc | dkeysErr hpc | ikeysErr hpc =>
    simp only [hpc, walking, rest, Stage.rest]
    omega
  | rkeys hpc hkeys | ikeys hpc hkeys =>
    simp only [hpc, hkeys, walking, rest, Stage.rest, answered]
    omega
  | rootsDone hpc | reported hpc =>
    rw [walking_afterStage, rest_afterStage h.roots, hpc]
    simp only [walking, rest]
    omega
  | nextRoot hpc =>
    simp only [hpc, walking, rest, work_start, length_cons]
    omega
  | visit hpc hc =>
    rw [hpc] at hpending ⊢
    have hnode := hpending _ (mem_append_right _ hc)
    exact Nat.add_lt_add_right (work_visit_lt s.gcs (markDegree env store) hc hnode) _
  | explored hpc hc hvalid hget =>
    rw [hpc] at hstored ⊢
    rw [hstored rfl] at hget
    exact Nat.add_lt_add_right (work_expand_lt _ s.gcs hc (fetched_length hget)) _
  | missing hpc hc | swallowed hpc hc | drainFetch hpc hc =>
    rw [hpc]
    exact Nat.add_lt_add_right (work_expand_lt _ s.gcs hc (Nat.zero_le _)) _
  | unsent hpc hc | rejected hpc hc =>
    have hnone : ([] : List Cid).length ≤ markDegree env store := Nat.zero_le _
    have hlt := work_expand_lt (markNodes env store broots) s.gcs hc hnone
    simp only [hpc, walking, rest]
    omega
  | walkDone hpc hfin =>
    have hidle := eq_idle_of_finished hfin
    simp only [hpc, walking, rest, hidle]
    omega
  | walkCanceled hpc | markFailed hpc | markDone hpc | aborted hpc | abortDone hpc =>
    simp only [hpc, walking, rest]
    omega
  | drainVisit hpc hc =>
    rw [hpc] at hpending ⊢
    exact Nat.add_lt_add_right (work_visit_lt s.gcs (markDegree env store) hc (hpending _ hc)) _
  | drained hpc =>
    rw [hpc]
    refine Nat.add_lt_add_of_le_of_lt (idle_work_le _ _ _) ?_
    simp only [rest]
    omega
  | @reportDone stage err hpc =>
    have hpos : 0 < stage.rest env broots := by cases stage <;> simp [Stage.rest]
    simp only [hpc, walking, rest]
    omega
  | dkeys hpc hkeys =>
    rw [hpc]
    refine Nat.add_lt_add_of_le_of_lt (work_mono _ _ Finset.subset_union_left) ?_
    simp only [rest, Stage.rest]
    omega
  | _ => simp [marking, *] at hpc

private theorem verifyGetLinks_sent (env : Env Cid) (s : State Cid) (stage : Stage)
    (c : Cid) :
    ∃ m r, verifyGetLinks env stage s c false true = some (m, r) := by
  unfold verifyGetLinks
  cases env.validateCid c with
  | some err => exact ⟨_, _, rfl⟩
  | none =>
    cases hget : ipldGetLinks env s.store c with
    | ok targets => exact ⟨s, .ok targets, by simp [fetchLinks, hget]⟩
    | error err =>
      cases hminds : stage.minds err with
      | true | false => exact ⟨_, _, by simp [fetchLinks, hget, hminds]; exact ⟨rfl, rfl⟩⟩

/-- **The collector is never stuck.**  Until it is done, some choice other than
a cancellation is enabled. -/
theorem exists_step (env : Env Cid) (s : State Cid) (hdone : s.pc ≠ .done) :
    ∃ ch, ch ≠ .cancel ∧ (step env s ch).isSome = true := by
  cases hpc : s.pc with
  | done => exact absurd hpc hdone
  | walk stage roots w =>
    obtain ⟨queue, active⟩ := w
    cases queue with
    | cons c rest =>
      exact ⟨.visit c, by simp, by simp [step, hpc, walkStep]⟩
    | nil =>
      cases active with
      | cons c rest =>
        obtain ⟨m, r, hget⟩ := verifyGetLinks_sent env s stage c
        refine ⟨.fetch c false true, by simp, ?_⟩
        cases r <;> simp [step, hpc, walkStep, hget]
      | nil => exact ⟨.next, by simp, by simp [step, hpc, walkStep, Walk.Finished]⟩
  | drain stage err w =>
    obtain ⟨queue, active⟩ := w
    cases active with
    | cons c rest =>
      obtain ⟨m, r, hget⟩ := verifyGetLinks_sent env s stage c
      exact ⟨.fetch c false true, by simp, by simp [step, hpc, drainStep, hget]⟩
    | nil => exact ⟨.next, by simp, by simp [step, hpc, drainStep]⟩
  | report stage err | abort err | deleted result | fail err =>
    exact ⟨.send, by simp, by simp [step, hpc, selectStep]⟩
  | receive => exact ⟨.keysClosed, by simp, by simp [step, hpc, receiveStep]⟩
  | swept =>
    cases herrors : s.deleteErrors with
    | true => exact ⟨.send, by simp, by simp [step, hpc, herrors, selectStep]⟩
    | false => exact ⟨.next, by simp, by simp [step, hpc, herrors, nextStep]⟩
  | descendants stage roots =>
    refine ⟨.next, by simp, ?_⟩
    cases roots <;> simp [step, hpc, nextStep]
  | sweep => exact ⟨.next, by simp, by simp [step, hpc, nextStep]⟩
  | recursiveKeys | directKeys | internalPins | marked | allKeys | collectGarbage =>
    refine ⟨.next, by simp, ?_⟩
    simp only [step, hpc, nextStep, reduceCtorEq, if_true, if_false]
    split <;> rfl

end Gc
