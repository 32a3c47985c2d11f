import GoIpfs.LinkReach
import Mathlib.Data.Finset.Card
import Mathlib.Tactic.Ring

/-!
# Concurrent graph walks over a shared visited set

A walk is a pool of workers that share one set `seen`.  A node waits in
`queue` until a worker visits it; the visit that adds it to `seen` makes it
`active`, and expanding an active node puts the targets of its links into the
queue.  Nothing is said about the order, so a walk here may pick any waiting
node and may expand any active one.

`Covers` is the invariant: a seen node is still active, or each of its links
has been seen or waits in the queue.  A finished walk has neither active nor
waiting nodes, so `Covers` then says that `seen` is closed under the links.
-/

namespace GraphWalk

open LinkReach List

variable {α : Type} [DecidableEq α]

/-- The nodes of a walk that still need work. -/
structure Walk (α : Type) where
  queue : List α
  active : List α
  deriving DecidableEq, Repr

/-- A walk begins with its root in the queue. -/
def Walk.start (root : α) : Walk α := ⟨[root], []⟩

/-- A walk that skips its root begins with the root active, without a visit. -/
def Walk.startBelow (root : α) : Walk α := ⟨[], [root]⟩

/-- Take `c` from the queue; the first visit of a node makes it active. -/
def Walk.visit (w : Walk α) (seen : Finset α) (c : α) : Walk α × Finset α :=
  if c ∈ seen then (⟨w.queue.erase c, w.active⟩, seen)
  else (⟨w.queue.erase c, c :: w.active⟩, insert c seen)

/-- Finish the active node `c`, whose links lead to `targets`. -/
def Walk.expand (w : Walk α) (c : α) (targets : List α) : Walk α :=
  ⟨w.queue ++ targets, w.active.erase c⟩

def Walk.Finished (w : Walk α) : Prop := w.queue = [] ∧ w.active = []

instance (w : Walk α) : Decidable w.Finished :=
  inferInstanceAs (Decidable (_ ∧ _))

/-- `b` has been seen or waits to be visited. -/
def Held (w : Walk α) (seen : Finset α) (b : α) : Prop :=
  b ∈ seen ∨ b ∈ w.queue

/-- `a` is active or has all its links held by the walk. -/
def Settled (links : α → List α) (w : Walk α) (seen : Finset α) (a : α) : Prop :=
  a ∈ w.active ∨ ∀ b ∈ links a, Held w seen b

/-- A seen node is active or has all its links held by the walk. -/
def Covers (links : α → List α) (w : Walk α) (seen : Finset α) : Prop :=
  ∀ a ∈ seen, Settled links w seen a

variable {links : α → List α} {w : Walk α} {seen : Finset α}

variable (root : α)

omit [DecidableEq α] in
theorem held_start : Held (Walk.start root) seen root :=
  .inr (by simp [Walk.start])

variable {b : α} (c : α)

theorem held_visit (h : Held w seen b) : Held (w.visit seen c).1 (w.visit seen c).2 b := by
  by_cases hbc : b = c
  · subst hbc
    by_cases hc : b ∈ seen
    · exact .inl (by simp [Walk.visit, hc])
    · exact .inl (by simp [Walk.visit, hc])
  · rcases h with hseen | hqueue
    · exact .inl (by unfold Walk.visit; split <;> simp [hseen])
    · refine .inr ?_
      unfold Walk.visit
      split <;> exact (mem_erase_of_ne hbc).mpr hqueue

theorem subset_visit : seen ⊆ (w.visit seen c).2 := by
  intro b hb
  unfold Walk.visit
  split <;> simp [hb]

theorem held_expand (targets : List α) (h : Held w seen b) : Held (w.expand c targets) seen b := by
  rcases h with hseen | hqueue
  · exact .inl hseen
  · exact .inr (mem_append_left _ hqueue)

omit [DecidableEq α] in
theorem covers_start (hclosed : Closed links (↑seen : Set α)) :
    Covers links (Walk.start root) seen :=
  fun a ha => .inr fun b hb => .inl (by simpa using hclosed a ha b hb)

theorem settled_visit {a : α} (h : Settled links w seen a) :
    Settled links (w.visit seen c).1 (w.visit seen c).2 a := by
  rcases h with hactive | hheld
  · refine .inl ?_
    unfold Walk.visit
    split
    · exact hactive
    · exact mem_cons_of_mem _ hactive
  · exact .inr fun b hb => held_visit c (hheld b hb)

variable {targets : List α}

theorem settled_expand (hsub : ∀ b ∈ links c, b ∈ targets) {a : α} (h : Settled links w seen a) :
    Settled links (w.expand c targets) seen a := by
  by_cases hac : a = c
  · subst hac
    exact .inr fun b hb => .inr (mem_append_right _ (hsub b hb))
  · rcases h with hactive | hheld
    · exact .inl ((mem_erase_of_ne hac).mpr hactive)
    · exact .inr fun b hb => held_expand c targets (hheld b hb)

theorem covers_visit (h : Covers links w seen) :
    Covers links (w.visit seen c).1 (w.visit seen c).2 := by
  intro a ha
  by_cases hold : a ∈ seen
  · exact settled_visit c (h a hold)
  refine .inl ?_
  unfold Walk.visit at ha ⊢
  split at ha
  · exact absurd ha hold
  · next hc =>
    rw [if_neg hc]
    rcases Finset.mem_insert.mp ha with rfl | hseen
    · exact mem_cons_self
    · exact absurd hseen hold

theorem covers_expand (hsub : ∀ b ∈ links c, b ∈ targets) (h : Covers links w seen) :
    Covers links (w.expand c targets) seen :=
  fun a ha => settled_expand c hsub (h a ha)

omit [DecidableEq α] in
/-- **A finished walk leaves a closed set.** -/
theorem closed_of_finished (hfin : w.Finished) (h : Covers links w seen) :
    Closed links (↑seen : Set α) := by
  intro a ha b hb
  rcases h a (by simpa using ha) with hactive | hheld
  · simp [hfin.2] at hactive
  · rcases hheld b hb with hseen | hqueue
    · simpa using hseen
    · simp [hfin.1] at hqueue

omit [DecidableEq α] in
theorem mem_of_finished (hfin : w.Finished) (h : Held w seen b) : b ∈ seen := by
  rcases h with hseen | hqueue
  · exact hseen
  · simp [hfin.1] at hqueue

variable {c : α}

theorem mem_queue_visit (h : b ∈ (w.visit seen c).1.queue) : b ∈ w.queue := by
  unfold Walk.visit at h
  split at h <;> exact mem_of_mem_erase h

theorem mem_active_visit (h : b ∈ (w.visit seen c).1.active) : b ∈ w.active ∨ b = c ∧ c ∉ seen := by
  unfold Walk.visit at h
  split at h
  · exact .inl h
  · rename_i hc
    rcases mem_cons.mp h with rfl | hactive
    · exact .inr ⟨rfl, hc⟩
    · exact .inl hactive

theorem mem_seen_visit (h : b ∈ (w.visit seen c).2) : b ∈ seen ∨ b = c := by
  unfold Walk.visit at h
  split at h
  · exact .inl h
  · exact (Finset.mem_insert.mp h).symm

/-- A bound on the steps a walk still needs when its nodes come from
`nodes` and no node has more than `degree` links. -/
def Walk.work (nodes seen : Finset α) (degree : Nat) (w : Walk α) : Nat :=
  (degree + 3) * (nodes \ seen).card + (degree + 2) * w.active.length +
    w.queue.length

omit [DecidableEq α] in
theorem eq_idle_of_finished (hfin : w.Finished) : w = ⟨[], []⟩ := by
  obtain ⟨queue, active⟩ := w
  obtain ⟨hqueue, hactive⟩ := hfin
  simp only at hqueue hactive
  rw [hqueue, hactive]

variable (nodes seen : Finset α) (degree : Nat)

theorem work_start :
    (Walk.start root).work nodes seen degree =
      (⟨[], []⟩ : Walk α).work nodes seen degree + 1 := by
  simp [Walk.work, Walk.start]

theorem work_startBelow :
    (Walk.startBelow root).work nodes seen degree =
      (⟨[], []⟩ : Walk α).work nodes seen degree + (degree + 2) := by
  simp [Walk.work, Walk.startBelow]

theorem work_mono (nodes : Finset α) {seen seen' : Finset α} (degree : Nat)
    (hsub : seen ⊆ seen') : w.work nodes seen' degree ≤ w.work nodes seen degree := by
  have hcard : (nodes \ seen').card ≤ (nodes \ seen).card :=
    Finset.card_le_card (Finset.sdiff_subset_sdiff (Finset.Subset.refl _) hsub)
  have hmul := Nat.mul_le_mul_left (degree + 3) hcard
  unfold Walk.work
  omega

theorem idle_work_le : (⟨[], []⟩ : Walk α).work nodes seen degree ≤ w.work nodes seen degree := by
  simp only [Walk.work, length_nil]
  omega

/-- A visit takes a node from the queue, and a first visit takes it from the
nodes that are still to be seen. -/
theorem work_visit_lt (seen : Finset α) (degree : Nat) {nodes : Finset α} (hc : c ∈ w.queue)
    (huniv : c ∈ nodes) :
    (w.visit seen c).1.work nodes (w.visit seen c).2 degree <
      w.work nodes seen degree := by
  have hlen : (w.queue.erase c).length = w.queue.length - 1 :=
    length_erase_of_mem hc
  have hpos : 0 < w.queue.length := length_pos_of_mem hc
  by_cases hseen : c ∈ seen
  · simp only [Walk.visit, hseen, if_true, Walk.work, hlen]
    omega
  have hcard : (nodes \ insert c seen).card + 1 = (nodes \ seen).card := by
    rw [Finset.sdiff_insert]
    exact Finset.card_erase_add_one (Finset.mem_sdiff.mpr ⟨huniv, hseen⟩)
  simp only [Walk.visit, hseen, if_false, Walk.work, hlen, length_cons, ← hcard]
  ring_nf
  omega

theorem work_expand_lt {degree : Nat} (hc : c ∈ w.active) (hdeg : targets.length ≤ degree) :
    (w.expand c targets).work nodes seen degree < w.work nodes seen degree := by
  have hlen : (w.active.erase c).length + 1 = w.active.length := by
    rw [length_erase_of_mem hc]
    have := length_pos_of_mem hc
    omega
  simp only [Walk.expand, Walk.work, length_append, ← hlen]
  ring_nf
  omega

end GraphWalk
