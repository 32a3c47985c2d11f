import Mathlib.Data.Finset.Card
import Mathlib.Data.List.FinRange

/-!
# One bootstrap round

`bootstrapRound`, `randomSubsetOfPeers` and `bootstrapConnect` of
`core/bootstrap/bootstrap.go`.  A round that finds too few connections dials a
random part of the bootstrap peers that are not connected.  The dials run at the
same time; their errors arrive in a channel in the order in which they finish,
and the round counts them after all have finished.
-/

namespace NodeBootstrap

open List

/-- `peer.AddrInfo`. -/
structure AddrInfo (PeerId : Type) where
  id : PeerId
  addrs : List String
  deriving DecidableEq, Repr

/-- What `rand.Perm` returns. -/
structure Shuffle where
  perm : (n : Nat) → List (Fin n)
  isPerm : ∀ n, (perm n).Perm (List.finRange n)

variable {PeerId : Type}

/-- How the outside behaves during a round. -/
structure Outside (PeerId : Type) where
  shuffle : Shuffle
  /-- The error of `Connect`. -/
  dial : AddrInfo PeerId → Option String
  /-- The order in which the dials finish. -/
  finish : List (AddrInfo PeerId) → List (AddrInfo PeerId)
  finish_perm : ∀ peers, (finish peers).Perm peers

inductive RoundError where
  | notEnoughBootstrapPeers
  /-- "failed to bootstrap.", with the error that came last. -/
  | failed (last : Option String)
  deriving DecidableEq, Repr

/-- `randomSubsetOfPeers`. -/
def randomSubsetOfPeers (shuffle : Shuffle) (peers : List (AddrInfo PeerId)) (max : Int) :
    List (AddrInfo PeerId) :=
  let max := if max > peers.length then (peers.length : Int) else max
  ((shuffle.perm peers.length).take max.toNat).map peers.get

/-- `bootstrapConnect`: the peers that it dials, and what it returns. -/
def bootstrapConnect (out : Outside PeerId) (peers : List (AddrInfo PeerId)) :
    List (AddrInfo PeerId) × Option RoundError :=
  if peers.length < 1 then ([], some .notEnoughBootstrapPeers)
  else
    let errs := (out.finish peers).filterMap out.dial
    if errs.length = peers.length then (peers, some (.failed errs.getLast?))
    else (peers, none)

variable [DecidableEq PeerId]

/-- `bootstrapRound` with the connected peers at its start: the peers that it
dials, and what it returns. -/
def bootstrapRound (out : Outside PeerId) (connected : Finset PeerId)
    (peers : List (AddrInfo PeerId)) (minPeerThreshold : Int) :
    List (AddrInfo PeerId) × Option RoundError :=
  if (connected.card : Int) ≥ minPeerThreshold then ([], none)
  else
    let numToDial := minPeerThreshold - connected.card
    let notConnected := peers.filter fun p => p.id ∉ connected
    if notConnected.length < 1 then ([], some .notEnoughBootstrapPeers)
    else bootstrapConnect out (randomSubsetOfPeers out.shuffle notConnected numToDial)

/-! ## The random subset -/

section Subset

omit [DecidableEq PeerId]

variable {shuffle : Shuffle} {peers : List (AddrInfo PeerId)} {max : Int}

theorem length_randomSubsetOfPeers (hmax : 0 ≤ max) :
    ((randomSubsetOfPeers shuffle peers max).length : Int) = min max peers.length := by
  have hlength : (shuffle.perm peers.length).length = peers.length := by
    rw [(shuffle.isPerm _).length_eq, length_finRange]
  unfold randomSubsetOfPeers
  simp only [length_map, length_take, hlength]
  split <;> omega

theorem mem_of_randomSubsetOfPeers {p : AddrInfo PeerId}
    (h : p ∈ randomSubsetOfPeers shuffle peers max) : p ∈ peers := by
  obtain ⟨i, -, rfl⟩ := mem_map.mp h
  exact get_mem peers i

theorem nodup_randomSubsetOfPeers (hnodup : (peers.map AddrInfo.id).Nodup) :
    ((randomSubsetOfPeers shuffle peers max).map AddrInfo.id).Nodup := by
  have hall : ((shuffle.perm peers.length).map peers.get).Perm peers := by
    have hperm := (shuffle.isPerm peers.length).map peers.get
    rwa [← ofFn_eq_map, ofFn_get] at hperm
  refine List.Nodup.sublist ((take_sublist _ _).map _ |>.map _) ?_
  exact (hall.map AddrInfo.id).nodup_iff.mpr hnodup

end Subset

/-! ## The dials -/

omit [DecidableEq PeerId] in
theorem bootstrapConnect_dials (out : Outside PeerId) (peers : List (AddrInfo PeerId)) :
    (bootstrapConnect out peers).1 = peers := by
  unfold bootstrapConnect
  split
  · rename_i hempty
    exact (eq_nil_of_length_eq_zero (by omega)).symm
  · simp only
    split <;> rfl

omit [DecidableEq PeerId] in
/-- **The count of the errors.**  It reaches the number of peers only if every
dial has failed. -/
theorem bootstrapConnect_none_iff (out : Outside PeerId) (peers : List (AddrInfo PeerId)) :
    (bootstrapConnect out peers).2 = none ↔ ∃ p ∈ peers, out.dial p = none := by
  have hcount : ((out.finish peers).filterMap out.dial).length = peers.length ↔
      ∀ p ∈ peers, (out.dial p).isSome := by
    rw [((out.finish_perm peers).filterMap out.dial).length_eq]
    exact filterMap_length_eq_length
  unfold bootstrapConnect
  split
  · rename_i hempty
    have hnil : peers = [] := eq_nil_of_length_eq_zero (by omega)
    simp [hnil]
  simp only
  split
  · rename_i hfailed
    refine ⟨fun h => by simp at h, ?_⟩
    rintro ⟨p, hp, hdial⟩
    have hsome := hcount.mp hfailed p hp
    rw [hdial] at hsome
    cases hsome
  · rename_i hsucceeded
    refine ⟨fun _ => ?_, fun _ => rfl⟩
    by_contra hnone
    refine hsucceeded (hcount.mpr fun p hp => ?_)
    exact Option.isSome_iff_ne_none.mpr fun hdial => hnone ⟨p, hp, hdial⟩

/-- **A bootstrap round dials the right peers.** -/
theorem bootstrapRound_dials (out : Outside PeerId) (connected : Finset PeerId)
    (peers : List (AddrInfo PeerId)) (hdistinct : (peers.map AddrInfo.id).Nodup)
    (minPeerThreshold : Int) :
    (minPeerThreshold ≤ connected.card →
      bootstrapRound out connected peers minPeerThreshold = ([], none)) ∧
    (connected.card < minPeerThreshold →
      let (dialed, result) := bootstrapRound out connected peers minPeerThreshold
      (dialed.length : Int) = min (minPeerThreshold - connected.card)
        (peers.filter fun p => p.id ∉ connected).length ∧
      (dialed.map AddrInfo.id).Nodup ∧
      (∀ p ∈ dialed, p ∈ peers ∧ p.id ∉ connected) ∧
      (result = none ↔ ∃ p ∈ dialed, out.dial p = none)) := by
  refine ⟨fun hmet => if_pos hmet, ?_⟩
  intro hfew
  have hround : ¬ (connected.card : Int) ≥ minPeerThreshold := by omega
  have hcandidates : ((peers.filter fun p => p.id ∉ connected).map AddrInfo.id).Nodup :=
    hdistinct.sublist (filter_sublist.map _)
  unfold bootstrapRound
  rw [if_neg hround]
  simp only
  split
  · have hempty : (peers.filter fun p => p.id ∉ connected).length = 0 := by omega
    refine ⟨?_, nodup_nil, by simp, by simp⟩
    simp only [length_nil]
    omega
  · simp only [bootstrapConnect_dials, bootstrapConnect_none_iff]
    refine ⟨length_randomSubsetOfPeers (by omega), nodup_randomSubsetOfPeers hcandidates, ?_,
      trivial⟩
    intro p hp
    have hmem := mem_of_randomSubsetOfPeers hp
    simpa using mem_filter.mp hmem

def inOrder : Shuffle := ⟨fun n => List.finRange n, fun _ => List.Perm.refl _⟩

/-- With one connection and a threshold of 3, two of the three other peers are
dialed, and one of them answers. -/
theorem bootstrapRound_dials_two :
    let out : Outside Nat :=
      ⟨inOrder, fun p => if p.id = 2 then none else some "timeout", id, fun _ => List.Perm.refl _⟩
    let peers : List (AddrInfo Nat) := [⟨1, []⟩, ⟨2, []⟩, ⟨3, []⟩, ⟨4, []⟩]
    bootstrapRound out {1} peers 3 = ([⟨2, []⟩, ⟨3, []⟩], none) ∧
      ((bootstrapRound out {1} peers 3).1.map AddrInfo.id).Nodup := by
  intro out peers
  have h := (bootstrapRound_dials out {1} peers (by decide) 3).2 (by decide)
  exact ⟨by decide, h.2.1⟩

end NodeBootstrap
