import Mathlib.Algebra.BigOperators.Group.List.Basic
import Mathlib.Algebra.GroupWithZero.Nat
import Mathlib.Data.List.Induction

/-!
# Bootstrap peers

`ParseBootstrapPeers` reads a list of addresses that end in `/p2p/<id>` and
collects them by peer; `BootstrapPeerStrings` prints such peers again.  The
peers come out of a Go map, in an order that no one can foresee.

Reading and printing is not the identity.  An address without a transport is
dropped when the peer has one with a transport, addresses of one peer move
together, and each is printed in the spelling of the library.  No address is
added, though, so the list never gets longer (`width_order_group_le`).
-/

namespace BootstrapPeers

open List

/-- A component of a multiaddr: the protocol and the raw value. -/
structure Component where
  code : Nat
  value : String
  deriving DecidableEq, Repr

abbrev Multiaddr := List Component

/-- `ma.P_P2P`. -/
def pP2P : Nat := 0x01A5

/-- `peer.AddrInfo`. -/
structure AddrInfo where
  id : String
  addrs : List Multiaddr
  deriving DecidableEq, Repr

/-- The text form of multiaddrs, and the order in which the `n`-th map is ranged
over. -/
structure Lib where
  newMultiaddr : String → Except String Multiaddr
  string : Multiaddr → String
  order : Nat → List AddrInfo → List AddrInfo
  order_perm : ∀ n l, (order n l).Perm l

/-- `ma.SplitLast`: the part before the last component is nil when there is none. -/
def splitLast (m : Multiaddr) : Option Multiaddr × Option Component :=
  (if m.length ≤ 1 then none else some m.dropLast, m.getLast?)

/-- `peer.SplitAddr`: the transport and the id of the peer. -/
def splitAddr (m : Multiaddr) : Option Multiaddr × String :=
  match splitLast m with
  | (transport, some c) => if c.code = pP2P then (transport, c.value) else (some m, "")
  | (_, none) => (some m, "")

/-- `m[id] = append(m[id], transport)`, or an entry without addresses for a nil
transport. -/
def insertAddr (transport : Option Multiaddr) (id : String) : List AddrInfo → List AddrInfo
  | [] => [⟨id, transport.toList⟩]
  | p :: rest =>
    if p.id = id then ⟨id, p.addrs ++ transport.toList⟩ :: rest
    else p :: insertAddr transport id rest

/-- The loop of `peer.AddrInfosFromP2pAddrs`. -/
def addrInfosLoop : List Multiaddr → List AddrInfo → Except String (List AddrInfo)
  | [], m => .ok m
  | maddr :: rest, m =>
    if (splitAddr maddr).2 = "" then .error "invalid p2p multiaddr"
    else addrInfosLoop rest (insertAddr (splitAddr maddr).1 (splitAddr maddr).2 m)

/-- `peer.AddrInfosFromP2pAddrs`. -/
def addrInfosFromP2pAddrs (lib : Lib) (n : Nat) (maddrs : List Multiaddr) :
    Except String (List AddrInfo) :=
  (addrInfosLoop maddrs []).map (lib.order n)

/-- The first loop of `ParseBootstrapPeers`. -/
def newMultiaddrs (lib : Lib) : List String → Except String (List Multiaddr)
  | [] => .ok []
  | addr :: rest => do
      let maddr ← lib.newMultiaddr addr
      let maddrs ← newMultiaddrs lib rest
      return maddr :: maddrs

/-- `ParseBootstrapPeers`. -/
def parseBootstrapPeers (lib : Lib) (n : Nat) (addrs : List String) :
    Except String (List AddrInfo) := do
  let maddrs ← newMultiaddrs lib addrs
  addrInfosFromP2pAddrs lib n maddrs

/-- `peer.AddrInfoToP2pAddrs`. -/
def addrInfoToP2pAddrs (pi : AddrInfo) : List Multiaddr :=
  if pi.addrs = [] then [[⟨pP2P, pi.id⟩]]
  else pi.addrs.map fun addr => addr ++ [⟨pP2P, pi.id⟩]

/-- `BootstrapPeerStrings`. -/
def bootstrapPeerStrings (lib : Lib) (bps : List AddrInfo) : List String :=
  bps.flatMap fun pi => (addrInfoToP2pAddrs pi).map lib.string

/-! ## What is read -/

/-- The address is a multiaddr that ends in `/p2p/<id>`. -/
def IsP2p (lib : Lib) (addr : String) : Prop :=
  ∃ m, lib.newMultiaddr addr = .ok m ∧ (splitAddr m).2 ≠ ""

def entries (lib : Lib) (addrs : List String) : List (Option Multiaddr × String) :=
  addrs.filterMap fun addr => (lib.newMultiaddr addr).toOption.map splitAddr

def transports (id : String) (es : List (Option Multiaddr × String)) : List Multiaddr :=
  es.filterMap fun e => if e.2 = id then e.1 else none

/-- The peers of a list of addresses, each with all its transports. -/
def group (es : List (Option Multiaddr × String)) : List AddrInfo :=
  es.foldl (fun m e => insertAddr e.1 e.2 m) []

section Reading

variable {lib : Lib} {addr : String} {addrs : List String} {m : Multiaddr}

theorem entries_cons (h : lib.newMultiaddr addr = .ok m) :
    entries lib (addr :: addrs) = splitAddr m :: entries lib addrs := by
  simp [entries, h, Except.toOption]

theorem length_entries_le (lib : Lib) (addrs : List String) :
    (entries lib addrs).length ≤ addrs.length :=
  length_filterMap_le _ _

theorem addrInfosLoop_ok {maddrs : List Multiaddr} (h : ∀ x ∈ maddrs, (splitAddr x).2 ≠ "")
    (infos : List AddrInfo) :
    addrInfosLoop maddrs infos =
      .ok ((maddrs.map splitAddr).foldl (fun m e => insertAddr e.1 e.2 m) infos) := by
  induction maddrs generalizing infos with
  | nil => rfl
  | cons x rest ih =>
    rw [addrInfosLoop, if_neg (h x mem_cons_self)]
    exact ih (fun y hy => h y (mem_cons_of_mem _ hy)) _

theorem addrInfosLoop_error {maddrs : List Multiaddr} (h : ¬ ∀ x ∈ maddrs, (splitAddr x).2 ≠ "")
    (infos : List AddrInfo) : ∃ e, addrInfosLoop maddrs infos = .error e := by
  induction maddrs generalizing infos with
  | nil => exact absurd nofun h
  | cons x rest ih =>
    rw [addrInfosLoop]
    by_cases hx : (splitAddr x).2 = ""
    · exact ⟨_, if_pos hx⟩
    · rw [if_neg hx]
      exact ih (fun hrest => h (forall_mem_cons.mpr ⟨hx, hrest⟩)) _

theorem newMultiaddrs_cases (lib : Lib) (addrs : List String) :
    (∃ maddrs, newMultiaddrs lib addrs = .ok maddrs ∧
      entries lib addrs = maddrs.map splitAddr ∧
      ((∀ x ∈ maddrs, (splitAddr x).2 ≠ "") ↔ ∀ a ∈ addrs, IsP2p lib a)) ∨
    ∃ e, newMultiaddrs lib addrs = .error e ∧ ¬ ∀ a ∈ addrs, IsP2p lib a := by
  induction addrs with
  | nil => exact .inl ⟨[], rfl, rfl, by simp⟩
  | cons addr rest ih =>
    cases hm : lib.newMultiaddr addr with
    | error e =>
      refine .inr ⟨e, by simp [newMultiaddrs, hm, bind, Except.bind], fun h => ?_⟩
      obtain ⟨m, hok, _⟩ := h addr mem_cons_self
      rw [hm] at hok
      cases hok
    | ok m =>
      have hp2p : IsP2p lib addr ↔ (splitAddr m).2 ≠ "" := by
        unfold IsP2p
        rw [hm]
        simp
      rcases ih with ⟨maddrs, hrest, hentries, hiff⟩ | ⟨e, hrest, hnot⟩
      · refine .inl ⟨m :: maddrs, ?_, ?_, ?_⟩
        · simp [newMultiaddrs, hm, hrest, bind, Except.bind, pure, Except.pure]
        · rw [entries_cons hm, hentries, map_cons]
        · rw [forall_mem_cons, forall_mem_cons, hiff, hp2p]
      · refine .inr ⟨e, ?_, fun h => hnot fun a ha => h a (mem_cons_of_mem _ ha)⟩
        simp [newMultiaddrs, hm, hrest, bind, Except.bind]

/-- **Reading a list of addresses.**  It succeeds when all of them end in
`/p2p/<id>`. -/
theorem parseBootstrapPeers_ok (n : Nat) (h : ∀ a ∈ addrs, IsP2p lib a) :
    parseBootstrapPeers lib n addrs = .ok (lib.order n (group (entries lib addrs))) := by
  rcases newMultiaddrs_cases lib addrs with ⟨maddrs, hmaddrs, hentries, hiff⟩ | ⟨e, _, hnot⟩
  · have hloop := addrInfosLoop_ok (hiff.mpr h) []
    simp only [parseBootstrapPeers, hmaddrs, bind, Except.bind, addrInfosFromP2pAddrs, hloop,
      Except.map, group, hentries]
  · exact absurd h hnot

theorem parseBootstrapPeers_error (n : Nat) (h : ¬ ∀ a ∈ addrs, IsP2p lib a) :
    ∃ e, parseBootstrapPeers lib n addrs = .error e := by
  rcases newMultiaddrs_cases lib addrs with ⟨maddrs, hmaddrs, _, hiff⟩ | ⟨e, herr, _⟩
  · obtain ⟨e, hloop⟩ := addrInfosLoop_error (fun hall => h (hiff.mp hall)) []
    refine ⟨e, ?_⟩
    simp only [parseBootstrapPeers, hmaddrs, bind, Except.bind, addrInfosFromP2pAddrs, hloop,
      Except.map]
  · exact ⟨e, by simp only [parseBootstrapPeers, herr, bind, Except.bind]⟩

end Reading

/-! ## The peers of a list -/

section Grouping

variable {t : Option Multiaddr} {id : String} {infos : List AddrInfo}

theorem mem_ids_insertAddr {x : String} :
    x ∈ (insertAddr t id infos).map AddrInfo.id ↔ x = id ∨ x ∈ infos.map AddrInfo.id := by
  induction infos with
  | nil => simp [insertAddr]
  | cons p rest ih =>
    unfold insertAddr
    split
    · rename_i hp
      simp [hp]
    · rw [map_cons, mem_cons, ih, map_cons, mem_cons]
      exact or_left_comm

theorem nodup_ids_insertAddr (h : (infos.map AddrInfo.id).Nodup) :
    ((insertAddr t id infos).map AddrInfo.id).Nodup := by
  induction infos with
  | nil => simp [insertAddr]
  | cons p rest ih =>
    obtain ⟨hp, hrest⟩ := nodup_cons.mp h
    unfold insertAddr
    split
    · rename_i heq
      rw [map_cons, ← heq]
      exact nodup_cons.mpr ⟨hp, hrest⟩
    rename_i hne
    refine nodup_cons.mpr ⟨?_, ih hrest⟩
    rw [mem_ids_insertAddr]
    rintro (heq | hmem)
    · exact hne heq
    · exact hp hmem

def addrsOf (id : String) (infos : List AddrInfo) : List Multiaddr :=
  (infos.find? fun p => p.id = id).elim [] AddrInfo.addrs

theorem addrsOf_insertAddr (x : String) :
    addrsOf x (insertAddr t id infos) =
      addrsOf x infos ++ if id = x then t.toList else [] := by
  induction infos with
  | nil =>
    by_cases hx : id = x <;> simp [insertAddr, addrsOf, hx]
  | cons p rest ih =>
    unfold insertAddr
    by_cases hp : p.id = id
    · by_cases hx : id = x
      · simp [addrsOf, hp, hx]
      · simp [addrsOf, hp, hx]
    rw [if_neg hp]
    by_cases hx : p.id = x
    · have hne : id ≠ x := fun h => hp (hx.trans h.symm)
      simp [addrsOf, hx, hne]
    · unfold addrsOf at ih ⊢
      rw [find?_cons_of_neg (by simpa using hx), ih, find?_cons_of_neg (by simpa using hx)]

section

variable (es : List (Option Multiaddr × String))

theorem group_append_singleton (e : Option Multiaddr × String) :
    group (es ++ [e]) = insertAddr e.1 e.2 (group es) := by
  simp [group, foldl_append]

theorem nodup_ids_group : ((group es).map AddrInfo.id).Nodup := by
  induction es using reverseRecOn with
  | nil => exact nodup_nil
  | append_singleton es e ih =>
    rw [group_append_singleton]
    exact nodup_ids_insertAddr ih

theorem mem_ids_group {x : String} : x ∈ (group es).map AddrInfo.id ↔ x ∈ es.map Prod.snd := by
  induction es using reverseRecOn with
  | nil => exact Iff.rfl
  | append_singleton es e ih =>
    rw [group_append_singleton, mem_ids_insertAddr, ih, map_append, mem_append,
      map_singleton, mem_singleton, Or.comm]

end

theorem addrsOf_group (x : String) (es : List (Option Multiaddr × String)) :
    addrsOf x (group es) = transports x es := by
  induction es using reverseRecOn with
  | nil => rfl
  | append_singleton es e ih =>
    obtain ⟨t, id⟩ := e
    rw [group_append_singleton, addrsOf_insertAddr, ih]
    unfold transports
    by_cases hx : id = x <;> cases t <;> simp [hx]

theorem addrsOf_of_mem {p : AddrInfo} (hnodup : (infos.map AddrInfo.id).Nodup) (hp : p ∈ infos) :
    addrsOf p.id infos = p.addrs := by
  induction infos with
  | nil => cases hp
  | cons q rest ih =>
    obtain ⟨hq, hrest⟩ := nodup_cons.mp hnodup
    rcases mem_cons.mp hp with rfl | hp
    · simp [addrsOf]
    have hne : q.id ≠ p.id := fun h => hq (h ▸ mem_map_of_mem hp)
    have hskip : addrsOf p.id (q :: rest) = addrsOf p.id rest := by
      unfold addrsOf
      rw [find?_cons_of_neg (by simpa using hne)]
    rw [hskip]
    exact ih hrest hp

/-- **What a list of addresses says about its peers.** -/
theorem addrs_of_mem_group {es : List (Option Multiaddr × String)} {p : AddrInfo}
    (hp : p ∈ group es) : p.addrs = transports p.id es := by
  rw [← addrsOf_group, addrsOf_of_mem (nodup_ids_group es) hp]

end Grouping

/-! ## What is printed -/

def AddrInfo.width (p : AddrInfo) : Nat := max 1 p.addrs.length

theorem length_addrInfoToP2pAddrs (p : AddrInfo) : (addrInfoToP2pAddrs p).length = p.width := by
  unfold addrInfoToP2pAddrs AddrInfo.width
  split
  · rename_i hnil
    simp [hnil]
  · rename_i hne
    have hpos := length_pos_iff.mpr hne
    rw [length_map]
    omega

theorem length_bootstrapPeerStrings (lib : Lib) (bps : List AddrInfo) :
    (bootstrapPeerStrings lib bps).length = (bps.map AddrInfo.width).sum := by
  induction bps with
  | nil => rfl
  | cons p rest ih =>
    unfold bootstrapPeerStrings at ih ⊢
    rw [flatMap_cons, length_append, ih, length_map, length_addrInfoToP2pAddrs, map_cons, sum_cons]

theorem width_insertAddr_le (t : Option Multiaddr) (id : String) (infos : List AddrInfo) :
    ((insertAddr t id infos).map AddrInfo.width).sum ≤ (infos.map AddrInfo.width).sum + 1 := by
  have hone : t.toList.length ≤ 1 := by cases t <;> simp
  induction infos with
  | nil =>
    simp only [insertAddr, map_cons, map_nil, sum_cons, sum_nil, AddrInfo.width]
    omega
  | cons p rest ih =>
    unfold insertAddr
    split
    · simp only [map_cons, sum_cons, AddrInfo.width, length_append]
      omega
    · simp only [map_cons, sum_cons]
      omega

theorem width_group_le (es : List (Option Multiaddr × String)) :
    ((group es).map AddrInfo.width).sum ≤ es.length := by
  induction es using reverseRecOn with
  | nil => exact Nat.le_refl 0
  | append_singleton es e ih =>
    rw [group_append_singleton, length_append, length_singleton]
    have hinsert := width_insertAddr_le e.1 e.2 (group es)
    omega

/-- **The peers of a list are printed as at most as many addresses.** -/
theorem width_order_group_le (lib : Lib) (n : Nat) (addrs : List String) :
    ((lib.order n (group (entries lib addrs))).map AddrInfo.width).sum ≤ addrs.length := by
  have hperm := (lib.order_perm n (group (entries lib addrs))).map AddrInfo.width
  rw [hperm.sum_eq]
  exact Nat.le_trans (width_group_le _) (length_entries_le lib addrs)

end BootstrapPeers
