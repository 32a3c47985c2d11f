import GoIpfs.StepRun
import Mathlib.Data.List.Nodup
import Mathlib.Data.List.Range
import Mathlib.Logic.Function.Basic

/-!
# The registry of forwarded streams

`StreamRegistry` of `p2p/stream.go`.  Each method body runs under the registry's
lock, so it is one step; `Close` and `Reset` close the ends of a stream and read
its id first, and enter `Deregister` later.  A stream is closed by both of its
copy goroutines, so a schedule may hold any number of these calls at once.

* `conns_eq`: the counter of a peer is the number of its registered streams;
* `tagged_iff`: the connection manager keeps the peers that have one;
* `issued_nodup`: no id is handed out twice;
* `gone_of_deregister`: a stream is deregistered once and for all.
-/

namespace StreamRegistry

open StepRun List Function

/-- A `*Stream`. -/
abbrev StreamRef := Nat

/-- The state of an end of a stream. -/
inductive End where
  | live
  | closed
  | wasReset
  deriving DecidableEq, Repr

/-- The registry with the objects that it points to. -/
structure Registry (Peer : Type) where
  /-- `Streams`. -/
  streams : List (UInt64 × StreamRef)
  /-- `conns`; `none` is an absent key.  The `int` counts streams that are registered at
  the same time, which are fewer than 2⁶³. -/
  conns : Peer → Option Int
  nextID : UInt64
  /-- The peers that the connection manager has tagged with `cmgrTag`. -/
  tagged : Peer → Bool
  /-- The field `id` of each stream. -/
  idOf : StreamRef → UInt64
  localEnd : StreamRef → End
  remoteEnd : StreamRef → End
  /-- The ids with which `Close` and `Reset` calls are about to deregister. -/
  pending : List UInt64
  /-- The ids that have been handed out. -/
  issued : List UInt64

variable {Peer : Type} [DecidableEq Peer]

/-- An empty registry. -/
def Registry.start : Registry Peer where
  streams := []
  conns _ := none
  nextID := 0
  tagged _ := false
  idOf _ := 0
  localEnd _ := .live
  remoteEnd _ := .live
  pending := []
  issued := []

variable (peerOf : StreamRef → Peer)

/-- `Register`. -/
def register (streamInfo : StreamRef) (r : Registry Peer) : Registry Peer :=
  { r with
    tagged := Function.update r.tagged (peerOf streamInfo) true
    conns := Function.update r.conns (peerOf streamInfo)
      (some ((r.conns (peerOf streamInfo)).getD 0 + 1))
    idOf := Function.update r.idOf streamInfo r.nextID
    streams := (r.nextID, streamInfo) :: r.streams.filter (·.1 ≠ r.nextID)
    nextID := r.nextID + 1
    issued := r.issued ++ [r.nextID] }

/-- `Deregister`. -/
def deregister (streamID : UInt64) (r : Registry Peer) : Registry Peer :=
  match r.streams.lookup streamID with
  | none => r
  | some s =>
    let p := peerOf s
    let n := (r.conns p).getD 0 - 1
    { r with
      conns := Function.update r.conns p (if n < 1 then none else some n)
      tagged := if n < 1 then Function.update r.tagged p false else r.tagged
      streams := r.streams.filter (·.1 ≠ streamID) }

/-- The steps of the callers. -/
inductive Op where
  | register (s : StreamRef)
  | deregister (streamID : UInt64)
  /-- `Close` has closed both ends. -/
  | close (s : StreamRef)
  /-- `Reset` has closed the local end and reset the remote one. -/
  | reset (s : StreamRef)
  /-- A call of `Close` or `Reset` goes on with `Deregister`. -/
  | finish (k : Nat)
  deriving DecidableEq, Repr

/-- The step hands out an id. -/
def Op.isRegister : Op → Bool
  | .register _ => true
  | _ => false

/-- A step; only `finish` needs a call that is under way. -/
def step (r : Registry Peer) : Op → Option (Registry Peer)
  | .register s => some (register peerOf s r)
  | .deregister streamID => some (deregister peerOf streamID r)
  | .close s =>
    some { r with
      localEnd := Function.update r.localEnd s .closed
      remoteEnd := Function.update r.remoteEnd s .closed
      pending := r.pending ++ [r.idOf s] }
  | .reset s =>
    some { r with
      localEnd := Function.update r.localEnd s .closed
      remoteEnd := Function.update r.remoteEnd s .wasReset
      pending := r.pending ++ [r.idOf s] }
  | .finish k =>
    match r.pending[k]? with
    | none => none
    | some streamID =>
      some (deregister peerOf streamID { r with pending := r.pending.eraseIdx k })

/-- The number of registered streams of a peer. -/
def count (r : Registry Peer) (p : Peer) : Nat := r.streams.countP fun e => peerOf e.2 = p

/-! ## What a step can do -/

/-- A step registers a stream, deregisters an id, or leaves the maps alone. -/
inductive Effect (r t : Registry Peer) : Op → Prop
  | registered (s : StreamRef) (h : t = register peerOf s r) : Effect r t (.register s)
  | deregistered {a : Op} (streamID : UInt64) (m : Registry Peer) (ha : a.isRegister = false)
      (hstreams : m.streams = r.streams) (hconns : m.conns = r.conns)
      (htagged : m.tagged = r.tagged) (hnext : m.nextID = r.nextID) (hissued : m.issued = r.issued)
      (h : t = deregister peerOf streamID m) : Effect r t a
  | other {a : Op} (ha : a.isRegister = false)
      (hstreams : t.streams = r.streams) (hconns : t.conns = r.conns)
      (htagged : t.tagged = r.tagged) (hnext : t.nextID = r.nextID)
      (hissued : t.issued = r.issued) : Effect r t a

variable {peerOf} {r t : Registry Peer} {a : Op}

/-- **Inversion.** Every step has one of these effects. -/
theorem effect_of_step (h : step peerOf r a = some t) : Effect peerOf r t a := by
  cases a with
  | register s =>
    cases h
    exact .registered s rfl
  | deregister streamID =>
    cases h
    exact .deregistered streamID r rfl rfl rfl rfl rfl rfl rfl
  | close s | reset s =>
    cases h
    exact .other rfl rfl rfl rfl rfl rfl
  | finish k =>
    simp only [step] at h
    split at h
    · cases h
    · rename_i streamID _
      cases h
      exact .deregistered streamID { r with pending := r.pending.eraseIdx k }
        rfl rfl rfl rfl rfl rfl rfl

/-- `Deregister` leaves the numbering alone. -/
@[simp] theorem deregister_nextID (streamID : UInt64) (r : Registry Peer) :
    (deregister peerOf streamID r).nextID = r.nextID := by
  unfold deregister
  split <;> rfl

/-- `Deregister` does not take ids back. -/
@[simp] theorem deregister_issued (streamID : UInt64) (r : Registry Peer) :
    (deregister peerOf streamID r).issued = r.issued := by
  unfold deregister
  split <;> rfl

/-- `Deregister` does nothing for an unknown id, and removes the one stream of a known
one. -/
theorem deregister_cases (peerOf : StreamRef → Peer) (streamID : UInt64) (r : Registry Peer)
    (hkeys : (r.streams.map Prod.fst).Nodup) :
    (∀ e ∈ r.streams, e.1 ≠ streamID) ∧ deregister peerOf streamID r = r ∨
    ∃ l₁ s l₂, r.streams = l₁ ++ (streamID, s) :: l₂ ∧ (∀ e ∈ l₁ ++ l₂, e.1 ≠ streamID) ∧
      deregister peerOf streamID r =
        { r with
          conns := Function.update r.conns (peerOf s)
            (if (r.conns (peerOf s)).getD 0 - 1 < 1 then none
              else some ((r.conns (peerOf s)).getD 0 - 1))
          tagged :=
            if (r.conns (peerOf s)).getD 0 - 1 < 1 then update r.tagged (peerOf s) false
            else r.tagged
          streams := l₁ ++ l₂ } := by
  unfold deregister
  split
  · rename_i hnone
    left
    refine ⟨?_, rfl⟩
    intro e he heq
    have hne := lookup_eq_none_iff.mp hnone e he
    simp [heq] at hne
  rename_i s hsome
  right
  obtain ⟨l₁, l₂, hsplit, hbefore⟩ := lookup_eq_some_iff.mp hsome
  have hrest : ∀ e ∈ l₁ ++ l₂, e.1 ≠ streamID := by
    intro e he heq
    rw [hsplit] at hkeys
    simp only [map_append, map_cons, nodup_append, nodup_cons] at hkeys
    rcases mem_append.mp he with hl | hl
    · have hne := hbefore e hl
      simp [heq] at hne
    · exact hkeys.2.1.1 (mem_map.mpr ⟨e, hl, heq⟩)
  refine ⟨l₁, s, l₂, hsplit, hrest, ?_⟩
  have hfilter : r.streams.filter (·.1 ≠ streamID) = l₁ ++ l₂ := by
    have hself : (l₁ ++ l₂).filter (·.1 ≠ streamID) = l₁ ++ l₂ := by
      rw [filter_eq_self]
      intro e he
      simpa using hrest e he
    rw [hsplit, filter_append, filter_cons_of_neg (by simp), ← filter_append, hself]
  rw [hfilter]

/-! ## The ids -/

/-- Ids are handed out in order. -/
def Numbered (r : Registry Peer) : Prop :=
  r.nextID = UInt64.ofNat r.issued.length ∧
    r.issued = (List.range r.issued.length).map UInt64.ofNat

omit [DecidableEq Peer] in
/-- No id has been handed out. -/
theorem numbered_start : Numbered (Registry.start : Registry Peer) := ⟨rfl, rfl⟩

/-- A step hands out the next id or none. -/
theorem numbered_step (hr : Numbered r) (h : step peerOf r a = some t) : Numbered t := by
  obtain ⟨hnext, hissued⟩ := hr
  cases effect_of_step h with
  | registered s ht =>
    subst ht
    constructor
    · simp [register, hnext]
    · simp only [register, length_append, length_singleton, range_succ,
        map_append, map_cons, map_nil]
      rw [← hissued, hnext]
  | deregistered streamID m _ _ _ _ hn hi ht =>
    subst ht
    unfold Numbered
    simp only [deregister_nextID, deregister_issued, hn, hi]
    exact ⟨hnext, hissued⟩
  | other _ _ _ _ hn hi =>
    unfold Numbered
    simp only [hn, hi]
    exact ⟨hnext, hissued⟩

/-- A registration hands out one id, every other step none. -/
theorem issued_length_step (h : step peerOf r a = some t) :
    t.issued.length = r.issued.length + [a].countP Op.isRegister := by
  cases effect_of_step h with
  | registered s ht =>
    subst ht
    simp [register, Op.isRegister]
  | deregistered streamID m ha _ _ _ _ hi ht =>
    subst ht
    simp [hi, ha]
  | other ha _ _ _ _ hi => simp [hi, ha]

variable {actions : List Op}

/-- As many ids are handed out as streams are registered. -/
theorem issued_length (h : run (step peerOf) r actions = some t) :
    t.issued.length = r.issued.length + actions.countP Op.isRegister := by
  induction actions generalizing r with
  | nil =>
    cases h
    simp
  | cons a rest ih =>
    obtain ⟨m, hm, hrest⟩ := run_cons.mp h
    have hcons : ([a] ++ rest).countP Op.isRegister =
        [a].countP Op.isRegister + rest.countP Op.isRegister := countP_append
    rw [singleton_append] at hcons
    rw [ih hrest, issued_length_step hm, hcons, Nat.add_assoc]

omit [DecidableEq Peer] in
/-- Before the counter wraps, no id is handed out twice. -/
theorem Numbered.issued_nodup (hr : Numbered r) (hlt : r.issued.length < UInt64.size) :
    r.issued.Nodup := by
  rw [hr.2]
  refine List.Nodup.map_on ?_ nodup_range
  intro x hx y hy heq
  have hx := mem_range.mp hx
  have hy := mem_range.mp hy
  have hnat := congrArg UInt64.toNat heq
  rwa [UInt64.toNat_ofNat_of_lt' (by omega), UInt64.toNat_ofNat_of_lt' (by omega)] at hnat

omit [DecidableEq Peer] in
/-- Before the counter wraps, the next id is new. -/
theorem Numbered.nextID_not_mem (hr : Numbered r) (hlt : r.issued.length < UInt64.size) :
    r.nextID ∉ r.issued := by
  intro hmem
  rw [hr.1, hr.2] at hmem
  obtain ⟨x, hx, heq⟩ := mem_map.mp hmem
  have hx := mem_range.mp hx
  have hnat := congrArg UInt64.toNat heq
  rw [UInt64.toNat_ofNat_of_lt' (by omega), length_map, length_range,
    UInt64.toNat_ofNat_of_lt' (by omega)] at hnat
  omega

/-! ## The counters and the tags -/

/-- What the maps of a registry say about each other. -/
structure Consistent (peerOf : StreamRef → Peer) (r : Registry Peer) : Prop where
  keys : (r.streams.map Prod.fst).Nodup
  known : ∀ e ∈ r.streams, e.1 ∈ r.issued
  conns_eq : ∀ p, r.conns p = if count peerOf r p = 0 then none else some (count peerOf r p : Int)
  tagged_iff : ∀ p, r.tagged p = true ↔ 0 < count peerOf r p

/-- The empty registry is consistent. -/
theorem consistent_start : Consistent peerOf (Registry.start : Registry Peer) where
  keys := nodup_nil
  known := by simp [Registry.start]
  conns_eq _ := rfl
  tagged_iff := by simp [Registry.start, count]

/-- Consistency concerns the maps and the ids alone. -/
theorem Consistent.congr (hr : Consistent peerOf r) (hstreams : t.streams = r.streams)
    (hconns : t.conns = r.conns) (htagged : t.tagged = r.tagged) (hissued : t.issued = r.issued) :
    Consistent peerOf t where
  keys := by rw [hstreams]; exact hr.keys
  known := by rw [hstreams, hissued]; exact hr.known
  conns_eq p := by rw [hconns, hr.conns_eq]; unfold count; rw [hstreams]
  tagged_iff p := by rw [htagged, hr.tagged_iff]; unfold count; rw [hstreams]

/-- An absent counter counts as zero. -/
theorem Consistent.getD_conns (hr : Consistent peerOf r) (p : Peer) :
    (r.conns p).getD 0 = count peerOf r p := by
  rw [hr.conns_eq]
  split <;> simp [*]

/-- A registration counts for the peer of its stream. -/
theorem count_register (peerOf : StreamRef → Peer) (s : StreamRef) (p : Peer)
    (hnew : ∀ e ∈ r.streams, e.1 ≠ r.nextID) :
    count peerOf (register peerOf s r) p = count peerOf r p + if peerOf s = p then 1 else 0 := by
  have hself : r.streams.filter (·.1 ≠ r.nextID) = r.streams := by
    rw [filter_eq_self]
    intro e he
    simpa using hnew e he
  simp only [count, register, hself, countP_cons]
  simp

/-- `Register` keeps the maps consistent if the id is new. -/
theorem Consistent.register (hr : Consistent peerOf r) (hnew : r.nextID ∉ r.issued)
    (s : StreamRef) : Consistent peerOf (register peerOf s r) := by
  have hfresh : ∀ e ∈ r.streams, e.1 ≠ r.nextID := by
    intro e he heq
    exact hnew (heq ▸ hr.known e he)
  have hcount := fun p => count_register peerOf s p hfresh
  constructor
  case keys =>
    simp only [StreamRegistry.register, map_cons, nodup_cons]
    constructor
    · simp
    · exact (filter_sublist.map Prod.fst).nodup hr.keys
  case known =>
    intro e he
    rcases mem_cons.mp he with rfl | he
    · simp [StreamRegistry.register]
    · simp only [StreamRegistry.register, mem_append]
      exact .inl (hr.known e (mem_filter.mp he).1)
  case conns_eq =>
    intro p
    rw [hcount]
    by_cases hp : peerOf s = p
    · subst hp
      simp [StreamRegistry.register, hr.getD_conns]
    · have hp' : p ≠ peerOf s := fun h => hp h.symm
      simp [StreamRegistry.register, hp, update_of_ne hp', hr.conns_eq p]
  case tagged_iff =>
    intro p
    rw [hcount]
    by_cases hp : peerOf s = p
    · subst hp
      simp [StreamRegistry.register]
    · have hp' : p ≠ peerOf s := fun h => hp h.symm
      simp [StreamRegistry.register, hp, update_of_ne hp', hr.tagged_iff p]

/-- The counter of a peer with one stream less, which is deleted at zero. -/
theorem counter_removed (n : Nat) :
    (if ((n + 1 : Nat) : Int) - 1 < 1 then none else some (((n + 1 : Nat) : Int) - 1)) =
      if n = 0 then none else some (n : Int) := by
  cases n with
  | zero => rfl
  | succ n =>
    rw [if_neg (by omega), if_neg (by omega)]
    congr 1
    omega

/-- `Deregister` keeps the maps consistent. -/
theorem Consistent.deregister (hr : Consistent peerOf r) (streamID : UInt64) :
    Consistent peerOf (deregister peerOf streamID r) := by
  rcases deregister_cases peerOf streamID r hr.keys with
    ⟨_, heq⟩ | ⟨l₁, s, l₂, hsplit, _, heq⟩
  · rwa [heq]
  have hsub : (l₁ ++ l₂).Sublist r.streams := by
    rw [hsplit]
    exact List.Sublist.append_left (sublist_cons_self _ _) _
  have hcount : ∀ p, count peerOf r p =
      count peerOf (StreamRegistry.deregister peerOf streamID r) p +
        if peerOf s = p then 1 else 0 := by
    intro p
    rw [heq]
    simp only [count, hsplit, countP_append, countP_cons, decide_eq_true_eq]
    omega
  have hgetD := hr.getD_conns (peerOf s)
  rw [hcount, if_pos rfl] at hgetD
  constructor
  case keys =>
    rw [heq]
    exact (hsub.map Prod.fst).nodup hr.keys
  case known =>
    rw [heq]
    intro e he
    exact hr.known e (hsub.subset he)
  case conns_eq =>
    intro p
    by_cases hp : peerOf s = p
    · subst hp
      rw [← counter_removed, ← hgetD, heq]
      exact update_self ..
    · have hp' : p ≠ peerOf s := fun h => hp h.symm
      have hold := hr.conns_eq p
      rw [hcount, if_neg hp, Nat.add_zero] at hold
      rw [← hold, heq]
      exact update_of_ne hp' ..
  case tagged_iff =>
    intro p
    have hold := hr.tagged_iff p
    rw [hcount] at hold
    generalize count peerOf (StreamRegistry.deregister peerOf streamID r) = n at hgetD hold ⊢
    rw [heq]
    simp only [hgetD]
    by_cases hp : peerOf s = p
    · subst hp
      rw [if_pos rfl] at hold
      split
      · constructor
        · simp
        · omega
      · rw [hold]
        omega
    · have hp' : p ≠ peerOf s := fun h => hp h.symm
      rw [if_neg hp, Nat.add_zero] at hold
      split
      · rw [update_of_ne hp', hold]
      · exact hold

/-- What every step keeps: the numbering, and the maps before the counter wraps. -/
def Inv (peerOf : StreamRef → Peer) (r : Registry Peer) : Prop :=
  Numbered r ∧ (r.issued.length ≤ UInt64.size → Consistent peerOf r)

/-- **Every step keeps the invariant.** -/
theorem inv_step (hr : Inv peerOf r) (h : step peerOf r a = some t) : Inv peerOf t := by
  refine ⟨numbered_step hr.1 h, ?_⟩
  intro hle
  have hlen := issued_length_step h
  have hcon := hr.2 (by omega)
  cases effect_of_step h with
  | registered s ht =>
    subst ht
    have hone : [Op.register s].countP Op.isRegister = 1 := rfl
    exact hcon.register (hr.1.nextID_not_mem (by omega)) s
  | deregistered streamID m _ hs hc ht hn hi heq =>
    subst heq
    exact (hcon.congr hs hc ht hi).deregister streamID
  | other _ hs hc ht hn hi => exact hcon.congr hs hc ht hi

/-- The invariant holds after every schedule. -/
theorem inv_run (h : run (step peerOf) Registry.start actions = some r) : Inv peerOf r :=
  run_invariant (Inv peerOf) (fun _ _ _ hr h => inv_step hr h)
    ⟨numbered_start, fun _ => consistent_start⟩ h

/-! ## A stream is deregistered once -/

/-- The id has been handed out and is not registered. -/
def Gone (streamID : UInt64) (r : Registry Peer) : Prop :=
  streamID ∈ r.issued ∧ ∀ e ∈ r.streams, e.1 ≠ streamID

variable {streamID : UInt64}

/-- A deregistered id is gone. -/
theorem gone_deregister (hr : Consistent peerOf r) (h : streamID ∈ r.issued) :
    Gone streamID (deregister peerOf streamID r) := by
  refine ⟨by simpa using h, ?_⟩
  rcases deregister_cases peerOf streamID r hr.keys with
    ⟨hnone, heq⟩ | ⟨l₁, s, l₂, _, hrest, heq⟩
  · rwa [heq]
  · rw [heq]
    exact hrest

/-- No step brings an id back. -/
theorem gone_step (hr : Inv peerOf r) (hgone : Gone streamID r) (h : step peerOf r a = some t)
    (hle : t.issued.length ≤ UInt64.size) : Gone streamID t := by
  obtain ⟨hmem, hnone⟩ := hgone
  have hlen := issued_length_step h
  have hcon := hr.2 (by omega)
  cases effect_of_step h with
  | registered s ht =>
    subst ht
    have hone : [Op.register s].countP Op.isRegister = 1 := rfl
    have hnew := hr.1.nextID_not_mem (by omega)
    refine ⟨mem_append_left _ hmem, ?_⟩
    intro e he
    rcases mem_cons.mp he with rfl | he
    · intro heq
      have heq : r.nextID = streamID := heq
      exact hnew (heq ▸ hmem)
    · exact hnone e (mem_filter.mp he).1
  | deregistered k m _ hs hc ht hn hi heq =>
    subst heq
    refine ⟨by simpa [hi] using hmem, ?_⟩
    have hkeys : (m.streams.map Prod.fst).Nodup := by
      rw [hs]
      exact hcon.keys
    rcases deregister_cases peerOf k m hkeys with
      ⟨_, heq⟩ | ⟨l₁, s, l₂, hsplit, _, heq⟩
    · rw [heq, hs]
      exact hnone
    · rw [heq]
      intro e he
      apply hnone e
      rw [← hs, hsplit]
      exact (List.Sublist.append_left (sublist_cons_self _ _) _).subset he
  | other _ hs hc ht hn hi =>
    refine ⟨by rwa [hi], ?_⟩
    rwa [hs]

/-- No schedule brings an id back. -/
theorem gone_run (hr : Inv peerOf r) (hgone : Gone streamID r)
    (h : run (step peerOf) r actions = some t) (hle : t.issued.length ≤ UInt64.size) :
    Gone streamID t := by
  induction actions generalizing r with
  | nil =>
    cases h
    exact hgone
  | cons a rest ih =>
    obtain ⟨m, hm, hrest⟩ := run_cons.mp h
    have hlen := issued_length hrest
    exact ih (inv_step hr hm) (gone_step hr hgone hm (by omega)) hrest

/-- Deregistering an id that is gone changes nothing. -/
theorem deregister_of_gone (hgone : Gone streamID r) : deregister peerOf streamID r = r := by
  have hnone : r.streams.lookup streamID = none := by
    apply lookup_eq_none_iff.mpr
    intro e he
    have hne := hgone.2 e he
    simpa using hne.symm
  simp [deregister, hnone]

/-- A deregistered id stays gone. -/
theorem gone_of_deregister (hr : Inv peerOf r) (hmem : streamID ∈ r.issued)
    (h : run (step peerOf) (deregister peerOf streamID r) actions = some t)
    (hle : t.issued.length ≤ UInt64.size) : Gone streamID t := by
  have hlen := issued_length h
  rw [deregister_issued] at hlen
  have hone : step peerOf r (.deregister streamID) = some (deregister peerOf streamID r) := rfl
  exact gone_run (inv_step hr hone) (gone_deregister (hr.2 (by omega)) hmem) h hle

/-- **The registry stays consistent.**  After every schedule with fewer than 2⁶⁴
registrations the counters and the tags say which peers have registered streams,
the ids are distinct, and once a stream has been deregistered, its id is never
registered again, and deregistering it again, however much later, changes nothing. -/
theorem registry_consistent {actions : List Op}
    (h : run (step peerOf) Registry.start actions = some r)
    (hlt : actions.countP Op.isRegister < UInt64.size) :
    (∀ p, r.conns p = if count peerOf r p = 0 then none else some (count peerOf r p : Int)) ∧
    (∀ p, r.tagged p = true ↔ 0 < count peerOf r p) ∧
    r.issued.Nodup ∧ r.issued.length = actions.countP Op.isRegister ∧
    ∀ streamID ∈ r.issued, ∀ later t,
      run (step peerOf) (deregister peerOf streamID r) later = some t →
      (actions ++ later).countP Op.isRegister < UInt64.size →
      (∀ e ∈ t.streams, e.1 ≠ streamID) ∧ deregister peerOf streamID t = t := by
  have hinv := inv_run h
  have hlen : r.issued.length = actions.countP Op.isRegister := by
    simpa [Registry.start] using issued_length h
  have hcon := hinv.2 (by omega)
  refine ⟨hcon.conns_eq, hcon.tagged_iff, hinv.1.issued_nodup (by omega), hlen, ?_⟩
  intro streamID hmem later t ht hlater
  have hlen' := issued_length ht
  rw [deregister_issued] at hlen'
  rw [countP_append] at hlater
  have hgone := gone_of_deregister hinv hmem ht (by omega)
  exact ⟨hgone.2, deregister_of_gone hgone⟩

/-- Two streams of one peer, the first closed by both of its goroutines. -/
def closedTwice : List Op :=
  [.register 0, .register 1, .close 0, .close 0, .finish 1, .finish 0]

/-- The registry after `closedTwice`. -/
def afterClosedTwice : Registry Nat := (run (step (· / 2)) .start closedTwice).getD .start

/-- The second stream keeps its peer tagged. -/
theorem registry_consistent_closedTwice :
    afterClosedTwice.conns 0 = some 1 ∧ afterClosedTwice.tagged 0 = true ∧
      afterClosedTwice.tagged 1 = false ∧
      deregister (· / 2) 0 afterClosedTwice = afterClosedTwice := by
  have hrun : run (step (· / 2)) .start closedTwice = some afterClosedTwice := rfl
  obtain ⟨hconns, htagged, _, _, hagain⟩ := registry_consistent hrun (by decide)
  have hzero : count (· / 2) afterClosedTwice 0 = 1 := by decide
  have hone : count (· / 2) afterClosedTwice 1 = 0 := by decide
  refine ⟨?_, ?_, ?_, ?_⟩
  · rfl
  · rw [htagged, hzero]
    exact Nat.one_pos
  · rw [← Bool.not_eq_true, htagged, hone]
    exact Nat.lt_irrefl 0
  · exact (hagain 0 (by decide) [] afterClosedTwice (by rfl) (by decide)).2

end StreamRegistry
