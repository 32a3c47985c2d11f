import GoIpfs.Effects
import GoIpfs.GraphWalk
import GoIpfs.StepRun
import Mathlib.Data.Finset.Lattice.Lemmas

/-!
# The core API calls that pin

`PinAPI.Add` pins through `Pinner.Pin`, which fetches the whole DAG before it
records a recursive pin.  `BlockAPI.Put`, `ObjectAPI.Put` and the DAG API's
pinning adder store their blocks and then call `Pinner.PinWithMode`, which
records the pin and looks at nothing.

A state is `Complete` when all blocks below its recursive pins are stored.
`Pinner.Pin` keeps it so; a call that goes through `PinWithMode` does exactly
when its blocks bring, or find, everything below them.
-/

namespace CoreApi

open Effects GraphWalk LinkReach StepRun Finset

variable {Cid Data Prefix : Type} [DecidableEq Cid]

/-- The blockstore, the pin sets, and the number of service calls so far. -/
structure Repo (Cid : Type) where
  store : Finset Cid
  recursive : Finset Cid
  direct : Finset Cid
  calls : Nat

structure Env (Cid Data Prefix : Type) where
  links : Cid → List Cid
  /-- The calls of the block service, the pinner's datastore and the provider
  that fail. -/
  fault : Nat → Option String
  sum : Prefix → Data → Except String Cid
  /-- Reading an object as JSON and `deserializeNode` with its data encoding. -/
  decodeJson : Data → String → Except String Cid
  decodeXml : Data → String → Except String Cid
  decodeProtobuf : Data → Except String Cid
  cidString : Cid → String

abbrev ApiM (Cid α : Type) := Prog String (Repo Cid) α

/-- A call of a service, which may fail. -/
def serviceCall (env : Env Cid Data Prefix) : ApiM Cid Unit := do
  let s ← get
  modify fun s => { s with calls := s.calls + 1 }
  match env.fault s.calls with
  | some msg => throw msg
  | none => pure ()

/-- `AddBlock`, `dag.Add` and `dag.AddMany`. -/
def addBlocks (env : Env Cid Data Prefix) (blocks : List Cid) : ApiM Cid Unit := do
  serviceCall env
  modify fun s => { s with store := s.store ∪ blocks.toFinset }

/-- `Pinner.PinWithMode` with `Recursive`. -/
def pinWithMode (c : Cid) : ApiM Cid Unit :=
  modify fun s => { s with recursive := insert c s.recursive }

/-- `Pinner.Flush`. -/
def flush (env : Env Cid Data Prefix) : ApiM Cid Unit := do
  serviceCall env
  serviceCall env

/-- The common end of the calls below: store a node and pin it if that is asked
for. -/
def storeAndPin (env : Env Cid Data Prefix) (c : Cid) (pin : Bool) : ApiM Cid Unit := do
  addBlocks env [c]
  if pin then
    pinWithMode c
    flush env
  else pure ()

/-- `BlockPutSettings` with the CID prefix that `BlockPutOptions` returns. -/
structure BlockPutSettings (Prefix : Type) where
  pref : Prefix
  pin : Bool

/-- `BlockAPI.Put`.  `src` is what reading the input gives. -/
def blockPut (env : Env Cid Data Prefix)
    (opts : Except String (BlockPutSettings Prefix)) (src : Except String Data) :
    ApiM Cid Unit := do
  let settings ← ofResult opts
  let data ← ofResult src
  let bcid ← ofResult (env.sum settings.pref data)
  storeAndPin env bcid settings.pin

structure ObjectPutSettings where
  inputEnc : String
  dataType : String
  pin : Bool

/-- The switch of `ObjectAPI.Put` over the input encoding. -/
def decodeObject (env : Env Cid Data Prefix) (options : ObjectPutSettings)
    (data : Data) : Except String Cid :=
  if options.inputEnc = "json" then env.decodeJson data options.dataType
  else if options.inputEnc = "protobuf" then env.decodeProtobuf data
  else if options.inputEnc = "xml" then env.decodeXml data options.dataType
  else .error "unknown object encoding"

/-- `ObjectAPI.Put`. -/
def objectPut (env : Env Cid Data Prefix)
    (opts : Except String ObjectPutSettings) (src : Except String Data) :
    ApiM Cid Unit := do
  let options ← ofResult opts
  let data ← ofResult src
  let dagnode ← ofResult (decodeObject env options data)
  storeAndPin env dagnode options.pin

/-- `pinningAdder.Add`. -/
def add (env : Env Cid Data Prefix) (nd : Cid) : ApiM Cid Unit :=
  storeAndPin env nd true

/-- The loop of `pinningAdder.AddMany`; `cids` is the set it has visited. -/
def pinEach : List Cid → Finset Cid → ApiM Cid Unit
  | [], _ => pure ()
  | c :: rest, cids =>
    if c ∈ cids then pinEach rest cids
    else do
      pinWithMode c
      pinEach rest (insert c cids)

/-- `pinningAdder.AddMany`. -/
def addMany (env : Env Cid Data Prefix) (nds : List Cid) : ApiM Cid Unit := do
  addBlocks env nds
  pinEach nds ∅
  flush env

/-- What a worker of `FetchGraph` does next. -/
inductive FetchStep (Cid : Type) where
  | visit (c : Cid)
  /-- Read the links of `c`; `arrives` says whether the exchange delivers the
  block when it is not stored. -/
  | fetch (c : Cid) (arrives : Bool)

/-- `merkledag.FetchGraph`: a concurrent walk that fetches every node it visits.
The list is the interleaving of its workers; one that does not fit the walk, or
ends before it, is no run that returns. -/
def fetchGraph (env : Env Cid Data Prefix) :
    List (FetchStep Cid) → Walk Cid → Finset Cid → ApiM Cid Unit
  | [], w, _ => if w.Finished then pure () else throw "context canceled"
  | .visit c :: rest, w, seen =>
    if c ∈ w.queue then fetchGraph env rest (w.visit seen c).1 (w.visit seen c).2
    else throw "context canceled"
  | .fetch c arrives :: rest, w, seen => do
      if c ∈ w.active then
        if c ∈ (← get).store ∨ arrives = true then
          modify fun s => { s with store := insert c s.store }
          fetchGraph env rest (w.expand c (env.links c)) seen
        else throw "merkledag: not found"
      else throw "context canceled"

/-- `Pinner.Pin`. -/
def pinnerPin (env : Env Cid Data Prefix) (node : Cid) (recurse : Bool)
    (workers : List (FetchStep Cid)) : ApiM Cid Unit := do
  addBlocks env [node]
  if recurse then
    if node ∈ (← get).recursive then pure ()
    else
      fetchGraph env workers (Walk.start node) ∅
      serviceCall env
      modify fun s => { s with direct := s.direct.erase node }
      serviceCall env
      modify fun s => { s with recursive := insert node s.recursive }
      serviceCall env
  else
    if node ∈ (← get).recursive then
      throw (env.cidString node ++ " already pinned recursively")
    else
      serviceCall env
      modify fun s => { s with direct := insert node s.direct }
      serviceCall env

/-- An error is passed on with the text `pin: ` before it. -/
def wrapPin {α : Type} (m : ApiM Cid α) : ApiM Cid α :=
  ExceptT.mk fun s => ((exec m s).1.mapError ("pin: " ++ ·), (exec m s).2)

/-- `PinAPI.Add`.  Resolving the path gives a node, and stores the blocks
`touched` that had to be fetched on the way. -/
def pinAdd (env : Env Cid Data Prefix) (path : Except String Cid) (touched : List Cid)
    (opts : Except String Bool) (workers : List (FetchStep Cid)) : ApiM Cid Unit := do
  modify fun s => { s with store := s.store ∪ touched.toFinset }
  let dagNode ← wrapPin (ofResult path)
  let recursive ← ofResult opts
  wrapPin (pinnerPin env dagNode recursive workers)
  serviceCall env
  flush env

inductive Call (Cid Data Prefix : Type) where
  | pinAdd (path : Except String Cid) (touched : List Cid) (opts : Except String Bool)
      (workers : List (FetchStep Cid))
  | blockPut (opts : Except String (BlockPutSettings Prefix)) (src : Except String Data)
  | objectPut (opts : Except String ObjectPutSettings) (src : Except String Data)
  | add (nd : Cid)
  | addMany (nds : List Cid)

def perform (env : Env Cid Data Prefix) : Call Cid Data Prefix → ApiM Cid Unit
  | .pinAdd path touched opts workers => pinAdd env path touched opts workers
  | .blockPut opts src => blockPut env opts src
  | .objectPut opts src => objectPut env opts src
  | .add nd => add env nd
  | .addMany nds => addMany env nds

/-- A call that returns nil. -/
def step (env : Env Cid Data Prefix) (s : Repo Cid) (call : Call Cid Data Prefix) :
    Option (Repo Cid) :=
  match exec (perform env call) s with
  | (.ok _, t) => some t
  | (.error _, _) => none

/-- Every block reachable from a recursive pin is in the local store. -/
def Complete (links : Cid → List Cid) (s : Repo Cid) : Prop :=
  ∀ p ∈ s.recursive, ∀ k, Reach links p k → k ∈ s.store

/-- Node `n + 1` links to node `n`; data are node numbers. -/
def chainEnv : Env Nat Nat Unit where
  links := fun n => if n = 0 then [] else [n - 1]
  fault := fun _ => none
  sum := fun _ data => .ok data
  decodeJson := fun data _ => .ok data
  decodeXml := fun data _ => .ok data
  decodeProtobuf := fun data => .ok data
  cidString := fun _ => "node"

def emptyRepo : Repo Nat := ⟨∅, ∅, ∅, 0⟩

variable {links : Cid → List Cid}

variable {s u : Repo Cid}

omit [DecidableEq Cid] in
theorem complete_of_no_pins (h : s.recursive = ∅) : Complete links s := by
  intro p hp
  rw [h] at hp
  exact absurd hp (notMem_empty p)

/-- **A put can break the pins.**  `BlockAPI.Put` with `Pin` stores and pins
block 1, which links to the absent block 0, and returns nil. -/
theorem blockPut_incomplete :
    Complete chainEnv.links emptyRepo ∧
      ∃ t, run (step chainEnv) emptyRepo [.blockPut (.ok ⟨(), true⟩) (.ok 1)] = some t ∧
        ¬ Complete chainEnv.links t := by
  refine ⟨complete_of_no_pins rfl, ?_⟩
  have hany : (run (step chainEnv) emptyRepo [.blockPut (.ok ⟨(), true⟩) (.ok 1)]).any
      (fun t => decide (1 ∈ t.recursive ∧ 0 ∉ t.store)) = true := by decide
  obtain ⟨t, ht, hp⟩ := exists_run_of_any hany
  obtain ⟨hpin, hgone⟩ : 1 ∈ t.recursive ∧ 0 ∉ t.store := of_decide_eq_true hp
  exact ⟨t, ht, fun h => hgone (h 1 hpin 0 (Reach.of_link (by decide)))⟩

variable {blocks pins : Finset Cid} {t : Repo Cid}

section Effects

variable {env : Env Cid Data Prefix} {s : Repo Cid}

/-- The call adds these blocks and these recursive pins. -/
def Adds (blocks pins : Finset Cid) (s t : Repo Cid) : Prop :=
  t.store = s.store ∪ blocks ∧ t.recursive = s.recursive ∪ pins

theorem Adds.refl (s : Repo Cid) : Adds ∅ ∅ s s :=
  ⟨(union_empty _).symm, (union_empty _).symm⟩

theorem Adds.trans {blocks' pins' : Finset Cid} (hst : Adds blocks pins s t)
    (htu : Adds blocks' pins' t u) : Adds (blocks ∪ blocks') (pins ∪ pins') s u := by
  refine ⟨?_, ?_⟩
  · rw [htu.1, hst.1, union_assoc]
  · rw [htu.2, hst.2, union_assoc]

theorem Adds.after (hst : Adds ∅ ∅ s t) (htu : Adds blocks pins t u) : Adds blocks pins s u := by
  simpa using hst.trans htu

theorem Adds.before (hst : Adds blocks pins s t) (htu : Adds ∅ ∅ t u) : Adds blocks pins s u := by
  simpa using hst.trans htu

/-- The state after an error is of no interest here. -/
def Anything (_ : Repo Cid) : Prop := True

section

variable (env : Env Cid Data Prefix) (s : Repo Cid)

theorem serviceCall_wp : Wp Anything (serviceCall env) (fun _ t => Adds ∅ ∅ s t) s := by
  unfold serviceCall
  rw [wp_bind, wp_get, wp_bind, wp_modify]
  split
  · exact wp_throw.mpr True.intro
  · exact wp_pure.mpr (Adds.refl s)

theorem flush_wp : Wp Anything (flush env) (fun _ t => Adds ∅ ∅ s t) s := by
  refine (serviceCall_wp env s).bind ?_
  intro _ t hst
  exact (serviceCall_wp env t).mono fun _ u htu => hst.after htu

theorem addBlocks_wp (blocks : List Cid) :
    Wp Anything (addBlocks env blocks) (fun _ t => Adds blocks.toFinset ∅ s t) s := by
  refine (serviceCall_wp env s).bind ?_
  intro _ t hst
  exact wp_modify.mpr (hst.after ⟨rfl, (union_empty _).symm⟩)

end

theorem pinWithMode_wp (s : Repo Cid) (c : Cid) :
    Wp Anything (pinWithMode c) (fun _ t => Adds ∅ {c} s t) s := by
  refine wp_modify.mpr ⟨(union_empty _).symm, ?_⟩
  rw [union_comm]
  exact insert_eq c s.recursive

variable (env : Env Cid Data Prefix)

theorem storeAndPin_wp (s : Repo Cid) (c : Cid) (pin : Bool) :
    Wp Anything (storeAndPin env c pin)
      (fun _ t => Adds {c} (if pin then {c} else ∅) s t) s := by
  refine (addBlocks_wp env s [c]).bind ?_
  intro _ t hst
  cases pin with
  | false => exact wp_pure.mpr hst
  | true =>
    refine (pinWithMode_wp t c).bind ?_
    intro _ u htu
    refine (flush_wp env u).mono ?_
    intro _ v huv
    simpa using (hst.trans htu).before huv

theorem pinEach_wp (nds : List Cid) (cids : Finset Cid) (s : Repo Cid)
    (hcids : cids ⊆ s.recursive) :
    Wp Anything (pinEach nds cids) (fun _ t => Adds ∅ nds.toFinset s t) s := by
  induction nds generalizing cids s with
  | nil => exact wp_pure.mpr (Adds.refl s)
  | cons c rest ih =>
    unfold pinEach
    split
    · rename_i hc
      refine (ih cids s hcids).mono ?_
      intro _ t hst
      refine ⟨hst.1, ?_⟩
      rw [hst.2, List.toFinset_cons, union_insert, insert_eq_self.mpr]
      exact mem_union_left _ (hcids hc)
    · refine (pinWithMode_wp s c).bind ?_
      intro _ t hst
      have hsub : insert c cids ⊆ t.recursive := by
        rw [hst.2, union_comm, ← insert_eq]
        exact insert_subset_insert c hcids
      refine (ih (insert c cids) t hsub).mono ?_
      intro _ u htu
      have hall := hst.trans htu
      simpa using hall

theorem addMany_wp (s : Repo Cid) (nds : List Cid) :
    Wp Anything (addMany env nds) (fun _ t => Adds nds.toFinset nds.toFinset s t) s := by
  refine (addBlocks_wp env s nds).bind ?_
  intro _ t hst
  refine (pinEach_wp nds ∅ t (empty_subset _)).bind ?_
  intro _ u htu
  refine (flush_wp env u).mono ?_
  intro _ v huv
  simpa using (hst.trans htu).before huv

/-- **A fetch that returns has stored the DAG.**  A seen node is being fetched
or stored, so the closed set that the walk ends with is stored. -/
theorem fetchGraph_wp (root : Cid) (workers : List (FetchStep Cid)) (w : Walk Cid)
    (seen : Finset Cid) (s : Repo Cid) (hroot : Held w seen root) (hcov : Covers env.links w seen)
    (hstored : ∀ a ∈ seen, a ∈ w.active ∨ a ∈ s.store) :
    Wp Anything (fetchGraph env workers w seen)
      (fun _ t => s.store ⊆ t.store ∧ t.recursive = s.recursive ∧
        ∀ k, Reach env.links root k → k ∈ t.store) s := by
  induction workers generalizing w seen s with
  | nil =>
    unfold fetchGraph
    split
    · rename_i hfin
      refine wp_pure.mpr ⟨Finset.Subset.refl _, rfl, ?_⟩
      intro k hk
      have hseen : k ∈ (↑seen : Set Cid) :=
        hk.mem_of_closed (closed_of_finished hfin hcov) (mem_of_finished hfin hroot)
      rcases hstored k hseen with hactive | hk
      · simp [hfin.2] at hactive
      · exact hk
    · exact wp_throw.mpr True.intro
  | cons st rest ih =>
    cases st with
    | visit c =>
      unfold fetchGraph
      split
      · refine ih _ _ s (held_visit c hroot) (covers_visit c hcov) ?_
        intro a ha
        by_cases hc : c ∈ seen
        · simp only [Walk.visit, hc, if_true] at ha ⊢
          exact hstored a ha
        · simp only [Walk.visit, hc, if_false, mem_insert] at ha ⊢
          rcases ha with rfl | ha
          · exact .inl List.mem_cons_self
          · exact (hstored a ha).imp_left (List.mem_cons_of_mem c)
      · exact wp_throw.mpr True.intro
    | fetch c arrives =>
      unfold fetchGraph
      split
      · rw [wp_bind, wp_get]
        split
        · rw [wp_bind, wp_modify]
          refine (ih _ seen _ (held_expand c _ hroot)
            (covers_expand c (fun _ hb => hb) hcov) ?_).mono ?_
          · intro a ha
            by_cases hac : a = c
            · exact .inr (hac ▸ mem_insert_self c s.store)
            · exact (hstored a ha).imp (List.mem_erase_of_ne hac).mpr mem_insert_of_mem
          · intro _ t ht
            exact ⟨(subset_insert c s.store).trans ht.1, ht.2⟩
        · exact wp_throw.mpr True.intro
      · exact wp_throw.mpr True.intro

omit [DecidableEq Cid] in
theorem wrapPin_wp {α : Type} {m : ApiM Cid α} {Q : α → Repo Cid → Prop}
    (h : Wp Anything m Q s) : Wp Anything (wrapPin m) Q s := by
  have hexec : exec (wrapPin m) s =
      ((exec m s).1.mapError ("pin: " ++ ·), (exec m s).2) := rfl
  refine wp_of_exec ?_ (fun _ _ _ => True.intro)
  intro a t hok
  rw [hexec] at hok
  rcases hm : exec m s with ⟨r, u⟩
  rw [hm] at hok
  cases r with
  | ok b =>
    cases hok
    exact h.ok hm
  | error e => cases hok

omit [DecidableEq Cid] in
theorem Complete.grow (h : Complete links s) (hstore : s.store ⊆ t.store)
    (hpins : t.recursive = s.recursive) : Complete links t := by
  intro p hp k hk
  rw [hpins] at hp
  exact hstore (h p hp k hk)

theorem Complete.adds (h : Complete links s) (hst : Adds blocks ∅ s t) : Complete links t := by
  refine h.grow ?_ ?_
  · rw [hst.1]
    exact subset_union_left
  · rw [hst.2, union_empty]

/-- **`Pinner.Pin` keeps the pins complete.** -/
theorem pinnerPin_complete (node : Cid) (recurse : Bool) (workers : List (FetchStep Cid))
    (h : Complete env.links s) :
    Wp Anything (pinnerPin env node recurse workers)
      (fun _ t => Complete env.links t) s := by
  refine (addBlocks_wp env s [node]).bind ?_
  intro _ t hst
  have ht := h.adds hst
  cases recurse with
  | true =>
    rw [if_pos rfl, wp_bind, wp_get]
    split
    · exact wp_pure.mpr ht
    refine (fetchGraph_wp env node workers (Walk.start node) ∅ t
      (held_start node) (fun a ha => absurd ha (notMem_empty a))
      (fun a ha => absurd ha (notMem_empty a))).bind ?_
    intro _ u hu
    obtain ⟨hsub, hrec, hall⟩ := hu
    have huc := ht.grow hsub hrec
    refine (serviceCall_wp env u).bind ?_
    intro _ v huv
    rw [wp_bind, wp_modify]
    refine (serviceCall_wp env _).bind ?_
    intro _ x hvx
    have hux : Adds ∅ ∅ u x := huv.after hvx
    rw [wp_bind, wp_modify]
    refine (serviceCall_wp env _).mono ?_
    intro _ y hxy
    refine Complete.adds ?_ hxy
    intro p hp k hk
    rcases mem_insert.mp hp with rfl | hp
    · have hku := hall k hk
      rw [← union_empty u.store, ← hux.1] at hku
      exact hku
    · exact (huc.adds hux) p hp k hk
  | false =>
    rw [if_neg Bool.false_ne_true, wp_bind, wp_get]
    split
    · exact wp_throw.mpr True.intro
    refine (serviceCall_wp env t).bind ?_
    intro _ u htu
    rw [wp_bind, wp_modify]
    refine (serviceCall_wp env _).mono ?_
    intro _ v huv
    exact (ht.adds htu).adds (show Adds ∅ ∅ u v from huv)

theorem pinAdd_complete (path : Except String Cid) (touched : List Cid) (opts : Except String Bool)
    (workers : List (FetchStep Cid)) (h : Complete env.links s) :
    Wp Anything (pinAdd env path touched opts workers)
      (fun _ t => Complete env.links t) s := by
  unfold pinAdd
  rw [wp_bind, wp_modify]
  refine (wrapPin_wp (ofResult_wp path True.intro)).bind ?_
  intro node t ht
  refine (ofResult_wp opts True.intro).bind ?_
  intro recursive u hu
  have huc : Complete env.links u := by
    rw [hu.2, ht.2]
    exact h.grow subset_union_left rfl
  refine (wrapPin_wp (pinnerPin_complete env node recursive workers huc)).bind ?_
  intro _ v hv
  refine (serviceCall_wp env v).bind ?_
  intro _ x hvx
  refine (flush_wp env x).mono ?_
  intro _ y hxy
  exact hv.adds (hvx.after hxy)

end Effects

/-- The node that a put with these settings pins, if it gets that far. -/
def pinnedNode (pin : Bool) : Except String Cid → List Cid
  | .ok c => if pin then [c] else []
  | .error _ => []

/-- The nodes that a call stores and pins through `PinWithMode`. -/
def Call.puts (env : Env Cid Data Prefix) : Call Cid Data Prefix → List Cid
  | .pinAdd _ _ _ _ => []
  | .blockPut (.ok settings) (.ok data) =>
    pinnedNode settings.pin (env.sum settings.pref data)
  | .objectPut (.ok options) (.ok data) =>
    pinnedNode options.pin (decodeObject env options data)
  | .add nd => [nd]
  | .addMany nds => nds
  | _ => []

/-- What lies below the nodes that the call pins unseen is stored already or
among these nodes. -/
def SelfContained (env : Env Cid Data Prefix) (s : Repo Cid) (call : Call Cid Data Prefix) : Prop :=
  ∀ c ∈ call.puts env, ∀ k, Reach env.links c k → k ∈ s.store ∨ k ∈ call.puts env

/-- A call either pins nothing unseen, or adds just the nodes that it pins. -/
def Recorded (env : Env Cid Data Prefix) (call : Call Cid Data Prefix) (s t : Repo Cid) : Prop :=
  (call.puts env = [] ∧ (Complete env.links s → Complete env.links t)) ∨
    Adds (call.puts env).toFinset (call.puts env).toFinset s t

theorem put_wp (env : Env Cid Data Prefix) (node : Except String Cid) (pin : Bool) (s : Repo Cid) :
    Wp Anything (do let c ← ofResult node; storeAndPin env c pin)
      (fun _ t => (pinnedNode pin node = [] ∧
          (Complete env.links s → Complete env.links t)) ∨
        Adds (pinnedNode pin node).toFinset (pinnedNode pin node).toFinset s t) s := by
  refine (ofResult_wp node True.intro).bind ?_
  intro c t hc
  obtain ⟨rfl, rfl⟩ := hc
  refine (storeAndPin_wp env t c pin).mono ?_
  intro _ u htu
  cases pin with
  | false => exact .inl ⟨rfl, fun h => h.adds htu⟩
  | true => exact .inr (by simpa [pinnedNode] using htu)

theorem perform_wp (env : Env Cid Data Prefix) (call : Call Cid Data Prefix)
    (s : Repo Cid) : Wp Anything (perform env call) (fun _ t => Recorded env call s t) s := by
  cases call with
  | pinAdd path touched opts workers =>
    by_cases h : Complete env.links s
    · exact (pinAdd_complete env path touched opts workers h).mono
        fun _ _ ht => .inl ⟨rfl, fun _ => ht⟩
    · exact wp_of_exec (fun _ _ _ => .inl ⟨rfl, fun hs => absurd hs h⟩) (fun _ _ _ => True.intro)
  | blockPut opts src =>
    refine (ofResult_wp opts True.intro).bind ?_
    intro settings t ht
    obtain ⟨rfl, rfl⟩ := ht
    refine (ofResult_wp src True.intro).bind ?_
    intro data u hu
    obtain ⟨rfl, rfl⟩ := hu
    exact put_wp env (env.sum settings.pref data) settings.pin u
  | objectPut opts src =>
    refine (ofResult_wp opts True.intro).bind ?_
    intro options t ht
    obtain ⟨rfl, rfl⟩ := ht
    refine (ofResult_wp src True.intro).bind ?_
    intro data u hu
    obtain ⟨rfl, rfl⟩ := hu
    exact put_wp env (decodeObject env options data) options.pin u
  | add nd =>
    refine (storeAndPin_wp env s nd true).mono ?_
    intro _ t hst
    exact .inr (by simpa [Call.puts] using hst)
  | addMany nds => exact (addMany_wp env s nds).mono fun _ _ hst => .inr hst

theorem recorded_of_step {env : Env Cid Data Prefix} {call : Call Cid Data Prefix}
    (hstep : step env s call = some t) : Recorded env call s t := by
  unfold step at hstep
  rcases hexec : exec (perform env call) s with ⟨r, u⟩
  rw [hexec] at hstep
  cases r with
  | ok a =>
    obtain rfl : u = t := Option.some.inj hstep
    exact (perform_wp env call s).ok hexec
  | error e => cases hstep

/-- **One call.**  A call keeps the pins complete exactly when it is
self-contained. -/
theorem complete_step_iff {env : Env Cid Data Prefix} (s : Repo Cid)
    (call : Call Cid Data Prefix) (t : Repo Cid) (hs : Complete env.links s)
    (hstep : step env s call = some t) :
    Complete env.links t ↔ SelfContained env s call := by
  rcases recorded_of_step hstep with ⟨hnone, hkeep⟩ | hadds
  · refine ⟨fun _ c hc => ?_, fun _ => hkeep hs⟩
    rw [hnone] at hc
    exact absurd hc List.not_mem_nil
  have hstore : ∀ k, k ∈ t.store ↔ k ∈ s.store ∨ k ∈ call.puts env := by
    intro k
    rw [hadds.1, mem_union, List.mem_toFinset]
  have hpins : ∀ p, p ∈ t.recursive ↔ p ∈ s.recursive ∨ p ∈ call.puts env := by
    intro p
    rw [hadds.2, mem_union, List.mem_toFinset]
  constructor
  · intro ht c hc k hk
    exact (hstore k).mp (ht c ((hpins c).mpr (.inr hc)) k hk)
  · intro hself p hp k hk
    refine (hstore k).mpr ?_
    rcases (hpins p).mp hp with hold | hnew
    · exact .inl (hs p hold k hk)
    · exact hself p hnew k hk

/-- **Recursive pins stay complete exactly along self-contained calls.**  From a
complete state, every state that a sequence of successful calls passes through
is complete if and only if each call finds or brings what lies below the nodes
that it pins through `PinWithMode`. -/
theorem pins_complete_iff (env : Env Cid Data Prefix) (s t : Repo Cid)
    (calls : List (Call Cid Data Prefix)) (hs : Complete env.links s)
    (hrun : run (step env) s calls = some t) :
    (∀ before after m, calls = before ++ after → run (step env) s before = some m →
      Complete env.links m) ↔ Along (step env) (SelfContained env) s calls :=
  run_invariant_iff (Complete env.links) (SelfContained env) complete_step_iff hs hrun

theorem chain_reach_le {c k : Nat} (h : Reach chainEnv.links c k) : k ≤ c := by
  induction h with
  | refl => exact Nat.le_refl c
  | @tail a b _ hlink ih =>
    by_cases ha : a = 0
    · simp [chainEnv, ha] at hlink
    · simp only [chainEnv, ha, if_false, List.mem_singleton] at hlink
      omega

/-- Block 0 first and block 1 after it leave every state complete. -/
theorem pins_complete_iff_chain :
    Complete chainEnv.links emptyRepo ∧
      ∃ t, run (step chainEnv) emptyRepo
          [.add 0, .blockPut (.ok ⟨(), true⟩) (.ok 1)] = some t ∧
        Complete chainEnv.links t := by
  have hs : Complete chainEnv.links emptyRepo := complete_of_no_pins rfl
  refine ⟨hs, ?_⟩
  have hany : (run (step chainEnv) emptyRepo
      [.add 0, .blockPut (.ok ⟨(), true⟩) (.ok 1)]).any (fun _ => true) = true := by decide
  obtain ⟨t, ht, _⟩ := exists_run_of_any hany
  refine ⟨t, ht, (pins_complete_iff chainEnv emptyRepo t _ hs ht).mpr ?_ _ [] t
    (List.append_nil _).symm ht⟩
  refine ⟨?_, ?_⟩
  · intro c hc k hk
    obtain rfl : c = 0 := List.mem_singleton.mp hc
    exact .inr (List.mem_singleton.mpr (Nat.le_zero.mp (chain_reach_le hk)))
  intro m hm
  refine ⟨?_, fun _ _ => True.intro⟩
  intro c hc k hk
  obtain rfl : c = 1 := List.mem_singleton.mp hc
  have hle := chain_reach_le hk
  rcases recorded_of_step hm with ⟨hnone, _⟩ | hadds
  · cases hnone
  by_cases hk0 : k = 0
  · left
    rw [hadds.1, hk0]
    decide
  · right
    exact List.mem_singleton.mpr (by omega)

end CoreApi
