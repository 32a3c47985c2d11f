import GoIpfs.BootstrapPeers
import GoIpfs.RepoConfig

/-!
# Editing the lists of the config

The commands `ipfs bootstrap` and `ipfs swarm filters` edit two lists of
strings.  They call `FSRepo.Config`, which hands out the config of the repo and
not a copy, assign the new list to it, and pass it to `SetConfig`.

So the list has changed before `SetConfig` can fail.  When it does fail, the file
is as before but the config in memory is not, unless the new list is the old one
(`atomic_iff`).
-/

namespace ConfigEdits

open GoJson Config Effects FsRepo BootstrapPeers List Option

/-! ## The two lists -/

/-- A `[]string`; `none` is nil. -/
abbrev Strings := Option (List String)

def stringsVal : Strings → Val
  | none => .nil
  | some l => .slice (l.map .str)

def readStrings : Val → Strings
  | .slice items => some (items.filterMap asString)
  | _ => none

inductive ListField where
  /-- `cfg.Bootstrap` -/
  | bootstrap
  /-- `cfg.Swarm.AddrFilters` -/
  | addrFilters
  deriving DecidableEq, Repr

def swarm (conf : Val) : Val := (conf.fields.lookup "Swarm").getD .nil

def ListField.get : ListField → Val → Strings
  | .bootstrap, conf => readStrings ((conf.fields.lookup "Bootstrap").getD .nil)
  | .addrFilters, conf => readStrings (((swarm conf).fields.lookup "AddrFilters").getD .nil)

def ListField.set : ListField → Strings → Val → Val
  | .bootstrap, l, conf => .struct (setField "Bootstrap" (stringsVal l) conf.fields)
  | .addrFilters, l, conf =>
    .struct (setField "Swarm"
      (.struct (setField "AddrFilters" (stringsVal l) (swarm conf).fields)) conf.fields)

/-- A value of the type `Config`, as far as the commands look into it. -/
structure IsConfig (conf : Val) : Prop where
  bootstrap : ∃ fields l, conf = .struct fields ∧
    fields.lookup "Bootstrap" = some (stringsVal l)
  addrFilters : ∃ fields sections l, conf = .struct fields ∧
    fields.lookup "Swarm" = some (.struct sections) ∧
    sections.lookup "AddrFilters" = some (stringsVal l)

/-! ## The functions -/

/-- The loop of `bootstrapAdd` and `filtersAdd`, which passes over the strings
that `addedMap` has. -/
def appendNew (addedMap : List String) : List String → List String
  | [] => []
  | s :: rest =>
    if s ∈ addedMap then appendNew addedMap rest else s :: appendNew (s :: addedMap) rest

/-- The list that appending to a nil slice gives. -/
def appended : List String → Strings
  | [] => none
  | s :: rest => some (s :: rest)

/-- The new list of `bootstrapAdd` and `filtersAdd`: the new strings, then the old
ones. -/
def addBack (new : List String) (old : Strings) : Strings :=
  appended (appendNew [] new ++ appendNew (appendNew [] new) (old.getD []))

/-- The first loop of `bootstrapAdd`. -/
def checkPeers (lib : Lib) : List String → Except String Unit
  | [] => .ok ()
  | p :: rest => do
      let m ← lib.newMultiaddr p
      match splitLast m with
      | (_, none) => .error ("invalid bootstrap address: " ++ p)
      | (tpt, some p2ppart) =>
        if p2ppart.code ≠ pP2P then .error ("invalid bootstrap address: " ++ p)
        else if tpt = none then .error ("bootstrap address without a transport: " ++ p)
        else checkPeers lib rest

/-- `toRemoveMap` of `bootstrapRemove`. -/
def removeMap (toRemoveAddr : List AddrInfo) : String → Option (List Multiaddr) :=
  toRemoveAddr.foldl (fun m addr => Function.update m addr.id (some addr.addrs)) fun _ => none

/-- What `bootstrapRemove` keeps of a peer. -/
def keepOf (toRemoveMap : String → Option (List Multiaddr)) (p : AddrInfo) : Option AddrInfo :=
  match toRemoveMap p.id with
  | none => some p
  | some [] => none
  | some addrs =>
    let keptAddrs := p.addrs.filter (· ∉ addrs)
    if keptAddrs = [] then none else some ⟨p.id, keptAddrs⟩

/-- What `bootstrapRemove` removes of a peer. -/
def removedOf (toRemoveMap : String → Option (List Multiaddr)) (p : AddrInfo) : Option AddrInfo :=
  match toRemoveMap p.id with
  | none => none
  | some [] => some p
  | some addrs =>
    let removedAddrs := p.addrs.filter (· ∈ addrs)
    if removedAddrs = [] then none else some ⟨p.id, removedAddrs⟩

section

variable (lib : Lib) (env : Env)

/-- Assign to a list of the config that the repo holds, and hand that config to
`SetConfig`. -/
def store (f : ListField) (new : Strings) (out : List String) : RepoM (List String) := do
  modify fun s => { s with config := f.set new s.config }
  setConfigUnsynced env (← get).config
  pure out

def bootstrapAdd (peers : List String) : RepoM (List String) := do
  let cfg := (← get).config
  ofResult (checkPeers lib peers)
  store env .bootstrap (addBack peers (ListField.bootstrap.get cfg)) (appendNew [] peers)

def bootstrapRemove (toRemove : List String) : RepoM (List String) := do
  let cfg := (← get).config
  let toRemoveAddr ← ofResult (parseBootstrapPeers lib 0 toRemove)
  let peers ← ofResult (parseBootstrapPeers lib 1 ((ListField.bootstrap.get cfg).getD []))
  let keep := peers.filterMap (keepOf (removeMap toRemoveAddr))
  let removed := peers.filterMap (removedOf (removeMap toRemoveAddr))
  store env .bootstrap (some (bootstrapPeerStrings lib keep)) (bootstrapPeerStrings lib removed)

def bootstrapRemoveAll : RepoM (List String) := do
  let cfg := (← get).config
  let removed ← ofResult (parseBootstrapPeers lib 0 ((ListField.bootstrap.get cfg).getD []))
  store env .bootstrap none (bootstrapPeerStrings lib removed)

def filtersAdd (filters : List String) : RepoM (List String) := do
  let cfg := (← get).config
  store env .addrFilters (addBack filters (ListField.addrFilters.get cfg)) (appendNew [] filters)

def filtersRemove (toRemoveFilters : List String) : RepoM (List String) := do
  let cfg := (← get).config
  let oldFilters := (ListField.addrFilters.get cfg).getD []
  store env .addrFilters (some (oldFilters.filter (· ∉ toRemoveFilters)))
    (oldFilters.filter (· ∈ toRemoveFilters))

def filtersRemoveAll : RepoM (List String) := do
  let cfg := (← get).config
  store env .addrFilters none ((ListField.addrFilters.get cfg).getD [])

end

inductive Edit where
  | bootstrapAdd (peers : List String)
  | bootstrapRemove (toRemove : List String)
  | bootstrapRemoveAll
  | filtersAdd (filters : List String)
  | filtersRemove (toRemoveFilters : List String)
  | filtersRemoveAll
  deriving DecidableEq, Repr

def Edit.call (lib : Lib) (env : Env) : Edit → RepoM (List String)
  | .bootstrapAdd peers => ConfigEdits.bootstrapAdd lib env peers
  | .bootstrapRemove toRemove => ConfigEdits.bootstrapRemove lib env toRemove
  | .bootstrapRemoveAll => ConfigEdits.bootstrapRemoveAll lib env
  | .filtersAdd filters => ConfigEdits.filtersAdd env filters
  | .filtersRemove toRemoveFilters => ConfigEdits.filtersRemove env toRemoveFilters
  | .filtersRemoveAll => ConfigEdits.filtersRemoveAll env

/-- The call as the commands make it, after `r.Config()` has returned the config. -/
def Edit.run (lib : Lib) (env : Env) (e : Edit) : RepoM (List String) := do
  if (← get).closed then throw "cannot access config, repo not open"
  else e.call lib env

/-! ## Assigning a list -/

variable {name : String} {v : Val}

section Lists

variable {conf : Val} {f : ListField} {l : Strings}

@[simp] theorem readStrings_stringsVal (l : Strings) : readStrings (stringsVal l) = l := by
  cases l with
  | none => rfl
  | some l =>
    simp only [stringsVal, readStrings, filterMap_map]
    congr 1
    exact filterMap_some

theorem setField_eq_self {fields : List (String × Val)} (h : fields.lookup name = some v) :
    setField name v fields = fields := by
  induction fields with
  | nil => cases h
  | cons e rest ih =>
    rw [lookup_cons] at h
    unfold setField
    by_cases he : e.1 = name
    · rw [if_pos he.symm] at h
      rw [if_pos he, ← he, ← some.inj h]
    · rw [if_neg (Ne.symm he)] at h
      rw [if_neg he, ih h]

theorem get_set (f : ListField) (l : Strings) (conf : Val) : f.get (f.set l conf) = l := by
  cases f with
  | bootstrap => simp [ListField.get, ListField.set, Val.fields, lookup_setField]
  | addrFilters => simp [ListField.get, ListField.set, swarm, Val.fields, lookup_setField]

theorem IsConfig.set_get (h : IsConfig conf) (f : ListField) : f.set (f.get conf) conf = conf := by
  cases f with
  | bootstrap =>
    obtain ⟨fields, l, rfl, hl⟩ := h.bootstrap
    have hget : ListField.bootstrap.get (.struct fields) = l := by
      simp [ListField.get, Val.fields, hl]
    rw [hget]
    exact congrArg Val.struct (setField_eq_self hl)
  | addrFilters =>
    obtain ⟨fields, sections, l, rfl, hs, hl⟩ := h.addrFilters
    have hswarm : swarm (.struct fields) = .struct sections := by
      simp [swarm, Val.fields, hs]
    have hget : ListField.addrFilters.get (.struct fields) = l := by
      simp [ListField.get, hswarm, Val.fields, hl]
    rw [hget, ListField.set, hswarm]
    have hsame : setField "AddrFilters" (stringsVal l) (Val.struct sections).fields = sections :=
      setField_eq_self hl
    rw [hsame]
    exact congrArg Val.struct (setField_eq_self hs)

/-- **Assigning a list changes the config exactly when it is another list.** -/
theorem IsConfig.set_eq_self_iff (h : IsConfig conf) : f.set l conf = conf ↔ f.get conf = l := by
  constructor
  · intro heq
    rw [← heq]
    exact get_set f l conf
  · rintro rfl
    exact h.set_get f

end Lists

/-! ## When `SetConfig` fails -/

/-- `SetConfig` fails: finding, reading or writing the file fails, or the file is
neither a JSON object nor `null`, which `readMap` takes for an empty map. -/
def SetConfigFails (env : Env) (s : Repo) : Prop :=
  env.fault s.calls ≠ none ∨ env.fault (s.calls + 1) ≠ none ∨
    (∀ m, readMap s.file ≠ .ok m) ∨ env.fault (s.calls + 2) ≠ none

section Calls

variable {env : Env} {s : Repo}

theorem setConfigUnsynced_fails_iff (updated : Val) :
    (∃ err t, exec (setConfigUnsynced env updated) s = (.error err, t)) ↔
      SetConfigFails env s := by
  have hok := @setConfigUnsynced_ok_iff env s updated
  rw [forall_lt_three] at hok
  unfold SetConfigFails
  rcases hexec : exec (setConfigUnsynced env updated) s with ⟨r, t⟩
  rw [hexec] at hok
  cases r with
  | ok a =>
    obtain ⟨⟨hfind, hread, hwrite⟩, m, hm⟩ := hok.mp rfl
    simp_all
  | error e =>
    have hno := mt hok.mpr (by simp [Except.isOk, Except.toBool])
    refine iff_of_true ⟨e, t, rfl⟩ ?_
    by_contra hnone
    push Not at hnone
    exact hno ⟨⟨hnone.1, hnone.2.1, hnone.2.2.2⟩, hnone.2.2.1⟩

variable {f : ListField} {new : Strings} {out : List String}

theorem store_wp (env : Env) (s : Repo) (f : ListField) (new : Strings) (out : List String) :
    Wp (fun t => t.file = s.file ∧ t.config = f.set new s.config) (store env f new out)
      (fun _ t => t.config = f.set new s.config) s := by
  unfold store
  rw [wp_bind, wp_modify, wp_bind, wp_get, wp_bind]
  refine (setConfigUnsynced_wp (fun t ht => ?_) _).mono ?_
  · exact ht
  · intro _ t ht
    exact wp_pure.mpr ht.1

theorem config_store (env : Env) (s : Repo) (f : ListField) (new : Strings) (out : List String) :
    (exec (store env f new out) s).2.config = f.set new s.config := by
  have hwp := store_wp env s f new out
  rcases hexec : exec (store env f new out) s with ⟨r, t⟩
  cases r with
  | ok a => exact hwp.ok hexec
  | error e => exact (hwp.error hexec).2

theorem store_fails_iff :
    (∃ err t, exec (store env f new out) s = (.error err, t)) ↔ SetConfigFails env s := by
  let u : Repo := { s with config := f.set new s.config }
  have hiff : _ ↔ SetConfigFails env u := setConfigUnsynced_fails_iff u.config
  have hsame : SetConfigFails env u ↔ SetConfigFails env s := Iff.rfl
  rw [← hsame, ← hiff]
  have hexec : exec (store env f new out) s =
      exec (setConfigUnsynced env u.config >>= fun _ => pure out) u := rfl
  rw [hexec, exec_bind]
  rcases exec (setConfigUnsynced env u.config) u with ⟨r, t⟩
  cases r <;> simp

/-- **Storing a list is atomic exactly when it cannot fail or is in vain.** -/
theorem store_atomic_iff (hconf : IsConfig s.config) :
    (∀ err t, exec (store env f new out) s = (.error err, t) → Same s t) ↔
      (SetConfigFails env s → f.get s.config = new) := by
  constructor
  · intro hatomic hfails
    obtain ⟨err, t, hrun⟩ := store_fails_iff.mpr hfails
    have hsame := hatomic err t hrun
    have hmem := ((store_wp env s f new out).error hrun).2
    exact hconf.set_eq_self_iff.mp (hmem.symm.trans hsame.2)
  · intro hcond err t hrun
    have hget := hcond (store_fails_iff.mp ⟨err, t, hrun⟩)
    obtain ⟨hfile, hmem⟩ := (store_wp env s f new out).error hrun
    exact ⟨hfile, hmem.trans (hconf.set_eq_self_iff.mpr hget)⟩

end Calls

/-! ## What is checked before the list is assigned -/

/-- The address is a multiaddr that ends in `/p2p/<id>` after a transport. -/
def HasTransport (lib : Lib) (p : String) : Prop :=
  ∃ m tpt c, lib.newMultiaddr p = .ok m ∧ splitLast m = (some tpt, some c) ∧ c.code = pP2P

/-- The arguments, and the configured peers if they are looked at, can be read. -/
def Edit.Accepted (lib : Lib) (conf : Val) : Edit → Prop
  | .bootstrapAdd peers => ∀ p ∈ peers, HasTransport lib p
  | .bootstrapRemove toRemove =>
    (∀ p ∈ toRemove, IsP2p lib p) ∧
      ∀ p ∈ (ListField.bootstrap.get conf).getD [], IsP2p lib p
  | .bootstrapRemoveAll => ∀ p ∈ (ListField.bootstrap.get conf).getD [], IsP2p lib p
  | .filtersAdd _ | .filtersRemove _ | .filtersRemoveAll => True

def Edit.field : Edit → ListField
  | .bootstrapAdd _ | .bootstrapRemove _ | .bootstrapRemoveAll => .bootstrap
  | .filtersAdd _ | .filtersRemove _ | .filtersRemoveAll => .addrFilters

/-- The peers of a list of addresses, as the `n`-th call of `ParseBootstrapPeers`
returns them. -/
def peersOf (lib : Lib) (n : Nat) (addrs : List String) : List AddrInfo :=
  lib.order n (group (entries lib addrs))

/-- The list that an accepted call assigns. -/
def Edit.newList (lib : Lib) (conf : Val) : Edit → Strings
  | .bootstrapAdd peers => addBack peers (ListField.bootstrap.get conf)
  | .bootstrapRemove toRemove =>
    some (bootstrapPeerStrings lib
      ((peersOf lib 1 ((ListField.bootstrap.get conf).getD [])).filterMap
        (keepOf (removeMap (peersOf lib 0 toRemove)))))
  | .bootstrapRemoveAll | .filtersRemoveAll => none
  | .filtersAdd filters => addBack filters (ListField.addrFilters.get conf)
  | .filtersRemove toRemoveFilters =>
    some (((ListField.addrFilters.get conf).getD []).filter (· ∉ toRemoveFilters))

theorem checkPeers_ok {lib : Lib} {peers : List String} (h : ∀ p ∈ peers, HasTransport lib p) :
    checkPeers lib peers = .ok () := by
  induction peers with
  | nil => rfl
  | cons p rest ih =>
    obtain ⟨m, tpt, c, hm, hsplit, hcode⟩ := h p mem_cons_self
    have hrest := ih fun q hq => h q (mem_cons_of_mem _ hq)
    simp [checkPeers, hm, bind, Except.bind, hsplit, hcode, hrest]

theorem checkPeers_error {lib : Lib} {peers : List String}
    (h : ¬ ∀ p ∈ peers, HasTransport lib p) : ∃ e, checkPeers lib peers = .error e := by
  induction peers with
  | nil => exact absurd nofun h
  | cons p rest ih =>
    rw [checkPeers]
    cases hm : lib.newMultiaddr p with
    | error e => exact ⟨e, rfl⟩
    | ok m =>
      simp only [bind, Except.bind]
      split
      · exact ⟨_, rfl⟩
      rename_i tpt c hsplit
      by_cases hcode : c.code = pP2P
      · cases tpt with
        | none => exact ⟨_, by simp [hcode]; rfl⟩
        | some tpt =>
          have hp : HasTransport lib p := ⟨m, tpt, c, hm, hsplit, hcode⟩
          simp only [ne_eq, hcode, not_true_eq_false, if_false, reduceCtorEq]
          apply ih
          intro hrest
          exact h (forall_mem_cons.mpr ⟨hp, hrest⟩)
      · exact ⟨_, if_pos hcode⟩

section Calls

variable {s : Repo} {α β : Type}

/-- A check that fails ends the call. -/
theorem exec_check {P : Prop} {x : Except String α} {a : α} (hok : P → x = .ok a)
    (herr : ¬ P → ∃ e, x = .error e) (f : α → RepoM β) :
    (¬ P ∧ ∃ err, exec (ofResult x >>= f) s = (.error err, s)) ∨
      P ∧ exec (ofResult x >>= f) s = exec (f a) s := by
  rw [exec_ofResult_bind]
  by_cases h : P
  · rw [hok h]
    exact .inr ⟨h, rfl⟩
  · obtain ⟨e, rfl⟩ := herr h
    exact .inl ⟨h, e, rfl⟩

/-- **A call fails at its checks and changes nothing, or stores its list.** -/
theorem call_cases (lib : Lib) (env : Env) (s : Repo) (e : Edit) :
    (¬ e.Accepted lib s.config ∧ ∃ err, exec (e.call lib env) s = (.error err, s)) ∨
    (e.Accepted lib s.config ∧ ∃ out, exec (e.call lib env) s =
      exec (store env e.field (e.newList lib s.config) out) s) := by
  cases e with
  | bootstrapAdd peers =>
    simp only [Edit.call, ConfigEdits.bootstrapAdd, exec_get_bind]
    exact (exec_check checkPeers_ok checkPeers_error _).imp_right fun h => ⟨h.1, _, h.2⟩
  | bootstrapRemove toRemove =>
    simp only [Edit.call, ConfigEdits.bootstrapRemove, exec_get_bind]
    rcases exec_check (parseBootstrapPeers_ok 0) (parseBootstrapPeers_error 0) _ with
      ⟨hargs, herr⟩ | ⟨hargs, hexec⟩
    · exact .inl ⟨fun h => hargs h.1, herr⟩
    rcases exec_check (parseBootstrapPeers_ok 1) (parseBootstrapPeers_error 1) _ with
      ⟨hold, err, herr⟩ | ⟨hold, hexec'⟩
    · exact .inl ⟨fun h => hold h.2, err, hexec.trans herr⟩
    · exact .inr ⟨⟨hargs, hold⟩, _, hexec.trans hexec'⟩
  | bootstrapRemoveAll =>
    simp only [Edit.call, ConfigEdits.bootstrapRemoveAll, exec_get_bind]
    exact (exec_check (parseBootstrapPeers_ok 0) (parseBootstrapPeers_error 0) _).imp_right
      fun h => ⟨h.1, _, h.2⟩
  | filtersAdd _ | filtersRemove _ | filtersRemoveAll =>
    exact .inr ⟨True.intro, _, exec_get_bind ..⟩

end Calls

/-! ## Lists that an edit leaves as they are -/

section Adding

variable {new old seen : List String}

variable {l : List String}

theorem mem_appendNew {x : String} : x ∈ appendNew seen l ↔ x ∈ l ∧ x ∉ seen := by
  induction l generalizing seen with
  | nil => simp [appendNew]
  | cons s rest ih =>
    unfold appendNew
    by_cases hs : s ∈ seen
    · rw [if_pos hs, ih, mem_cons]
      constructor
      · exact fun h => ⟨.inr h.1, h.2⟩
      · rintro ⟨rfl | hx, hseen⟩
        · exact absurd hs hseen
        · exact ⟨hx, hseen⟩
    · rw [if_neg hs, mem_cons, ih, mem_cons, mem_cons, not_or]
      constructor
      · rintro (rfl | ⟨hx, _, hseen⟩)
        · exact ⟨.inl rfl, hs⟩
        · exact ⟨.inr hx, hseen⟩
      · rintro ⟨hx, hseen⟩
        by_cases heq : x = s
        · exact .inl heq
        · exact .inr ⟨hx.resolve_left heq, heq, hseen⟩

theorem nodup_appendNew (seen l : List String) : (appendNew seen l).Nodup := by
  induction l generalizing seen with
  | nil => exact nodup_nil
  | cons s rest ih =>
    unfold appendNew
    split
    · exact ih seen
    · refine nodup_cons.mpr ⟨fun h => ?_, ih _⟩
      exact (mem_appendNew.mp h).2 mem_cons_self

theorem appendNew_of_nodup (h : l.Nodup) : appendNew seen l = l.filter (· ∉ seen) := by
  induction l generalizing seen with
  | nil => rfl
  | cons s rest ih =>
    obtain ⟨hs, hrest⟩ := nodup_cons.mp h
    unfold appendNew
    split
    · rename_i hmem
      rw [ih hrest, filter_cons_of_neg (by simpa using hmem)]
    rename_i hmem
    rw [ih hrest, filter_cons_of_pos (by simpa using hmem)]
    congr 1
    apply filter_congr
    intro x hx
    have hne : x ≠ s := fun heq => hs (heq ▸ hx)
    simp [hne]

theorem nodup_addBack (new old : List String) :
    (appendNew [] new ++ appendNew (appendNew [] new) old).Nodup := by
  refine nodup_append.mpr ⟨nodup_appendNew _ _, nodup_appendNew _ _, ?_⟩
  intro x hx y hy heq
  exact (mem_appendNew.mp hy).2 (heq ▸ hx)

/-- Putting the new strings in front changes nothing exactly when they are in
front, each once, of a list without duplicates. -/
theorem addBack_eq_iff :
    appendNew [] new ++ appendNew (appendNew [] new) old = old ↔
      old.Nodup ∧ appendNew [] new <+: old := by
  constructor
  · intro h
    exact ⟨h ▸ nodup_addBack new old, ⟨_, h⟩⟩
  rintro ⟨hnodup, rest, rfl⟩
  congr 1
  have hdisj := (nodup_append.mp hnodup).2.2
  rw [appendNew_of_nodup hnodup, filter_append,
    filter_eq_nil_iff.mpr (by simp), nil_append, filter_eq_self]
  intro x hx
  simpa using fun hmem => hdisj x hmem x hx rfl

/-- The strings stand in front of a list without duplicates, each once. -/
def Leading (new : List String) : Strings → Prop
  | none => new = []
  | some old => old ≠ [] ∧ old.Nodup ∧ appendNew [] new <+: old

theorem appended_eq_some {old : List String} : appended l = some old ↔ old ≠ [] ∧ l = old := by
  cases l with
  | nil => simp [appended, eq_comm]
  | cons s rest =>
    simp only [appended, some.injEq]
    constructor
    · rintro rfl
      exact ⟨cons_ne_nil _ _, rfl⟩
    · exact fun h => h.2

theorem mem_addBack {x : String} {new : List String} {old : Strings} :
    x ∈ (addBack new old).getD [] ↔ x ∈ new ∨ x ∈ old.getD [] := by
  have hgetD : ∀ l, (appended l).getD [] = l := by
    intro l
    cases l <;> rfl
  rw [addBack, hgetD, mem_append, mem_appendNew, mem_appendNew, mem_appendNew]
  by_cases hx : x ∈ new <;> simp [hx]

theorem leading_iff (new : List String) (old : Strings) :
    old = addBack new old ↔ Leading new old := by
  cases old with
  | none =>
    cases new with
    | nil | cons s rest => simp [addBack, appendNew, appended, Leading]
  | some old =>
    rw [eq_comm, addBack, appended_eq_some, getD_some, addBack_eq_iff]
    exact Iff.rfl

end Adding

section Removing

variable {lib : Lib} {infos : List AddrInfo} {p : AddrInfo}

theorem removeMap_of_not_mem {id : String} (h : id ∉ infos.map AddrInfo.id) :
    removeMap infos id = none := by
  induction infos using reverseRecOn with
  | nil => rfl
  | append_singleton infos q ih =>
    rw [map_append, mem_append, not_or, map_singleton, mem_singleton] at h
    unfold removeMap at ih ⊢
    rw [foldl_append, foldl_cons, foldl_nil, Function.update_of_ne h.2]
    exact ih h.1

theorem removeMap_of_mem (hnodup : (infos.map AddrInfo.id).Nodup) (hp : p ∈ infos) :
    removeMap infos p.id = some p.addrs := by
  induction infos using reverseRecOn with
  | nil => cases hp
  | append_singleton infos q ih =>
    rw [map_append, map_singleton] at hnodup
    obtain ⟨hinfos, _, hdisj⟩ := nodup_append.mp hnodup
    have hsnoc : removeMap (infos ++ [q]) =
        Function.update (removeMap infos) q.id (some q.addrs) := by
      simp [removeMap, foldl_append]
    rw [hsnoc]
    rcases mem_append.mp hp with hp | hp
    · have hne := hdisj _ (mem_map_of_mem hp) _ mem_cons_self
      rw [Function.update_of_ne hne]
      exact ih hinfos hp
    · rw [mem_singleton.mp hp, Function.update_self]

theorem removeMap_peersOf (lib : Lib) (n : Nat) (addrs : List String) (id : String) :
    removeMap (peersOf lib n addrs) id =
      if id ∈ (entries lib addrs).map Prod.snd then some (transports id (entries lib addrs))
      else none := by
  have hperm := lib.order_perm n (group (entries lib addrs))
  have hids : ((peersOf lib n addrs).map AddrInfo.id).Perm
      ((group (entries lib addrs)).map AddrInfo.id) := hperm.map _
  split
  · rename_i hid
    rw [← mem_ids_group] at hid
    obtain ⟨p, hp, rfl⟩ := mem_map.mp hid
    rw [removeMap_of_mem (hids.nodup_iff.mpr (nodup_ids_group _)) (hperm.mem_iff.mpr hp),
      addrs_of_mem_group hp]
  · rename_i hid
    rw [← mem_ids_group] at hid
    exact removeMap_of_not_mem fun h => hid (hids.mem_iff.mp h)

section

variable (m : String → Option (List Multiaddr))

theorem keepOf_cases (p : AddrInfo) :
    keepOf m p = some p ∨ ((keepOf m p).map AddrInfo.width).getD 0 < p.width := by
  have hpos : 0 < p.width := by
    unfold AddrInfo.width
    omega
  unfold keepOf
  split
  · exact .inl rfl
  · exact .inr hpos
  rename_i addrs _ _
  simp only []
  split
  · exact .inr hpos
  rename_i hne
  by_cases hall : p.addrs.filter (· ∉ addrs) = p.addrs
  · rw [hall]
    exact .inl rfl
  refine .inr ?_
  have hlt := (filter_sublist (p := (· ∉ addrs))).length_le.lt_of_ne
    fun hlen => hall (filter_sublist.eq_of_length hlen)
  have hkept := length_pos_iff.mpr hne
  simp only [map_some, getD_some, AddrInfo.width]
  omega

theorem width_filterMap_keepOf (infos : List AddrInfo) :
    (∀ p ∈ infos, keepOf m p = some p) ∨
      ((infos.filterMap (keepOf m)).map AddrInfo.width).sum <
        (infos.map AddrInfo.width).sum := by
  induction infos with
  | nil => exact .inl nofun
  | cons p rest ih =>
    have hsum : (((p :: rest).filterMap (keepOf m)).map AddrInfo.width).sum =
        ((keepOf m p).map AddrInfo.width).getD 0 +
          ((rest.filterMap (keepOf m)).map AddrInfo.width).sum := by
      cases hk : keepOf m p with
      | none | some q => simp [hk]
    rw [hsum, map_cons, sum_cons]
    rcases keepOf_cases m p with hp | hp
    · have hwidth : ((keepOf m p).map AddrInfo.width).getD 0 = p.width := by rw [hp]; rfl
      rcases ih with hrest | hrest
      · exact .inl (forall_mem_cons.mpr ⟨hp, hrest⟩)
      · exact .inr (by omega)
    · refine .inr ?_
      rcases ih with hrest | hrest
      · have hsame : rest.filterMap (keepOf m) = rest := by
          rw [filterMap_congr hrest, filterMap_some]
        rw [hsame]
        omega
      · omega

theorem keepOf_eq_self_iff (p : AddrInfo) :
    keepOf m p = some p ↔
      ∀ addrs, m p.id = some addrs → addrs ≠ [] ∧ p.addrs ≠ [] ∧ ∀ a ∈ p.addrs, a ∉ addrs := by
  unfold keepOf
  split
  · rename_i hm
    simp [hm]
  · rename_i hm
    simp [hm]
  rename_i addrs hne hm
  have hne' : addrs ≠ [] := hne
  simp only [hm, some.injEq, forall_eq', ne_eq, hne', not_false_eq_true, true_and]
  constructor
  · intro h
    split at h
    · cases h
    rename_i hkept
    have haddrs := congrArg AddrInfo.addrs (some.inj h)
    simp only at haddrs
    rw [haddrs] at hkept
    refine ⟨hkept, fun a ha => ?_⟩
    simpa using filter_eq_self.mp haddrs a ha
  · rintro ⟨hnil, hall⟩
    have hkept : p.addrs.filter (· ∉ addrs) = p.addrs :=
      filter_eq_self.mpr fun a ha => by simpa using hall a ha
    rw [hkept, if_neg hnil]

end

/-- No address of `old` is named by `toRemove`: where both name a peer, both give
transports for it, and not the same ones. -/
def Spared (lib : Lib) (toRemove old : List String) : Prop :=
  ∀ id ∈ (entries lib old).map Prod.snd, id ∈ (entries lib toRemove).map Prod.snd →
    transports id (entries lib toRemove) ≠ [] ∧ transports id (entries lib old) ≠ [] ∧
      ∀ a ∈ transports id (entries lib old), a ∉ transports id (entries lib toRemove)

theorem spared_iff (toRemove old : List String) (n k : Nat) :
    (∀ p ∈ peersOf lib k old, keepOf (removeMap (peersOf lib n toRemove)) p = some p) ↔
      Spared lib toRemove old := by
  have hmem : ∀ p, p ∈ peersOf lib k old ↔ p ∈ group (entries lib old) := fun p =>
    (lib.order_perm k _).mem_iff
  have hkeep : ∀ p ∈ group (entries lib old),
      (keepOf (removeMap (peersOf lib n toRemove)) p = some p ↔
        (p.id ∈ (entries lib toRemove).map Prod.snd →
          transports p.id (entries lib toRemove) ≠ [] ∧
            transports p.id (entries lib old) ≠ [] ∧
            ∀ a ∈ transports p.id (entries lib old),
              a ∉ transports p.id (entries lib toRemove))) := by
    intro p hp
    rw [keepOf_eq_self_iff, removeMap_peersOf, addrs_of_mem_group hp]
    by_cases hid : p.id ∈ (entries lib toRemove).map Prod.snd
    · simp only [hid, if_true, some.injEq, forall_eq', true_implies]
    · simp [hid]
  constructor
  · intro h id hid
    rw [← mem_ids_group] at hid
    obtain ⟨p, hp, rfl⟩ := mem_map.mp hid
    exact (hkeep p hp).mp (h p ((hmem p).mpr hp))
  · intro h p hp
    rw [hmem] at hp
    refine (hkeep p hp).mpr (h p.id ?_)
    rw [← mem_ids_group]
    exact mem_map_of_mem hp

/-- **Removing leaves a list of peers as it is** exactly when nothing is removed
and the list is written as `BootstrapPeerStrings` writes it. -/
theorem remove_eq_iff (toRemove old : List String) :
    bootstrapPeerStrings lib
        ((peersOf lib 1 old).filterMap (keepOf (removeMap (peersOf lib 0 toRemove)))) = old ↔
      Spared lib toRemove old ∧ bootstrapPeerStrings lib (peersOf lib 1 old) = old := by
  rw [← spared_iff toRemove old 0 1]
  have hkeep : (∀ p ∈ peersOf lib 1 old, keepOf (removeMap (peersOf lib 0 toRemove)) p = some p) →
      (peersOf lib 1 old).filterMap (keepOf (removeMap (peersOf lib 0 toRemove))) =
        peersOf lib 1 old := fun h => by
    rw [filterMap_congr h, filterMap_some]
  constructor
  · intro heq
    rcases width_filterMap_keepOf (removeMap (peersOf lib 0 toRemove)) (peersOf lib 1 old) with
      hall | hlt
    · rw [hkeep hall] at heq
      exact ⟨hall, heq⟩
    -- fewer addresses are printed than there are in the list
    have hlen := congrArg length heq
    rw [length_bootstrapPeerStrings] at hlen
    have hle : ((peersOf lib 1 old).map AddrInfo.width).sum ≤ old.length :=
      width_order_group_le lib 1 old
    omega
  · rintro ⟨hall, heq⟩
    rw [hkeep hall, heq]

end Removing

/-! ## Atomicity -/

/-- **The edit leaves its list as it is.**  Strings are added that stand in front
already; nothing is removed, and the list is not nil and, for peers, written as
`BootstrapPeerStrings` writes it; all are removed from a nil list. -/
def Edit.LeavesAlone (lib : Lib) (conf : Val) : Edit → Prop
  | .bootstrapAdd peers => Leading peers (ListField.bootstrap.get conf)
  | .bootstrapRemove toRemove => ∃ old, ListField.bootstrap.get conf = some old ∧
      Spared lib toRemove old ∧ bootstrapPeerStrings lib (peersOf lib 1 old) = old
  | .bootstrapRemoveAll => ListField.bootstrap.get conf = none
  | .filtersAdd filters => Leading filters (ListField.addrFilters.get conf)
  | .filtersRemove toRemoveFilters => ∃ old, ListField.addrFilters.get conf = some old ∧
      ∀ filter ∈ old, filter ∉ toRemoveFilters
  | .filtersRemoveAll => ListField.addrFilters.get conf = none

theorem leavesAlone_iff (lib : Lib) (conf : Val) (e : Edit) :
    e.field.get conf = e.newList lib conf ↔ e.LeavesAlone lib conf := by
  cases e with
  | bootstrapAdd peers => exact leading_iff peers _
  | filtersAdd filters => exact leading_iff filters _
  | bootstrapRemoveAll | filtersRemoveAll => exact Iff.rfl
  | bootstrapRemove toRemove =>
    simp only [Edit.field, Edit.newList, Edit.LeavesAlone]
    cases ListField.bootstrap.get conf with
    | none => simp
    | some old =>
      simp only [getD_some, some.injEq, exists_eq_left']
      rw [eq_comm]
      exact remove_eq_iff toRemove old
  | filtersRemove toRemoveFilters =>
    simp only [Edit.field, Edit.newList, Edit.LeavesAlone]
    cases ListField.addrFilters.get conf with
    | none => simp
    | some old =>
      simp only [getD_some, some.injEq, exists_eq_left']
      rw [eq_comm, filter_eq_self]
      simp

/-- **When an edit is atomic on failure.**  An error leaves the file and the
config in memory as they were, exactly when `SetConfig` does not fail, or the
repo is closed, or a check fails before the list is assigned, or the edit leaves
the list as it is. -/
theorem atomic_iff (lib : Lib) (env : Env) (s : Repo) (e : Edit) (hconf : IsConfig s.config) :
    (∀ err t, exec (e.run lib env) s = (.error err, t) → Same s t) ↔
      (SetConfigFails env s →
        s.closed = true ∨ ¬ e.Accepted lib s.config ∨ e.LeavesAlone lib s.config) := by
  have hrun : exec (e.run lib env) s =
      if s.closed = true then (.error "cannot access config, repo not open", s)
      else exec (e.call lib env) s := by
    unfold Edit.run
    rw [exec_get_bind]
    split <;> rfl
  rw [hrun]
  by_cases hclosed : s.closed = true
  · simp only [hclosed, if_true, true_or, implies_true, iff_true]
    intro err t h
    cases h
    exact ⟨rfl, rfl⟩
  rw [if_neg hclosed]
  rcases call_cases lib env s e with ⟨hnot, err, hexec⟩ | ⟨hacc, out, hexec⟩
  · rw [hexec]
    refine ⟨fun _ _ => .inr (.inl hnot), fun _ err t h => ?_⟩
    cases h
    exact ⟨rfl, rfl⟩
  · rw [hexec, store_atomic_iff hconf, leavesAlone_iff]
    simp [hclosed, hacc]

def filtersConfig (l : Strings) : Val :=
  .struct [("Bootstrap", .nil), ("Swarm", .struct [("AddrFilters", stringsVal l)])]

theorem isConfig_filtersConfig (l : Strings) : IsConfig (filtersConfig l) :=
  ⟨⟨_, none, rfl, rfl⟩, ⟨_, _, l, rfl, rfl, rfl⟩⟩

def filtersRepo (l : Strings) : Repo := ⟨.obj [], filtersConfig l, false, 0⟩

/-- Reading the file works and writing it does not. -/
def fullDisk : Env where
  parsers := noParsers
  fault n := if n = 2 then some "no space left on device" else none

/-- A library that reads no multiaddr. -/
def noAddrs : Lib where
  newMultiaddr _ := .error "invalid multiaddr"
  string _ := ""
  order _ l := l
  order_perm _ _ := List.Perm.refl _

theorem atomic_filtersRemove :
    IsConfig (filtersRepo (some ["/ip4/10.0.0.0/ipcidr/8"])).config ∧
      SetConfigFails fullDisk (filtersRepo (some ["/ip4/10.0.0.0/ipcidr/8"])) ∧
      ∀ err t, exec ((Edit.filtersRemove ["/ip6/fc00::/ipcidr/7"]).run noAddrs fullDisk)
          (filtersRepo (some ["/ip4/10.0.0.0/ipcidr/8"])) = (.error err, t) →
        Same (filtersRepo (some ["/ip4/10.0.0.0/ipcidr/8"])) t := by
  refine ⟨isConfig_filtersConfig _, .inr (.inr (.inr (by decide))), ?_⟩
  refine (atomic_iff noAddrs fullDisk _ _ (isConfig_filtersConfig _)).mpr fun _ => ?_
  exact .inr (.inr ⟨_, rfl, by decide⟩)

/-- **A filter that could not be written stays in memory.** -/
theorem filtersAdd_not_atomic :
    IsConfig (filtersRepo none).config ∧
      ∃ err t, exec ((Edit.filtersAdd ["/ip4/10.0.0.0/ipcidr/8"]).run noAddrs fullDisk)
          (filtersRepo none) = (.error err, t) ∧ ¬ Same (filtersRepo none) t := by
  refine ⟨isConfig_filtersConfig none, _, _, rfl, fun h => ?_⟩
  have hget := congrArg ListField.addrFilters.get h.2
  revert hget
  decide

end ConfigEdits
