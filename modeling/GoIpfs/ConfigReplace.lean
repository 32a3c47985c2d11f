import GoIpfs.ConfigEdits
import GoIpfs.ConfigText
import GoIpfs.GoEqual
import Mathlib.Data.List.Perm.Subperm

/-!
# Replacing the config

`ipfs config replace` decodes a file into a new `Config` and stores it.  The
secrets must survive: a file with a private key is refused and the stored key is
put back; the remote pinning services must be those that are stored, by number
and by name, and each gets its stored `API` back.  Everything else is taken from
the file.

The stored services are read by `getRemotePinningServices`, which takes a failed
read for an empty map.  A file without services then passes both checks, and the
stored services and their keys are lost (`Lost`).  `replaceConfig_keeps_iff` says
that nothing else can go wrong.
-/

namespace ConfigReplace

open GoJson Config FsRepo Effects ConfigCommands List

/-! ## The parts of a config -/

def text (v : Val) : String := (asString v).getD ""

def endpointField : GoJson.Field Ty := field "Endpoint" .string

def policiesField : GoJson.Field Ty := field "Policies" (.struct [field "MFS" (.struct [
  field "Enable" .bool, field "PinName" .string, field "RepinInterval" .string])])

/-- `config.RemoteServicesPath`. -/
def remoteServicesPath : String := "Pinning.RemoteServices"

/-- The order in which a `for` loop meets the entries of a map. -/
structure MapOrder where
  range : List (String × Val) → List (String × Val)
  perm : ∀ entries, (range entries).Perm entries

/-- `svc.API = api`. -/
def setApi (svc api : Val) : Val := .struct (setField "API" api svc.fields)

section

variable (parsers : Parsers)

/-- `svc.API`. -/
def api (svc : Val) : Val := getField (codecs parsers) svc.fields apiField

def apiText (f : GoJson.Field Ty) (svc : Val) : String :=
  text (getField (codecs parsers) (api parsers svc).fields f)

/-- `cfg.Identity.PrivKey = pkstr`. -/
def setPrivKey (pkstr : String) (cfg : Val) : Val :=
  .struct (setField "Identity"
    (.struct (setField "PrivKey" (.str pkstr)
      (getField (codecs parsers) cfg.fields identityField).fields)) cfg.fields)

/-- `cfg.Pinning.RemoteServices[name] = svc`. -/
def setService (name : String) (svc cfg : Val) : Val :=
  .struct (setField "Pinning"
    (.struct (setField "RemoteServices"
      (.map (setKey name svc (remoteServices parsers cfg).entries))
      (getField (codecs parsers) cfg.fields pinningField).fields)) cfg.fields)

/-! ## The functions -/

/-- The loop of `replaceConfig` over the old services. -/
def reapplyServices : List (String × Val) → Val → Except String Val
  | [], newCfg => .ok newCfg
  | (name, oldSvc) :: rest, newCfg =>
    match (remoteServices parsers newCfg).entries.lookup name with
    | some newSvc =>
      if apiText parsers keyField newSvc ≠ "" ∨
          (apiText parsers endpointField newSvc ≠ "" ∧
            apiText parsers endpointField newSvc ≠ apiText parsers endpointField oldSvc) then
        .error "cannot change remote pinning services api info with `config replace`"
      else
        reapplyServices rest
          (setService parsers name (setApi newSvc (api parsers oldSvc)) newCfg)
    | none => .error "cannot add or remove remote pinning services with 'config replace'"

/-- The checks of `replaceConfig` against the old services. -/
def reapply (order : MapOrder) (oldServices : List (String × Val)) (newCfg : Val) :
    Except String Val :=
  if (remoteServices parsers newCfg).entries.length ≠ oldServices.length then
    .error "cannot add or remove remote pinning services with 'config replace'"
  else reapplyServices parsers (order.range oldServices) newCfg

/-- Decoding the input, which may be no JSON text. -/
def decodeInput (file : Except String Json) : Except String Val :=
  file >>= decodeConfig parsers

end

def fieldValue : Output → Json
  | .field _ value => value
  | _ => .null

section

variable (env : ConfigCommands.Env)

def getRemotePinningServices : RepoM (List (String × Val)) := do
  match ← attempt (getConfig env remoteServicesPath) with
  -- a failed read counts as no services
  | .error _ => pure []
  | .ok remoteServicesTag =>
    match fieldValue remoteServicesTag with
    | .obj val => do
        let oldServices ← ofResult (decode (codecs env.repo.parsers) (.obj val)
          (.map remotePinningServiceTy) .nil)
        pure oldServices.entries
    | _ => pure []

def replaceConfig (order : MapOrder) (file : Except String Json) : RepoM Unit :=
  match decodeInput env.repo.parsers file with
  | .error _ => throw "failed to decode file as config"
  | .ok newCfg =>
    if text (privKey env.repo.parsers newCfg) ≠ "" then
      throw "setting private key with API is not supported"
    else do
      let keyF ← ExceptT.adapt (fun _ => "failed to get PrivKey")
        (getConfig env privKeySelector)
      match fieldValue keyF with
      | .str pkstr => do
          let oldServices ← ExceptT.adapt
            (fun e => "failed to load remote pinning services info (" ++ e ++ ")")
            (getRemotePinningServices env)
          let updated ← ofResult (reapply env.repo.parsers order oldServices
            (setPrivKey env.repo.parsers pkstr newCfg))
          setConfigUnsynced env.repo updated
      | _ => throw "private key in config was not a string"

end

/-! ## What is to be kept -/

def storedAt (file : Json) (path : List String) : Option Json :=
  path.foldlM (fun j part => j.members.lookup part) (canon file)

section

variable (parsers : Parsers)

/-- The `API` of a remote service, with its endpoint and its key. -/
def serviceApi (cfg : Val) (name : String) : Option Val :=
  ((remoteServices parsers cfg).entries.lookup name).map (api parsers)

def servicePolicies (cfg : Val) (name : String) : Option Val :=
  ((remoteServices parsers cfg).entries.lookup name).map fun svc =>
    getField (codecs parsers) svc.fields policiesField

/-- The state that `SetConfig` leaves: the config in memory, and the file with all
its sections. -/
structure Stored (cfg : Val) (s : Repo) : Prop where
  config : s.config = cfg
  file : ∃ base, Canonical (.obj base) ∧ s.file = .obj (merge base (toMap parsers cfg))

/-- The config can be read back from what `ToMap` gives, with the same identity and
the same services.  Other sections may come back in another form: a nil `Strings` is
printed as `null` and comes back empty. -/
structure RoundTrips (cfg : Val) : Prop where
  isStruct : ∃ vs, cfg = .struct vs
  readBack : ∃ conf, fromMap parsers (toMap parsers cfg) = .ok conf ∧
    ∀ f ∈ [identityField, pinningField],
      getField (codecs parsers) conf.fields f = getField (codecs parsers) cfg.fields f

/-- **What a replacement leaves.**  The secrets and the names of the services, in
memory and in the file, are those of `s`; everything else is that of the input. -/
structure Replaced (input : Val) (s t : Repo) : Prop where
  privKey : privKey parsers t.config = privKey parsers s.config
  storedPrivKey : storedKey t.file = storedKey s.file
  apis : ∀ name, serviceApi parsers t.config name = serviceApi parsers s.config name
  storedNames : ∀ name, (storedAt t.file ["Pinning", "RemoteServices", name]).isSome =
    (storedAt s.file ["Pinning", "RemoteServices", name]).isSome
  storedApis : ∀ name, storedAt t.file ["Pinning", "RemoteServices", name, "API"] =
    storedAt s.file ["Pinning", "RemoteServices", name, "API"]
  peerID : getField (codecs parsers)
      (getField (codecs parsers) t.config.fields identityField).fields peerIDField =
    getField (codecs parsers)
      (getField (codecs parsers) input.fields identityField).fields peerIDField
  policies : ∀ name, servicePolicies parsers t.config name = servicePolicies parsers input name
  sections : ∀ f ∈ configFields, f.name ≠ "Identity" → f.name ≠ "Pinning" →
    getField (codecs parsers) t.config.fields f = getField (codecs parsers) input.fields f
  written : ∃ m, readMap s.file = .ok m ∧ t.file = .obj (merge m (toMap parsers t.config))

end

/-! ## Reading -/

section Calls

variable (env : FsRepo.Env)

/-- Two calls of the file system that do not fail: the name of the file and the
file. -/
def Readable (n : Nat) : Prop := env.fault n = none ∧ env.fault (n + 1) = none

/-- The calls that have been made after a read. -/
def afterRead (n : Nat) : Nat := if env.fault n = none then n + 2 else n + 1

/-- Three calls that do not fail: the name, the file, and the write. -/
def Writable (n : Nat) : Prop := Readable env n ∧ env.fault (n + 2) = none

end Calls

/-- **How services get lost.**  The read of the stored services fails, all other
calls succeed, and the input has no services where the config has some. -/
structure Lost (env : ConfigCommands.Env) (file : Except String Json) (cfg : Val) (s : Repo) :
    Prop where
  isOpen : s.closed = false
  key : text (privKey env.repo.parsers cfg) ≠ ""
  services : (remoteServices env.repo.parsers cfg).entries ≠ []
  input : ∃ newCfg, decodeInput env.repo.parsers file = .ok newCfg ∧
    text (privKey env.repo.parsers newCfg) = "" ∧
    (remoteServices env.repo.parsers newCfg).entries = []
  readsKey : Readable env.repo s.calls
  missesServices : ¬ Readable env.repo (s.calls + 2)
  writes : Writable env.repo (afterRead env.repo (s.calls + 2))

/-- **What a call is to do.**  If it returns nil, the secrets and the names of the
services are kept and the rest is replaced; if it fails, nothing has changed. -/
structure Keeps (env : ConfigCommands.Env) (order : MapOrder) (file : Except String Json)
    (s : Repo) : Prop where
  replaced : ∀ t, exec (replaceConfig env order file) s = (.ok (), t) →
    ∃ input, decodeInput env.repo.parsers file = .ok input ∧
      Replaced env.repo.parsers input s t
  unchanged : ∀ e t, exec (replaceConfig env order file) s = (.error e, t) →
    t.file = s.file ∧ t.config = s.config

/-! ## The loop over the services -/

section Loop

variable {parsers : Parsers}

/-- A config as decoding gives it: a struct, with its services in order. -/
structure Loaded (parsers : Parsers) (cfg : Val) : Prop where
  fields : ∃ vs, cfg = .struct vs
  pinning : ∃ ps, getField (codecs parsers) cfg.fields pinningField = .struct ps
  increasing : Increasing (remoteServices parsers cfg).entries
  structs : ∀ e ∈ (remoteServices parsers cfg).entries, ∃ vs, e.2 = .struct vs

variable {cfg : Val}

theorem loaded_decodeConfig {j : Json} (h : decodeConfig parsers j = .ok cfg) :
    Loaded parsers cfg where
  fields := by
    obtain ⟨vs, hvs, _⟩ := decodeConfig_fields h
    exact ⟨vs, hvs⟩
  pinning := by
    obtain ⟨vs, rfl, hvs⟩ := decodeConfig_fields h
    obtain ⟨ps, hps, _⟩ := decodeAll_struct (decodeStruct_field unambiguous_configFields
      (show pinningField ∈ configFields by simp [configFields]) hvs)
    exact ⟨ps, hps⟩
  increasing := increasing_remoteServices parsers h
  structs := structs_decodeAll_map (decodeAll_remoteServices parsers h)

theorem remoteServices_setService (name : String) (svc cfg : Val) :
    remoteServices parsers (setService parsers name svc cfg) =
      .map (setKey name svc (remoteServices parsers cfg).entries) := by
  have hpinning : getField (codecs parsers) (setService parsers name svc cfg).fields
      pinningField = .struct (setField "RemoteServices"
        (.map (setKey name svc (remoteServices parsers cfg).entries))
        (getField (codecs parsers) cfg.fields pinningField).fields) :=
    getField_setField_self (f := pinningField) _ _
  rw [remoteServices, hpinning]
  exact getField_setField_self (f := remoteServicesField) _ _

theorem lookup_setService (q name : String) (svc cfg : Val) :
    (remoteServices parsers (setService parsers name svc cfg)).entries.lookup q =
      if q = name then some svc else (remoteServices parsers cfg).entries.lookup q := by
  rw [remoteServices_setService]
  exact lookup_setKey q name svc _

theorem Loaded.setService (h : Loaded parsers cfg) (name : String) (vs : List (String × Val)) :
    Loaded parsers (setService parsers name (.struct vs) cfg) where
  fields := ⟨_, rfl⟩
  pinning := ⟨_, getField_setField_self (f := pinningField) _ _⟩
  increasing := by
    rw [remoteServices_setService]
    exact increasing_setKey name _ h.increasing
  structs := by
    rw [remoteServices_setService]
    intro e he
    rcases mem_setKey he with rfl | he
    · exact ⟨vs, rfl⟩
    · exact h.structs e he

theorem pinning_setPrivKey (pkstr : String) (cfg : Val) :
    getField (codecs parsers) (setPrivKey parsers pkstr cfg).fields pinningField =
      getField (codecs parsers) cfg.fields pinningField :=
  getField_setField_ne (f := pinningField) (g := identityField) (by decide) _ _

theorem remoteServices_setPrivKey (pkstr : String) (cfg : Val) :
    remoteServices parsers (setPrivKey parsers pkstr cfg) = remoteServices parsers cfg := by
  rw [remoteServices, pinning_setPrivKey]
  rfl

theorem Loaded.setPrivKey (h : Loaded parsers cfg) (pkstr : String) :
    Loaded parsers (setPrivKey parsers pkstr cfg) where
  fields := ⟨_, rfl⟩
  pinning := by
    rw [pinning_setPrivKey]
    exact h.pinning
  increasing := by
    rw [remoteServices_setPrivKey]
    exact h.increasing
  structs := by
    rw [remoteServices_setPrivKey]
    exact h.structs

/-- What the loop takes over from the new config. -/
structure Carried (parsers : Parsers) (newCfg updated : Val) : Prop where
  sections : ∀ f : GoJson.Field Ty, f.name ≠ "Pinning" →
    getField (codecs parsers) updated.fields f = getField (codecs parsers) newCfg.fields f
  policies : ∀ name, servicePolicies parsers updated name = servicePolicies parsers newCfg name

theorem api_setApi (svc a : Val) : api parsers (setApi svc a) = a :=
  getField_setField_self (f := apiField) _ _

variable {newCfg : Val}

theorem carried_setService {newSvc : Val} {name : String}
    (hnew : (remoteServices parsers newCfg).entries.lookup name = some newSvc) (a : Val) :
    Carried parsers newCfg (setService parsers name (setApi newSvc a) newCfg) where
  sections := fun f hf => getField_setField_ne (f := f) (g := pinningField) hf _ _
  policies := by
    intro q
    rw [servicePolicies, servicePolicies, lookup_setService]
    by_cases hq : q = name
    · rw [if_pos hq, hq, hnew]
      exact congrArg some
        (getField_setField_ne (f := policiesField) (g := apiField) (by decide) _ _)
    · rw [if_neg hq]

theorem Carried.trans {cfg' cfg'' : Val} (h : Carried parsers cfg cfg')
    (h' : Carried parsers cfg' cfg'') : Carried parsers cfg cfg'' :=
  ⟨fun f hf => (h'.sections f hf).trans (h.sections f hf),
    fun name => (h'.policies name).trans (h.policies name)⟩

theorem serviceApi_setService (q name : String) (svc cfg : Val) :
    serviceApi parsers (setService parsers name svc cfg) q =
      if q = name then some (api parsers svc) else serviceApi parsers cfg q := by
  rw [serviceApi, lookup_setService]
  by_cases hq : q = name
  · rw [if_pos hq, if_pos hq]
    rfl
  · rw [if_neg hq, if_neg hq]
    rfl

/-- **The loop.**  Every old service is in the new config and has its `API` back;
the services that are not among the old ones stay as they are. -/
theorem reapplyServices_ok {old : List (String × Val)} {updated : Val}
    (hnodup : (old.map Prod.fst).Nodup) (hloaded : Loaded parsers newCfg)
    (h : reapplyServices parsers old newCfg = .ok updated) :
    Loaded parsers updated ∧ Carried parsers newCfg updated ∧
      (∀ e ∈ old, e.1 ∈ (remoteServices parsers newCfg).entries.map Prod.fst ∧
        serviceApi parsers updated e.1 = some (api parsers e.2)) ∧
      ∀ name, name ∉ old.map Prod.fst →
        serviceApi parsers updated name = serviceApi parsers newCfg name := by
  induction old generalizing newCfg with
  | nil =>
    cases h
    exact ⟨hloaded, ⟨fun _ _ => rfl, fun _ => rfl⟩, fun e he => (by cases he), fun _ _ => rfl⟩
  | cons e rest ih =>
    obtain ⟨name, oldSvc⟩ := e
    rw [map_cons, nodup_cons] at hnodup
    rw [reapplyServices] at h
    cases hnew : (remoteServices parsers newCfg).entries.lookup name with
    | none =>
      rw [hnew] at h
      cases h
    | some newSvc =>
      rw [hnew] at h
      dsimp only at h
      split at h
      · cases h
      obtain ⟨hup, hcarried, hapis, hothers⟩ :=
        ih hnodup.2 (hloaded.setService name _) h
      have hfirst := carried_setService hnew (api parsers oldSvc)
      refine ⟨hup, hfirst.trans hcarried, fun e he => ?_, fun q hq => ?_⟩
      · rcases mem_cons.mp he with rfl | he
        · refine ⟨mem_of_lookup_eq_some hnew, ?_⟩
          rw [hothers name hnodup.1, serviceApi_setService, if_pos rfl]
          exact congrArg some (api_setApi newSvc _)
        obtain ⟨hmem, hapi⟩ := hapis e he
        refine ⟨?_, hapi⟩
        rw [remoteServices_setService] at hmem
        obtain ⟨e', he', heq⟩ := mem_map.mp hmem
        rcases mem_setKey he' with rfl | he'
        · exact heq ▸ mem_of_lookup_eq_some hnew
        · exact heq ▸ mem_map_of_mem he'
      · rw [map_cons, mem_cons, not_or] at hq
        rw [hothers q hq.2, serviceApi_setService, if_neg hq.1]

/-- **The checks.**  They let the names of the old services pass and no others,
and every service has its old `API` back. -/
theorem reapply_ok {order : MapOrder} {old : List (String × Val)} {updated : Val}
    (hold : Increasing old) (hloaded : Loaded parsers newCfg)
    (h : reapply parsers order old newCfg = .ok updated) :
    Loaded parsers updated ∧ Carried parsers newCfg updated ∧
      ∀ name, serviceApi parsers updated name = (old.lookup name).map (api parsers) := by
  unfold reapply at h
  split at h
  · cases h
  rename_i hlen
  have hperm := order.perm old
  have hnodup : ((order.range old).map Prod.fst).Nodup :=
    (hperm.map Prod.fst).nodup_iff.mpr hold.nodup
  obtain ⟨hup, hcarried, hapis, hothers⟩ := reapplyServices_ok hnodup hloaded h
  refine ⟨hup, hcarried, fun name => ?_⟩
  by_cases hname : name ∈ (order.range old).map Prod.fst
  · obtain ⟨e, he, rfl⟩ := mem_map.mp hname
    rw [(hapis e he).2, lookup_eq_some_of_mem hold.nodup (hperm.mem_iff.mp he)]
    rfl
  -- as many new names as old ones, and all old ones among them
  have hsub : (order.range old).map Prod.fst ⊆
      (remoteServices parsers newCfg).entries.map Prod.fst := by
    intro q hq
    obtain ⟨e, he, rfl⟩ := mem_map.mp hq
    exact (hapis e he).1
  have hle : ((remoteServices parsers newCfg).entries.map Prod.fst).length ≤
      ((order.range old).map Prod.fst).length := by
    rw [length_map, length_map, hperm.length_eq]
    exact le_of_eq (not_not.mp hlen)
  have hnames := (hnodup.subperm hsub).perm_of_length_le hle
  have hgone : name ∉ (remoteServices parsers newCfg).entries.map Prod.fst :=
    fun hmem => hname (hnames.mem_iff.mpr hmem)
  have hgone' : name ∉ old.map Prod.fst :=
    fun hmem => hname ((hperm.map Prod.fst).mem_iff.mpr hmem)
  rw [hothers name hname, serviceApi, lookup_eq_none_of_not_mem hgone,
    lookup_eq_none_of_not_mem hgone']

end Loop

/-! ## What the file holds -/

section Stored

variable {parsers : Parsers} {base : Members} {cfg : Val} {s : Repo}

def servicesText (parsers : Parsers) (cfg : Val) : Json :=
  encode (codecs parsers) (.map remotePinningServiceTy) (remoteServices parsers cfg)

theorem encode_pinning (h : Loaded parsers cfg) :
    canon (encode (codecs parsers) pinningTy
        (getField (codecs parsers) cfg.fields pinningField)) =
      .obj [("RemoteServices", servicesText parsers cfg)] := by
  rw [canon_eq_self (canonical_pinning parsers h.increasing)]
  obtain ⟨ps, hps⟩ := h.pinning
  have htext : servicesText parsers cfg = encode (codecs parsers) (.map remotePinningServiceTy)
      (getField (codecs parsers) ps remoteServicesField) := by
    rw [servicesText, remoteServices, hps]
    rfl
  rw [hps, htext]
  rfl

theorem lookup_pinning_merge (h : Loaded parsers cfg) :
    (merge base (toMap parsers cfg)).lookup "Pinning" =
      some (.obj [("RemoteServices", servicesText parsers cfg)]) := by
  obtain ⟨vs, rfl⟩ := h.fields
  rw [lookup_merge, lookup_pinning_toMap]
  exact congrArg some (encode_pinning h)

theorem canonical_merge_toMap (hbase : Canonical (.obj base)) :
    Canonical (.obj (merge base (toMap parsers cfg))) :=
  canonical_merge hbase (canonicalMembers_toMap parsers cfg)

theorem storedAt_remoteServices (hbase : Canonical (.obj base)) (h : Loaded parsers cfg)
    (path : List String) :
    storedAt (.obj (merge base (toMap parsers cfg))) ("Pinning" :: "RemoteServices" :: path) =
      path.foldlM (fun j part => j.members.lookup part) (servicesText parsers cfg) := by
  rw [storedAt, canon_eq_self (canonical_merge_toMap hbase), foldlM_cons, Json.members,
    lookup_pinning_merge h]
  rfl

theorem lookup_servicesText (cfg : Val) (name : String) :
    (servicesText parsers cfg).members.lookup name =
      ((remoteServices parsers cfg).entries.lookup name).map
        (encode (codecs parsers) remotePinningServiceTy) := by
  unfold servicesText
  cases remoteServices parsers cfg with
  | map es =>
    exact lookup_map_values _ es name
  | _ => rfl

theorem storedAt_service (hbase : Canonical (.obj base)) (h : Loaded parsers cfg) (name : String) :
    storedAt (.obj (merge base (toMap parsers cfg))) ["Pinning", "RemoteServices", name] =
      ((remoteServices parsers cfg).entries.lookup name).map
        (encode (codecs parsers) remotePinningServiceTy) := by
  rw [storedAt_remoteServices hbase h, foldlM_cons, lookup_servicesText]
  cases (remoteServices parsers cfg).entries.lookup name <;> rfl

/-- **The file shows the `API` of each service.** -/
theorem storedAt_api (hbase : Canonical (.obj base)) (h : Loaded parsers cfg) (name : String) :
    storedAt (.obj (merge base (toMap parsers cfg))) ["Pinning", "RemoteServices", name, "API"] =
      (serviceApi parsers cfg name).map (encode (codecs parsers) apiField.ty) := by
  rw [storedAt_remoteServices hbase h, foldlM_cons, lookup_servicesText, serviceApi]
  cases hsvc : (remoteServices parsers cfg).entries.lookup name with
  | none => rfl
  | some svc =>
    obtain ⟨before, after, heq, _⟩ := lookup_eq_some_iff.mp hsvc
    have hmem : (name, svc) ∈ (remoteServices parsers cfg).entries := by
      rw [heq]
      exact mem_append_right _ mem_cons_self
    obtain ⟨vs, rfl⟩ := h.structs _ hmem
    rfl

theorem RoundTrips.loaded (h : RoundTrips parsers cfg) : Loaded parsers cfg := by
  obtain ⟨conf, hconf, hsame⟩ := h.readBack
  have hloaded := loaded_decodeConfig hconf
  have hpinning := hsame pinningField (by simp)
  have hservices : remoteServices parsers conf = remoteServices parsers cfg := by
    rw [remoteServices, hpinning]
    rfl
  exact ⟨h.isStruct, hpinning ▸ hloaded.pinning, hservices ▸ hloaded.increasing,
    hservices ▸ hloaded.structs⟩

theorem decode_servicesText (hround : RoundTrips parsers cfg) :
    decode (codecs parsers) (servicesText parsers cfg) (.map remotePinningServiceTy) .nil =
      .ok (remoteServices parsers cfg) := by
  have hsection := encode_pinning hround.loaded
  obtain ⟨conf, hconf, hsame⟩ := hround.readBack
  obtain ⟨vs, rfl⟩ := hround.isStruct
  have hall := decodeAll_remoteServices parsers hconf
  have hpin : spellings "Pinning" (toMap parsers (.struct vs)) =
      [canon (encode (codecs parsers) pinningTy
        (getField (codecs parsers) vs pinningField))] :=
    spellings_canon_encodeFields (f := pinningField) unambiguous_configFields
      nodup_configFields (by simp [configFields]) rfl
  simp only [Val.fields] at hsection
  rw [Json.members, hpin, hsection, remoteServices, hsame pinningField (by simp)] at hall
  have hone : spellings "RemoteServices" (flatMap Json.members
      [.obj [("RemoteServices", servicesText parsers (.struct vs))]]) =
      [servicesText parsers (.struct vs)] := by
    simp [spellings, equalFold, Json.members]
  rw [hone, decodeAll, foldlM_cons] at hall
  obtain ⟨v, hv, hrest⟩ := bind_eq_ok.mp hall
  cases hrest
  exact hv

theorem identity_of_roundTrips (hround : RoundTrips parsers cfg) :
    ∃ vs ws d, cfg = .struct vs ∧
      getField (codecs parsers) vs identityField = .struct ws ∧
      getField (codecs parsers) ws privKeyField = .str d ∧
      privKey parsers cfg = .str d := by
  obtain ⟨conf, hconf, hsame⟩ := hround.readBack
  obtain ⟨vs, rfl⟩ := hround.isStruct
  obtain ⟨ws, hident, hkey⟩ := identity_fromMap hconf
  rw [hsame identityField (by simp)] at hident
  refine ⟨vs, ws, _, rfl, hident, hkey, ?_⟩
  unfold privKey
  rw [hident]
  exact hkey

end Stored

/-! ## The calls -/

section Reads

variable {env : ConfigCommands.Env} {s : Repo} {m : Members} {key : String}

theorem exec_getConfigKey_readable (hopen : s.closed = false)
    (hread : Readable env.repo s.calls) (hm : readMap s.file = .ok m) :
    exec (getConfigKey env.repo key) s = (mapGetKV m key, { s with calls := s.calls + 2 }) := by
  unfold getConfigKey
  rw [exec_get_bind, if_neg (by simp [hopen]), exec_bind, exec_fsCall, hread.1]
  dsimp only
  rw [exec_bind, exec_readConfigFile, hread.2, hm]
  dsimp only
  cases mapGetKV m key <;> rfl

theorem exec_getConfigKey_unreadable (key : String) (hopen : s.closed = false)
    (hread : ¬ Readable env.repo s.calls) :
    ∃ e, exec (getConfigKey env.repo key) s =
      (.error e, { s with calls := afterRead env.repo s.calls }) := by
  unfold getConfigKey afterRead
  rw [exec_get_bind, if_neg (by simp [hopen]), exec_bind, exec_fsCall]
  cases hfind : env.repo.fault s.calls with
  | some msg => exact ⟨msg, rfl⟩
  | none =>
    dsimp only
    rw [exec_bind, exec_readConfigFile]
    cases hfile : env.repo.fault (s.calls + 1) with
    | some msg => exact ⟨msg, rfl⟩
    | none => exact absurd ⟨hfind, hfile⟩ hread

theorem exec_getConfig (s : Repo) :
    exec (getConfig env key) s =
      match exec (getConfigKey env.repo key) s with
      | (.ok value, t) => (.ok (.field key value), t)
      | (.error e, t) => (.error ("failed to get config value: " ++ quoted e), t) := by
  unfold getConfig
  rw [exec_bind, exec_adapt]
  rcases exec (getConfigKey env.repo key) s with ⟨r, t⟩
  cases r <;> rfl

theorem exec_getConfig_closed (hclosed : s.closed = true) :
    exec (getConfig env key) s =
      (.error ("failed to get config value: " ++ quoted "repo is closed"), s) := by
  rw [exec_getConfig]
  unfold getConfigKey
  rw [exec_get_bind, if_pos hclosed]
  rfl

end Reads

theorem Stored.readMap {parsers : Parsers} {cfg : Val} {s : Repo} (h : Stored parsers cfg s) :
    ∃ base, Canonical (.obj base) ∧ s.file = .obj (merge base (toMap parsers cfg)) ∧
      FsRepo.readMap s.file = .ok (merge base (toMap parsers cfg)) := by
  obtain ⟨base, hbase, hfile⟩ := h.file
  refine ⟨base, hbase, hfile, ?_⟩
  rw [hfile]
  exact congrArg Except.ok (canonMembers_of_canonical (canonical_merge_toMap hbase))

section Services

variable {env : ConfigCommands.Env} {cfg : Val} {s : Repo}

theorem splitKey_remoteServicesPath :
    splitKey remoteServicesPath = ["Pinning", "RemoteServices"] := by
  decide

theorem mapGetKV_remoteServices {parsers : Parsers} {base : Members} (h : Loaded parsers cfg) :
    mapGetKV (merge base (toMap parsers cfg)) remoteServicesPath =
      .ok (servicesText parsers cfg) := by
  unfold mapGetKV
  rw [splitKey_remoteServicesPath, getParts, lookup_pinning_merge h]
  rfl

theorem getRemotePinningServices_readable (hstored : Stored env.repo.parsers cfg s)
    (hround : RoundTrips env.repo.parsers cfg) (hopen : s.closed = false)
    (hread : Readable env.repo s.calls) :
    exec (getRemotePinningServices env) s =
      (.ok (remoteServices env.repo.parsers cfg).entries, { s with calls := s.calls + 2 }) := by
  obtain ⟨base, _, _, hmap⟩ := hstored.readMap
  have hdecode := decode_servicesText hround
  unfold getRemotePinningServices
  rw [exec_bind, exec_attempt, exec_getConfig, exec_getConfigKey_readable hopen hread hmap,
    mapGetKV_remoteServices hround.loaded]
  simp only [fieldValue]
  unfold servicesText at hdecode ⊢
  cases hval : remoteServices env.repo.parsers cfg with
  | map es =>
    rw [hval, encode] at hdecode
    rw [encode]
    rw [exec_ofResult_bind, hdecode]
    rfl
  | _ => rfl

theorem getRemotePinningServices_unreadable (hopen : s.closed = false)
    (hread : ¬ Readable env.repo s.calls) :
    exec (getRemotePinningServices env) s =
      (.ok [], { s with calls := afterRead env.repo s.calls }) := by
  obtain ⟨e, he⟩ := exec_getConfigKey_unreadable remoteServicesPath hopen hread
  unfold getRemotePinningServices
  rw [exec_bind, exec_attempt, exec_getConfig, he]
  rfl

end Services

/-! ## The whole call -/

section Replace

variable {env : ConfigCommands.Env} {order : MapOrder} {file : Except String Json}
  {cfg newCfg updated : Val} {s t u : Repo} {d : String}

variable {parsers : Parsers}

theorem identity_setPrivKey (pkstr : String) (cfg : Val) :
    getField (codecs parsers) (setPrivKey parsers pkstr cfg).fields identityField =
      .struct (setField "PrivKey" (.str pkstr)
        (getField (codecs parsers) cfg.fields identityField).fields) :=
  getField_setField_self (f := identityField) _ _

/-- **A config that passes the checks against the stored services.** -/
theorem replaced_of_reapply (hstored : Stored parsers cfg s) (hround : RoundTrips parsers cfg)
    (hkey : privKey parsers cfg = .str d) (hnew : Loaded parsers newCfg)
    (h : reapply parsers order (remoteServices parsers cfg).entries (setPrivKey parsers d newCfg) =
      .ok updated)
    (hconfig : t.config = updated)
    (hfile : ∃ m, readMap s.file = .ok m ∧ t.file = .obj (merge m (toMap parsers updated))) :
    Replaced parsers newCfg s t := by
  subst hconfig
  have hold := hround.loaded
  obtain ⟨hup, hcarried, hapis⟩ := reapply_ok hold.increasing (hnew.setPrivKey d) h
  obtain ⟨base, hbase, hsfile, _⟩ := hstored.readMap
  obtain ⟨m, hm, htfile⟩ := hfile
  have hcanon := canonical_readMap hm
  obtain ⟨vs, ws, d', rfl, hident, hd', hkey'⟩ := identity_of_roundTrips hround
  obtain rfl : d' = d := by
    rw [hkey'] at hkey
    injection hkey
  obtain ⟨vs', hvs'⟩ := hup.fields
  have hident' := (hcarried.sections identityField (by decide)).trans
    (identity_setPrivKey d' newCfg)
  have hpriv : getField (codecs parsers) (setField "PrivKey" (.str d')
      (getField (codecs parsers) newCfg.fields identityField).fields) privKeyField = .str d' :=
    getField_setField_self (f := privKeyField) _ _
  have hserviceApi : ∀ name, serviceApi parsers t.config name =
      serviceApi parsers (.struct vs) name := hapis
  refine
    { privKey := ?_, storedPrivKey := ?_, apis := ?_, storedNames := ?_, storedApis := ?_,
      peerID := ?_, policies := ?_, sections := ?_, written := ⟨m, hm, htfile⟩ }
  · rw [hstored.config, hkey']
    unfold Config.privKey
    rw [hident']
    exact hpriv
  · rw [htfile, hsfile, storedKey_merge_struct hbase hident hd', hvs']
    rw [hvs'] at hident'
    exact storedKey_merge_struct hcanon hident' hpriv
  · intro name
    rw [hstored.config]
    exact hserviceApi name
  · intro name
    have hsome := congrArg Option.isSome (hserviceApi name)
    rw [htfile, hsfile, storedAt_service hcanon hup, storedAt_service hbase hold]
    simpa only [serviceApi, Option.isSome_map] using hsome
  · intro name
    rw [htfile, hsfile, storedAt_api hcanon hup, storedAt_api hbase hold, hserviceApi name]
  · rw [hident']
    exact getField_setField_ne (f := peerIDField) (g := privKeyField) (by decide) _ _
  · intro name
    rw [hcarried.policies name, servicePolicies, servicePolicies, remoteServices_setPrivKey]
  · intro f _ hidentity hpinning
    rw [hcarried.sections f hpinning]
    exact getField_setField_ne (f := f) (g := identityField) hidentity _ _

/-- The call after both reads. -/
def finish (env : ConfigCommands.Env) (order : MapOrder) (old : List (String × Val))
    (newCfg : Val) : RepoM Unit := do
  let updated ← ofResult (reapply env.repo.parsers order old newCfg)
  setConfigUnsynced env.repo updated

theorem mapGetKV_privKey {m : Members} (hstored : Stored parsers cfg s)
    (hround : RoundTrips parsers cfg) (hkey : privKey parsers cfg = .str d)
    (hm : readMap s.file = .ok m) :
    (mapGetKV m privKeySelector).toOption = if d = "" then none else some (.str d) := by
  obtain ⟨base, hbase, hfile, _⟩ := hstored.readMap
  obtain ⟨vs, ws, d', rfl, hident, hd', hkey'⟩ := identity_of_roundTrips hround
  obtain rfl : d' = d := by
    rw [hkey'] at hkey
    injection hkey
  rw [← storedKey_of_readMap hm, hfile]
  exact storedKey_merge_struct hbase hident hd'

/-- **Reading the private key** succeeds exactly when the repo is open, the file can
be read and the key is not empty. -/
theorem getConfig_privKey_cases (hstored : Stored env.repo.parsers cfg s)
    (hround : RoundTrips env.repo.parsers cfg) (hkey : privKey env.repo.parsers cfg = .str d) :
    ((s.closed = false ∧ Readable env.repo s.calls ∧ d ≠ "") ∧
        exec (getConfig env privKeySelector) s =
          (.ok (.field privKeySelector (.str d)), { s with calls := s.calls + 2 })) ∨
      ¬ (s.closed = false ∧ Readable env.repo s.calls ∧ d ≠ "") ∧
        ∃ e t, exec (getConfig env privKeySelector) s = (.error e, t) ∧ Same s t := by
  by_cases hclosed : s.closed = true
  · refine .inr ⟨fun h => ?_, _, s, exec_getConfig_closed hclosed, rfl, rfl⟩
    rw [hclosed] at h
    cases h.1
  have hopen : s.closed = false := Bool.eq_false_iff.mpr hclosed
  by_cases hread : Readable env.repo s.calls
  · obtain ⟨base, _, _, hmap⟩ := hstored.readMap
    have hget := mapGetKV_privKey hstored hround hkey hmap
    rw [exec_getConfig, exec_getConfigKey_readable hopen hread hmap]
    cases hval : mapGetKV (merge base (toMap env.repo.parsers cfg)) privKeySelector with
    | error e =>
      rw [hval] at hget
      refine .inr ⟨fun h => ?_, _, _, rfl, rfl, rfl⟩
      rw [if_neg h.2.2] at hget
      cases hget
    | ok v =>
      rw [hval] at hget
      by_cases hd : d = ""
      · rw [if_pos hd] at hget
        cases hget
      · rw [if_neg hd] at hget
        obtain rfl := Option.some.inj hget
        exact .inl ⟨⟨hopen, hread, hd⟩, rfl⟩
  · obtain ⟨e, he⟩ := exec_getConfigKey_unreadable privKeySelector hopen hread
    refine .inr ⟨fun h => hread h.2.1, ?_⟩
    rw [exec_getConfig, he]
    exact ⟨_, _, rfl, rfl, rfl⟩

/-- What the checks before the second read ask for. -/
structure Passes (env : ConfigCommands.Env) (file : Except String Json) (cfg newCfg : Val)
    (s : Repo) (d : String) : Prop where
  input : decodeInput env.repo.parsers file = .ok newCfg
  noKey : text (privKey env.repo.parsers newCfg) = ""
  key : privKey env.repo.parsers cfg = .str d
  readsKey : s.closed = false ∧ Readable env.repo s.calls ∧ d ≠ ""

/-- **The checks before the second read.**  They fail and leave the repo as it is,
or go on with the stored key. -/
theorem replaceConfig_cases (order : MapOrder) (file : Except String Json)
    (hstored : Stored env.repo.parsers cfg s) (hround : RoundTrips env.repo.parsers cfg) :
    (¬ Lost env file cfg s ∧
        ∃ e t, exec (replaceConfig env order file) s = (.error e, t) ∧ Same s t) ∨
      ∃ newCfg d, Passes env file cfg newCfg s d ∧
        exec (replaceConfig env order file) s =
          exec (ExceptT.adapt
              (fun e => "failed to load remote pinning services info (" ++ e ++ ")")
              (getRemotePinningServices env) >>= fun oldServices =>
            finish env order oldServices (setPrivKey env.repo.parsers d newCfg))
            { s with calls := s.calls + 2 } := by
  obtain ⟨_, _, d, _, _, _, hkey⟩ := identity_of_roundTrips hround
  unfold replaceConfig
  cases hdec : decodeInput env.repo.parsers file with
  | error e =>
    refine .inl ⟨fun hlost => ?_, _, s, rfl, rfl, rfl⟩
    obtain ⟨newCfg, hok, _⟩ := hlost.input
    rw [hdec] at hok
    cases hok
  | ok newCfg =>
    simp only
    by_cases hnokey : text (privKey env.repo.parsers newCfg) = ""
    · rw [if_neg (not_not.mpr hnokey), exec_bind, exec_adapt]
      rcases getConfig_privKey_cases hstored hround hkey with
        ⟨hreads, hget⟩ | ⟨hnot, e, t, hget, hsame⟩
      · rw [hget]
        exact .inr ⟨newCfg, d, ⟨hdec, hnokey, hkey, hreads⟩, rfl⟩
      · rw [hget]
        refine .inl ⟨fun hlost => hnot ⟨hlost.isOpen, hlost.readsKey, ?_⟩, _, t, rfl, hsame⟩
        have hne := hlost.key
        rw [hkey] at hne
        exact hne
    · rw [if_pos hnokey]
      refine .inl ⟨fun hlost => ?_, _, s, rfl, rfl, rfl⟩
      obtain ⟨newCfg', hok, hno, _⟩ := hlost.input
      rw [hdec] at hok
      cases hok
      exact hnokey hno

theorem loaded_decodeInput (h : decodeInput env.repo.parsers file = .ok newCfg) :
    Loaded env.repo.parsers newCfg := by
  obtain ⟨j, _, hj⟩ := bind_eq_ok.mp h
  exact loaded_decodeConfig hj

theorem keeps_of_error {e : String} (hexec : exec (replaceConfig env order file) s = (.error e, t))
    (hsame : Same s t) : Keeps env order file s := by
  refine ⟨fun t' ht' => ?_, fun e' t' ht' => ?_⟩
  · rw [hexec] at ht'
    cases ht'
  · rw [hexec] at ht'
    cases ht'
    exact hsame

theorem keeps_of_finish (hstored : Stored env.repo.parsers cfg s)
    (hround : RoundTrips env.repo.parsers cfg) (hpass : Passes env file cfg newCfg s d)
    (hsame : Same s u)
    (hexec : exec (replaceConfig env order file) s =
      exec (finish env order (remoteServices env.repo.parsers cfg).entries
        (setPrivKey env.repo.parsers d newCfg)) u) : Keeps env order file s := by
  unfold finish at hexec
  rw [exec_ofResult_bind] at hexec
  cases hre : reapply env.repo.parsers order (remoteServices env.repo.parsers cfg).entries
      (setPrivKey env.repo.parsers d newCfg) with
  | error e =>
    rw [hre] at hexec
    exact keeps_of_error hexec hsame
  | ok updated =>
    rw [hre] at hexec
    have hwp : Wp (Same s) (setConfigUnsynced env.repo updated) _ u := setConfigUnsynced_wp
      (fun t ht => ⟨ht.1.trans hsame.1, ht.2.trans hsame.2⟩) updated
    refine ⟨fun t ht => ?_, fun e t ht => ?_⟩
    · rw [hexec] at ht
      obtain ⟨hconfig, m, hm, hfile⟩ := hwp.ok ht
      rw [hsame.1] at hm
      exact ⟨newCfg, hpass.input, replaced_of_reapply hstored hround hpass.key
        (loaded_decodeInput hpass.input) hre hconfig ⟨m, hm, hfile⟩⟩
    · rw [hexec] at ht
      exact hwp.error ht

theorem reapply_nil (parsers : Parsers) (order : MapOrder) (newCfg : Val) :
    ((remoteServices parsers newCfg).entries = [] ∧
        reapply parsers order [] newCfg = .ok newCfg) ∨
      (remoteServices parsers newCfg).entries ≠ [] ∧
        ∃ e, reapply parsers order [] newCfg = .error e := by
  unfold reapply
  by_cases hnil : (remoteServices parsers newCfg).entries = []
  · have hrange : order.range [] = [] := (order.perm []).eq_nil
    rw [hnil, if_neg (by simp), hrange]
    exact .inl ⟨rfl, rfl⟩
  · rw [if_pos (by simpa using hnil)]
    exact .inr ⟨hnil, _, rfl⟩

theorem setConfigFails_iff_not_writable (env : FsRepo.Env) {m : Members} {n : Nat}
    (hm : readMap s.file = .ok m) :
    ConfigEdits.SetConfigFails env { s with calls := n } ↔ ¬ Writable env n := by
  have hmap : ¬ ∀ m, readMap s.file ≠ .ok m := fun h => h m hm
  unfold ConfigEdits.SetConfigFails Writable Readable
  tauto

theorem not_replaced_of_no_services (hstored : Stored parsers cfg s)
    (hservices : (remoteServices parsers cfg).entries ≠ [])
    (hnone : (remoteServices parsers t.config).entries = []) : ¬ Replaced parsers newCfg s t := by
  intro h
  obtain ⟨e, rest, heq⟩ := exists_cons_of_ne_nil hservices
  have hapi := h.apis e.1
  rw [hstored.config, serviceApi, serviceApi, hnone, heq, lookup_cons, if_pos rfl] at hapi
  cases hapi

theorem keeps_iff_of_unread (hstored : Stored env.repo.parsers cfg s)
    (hround : RoundTrips env.repo.parsers cfg) (hpass : Passes env file cfg newCfg s d)
    (hread : ¬ Readable env.repo (s.calls + 2))
    (hexec : exec (replaceConfig env order file) s =
      exec (finish env order [] (setPrivKey env.repo.parsers d newCfg))
        { s with calls := afterRead env.repo (s.calls + 2) }) :
    Keeps env order file s ↔ ¬ Lost env file cfg s := by
  obtain ⟨hopen, hreadsKey, hd⟩ := hpass.readsKey
  obtain ⟨_, _, _, hm⟩ := hstored.readMap
  by_cases hservices : (remoteServices env.repo.parsers cfg).entries = []
  · rw [← hservices] at hexec
    exact ⟨fun _ hlost => hlost.services hservices,
      fun _ => keeps_of_finish (u := { s with calls := afterRead env.repo (s.calls + 2) })
        hstored hround hpass ⟨rfl, rfl⟩ hexec⟩
  unfold finish at hexec
  rw [exec_ofResult_bind] at hexec
  rcases reapply_nil env.repo.parsers order
    (setPrivKey env.repo.parsers d newCfg) with ⟨hnil, hre⟩ | ⟨hnil, e, hre⟩
  · rw [hre] at hexec
    rw [remoteServices_setPrivKey] at hnil
    have hfails := (ConfigEdits.setConfigUnsynced_fails_iff
      (setPrivKey env.repo.parsers d newCfg)).trans
      (setConfigFails_iff_not_writable env.repo
        (n := afterRead env.repo (s.calls + 2)) hm)
    have hwp : Wp (Same s) (setConfigUnsynced env.repo (setPrivKey env.repo.parsers d newCfg))
        _ { s with calls := afterRead env.repo (s.calls + 2) } :=
      setConfigUnsynced_wp (s := { s with calls := afterRead env.repo (s.calls + 2) })
        (fun t ht => ht) _
    rcases hrun : exec (replaceConfig env order file) s with ⟨r, t⟩
    have hset := hexec.symm.trans hrun
    cases r with
    | error e =>
      have hunwritable := hfails.mp ⟨e, t, hset⟩
      exact ⟨fun _ hlost => hunwritable hlost.writes, fun _ => keeps_of_error hrun (hwp.error hset)⟩
    | ok a =>
      -- the write succeeds, so the services are gone
      have hwritable : Writable env.repo (afterRead env.repo (s.calls + 2)) := by
        by_contra hnot
        obtain ⟨e, t', ht'⟩ := hfails.mpr hnot
        have hboth := hset.symm.trans ht'
        cases hboth
      have hlost : Lost env file cfg s :=
        { isOpen := hopen
          key := by
            rw [hpass.key]
            exact hd
          services := hservices
          input := ⟨newCfg, hpass.input, hpass.noKey, hnil⟩
          readsKey := hreadsKey
          missesServices := hread
          writes := hwritable }
      refine ⟨fun hkeeps => ?_, fun hnot => absurd hlost hnot⟩
      obtain ⟨input, _, hreplaced⟩ := hkeeps.replaced t hrun
      have hnone : (remoteServices env.repo.parsers t.config).entries = [] := by
        rw [(hwp.ok hset).1, remoteServices_setPrivKey]
        exact hnil
      exact absurd hreplaced (not_replaced_of_no_services hstored hservices hnone)
  · rw [hre] at hexec
    rw [remoteServices_setPrivKey] at hnil
    refine ⟨fun _ hlost => ?_, fun _ => keeps_of_error hexec ⟨rfl, rfl⟩⟩
    obtain ⟨newCfg', hok, _, hempty⟩ := hlost.input
    rw [hpass.input] at hok
    cases hok
    exact hnil hempty

/-- **`config replace` keeps secrets and services unless the services cannot be
read.**  The repo has a stored config that can be read back.  Whatever the input,
the call does what it is to do exactly when it does not take a failed read of the
stored services for an empty map. -/
theorem replaceConfig_keeps_iff (env : ConfigCommands.Env) (order : MapOrder)
    (file : Except String Json) (cfg : Val) (s : Repo)
    (hstored : Stored env.repo.parsers cfg s) (hround : RoundTrips env.repo.parsers cfg) :
    Keeps env order file s ↔ ¬ Lost env file cfg s := by
  rcases replaceConfig_cases order file hstored hround with
    ⟨hnot, e, t, hexec, hsame⟩ | ⟨newCfg, d, hpass, hexec⟩
  · exact ⟨fun _ => hnot, fun _ => keeps_of_error hexec hsame⟩
  have hopen := hpass.readsKey.1
  have hstored' : Stored env.repo.parsers cfg { s with calls := s.calls + 2 } :=
    ⟨hstored.config, hstored.file⟩
  rw [exec_bind, exec_adapt] at hexec
  by_cases hread : Readable env.repo (s.calls + 2)
  · rw [getRemotePinningServices_readable hstored' hround hopen hread] at hexec
    exact ⟨fun _ hlost => hlost.missesServices hread,
      fun _ => keeps_of_finish (u := { s with calls := s.calls + 4 }) hstored hround hpass
        ⟨rfl, rfl⟩ hexec⟩
  · rw [getRemotePinningServices_unreadable (s := { s with calls := s.calls + 2 })
      hopen hread] at hexec
    exact keeps_iff_of_unread hstored hround hpass hread hexec

end Replace

/-! ## A lost service -/

/-- A config with a private key and one remote pinning service. -/
def serviceConfig : Val :=
  (fromMap noParsers [("Identity", .obj [("PeerID", .str "Qm"), ("PrivKey", .str "pk")]),
    ("Pinning", .obj [("RemoteServices", .obj [("svc", .obj [
      ("API", .obj [("Endpoint", .str "https://svc"), ("Key", .str "key")])])])])]).toOption.getD
    .nil

def storedRepo : Repo where
  file := .obj (merge [] (toMap noParsers serviceConfig))
  config := serviceConfig
  closed := false
  calls := 0

/-- The listed calls of the file system fail. -/
def failingAt (calls : List Nat) : ConfigCommands.Env where
  repo := ⟨noParsers, fun n => if n ∈ calls then some "too many open files" else none⟩
  folding := asciiFolding
  openStores := fun _ => none
  profiles := fun _ => none

def inOrder : MapOrder := ⟨id, fun _ => List.Perm.refl _⟩

theorem stored_storedRepo : Stored noParsers serviceConfig storedRepo :=
  ⟨rfl, [], canonical_canonMembers [], rfl⟩

theorem roundTrips_serviceConfig : RoundTrips noParsers serviceConfig where
  isStruct := ⟨serviceConfig.fields, by decide +kernel⟩
  readBack := by
    have hcheck : (fromMap noParsers (toMap noParsers serviceConfig)).toOption.any (fun conf =>
        decide (∀ f ∈ [identityField, pinningField],
          getField (codecs noParsers) conf.fields f =
            getField (codecs noParsers) serviceConfig.fields f)) = true := by
      decide +kernel
    cases hconf : fromMap noParsers (toMap noParsers serviceConfig) with
    | error e =>
      rw [hconf] at hcheck
      cases hcheck
    | ok conf =>
      rw [hconf] at hcheck
      exact ⟨conf, rfl, of_decide_eq_true hcheck⟩

/-- **A failed read loses the services.**  The file cannot be opened for the second
read; replacing the config by an empty one returns nil, and the service is gone. -/
theorem replaceConfig_loses_services :
    Stored noParsers serviceConfig storedRepo ∧ RoundTrips noParsers serviceConfig ∧
      (exec (replaceConfig (failingAt [3]) inOrder (.ok (.obj []))) storedRepo).1 = .ok () ∧
      (remoteServices noParsers storedRepo.config).entries ≠ [] ∧
      (remoteServices noParsers (exec (replaceConfig (failingAt [3]) inOrder (.ok (.obj [])))
        storedRepo).2.config).entries = [] ∧
      ¬ Keeps (failingAt [3]) inOrder (.ok (.obj [])) storedRepo := by
  have hok : (exec (replaceConfig (failingAt [3]) inOrder (.ok (.obj []))) storedRepo).1 =
      .ok () := by
    decide +kernel
  have hservices : (remoteServices noParsers storedRepo.config).entries ≠ [] := by
    decide +kernel
  have hnone : (remoteServices noParsers (exec (replaceConfig (failingAt [3]) inOrder
      (.ok (.obj []))) storedRepo).2.config).entries = [] := by
    decide +kernel
  refine ⟨stored_storedRepo, roundTrips_serviceConfig, hok, hservices, hnone, fun hkeeps => ?_⟩
  rcases hrun : exec (replaceConfig (failingAt [3]) inOrder (.ok (.obj []))) storedRepo with ⟨r, t⟩
  rw [hrun] at hok hnone
  obtain rfl : r = .ok () := hok
  obtain ⟨input, _, hreplaced⟩ := hkeeps.replaced t hrun
  exact not_replaced_of_no_services stored_storedRepo hservices hnone hreplaced

/-- Without failures, an input that names the service and changes its policy replaces
the config. -/
theorem replaceConfig_keeps_iff_policy :
    (exec (replaceConfig (failingAt []) inOrder (.ok (.obj [("Pinning", .obj [
      ("RemoteServices", .obj [("svc", .obj [("Policies", .obj [("MFS", .obj [
        ("Enable", .bool true)])])])])])]))) storedRepo).1 = .ok () ∧
      Keeps (failingAt []) inOrder (.ok (.obj [("Pinning", .obj [
        ("RemoteServices", .obj [("svc", .obj [("Policies", .obj [("MFS", .obj [
          ("Enable", .bool true)])])])])])])) storedRepo := by
  refine ⟨by decide +kernel, ?_⟩
  refine (replaceConfig_keeps_iff (failingAt []) inOrder _ serviceConfig storedRepo
    stored_storedRepo roundTrips_serviceConfig).mpr fun hlost => ?_
  exact hlost.missesServices ⟨rfl, rfl⟩

end ConfigReplace
