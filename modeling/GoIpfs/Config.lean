import GoIpfs.GoStruct

/-!
# The config file

`go-ipfs-config` keeps the configuration in the struct `Config`, whose type is
`configTy` here with all its sections.  The file holds a JSON object, which may
have members that are no fields; the commands that get and set single keys work
on that object as nested maps (`repo/common`).

The types with their own JSON form are the cases of `CustomTy`.  What needs the
parsers of other packages, durations and multiaddrs, is left to `Parsers`.
-/

namespace Config

open GoJson

inductive CustomTy where
  | strings
  | flag
  | priority
  | optionalDuration
  | optionalInteger
  | optionalString
  | autoNATServiceMode
  | addrInfo
  deriving DecidableEq, Repr

abbrev Ty := GoTy CustomTy

/-- The parsers of other packages; each returns what the value is printed as. -/
structure Parsers where
  parseDuration : String → Except String String
  addrInfo : Json → Except String Json

def kindName : Json → String
  | .null => "null"
  | .bool _ => "bool"
  | .num _ => "number"
  | .str _ => "string"
  | .arr _ => "array"
  | .obj _ => "object"

/-- The JSON form of a value that is kept as such. -/
def plain : Val → Json
  | .json j => j
  | _ => .null

/-- `Strings`: one string stands for a list of one. -/
def stringsCodec : Codec where
  zero := .nil
  unmarshal
    | .arr items, prev => decode (fun k : Empty => nomatch k) (.arr items) (.slice .string) prev
    | .str s, _ => .ok (.slice (if s = "" then [] else [.str s]))
    | .null, _ => .ok (.slice [])
    | j, _ => mismatch (kindName j)
  marshal
    | .slice [.str s] => .str s
    | .slice (v :: w :: rest) =>
      encode (fun k : Empty => nomatch k) (.slice .string) (.slice (v :: w :: rest))
    | _ => .null
  isEmpty v := v.items.isEmpty

/-- `Flag`: true, false or the default. -/
def flagCodec : Codec where
  zero := .json .null
  unmarshal
    | .null, _ => .ok (.json .null)
    | .bool b, _ => .ok (.json (.bool b))
    | _, _ => .error "failed to unmarshal into a flag: must be null/undefined, true, or false"
  marshal := plain
  isEmpty v := kindName (plain v) = "null"

/-- `Priority`: a positive number, false or the default. -/
def priorityCodec : Codec where
  zero := .json .null
  unmarshal
    | .null, _ => .ok (.json .null)
    | .bool false, _ => .ok (.json (.bool false))
    | .bool true, _ => .error "'true' is not a valid priority"
    | .num text, _ =>
      match goInt text with
      | none => mismatch ("number " ++ text)
      | some i =>
        if i ≤ 0 then .error ("priority must be positive: " ++ toString i ++ " <= 0")
        else .ok (.json (.num (toString i)))
    | j, _ => mismatch (kindName j)
  marshal := plain
  isEmpty v := kindName (plain v) = "null"

def optionalDurationCodec (parsers : Parsers) : Codec where
  zero := .json .null
  unmarshal
    | .null, _ => .ok (.json .null)
    | .str s, _ =>
      if s = "null" ∨ s = "" ∨ s = "default" then .ok (.json .null)
      else (fun text => .json (.str text)) <$> parsers.parseDuration s
    | .num text, _ => (fun text => .json (.str text)) <$> parsers.parseDuration text
    | _, _ => .error "time: invalid duration"
  marshal := plain
  isEmpty _ := false

def optionalIntegerCodec : Codec where
  zero := .json .null
  unmarshal
    | .null, _ => .ok (.json .null)
    | .num text, _ =>
      match goInt text with
      | none => mismatch ("number " ++ text)
      | some i => .ok (.json (.num (toString i)))
    | j, _ => mismatch (kindName j)
  marshal := plain
  isEmpty _ := false

def optionalStringCodec : Codec where
  zero := .json .null
  unmarshal
    | .null, _ => .ok (.json .null)
    | .str s, _ => .ok (.json (.str s))
    | j, _ => mismatch (kindName j)
  marshal := plain
  isEmpty _ := false

/-- `AutoNATServiceMode`, which has a text form; `null` leaves it alone. -/
def autoNATServiceModeCodec : Codec where
  zero := .json (.str "")
  unmarshal
    | .null, prev => .ok prev
    | .str s, _ =>
      if s = "" ∨ s = "enabled" ∨ s = "disabled" then .ok (.json (.str s))
      else .error ("unknown autonat mode: " ++ s)
    | j, _ => mismatch (kindName j)
  marshal := plain
  isEmpty v := (plain v).string? = some ""

def addrInfoCodec (parsers : Parsers) : Codec where
  zero := .json .null
  unmarshal j _ := (fun j => .json j) <$> parsers.addrInfo j
  marshal := plain
  isEmpty _ := false

/-- The types with methods of their own. -/
def codecs (parsers : Parsers) : CustomTy → Codec
  | .strings => stringsCodec
  | .flag => flagCodec
  | .priority => priorityCodec
  | .optionalDuration => optionalDurationCodec parsers
  | .optionalInteger => optionalIntegerCodec
  | .optionalString => optionalStringCodec
  | .autoNATServiceMode => autoNATServiceModeCodec
  | .addrInfo => addrInfoCodec parsers

def field (name : String) (ty : Ty) : GoJson.Field Ty := ⟨name, false, ty⟩

/-- A field with `omitempty`. -/
def omitted (name : String) (ty : Ty) : GoJson.Field Ty := ⟨name, true, ty⟩

def strings : Ty := .slice .string

def flag (name : String) : GoJson.Field Ty := omitted name (.custom .flag)

def peerIDField : GoJson.Field Ty := field "PeerID" .string

def privKeyField : GoJson.Field Ty := omitted "PrivKey" .string

def identityTy : Ty := .struct [peerIDField, privKeyField]

def datastoreTy : Ty := .struct [
  field "StorageMax" .string, field "StorageGCWatermark" .int, field "GCPeriod" .string,
  omitted "Type" .string, omitted "Path" .string, omitted "NoSync" .bool,
  omitted "Params" (.ptr .raw), field "Spec" (.map .any), field "HashOnRead" .bool,
  field "BloomFilterSize" .int]

def addressesTy : Ty := .struct [
  field "Swarm" strings, field "Announce" strings, field "AppendAnnounce" strings,
  field "NoAnnounce" strings, field "API" (.custom .strings),
  field "Gateway" (.custom .strings)]

def mountsTy : Ty := .struct [
  field "IPFS" .string, field "IPNS" .string, field "FuseAllowOther" .bool]

def discoveryTy : Ty := .struct [
  field "MDNS" (.struct [field "Enabled" .bool, field "Interval" .int])]

def ipnsTy : Ty := .struct [field "RepublishPeriod" .string, field "RecordLifetime" .string,
  field "ResolveCacheSize" .int, flag "UsePubsub"]

def gatewaySpecTy : Ty := .struct [
  field "Paths" strings, field "UseSubdomains" .bool, field "NoDNSLink" .bool]

def gatewayTy : Ty := .struct [
  field "HTTPHeaders" (.map strings), field "RootRedirect" .string, field "Writable" .bool,
  field "PathPrefixes" strings, field "APICommands" strings, field "NoFetch" .bool,
  field "NoDNSLink" .bool, field "PublicGateways" (.map (.ptr gatewaySpecTy))]

def optionalInteger (name : String) : GoJson.Field Ty :=
  omitted name (.ptr (.custom .optionalInteger))

def relayServiceTy : Ty := .struct [
  flag "Enabled", omitted "ConnectionDurationLimit" (.ptr (.custom .optionalDuration)),
  optionalInteger "ConnectionDataLimit",
  omitted "ReservationTTL" (.ptr (.custom .optionalDuration)),
  optionalInteger "MaxReservations", optionalInteger "MaxCircuits",
  optionalInteger "BufferSize", optionalInteger "MaxReservationsPerPeer",
  optionalInteger "MaxReservationsPerIP", optionalInteger "MaxReservationsPerASN"]

def priority (name : String) : GoJson.Field Ty := omitted name (.custom .priority)

def transportsTy : Ty := .struct [
  field "Network" (.struct [flag "QUIC", flag "TCP", flag "Websocket", flag "Relay"]),
  field "Security" (.struct [priority "TLS", priority "SECIO", priority "Noise"]),
  field "Multiplexers" (.struct [priority "Yamux", priority "Mplex"])]

def swarmTy : Ty := .struct [field "AddrFilters" strings, field "DisableBandwidthMetrics" .bool,
  field "DisableNatPortMap" .bool, omitted "DisableRelay" .bool,
  omitted "EnableRelayHop" .bool, omitted "EnableAutoRelay" .bool,
  field "RelayClient" (.struct [flag "Enabled", omitted "StaticRelays" strings]),
  field "RelayService" relayServiceTy, flag "EnableHolePunching",
  field "Transports" transportsTy,
  field "ConnMgr" (.struct [field "Type" .string, field "LowWater" .int,
    field "HighWater" .int, field "GracePeriod" .string])]

def autoNATTy : Ty := .struct [omitted "ServiceMode" (.custom .autoNATServiceMode),
  omitted "Throttle" (.ptr (.struct [field "GlobalLimit" .int, field "PeerLimit" .int,
    omitted "Interval" (.custom .optionalDuration)]))]

def experimentalTy : Ty := .struct [field "FilestoreEnabled" .bool, field "UrlstoreEnabled" .bool,
  omitted "ShardingEnabled" .bool, field "GraphsyncEnabled" .bool,
  field "Libp2pStreamMounting" .bool, field "P2pHttpProxy" .bool,
  field "StrategicProviding" .bool, field "AcceleratedDHTClient" .bool]

def remotePinningServiceTy : Ty := .struct [
  field "API" (.struct [field "Endpoint" .string, field "Key" .string]),
  field "Policies" (.struct [field "MFS" (.struct [
    field "Enable" .bool, field "PinName" .string, field "RepinInterval" .string])])]

def pinningTy : Ty := .struct [field "RemoteServices" (.map remotePinningServiceTy)]

def internalTy : Ty := .struct [omitted "Bitswap" (.ptr (.struct [
    field "TaskWorkerCount" (.custom .optionalInteger),
    field "EngineBlockstoreWorkerCount" (.custom .optionalInteger),
    field "EngineTaskWorkerCount" (.custom .optionalInteger),
    field "MaxOutstandingBytesPerPeer" (.custom .optionalInteger)])),
  omitted "UnixFSShardingSizeThreshold" (.ptr (.custom .optionalString)),
  omitted "Libp2pForceReachability" (.ptr (.custom .optionalString))]

def identityField : GoJson.Field Ty := field "Identity" identityTy

def pinningField : GoJson.Field Ty := field "Pinning" pinningTy

def datastoreField : GoJson.Field Ty := field "Datastore" datastoreTy

def configFields : List (GoJson.Field Ty) := [
  identityField, datastoreField, field "Addresses" addressesTy, field "Mounts" mountsTy,
  field "Discovery" discoveryTy, field "Routing" (.struct [field "Type" .string]),
  field "Ipns" ipnsTy, field "Bootstrap" strings, field "Gateway" gatewayTy,
  field "API" (.struct [field "HTTPHeaders" (.map strings)]), field "Swarm" swarmTy,
  field "AutoNAT" autoNATTy,
  field "Pubsub" (.struct [field "Router" .string, field "DisableSigning" .bool,
    flag "Enabled"]),
  field "Peering" (.struct [field "Peers" (.slice (.custom .addrInfo))]),
  field "DNS" (.struct [field "Resolvers" (.map .string)]),
  field "Migration" (.struct [field "DownloadSources" strings, field "Keep" .string]),
  field "Provider" (.struct [field "Strategy" .string]),
  field "Reprovider" (.struct [field "Interval" .string, field "Strategy" .string]),
  field "Experimental" experimentalTy,
  field "Plugins" (.struct [field "Plugins" (.map (.struct [
    field "Disabled" .bool, field "Config" .any]))]),
  pinningField, field "Internal" internalTy]

/-- `config.Config`. -/
def configTy : Ty := .struct configFields

/-- `json.Unmarshal` into a `Config`. -/
def decodeConfig (parsers : Parsers) (text : Json) : Except String Val :=
  match decode (codecs parsers) text configTy (zero (codecs parsers) configTy) with
  | .ok conf => .ok conf
  | .error e => .error ("failure to decode config: " ++ e)

/-- `config.FromMap`. -/
def fromMap (parsers : Parsers) (m : Members) : Except String Val :=
  decodeConfig parsers (.obj m)

/-- `config.ToMap`. -/
def toMap (parsers : Parsers) (conf : Val) : Members :=
  canonMembers (encode (codecs parsers) configTy conf).members

/-- `strings.Split` at the dots. -/
def splitKey (key : String) : List String :=
  (key.toList.splitOn '.').map String.ofList

theorem splitKey_ne_nil (key : String) : splitKey key ≠ [] := by
  unfold splitKey
  simp [List.splitOn_ne_nil]

/-- The loop of `MapGetKV`. -/
def getParts (sofar : List String) : List String → Json → Except String Json
  | [], cursor => .ok cursor
  | part :: rest, .obj m =>
    match m.lookup part with
    | some next => getParts (sofar ++ [part]) rest next
    | none => .error (".".intercalate sofar ++ " key has no attributes")
  | _ :: _, _ => .error (".".intercalate sofar ++ " key is not a map")

/-- `common.MapGetKV`. -/
def mapGetKV (m : Members) (key : String) : Except String Json :=
  getParts [] (splitKey key) (.obj m)

/-- The map below a name, which is made if there is none or null. -/
def nextMap (m : Members) (part : String) : Json :=
  match m.lookup part with
  | none | some .null => .obj []
  | some next => next

/-- The loop of `MapSetKV`. -/
def setParts (value : Json) (sofar : List String) : List String → Json → Except String Json
  | [], cursor => .ok cursor
  | part :: rest, .obj m =>
    if rest = [] then .ok (.obj (setKey part value m))
    else do
      let next ← setParts value (sofar ++ [part]) rest (nextMap m part)
      .ok (.obj (setKey part next m))
  | _ :: _, _ => .error (".".intercalate sofar ++ " key is not a map")

variable {sofar : List String} {part key : String}

theorem getParts_cons {rest : List String} {j y : Json} :
    getParts sofar (part :: rest) j = .ok y ↔
      ∃ next, j.members.lookup part = some next ∧
        getParts (sofar ++ [part]) rest next = .ok y := by
  cases j with
  | obj m =>
    rw [getParts, Json.members]
    cases m.lookup part with
    | none | some next => simp
  | _ => simp [getParts, Json.members]

variable {value cursor next : Json}

theorem setParts_cons_ok {rest : List String}
    (h : setParts value sofar (part :: rest) cursor = .ok next) :
    ∃ m below, cursor = .obj m ∧ next = .obj (setKey part below m) ∧
      (rest = [] ∧ below = value ∨
        rest ≠ [] ∧ setParts value (sofar ++ [part]) rest (nextMap m part) = .ok below) := by
  cases cursor with
  | obj m =>
    rw [setParts] at h
    split at h
    · rename_i hrest
      cases h
      exact ⟨m, value, rfl, rfl, .inl ⟨hrest, rfl⟩⟩
    · rename_i hrest
      obtain ⟨below, hbelow, hok⟩ := bind_eq_ok.mp h
      cases hok
      exact ⟨m, below, rfl, rfl, .inr ⟨hrest, hbelow⟩⟩
  | _ => cases h

variable {parts : List String}

/-- What is set at a path is found there. -/
theorem getParts_setParts (hne : parts ≠ []) (h : setParts value sofar parts cursor = .ok next) :
    getParts sofar parts next = .ok value := by
  induction parts generalizing sofar cursor next with
  | nil => exact absurd rfl hne
  | cons part rest ih =>
    obtain ⟨m, below, rfl, rfl, hbelow⟩ := setParts_cons_ok h
    refine getParts_cons.mpr ⟨below, ?_, ?_⟩
    · rw [Json.members, lookup_setKey, if_pos rfl]
    · rcases hbelow with ⟨rfl, rfl⟩ | ⟨hrest, hbelow⟩
      · rfl
      · exact ih hrest hbelow

theorem canonical_getParts (hcursor : Canonical cursor)
    (h : getParts sofar parts cursor = .ok value) : Canonical value := by
  induction parts generalizing sofar cursor with
  | nil =>
    cases h
    exact hcursor
  | cons part rest ih =>
    cases cursor with
    | obj m =>
      obtain ⟨next, hnext, hrest⟩ := getParts_cons.mp h
      exact ih (canonical_lookup hcursor hnext) hrest
    | _ => cases h

variable {m : Members}

theorem canonical_nextMap (hm : Canonical (.obj m)) (part : String) :
    Canonical (nextMap m part) := by
  unfold nextMap
  split
  · exact canonical_obj.mpr ⟨List.Pairwise.nil, True.intro⟩
  · exact canonical_obj.mpr ⟨List.Pairwise.nil, True.intro⟩
  · rename_i next _ hnext
    exact canonical_lookup hm hnext

/-- Setting a value keeps a map sorted. -/
theorem canonical_setParts (hvalue : Canonical value) (hcursor : Canonical cursor)
    (h : setParts value sofar parts cursor = .ok next) : Canonical next := by
  induction parts generalizing sofar cursor next with
  | nil =>
    cases h
    exact hcursor
  | cons part rest ih =>
    obtain ⟨m, below, rfl, rfl, hbelow⟩ := setParts_cons_ok h
    rcases hbelow with ⟨_, rfl⟩ | ⟨_, hbelow⟩
    · exact canonical_setKey hvalue hcursor
    · exact canonical_setKey (ih (canonical_nextMap hcursor part) hbelow) hcursor

theorem setParts_obj (h : setParts value sofar parts (.obj m) = .ok next) :
    ∃ m', next = .obj m' := by
  cases parts with
  | nil =>
    cases h
    exact ⟨m, rfl⟩
  | cons part rest =>
    obtain ⟨m', below, _, rfl, _⟩ := setParts_cons_ok h
    exact ⟨_, rfl⟩

/-- `common.MapSetKV`. -/
def mapSetKV (m : Members) (key : String) (value : Json) : Except String Members :=
  Json.members <$> setParts value [] (splitKey key) (.obj m)

variable {m' : Members}

theorem mapSetKV_eq_ok (h : mapSetKV m key value = .ok m') :
    setParts value [] (splitKey key) (.obj m) = .ok (.obj m') := by
  unfold mapSetKV at h
  cases hset : setParts value [] (splitKey key) (.obj m) with
  | error e =>
    rw [hset] at h
    cases h
  | ok next =>
    obtain ⟨m'', rfl⟩ := setParts_obj hset
    rw [hset] at h
    cases h
    rfl

theorem canonical_mapSetKV (hvalue : Canonical value) (hm : Canonical (.obj m))
    (h : mapSetKV m key value = .ok m') : Canonical (.obj m') :=
  canonical_setParts hvalue hm (mapSetKV_eq_ok h)

def privKeySelector : String := "Identity.PrivKey"

/-- `conf.Identity.PrivKey`. -/
def privKey (parsers : Parsers) (conf : Val) : Val :=
  getField (codecs parsers)
    (getField (codecs parsers) conf.fields identityField).fields privKeyField

theorem splitKey_privKeySelector : splitKey privKeySelector = ["Identity", "PrivKey"] := by
  decide

/-- The private key is found after it has been set. -/
theorem mapGetKV_mapSetKV_privKey (h : mapSetKV m privKeySelector value = .ok m') :
    mapGetKV m' privKeySelector = .ok value := by
  refine getParts_setParts ?_ (mapSetKV_eq_ok h)
  rw [splitKey_privKeySelector]
  exact List.cons_ne_nil _ _

end Config
