import GoIpfs.RepoConfig

/-!
# The config commands

`ipfs config <key>`, `ipfs config show` and `ipfs config profile apply` read the
config file and print from it.  The private key and the keys of the remote
pinning services are to stay secret, and each command has its own filter for
them: `<key>` refuses some keys, `show` scrubs both secrets from the map that it
prints, and `profile apply` scrubs the private key from its two maps.

Every call that may fail for reasons outside the config asks the environment.
-/

namespace ConfigCommands

open GoJson Config FsRepo Effects

/-- `config.PinningConcealSelector`. -/
def pinningConcealSelector : List String := ["Pinning", "RemoteServices", "*", "API", "Key"]

/-- The private key, as the scrubbers are told. -/
def privKeyPath : List String := ["Identity", "PrivKey"]

/-- `strings.ToLower`, as far as it gives ASCII letters. -/
def lowerChar (c : Char) : Char :=
  if c.val = 0x212A then 'k'
  else if c.val = 0x130 then 'i'
  else if 'A' ≤ c ∧ c ≤ 'Z' then Char.ofNat (c.toNat + 32)
  else c

def toLower (s : String) : String := String.ofList (s.toList.map lowerChar)

/-- The loop of `matchesGlobPrefix`. -/
def matchesParts (folding : Folding) : List String → List String → Bool
  | k :: parts, g :: glob =>
    (g = "*" || folding.equalFold k g) && matchesParts folding parts glob
  | _, _ => true

/-- The first parts of the key match the first patterns. -/
def matchesGlobPrefix (folding : Folding) (key : String) (glob : List String) : Bool :=
  matchesParts folding (splitKey key) glob

/-- `scrubValueInternal`, which is told whether its value is a nil interface. -/
def scrubValueInternal (isNil okIfMissing : Bool) : Except String (Option Json) :=
  if isNil && !okIfMissing then .error "failed to find specified key" else .ok none

/-- The loop over a map in `scrubMapInternal`. -/
def scrubMembers (selected : String → Bool) (scrub : Json → Except String (Option Json)) :
    Members → Except String Members
  | [] => .ok []
  | (k, v) :: rest =>
    if selected k then do
      let u ← scrub v
      let n ← scrubMembers selected scrub rest
      match u with
      | some u => .ok ((k, u) :: n)
      | none => .ok n
    else do
      let n ← scrubMembers selected scrub rest
      .ok ((k, v) :: n)

/-- `scrubEither`, given `scrubMapInternal` for the rest of the key. -/
def scrubEither (scrubMap : Members → Except String Members) (okIfMissing : Bool) :
    Json → Except String (Option Json)
  | .obj m => (fun n => some (.obj n)) <$> scrubMap m
  -- the nil map that the failed type assertion leaves is no nil interface
  | _ => scrubValueInternal false okIfMissing

/-- The test on a name in the loop of `scrubMapInternal`. -/
def selects (folding : Folding) (p k : String) : Bool := p = "*" || folding.equalFold p k

def scrubMapInternal (folding : Folding) (okIfMissing : Bool) :
    List String → Members → Except String Members
  | [], _ => .ok []
  | p :: key, m =>
    scrubMembers (selects folding p)
      (scrubEither (fun m' => scrubMapInternal folding okIfMissing key m') okIfMissing) m

def scrubValue (folding : Folding) (m : Members) (key : List String) : Except String Members :=
  scrubMapInternal folding false key m

def scrubOptionalValue (folding : Folding) (m : Members) (key : List String) :
    Except String Members :=
  scrubMapInternal folding true key m

inductive Output where
  | config (cfg : Members)
  | field (key : String) (value : Json)
  | update (oldCfg newCfg : Members)

structure Env where
  repo : FsRepo.Env
  /-- The case folding of the runtime. -/
  folding : Folding
  /-- The error of opening the datastore and the keystore, given the datastore
  section. -/
  openStores : Val → Option String
  /-- `config.Profiles`. -/
  profiles : String → Option (Val → Except String Val)

/-- `fsrepo.Open`.  A repo that is open in this process is shared. -/
def openRepo (env : Env) : RepoM Unit := do
  if (← get).closed then
    -- the path, the lock, the version and the permissions
    fsCall env.repo
    fsCall env.repo
    let conf ← ofResult (decodeConfig env.repo.parsers (← get).file)
    match env.openStores (getField (codecs env.repo.parsers) conf.fields datastoreField) with
    | some e => throw e
    | none => modify fun s => { s with config := conf, closed := false }
  else pure ()

/-- The `%q` of a text. -/
def quoted (s : String) : String :=
  "\"" ++ String.ofList (s.toList.flatMap fun c =>
    if c = '"' ∨ c = '\\' then ['\\', c] else [c]) ++ "\""

def getConfig (env : Env) (key : String) : RepoM Output := do
  let value ← ExceptT.adapt (fun e => "failed to get config value: " ++ quoted e)
    (getConfigKey env.repo key)
  pure (.field key value)

/-- `ipfs config <key>`. -/
def configKey (env : Env) (key : String) : RepoM Output :=
  if toLower key = "identity" ∨ toLower key = "identity.privkey" then
    throw "cannot show or change private key through API"
  else if matchesGlobPrefix env.folding key pinningConcealSelector then
    throw "cannot show or change pinning services credentials"
  else do
    fsCall env.repo
    openRepo env
    getConfig env key

/-- `json.Unmarshal` into a map. -/
def unmarshalMap : Json → Except String Members
  | .obj members => .ok (canonMembers members)
  | .null => .ok []
  | j => mismatch (kindName j)

/-- The two scrubbers of `config show`. -/
def scrubShown (folding : Folding) (cfg : Members) : Except String Members := do
  let cfg ← scrubValue folding cfg privKeyPath
  scrubOptionalValue folding cfg pinningConcealSelector

/-- `ipfs config show`. -/
def configShow (env : Env) : RepoM Output := do
  -- the root, the name of the file and the file
  fsCall env.repo
  fsCall env.repo
  fsCall env.repo
  let cfg ← ofResult (unmarshalMap (← get).file)
  let cfg ← ofResult (scrubShown env.folding cfg)
  pure (.config cfg)

/-- `Config.Clone`. -/
def clone (parsers : Parsers) (conf : Val) : Except String Val :=
  decodeConfig parsers (encode (codecs parsers) configTy conf)

def scrubPrivKey (folding : Folding) (parsers : Parsers) (conf : Val) : Except String Members :=
  scrubValue folding (toMap parsers conf) privKeyPath

/-- `transformConfig`: the old and the new config. -/
def transformConfig (env : Env) (transformer : Val → Except String Val) (dryRun : Bool) :
    RepoM (Val × Val) := do
  openRepo env
  let s ← get
  if s.closed then throw "cannot access config, repo not open"
  else
    let copy ← ofResult (clone env.repo.parsers s.config)
    let newCfg ← ofResult (transformer copy)
    if dryRun then pure (s.config, newCfg)
    else
      -- BackupConfig
      fsCall env.repo
      setConfigUnsynced env.repo newCfg
      pure (s.config, newCfg)

/-- `ipfs config profile apply <profile>`. -/
def configProfileApply (env : Env) (profile : String) (dryRun : Bool) : RepoM Output :=
  match env.profiles profile with
  | none => throw (profile ++ " is not a profile")
  | some transformer => do
      fsCall env.repo
      let cfgs ← transformConfig env transformer dryRun
      let oldCfgMap ← ofResult (scrubPrivKey env.folding env.repo.parsers cfgs.1)
      let newCfgMap ← ofResult (scrubPrivKey env.folding env.repo.parsers cfgs.2)
      pure (.update oldCfgMap newCfgMap)

inductive Command where
  | showConfig
  | key (k : String)
  | profileApply (profile : String) (dryRun : Bool)

def Command.run (env : Env) : Command → RepoM Output
  | .showConfig => configShow env
  | .key k => configKey env k
  | .profileApply profile dryRun => configProfileApply env profile dryRun

end ConfigCommands
