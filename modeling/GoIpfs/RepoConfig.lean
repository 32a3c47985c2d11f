import GoIpfs.Config
import GoIpfs.Effects
import GoIpfs.GoEncode

/-!
# Setting a config key

`FSRepo.SetConfigKey` reads the file as a map, remembers the private key, sets
the key, puts the private key back, and decodes the map into a `Config` before
it writes anything.  `setConfigUnsynced` then replaces every section of the file
by the encoding of the decoded struct.

The private key is put back under its exact name only.  Decoding also takes
members whose names differ in case, and the last of them wins; so the key that
ends up in memory and in the file is that of the last spelling.
-/

namespace FsRepo

open GoJson Config Effects

/-- The repo: the text of the config file and the config in memory. -/
structure Repo where
  file : Json
  config : Val
  closed : Bool
  calls : Nat

structure Env where
  parsers : Parsers
  /-- The calls of the file system that fail. -/
  fault : Nat → Option String

abbrev RepoM (α : Type) := Prog String Repo α

/-- A call of the file system, which may fail. -/
def fsCall (env : Env) : RepoM Unit := do
  let s ← get
  modify fun s => { s with calls := s.calls + 1 }
  match env.fault s.calls with
  | some msg => throw msg
  | none => pure ()

/-- Decoding a text into a `map[string]interface{}`.  The nil map that `null` leaves
is taken for an empty one; `setConfigUnsynced` would panic when it assigns to it. -/
def readMap : Json → Except String Members
  | .obj members => .ok (canonMembers members)
  | .null => .ok []
  | j => .error ("failure to decode config: json: cannot unmarshal " ++ kindName j)

/-- `serialize.ReadConfigFile` into a map. -/
def readConfigFile (env : Env) : RepoM Members := do
  fsCall env
  ofResult (readMap (← get).file)

/-- What becomes of a file that is written.  The deferred `Close` renames the new file
also after `Write` has failed, and its own errors are dropped. -/
inductive WriteEnd where
  | whole
  /-- `Write` has failed; the file is what it had written, which is no map. -/
  | torn (part : {j : Json // ∀ m, readMap j ≠ .ok m}) (msg : String)
  /-- Closing or renaming the new file has failed; the file is the old one. -/
  | lost

/-- An environment in which also the writes may go wrong. -/
structure Disk extends Env where
  write : Nat → WriteEnd

instance : Coe Env Disk := ⟨fun env => ⟨env, fun _ => .whole⟩⟩

/-- `serialize.WriteConfigFile`. -/
def writeConfigFile (disk : Disk) (m : Members) : RepoM Unit := do
  let n := (← get).calls
  fsCall disk.toEnv
  match disk.write n with
  | .whole => modify fun s => { s with file := .obj m }
  | .torn part msg =>
    modify fun s => { s with file := part }
    throw msg
  | .lost => pure ()

/-- `FSRepo.setConfigUnsynced`. -/
def setConfigUnsynced (disk : Disk) (updated : Val) : RepoM Unit := do
  fsCall disk.toEnv
  let mapconf ← readConfigFile disk.toEnv
  writeConfigFile disk (merge mapconf (toMap disk.parsers updated))
  modify fun s => { s with config := updated }

/-- `FSRepo.GetConfigKey`. -/
def getConfigKey (env : Env) (key : String) : RepoM Json := do
  if (← get).closed then throw "repo is closed"
  else
    fsCall env
    let cfg ← readConfigFile env
    ofResult (mapGetKV cfg key)

/-- The map that `SetConfigKey` decodes and writes. -/
def editMap (m : Members) (key : String) (value : Json) : Except String Members := do
  let pkval ← mapGetKV m privKeySelector
  let m₁ ← mapSetKV m key (canon value)
  mapSetKV m₁ privKeySelector pkval

/-- `FSRepo.SetConfigKey`. -/
def setConfigKey (disk : Disk) (key : String) (value : Json) : RepoM Unit := do
  if (← get).closed then throw "repo is closed"
  else
    fsCall disk.toEnv
    let mapconf ← readConfigFile disk.toEnv
    let updated ← ofResult (editMap mapconf key value)
    let conf ← ofResult (fromMap disk.parsers updated)
    writeConfigFile disk updated
    setConfigUnsynced disk conf

/-- The value at `Identity.PrivKey` in a config file. -/
def storedKey (file : Json) : Option Json :=
  (readMap file).toOption.bind fun m => (mapGetKV m privKeySelector).toOption

def Unchanged (parsers : Parsers) (s t : Repo) : Prop :=
  privKey parsers t.config = privKey parsers s.config ∧ storedKey t.file = storedKey s.file

/-- The last string that is a private key in some spelling of its name, in the
order of the map. -/
def lastSpelling (m : Members) : String :=
  ((spellings "PrivKey" ((spellings "Identity" m).flatMap Json.members)).filterMap
    Json.string?).getLastD ""

/-- No parser of another package is needed. -/
def noParsers : Parsers := ⟨fun _ => .error "time: invalid duration", fun _ => .error "invalid"⟩

/-- No call fails. -/
def calmEnv : Env := ⟨noParsers, fun _ => none⟩

def keyRepo : Repo where
  file := .obj [("Identity", .obj [("PrivKey", .str "old")])]
  config := .struct [("Identity", .struct [("PeerID", .str ""), ("PrivKey", .str "old")])]
  closed := false
  calls := 0

def asString : Val → Option String
  | .str s => some s
  | _ => none

/-- **The key can be changed.**  Setting `identity.PrivKey` returns nil and
replaces the key in memory. -/
theorem setConfigKey_replaces_key :
    (storedKey keyRepo.file).bind Json.string? = some "old" ∧
      (exec (setConfigKey calmEnv "identity.PrivKey" (.str "new"))
        keyRepo).1.isOk = true ∧
      ¬ Unchanged noParsers keyRepo
        (exec (setConfigKey calmEnv "identity.PrivKey" (.str "new"))
          keyRepo).2 := by
  refine ⟨by decide +kernel, by decide +kernel, fun h => ?_⟩
  have hstring := congrArg asString h.1
  revert hstring
  decide +kernel

variable {conf : Val} {m : Members} {ws : List (String × Val)} {d : String}

section Decoded

variable {parsers : Parsers}

theorem unambiguous_configFields : Unambiguous configFields := by
  unfold Unambiguous
  decide

theorem nodup_configFields : (configFields.map Field.name).Nodup := by
  decide

theorem unambiguous_identity : Unambiguous [peerIDField, privKeyField] := by
  unfold Unambiguous
  decide

theorem decodeConfig_fields {text : Json} (h : decodeConfig parsers text = .ok conf) :
    ∃ vs, conf = .struct vs ∧
      decodeStruct (codecs parsers) text.members configFields
        (zeroFields (codecs parsers) configFields) = .ok vs := by
  unfold decodeConfig at h
  split at h
  · rename_i conf' hdec
    cases h
    rw [configTy, zero] at hdec
    exact decode_struct_ok hdec
  · cases h

section

variable (h : fromMap parsers m = .ok conf)
include h

theorem decodeConfig_struct :
    ∃ vs, conf = .struct vs ∧
      decodeStruct (codecs parsers) m configFields
        (zeroFields (codecs parsers) configFields) = .ok vs :=
  decodeConfig_fields h

/-- **The decoded key is that of the last spelling.**  The identity section has a
string for it. -/
theorem identity_fromMap :
    ∃ vs, getField (codecs parsers) conf.fields identityField = .struct vs ∧
      getField (codecs parsers) vs privKeyField = .str (lastSpelling m) := by
  obtain ⟨vs, rfl, hvs⟩ := decodeConfig_struct h
  have hident := decodeStruct_field unambiguous_configFields
    (show identityField ∈ configFields from List.mem_cons_self) hvs
  obtain ⟨ws, hws, hdec⟩ := decodeAll_struct hident
  refine ⟨ws, hws, ?_⟩
  have hkey := decodeStruct_field unambiguous_identity
    (show privKeyField ∈ [peerIDField, privKeyField] by simp) hdec
  exact decodeAll_string hkey

theorem privKey_fromMap : privKey parsers conf = .str (lastSpelling m) := by
  obtain ⟨vs, hident, hkey⟩ := identity_fromMap h
  unfold privKey
  rw [hident]
  exact hkey

end

theorem lookup_privKey_encoded (parsers : Parsers)
    (hkey : getField (codecs parsers) ws privKeyField = .str d) :
    ∃ im, canon (encode (codecs parsers) identityTy (.struct ws)) = .obj im ∧
      im.lookup "PrivKey" = if d = "" then none else some (.str d) := by
  refine ⟨_, rfl, ?_⟩
  have hlook : (ws.lookup "PrivKey").getD (.str "") = .str d := hkey
  rw [encodeFields, encodeFields, encodeFields]
  simp only [peerIDField, privKeyField, field, omitted, zero, hlook, isEmpty, encode,
    Bool.false_and, Bool.false_eq_true, if_false, Bool.true_and]
  rw [lookup_canonMembers_cons, if_neg (show "PrivKey" ≠ "PeerID" by decide)]
  by_cases hd : d = ""
  · simp [hd, canonMembers]
  · simp [hd, canonMembers, canon, setKey]

theorem lookup_identity_struct {vs : List (String × Val)}
    (hident : getField (codecs parsers) vs identityField = .struct ws)
    (hkey : getField (codecs parsers) ws privKeyField = .str d) :
    ∃ im, (toMap parsers (.struct vs)).lookup "Identity" = some (.obj im) ∧
      im.lookup "PrivKey" = if d = "" then none else some (.str d) := by
  obtain ⟨im, him, hlook⟩ := lookup_privKey_encoded parsers hkey
  refine ⟨im, ?_, hlook⟩
  have hsection : (toMap parsers (.struct vs)).lookup "Identity" =
      some (canon (encode (codecs parsers) identityTy
        (getField (codecs parsers) vs identityField))) :=
    lookup_canon_encodeFields (f := identityField) nodup_configFields List.mem_cons_self rfl
  rw [hsection, hident, him]

end Decoded

variable {E : Repo → Prop}

section Calls

variable {env : Env} {s : Repo}

def Same (s t : Repo) : Prop := t.file = s.file ∧ t.config = s.config

theorem Same.unchanged {parsers : Parsers} {t : Repo} (h : Same s t) : Unchanged parsers s t :=
  ⟨congrArg (privKey parsers) h.2, congrArg storedKey h.1⟩

theorem exec_fsCall (env : Env) (s : Repo) :
    exec (fsCall env) s =
      ((match env.fault s.calls with | some msg => .error msg | none => .ok ()),
        { s with calls := s.calls + 1 }) := by
  unfold fsCall
  rw [exec_bind, exec_get]
  simp only
  rw [exec_bind, exec_modify]
  simp only
  cases env.fault s.calls <;> rfl

theorem exec_readConfigFile (env : Env) (s : Repo) :
    exec (readConfigFile env) s =
      ((match env.fault s.calls with | some msg => .error msg | none => readMap s.file),
        { s with calls := s.calls + 1 }) := by
  unfold readConfigFile
  rw [exec_bind, exec_fsCall]
  cases env.fault s.calls with
  | some msg => rfl
  | none => cases hread : readMap s.file <;> simp [exec_bind, ofResult, hread]

theorem exec_writeConfigFile (disk : Disk) (m : Members) (s : Repo) :
    exec (writeConfigFile disk m) s =
      match disk.fault s.calls with
      | some msg => (.error msg, { s with calls := s.calls + 1 })
      | none =>
        match disk.write s.calls with
        | .whole => (.ok (), { s with file := .obj m, calls := s.calls + 1 })
        | .torn part msg => (.error msg, { s with file := part, calls := s.calls + 1 })
        | .lost => (.ok (), { s with calls := s.calls + 1 }) := by
  unfold writeConfigFile
  rw [exec_bind, exec_get]
  dsimp only
  rw [exec_bind, exec_fsCall]
  cases disk.fault s.calls with
  | some msg => rfl
  | none => cases disk.write s.calls <;> rfl

theorem forall_lt_three {P : Nat → Prop} : (∀ i < 3, P i) ↔ P 0 ∧ P 1 ∧ P 2 := by
  refine ⟨fun h => ⟨h 0 (by omega), h 1 (by omega), h 2 (by omega)⟩, fun h i hi => ?_⟩
  match i, hi with
  | 0, _ => exact h.1
  | 1, _ => exact h.2.1
  | 2, _ => exact h.2.2

/-- `setConfigUnsynced` succeeds if no call fails and the file is a map. -/
theorem setConfigUnsynced_ok_iff {env : Env} {s : Repo} (updated : Val) :
    (exec (setConfigUnsynced env updated) s).1.isOk = true ↔
      (∀ i < 3, env.fault (s.calls + i) = none) ∧ ∃ m, readMap s.file = .ok m := by
  unfold setConfigUnsynced
  rw [forall_lt_three, exec_bind, exec_fsCall]
  cases hfind : env.fault s.calls with
  | some msg => simp [Except.isOk, Except.toBool]
  | none =>
    dsimp only
    rw [exec_bind, exec_readConfigFile]
    cases hread : env.fault (s.calls + 1) with
    | some msg => simp [Except.isOk, Except.toBool]
    | none =>
      cases hmap : readMap s.file with
      | error e => simp [Except.isOk, Except.toBool]
      | ok m =>
        dsimp only
        rw [exec_bind, exec_writeConfigFile]
        cases hwrite : env.fault (s.calls + 2) <;> simp [Except.isOk, Except.toBool]

theorem exec_get_bind {α : Type} (k : Repo → RepoM α) (s : Repo) :
    exec (get >>= k) s = exec (k s) s := by
  rw [exec_bind, exec_get]

variable (hE : ∀ t, Same s t → E t)
include hE

theorem fsCall_wp : Wp E (fsCall env) (fun _ t => Same s t) s := by
  unfold fsCall
  rw [wp_bind, wp_get, wp_bind, wp_modify]
  split
  · exact wp_throw.mpr (hE _ ⟨rfl, rfl⟩)
  · exact wp_pure.mpr ⟨rfl, rfl⟩

theorem readConfigFile_wp :
    Wp E (readConfigFile env) (fun m t => readMap s.file = .ok m ∧ Same s t) s := by
  refine (fsCall_wp hE).bind ?_
  intro _ t hst
  rw [wp_bind, wp_get]
  refine (ofResult_wp _ (hE t hst)).mono ?_
  intro m u hu
  obtain ⟨hread, rfl⟩ := hu
  exact ⟨hst.1 ▸ hread, hst⟩

theorem writeConfigFile_wp (m : Members) :
    Wp E (writeConfigFile env m)
      (fun _ t => t.file = .obj m ∧ t.config = s.config) s := by
  rw [writeConfigFile, wp_bind, wp_get]
  refine (fsCall_wp hE).bind ?_
  intro _ t hst
  exact wp_modify.mpr ⟨rfl, hst.2⟩

theorem setConfigUnsynced_wp (updated : Val) :
    Wp E (setConfigUnsynced env updated)
      (fun _ t => t.config = updated ∧ ∃ m, readMap s.file = .ok m ∧
        t.file = .obj (merge m (toMap env.parsers updated))) s := by
  refine (fsCall_wp hE).bind ?_
  intro _ t hst
  have hEt : ∀ u, Same t u → E u := fun u htu =>
    hE u ⟨htu.1.trans hst.1, htu.2.trans hst.2⟩
  refine (readConfigFile_wp hEt).bind ?_
  intro m u hu
  obtain ⟨hread, htu⟩ := hu
  have hEu : ∀ v, Same u v → E v := fun v huv =>
    hEt v ⟨huv.1.trans htu.1, huv.2.trans htu.2⟩
  refine (writeConfigFile_wp hEu _).bind ?_
  intro _ v hv
  exact wp_modify.mpr ⟨rfl, m, hst.1 ▸ hread, hv.1⟩

end Calls

theorem editMap_ok {m' : Members} {key : String} {value : Json} (hm : Canonical (.obj m))
    (h : editMap m key value = .ok m') :
    Canonical (.obj m') ∧ mapGetKV m' privKeySelector = mapGetKV m privKeySelector := by
  unfold editMap at h
  obtain ⟨pkval, hpk, h⟩ := bind_eq_ok.mp h
  obtain ⟨m₁, hm₁, h⟩ := bind_eq_ok.mp h
  have hpkval : Canonical pkval := canonical_getParts hm hpk
  have hcanon := canonical_mapSetKV (canonical_canon value) hm hm₁
  exact ⟨canonical_mapSetKV hpkval hcanon h, (mapGetKV_mapSetKV_privKey h).trans hpk.symm⟩

theorem storedKey_obj (hm : Canonical (.obj m)) :
    storedKey (.obj m) = (mapGetKV m privKeySelector).toOption := by
  simp [storedKey, readMap, canonMembers_of_canonical hm, Except.toOption]

theorem canonical_readMap {file : Json} (h : readMap file = .ok m) : Canonical (.obj m) := by
  unfold readMap at h
  split at h
  · cases h
    exact canonical_canonMembers _
  · cases h
    exact canonical_canonMembers []
  · cases h

theorem storedKey_of_readMap {file : Json} (h : readMap file = .ok m) :
    storedKey file = (mapGetKV m privKeySelector).toOption := by
  simp [storedKey, h, Except.toOption]

theorem canonicalMembers_toMap (parsers : Parsers) (conf : Val) :
    CanonicalMembers (toMap parsers conf) := by
  unfold toMap
  exact canonicalMembers_canonMembers _

theorem storedKey_merge_struct {parsers : Parsers} {base : Members} {vs : List (String × Val)}
    (hbase : Canonical (.obj base))
    (hident : getField (codecs parsers) vs identityField = .struct ws)
    (hkey : getField (codecs parsers) ws privKeyField = .str d) :
    storedKey (.obj (merge base (toMap parsers (.struct vs)))) =
      if d = "" then none else some (.str d) := by
  obtain ⟨im, hsection, hlook⟩ := lookup_identity_struct hident hkey
  rw [storedKey_obj (canonical_merge hbase (canonicalMembers_toMap parsers _))]
  unfold mapGetKV
  rw [splitKey_privKeySelector, getParts, lookup_merge, hsection]
  simp only [Option.some_or]
  rw [getParts, hlook]
  by_cases hempty : d = ""
  · rw [if_pos hempty]
    rfl
  · rw [if_neg hempty]
    rfl

theorem storedKey_merge {parsers : Parsers} {base : Members} (hbase : Canonical (.obj base))
    (h : fromMap parsers m = .ok conf) :
    storedKey (.obj (merge base (toMap parsers conf))) =
      if lastSpelling m = "" then none else some (.str (lastSpelling m)) := by
  obtain ⟨vs, rfl, _⟩ := decodeConfig_struct h
  obtain ⟨ws, hident, hkey⟩ := identity_fromMap h
  exact storedKey_merge_struct hbase hident hkey

/-- What `SetConfigKey` computes from the file before it writes: the edited map and the
config that it decodes to. -/
def edits (parsers : Parsers) (file : Json) (key : String) (value : Json) :
    Except String (Members × Val) := do
  let m ← readMap file
  let edited ← editMap m key value
  let conf ← fromMap parsers edited
  .ok (edited, conf)

/-- A write that leaves a file behind that can be read. -/
def Disk.Sound (disk : Disk) (n : Nat) : Prop := ∀ part msg, disk.write n ≠ .torn part msg

section SetKey

variable {disk : Disk} {s : Repo} {key : String} {value : Json} {edited base : Members}
  {pk : String}

/-- `setConfigUnsynced` up to its write. -/
theorem setConfigUnsynced_cases (hbase : readMap s.file = .ok base) :
    (∃ i < 3, disk.fault (s.calls + i) ≠ none) ∧ Same s (exec (setConfigUnsynced disk conf) s).2 ∨
      (∀ i < 3, disk.fault (s.calls + i) = none) ∧
        (exec (setConfigUnsynced disk conf) s).2 =
          match disk.write (s.calls + 2) with
          | .whole => ⟨.obj (merge base (toMap disk.parsers conf)), conf, s.closed, s.calls + 3⟩
          | .torn part _ => ⟨part, s.config, s.closed, s.calls + 3⟩
          | .lost => ⟨s.file, conf, s.closed, s.calls + 3⟩ := by
  unfold setConfigUnsynced
  rw [exec_bind, exec_fsCall]
  cases h₀ : disk.fault s.calls with
  | some msg => exact .inl ⟨⟨0, by omega, by simp [h₀]⟩, rfl, rfl⟩
  | none =>
    dsimp only
    rw [exec_bind, exec_readConfigFile]
    cases h₁ : disk.fault (s.calls + 1) with
    | some msg => exact .inl ⟨⟨1, by omega, by simp [h₁]⟩, rfl, rfl⟩
    | none =>
      dsimp only
      rw [hbase]
      dsimp only
      rw [exec_bind, exec_writeConfigFile]
      cases h₂ : disk.fault (s.calls + 2) with
      | some msg => exact .inl ⟨⟨2, by omega, by simp [h₂]⟩, rfl, rfl⟩
      | none =>
        refine .inr ⟨forall_lt_three.mpr ⟨h₀, h₁, h₂⟩, ?_⟩
        dsimp only
        cases disk.write (s.calls + 2) <;> rfl

/-- What `setConfigUnsynced` must meet from call `n` on to keep the key `pk` of the file and
`old` in memory: if no call fails, its write is sound, and `old` is the last spelling
in the map, which is `pk`, and not empty, if that is written. -/
def KeepsKey (disk : Disk) (n : Nat) (old : Val) (pk : String) (edited : Members) : Prop :=
  (∀ i < 3, disk.fault (n + i) = none) → disk.Sound (n + 2) ∧ old = .str (lastSpelling edited) ∧
    (disk.write (n + 2) = .whole → lastSpelling edited = pk ∧ pk ≠ "")

theorem storedKey_torn (part : {j : Json // ∀ m, readMap j ≠ .ok m}) : storedKey part = none := by
  unfold storedKey
  cases h : readMap part with
  | error e => rfl
  | ok m => exact absurd h (part.2 m)

/-- The second half of the call, from a file that still has the key. -/
theorem unchanged_update_iff (hpk : storedKey s.file = some (.str pk))
    (hbase : readMap s.file = .ok base) (hconf : fromMap disk.parsers edited = .ok conf) :
    Unchanged disk.parsers s (exec (setConfigUnsynced disk conf) s).2 ↔
      KeepsKey disk s.calls (privKey disk.parsers s.config) pk edited := by
  have hkey := privKey_fromMap hconf
  have hstored := storedKey_merge (canonical_readMap hbase) hconf
  obtain ⟨⟨i, hi, hfault⟩, hsame⟩ | ⟨hcalm, hafter⟩ :=
    @setConfigUnsynced_cases conf disk s base hbase
  · exact iff_of_true hsame.unchanged fun hcalm => absurd (hcalm i hi) hfault
  rw [hafter, KeepsKey, forall_prop_of_true hcalm, Disk.Sound]
  cases disk.write (s.calls + 2) with
  | torn part msg => simp [Unchanged, storedKey_torn, hpk]
  | lost => simp [Unchanged, hkey, eq_comm]
  | whole =>
    simp only [Unchanged, hkey, hstored, hpk, ne_eq, reduceCtorEq, not_false_eq_true,
      implies_true, true_and, forall_const, eq_comm (a := Val.str _)]
    refine and_congr_right fun _ => ?_
    split
    · rename_i hempty
      simp [hempty, eq_comm]
    · rename_i hne
      constructor
      · intro heq
        obtain rfl : lastSpelling edited = pk := by simpa using heq
        exact ⟨rfl, hne⟩
      · rintro ⟨rfl, -⟩
        rfl

/-- The call gets to its first write with this map and this config. -/
def Writes (disk : Disk) (s : Repo) (key : String) (value : Json) (edited : Members)
    (conf : Val) : Prop :=
  s.closed = false ∧ (∀ i < 3, disk.fault (s.calls + i) = none) ∧
    edits disk.parsers s.file key value = .ok (edited, conf)

/-- `SetConfigKey` up to its first write. -/
theorem setConfigKey_cases (disk : Disk) (s : Repo) (key : String) (value : Json) :
    (∀ edited conf, ¬ Writes disk s key value edited conf) ∧
        Same s (exec (setConfigKey disk key value) s).2 ∨
      ∃ edited conf, Writes disk s key value edited conf ∧
        exec (setConfigKey disk key value) s =
          match disk.write (s.calls + 2) with
          | .whole => exec (setConfigUnsynced disk conf)
              ⟨.obj edited, s.config, s.closed, s.calls + 3⟩
          | .torn part msg => (.error msg, ⟨part, s.config, s.closed, s.calls + 3⟩)
          | .lost => exec (setConfigUnsynced disk conf)
              ⟨s.file, s.config, s.closed, s.calls + 3⟩ := by
  have hfault : ∀ i < 3, disk.fault (s.calls + i) ≠ none →
      ∀ edited conf, ¬ Writes disk s key value edited conf :=
    fun i hi hne edited conf h => hne (h.2.1 i hi)
  unfold setConfigKey
  rw [exec_get_bind]
  split
  · rename_i hclosed
    exact .inl ⟨fun _ _ h => by simp [h.1] at hclosed, rfl, rfl⟩
  rename_i hopen
  rw [exec_bind, exec_fsCall]
  cases h₀ : disk.fault s.calls with
  | some msg => exact .inl ⟨hfault 0 (by omega) (by simp [h₀]), rfl, rfl⟩
  | none =>
  dsimp only
  rw [exec_bind, exec_readConfigFile]
  cases h₁ : disk.fault (s.calls + 1) with
  | some msg => exact .inl ⟨hfault 1 (by omega) (by simp [h₁]), rfl, rfl⟩
  | none =>
  dsimp only
  have hfails : ∀ {e}, edits disk.parsers s.file key value = .error e →
      ∀ edited conf, ¬ Writes disk s key value edited conf := by
    intro e he edited conf h
    cases he.symm.trans h.2.2
  cases hread : readMap s.file with
  | error e => exact .inl ⟨hfails (e := e) (by simp [edits, hread, bind, Except.bind]), rfl, rfl⟩
  | ok m =>
  dsimp only
  rw [exec_ofResult_bind]
  cases hedit : editMap m key value with
  | error e =>
    exact .inl ⟨hfails (e := e) (by simp [edits, hread, hedit, bind, Except.bind]), rfl, rfl⟩
  | ok edited =>
  dsimp only
  rw [exec_ofResult_bind]
  cases hconf : fromMap disk.parsers edited with
  | error e =>
    exact .inl ⟨hfails (e := e) (by simp [edits, hread, hedit, hconf, bind, Except.bind]), rfl, rfl⟩
  | ok conf =>
  dsimp only
  rw [exec_bind, exec_writeConfigFile]
  cases h₂ : disk.fault (s.calls + 2) with
  | some msg => exact .inl ⟨hfault 2 (by omega) (by simp [h₂]), rfl, rfl⟩
  | none =>
    refine .inr ⟨edited, conf, ⟨by simpa using hopen, forall_lt_three.mpr ⟨h₀, h₁, h₂⟩, ?_⟩, ?_⟩
    · simp [edits, hread, hedit, hconf, bind, Except.bind]
    · dsimp only
      cases disk.write (s.calls + 2) <;> rfl

/-- **When the private key survives.**  After `SetConfigKey` on a file with a
private key, the keys in memory and in the file are the same as before exactly
when the call does not get to its first write, or that write is sound and the rest
of the call keeps the key. -/
theorem setConfigKey_unchanged_iff (disk : Disk) (s : Repo) (key : String) (value : Json)
    (pk : String) (hpk : storedKey s.file = some (.str pk)) :
    Unchanged disk.parsers s (exec (setConfigKey disk key value) s).2 ↔
      ∀ edited conf, Writes disk s key value edited conf → disk.Sound (s.calls + 2) ∧
        KeepsKey disk (s.calls + 3) (privKey disk.parsers s.config) pk edited := by
  rcases setConfigKey_cases disk s key value with ⟨hno, hsame⟩ | ⟨edited, conf, hwrites, hexec⟩
  · exact iff_of_true hsame.unchanged fun edited conf h => absurd h (hno edited conf)
  have hedits := hwrites.2.2
  have honly : (∀ edited' conf', Writes disk s key value edited' conf' →
      disk.Sound (s.calls + 2) ∧
        KeepsKey disk (s.calls + 3) (privKey disk.parsers s.config) pk edited') ↔
      disk.Sound (s.calls + 2) ∧
        KeepsKey disk (s.calls + 3) (privKey disk.parsers s.config) pk edited := by
    refine ⟨fun h => h edited conf hwrites, fun h edited' conf' hw => ?_⟩
    cases hw.2.2.symm.trans hedits
    exact h
  rw [honly, hexec]
  obtain ⟨m, hread, hedits⟩ := bind_eq_ok.mp hedits
  obtain ⟨edited', hedit, hedits⟩ := bind_eq_ok.mp hedits
  obtain ⟨conf', hconf, hedits⟩ := bind_eq_ok.mp hedits
  cases hedits
  -- the edited map has the old key under its name
  obtain ⟨hcanon, hkey⟩ := editMap_ok (canonical_readMap hread) hedit
  have hstored : storedKey (.obj edited) = storedKey s.file := by
    rw [storedKey_obj hcanon, hkey, storedKey_of_readMap hread]
  have hupdate : ∀ file base, readMap file = .ok base → storedKey file = storedKey s.file →
      (Unchanged disk.parsers s
        (exec (setConfigUnsynced disk conf) ⟨file, s.config, s.closed, s.calls + 3⟩).2 ↔
          KeepsKey disk (s.calls + 3) (privKey disk.parsers s.config) pk edited) := by
    intro file base hbase hfile
    have hiff := unchanged_update_iff (s := ⟨file, s.config, s.closed, s.calls + 3⟩)
      (hfile.trans hpk) hbase hconf
    rw [← hiff, Unchanged, Unchanged, hfile]
  rw [Disk.Sound]
  cases disk.write (s.calls + 2) with
  | torn part msg => simp [Unchanged, storedKey_torn, hpk]
  | whole =>
    have hread' : readMap (.obj edited) = .ok edited := by
      rw [readMap, canonMembers_of_canonical hcanon]
    simpa using hupdate _ _ hread' hstored
  | lost => simpa using hupdate _ _ hread rfl

end SetKey

/-- Setting a key that is no spelling of the private key leaves it alone. -/
theorem setConfigKey_unchanged_iff_routing :
    storedKey keyRepo.file = some (.str "old") ∧
      (exec (setConfigKey calmEnv "Routing.Type" (.str "dht")) keyRepo).1.isOk = true ∧
      Unchanged noParsers keyRepo
        (exec (setConfigKey calmEnv "Routing.Type" (.str "dht")) keyRepo).2 := by
  have hpk : storedKey keyRepo.file = some (.str "old") := rfl
  refine ⟨hpk, by decide +kernel, (setConfigKey_unchanged_iff calmEnv keyRepo "Routing.Type"
    (.str "dht") "old" hpk).mpr ?_⟩
  intro edited conf hwrites
  have hlast : (edits noParsers keyRepo.file "Routing.Type" (.str "dht")).toOption.map
      (fun e => lastSpelling e.1) = some "old" := by
    decide +kernel
  have hedits : edits noParsers keyRepo.file "Routing.Type" (.str "dht") = .ok (edited, conf) :=
    hwrites.2.2
  rw [hedits] at hlast
  have hold : lastSpelling edited = "old" := Option.some.inj hlast
  refine ⟨nofun, fun _ => ⟨nofun, ?_, fun _ => ⟨hold, by decide⟩⟩⟩
  rw [hold]
  rfl

end FsRepo
