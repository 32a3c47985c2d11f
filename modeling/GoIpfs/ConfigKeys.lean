import GoIpfs.GoKeys
import GoIpfs.RepoConfig

/-!
# Reading back a config key, and the keys of the user

`GetConfigKey` reads the file as a map.  After `SetConfigKey` the file holds every
section as it is printed from the decoded struct, and every other key as the map
had it.  A key in a section is therefore read back as Go prints what it has read for
that key, and what a section holds besides its fields is gone.
-/

namespace FsRepo

open GoJson Config Effects List Option Except

def valueAt (file : Json) (path : List String) : Except String Json := do
  let m ← readMap file
  getParts [] path (.obj m)

/-- `GetConfigKey` returns the value, when the file can be read. -/
def ReadsBack (parsers : Parsers) (t : Repo) (key : String) (value : Json) : Prop :=
  (exec (getConfigKey ⟨parsers, fun _ => none⟩ key) t).1 = .ok (canon value)

/-- The key paths that are no fields of `Config` have kept their values, except those
that meet the key. -/
def UserKeysKept (key : String) (s t : Repo) : Prop :=
  ∀ path, configTy.hasPath path = false →
    ¬ path <+: splitKey key → ¬ splitKey key <+: path →
    ∀ x, valueAt s.file path = .ok x → valueAt t.file path = .ok x

def userRepo : Repo where
  file := .obj [("Identity", .obj [("PrivKey", .str "old")]),
    ("Swarm", .obj [("Custom", .bool true)])]
  config := .struct [("Identity", .struct [("PeerID", .str ""), ("PrivKey", .str "old")])]
  closed := false
  calls := 0

/-- **A key of the user is lost.**  Setting `Routing.Type` returns nil and drops
`Swarm.Custom`. -/
theorem setConfigKey_drops_user_key :
    (exec (setConfigKey calmEnv "Routing.Type" (.str "dht"))
        userRepo).1.isOk = true ∧
      ¬ UserKeysKept "Routing.Type" userRepo
        (exec (setConfigKey calmEnv "Routing.Type" (.str "dht"))
          userRepo).2 := by
  refine ⟨by decide +kernel, fun h => ?_⟩
  have hkept := h ["Swarm", "Custom"] (by decide) (by decide) (by decide) (.bool true) rfl
  have hlost : (valueAt (exec (setConfigKey calmEnv "Routing.Type"
      (.str "dht")) userRepo).2.file ["Swarm", "Custom"]).isOk = false := by
    decide +kernel
  rw [hkept] at hlost
  cases hlost

def inSection : List String → Bool
  | [] => false
  | part :: _ => configFields.any fun f => f.name = part

/-- The condition on the key and its value: if the key is in a section, then what is
read for it in the edited map, in all spellings and one over the other, is printed
as the value. -/
def Printable (parsers : Parsers) (edited : Members) (key : String) (value : Json) : Prop :=
  inSection (splitKey key) = true →
    ∃ t js v, placeAt (codecs parsers) configTy [.obj edited] (splitKey key) = some (t, js) ∧
      decodeAll (codecs parsers) t js (zero (codecs parsers) t) = .ok v ∧
      canon (encode (codecs parsers) t v) = canon value

/-- The condition on the file: a section holds nothing but its fields, except where it
meets the key. -/
def OnlyFields (file : Json) (key : String) : Prop :=
  ∀ path, inSection path = true → configTy.hasPath path = false →
    ∀ x, valueAt file path = .ok x → path <+: splitKey key ∨ splitKey key <+: path

/-! ### Reading paths -/

variable {value : Json}

section Paths

/-- **What a printed value has at a path is what was read for it.** -/
theorem getParts_encode {κ : Type} {cs : κ → Codec} {path sofar : List String} {t : GoTy κ}
    {js : List Json} {x : Val} (hwell : wellNamed t = true)
    (h : decodeAll cs t js (zero cs t) = .ok x) {y : Json} :
    getParts sofar path (canon (encode cs t x)) = .ok y ↔
      ∃ t' js' v, placeAt cs t js path = some (t', js') ∧
        decodeAll cs t' js' (zero cs t') = .ok v ∧ canon (encode cs t' v) = y := by
  induction path generalizing sofar t js x with
  | nil =>
    constructor
    · intro hget
      exact ⟨t, js, x, rfl, h, ok.inj hget⟩
    · rintro ⟨t', js', v, hplace, hv, rfl⟩
      cases hplace
      obtain rfl : x = v := ok.inj (h.symm.trans hv)
      rfl
  | cons part rest ih =>
    have hshows := lookup_encode hwell h part
    rw [getParts_cons, placeAt]
    cases hbelow : below cs t js part with
    | none =>
      rw [hbelow] at hshows
      have hnone : (canon (encode cs t x)).members.lookup part = none := hshows
      simp [hnone]
    | some place =>
      obtain ⟨t₁, js₁⟩ := place
      rw [hbelow] at hshows
      obtain ⟨hwell₁, v₁, hv₁, htext⟩ := hshows
      rw [htext]
      simp only [some.injEq, exists_eq_left']
      exact ih hwell₁ hv₁

variable {sofar key path : List String} {m : Members} {part : String} {x : Json}

/-- A value that is a map or that `MapSetKV` replaces by one. -/
def MapOrNull : Json → Prop
  | .obj _ | .null => True
  | _ => False

theorem getParts_ne_of_empty {j : Json} (h : path ≠ [] ∨ ¬ MapOrNull x) (hj : MapOrNull j)
    (hnone : j.members = []) : getParts sofar path j ≠ .ok x := by
  intro hget
  cases path with
  | nil =>
    cases hget
    exact h.resolve_left (absurd rfl) hj
  | cons q ps =>
    obtain ⟨found, hfound, _⟩ := getParts_cons.mp hget
    rw [hnone] at hfound
    cases hfound

theorem getParts_nextMap (h : path ≠ [] ∨ ¬ MapOrNull x) :
    getParts sofar path (nextMap m part) = .ok x ↔
      ∃ found, m.lookup part = some found ∧ getParts sofar path found = .ok x := by
  have hnew : getParts sofar path (.obj []) ≠ .ok x := getParts_ne_of_empty h True.intro rfl
  unfold nextMap
  cases m.lookup part with
  | none => simp [hnew]
  | some found =>
    cases found with
    | null => simp [hnew, getParts_ne_of_empty h (j := .null) True.intro rfl]
    | _ => simp

theorem getParts_setParts_ne {cursor next : Json} (h : setParts value sofar key cursor = .ok next)
    (hpath : ¬ path <+: key) (hkey : ¬ key <+: path) :
    getParts sofar path next = .ok x ↔ getParts sofar path cursor = .ok x := by
  induction key generalizing sofar path cursor next with
  | nil => exact absurd nil_prefix hkey
  | cons part rest ih =>
    cases path with
    | nil => exact absurd nil_prefix hpath
    | cons q ps =>
      obtain ⟨m, below, rfl, rfl, hbelow⟩ := setParts_cons_ok h
      rw [getParts_cons, getParts_cons, Json.members, Json.members, lookup_setKey]
      by_cases hq : q = part
      · subst hq
        rw [prefix_cons_inj] at hpath hkey
        have hps : ps ≠ [] := fun hnil => hpath (hnil ▸ nil_prefix)
        rw [← getParts_nextMap (.inl hps)]
        rcases hbelow with ⟨rfl, _⟩ | ⟨_, hbelow⟩
        · exact absurd nil_prefix hkey
        · simp [ih hbelow hpath hkey]
      · rw [if_neg hq]

/-- The loop of `MapSetKV` on the maps themselves: what the cursor has become when the
call returns, and the error. -/
def setInPlace (value : Json) (sofar : List String) : List String → Json → Json × Option String
  | [], cursor => (cursor, none)
  | part :: rest, .obj m =>
    if rest = [] then (.obj (setKey part value m), none)
    else
      let below := setInPlace value (sofar ++ [part]) rest (nextMap m part)
      (.obj (setKey part below.1 m), below.2)
  | _ :: _, cursor => (cursor, some (".".intercalate sofar ++ " key is not a map"))

/-- Some proper part of the key holds a value that is neither a map nor null. -/
def Blocked (sofar key : List String) (cursor : Json) : Prop :=
  ∃ path x, path <+: key ∧ path ≠ key ∧ getParts sofar path cursor = .ok x ∧ ¬ MapOrNull x

theorem blocked_cons :
    Blocked sofar (part :: key) (.obj m) ↔ Blocked (sofar ++ [part]) key (nextMap m part) := by
  constructor
  · rintro ⟨path, x, hpre, hne, hget, hx⟩
    cases path with
    | nil =>
      cases hget
      exact absurd True.intro hx
    | cons q ps =>
      obtain ⟨rfl, hps⟩ := cons_prefix_cons.mp hpre
      refine ⟨ps, x, hps, fun heq => hne (heq ▸ rfl), ?_, hx⟩
      exact (getParts_nextMap (.inr hx)).mpr (getParts_cons.mp hget)
  · rintro ⟨path, x, hpre, hne, hget, hx⟩
    refine ⟨part :: path, x, (prefix_cons_inj part).mpr hpre, fun heq => hne (cons.inj heq).2,
      getParts_cons.mpr ?_, hx⟩
    exact (getParts_nextMap (.inr hx)).mp hget

/-- What is in the way was there before. -/
theorem lookup_of_blocked (h : Blocked sofar key (nextMap m part)) :
    m.lookup part = some (nextMap m part) := by
  obtain ⟨path, x, _, _, hget, hx⟩ := h
  unfold nextMap at hget ⊢
  cases hlook : m.lookup part with
  | none =>
    rw [hlook] at hget
    exact absurd hget (getParts_ne_of_empty (.inr hx) True.intro rfl)
  | some found =>
    cases found with
    | null =>
      rw [hlook] at hget
      exact absurd hget (getParts_ne_of_empty (.inr hx) True.intro rfl)
    | _ => rfl

/-- **The two outcomes of `MapSetKV`.**  It returns nil and the map is the new one, or some
part of the key is in the way and the map is the old one: a map is only made where
nothing below it can fail. -/
theorem setInPlace_cases (value : Json) (sofar : List String) (hkey : key ≠ []) {cursor : Json}
    (hcursor : Canonical cursor) (hnull : cursor ≠ .null) :
    (¬ Blocked sofar key cursor ∧ (setInPlace value sofar key cursor).2 = none ∧
      setParts value sofar key cursor = .ok (setInPlace value sofar key cursor).1) ∨
    (Blocked sofar key cursor ∧ (setInPlace value sofar key cursor).2 ≠ none ∧
      (setInPlace value sofar key cursor).1 = cursor) := by
  induction key generalizing sofar cursor with
  | nil => exact absurd rfl hkey
  | cons part rest ih =>
    cases cursor with
    | null => exact absurd rfl hnull
    | obj m =>
      by_cases hrest : rest = []
      · subst hrest
        refine .inl ⟨?_, rfl, rfl⟩
        rw [blocked_cons]
        rintro ⟨path, x, hpre, hne, _⟩
        exact hne (prefix_nil.mp hpre)
      · have hnext : nextMap m part ≠ .null := by
          unfold nextMap
          split <;> simp_all
        rw [blocked_cons, setInPlace, setParts, if_neg hrest, if_neg hrest]
        rcases ih (sofar ++ [part]) hrest (canonical_nextMap hcursor part) hnext with
          ⟨hfree, hnone, hset⟩ | ⟨hblocked, herr, hsame⟩
        · refine .inl ⟨hfree, hnone, ?_⟩
          rw [hset]
          rfl
        · refine .inr ⟨hblocked, herr, ?_⟩
          have hback := setKey_of_lookup (canonical_obj.mp hcursor).1 (lookup_of_blocked hblocked)
          simp only [hsame, hback]
    | _ => exact .inr ⟨⟨[], _, nil_prefix, by simp, rfl, id⟩, by simp [setInPlace], rfl⟩

/-- `common.MapSetKV` on the map itself: the map after the call, and the error. -/
def mapSetKVInPlace (m : Members) (key : String) (value : Json) : Members × Option String :=
  let after := setInPlace value [] (splitKey key) (.obj m)
  (after.1.members, after.2)

/-- **The update laws of dotted keys.**  After a nil error the key reads the value, and a
key that does not meet it reads what it read before.  An error leaves the map as it
was, and comes exactly if a proper part of the key is in the way. -/
theorem mapSetKVInPlace_laws (m : {m : Members // Canonical (.obj m)}) (key : String)
    (value : Json) :
    ((mapSetKVInPlace m key value).2 = none →
      mapGetKV (mapSetKVInPlace m key value).1 key = .ok value ∧
      ∀ key', ¬ splitKey key' <+: splitKey key → ¬ splitKey key <+: splitKey key' →
        ∀ x, mapGetKV (mapSetKVInPlace m key value).1 key' = .ok x ↔ mapGetKV m key' = .ok x) ∧
    ((mapSetKVInPlace m key value).2 ≠ none → (mapSetKVInPlace m key value).1 = m) ∧
    ((mapSetKVInPlace m key value).2 ≠ none ↔ Blocked [] (splitKey key) (.obj m)) := by
  obtain ⟨m, hm⟩ := m
  have hne := splitKey_ne_nil key
  unfold mapSetKVInPlace mapGetKV
  rcases setInPlace_cases value [] hne hm nofun with
    ⟨hfree, hnone, hset⟩ | ⟨hblocked, herr, hsame⟩
  · obtain ⟨after, hafter⟩ := setParts_obj hset
    rw [hafter] at hset
    simp only [hnone, hafter, hfree, ne_eq, not_true_eq_false, false_implies, and_true]
    exact fun _ => ⟨getParts_setParts hne hset, fun key' hpath hkey x =>
      getParts_setParts_ne hset hpath hkey⟩
  · simp [herr, hblocked, hsame, Json.members]

/-- A string is in the way of the key, and the map stays as it was. -/
theorem mapSetKVInPlace_laws_blocked :
    Canonical (.obj [("Routing", .str "dht")]) ∧
      (mapSetKVInPlace [("Routing", .str "dht")] "Routing.Type" (.str "dht")).1 =
        [("Routing", .str "dht")] := by
  have hm : Canonical (.obj [("Routing", .str "dht")]) := by
    simp [Canonical, CanonicalMembers, Increasing]
  have hfails : (mapSetKVInPlace [("Routing", .str "dht")] "Routing.Type" (.str "dht")).2 ≠
      none := by
    decide
  exact ⟨hm, (mapSetKVInPlace_laws ⟨_, hm⟩ "Routing.Type" (.str "dht")).2.1 hfails⟩

end Paths

/-! ### The file that `SetConfigKey` leaves -/

variable {m : Members}

section Written

variable {env : Env} {s : Repo}

/-- The same file, and the repo as open as before. -/
def SameFile (s t : Repo) : Prop := t.file = s.file ∧ t.closed = s.closed

theorem fsCall_sameFile : Wp (fun _ => True) (fsCall env) (fun _ t => SameFile s t) s := by
  unfold fsCall
  rw [wp_bind, wp_get, wp_bind, wp_modify]
  split
  · exact wp_throw.mpr True.intro
  · exact wp_pure.mpr ⟨rfl, rfl⟩

theorem readConfigFile_sameFile : Wp (fun _ => True) (readConfigFile env)
      (fun m t => readMap s.file = .ok m ∧ SameFile s t) s := by
  refine wp_bind.mpr (fsCall_sameFile.mono ?_)
  intro _ t hst
  rw [wp_bind, wp_get]
  apply (ofResult_wp _ True.intro).mono
  rintro m u ⟨hread, rfl⟩
  exact ⟨hst.1 ▸ hread, hst⟩

theorem writeConfigFile_file (m : Members) : Wp (fun _ => True) (writeConfigFile env m)
      (fun _ t => t.file = .obj m ∧ t.closed = s.closed) s := by
  rw [writeConfigFile, wp_bind, wp_get]
  refine wp_bind.mpr (fsCall_sameFile.mono ?_)
  intro _ t hst
  exact wp_modify.mpr ⟨rfl, hst.2⟩

theorem setConfigUnsynced_file (updated : Val) : Wp (fun _ => True) (setConfigUnsynced env updated)
      (fun _ t => t.closed = s.closed ∧ ∃ m, readMap s.file = .ok m ∧
        t.file = .obj (merge m (toMap env.parsers updated))) s := by
  refine wp_bind.mpr (fsCall_sameFile.mono ?_)
  intro _ t hst
  refine wp_bind.mpr (readConfigFile_sameFile.mono ?_)
  rintro m u ⟨hread, htu⟩
  refine (writeConfigFile_file _).bind ?_
  intro _ v hv
  exact wp_modify.mpr ⟨hv.2.trans (htu.2.trans hst.2), m, hst.1 ▸ hread, hv.1⟩

/-- What a successful `SetConfigKey` leaves: the sections of the decoded config over
the edited map. -/
def Written (parsers : Parsers) (s : Repo) (key : String) (value : Json) (t : Repo) : Prop :=
  t.closed = false ∧ ∃ m edited conf, readMap s.file = .ok m ∧
    editMap m key value = .ok edited ∧ fromMap parsers edited = .ok conf ∧
    t.file = .obj (merge edited (toMap parsers conf))

theorem setConfigKey_written (env : Env) (s : Repo) (key : String) (value : Json) :
    Wp (fun _ => True) (setConfigKey env key value)
      (fun _ t => Written env.parsers s key value t) s := by
  unfold setConfigKey
  rw [wp_bind, wp_get]
  split
  · exact wp_throw.mpr True.intro
  rename_i hopen
  have hclosed : s.closed = false := by simpa using hopen
  refine wp_bind.mpr (fsCall_sameFile.mono ?_)
  intro _ t hst
  refine wp_bind.mpr (readConfigFile_sameFile.mono ?_)
  rintro m u ⟨hread, htu⟩
  rw [hst.1] at hread
  refine (ofResult_wp _ True.intro).bind ?_
  rintro edited v ⟨hedit, rfl⟩
  refine (ofResult_wp _ True.intro).bind ?_
  rintro conf w ⟨hconf, rfl⟩
  refine (writeConfigFile_file edited).bind ?_
  intro _ x hx
  refine (setConfigUnsynced_file conf).mono ?_
  rintro _ y ⟨hy, base, hbase, hfile⟩
  -- what is read again is the edited map
  have hcanon := (editMap_ok (canonical_readMap hread) hedit).1
  rw [hx.1, readMap, canonMembers_of_canonical hcanon] at hbase
  obtain rfl := ok.inj hbase
  refine ⟨?_, m, edited, conf, hread, hedit, hconf, hfile⟩
  rw [hy, hx.2, htu.2, hst.2, hclosed]

theorem wellNamed_configTy : wellNamed configTy = true := by
  decide +kernel

theorem configFields_printed : ∀ f ∈ configFields, f.omitEmpty = false := by
  decide

theorem lookup_toMap (parsers : Parsers) (vs : List (String × Val)) (part : String) :
    ((toMap parsers (.struct vs)).lookup part).isSome =
      configFields.any fun f => f.name = part := by
  cases hany : configFields.any fun f => f.name = part with
  | true =>
    obtain ⟨f, hf, hname⟩ := any_eq_true.mp hany
    obtain rfl : f.name = part := by simpa using hname
    have hlook : (toMap parsers (.struct vs)).lookup f.name = _ :=
      lookup_canon_encodeFields nodup_configFields hf (configFields_printed f hf)
    rw [hlook]
    rfl
  | false =>
    have hnone : (toMap parsers (.struct vs)).lookup part = none := by
      apply lookup_canonMembers_of_not_mem
      intro hmem
      obtain ⟨f, hf, hname⟩ := mem_map.mp (name_of_mem_encodeFields hmem)
      have hany' := any_eq_false.mp hany f hf
      simp [hname] at hany'
    rw [hnone]
    rfl

theorem canon_encode_config (parsers : Parsers) (vs : List (String × Val)) :
    canon (encode (codecs parsers) configTy (.struct vs)) =
      .obj (toMap parsers (.struct vs)) := by
  unfold toMap
  rw [configTy, encode, canon, Json.members]

section Merged

variable {parsers : Parsers} {edited : Members} {conf : Val} {path : List String} {y : Json}

theorem getParts_merge_section (hconf : fromMap parsers edited = .ok conf)
    (hin : inSection path = true) :
    getParts [] path (.obj (merge edited (toMap parsers conf))) = .ok y ↔
      ∃ t js v, placeAt (codecs parsers) configTy [.obj edited] path = some (t, js) ∧
        decodeAll (codecs parsers) t js (zero (codecs parsers) t) = .ok v ∧
        canon (encode (codecs parsers) t v) = y := by
  have hdecode : decodeAll (codecs parsers) configTy [.obj edited]
      (zero (codecs parsers) configTy) = .ok conf := by
    unfold fromMap decodeConfig at hconf
    split at hconf
    · rename_i c hc
      cases hconf
      rw [decodeAll, foldlM_cons, hc]
      rfl
    · cases hconf
  obtain ⟨vs, rfl, _⟩ := decodeConfig_struct hconf
  have hprinted : getParts [] path (.obj (merge edited (toMap parsers (.struct vs)))) = .ok y ↔
      getParts [] path (canon (encode (codecs parsers) configTy (.struct vs))) = .ok y := by
    cases path with
    | nil => cases hin
    | cons part rest =>
      obtain ⟨text, htext⟩ := isSome_iff_exists.mp ((lookup_toMap parsers vs part).trans hin)
      rw [canon_encode_config, getParts_cons, getParts_cons]
      simp only [Json.members, lookup_merge, htext, some_or]
  rw [hprinted]
  exact getParts_encode wellNamed_configTy hdecode

theorem getParts_merge_other (hconf : fromMap parsers edited = .ok conf)
    (hpath : path ≠ []) (hout : inSection path = false) :
    getParts [] path (.obj (merge edited (toMap parsers conf))) = .ok y ↔
      getParts [] path (.obj edited) = .ok y := by
  obtain ⟨vs, rfl, _⟩ := decodeConfig_struct hconf
  obtain ⟨part, rest, rfl⟩ := exists_cons_of_ne_nil hpath
  have hnone : (toMap parsers (.struct vs)).lookup part = none := by
    have hsome := (lookup_toMap parsers vs part).trans hout
    simpa using hsome
  rw [getParts_cons, getParts_cons, Json.members, lookup_merge, hnone]
  rfl

end Merged

theorem not_meets_privKey {path : List String} (hne : path ≠ [])
    (hhead : path.head? ≠ some "Identity") :
    ¬ path <+: splitKey privKeySelector ∧ ¬ splitKey privKeySelector <+: path := by
  obtain ⟨part, rest, rfl⟩ := exists_cons_of_ne_nil hne
  have hpart : part ≠ "Identity" := by simpa using hhead
  rw [splitKey_privKeySelector]
  constructor
  · intro hpre
    exact hpart (cons_prefix_cons.mp hpre).1
  · intro hpre
    exact hpart (cons_prefix_cons.mp hpre).1.symm

/-- What the edited map has at the key and at the paths that do not meet it. -/
theorem getParts_editMap {edited : Members} {key : String} (h : editMap m key value = .ok edited) :
    ((splitKey key).head? ≠ some "Identity" →
      getParts [] (splitKey key) (.obj edited) = .ok (canon value)) ∧
    ∀ path x, path ≠ [] → path.head? ≠ some "Identity" → ¬ path <+: splitKey key →
      ¬ splitKey key <+: path → getParts [] path (.obj m) = .ok x →
      getParts [] path (.obj edited) = .ok x := by
  unfold editMap at h
  obtain ⟨pkval, _, h⟩ := bind_eq_ok.mp h
  obtain ⟨m₁, hm₁, h⟩ := bind_eq_ok.mp h
  have hset := mapSetKV_eq_ok hm₁
  have hback := mapSetKV_eq_ok h
  constructor
  · intro hkey
    obtain ⟨hpre, hpost⟩ := not_meets_privKey (splitKey_ne_nil key) hkey
    exact (getParts_setParts_ne hback hpre hpost).mpr (getParts_setParts (splitKey_ne_nil key) hset)
  · intro path x hne hhead hpath hkey hx
    obtain ⟨hpre, hpost⟩ := not_meets_privKey hne hhead
    rw [getParts_setParts_ne hback hpre hpost, getParts_setParts_ne hset hpath hkey]
    exact hx

theorem valueAt_obj (hm : Canonical (.obj m)) (path : List String) :
    valueAt (.obj m) path = getParts [] path (.obj m) := by
  unfold valueAt
  rw [readMap, canonMembers_of_canonical hm]
  rfl

theorem valueAt_eq {file : Json} (hread : readMap file = .ok m) (path : List String) :
    valueAt file path = getParts [] path (.obj m) := by
  unfold valueAt
  rw [hread]
  rfl

theorem readsBack_iff {parsers : Parsers} {t : Repo} {key : String} (hopen : t.closed = false) :
    ReadsBack parsers t key value ↔ valueAt t.file (splitKey key) = .ok (canon value) := by
  have hexec : (exec (getConfigKey ⟨parsers, fun _ => none⟩ key) t).1 =
      valueAt t.file (splitKey key) := by
    unfold valueAt
    cases hread : readMap t.file with
    | error e =>
      simp [getConfigKey, exec_bind, exec_fsCall, exec_readConfigFile, hopen, hread]
      rfl
    | ok m =>
      cases hget : mapGetKV m key with
      | error e | ok x =>
        simp [getConfigKey, exec_bind, exec_fsCall, exec_readConfigFile, ofResult, hopen, hread,
          hget]
        exact hget.symm
  unfold ReadsBack
  rw [hexec]

end Written

/-- **When setting a key is faithful.**  After `SetConfigKey` has returned nil for a key
outside the identity section, the key reads back as the value and all user keys that
do not meet it are kept, exactly when the file's sections hold nothing but fields,
except where they meet the key, and the value is what Go prints for it. -/
theorem setConfigKey_faithful_iff (env : Env) (s t : Repo) (key : String) (value : Json)
    (hkey : (splitKey key).head? ≠ some "Identity")
    (hok : exec (setConfigKey env key value) s = (.ok (), t)) :
    (ReadsBack env.parsers t key value ∧ UserKeysKept key s t) ↔
      OnlyFields s.file key ∧
        ∀ m edited, readMap s.file = .ok m → editMap m key value = .ok edited →
          Printable env.parsers edited key value := by
  obtain ⟨hopen, m, edited, conf, hread, hedit, hconf, hfile⟩ :=
    (setConfigKey_written env s key value).ok hok
  have hcanon := (editMap_ok (canonical_readMap hread) hedit).1
  have hwritten : ∀ path, valueAt t.file path =
      getParts [] path (.obj (merge edited (toMap env.parsers conf))) := by
    intro path
    rw [hfile]
    exact valueAt_obj (canonical_merge hcanon (canonicalMembers_canonMembers _)) path
  obtain ⟨hself, hframe⟩ := getParts_editMap hedit
  have hreads : ReadsBack env.parsers t key value ↔
      Printable env.parsers edited key value := by
    rw [readsBack_iff hopen, hwritten]
    cases hin : inSection (splitKey key) with
    | true =>
      rw [getParts_merge_section hconf hin]
      simp only [Printable, hin, forall_const]
    | false =>
      rw [getParts_merge_other hconf (splitKey_ne_nil key) hin]
      simp only [Printable, hin, Bool.false_eq_true, false_implies, iff_true]
      exact hself hkey
  have hkept : UserKeysKept key s t ↔ OnlyFields s.file key := by
    constructor
    · intro h path hin hpath x hx
      by_contra hmeets
      rw [not_or] at hmeets
      have hval := h path hpath hmeets.1 hmeets.2 x hx
      rw [hwritten, getParts_merge_section hconf hin] at hval
      obtain ⟨t', js, v, hplace, _⟩ := hval
      rw [placeAt_eq_none hpath] at hplace
      cases hplace
    intro h path hpath hpre hpost x hx
    cases hin : inSection path with
    | true =>
      rcases h path hin hpath x hx with hmeets | hmeets
      · exact absurd hmeets hpre
      · exact absurd hmeets hpost
    | false =>
      have hne : path ≠ [] := by
        rintro rfl
        cases hpath
      have hhead : path.head? ≠ some "Identity" := by
        intro hhead
        obtain ⟨part, rest, rfl⟩ := exists_cons_of_ne_nil hne
        obtain rfl : part = "Identity" := by simpa using hhead
        cases hin
      rw [hwritten, getParts_merge_other hconf hne hin]
      rw [valueAt_eq hread] at hx
      exact hframe path x hne hhead hpre hpost hx
  rw [hreads, hkept]
  constructor
  · rintro ⟨hprint, honly⟩
    refine ⟨honly, ?_⟩
    intro n n' hn hn'
    obtain rfl : m = n := ok.inj (hread.symm.trans hn)
    obtain rfl : edited = n' := ok.inj (hedit.symm.trans hn')
    exact hprint
  · rintro ⟨honly, hprint⟩
    exact ⟨hprint m edited hread hedit, honly⟩

/-- A file with a key of the user outside the sections. -/
def customRepo : Repo :=
  { keyRepo with
    file := .obj [("Custom", .bool true), ("Identity", .obj [("PrivKey", .str "old")])] }

theorem mem_of_lookup {k : String} {ms : Members} {v : Json} (h : ms.lookup k = some v) :
    (k, v) ∈ ms := by
  obtain ⟨before, after, rfl, -⟩ := List.lookup_eq_some_iff.mp h
  simp

theorem onlyFields_customRepo (key : String) : OnlyFields customRepo.file key := by
  intro path hin hpath x hx
  cases path with
  | nil => cases hpath
  | cons part rest =>
    obtain ⟨next, hnext, hrest⟩ := getParts_cons.mp hx
    have hmem : (part, next) ∈ [("Custom", Json.bool true),
        ("Identity", .obj [("PrivKey", .str "old")])] := mem_of_lookup hnext
    simp only [mem_cons, Prod.mk.injEq, not_mem_nil, or_false] at hmem
    rcases hmem with ⟨rfl, rfl⟩ | ⟨rfl, rfl⟩
    · exact absurd (show inSection ["Custom"] = true from hin) (by decide)
    cases rest with
    | nil => exact absurd hpath (by decide)
    | cons part rest =>
      obtain ⟨next, hnext, hrest⟩ := getParts_cons.mp hrest
      have hmem : (part, next) ∈ [("PrivKey", Json.str "old")] := mem_of_lookup hnext
      simp only [mem_singleton, Prod.mk.injEq] at hmem
      obtain ⟨rfl, rfl⟩ := hmem
      cases rest with
      | nil => exact absurd hpath (by decide)
      | cons part rest => cases hrest

/-- Setting `Routing.Type` keeps the key of the user. -/
theorem setConfigKey_faithful_iff_routing :
    ∃ t, exec (setConfigKey calmEnv "Routing.Type" (.str "dht")) customRepo = (.ok (), t) ∧
      valueAt customRepo.file ["Custom"] = .ok (.bool true) ∧
      ReadsBack noParsers t "Routing.Type" (.str "dht") ∧
      UserKeysKept "Routing.Type" customRepo t := by
  have hisOk : (exec (setConfigKey calmEnv "Routing.Type" (.str "dht"))
      customRepo).1.isOk = true := by
    decide +kernel
  rcases hexec : exec (setConfigKey calmEnv "Routing.Type" (.str "dht"))
    customRepo with ⟨res, t⟩
  rw [hexec] at hisOk
  cases res with
  | error e => cases hisOk
  | ok u =>
    refine ⟨t, rfl, rfl, (setConfigKey_faithful_iff calmEnv customRepo t
      "Routing.Type" (.str "dht") (by decide) hexec).mpr ⟨onlyFields_customRepo _, ?_⟩⟩
    intro m edited hm hedited _
    obtain rfl : [("Custom", .bool true), ("Identity", .obj [("PrivKey", .str "old")])] = m :=
      ok.inj hm
    obtain rfl : [("Custom", .bool true), ("Identity", .obj [("PrivKey", .str "old")]),
        ("Routing", .obj [("Type", .str "dht")])] = edited := ok.inj hedited
    exact ⟨.string, [.str "dht"], .str "dht", rfl, rfl, rfl⟩

end FsRepo
