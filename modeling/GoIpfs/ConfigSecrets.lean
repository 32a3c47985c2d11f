import GoIpfs.ConfigScrub
import GoIpfs.ConfigText

/-!
# Secrets in the output of the config commands

Two repos whose configs differ only in the private key and in the keys of the
remote pinning services are run side by side.  `config show` and `config <key>`
give the same output or the same error.  `config profile apply` gives the same
error, but its output has the keys of the services in it, since it scrubs the
private key only: `output_same_iff` says that this is the one leak.  What a
`profile apply` needs to succeed is `Applies`.
-/

namespace ConfigCommands

open GoJson Config FsRepo Effects

/-- Repos that are equal but for the selected strings. -/
structure SameBut (sels : Selectors) (s t : Repo) : Prop where
  file : Alike sels s.file t.file
  config : AlikeVal sels s.config t.config
  closed : s.closed = t.closed
  calls : s.calls = t.calls

/-- A transformer that does not read secrets: whichever of them differ in the
configs that it is given, nothing else differs in what it gives. -/
def Oblivious (transformer : Val → Except String Val) : Prop :=
  ∀ sels, sels ⊆ secretSelectors → ∀ v w, AlikeVal sels v w →
    Agree (AlikeVal sels) (transformer v) (transformer w)

def serviceRepo (privKey key : String) : Repo where
  file := .obj [("Identity", .obj [("PeerID", .str "Qm"), ("PrivKey", .str privKey)]),
    ("Pinning", .obj [("RemoteServices", .obj [("svc", .obj [
      ("API", .obj [("Endpoint", .str "https://svc"), ("Key", .str key)])])])])]
  config := .nil
  closed := true
  calls := 0

/-- A profile that changes nothing, in an environment without failures. -/
def plainEnv : Env where
  repo := ⟨noParsers, fun _ => none⟩
  folding := asciiFolding
  openStores := fun _ => none
  profiles := fun _ => some .ok

theorem oblivious_plainEnv : ∀ name transformer,
    plainEnv.profiles name = some transformer → Oblivious transformer := by
  intro name transformer h
  cases h
  intro sels _ v w hvw
  exact hvw

theorem sameBut_serviceRepo (privKey privKey' key key' : String) :
    SameBut secretSelectors (serviceRepo privKey key) (serviceRepo privKey' key') := by
  refine ⟨?_, rfl, rfl, rfl⟩
  simp [serviceRepo, Alike, AlikeMembers, advance, secretSelectors, privKeyPath,
    pinningConcealSelector]

/-- The first key that an old config shows. -/
def shownKey : Except String Output → Option String
  | .ok (.update oldCfg _) => do
      let pinning ← oldCfg.lookup "Pinning"
      let services ← pinning.members.lookup "RemoteServices"
      let service ← services.members.head?
      let api ← service.2.members.lookup "API"
      let key ← api.members.lookup "Key"
      key.string?
  | _ => none

/-- **`config profile apply` shows the keys of the services**, also when nothing
is applied. -/
theorem profileApply_shows_key :
    SameBut secretSelectors (serviceRepo "k" "a") (serviceRepo "k" "b") ∧
      (∀ name transformer, plainEnv.profiles name = some transformer →
        Oblivious transformer) ∧
      (exec ((Command.profileApply "server" true).run plainEnv) (serviceRepo "k" "a")).1 ≠
        (exec ((Command.profileApply "server" true).run plainEnv)
          (serviceRepo "k" "b")).1 := by
  refine ⟨sameBut_serviceRepo "k" "k" "a" "b", oblivious_plainEnv, fun heq => ?_⟩
  have hkey := congrArg shownKey heq
  revert hkey
  decide +kernel

variable {folding : Folding} {parsers : Parsers} {conf : Val}

section Steps

variable {env : Env} {s t : Repo} {sels : Selectors} {α β : Type} {Q : α → Repo → β → Repo → Prop}

theorem both_fsCall {m : Unit → RepoM α} {n : Unit → RepoM β} (env : FsRepo.Env)
    (hcalls : s.calls = t.calls)
    (h : Both (m ()) (n ()) Q { s with calls := s.calls + 1 } { t with calls := t.calls + 1 }) :
    Both (fsCall env >>= m) (fsCall env >>= n) Q s t := by
  have hfault : env.fault t.calls = env.fault s.calls := congrArg env.fault hcalls.symm
  refine both_bind (both_bind (both_get.mpr (both_bind (both_modify.mpr ?_))))
  rw [hfault]
  cases env.fault s.calls with
  | some msg => exact both_throw
  | none => exact both_pure.mpr h

theorem SameBut.call (h : SameBut sels s t) :
    SameBut sels { s with calls := s.calls + 1 } { t with calls := t.calls + 1 } :=
  ⟨h.file, h.config, h.closed, congrArg (· + 1) h.calls⟩

theorem both_ofResult {γ δ : Type} {R : α → β → Prop} {x : Except String α} {y : Except String β}
    {f : α → RepoM γ} {g : β → RepoM δ} {Q : γ → Repo → δ → Repo → Prop} (hxy : Agree R x y)
    (h : ∀ a b, R a b → x = .ok a → y = .ok b → Both (f a) (g b) Q s t) :
    Both (ofResult x >>= f) (ofResult y >>= g) Q s t := by
  refine both_bind ?_
  rcases hxy.elim with ⟨e, rfl, rfl⟩ | ⟨a, b, rfl, rfl, hab⟩
  · exact both_throw
  · exact both_pure.mpr (h a b hab rfl rfl)

theorem agree_of_members {f : Json → Except String Members} {j j' : Json}
    (hstr : ∀ a b, f (.str a) = f (.str b)) (hobj : ∀ ms, f (.obj ms) = .ok (canonMembers ms))
    (h : Alike sels j j') : Agree (AlikeEntries Alike sels) (f j) (f j') := by
  have hrefl : ∀ m, AlikeEntries Alike sels m m := fun m => alike_refl_all.2 m sels
  rcases h.elim with rfl | ⟨a, b, rfl, rfl, _⟩ | ⟨ms, ns, rfl, rfl, hms⟩
  · exact Agree.refl hrefl _
  · rw [hstr a b]
    exact Agree.refl hrefl _
  · rw [hobj, hobj]
    exact alike_canon_all.2 ms ns sels hms

theorem both_readConfigFile {f : Members → RepoM α} {g : Members → RepoM β} (env : FsRepo.Env)
    (hst : SameBut sels s t)
    (h : ∀ m m', AlikeEntries Alike sels m m' →
      Both (f m) (g m') Q { s with calls := s.calls + 1 } { t with calls := t.calls + 1 }) :
    Both (readConfigFile env >>= f) (readConfigFile env >>= g) Q s t := by
  refine both_bind (both_fsCall env hst.calls (both_bind (both_get.mpr ?_)))
  have hread := agree_of_members (f := readMap) (fun _ _ => rfl) (fun _ => rfl) hst.file
  rcases hread.elim with ⟨e, hx, hy⟩ | ⟨m, m', hx, hy, hm⟩
  · rw [hx, hy]
    exact both_throw
  · rw [hx, hy]
    exact both_pure.mpr (h m m' hm)

theorem decodeConfig_agree {j j' : Json} (hcon : concealable sels configTy = true)
    (h : Alike sels j j') :
    Agree (AlikeVal sels) (decodeConfig parsers j) (decodeConfig parsers j') := by
  have hdec : Agree (AlikeVal sels)
      (decode (codecs parsers) j configTy (zero (codecs parsers) configTy))
      (decode (codecs parsers) j' configTy (zero (codecs parsers) configTy)) :=
    decode_alike j configTy sels j' _ _ hcon h (AlikeVal.refl sels _)
  unfold decodeConfig
  rcases hdec.elim with ⟨e, hx, hy⟩ | ⟨v, w, hx, hy, hvw⟩
  · rw [hx, hy]
    rfl
  · rw [hx, hy]
    exact hvw

/-- The config that a command works on: the one in memory if the repo is open,
and the one in the file otherwise. -/
def configOf (env : Env) (s : Repo) : Except String Val :=
  if s.closed then decodeConfig env.repo.parsers s.file else .ok s.config

section

variable (h : SameBut secretSelectors s t)
include h

theorem openRepo_both :
    Both (openRepo env) (openRepo env)
      (fun _ s' _ t' => SameBut secretSelectors s' t' ∧ s'.closed = false ∧
        configOf env s = .ok s'.config ∧ configOf env t = .ok t'.config) s t := by
  refine both_bind (both_get.mpr ?_)
  have hclosed := h.closed
  cases hs : s.closed with
  | false =>
    rw [hs] at hclosed
    rw [← hclosed]
    refine both_pure.mpr ⟨h, hs, ?_, ?_⟩
    · rw [configOf, hs]
      rfl
    · rw [configOf, ← hclosed]
      rfl
  | true =>
    rw [hs] at hclosed
    rw [← hclosed]
    refine both_fsCall env.repo h.calls (both_fsCall env.repo h.call.calls ?_)
    refine both_bind (both_get.mpr (both_ofResult (decodeConfig_agree (by decide) h.file) ?_))
    intro conf conf' halike hload hload'
    -- no secret is in the datastore section
    have hstore : getField (codecs env.repo.parsers) conf.fields datastoreField =
        getField (codecs env.repo.parsers) conf'.fields datastoreField :=
      alikeVal_eq_all.1 _ _ (halike.fields.getD "Datastore" _)
    rw [hstore]
    cases env.openStores (getField (codecs env.repo.parsers) conf'.fields datastoreField) with
    | some e => exact both_throw
    | none =>
      refine both_modify.mpr ⟨⟨h.file, halike, rfl, h.call.call.calls⟩, rfl, ?_, ?_⟩
      · rw [configOf, hs]
        exact hload
      · rw [configOf, ← hclosed]
        exact hload'

/-- **`config show` hides the secrets.** -/
theorem configShow_same : (exec (configShow env) s).1 = (exec (configShow env) t).1 := by
  refine Both.outcome_eq (Q := fun a _ b _ => a = b) ?_ fun _ _ _ _ heq => heq
  refine both_fsCall env.repo h.calls (both_fsCall env.repo h.call.calls
    (both_fsCall env.repo h.call.call.calls (both_bind (both_get.mpr ?_))))
  refine both_ofResult (agree_of_members (fun _ _ => rfl) (fun _ => rfl) h.file)
    fun m m' hm _ _ => ?_
  have hscrub : Agree (· = ·) (scrubShown env.folding m) (scrubShown env.folding m') := by
    rw [scrubShown_eq hm]
    exact Agree.refl (fun _ => rfl) _
  refine both_ofResult hscrub fun n n' hn _ _ => ?_
  rw [hn]
  exact both_pure.mpr rfl

theorem getConfigKey_both {key : String}
    (hkey : ∀ sel ∈ secretSelectors, reaches (splitKey key) sel = false) :
    Both (getConfigKey env.repo key) (getConfigKey env.repo key) (fun v _ w _ => v = w) s t := by
  refine both_bind (both_get.mpr ?_)
  rw [h.closed]
  split
  · exact both_throw
  refine both_fsCall env.repo h.calls (both_readConfigFile env.repo h.call ?_)
  intro m m' hm
  have hget : mapGetKV m key = mapGetKV m' key := getParts_eq hkey (alike_obj.mpr hm)
  rw [hget]
  cases mapGetKV m' key with
  | error e => exact both_throw
  | ok v => exact both_pure.mpr rfl

end

/-- **`config <key>` shows no secret**, whatever the key. -/
theorem configKey_same (key : String) (h : SameBut secretSelectors s t) :
    (exec (configKey env key) s).1 = (exec (configKey env key) t).1 := by
  refine Both.outcome_eq (Q := fun a _ b _ => a = b) ?_ fun _ _ _ _ heq => heq
  unfold configKey
  split
  · exact both_throw
  rename_i hident
  split
  · exact both_throw
  rename_i hglob
  have hkey := reaches_of_allowed hident (Bool.eq_false_iff.mpr hglob)
  refine both_fsCall env.repo h.calls (both_bind ((openRepo_both h.call).mono ?_))
  intro _ s' _ t' hopen
  refine both_bind ((both_adapt _ (getConfigKey_both hopen.1 hkey)).mono ?_)
  intro v _ w _ hvw
  rw [hvw]
  exact both_pure.mpr rfl

theorem setConfigUnsynced_both {f : Unit → RepoM α} {g : Unit → RepoM β} (env : FsRepo.Env)
    (hst : SameBut sels s t) (updated updated' : Val) (h : ∀ s' t', Both (f ()) (g ()) Q s' t') :
    Both (setConfigUnsynced env updated >>= f) (setConfigUnsynced env updated' >>= g) Q s t := by
  refine both_bind (both_fsCall env hst.calls (both_readConfigFile env hst.call ?_))
  intro m m' _
  refine both_bind (both_bind (both_get.mpr
    (both_fsCall env hst.call.call.calls (both_modify.mpr ?_))))
  exact both_modify.mpr (h _ _)

theorem clone_agree {conf' : Val} (hcon : concealable sels configTy = true)
    (h : Alike sels (fullText parsers conf) (fullText parsers conf')) :
    Agree (AlikeVal sels) (clone parsers conf) (clone parsers conf') := by
  rw [clone_eq, clone_eq]
  exact decodeConfig_agree hcon h

theorem scrubPrivKey_agree {conf' : Val}
    (h : Alike (privKeyPath :: sels) (fullText parsers conf) (fullText parsers conf')) :
    Agree (AlikeEntries Alike sels) (scrubPrivKey folding parsers conf)
      (scrubPrivKey folding parsers conf') := by
  have hmembers : AlikeEntries Alike (privKeyPath :: sels) (fullText parsers conf).members
      (fullText parsers conf').members := by
    rcases h.elim with heq | ⟨a, b, ha, hb, _⟩ | ⟨ms, ns, hms, hns, hmem⟩
    · rw [heq]
      exact alike_refl_all.2 _ _
    · rw [ha, hb]
      exact alikeEntries_nil.mpr rfl
    · rw [hms, hns]
      exact hmem
  rw [scrubPrivKey_eq, scrubPrivKey_eq]
  exact scrubMapInternal_agree false (alike_canon_all.2 _ _ _ hmembers)

theorem transformConfig_both {transformer : Val → Except String Val} (dryRun : Bool)
    (hst : SameBut secretSelectors s t) (hcon : concealable sels configTy = true)
    (hobl : ∀ v w, AlikeVal sels v w →
      Agree (AlikeVal sels) (transformer v) (transformer w))
    (htext : ∀ c c', configOf env s = .ok c → configOf env t = .ok c' →
      Alike sels (fullText env.repo.parsers c) (fullText env.repo.parsers c')) :
    Both (transformConfig env transformer dryRun) (transformConfig env transformer dryRun)
      (fun p _ q _ => configOf env s = .ok p.1 ∧ configOf env t = .ok q.1 ∧
        AlikeVal sels p.2 q.2) s t := by
  refine both_bind ((openRepo_both hst).mono ?_)
  intro _ s' _ t' hopen
  obtain ⟨hst', hclosed, hs, ht⟩ := hopen
  refine both_bind (both_get.mpr ?_)
  rw [← hst'.closed, hclosed]
  refine both_ofResult (clone_agree hcon (htext _ _ hs ht)) fun v w hvw _ _ => ?_
  refine both_ofResult (hobl v w hvw) fun v' w' hnew _ _ => ?_
  split
  · exact both_pure.mpr ⟨hs, ht, hnew⟩
  · refine both_fsCall env.repo hst'.calls
      (setConfigUnsynced_both env.repo hst'.call v' w' fun _ _ => ?_)
    exact both_pure.mpr ⟨hs, ht, hnew⟩

/-- What is known of two outputs of `profile apply`. -/
def Applied (env : Env) (s t : Repo) (sels : Selectors) (a b : Output) : Prop :=
  ∃ c c' o o' n n', configOf env s = .ok c ∧ configOf env t = .ok c' ∧
    scrubPrivKey env.folding env.repo.parsers c = .ok o ∧
    scrubPrivKey env.folding env.repo.parsers c' = .ok o' ∧
    a = .update o n ∧ b = .update o' n' ∧
    AlikeEntries Alike sels o o' ∧ AlikeEntries Alike sels n n'

variable (profile : String) (dryRun : Bool)

/-- **`profile apply` side by side.**  The outputs differ in what the two configs
differ in, the private key apart. -/
theorem profileApply_both {extra : Selectors} (hst : SameBut secretSelectors s t)
    (hobl : ∀ name transformer, env.profiles name = some transformer → Oblivious transformer)
    (hsub : privKeyPath :: extra ⊆ secretSelectors)
    (hcon : concealable (privKeyPath :: extra) configTy = true)
    (hfull : concealable (privKeyPath :: extra) fullTy = true)
    (hpr : printed (privKeyPath :: extra) fullTy = true)
    (htext : ∀ c c', configOf env s = .ok c → configOf env t = .ok c' →
      Alike (privKeyPath :: extra) (fullText env.repo.parsers c) (fullText env.repo.parsers c')) :
    Both (configProfileApply env profile dryRun) (configProfileApply env profile dryRun)
      (fun a _ b _ => Applied env s t extra a b) s t := by
  unfold configProfileApply
  cases hprofile : env.profiles profile with
  | none => exact both_throw
  | some transformer =>
    refine both_fsCall env.repo hst.calls (both_bind ((transformConfig_both dryRun hst.call hcon
        (hobl profile transformer hprofile _ hsub) htext).mono ?_))
    intro p _ q _ hpq
    obtain ⟨hs, ht, hnew⟩ := hpq
    refine both_ofResult (scrubPrivKey_agree (htext _ _ hs ht)) fun o o' ho hold hold' => ?_
    refine both_ofResult (scrubPrivKey_agree (alike_fullText _ hfull hpr hnew))
      fun n n' hn _ _ => ?_
    exact both_pure.mpr ⟨p.1, q.1, o, o', n, n', hs, ht, hold, hold', rfl, rfl, ho, hn⟩

theorem alike_configOf (h : SameBut secretSelectors s t) {c c' : Val}
    (hs : configOf env s = .ok c) (ht : configOf env t = .ok c') :
    AlikeVal secretSelectors c c' := by
  have hagree : Agree (AlikeVal secretSelectors) (configOf env s) (configOf env t) := by
    unfold configOf
    rw [h.closed]
    split
    · exact decodeConfig_agree (by decide) h.file
    · exact h.config
  rw [hs, ht] at hagree
  exact hagree

theorem profileApply_all (hst : SameBut secretSelectors s t)
    (hobl : ∀ name transformer, env.profiles name = some transformer → Oblivious transformer) :
    Both (configProfileApply env profile dryRun) (configProfileApply env profile dryRun)
      (fun a _ b _ => Applied env s t [pinningConcealSelector] a b) s t := by
  refine profileApply_both profile dryRun hst hobl (List.Subset.refl _) (by decide)
    (by decide) (by decide) ?_
  intro c c' hs ht
  exact alike_fullText _ (by decide) (by decide) (alike_configOf hst hs ht)

/-- The keys of the remote services, in the config that a command works on. -/
def apiKeysOf (env : Env) (s : Repo) : List (String × Json) :=
  match configOf env s with
  | .ok conf => apiKeys env.repo.parsers conf
  | .error _ => []

theorem increasing_configOf
    (hord : s.closed = false → Increasing (remoteServices env.repo.parsers s.config).entries)
    (h : configOf env s = .ok conf) :
    Increasing (remoteServices env.repo.parsers conf).entries := by
  unfold configOf at h
  split at h
  · exact increasing_remoteServices env.repo.parsers h
  · rename_i hopen
    cases h
    exact hord (Bool.eq_false_iff.mpr hopen)

theorem apiKeysOf_eq_of_output (hst : SameBut secretSelectors s t)
    (hord : s.closed = false → Increasing (remoteServices env.repo.parsers s.config).entries)
    {a : Output} (h : Applied env s t [pinningConcealSelector] a a) :
    apiKeysOf env s = apiKeysOf env t := by
  obtain ⟨c, c', o, o', n, n', hs, ht, ho, ho', ha, ha', _, _⟩ := h
  have hoo : o = o' := by
    rw [ha] at ha'
    cases ha'
    rfl
  have hother : selects env.folding "Identity" "Pinning" = false := by
    rw [selects_of_ascii env.folding (by simp)]
    decide
  have hlook := lookup_scrubMembers hother ho
  have hlook' := lookup_scrubMembers hother ho'
  unfold apiKeysOf
  rw [hs, ht]
  refine apiKeys_eq_of_toMap env.repo.parsers (alike_configOf hst hs ht)
    (increasing_configOf hord hs) ?_
  rw [← hlook, ← hlook', hoo]

theorem profileApply_same (hst : SameBut secretSelectors s t)
    (hobl : ∀ name transformer, env.profiles name = some transformer → Oblivious transformer)
    (hkeys : apiKeysOf env s = apiKeysOf env t) :
    (exec (configProfileApply env profile dryRun) s).1 =
      (exec (configProfileApply env profile dryRun) t).1 := by
  have hsub : [privKeyPath] ⊆ secretSelectors :=
    List.cons_subset.mpr ⟨List.mem_cons_self, List.nil_subset _⟩
  have hboth : Both (configProfileApply env profile dryRun)
      (configProfileApply env profile dryRun)
      (fun a _ b _ => Applied env s t [] a b) s t := by
    refine profileApply_both profile dryRun hst hobl hsub (by decide)
      (by decide) (by decide) fun c c' hs ht => ?_
    unfold apiKeysOf at hkeys
    rw [hs, ht] at hkeys
    exact alike_fullText_of_apiKeys _ (alike_configOf hst hs ht) hkeys
  refine hboth.outcome_eq fun a _ b _ hab => ?_
  obtain ⟨_, _, o, o', n, n', _, _, _, _, rfl, rfl, ho, hn⟩ := hab
  rw [alike_eq_all.2 o o' ho, alike_eq_all.2 n n' hn]

/-- What a `profile apply` needs of the profile, of the config and of the calls that it
makes: one to find the repo, two to open it, if it is not open, and four to write. -/
def Applies (env : Env) (s : Repo) (profile : String) (dryRun : Bool) : Prop :=
  ∃ transformer conf copy newCfg, env.profiles profile = some transformer ∧
    configOf env s = .ok conf ∧ clone env.repo.parsers conf = .ok copy ∧
    transformer copy = .ok newCfg ∧ env.repo.fault s.calls = none ∧
    (s.closed = true → env.repo.fault (s.calls + 1) = none ∧
      env.repo.fault (s.calls + 2) = none ∧ env.openStores
        (getField (codecs env.repo.parsers) conf.fields datastoreField) = none) ∧
    (dryRun = false → (∃ m, readMap s.file = .ok m) ∧
      ∀ i < 4, env.repo.fault (s.calls + (if s.closed then 3 else 1) + i) = none)

section Succeeds

variable {γ : Type} {Q : γ → Repo → Prop}

theorem isOk_iff_wp {m : RepoM γ} :
    (exec m s).1.isOk = true ↔ Wp (fun _ => False) m (fun _ _ => True) s := by
  unfold Wp
  rcases exec m s with ⟨r, t⟩
  cases r <;> simp [Except.isOk, Except.toBool]

theorem succeeds_fsCall {env : FsRepo.Env} {Q : Unit → Repo → Prop} :
    Wp (fun _ => False) (fsCall env) Q s ↔
      env.fault s.calls = none ∧ Q () { s with calls := s.calls + 1 } := by
  unfold Wp
  rw [exec_fsCall]
  cases env.fault s.calls <;> simp

theorem succeeds_ofResult {r : Except String γ} :
    Wp (fun _ => False) (ofResult r) Q s ↔ ∃ c, r = .ok c ∧ Q c s := by
  cases r <;> simp [ofResult]

theorem succeeds_openRepo {Q : Unit → Repo → Prop} :
    Wp (fun _ => False) (openRepo env) Q s ↔
      ∃ conf, configOf env s = .ok conf ∧ (s.closed = true → env.repo.fault s.calls = none ∧
        env.repo.fault (s.calls + 1) = none ∧ env.openStores
          (getField (codecs env.repo.parsers) conf.fields datastoreField) = none) ∧
        Q () ⟨s.file, conf, false, s.calls + if s.closed then 2 else 0⟩ := by
  unfold openRepo configOf
  rw [wp_bind, wp_get]
  cases hclosed : s.closed with
  | false =>
    obtain ⟨file, config, closed, calls⟩ := s
    cases hclosed
    simp
  | true =>
    simp only [if_true, wp_bind, succeeds_fsCall, succeeds_ofResult, wp_get, forall_const]
    constructor
    · rintro ⟨h₀, h₁, conf, hconf, h⟩
      split at h
      · exact (wp_throw.mp h).elim
      · rename_i hstores
        exact ⟨conf, hconf, ⟨h₀, h₁, hstores⟩, wp_modify.mp h⟩
    · rintro ⟨conf, hconf, ⟨h₀, h₁, hstores⟩, h⟩
      refine ⟨h₀, h₁, conf, hconf, ?_⟩
      rw [hstores]
      exact wp_modify.mpr h

theorem succeeds_setConfigUnsynced {env : FsRepo.Env} (updated : Val) :
    Wp (fun _ => False) (setConfigUnsynced env updated) (fun _ _ => True) s ↔
      (∀ i < 3, env.fault (s.calls + i) = none) ∧ ∃ m, readMap s.file = .ok m := by
  rw [← isOk_iff_wp, setConfigUnsynced_ok_iff]

end Succeeds

/-- **A `profile apply` succeeds** exactly when it has what it needs. -/
theorem profileApply_isOk_iff :
    (exec (configProfileApply env profile dryRun) s).1.isOk = true ↔
      Applies env s profile dryRun := by
  have hscrub : ∀ conf, ∃ n, scrubPrivKey env.folding env.repo.parsers conf = .ok n :=
    fun conf => ⟨_, scrubMapInternal_eq false privKeyPath _⟩
  unfold configProfileApply Applies
  cases hprofile : env.profiles profile with
  | none => simp [Except.isOk, Except.toBool]
  | some transformer =>
    have hstore : ∀ (p : Val × Val) (n : Nat), Wp (fun _ => False)
        (if dryRun = true then pure p else do
          fsCall env.repo
          setConfigUnsynced env.repo p.2
          pure p) (fun p _ => (∃ n, scrubPrivKey env.folding env.repo.parsers p.1 = .ok n) ∧
            ∃ n, scrubPrivKey env.folding env.repo.parsers p.2 = .ok n)
          ⟨s.file, p.1, false, n⟩ ↔
        (dryRun = false → (∃ m, readMap s.file = .ok m) ∧
          ∀ i < 4, env.repo.fault (n + i) = none) := by
      intro p n
      simp only [hscrub, and_self]
      cases dryRun with
      | true => simp
      | false =>
        simp only [Bool.false_eq_true, if_false, wp_bind, succeeds_fsCall, wp_pure,
          succeeds_setConfigUnsynced, forall_const, Nat.forall_lt_succ_left]
        simp only [add_zero, add_comm, add_left_comm]
        tauto
    have hcalls : s.calls + 1 + (if s.closed = true then 2 else 0) =
        s.calls + if s.closed = true then 3 else 1 := by
      split <;> omega
    have hloads : configOf env { s with calls := s.calls + 1 } = configOf env s := rfl
    rw [isOk_iff_wp]
    simp only [wp_bind, succeeds_fsCall, succeeds_ofResult, transformConfig, succeeds_openRepo,
      wp_get, wp_pure, Bool.false_eq_true, if_false, hloads, and_true, exists_and_right, hcalls]
    constructor
    · rintro ⟨hfind, conf, hconf, hopen, copy, hcopy, newCfg, hnew, hrest⟩
      exact ⟨transformer, conf, copy, newCfg, rfl, hconf, hcopy, hnew, hfind, hopen,
        (hstore (conf, newCfg) _).mp hrest⟩
    · rintro ⟨_, conf, copy, newCfg, ⟨⟩, hconf, hcopy, hnew, hfind, hopen, hrest⟩
      exact ⟨hfind, conf, hconf, hopen, copy, hcopy, newCfg, hnew,
        (hstore (conf, newCfg) _).mpr hrest⟩

/-- **The one leak.**  On repos that are the same but for secrets, each command
gives the same output or the same error, unless it is a `profile apply` that
succeeds and the keys of the remote services differ. -/
theorem output_same_iff (env : Env) (cmd : Command) {s t : Repo} (hst : SameBut secretSelectors s t)
    (hord : s.closed = false → Increasing (remoteServices env.repo.parsers s.config).entries)
    (hobl : ∀ name transformer, env.profiles name = some transformer →
      Oblivious transformer) :
    (exec (cmd.run env) s).1 = (exec (cmd.run env) t).1 ↔
      ∀ profile dryRun, cmd = .profileApply profile dryRun →
        Applies env s profile dryRun → apiKeysOf env s = apiKeysOf env t := by
  cases cmd with
  | showConfig =>
    refine iff_of_true (configShow_same hst) ?_
    intro profile dryRun heq
    cases heq
  | key k =>
    refine iff_of_true (configKey_same k hst) ?_
    intro profile dryRun heq
    cases heq
  | profileApply profile dryRun =>
    have hboth := profileApply_all profile dryRun hst hobl
    rw [Command.run]
    constructor
    · intro heq profile dryRun hcmd happlies
      cases hcmd
      have hok := (profileApply_isOk_iff profile dryRun).mpr happlies
      rcases hboth.elim with ⟨e, hx, _⟩ | ⟨a, b, hx, hy, hab⟩
      · rw [hx] at hok
        cases hok
      · rw [hx, hy] at heq
        cases heq
        exact apiKeysOf_eq_of_output hst hord hab
    · intro hkeys
      rcases hboth.elim with ⟨e, hx, hy⟩ | ⟨a, b, hx, _, _⟩
      · rw [hx, hy]
      · have hok : (exec (configProfileApply env profile dryRun) s).1.isOk = true := by
          rw [hx]
          rfl
        exact profileApply_same profile dryRun hst hobl
          (hkeys profile dryRun rfl ((profileApply_isOk_iff profile dryRun).mp hok))

/-- Two private keys and one key of a service: the outputs are the same. -/
theorem output_same_iff_service :
    (exec ((Command.profileApply "server" false).run plainEnv) (serviceRepo "a" "k")).1 =
      (exec ((Command.profileApply "server" false).run plainEnv) (serviceRepo "b" "k")).1 := by
  have hkeys : apiKeysOf plainEnv (serviceRepo "a" "k") =
      apiKeysOf plainEnv (serviceRepo "b" "k") := by
    rfl
  have hord : (serviceRepo "a" "k").closed = false → Increasing
      (remoteServices plainEnv.repo.parsers (serviceRepo "a" "k").config).entries := by
    intro hopen
    cases hopen
  exact (output_same_iff plainEnv (.profileApply "server" false)
    (sameBut_serviceRepo "a" "b" "k" "k") hord oblivious_plainEnv).mpr
    fun _ _ _ _ => hkeys

end Steps

end ConfigCommands
