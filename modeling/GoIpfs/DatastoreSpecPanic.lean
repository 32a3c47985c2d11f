import GoIpfs.DatastoreSpecInvariance
import Mathlib.Algebra.Order.Ring.Int

/-!
# Datastore specs that crash

`MountDatastoreConfig` asserts without a check that a mountpoint is a string, and
the flatfs plugin pads to the length in its `shardFunc`, which may be negative.  A
spec panics exactly when one of them is reached (`anyDatastoreConfig_returns_iff`);
everything else that does not fit is an error.
-/

namespace DatastoreSpec

open GoJson

/-- What the flatfs plugin depends on: the longest string that can be allocated, and
`strconv.Quote`. -/
structure Flatfs where
  limit : Fin (2 ^ 63)
  quote : String → String

/-- `strconv.Atoi`. -/
def atoi (flatfs : Flatfs) (s : String) : Except String Int :=
  let digits := if s.toList.head? ∈ [some '-', some '+'] then s.toList.tail else s.toList
  let n : Int := digits.foldl (fun n c => 10 * n + (c.toNat - '0'.toNat)) 0
  let value := if s.toList.head? = some '-' then -n else n
  let failed (why : String) := "strconv.Atoi: parsing " ++ flatfs.quote s ++ ": " ++ why
  if digits = [] ∨ ¬ digits.all Char.isDigit then .error (failed "invalid syntax")
  else if value < -2 ^ 63 ∨ 2 ^ 63 ≤ value then .error (failed "value out of range")
  else .ok value

inductive ShardFun where
  | front
  | suffix
  | nextToLast
  deriving DecidableEq, Repr

def ShardFun.name : ShardFun → String
  | .front => "prefix"
  | .suffix => "suffix"
  | .nextToLast => "next-to-last"

/-- How many underscores `Prefix`, `Suffix` and `NextToLast` pad with. -/
def ShardFun.padding (n : Int) : ShardFun → Int
  | .nextToLast => n + 1
  | _ => n

/-- `flatfs.PREFIX`. -/
def shardPrefix : String := "/repo/flatfs/shard/"

/-- `ShardIdV1.String`. -/
def shardString (f : ShardFun) (n : Int) : String :=
  shardPrefix ++ "v1/" ++ f.name ++ "/" ++ toString n

/-- The padding cannot be made: `strings.Repeat` panics. -/
def Unpaddable (flatfs : Flatfs) (n : Int) : Prop := n < 0 ∨ (flatfs.limit : Int) < n

instance (flatfs : Flatfs) (n : Int) : Decidable (Unpaddable flatfs n) := by
  unfold Unpaddable
  infer_instance

/-- The identifier without its prefix, at the slashes. -/
def shardParts (id : String) : Option (List String) :=
  let str := (trimSpace id).toList
  if shardPrefix.toList <+: str then
    some (((str.drop shardPrefix.length).splitOn '/').map String.ofList)
  else none

/-- `ParseShardFunc`, with the text of the function that it returns. -/
def parseShardFunc (flatfs : Flatfs) (id : String) : Except Failure String :=
  if trimSpace id = "" then .error (.err "empty shard identifier")
  else
    match shardParts id with
    | none => .error (.err ("invalid or no prefix in shard identifier: " ++ trimSpace id))
    | some [version, funName, parameter] =>
      if version ≠ "v1" then
        .error (.err ("expected 'v1' for version string got: " ++ version))
      else
        match atoi flatfs parameter with
        | .error e => .error (.err ("invalid parameter: " ++ e))
        | .ok n =>
          match [ShardFun.front, .suffix, .nextToLast].find? (·.name = funName) with
          | some f =>
            if Unpaddable flatfs (f.padding n) then .error .panic else .ok (shardString f n)
          | none =>
            .error (.err ("expected 'prefix', 'suffix' or 'next-to-last' got: " ++ funName))
    | some parts => .error (.err ("invalid shard identifier: " ++ "/".intercalate parts))

def flatfsSpec (path shardFunc : String) : DiskMap :=
  ⟨setKey "path" (.str path) (setKey "shardFunc" (.str shardFunc)
      (setKey "type" (.str "flatfs") [])),
    proper_setKey (proper_str path) (proper_setKey (proper_str shardFunc)
      (proper_setKey (proper_str "flatfs") proper_nil))⟩

/-- The parser of the flatfs plugin. -/
def flatfsConfig (flatfs : Flatfs) (params : Members) : Except Failure (Option DiskMap) :=
  match params.lookup "path" with
  | some (.str path) =>
    match params.lookup "shardFunc" with
    | some (.str id) => do
        let shardFunc ← parseShardFunc flatfs id
        match params.lookup "sync" with
        | some (.bool _) => .ok (some (flatfsSpec path shardFunc))
        | _ => .error (.err "'sync' field is missing or not boolean")
    | _ => .error (.err "'shardFunc' field is missing or not a string")
  | _ => .error (.err "'path' field is missing or not boolean")

/-- The built-in leaf datastores: flatfs, and others that check what they are given. -/
structure Builtin (flatfs : Flatfs) (lib : Lib) : Prop where
  flatfs : lib.leaf "flatfs" = some (flatfsConfig flatfs)
  returns : ∀ which parse, which ≠ "flatfs" → lib.leaf which = some parse →
    ∀ m, parse m ≠ .error .panic

/-- A `shardFunc` whose padding cannot be made. -/
def BadShard (flatfs : Flatfs) (id : String) : Prop :=
  ∃ (f : ShardFun) (parameter : String) (n : Int),
    shardParts id = some ["v1", f.name, parameter] ∧ atoi flatfs parameter = .ok n ∧
      Unpaddable flatfs (f.padding n)

variable {flatfs : Flatfs} {lib : Lib} {params : Members} {items : List Json} {j : Json}

theorem find_shardFun (f : ShardFun) :
    [ShardFun.front, .suffix, .nextToLast].find? (fun g => g.name = f.name) = some f := by
  cases f <;> rfl

/-- **`ParseShardFunc` panics** exactly at a bad padding. -/
theorem parseShardFunc_panic_iff {id : String} :
    parseShardFunc flatfs id = .error .panic ↔ BadShard flatfs id := by
  constructor
  · intro h
    unfold parseShardFunc at h
    split at h
    · cases h
    split at h
    · cases h
    · rename_i version funName parameter hparts
      split at h
      · cases h
      rename_i hversion
      split at h
      · cases h
      · rename_i n hn
        split at h
        · rename_i f hf
          have hpad : Unpaddable flatfs (f.padding n) := by
            by_contra hno
            rw [if_neg hno] at h
            cases h
          have hname : f.name = funName := by simpa using List.find?_some hf
          rw [not_not.mp hversion, ← hname] at hparts
          exact ⟨f, parameter, n, hparts, hn, hpad⟩
        · cases h
    · cases h
  · rintro ⟨f, parameter, n, hparts, hn, hpad⟩
    have hne : trimSpace id ≠ "" := by
      intro hempty
      have hno : ¬ shardPrefix.toList <+: "".toList := by decide
      simp only [shardParts, hempty, if_neg hno] at hparts
      cases hparts
    rw [parseShardFunc, if_neg hne, hparts]
    dsimp only
    rw [if_neg (by simp), hn]
    dsimp only
    rw [find_shardFun f]
    exact if_pos hpad

theorem flatfsConfig_panic_iff :
    flatfsConfig flatfs params = .error .panic ↔
      ∃ path id, params.lookup "path" = some (.str path) ∧
        params.lookup "shardFunc" = some (.str id) ∧ BadShard flatfs id := by
  unfold flatfsConfig
  split
  · rename_i path hpath
    split
    · rename_i id hid
      simp only [hpath, hid, Option.some.injEq, Json.str.injEq, ← parseShardFunc_panic_iff,
        exists_and_left, exists_eq_left']
      cases parseShardFunc flatfs id with
      | error e => simp [bind, Except.bind]
      | ok s =>
        simp only [bind, Except.bind]
        split <;> simp
    · rename_i hno
      simp only [Except.error.injEq, reduceCtorEq, false_iff]
      rintro ⟨_, id, -, hid, -⟩
      exact hno id hid
  · rename_i hno
    simp only [Except.error.injEq, reduceCtorEq, false_iff]
    rintro ⟨path, _, hpath, -⟩
    exact hno path hpath

/-- An element of `mounts` that the loop gets past. -/
def Mounted (lib : Lib) (j : Json) : Prop :=
  isMap j = true ∧ (∃ c, anyDatastoreConfig lib j = .ok c) ∧ ∃ pre, mountpoint j = .ok pre

/-- Reading the spec gets to a mountpoint that is no string, or to a bad `shardFunc`.
The elements of `mounts` before it have been read, and so has the datastore that is
mounted there. -/
inductive Fatal (flatfs : Flatfs) (lib : Lib) : Json → Prop where
  | shard {params path id}
      (htype : params.lookup "type" = some (.str "flatfs"))
      (hpath : params.lookup "path" = some (.str path))
      (hid : params.lookup "shardFunc" = some (.str id)) (h : BadShard flatfs id) :
      Fatal flatfs lib (.obj params)
  | child {params m which}
      (htype : params.lookup "type" = some (.str which))
      (hwhich : which = "log" ∨ which = "measure")
      (hchild : params.lookup "child" = some (.obj m)) (h : Fatal flatfs lib (.obj m)) :
      Fatal flatfs lib (.obj params)
  | mount {params before after j}
      (htype : params.lookup "type" = some (.str "mount"))
      (hmounts : params.lookup "mounts" = some (.arr (before ++ j :: after)))
      (hbefore : ∀ i ∈ before, Mounted lib i) (h : Fatal flatfs lib j) :
      Fatal flatfs lib (.obj params)
  | point {params before after j c}
      (htype : params.lookup "type" = some (.str "mount"))
      (hmounts : params.lookup "mounts" = some (.arr (before ++ j :: after)))
      (hbefore : ∀ i ∈ before, Mounted lib i) (hread : anyDatastoreConfig lib j = .ok c)
      (hpoint : mountpoint j = .error .panic) : Fatal flatfs lib (.obj params)

theorem exists_first_cons {α : Type} {P Q : α → Prop} {a : α} {l : List α} :
    (∃ before x after, a :: l = before ++ x :: after ∧ (∀ i ∈ before, Q i) ∧ P x) ↔
      P a ∨ Q a ∧ ∃ before x after, l = before ++ x :: after ∧ (∀ i ∈ before, Q i) ∧ P x := by
  constructor
  · rintro ⟨before, x, after, heq, hbefore, hx⟩
    cases before with
    | nil =>
      cases heq
      exact .inl hx
    | cons b before =>
      cases heq
      rw [List.forall_mem_cons] at hbefore
      exact .inr ⟨hbefore.1, before, x, after, rfl, hbefore.2, hx⟩
  · rintro (ha | ⟨ha, before, x, after, rfl, hbefore, hx⟩)
    · exact ⟨[], a, l, rfl, by simp, ha⟩
    · exact ⟨a :: before, x, after, rfl, List.forall_mem_cons.mpr ⟨ha, hbefore⟩, hx⟩

/-- An element of `mounts` at which the loop panics. -/
def Crashes (lib : Lib) (j : Json) : Prop :=
  isMap j = true ∧ (anyDatastoreConfig lib j = .error .panic ∨
    (∃ c, anyDatastoreConfig lib j = .ok c) ∧ mountpoint j = .error .panic)

theorem premounts_panic_iff :
    premounts lib items = .error .panic ↔
      ∃ before j after, items = before ++ j :: after ∧ (∀ i ∈ before, Mounted lib i) ∧
        Crashes lib j := by
  induction items with
  | nil => simp [premounts]
  | cons j rest ih =>
    rw [exists_first_cons, ← ih, premounts]
    by_cases hmap : isMap j = true
    · cases hany : anyDatastoreConfig lib j with
      | error e => simp [Crashes, Mounted, hmap, hany, bind, Except.bind]
      | ok c =>
        cases hpoint : mountpoint j with
        | error e => simp [Crashes, Mounted, hmap, hany, hpoint, bind, Except.bind]
        | ok pre =>
          cases hrest : premounts lib rest <;>
            simp [Crashes, Mounted, hmap, hany, hpoint, bind, Except.bind]
    · simp [Crashes, Mounted, hmap, bind, Except.bind]

theorem childField_panic_iff :
    childField lib params = .error .panic ↔ ∃ m, params.lookup "child" = some (.obj m) ∧
      anyDatastoreConfig lib (.obj m) = .error .panic := by
  rw [childField_eq]
  split
  · rename_i m hm
    simp [hm]
  · rename_i hno
    simp only [Except.error.injEq, reduceCtorEq, false_iff]
    rintro ⟨m, hm, -⟩
    exact hno m hm

theorem mountsField_panic_iff :
    mountsField lib params = .error .panic ↔ ∃ items,
      params.lookup "mounts" = some (.arr items) ∧ premounts lib items = .error .panic := by
  rw [mountsField_eq]
  split
  · rename_i items hitems
    simp [hitems]
  · rename_i hno
    simp only [Except.error.injEq, reduceCtorEq, false_iff]
    rintro ⟨items, hitems, -⟩
    exact hno items hitems

/-- The own field of a log or measure datastore is checked. -/
theorem own_panic_iff {name : String} {f : Config → String → Config} :
    (do let child ← childField lib params
        let own ← stringField params name
        Except.ok (f child own)) = .error .panic ↔ childField lib params = .error .panic := by
  cases childField lib params with
  | error e => simp [bind, Except.bind]
  | ok c =>
    unfold stringField
    split <;> simp [bind, Except.bind]

theorem except_map_panic_iff {α β : Type} {f : α → β} {x : Except Failure α} :
    x.map f = .error .panic ↔ x = .error .panic := by
  cases x <;> simp [Except.map]

theorem config_panic_iff (hlib : Builtin flatfs lib) {which : String}
    (htype : params.lookup "type" = some (.str which)) :
    anyDatastoreConfig lib (.obj params) = .error .panic ↔
      (which = "log" ∨ which = "measure") ∧ childField lib params = .error .panic ∨
        which = "mount" ∧ mountsField lib params = .error .panic ∨
        which = "flatfs" ∧ flatfsConfig flatfs params = .error .panic := by
  rw [anyDatastoreConfig, htype]
  dsimp only
  split_ifs with hmount hmem hlog hmeasure
  · subst hmount
    simpa using except_map_panic_iff
  · subst hmem
    simp
  · subst hlog
    simpa using own_panic_iff
  · subst hmeasure
    simpa using own_panic_iff
  · simp only [hmount, hlog, hmeasure, or_self, false_and, false_or]
    by_cases hflat : which = "flatfs"
    · subst hflat
      rw [hlib.flatfs]
      simpa using except_map_panic_iff
    · simp only [hflat, false_and, iff_false]
      cases hparse : lib.leaf which with
      | none => simp
      | some parse =>
        have hreturns := hlib.returns which parse hflat hparse params
        simpa using mt except_map_panic_iff.mp hreturns

theorem type_of_panic (h : anyDatastoreConfig lib (.obj params) = .error .panic) :
    ∃ which, params.lookup "type" = some (.str which) := by
  rw [anyDatastoreConfig] at h
  split at h
  · exact ⟨_, ‹_›⟩
  · cases h

theorem sizeOf_lt_of_lookup {k : String} (h : params.lookup k = some j) :
    sizeOf j < sizeOf (Json.obj params) := by
  obtain ⟨before, after, rfl, -⟩ := List.lookup_eq_some_iff.mp h
  have hmem : (k, j) ∈ before ++ (k, j) :: after := by simp
  have hlt := List.sizeOf_lt_of_mem hmem
  simp only [Prod.mk.sizeOf_spec] at hlt
  simp only [Json.obj.sizeOf_spec]
  omega

theorem panic_of_fatal (hlib : Builtin flatfs lib) (h : Fatal flatfs lib j) :
    isMap j = true ∧ anyDatastoreConfig lib j = .error .panic := by
  have hloop : ∀ {params : Members} {before after : List Json} {j : Json},
      params.lookup "type" = some (.str "mount") →
      params.lookup "mounts" = some (.arr (before ++ j :: after)) →
      (∀ i ∈ before, Mounted lib i) → Crashes lib j →
      anyDatastoreConfig lib (.obj params) = .error .panic := by
    intro params before after j htype hmounts hbefore hj
    exact (config_panic_iff hlib htype).mpr (.inr (.inl ⟨rfl, mountsField_panic_iff.mpr
      ⟨_, hmounts, premounts_panic_iff.mpr ⟨_, _, _, rfl, hbefore, hj⟩⟩⟩))
  induction h with
  | shard htype hpath hid hbad =>
    exact ⟨rfl, (config_panic_iff hlib htype).mpr
      (.inr (.inr ⟨rfl, flatfsConfig_panic_iff.mpr ⟨_, _, hpath, hid, hbad⟩⟩))⟩
  | child htype hwhich hchild _ ih =>
    exact ⟨rfl, (config_panic_iff hlib htype).mpr
      (.inl ⟨hwhich, childField_panic_iff.mpr ⟨_, hchild, ih.2⟩⟩)⟩
  | mount htype hmounts hbefore _ ih =>
    exact ⟨rfl, hloop htype hmounts hbefore ⟨ih.1, .inl ih.2⟩⟩
  | @point params before after j c htype hmounts hbefore hread hpoint =>
    have hmap : isMap j = true := by
      cases j <;> first | rfl | simp [DatastoreSpec.mountpoint] at hpoint
    exact ⟨rfl, hloop htype hmounts hbefore ⟨hmap, .inr ⟨⟨c, hread⟩, hpoint⟩⟩⟩

/-- By induction on the size of the spec, which the child and the mounts are parts of. -/
theorem fatal_of_panic (hlib : Builtin flatfs lib)
    (h : anyDatastoreConfig lib (.obj params) = .error .panic) :
    Fatal flatfs lib (.obj params) := by
  induction hn : sizeOf (Json.obj params) using Nat.strongRecOn generalizing params with
  | ind n ih =>
    subst hn
    obtain ⟨which, htype⟩ := type_of_panic h
    rcases (config_panic_iff hlib htype).mp h with
      ⟨hwhich, hchild⟩ | ⟨rfl, hmounts⟩ | ⟨rfl, hflat⟩
    · obtain ⟨m, hm, hpanic⟩ := childField_panic_iff.mp hchild
      exact .child htype hwhich hm (ih _ (sizeOf_lt_of_lookup hm) hpanic rfl)
    · obtain ⟨items, hitems, hpanic⟩ := mountsField_panic_iff.mp hmounts
      obtain ⟨before, j, after, rfl, hbefore, hmap, hj⟩ := premounts_panic_iff.mp hpanic
      rcases hj with hj | ⟨⟨c, hc⟩, hpoint⟩
      · cases j with
        | obj m =>
          have hmem : Json.obj m ∈ before ++ .obj m :: after := by simp
          have hlt := List.sizeOf_lt_of_mem hmem
          have harr := sizeOf_lt_of_lookup hitems
          rw [Json.arr.sizeOf_spec] at harr
          exact .mount htype hitems hbefore (ih _ (by omega) hj rfl)
        | _ => cases hmap
      · exact .point htype hitems hbefore hc hpoint
    · obtain ⟨path, id, hpath, hid, hbad⟩ := flatfsConfig_panic_iff.mp hflat
      exact .shard htype hpath hid hbad

/-- **A spec is read or rejected exactly when no mountpoint is reached that is no
string, and no bad `shardFunc`.**  A config that is returned can be printed:
`specString` is total. -/
theorem anyDatastoreConfig_returns_iff (hlib : Builtin flatfs lib) (params : Members) :
    ((∃ text, anyDatastoreConfig lib (.obj params) = .error (.err text)) ∨
      ∃ c spec, anyDatastoreConfig lib (.obj params) = .ok c ∧ specString (diskSpec c) = spec) ↔
      ¬ Fatal flatfs lib (.obj params) := by
  constructor
  · intro h hfatal
    rw [(panic_of_fatal hlib hfatal).2] at h
    simp at h
  intro hno
  cases h : anyDatastoreConfig lib (.obj params) with
  | ok c => exact .inr ⟨c, _, rfl, rfl⟩
  | error e =>
    cases e with
    | err text => exact .inl ⟨text, rfl⟩
    | panic => exact absurd (fatal_of_panic hlib h) hno

/-- A flatfs plugin that can allocate a kilobyte. -/
def sampleFlatfs : Flatfs := ⟨1024, fun s => s⟩

/-- Besides `levelds`, there is flatfs. -/
def builtinLib : Lib :=
  { leveldsLib with
    leaf := fun which =>
      if which = "flatfs" then some (flatfsConfig sampleFlatfs) else leveldsLib.leaf which
    leaf_congr := by
      intro which parse hparse m m' h
      split_ifs at hparse
      · obtain rfl := Option.some.inj hparse
        simp only [flatfsConfig, h "path" (by decide), h "shardFunc" (by decide),
          h "sync" (by decide)]
      · exact leveldsLib.leaf_congr hparse h }

theorem builtin_builtinLib : Builtin sampleFlatfs builtinLib where
  flatfs := rfl
  returns := by
    intro which parse hne hparse m
    simp only [builtinLib, leveldsLib, if_neg hne] at hparse
    split at hparse
    · cases hparse
      dsimp only
      split <;> simp
    · cases hparse

/-- A datastore in memory whose mountpoint is a number. -/
def numberedMount : Members :=
  [("mounts", .arr [.obj [("mountpoint", .num "1"), ("type", .str "mem")]]), ("type", .str "mount")]

/-- A datastore in memory is read. -/
theorem anyDatastoreConfig_returns_mem :
    ¬ Fatal sampleFlatfs builtinLib (.obj [("type", .str "mem")]) :=
  (anyDatastoreConfig_returns_iff builtin_builtinLib _).mp (.inr ⟨.mem, _, rfl, rfl⟩)

/-- The number is asserted to be a string. -/
theorem anyDatastoreConfig_numberedMount_panics :
    anyDatastoreConfig builtinLib (.obj numberedMount) = .error .panic := by
  rfl

end DatastoreSpec
