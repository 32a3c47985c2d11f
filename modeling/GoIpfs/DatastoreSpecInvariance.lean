import GoIpfs.DatastoreSpec
import Mathlib.Data.List.Perm.Basic
import Mathlib.Data.List.Sort
import Mathlib.Data.String.Basic

/-!
# The disk spec ignores the runtime structure

`disk` is what of a spec is on disk.  It does not see log and measure nodes nor
the order of the mounts (`disk_rearranged`), and it does see where things are
mounted (`disk_remounted`): the elements of `mounts` are, up to their order, the
disk specs of the mounted datastores with their prefixes, so a new prefix or a
new `mounts` list below can be found again.
-/

namespace DatastoreSpec

open GoJson List Option

variable {lib : Lib}

/-! ## What of a spec is on disk -/

theorem childField_eq (params : Members) :
    childField lib params =
      match params.lookup "child" with
      | some (.obj m) => anyDatastoreConfig lib (.obj m)
      | _ => .error (.err "'child' field is missing or not a map") := by
  induction params with
  | nil => rw [childField]; rfl
  | cons e rest ih =>
    obtain ⟨k, j⟩ := e
    rw [childField, lookup_cons]
    by_cases hk : k = "child"
    · rw [if_pos hk, if_pos hk.symm]
      cases j <;> rfl
    · rw [if_neg hk, if_neg fun h => hk h.symm, ih]

theorem mountsField_eq (params : Members) :
    mountsField lib params =
      match params.lookup "mounts" with
      | some (.arr items) => premounts lib items
      | _ => .error (.err "'mounts' field is missing or not an array") := by
  induction params with
  | nil => rw [mountsField]; rfl
  | cons e rest ih =>
    obtain ⟨k, j⟩ := e
    rw [mountsField, lookup_cons]
    by_cases hk : k = "mounts"
    · rw [if_pos hk, if_pos hk.symm]
      cases j <;> simp [mountsArray]
    · rw [if_neg hk, if_neg fun h => hk h.symm, ih]

/-- The disk spec of a spec that is accepted. -/
def disk (lib : Lib) (j : Json) : Option (Option Members) :=
  (anyDatastoreConfig lib j).toOption.map diskSpec

/-- The key under which an element of `mounts` is mounted. -/
def mountKey (j : Json) : Option String := (mountpoint j).toOption.map newKey

/-- An element of `mounts`: its key and its disk spec. -/
def entry (lib : Lib) (j : Json) : Option (String × Option Members) :=
  (mountKey j).bind fun k => (disk lib j).map fun d => (k, d)

/-- The value that stands for an element of `mounts` on disk. -/
def entryValue (e : String × Option Members) : Json :=
  .obj (setKey "mountpoint" (.str e.1) (e.2.getD []))

/-- The disk spec of a mount datastore. -/
def mountDisk (lib : Lib) (es : List (String × Option Members)) : Option Members :=
  some (setKey "mounts" (.arr ((lib.sort es).map entryValue)) [("type", .str "mount")])

theorem mountSpecs_eq (mounts : List (String × Config)) :
    mountSpecs mounts = (mounts.map fun e => (e.1, diskSpec e.2)).map entryValue := by
  induction mounts with
  | nil => rw [mountSpecs]; rfl
  | cons e rest ih =>
    rw [mountSpecs, ih]
    rfl

variable {j : Json}

theorem disk_of_not_map (h : isMap j = false) : disk lib j = none := by
  cases j <;> first | rfl | cases h

theorem mapM_eq_some {α β : Type} {f : α → Option β} {l : List α} {l' : List β} :
    l.mapM f = some l' ↔ List.Forall₂ (fun a b => f a = some b) l l' := by
  induction l generalizing l' with
  | nil => simp [forall₂_nil_left_iff, eq_comm]
  | cons a rest ih =>
    rw [mapM_cons, forall₂_cons_left_iff]
    constructor
    · intro h
      obtain ⟨b, hb, h⟩ := bind_eq_some_iff.mp h
      obtain ⟨bs, hbs, h⟩ := bind_eq_some_iff.mp h
      exact ⟨b, bs, hb, ih.mp hbs, (some.inj h).symm⟩
    · rintro ⟨b, bs, hb, hbs, rfl⟩
      simp [hb, ih.mpr hbs]

theorem toOption_premounts (items : List Json) :
    (premounts lib items).toOption.map (fun l => l.map fun e => (e.1, diskSpec e.2)) =
      items.mapM (entry lib) := by
  induction items with
  | nil => rw [premounts]; rfl
  | cons j rest ih =>
    rw [premounts, mapM_cons, ← ih]
    by_cases hmap : isMap j = true
    · rw [if_pos hmap]
      cases hany : anyDatastoreConfig lib j with
      | error e =>
        have hentry : entry lib j = none := by simp [entry, disk, hany, Except.toOption]
        rw [hentry]
        rfl
      | ok c =>
        cases hpoint : mountpoint j with
        | error e =>
          have hentry : entry lib j = none := by
            simp [entry, mountKey, hpoint, Except.toOption]
          rw [hentry]
          rfl
        | ok pre =>
          have hentry : entry lib j = some (newKey pre, diskSpec c) := by
            simp [entry, mountKey, disk, hany, hpoint, Except.toOption]
          rw [hentry]
          cases premounts lib rest <;> rfl
    · have hentry : entry lib j = none := by
        simp [entry, disk_of_not_map (Bool.eq_false_iff.mpr hmap)]
      rw [if_neg hmap, hentry]
      rfl

variable {m : Members} {items : List Json}

/-- **A mount datastore on disk**: its elements, sorted. -/
theorem disk_mount (htype : m.lookup "type" = some (.str "mount"))
    (hmounts : m.lookup "mounts" = some (.arr items)) :
    disk lib (.obj m) = (items.mapM (entry lib)).map (mountDisk lib) := by
  rw [← toOption_premounts, disk, anyDatastoreConfig, htype]
  simp only [if_true, mountsField_eq, hmounts]
  cases premounts lib items with
  | error e => rfl
  | ok l =>
    have hspec : diskSpec (.mount (lib.sort l)) =
        mountDisk lib (l.map fun e => (e.1, diskSpec e.2)) := by
      rw [diskSpec, mountSpecs_eq, mountDisk, lib.sort_map]
    exact congrArg some hspec

/-- The two datastores that only pass on to a child. -/
inductive Wrapper where
  | log
  | measure
  deriving DecidableEq, Repr

def Wrapper.type : Wrapper → String
  | .log => "log"
  | .measure => "measure"

def Wrapper.field : Wrapper → String
  | .log => "name"
  | .measure => "prefix"

variable {own q : String} (w : Wrapper)

/-- **A log or measure datastore on disk** is its child. -/
theorem disk_wrapper (htype : m.lookup "type" = some (.str w.type))
    (hfield : m.lookup w.field = some (.str own)) (hchild : m.lookup "child" = some j) :
    disk lib (.obj m) = disk lib j := by
  have hchildField : (childField lib m).toOption = (anyDatastoreConfig lib j).toOption := by
    rw [childField_eq, hchild]
    cases j <;> rfl
  have hown : stringField m w.field = .ok own := by rw [stringField, hfield]
  unfold disk
  rw [← hchildField, anyDatastoreConfig, htype]
  cases w with
  | log =>
    have hname : stringField m "name" = .ok own := hown
    simp only [Wrapper.type, hname]
    cases childField lib m <;> rfl
  | measure =>
    have hname : stringField m "prefix" = .ok own := hown
    simp only [Wrapper.type, hname]
    cases childField lib m <;> rfl

variable {m' : Members}

theorem config_congr (h : ∀ k, k ≠ "mountpoint" → m.lookup k = m'.lookup k) :
    anyDatastoreConfig lib (.obj m) = anyDatastoreConfig lib (.obj m') := by
  rw [anyDatastoreConfig, anyDatastoreConfig, h "type" (by decide)]
  simp only [childField_eq, mountsField_eq, stringField, h "child" (by decide),
    h "mounts" (by decide), h "name" (by decide), h "prefix" (by decide)]
  split
  · rename_i which _
    cases hleaf : lib.leaf which with
    | none => rfl
    | some parse => simp only [lib.leaf_congr hleaf h]
  · rfl

theorem disk_congr (h : ∀ k, k ≠ "mountpoint" → m.lookup k = m'.lookup k) :
    disk lib (.obj m) = disk lib (.obj m') := by
  rw [disk, config_congr h, disk]

/-! ## Rearranging a spec -/

def eraseKey (k : String) (m : Members) : Members := m.filter fun e => e.1 ≠ k

variable {k : String}

theorem lookup_eraseKey (h : q ≠ k) (m : Members) : (eraseKey k m).lookup q = m.lookup q := by
  induction m with
  | nil => rfl
  | cons e rest ih =>
    unfold eraseKey at ih ⊢
    by_cases hk : e.1 = k
    · have hq : q ≠ e.1 := fun heq => h (heq.trans hk)
      rw [filter_cons_of_neg (by simp [hk]), ih, lookup_cons, if_neg hq]
    · rw [filter_cons_of_pos (by simp [hk]), lookup_cons, lookup_cons, ih]

/-- A log or measure node without a mountpoint. -/
def wrapperNode (w : Wrapper) (own : String) (child : Members) : Members :=
  [("child", .obj child), (w.field, .str own), ("type", .str w.type)]

/-- A spec in a log or measure node, which takes over its mountpoint. -/
def wrap (w : Wrapper) (own : String) (m : Members) : Members :=
  match m.lookup "mountpoint" with
  | none => wrapperNode w own (eraseKey "mountpoint" m)
  | some point => setKey "mountpoint" point (wrapperNode w own (eraseKey "mountpoint" m))

/-- The changes of a spec that concern the running node only. -/
inductive Rearranged : Json → Json → Prop
  | refl (j : Json) : Rearranged j j
  | symm {j j'} : Rearranged j j' → Rearranged j' j
  | trans {j j' j''} : Rearranged j j' → Rearranged j' j'' → Rearranged j j''
  | wrap (w : Wrapper) (own : String) (m : Members) : Rearranged (.obj m) (.obj (wrap w own m))
  | rename (w : Wrapper) {own} (own' : String) {m j}
      (htype : m.lookup "type" = some (.str w.type)) (hfield : m.lookup w.field = some (.str own))
      (hchild : m.lookup "child" = some j) :
      Rearranged (.obj m) (.obj (setKey w.field (.str own') m))
  | permute {m items items'}
      (htype : m.lookup "type" = some (.str "mount"))
      (hmounts : m.lookup "mounts" = some (.arr items)) (hperm : items.Perm items')
      (hdistinct : (items.map mountKey).Nodup) :
      Rearranged (.obj m) (.obj (setKey "mounts" (.arr items') m))
  | child (w : Wrapper) {own m j j'}
      (htype : m.lookup "type" = some (.str w.type)) (hfield : m.lookup w.field = some (.str own))
      (hchild : m.lookup "child" = some j) (hinner : Rearranged j j') :
      Rearranged (.obj m) (.obj (setKey "child" j' m))
  | mounted {m before after j j'}
      (htype : m.lookup "type" = some (.str "mount"))
      (hmounts : m.lookup "mounts" = some (.arr (before ++ j :: after)))
      (hinner : Rearranged j j') :
      Rearranged (.obj m) (.obj (setKey "mounts" (.arr (before ++ j' :: after)) m))

theorem Wrapper.field_ne :
    w.field ≠ "type" ∧ w.field ≠ "child" ∧ w.field ≠ "mountpoint" ∧ w.field ≠ "mounts" := by
  cases w <;> decide

theorem mountKey_congr (h : m.lookup "mountpoint" = m'.lookup "mountpoint") :
    mountKey (.obj m) = mountKey (.obj m') := by
  simp only [mountKey, mountpoint, h]

theorem mountKey_setKey {v : Json} (hk : k ≠ "mountpoint") :
    mountKey (.obj (setKey k v m)) = mountKey (.obj m) :=
  mountKey_congr (by rw [lookup_setKey, if_neg hk.symm])

theorem disk_setMounts (htype : m.lookup "type" = some (.str "mount")) (items : List Json) :
    disk lib (.obj (setKey "mounts" (.arr items) m)) =
      (items.mapM (entry lib)).map (mountDisk lib) := by
  apply disk_mount
  · rw [lookup_setKey, if_neg (by decide), htype]
  · rw [lookup_setKey, if_pos rfl]

theorem disk_setChild (htype : m.lookup "type" = some (.str w.type))
    (hfield : m.lookup w.field = some (.str own)) (j : Json) :
    disk lib (.obj (setKey "child" j m)) = disk lib j := by
  refine disk_wrapper w ?_ (?_ : _ = some (Json.str own)) ?_
  · rw [lookup_setKey, if_neg (by decide), htype]
  · rw [lookup_setKey, if_neg w.field_ne.2.1, hfield]
  · rw [lookup_setKey, if_pos rfl]

theorem lookup_wrapperNode (own : String) (child : Members) :
    (wrapperNode w own child).lookup "child" = some (.obj child) ∧
      (wrapperNode w own child).lookup w.field = some (.str own) ∧
      (wrapperNode w own child).lookup "type" = some (.str w.type) ∧
      (wrapperNode w own child).lookup "mountpoint" = none := by
  cases w with
  | log | measure => exact ⟨rfl, rfl, rfl, rfl⟩

theorem lookup_wrap (hq : q ≠ "mountpoint") (w : Wrapper) (own : String) (m : Members) :
    (wrap w own m).lookup q = (wrapperNode w own (eraseKey "mountpoint" m)).lookup q := by
  unfold wrap
  split
  · rfl
  · rw [lookup_setKey, if_neg hq]

theorem lookup_mountpoint_wrap (own : String) (m : Members) :
    (wrap w own m).lookup "mountpoint" = m.lookup "mountpoint" := by
  unfold wrap
  split
  · rename_i hnone
    rw [hnone, (lookup_wrapperNode w own _).2.2.2]
  · rename_i point hsome
    rw [lookup_setKey, if_pos rfl, hsome]

theorem disk_wrap (own : String) (m : Members) :
    disk lib (.obj (wrap w own m)) = disk lib (.obj m) := by
  obtain ⟨hchild, hfield, htype, _⟩ := lookup_wrapperNode w own (eraseKey "mountpoint" m)
  calc disk lib (.obj (wrap w own m))
      = disk lib (.obj (eraseKey "mountpoint" m)) := by
        apply disk_wrapper w
        · rw [lookup_wrap (by decide), htype]
        · rw [lookup_wrap w.field_ne.2.2.1, hfield]
        · rw [lookup_wrap (by decide), hchild]
    _ = disk lib (.obj m) := disk_congr fun k hk => lookup_eraseKey hk m

variable {es : List (String × Option Members)} {es' : List (String × Option Members)}

theorem mountDisk_perm (hperm : es.Perm es') (hnodup : (es.map Prod.fst).Nodup) :
    mountDisk lib es = mountDisk lib es' := by
  have hsorted : (lib.sort es).Perm (lib.sort es') :=
    (lib.sort_perm es).trans (hperm.trans (lib.sort_perm es').symm)
  have hinj : ∀ a ∈ es, ∀ b ∈ es, a.1 = b.1 → a = b := fun a ha b hb =>
    inj_on_of_nodup_map hnodup ha hb
  have heq : lib.sort es = lib.sort es' := by
    refine hsorted.eq_of_pairwise ?_ (lib.sort_pairwise es) (lib.sort_pairwise es')
    intro a b ha hb hab hba
    refine hinj a ((lib.sort_perm es).mem_iff.mp ha) b
      (hperm.mem_iff.mpr ((lib.sort_perm es').mem_iff.mp hb)) ?_
    exact le_antisymm (not_lt.mp hba) (not_lt.mp hab)
  rw [mountDisk, heq, mountDisk]

variable {e : String × Option Members}

theorem entry_eq_some : entry lib j = some e ↔ mountKey j = some e.1 ∧ disk lib j = some e.2 := by
  constructor
  · intro h
    obtain ⟨k, hk, h⟩ := bind_eq_some_iff.mp h
    obtain ⟨d, hd, rfl⟩ := map_eq_some_iff.mp h
    exact ⟨hk, hd⟩
  · rintro ⟨hk, hd⟩
    rw [entry, hk, hd]
    rfl

theorem keys_of_entries (h : List.Forall₂ (fun j e => entry lib j = some e) items es) :
    items.map mountKey = (es.map Prod.fst).map some := by
  induction h with
  | nil => rfl
  | cons hentry _ ih =>
    rw [map_cons, map_cons, map_cons, (entry_eq_some.mp hentry).1, ih]

theorem entries_perm {items' : List Json} (hperm : items.Perm items')
    (hdistinct : (items.map mountKey).Nodup) :
    (items.mapM (entry lib)).map (mountDisk lib) =
      (items'.mapM (entry lib)).map (mountDisk lib) := by
  have hforward : ∀ {l l' : List Json} {es : List (String × Option Members)}, l.Perm l' →
      l.mapM (entry lib) = some es → ∃ es', l'.mapM (entry lib) = some es' ∧ es.Perm es' := by
    intro l l' es hl hes
    obtain ⟨es', hes', hperm'⟩ := perm_comp_forall₂ hl.symm (mapM_eq_some.mp hes)
    exact ⟨es', mapM_eq_some.mpr hes', hperm'.symm⟩
  rcases hes : items.mapM (entry lib) with _ | es
  · rcases hes' : items'.mapM (entry lib) with _ | es'
    · rfl
    · obtain ⟨es, hsome, _⟩ := hforward hperm.symm hes'
      rw [hes] at hsome
      cases hsome
  · obtain ⟨es', hes', hperm'⟩ := hforward hperm hes
    rw [hes']
    refine congrArg some (mountDisk_perm hperm' ?_)
    rw [keys_of_entries (mapM_eq_some.mp hes)] at hdistinct
    exact List.Nodup.of_map _ hdistinct

/-- **What is on disk does not change.** -/
theorem disk_rearranged {j' : Json} (h : Rearranged j j') :
    mountKey j = mountKey j' ∧ disk lib j = disk lib j' := by
  induction h with
  | refl j => exact ⟨rfl, rfl⟩
  | symm _ ih => exact ⟨ih.1.symm, ih.2.symm⟩
  | trans _ _ ih ih' => exact ⟨ih.1.trans ih'.1, ih.2.trans ih'.2⟩
  | wrap w own m =>
    exact ⟨mountKey_congr (lookup_mountpoint_wrap w own m).symm, (disk_wrap w own m).symm⟩
  | @rename w own own' m j htype hfield hchild =>
    refine ⟨(mountKey_setKey w.field_ne.2.2.1).symm, ?_⟩
    have htype' : (setKey w.field (.str own') m).lookup "type" = some (.str w.type) := by
      rw [lookup_setKey, if_neg w.field_ne.1.symm, htype]
    have hfield' : (setKey w.field (.str own') m).lookup w.field = some (.str own') := by
      rw [lookup_setKey, if_pos rfl]
    have hchild' : (setKey w.field (.str own') m).lookup "child" = some j := by
      rw [lookup_setKey, if_neg w.field_ne.2.1.symm, hchild]
    rw [disk_wrapper w htype hfield hchild, disk_wrapper w htype' hfield' hchild']
  | @permute m items items' htype hmounts hperm hdistinct =>
    refine ⟨(mountKey_setKey (by decide)).symm, ?_⟩
    rw [disk_mount htype hmounts, disk_setMounts htype, entries_perm hperm hdistinct]
  | @child w own m j j' htype hfield hchild _ ih =>
    refine ⟨(mountKey_setKey (by decide)).symm, ?_⟩
    rw [disk_wrapper w htype hfield hchild, disk_setChild w htype hfield, ih.2]
  | @mounted m before after j j' htype hmounts _ ih =>
    refine ⟨(mountKey_setKey (by decide)).symm, ?_⟩
    have hentry : entry lib j = entry lib j' := by rw [entry, ih.1, ih.2, entry]
    rw [disk_mount htype hmounts, disk_setMounts htype, mapM_append, mapM_append,
      mapM_cons, mapM_cons, hentry]

/-! ## Moving a mount -/

/-- One mount, at any depth, is moved to a key that no sibling has. -/
inductive Remounted : Json → Json → Prop
  | here {m e before after point} (point' : String)
      (htype : m.lookup "type" = some (.str "mount"))
      (hmounts : m.lookup "mounts" = some (.arr (before ++ .obj e :: after)))
      (hpoint : e.lookup "mountpoint" = some (.str point)) (hnew : newKey point' ≠ newKey point)
      (hfree : ∀ j ∈ before ++ after, mountKey j ≠ some (newKey point')) :
      Remounted (.obj m) (.obj (setKey "mounts"
        (.arr (before ++ .obj (setKey "mountpoint" (.str point') e) :: after)) m))
  | child (w : Wrapper) {own m j j'}
      (htype : m.lookup "type" = some (.str w.type)) (hfield : m.lookup w.field = some (.str own))
      (hchild : m.lookup "child" = some j) (hinner : Remounted j j') :
      Remounted (.obj m) (.obj (setKey "child" j' m))
  | mounted {m before after j j'}
      (htype : m.lookup "type" = some (.str "mount"))
      (hmounts : m.lookup "mounts" = some (.arr (before ++ j :: after)))
      (hinner : Remounted j j') :
      Remounted (.obj m) (.obj (setKey "mounts" (.arr (before ++ j' :: after)) m))

def mountsOf (d : Option Members) : Option Json := (d.getD []).lookup "mounts"

theorem mountsOf_mountDisk (es : List (String × Option Members)) :
    mountsOf (mountDisk lib es) = some (.arr ((lib.sort es).map entryValue)) := by
  unfold mountsOf mountDisk
  rw [getD_some, lookup_setKey, if_pos rfl]

/-- The elements can be read off a disk spec, up to their order. -/
theorem perm_of_mountsOf_eq (h : mountsOf (mountDisk lib es) = mountsOf (mountDisk lib es')) :
    (es.map entryValue).Perm (es'.map entryValue) := by
  rw [mountsOf_mountDisk, mountsOf_mountDisk] at h
  have hlist : (lib.sort es).map entryValue = (lib.sort es').map entryValue := by simpa using h
  have hperm := (lib.sort_perm es).map entryValue
  rw [hlist] at hperm
  exact hperm.symm.trans ((lib.sort_perm es').map entryValue)

theorem entryValue_inj {e' : String × Option Members} (h : entryValue e = entryValue e') :
    e.1 = e'.1 ∧ mountsOf e.2 = mountsOf e'.2 := by
  have hmap : setKey "mountpoint" (.str e.1) (e.2.getD []) =
      setKey "mountpoint" (.str e'.1) (e'.2.getD []) := Json.obj.inj h
  constructor
  · have hkey := congrArg (lookup "mountpoint") hmap
    rw [lookup_setKey, lookup_setKey, if_pos rfl, if_pos rfl] at hkey
    exact Json.str.inj (some.inj hkey)
  · have hmounts := congrArg (lookup "mounts") hmap
    rw [lookup_setKey, lookup_setKey, if_neg (by decide), if_neg (by decide)] at hmounts
    exact hmounts

variable {before after : List Json}

theorem entries_split (h : (before ++ j :: after).mapM (entry lib) = some es) :
    ∃ bs e as, before.mapM (entry lib) = some bs ∧ entry lib j = some e ∧
      after.mapM (entry lib) = some as ∧ es = bs ++ e :: as := by
  rw [mapM_append, mapM_cons] at h
  obtain ⟨bs, hbs, h⟩ := bind_eq_some_iff.mp h
  obtain ⟨rest, hrest, h⟩ := bind_eq_some_iff.mp h
  obtain ⟨e, he, hrest⟩ := bind_eq_some_iff.mp hrest
  obtain ⟨as, has, hrest⟩ := bind_eq_some_iff.mp hrest
  obtain rfl := some.inj hrest
  exact ⟨bs, e, as, hbs, he, has, (some.inj h).symm⟩

theorem entries_join {bs as : List (String × Option Members)}
    (hbs : before.mapM (entry lib) = some bs) (he : entry lib j = some e)
    (has : after.mapM (entry lib) = some as) :
    (before ++ j :: after).mapM (entry lib) = some (bs ++ e :: as) := by
  rw [mapM_append, mapM_cons, hbs, he, has]
  rfl

theorem eq_of_perm_insert {α : Type} {bs as : List α} {x y : α}
    (h : (bs ++ x :: as).Perm (bs ++ y :: as)) : x = y := by
  have htail : (x :: as).Perm (y :: as) := (perm_append_left_iff bs).mp h
  have hone : [x].Perm [y] := (perm_append_right_iff as).mp htail
  exact singleton_perm_singleton.mp hone

theorem key_not_mem {e : Members} {point : String} {d : Option Members}
    (hes : (before ++ .obj e :: after).mapM (entry lib) = some es)
    (hpoint : e.lookup "mountpoint" = some (.str point)) (hnew : k ≠ newKey point)
    (hfree : ∀ j ∈ before ++ after, mountKey j ≠ some k) :
    entryValue (k, d) ∉ es.map entryValue := by
  intro hmem
  obtain ⟨e', he', hvalue⟩ := mem_map.mp hmem
  have hin : some k ∈ (before ++ .obj e :: after).map mountKey := by
    have hkey : e'.1 = k := (entryValue_inj hvalue).1
    rw [keys_of_entries (mapM_eq_some.mp hes), ← hkey]
    exact mem_map_of_mem (mem_map_of_mem he')
  obtain ⟨j, hj, hjkey⟩ := mem_map.mp hin
  have hcases : j = .obj e ∨ j ∈ before ++ after := by
    simp only [mem_append, mem_cons] at hj ⊢
    tauto
  rcases hcases with rfl | hj
  · have hold : mountKey (.obj e) = some (newKey point) := by
      simp only [mountKey, mountpoint, hpoint]
      rfl
    exact hnew (some.inj (hjkey.symm.trans hold))
  · exact hfree j hj hjkey

theorem entry_moved {e : Members} {old : String × Option Members}
    (hold : entry lib (.obj e) = some old) (point : String) :
    entry lib (.obj (setKey "mountpoint" (.str point) e)) = some (newKey point, old.2) := by
  rw [entry_eq_some]
  constructor
  · simp only [mountKey, mountpoint, lookup_setKey, if_true]
    rfl
  · rw [← (entry_eq_some.mp hold).2]
    exact disk_congr fun k hk => by rw [lookup_setKey, if_neg hk]

/-- **What is on disk shows the mountpoints.** -/
theorem disk_remounted {j' : Json} (h : Remounted j j') :
    mountKey j = mountKey j' ∧ ∀ d, disk lib j = some d →
      ∃ d', disk lib j' = some d' ∧ mountsOf d ≠ mountsOf d' := by
  induction h with
  | @here m e before after point point' htype hmounts hpoint hnew hfree =>
    refine ⟨(mountKey_setKey (by decide)).symm, ?_⟩
    intro d hd
    rw [disk_mount htype hmounts] at hd
    obtain ⟨es, hes, rfl⟩ := map_eq_some_iff.mp hd
    obtain ⟨bs, old, as, hbs, hold, has, rfl⟩ := entries_split hes
    refine ⟨mountDisk lib (bs ++ (newKey point', old.2) :: as), ?_, ?_⟩
    · rw [disk_setMounts htype, entries_join hbs (entry_moved hold point') has]
      rfl
    · intro heq
      refine key_not_mem (d := old.2) hes hpoint hnew hfree ?_
      exact (perm_of_mountsOf_eq heq).mem_iff.mpr (by simp)
  | @child w own m j j' htype hfield hchild _ ih =>
    refine ⟨(mountKey_setKey (by decide)).symm, ?_⟩
    rw [disk_wrapper w htype hfield hchild, disk_setChild w htype hfield]
    exact ih.2
  | @mounted m before after j j' htype hmounts _ ih =>
    refine ⟨(mountKey_setKey (by decide)).symm, ?_⟩
    intro d hd
    rw [disk_mount htype hmounts] at hd
    obtain ⟨es, hes, rfl⟩ := map_eq_some_iff.mp hd
    obtain ⟨bs, old, as, hbs, hold, has, rfl⟩ := entries_split hes
    obtain ⟨hkey, hdisk⟩ := entry_eq_some.mp hold
    obtain ⟨d', hdisk', hne⟩ := ih.2 old.2 hdisk
    have hmoved : entry lib j' = some (old.1, d') :=
      entry_eq_some.mpr ⟨by rw [← ih.1, hkey], hdisk'⟩
    refine ⟨mountDisk lib (bs ++ (old.1, d') :: as), ?_, ?_⟩
    · rw [disk_setMounts htype, entries_join hbs hmoved has]
      rfl
    · intro heq
      have hperm := perm_of_mountsOf_eq heq
      rw [map_append, map_append, map_cons, map_cons] at hperm
      exact hne (entryValue_inj (eq_of_perm_insert hperm)).2

/-! ## Texts -/

/-- A value that is printed in the order of its maps. -/
def Proper (j : Json) : Prop := Canonical j ∧ Numeric j

theorem proper_null : Proper .null := ⟨by simp [Canonical], by simp [Numeric]⟩

theorem proper_str (s : String) : Proper (.str s) := ⟨by simp [Canonical], by simp [Numeric]⟩

theorem proper_setKey (hj : Proper j) (hm : Proper (.obj m)) : Proper (.obj (setKey k j m)) :=
  ⟨canonical_setKey hj.1 hm.1, numeric_setKey hj.2 hm.2⟩

theorem proper_nil : Proper (.obj []) := by
  constructor
  · exact ⟨List.Pairwise.nil, by simp [CanonicalMembers]⟩
  · simp [Numeric, NumericMembers]

mutual

/-- **Every disk spec is printed as it is.** -/
theorem proper_diskSpec : ∀ c : Config, Proper (specValue (diskSpec c))
  | .mount mounts => by
      obtain ⟨hcanonical, hnumeric⟩ := proper_mountSpecs mounts
      have hmounts : Proper (.arr (mountSpecs mounts)) :=
        ⟨by rw [Canonical]; exact hcanonical, by rw [Numeric]; exact hnumeric⟩
      have htype : Proper (.obj [("type", .str "mount")]) :=
        proper_setKey (proper_str "mount") proper_nil
      rw [diskSpec]
      exact proper_setKey hmounts htype
  | .mem | .leaf none => by
      rw [diskSpec]
      exact proper_null
  | .log child _ | .measure child _ => by
      rw [diskSpec]
      exact proper_diskSpec child
  | .leaf (some m) => by
      rw [diskSpec]
      exact m.2

theorem proper_mountSpecs : ∀ mounts : List (String × Config),
    CanonicalItems (mountSpecs mounts) ∧ NumericItems (mountSpecs mounts)
  | [] => by
      rw [mountSpecs]
      exact ⟨by simp [CanonicalItems], by simp [NumericItems]⟩
  | (pre, c) :: rest => by
      have hspec := proper_diskSpec c
      have hmap : Proper (.obj ((diskSpec c).getD [])) := by
        cases hc : diskSpec c with
        | none => exact proper_nil
        | some m =>
          rw [hc] at hspec
          exact hspec
      obtain ⟨hcanonical, hnumeric⟩ := proper_setKey (k := "mountpoint") (proper_str pre) hmap
      obtain ⟨hcanonical', hnumeric'⟩ := proper_mountSpecs rest
      rw [mountSpecs, CanonicalItems, NumericItems]
      exact ⟨⟨hcanonical, hcanonical'⟩, ⟨hnumeric, hnumeric'⟩⟩

end

theorem dropWhile_space {l : List Char} {c : Char} (h : l.head? = some c) (hc : isSpace c = false) :
    l.dropWhile isSpace = l := by
  cases l with
  | nil => rfl
  | cons d rest =>
    obtain rfl : d = c := some.inj h
    rw [dropWhile_cons_of_neg (by simp [hc])]

theorem trimSpace_text (spec : Option Members) :
    trimSpace (text (specValue spec)) = text (specValue spec) := by
  have hends : ∃ c d, (chars (specValue spec)).head? = some c ∧ isSpace c = false ∧
      (chars (specValue spec)).getLast? = some d ∧ isSpace d = false := by
    cases spec with
    | none => exact ⟨'n', 'l', by rw [specValue, chars]; rfl, by decide,
        by rw [specValue, chars]; rfl, by decide⟩
    | some m =>
      obtain ⟨hhead, hlast⟩ := ends_obj m
      exact ⟨_, _, hhead, by decide, hlast, by decide⟩
  obtain ⟨c, d, hhead, hc, hlast, hd⟩ := hends
  have hback : (chars (specValue spec)).reverse.dropWhile isSpace =
      (chars (specValue spec)).reverse := dropWhile_space (by rw [head?_reverse, hlast]) hd
  rw [trimSpace, text, String.toList_ofList, dropWhile_space hhead hc, hback, reverse_reverse]

variable {c : Config}

/-- **The text of a disk spec determines it.** -/
theorem diskSpec_of_specString {c' : Config}
    (h : specString (diskSpec c) = specString (diskSpec c')) : diskSpec c = diskSpec c' := by
  rw [specString, specString, trimSpace_text, trimSpace_text] at h
  have hvalue := text_injective (proper_diskSpec c).2 (proper_diskSpec c').2 h
  generalize diskSpec c = d at hvalue
  generalize diskSpec c' = d' at hvalue
  cases d <;> cases d' <;> cases hvalue <;> rfl

/-! ## Repos -/

theorem disk_of_config (h : anyDatastoreConfig lib j = .ok c) : disk lib j = some (diskSpec c) := by
  rw [disk, h]
  rfl

theorem config_of_disk {d : Option Members} (h : disk lib j = some d) :
    ∃ c, anyDatastoreConfig lib j = .ok c ∧ diskSpec c = d := by
  unfold disk at h
  cases hc : anyDatastoreConfig lib j with
  | error e =>
    rw [hc] at h
    cases h
  | ok c =>
    rw [hc] at h
    exact ⟨c, rfl, some.inj h⟩

theorem file_of_initSpec {faults : Faults} {file : String}
    (hc : anyDatastoreConfig lib (.obj m) = .ok c) (h : initSpec lib faults none m = .ok file) :
    file = specString (diskSpec c) := by
  unfold initSpec at h
  split at h
  · cases h
  · rw [hc] at h
    dsimp only [bind, Except.bind] at h
    split at h
    · cases h
    · exact (Except.ok.inj h).symm

theorem readSpec_written {faults : Faults} (spec : Option Members) (hpath : faults.path = none)
    (hread : faults.read = none) : readSpec faults (some (specString spec)) =
      .ok (specString spec) := by
  unfold readSpec
  rw [hpath, hread]
  simp only [specString, trimSpace_text]

/-- **The disk spec ignores the runtime structure.**  A spec that is accepted keeps
its text when it is rearranged, and a repo that was initialized with it passes
the comparison with the rearranged spec; a mount that is moved shows in the text. -/
theorem specString_runtime {m : Members} {c : Config}
    (haccepted : anyDatastoreConfig lib (.obj m) = .ok c) :
    (∀ m', Rearranged (.obj m) (.obj m') →
      ∃ c', anyDatastoreConfig lib (.obj m') = .ok c' ∧
        specString (diskSpec c') = specString (diskSpec c) ∧
        ∀ faults faults' file, initSpec lib faults none m = .ok file →
          faults'.path = none → faults'.read = none →
          openDatastore lib faults' (some file) { spec := some m' } = lib.create c') ∧
      ∀ m', Remounted (.obj m) (.obj m') →
        ∃ c', anyDatastoreConfig lib (.obj m') = .ok c' ∧
          specString (diskSpec c') ≠ specString (diskSpec c) := by
  constructor
  · intro m' h
    have hdisk := disk_of_config haccepted
    rw [(disk_rearranged h).2] at hdisk
    obtain ⟨c', hc', hspec⟩ := config_of_disk hdisk
    refine ⟨c', hc', by rw [hspec], ?_⟩
    intro faults faults' file hinit hpath hread
    rw [file_of_initSpec haccepted hinit, ← hspec]
    unfold openDatastore
    rw [if_neg (by simp)]
    simp only [hc', readSpec_written _ hpath hread, bind, Except.bind]
    rw [if_neg (by simp)]
  · intro m' h
    obtain ⟨d', hdisk', hne⟩ := (disk_remounted h).2 _ (disk_of_config haccepted)
    obtain ⟨c', hc', rfl⟩ := config_of_disk hdisk'
    refine ⟨c', hc', fun heq => hne ?_⟩
    rw [diskSpec_of_specString heq]

def leveldsSpec (path : String) : DiskMap :=
  ⟨setKey "path" (.str path) (setKey "type" (.str "levelds") []),
    proper_setKey (proper_str path) (proper_setKey (proper_str "levelds") proper_nil)⟩

/-- `levelds` as the only leaf datastore, and insertion sort. -/
def leveldsLib : Lib where
  leaf := fun which =>
    if which = "levelds" then some fun m =>
      match m.lookup "path" with
      | some (.str path) => .ok (some (leveldsSpec path))
      | _ => .error (.err "'path' field is missing or not string")
    else none
  leaf_congr := by
    intro which parse hparse m m' h
    split at hparse
    · obtain rfl := Option.some.inj hparse
      dsimp only
      rw [h "path" (by decide)]
    · cases hparse
  sort := fun l => l.insertionSort fun a b => b.1 ≤ a.1
  sort_perm := fun l => List.perm_insertionSort _ l
  sort_pairwise := by
    intro α l
    have : Std.Total (fun a b : String × α => b.1 ≤ a.1) := ⟨fun a b => le_total b.1 a.1⟩
    have : IsTrans (String × α) (fun a b => b.1 ≤ a.1) := ⟨fun a b c hab hbc => hbc.trans hab⟩
    exact (List.pairwise_insertionSort _ l).imp fun h => not_lt.mpr h
  sort_map := by
    intro α β f l
    exact (List.map_insertionSort (r := fun a b => b.1 ≤ a.1) (s := fun a b => b.1 ≤ a.1)
      (fun e : String × α => (e.1, f e.2)) l fun _ _ _ _ => Iff.rfl).symm
  create := fun _ => .ok ()

/-- A `levelds` datastore next to one in memory, which is measured. -/
def twoMounts : Members :=
  [("mounts", .arr [
      .obj [("mountpoint", .str "/"), ("path", .str "db"), ("type", .str "levelds")],
      .obj [("child", .obj [("type", .str "mem")]), ("mountpoint", .str "cache/"),
        ("prefix", .str "m"), ("type", .str "measure")]]),
    ("type", .str "mount")]

/-- Logging the accesses to this datastore does not change its text. -/
theorem specString_twoMounts :
    ∃ c c', anyDatastoreConfig leveldsLib (.obj twoMounts) = .ok c ∧
      anyDatastoreConfig leveldsLib (.obj (wrap .log "all" twoMounts)) = .ok c' ∧
      specString (diskSpec c') = specString (diskSpec c) := by
  have haccepted : (disk leveldsLib (.obj twoMounts)).isSome = true := by decide +kernel
  obtain ⟨d, hdisk⟩ := isSome_iff_exists.mp haccepted
  obtain ⟨c, hc, _⟩ := config_of_disk hdisk
  obtain ⟨c', hc', hstring, _⟩ := (specString_runtime hc).1 _ (Rearranged.wrap .log "all" twoMounts)
  exact ⟨c, c', hc, hc', hstring⟩

end DatastoreSpec
