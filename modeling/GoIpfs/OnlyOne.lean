import GoIpfs.StepRun
import GoIpfs.Effects
import Mathlib.Data.List.Count
import Mathlib.Algebra.Group.Nat.Defs

/-!
# One open repo per key

`repo.OnlyOne` hands out one `ref` per key and counts its holders in a `uint32`.
The calls it makes, the `open` of its caller and the `Close` of the repo inside
the `ref`, are programs over a world `ω`.

A holder is an entry of `handles`: `Open` returns the same pointer to every holder
of a key, so the list may hold a pointer several times.  `Counted` is what the
code keeps however many holders there are.  As long as no counter wraps around,
the active refs are those that somebody holds (`Tracked`).
-/

namespace SharedRepo

open StepRun Effects List Option

/-- `ref`. -/
structure Ref (Key Repo : Type) where
  key : Key
  refs : UInt32
  repo : Repo

/-- `OnlyOne`.  A pointer to a ref is its position in `items`, the refs made so
far. -/
structure OnlyOne (Key Repo : Type) where
  active : List (Key × Nat)
  items : List (Ref Key Repo)

variable {Key Repo ε ω : Type} [DecidableEq Key]

/-- `item.refs++` -/
def OnlyOne.incr (o : OnlyOne Key Repo) (item : Nat) : OnlyOne Key Repo :=
  { o with items := o.items.modify item fun r => { r with refs := r.refs + 1 } }

/-- `r.refs--` -/
def OnlyOne.decr (o : OnlyOne Key Repo) (item : Nat) : OnlyOne Key Repo :=
  { o with items := o.items.modify item fun r => { r with refs := r.refs - 1 } }

/-- `item = &ref{…}; o.active[key] = item` -/
def OnlyOne.insert (o : OnlyOne Key Repo) (key : Key) (repo : Repo) : OnlyOne Key Repo where
  active := (key, o.items.length) :: o.active
  items := o.items ++ [⟨key, 0, repo⟩]

/-- `delete(o.active, key)` -/
def OnlyOne.delete (o : OnlyOne Key Repo) (key : Key) : OnlyOne Key Repo :=
  { o with active := o.active.filter fun entry => entry.1 ≠ key }

/-- `OnlyOne.Open` -/
def onlyOneOpen (o : OnlyOne Key Repo) (w : ω) (key : Key) (call : Prog ε ω Repo) :
    Except ε Nat × OnlyOne Key Repo × ω :=
  match o.active.lookup key with
  | some item => (.ok item, o.incr item, w)
  | none =>
    match exec call w with
    | (.error e, w') => (.error e, o, w')
    | (.ok repo, w') => (.ok o.items.length, (o.insert key repo).incr o.items.length, w')

/-- `ref.Close` -/
def refClose (o : OnlyOne Key Repo) (w : ω) (item : Nat) (call : Repo → Prog ε ω Unit) :
    Except ε Unit × OnlyOne Key Repo × ω :=
  match (o.decr item).items[item]? with
  | none => (.ok (), o, w)
  | some r =>
    -- others are holding it open
    if 0 < r.refs then (.ok (), o.decr item, w)
    else
      match exec (call r.repo) w with
      | (res, w') => (res, (o.decr item).delete r.key, w')

/-- The registry, the world, and the handles that have been returned and not yet
closed. -/
structure System (Key Repo ω : Type) where
  one : OnlyOne Key Repo
  world : ω
  handles : List Nat

namespace System

def openKey (s : System Key Repo ω) (key : Key) (call : Prog ε ω Repo) :
    Except ε Nat × System Key Repo ω :=
  match onlyOneOpen s.one s.world key call with
  | (.ok item, one, world) => (.ok item, ⟨one, world, item :: s.handles⟩)
  | (.error e, one, world) => (.error e, ⟨one, world, s.handles⟩)

def closeHandle (s : System Key Repo ω) (h : Nat) (call : Repo → Prog ε ω Unit) :
    Except ε Unit × System Key Repo ω :=
  match refClose s.one s.world h call with
  | (res, one, world) => (res, ⟨one, world, s.handles.erase h⟩)

def keyOf (s : System Key Repo ω) (h : Nat) : Option Key :=
  s.one.items[h]?.map Ref.key

def repoOf (s : System Key Repo ω) (h : Nat) : Option Repo :=
  s.one.items[h]?.map Ref.repo

/-- How many handles of a key are outstanding. -/
def outstanding (s : System Key Repo ω) (key : Key) : Nat :=
  s.handles.countP fun h => s.keyOf h = some key

end System

/-! ### What one call does -/

variable {r : Ref Key Repo}

section Calls

variable {s : System Key Repo ω} {key : Key} {h : Nat}

/-- Everything that `Open` can do: share the active ref, fail with its caller's
`open`, or make a ref. -/
theorem openKey_cases (s : System Key Repo ω) (key : Key) (call : Prog ε ω Repo) :
    (∃ item, s.one.active.lookup key = some item ∧
      s.openKey key call = (.ok item, ⟨s.one.incr item, s.world, item :: s.handles⟩)) ∨
    (s.one.active.lookup key = none ∧ ∃ e w, exec call s.world = (.error e, w) ∧
      s.openKey key call = (.error e, ⟨s.one, w, s.handles⟩)) ∨
    (s.one.active.lookup key = none ∧ ∃ repo w, exec call s.world = (.ok repo, w) ∧
      s.openKey key call = (.ok s.one.items.length,
        ⟨(s.one.insert key repo).incr s.one.items.length, w,
          s.one.items.length :: s.handles⟩)) := by
  cases hactive : s.one.active.lookup key with
  | some item =>
    refine .inl ⟨item, rfl, ?_⟩
    simp [System.openKey, onlyOneOpen, hactive]
  | none =>
    rcases hcall : exec call s.world with ⟨res, w⟩
    cases res with
    | error e =>
      refine .inr (.inl ⟨rfl, e, w, rfl, ?_⟩)
      simp [System.openKey, onlyOneOpen, hactive, hcall]
    | ok repo =>
      refine .inr (.inr ⟨rfl, repo, w, rfl, ?_⟩)
      simp [System.openKey, onlyOneOpen, hactive, hcall]

section

variable (o : OnlyOne Key Repo)

omit [DecidableEq Key]

theorem getElem?_incr (item i : Nat) :
    (o.incr item).items[i]? =
      o.items[i]?.map fun r => if item = i then { r with refs := r.refs + 1 } else r := by
  simp only [OnlyOne.incr, getElem?_modify, Option.map_eq_map]

theorem getElem?_decr (item i : Nat) :
    (o.decr item).items[i]? =
      o.items[i]?.map fun r => if item = i then { r with refs := r.refs - 1 } else r := by
  simp only [OnlyOne.decr, getElem?_modify, Option.map_eq_map]

theorem key_modify {f : Ref Key Repo → Ref Key Repo} (hf : ∀ r, (f r).key = r.key)
    (items : List (Ref Key Repo)) (item i : Nat) :
    (items.modify item f)[i]?.map Ref.key = items[i]?.map Ref.key := by
  rw [getElem?_modify, Option.map_eq_map, Option.map_map]
  congr 1
  funext r
  simp only [Function.comp]
  split
  · exact hf r
  · rfl

theorem getElem?_insert_incr (key : Key) (repo : Repo) (i : Nat) :
    ((o.insert key repo).incr o.items.length).items[i]? =
      if i = o.items.length then some ⟨key, 1, repo⟩ else o.items[i]? := by
  rw [getElem?_incr]
  rcases Nat.lt_trichotomy i o.items.length with hlt | heq | hgt
  · have hne : o.items.length ≠ i := by omega
    have hne' : i ≠ o.items.length := by omega
    simp [OnlyOne.insert, getElem?_append_left hlt, hne, hne']
  · subst heq
    simp [OnlyOne.insert]
  · have hne : i ≠ o.items.length := by omega
    have hout : (o.insert key repo).items.length ≤ i := by
      simp only [OnlyOne.insert, length_append, length_singleton]
      omega
    rw [if_neg hne, getElem?_eq_none hout, getElem?_eq_none (by omega)]
    rfl

/-- The repos are the numbers of their refs. -/
def Numbered (items : List (Ref Key Nat)) : Prop :=
  ∀ (i : Nat) (r : Ref Key Nat), items[i]? = some r → r.repo = i

theorem Numbered.modify {items : List (Ref Key Nat)} (h : Numbered items)
    {f : Ref Key Nat → Ref Key Nat} (hf : ∀ r, (f r).repo = r.repo) (item : Nat) :
    Numbered (items.modify item f) := by
  intro i r hr
  rw [getElem?_modify] at hr
  obtain ⟨r', hr', rfl⟩ := map_eq_some_iff.mp hr
  split
  · exact (hf r').trans (h i r' hr')
  · exact h i r' hr'

theorem Numbered.insert {o : OnlyOne Key Nat} (h : Numbered o.items) (key : Key) :
    Numbered ((o.insert key o.items.length).incr o.items.length).items := by
  intro i r hr
  rw [getElem?_insert_incr] at hr
  split at hr
  · rename_i hi
    cases hr
    exact hi.symm
  · exact h i r hr

end

/-- Everything that `Close` can do with a ref: count down, or count down to zero,
forget the ref and close its repo. -/
theorem closeHandle_cases (hr : s.one.items[h]? = some r) (call : Repo → Prog ε ω Unit) :
    (r.refs - 1 ≠ 0 ∧
      s.closeHandle h call = (.ok (), ⟨s.one.decr h, s.world, s.handles.erase h⟩)) ∨
    (r.refs - 1 = 0 ∧
      s.closeHandle h call = ((exec (call r.repo) s.world).1,
        ⟨(s.one.decr h).delete r.key, (exec (call r.repo) s.world).2,
          s.handles.erase h⟩)) := by
  have hdecr : (s.one.decr h).items[h]? = some { r with refs := r.refs - 1 } := by
    simp [getElem?_decr, hr]
  by_cases hzero : r.refs - 1 = 0
  · right
    refine ⟨hzero, ?_⟩
    simp [System.closeHandle, refClose, hdecr, hzero]
  · left
    have hpos : 0 < r.refs - 1 := UInt32.pos_iff_ne_zero.mpr hzero
    refine ⟨hzero, ?_⟩
    simp [System.closeHandle, refClose, hdecr, hpos]

theorem lookup_cons_ite (q k : Key) (item : Nat) (rest : List (Key × Nat)) :
    ((k, item) :: rest).lookup q = if q = k then some item else rest.lookup q := by
  by_cases hq : q = k
  · simp [hq]
  · simp [lookup_cons, hq, beq_false_of_ne hq]

theorem lookup_delete (o : OnlyOne Key Repo) (key q : Key) :
    (o.delete key).active.lookup q = if q = key then none else o.active.lookup q := by
  show (o.active.filter fun entry => entry.1 ≠ key).lookup q = _
  induction o.active with
  | nil => simp
  | cons entry rest ih =>
    obtain ⟨k, item⟩ := entry
    by_cases hk : k = key
    · subst hk
      rw [filter_cons_of_neg (by simp), ih, lookup_cons_ite]
      by_cases hq : q = k <;> simp [hq]
    · rw [filter_cons_of_pos (by simpa using hk), lookup_cons_ite, lookup_cons_ite, ih]
      by_cases hq : q = k
      · simp [hq, hk]
      · simp [hq]

end Calls

/-! ### The counters -/

/-- **What the registry keeps.**  A ref counts its handles modulo `2 ^ 32`, and an
active ref is held by somebody. -/
structure Counted (s : System Key Repo ω) : Prop where
  refs : ∀ i r, s.one.items[i]? = some r → r.refs = UInt32.ofNat (s.handles.count i)
  made : ∀ h ∈ s.handles, ∃ r, s.one.items[h]? = some r
  held : ∀ key i, s.one.active.lookup key = some i → i ∈ s.handles ∧ s.keyOf i = some key

section Counters

variable {s : System Key Repo ω} {key : Key} {h : Nat}

theorem counted_new (w : ω) : Counted (⟨⟨[], []⟩, w, []⟩ : System Key Repo ω) := by
  refine ⟨?_, ?_, ?_⟩
  · intro i r hr
    simp at hr
  · intro h hh
    exact absurd hh not_mem_nil
  · intro key i hi
    simp at hi

theorem ofNat_succ_sub_one (n : Nat) : UInt32.ofNat (n + 1) - 1 = UInt32.ofNat n := by
  rw [UInt32.ofNat_add]
  exact UInt32.add_sub_cancel _ _

variable (hs : Counted s)
include hs

theorem counted_incr {item : Nat} (hitem : item ∈ s.handles) (w : ω) :
    Counted (⟨s.one.incr item, w, item :: s.handles⟩ : System Key Repo ω) := by
  refine ⟨?_, ?_, ?_⟩
  · intro i r hr
    rw [getElem?_incr] at hr
    obtain ⟨r', hr', rfl⟩ := map_eq_some_iff.mp hr
    have hrefs := hs.refs i r' hr'
    by_cases hi : item = i
    · subst hi
      rw [if_pos rfl, count_cons_self, UInt32.ofNat_add, ← hrefs]
      rfl
    · rw [if_neg hi, count_cons_of_ne hi]
      exact hrefs
  · intro h hh
    have hmem : h ∈ s.handles := by
      rcases mem_cons.mp hh with rfl | hh
      · exact hitem
      · exact hh
    obtain ⟨r, hr⟩ := hs.made h hmem
    rw [getElem?_incr, hr]
    exact ⟨_, rfl⟩
  · intro key i hi
    obtain ⟨hmem, hki⟩ := hs.held key i hi
    exact ⟨mem_cons_of_mem _ hmem, (key_modify (fun _ => by rfl) ..).trans hki⟩

theorem counted_insert (repo : Repo) (w : ω) :
    Counted (⟨(s.one.insert key repo).incr s.one.items.length, w,
      s.one.items.length :: s.handles⟩ : System Key Repo ω) := by
  have hfresh : s.one.items.length ∉ s.handles := by
    intro hmem
    obtain ⟨r, hr⟩ := hs.made _ hmem
    simp at hr
  refine ⟨?_, ?_, ?_⟩
  · intro i r hr
    rw [getElem?_insert_incr] at hr
    by_cases hi : i = s.one.items.length
    · rw [if_pos hi] at hr
      obtain rfl := some.inj hr
      rw [hi, count_cons_self, count_eq_zero_of_not_mem hfresh]
      rfl
    · rw [if_neg hi] at hr
      rw [count_cons_of_ne (Ne.symm hi)]
      exact hs.refs i r hr
  · intro h hh
    rw [getElem?_insert_incr]
    rcases mem_cons.mp hh with rfl | hh
    · rw [if_pos rfl]
      exact ⟨_, rfl⟩
    · obtain ⟨r, hr⟩ := hs.made h hh
      have hne : h ≠ s.one.items.length := fun heq => hfresh (heq ▸ hh)
      rw [if_neg hne]
      exact ⟨r, hr⟩
  · intro q i hi
    have hi' : ((key, s.one.items.length) :: s.one.active).lookup q = some i := hi
    rw [lookup_cons_ite] at hi'
    simp only [System.keyOf, getElem?_insert_incr]
    by_cases hq : q = key
    · rw [if_pos hq] at hi'
      cases hi'
      refine ⟨mem_cons_self, ?_⟩
      rw [if_pos rfl, hq]
      rfl
    · rw [if_neg hq] at hi'
      obtain ⟨hmem, hki⟩ := hs.held q i hi'
      have hne : i ≠ s.one.items.length := fun heq => hfresh (heq ▸ hmem)
      refine ⟨mem_cons_of_mem _ hmem, ?_⟩
      rw [if_neg hne]
      exact hki

/-- **`Open` keeps the counters.** -/
theorem counted_openKey (key : Key) (call : Prog ε ω Repo) : Counted (s.openKey key call).2 := by
  rcases openKey_cases s key call with
    ⟨item, hitem, heq⟩ | ⟨_, e, w, _, heq⟩ | ⟨_, repo, w, _, heq⟩
  · rw [heq]
    exact counted_incr hs (hs.held key item hitem).1 s.world
  · rw [heq]
    exact ⟨hs.refs, hs.made, hs.held⟩
  · rw [heq]
    exact counted_insert hs repo w

theorem refs_decr (hh : h ∈ s.handles) {i : Nat} (hr : (s.one.decr h).items[i]? = some r) :
    r.refs = UInt32.ofNat ((s.handles.erase h).count i) := by
  rw [getElem?_decr] at hr
  obtain ⟨r', hr', rfl⟩ := map_eq_some_iff.mp hr
  have hrefs := hs.refs i r' hr'
  by_cases hi : h = i
  · subst hi
    obtain ⟨n, hn⟩ : ∃ n, s.handles.count h = n + 1 :=
      Nat.exists_eq_add_one.mpr (count_pos_iff.mpr hh)
    rw [if_pos rfl, count_erase_self, hrefs, hn]
    exact ofNat_succ_sub_one n
  · rw [if_neg hi, count_erase_of_ne (Ne.symm hi)]
    exact hrefs

theorem Counted.mem_erase (hh : h ∈ s.handles) (hr : s.one.items[h]? = some r)
    (hpos : r.refs - 1 ≠ 0) : h ∈ s.handles.erase h := by
  apply count_pos_iff.mp
  apply Nat.pos_of_ne_zero
  intro hzero
  have hdecr : (s.one.decr h).items[h]? = some { r with refs := r.refs - 1 } := by
    simp [getElem?_decr, hr]
  have hrefs := refs_decr hs hh hdecr
  rw [hzero] at hrefs
  exact hpos hrefs

/-- **`Close` keeps the counters.** -/
theorem counted_closeHandle (hh : h ∈ s.handles) (call : Repo → Prog ε ω Unit) :
    Counted (s.closeHandle h call).2 := by
  obtain ⟨r, hr⟩ := hs.made h hh
  have hmade : ∀ k ∈ s.handles.erase h, ∃ r, (s.one.decr h).items[k]? = some r := by
    intro k hk
    obtain ⟨r', hr'⟩ := hs.made k (mem_of_mem_erase hk)
    rw [getElem?_decr, hr']
    exact ⟨_, rfl⟩
  rcases closeHandle_cases hr call with ⟨hpos, heq⟩ | ⟨_, heq⟩
  · rw [heq]
    refine ⟨fun i r' hr' => refs_decr hs hh hr', hmade, ?_⟩
    intro key i hi
    obtain ⟨hmem, hki⟩ := hs.held key i hi
    refine ⟨?_, (key_modify (fun _ => by rfl) ..).trans hki⟩
    by_cases hih : i = h
    · subst hih
      exact hs.mem_erase hh hr hpos
    · exact (mem_erase_of_ne hih).mpr hmem
  · rw [heq]
    refine ⟨fun i r' hr' => refs_decr hs hh hr', hmade, ?_⟩
    intro key i hi
    rw [lookup_delete] at hi
    by_cases hkey : key = r.key
    · rw [if_pos hkey] at hi
      exact absurd hi (by simp)
    rw [if_neg hkey] at hi
    obtain ⟨hmem, hki⟩ := hs.held key i hi
    refine ⟨?_, (key_modify (fun _ => by rfl) ..).trans hki⟩
    have hih : i ≠ h := by
      intro hih
      subst hih
      have hrk : s.keyOf i = some r.key := by simp [System.keyOf, hr]
      exact hkey (some.inj (hki.symm.trans hrk))
    exact (mem_erase_of_ne hih).mpr hmem

end Counters

/-! ### No counter wraps around -/

/-- Every held ref is the active one of its key. -/
structure Tracked (s : System Key Repo ω) : Prop extends Counted s where
  active : ∀ h ∈ s.handles, ∀ key, s.keyOf h = some key → s.one.active.lookup key = some h
  few : ∀ key, s.outstanding key < 2 ^ 32

section Tracking

variable {s : System Key Repo ω} {key : Key} {h : Nat}

theorem tracked_new (w : ω) : Tracked (⟨⟨[], []⟩, w, []⟩ : System Key Repo ω) := by
  refine ⟨counted_new w, ?_, ?_⟩
  · intro h hh
    exact absurd hh not_mem_nil
  · simp [System.outstanding]

theorem Tracked.outstanding_eq (hs : Tracked s) (hh : h ∈ s.handles)
    (hkey : s.keyOf h = some key) : s.outstanding key = s.handles.count h := by
  apply countP_congr
  intro k hk
  have hiff : s.keyOf k = some key ↔ k = h := by
    constructor
    · intro hkk
      have hlk := hs.active k hk key hkk
      have hlh := hs.active h hh key hkey
      exact some.inj (hlk.symm.trans hlh)
    · intro heq
      rw [heq]
      exact hkey
  simpa using hiff

theorem Tracked.outstanding_eq_zero (hs : Tracked s)
    (hnone : s.one.active.lookup key = none) : s.outstanding key = 0 := by
  apply countP_eq_zero.mpr
  intro k hk hkk
  have hlk := hs.active k hk key (by simpa using hkk)
  rw [hnone] at hlk
  cases hlk

theorem Tracked.toNat_refs (hs : Tracked s) (hr : s.one.items[h]? = some r) (hh : h ∈ s.handles) :
    r.refs.toNat = s.handles.count h := by
  have hkey : s.keyOf h = some r.key := by simp [System.keyOf, hr]
  have hlt := hs.few r.key
  rw [hs.outstanding_eq hh hkey] at hlt
  rw [hs.refs h r hr]
  exact UInt32.toNat_ofNat_of_lt' hlt

theorem Tracked.last_iff (hs : Tracked s) (hr : s.one.items[h]? = some r) (hh : h ∈ s.handles) :
    r.refs - 1 = 0 ↔ s.handles.count h = 1 := by
  have htoNat := hs.toNat_refs hr hh
  constructor
  · intro hzero
    have hone : r.refs = 1 := by
      have := congrArg (· + 1) hzero
      simpa using this
    rw [← htoNat, hone]
    rfl
  · intro hcount
    have hone : r.refs = 1 := by
      apply UInt32.toNat.inj
      rw [htoNat, hcount]
      rfl
    rw [hone]
    rfl

theorem keyOf_openKey (hs : Counted s) (key : Key) (call : Prog ε ω Repo) {i : Nat}
    (hi : i ∈ s.handles) : (s.openKey key call).2.keyOf i = s.keyOf i := by
  obtain ⟨r, hr⟩ := hs.made i hi
  have hlt : i < s.one.items.length := (List.getElem?_eq_some_iff.mp hr).1
  rcases openKey_cases s key call with
    ⟨item, _, heq⟩ | ⟨_, e, w, _, heq⟩ | ⟨_, repo, w, _, heq⟩
  · rw [heq]
    exact key_modify (fun _ => by rfl) ..
  · rw [heq]
    rfl
  · rw [heq]
    have hne : i ≠ s.one.items.length := by omega
    simp only [System.keyOf, getElem?_insert_incr, if_neg hne]

theorem outstanding_openKey_le (hs : Counted s) (key q : Key) (call : Prog ε ω Repo) :
    (s.openKey key call).2.outstanding q ≤
      s.outstanding q + if q = key then 1 else 0 := by
  have hold : s.handles.countP (fun k => (s.openKey key call).2.keyOf k = some q) =
      s.outstanding q := by
    apply countP_congr
    intro k hk
    rw [keyOf_openKey hs key call hk]
  have hcons : ∀ item, (s.openKey key call).2.handles = item :: s.handles →
      (s.openKey key call).2.keyOf item = some key →
      (s.openKey key call).2.outstanding q ≤
        s.outstanding q + if q = key then 1 else 0 := by
    intro item hhandles hitem
    rw [System.outstanding, hhandles, countP_cons, hold, hitem]
    by_cases hq : q = key
    · simp [hq]
    · simp [hq, Ne.symm hq]
  have hcases := openKey_cases s key call
  rcases hcases with ⟨item, hitem, heq⟩ | ⟨_, e, w, _, heq⟩ | ⟨_, repo, w, _, heq⟩
  · apply hcons item (by rw [heq])
    obtain ⟨hmem, hkey⟩ := hs.held key item hitem
    rw [keyOf_openKey hs key call hmem]
    exact hkey
  · have hsame : (s.openKey key call).2.outstanding q = s.outstanding q := by
      rw [heq]
      rfl
    omega
  · apply hcons s.one.items.length (by rw [heq])
    rw [heq]
    simp [System.keyOf, getElem?_insert_incr]

/-- **`Open` keeps the active refs.** -/
theorem tracked_openKey (hs : Tracked s) (key : Key) (call : Prog ε ω Repo)
    (hfew : s.outstanding key + 1 < 2 ^ 32) : Tracked (s.openKey key call).2 := by
  refine ⟨counted_openKey hs.toCounted key call, ?_, ?_⟩
  · intro k hk q hkq
    rcases openKey_cases s key call with
      ⟨item, hitem, heq⟩ | ⟨_, e, w, _, heq⟩ | ⟨hnew, repo, w, _, heq⟩
    · have hmem : k ∈ s.handles := by
        rw [heq] at hk
        rcases mem_cons.mp hk with rfl | hk
        · exact (hs.held key k hitem).1
        · exact hk
      rw [keyOf_openKey hs.toCounted key call hmem] at hkq
      rw [heq]
      exact hs.active k hmem q hkq
    · rw [heq] at hk hkq ⊢
      exact hs.active k hk q hkq
    have hlookup : (s.openKey key call).2.one.active.lookup q =
        if q = key then some s.one.items.length else s.one.active.lookup q := by
      rw [heq]
      exact lookup_cons_ite ..
    have hhandles : k = s.one.items.length ∨ k ∈ s.handles := by
      rw [heq] at hk
      exact mem_cons.mp hk
    rw [hlookup]
    rcases hhandles with rfl | hmem
    · rw [heq] at hkq
      simp only [System.keyOf, getElem?_insert_incr, if_true, map_some, some.injEq] at hkq
      rw [if_pos hkq.symm]
    rw [keyOf_openKey hs.toCounted key call hmem] at hkq
    have hactive := hs.active k hmem q hkq
    have hq : q ≠ key := by
      intro hq
      rw [hq, hnew] at hactive
      cases hactive
    rw [if_neg hq]
    exact hactive
  · intro q
    have hle := outstanding_openKey_le hs.toCounted key q call
    have hq := hs.few q
    split at hle
    · rename_i heq
      subst heq
      omega
    · omega

theorem keyOf_closeHandle (s : System Key Repo ω) (h : Nat) (call : Repo → Prog ε ω Unit)
    (i : Nat) : (s.closeHandle h call).2.keyOf i = s.keyOf i := by
  cases hr : s.one.items[h]? with
  | none =>
    have hdecr : (s.one.decr h).items[h]? = none := by simp [getElem?_decr, hr]
    simp [System.closeHandle, refClose, hdecr, System.keyOf]
  | some r =>
    rcases closeHandle_cases hr call with ⟨_, heq⟩ | ⟨_, heq⟩ <;> rw [heq]
    all_goals exact key_modify (fun _ => by rfl) ..

theorem handles_closeHandle (s : System Key Repo ω) (h : Nat) (call : Repo → Prog ε ω Unit) :
    (s.closeHandle h call).2.handles = s.handles.erase h := rfl

/-- **`Close` keeps the active refs.** -/
theorem tracked_closeHandle (hs : Tracked s) (hh : h ∈ s.handles)
    (call : Repo → Prog ε ω Unit) : Tracked (s.closeHandle h call).2 := by
  obtain ⟨r, hr⟩ := hs.made h hh
  refine ⟨counted_closeHandle hs.toCounted hh call, ?_, ?_⟩
  · intro k hk q hkq
    rw [keyOf_closeHandle] at hkq
    have hactive := hs.active k (mem_of_mem_erase hk) q hkq
    rcases closeHandle_cases hr call with ⟨_, heq⟩ | ⟨hzero, heq⟩
    · rw [heq]
      exact hactive
    rw [heq, lookup_delete]
    have hgone : h ∉ s.handles.erase h := by
      apply count_eq_zero.mp
      rw [count_erase_self, (hs.last_iff hr hh).mp hzero]
    have hq : q ≠ r.key := by
      intro hq
      have hkey : s.keyOf h = some q := by simp [System.keyOf, hr, hq]
      have hactive' := hs.active h hh q hkey
      have hkh : k = h := some.inj (hactive.symm.trans hactive')
      exact hgone (hkh ▸ hk)
    rw [if_neg hq]
    exact hactive
  · intro q
    have hle : (s.closeHandle h call).2.outstanding q ≤ s.outstanding q := by
      unfold System.outstanding
      simp only [keyOf_closeHandle, handles_closeHandle]
      exact List.Sublist.countP_le erase_sublist
    exact Nat.lt_of_le_of_lt hle (hs.few q)

end Tracking

end SharedRepo
