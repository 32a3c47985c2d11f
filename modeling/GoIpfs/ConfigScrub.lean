import GoIpfs.ConfigCommands

/-!
# Scrubbing a nested map

`scrubMapInternal` goes down a map along a selector.  A map at the end of the
selector is emptied, and any other value that it comes across is dropped.  A
value that the selector misses stays where it is (`scrub_exact`).

The error for a missing value is never returned.  `scrubEither` hands on the nil map
of a failed type assertion, which is no nil interface, and a name that does not
occur ends the loop without an error (`scrubValue_reports_iff`).
-/

namespace ConfigCommands

open GoJson Option

/-- What is kept of a selected value. -/
def leftOf (scrubMap : Members → Members) : Json → Option Json
  | .obj m => some (.obj (scrubMap m))
  | _ => none

/-- What the loop of `scrubMapInternal` keeps of one member. -/
def keptOf (folding : Folding) (p : String) (scrubMap : Members → Members) (k : String) (v : Json) :
    Option Json :=
  if selects folding p k then leftOf scrubMap v else some v

/-- What is left of a map, without the errors. -/
def scrubbed (folding : Folding) : List String → Members → Members
  | [], _ => []
  | p :: key, m =>
    m.filterMap fun e => (keptOf folding p (scrubbed folding key) e.1 e.2).map (Prod.mk e.1)

/-- What a path leads to. -/
def entryAt : List String → Json → Option Json
  | [], j => some j
  | k :: path, .obj m => (m.lookup k).bind (entryAt path)
  | _ :: _, _ => none

/-- The path leaves the selector. -/
def Misses (folding : Folding) (key path : List String) : Prop :=
  ∃ e ∈ key.zip path, selects folding e.1 e.2 = false

/-- The path has a component for each one of the selector, and they match. -/
def Hits (folding : Folding) (key path : List String) : Prop :=
  key.length ≤ path.length ∧ ¬ Misses folding key path

variable {folding : Folding} {p k : String} {key path : List String} {m : Members} {v : Json}

theorem misses_cons : Misses folding (p :: key) (k :: path) ↔
    selects folding p k = false ∨ Misses folding key path := by
  simp [Misses]

theorem hits_cons : Hits folding (p :: key) (k :: path) ↔
    selects folding p k = true ∧ Hits folding key path := by
  simp [Hits, misses_cons, and_left_comm]

theorem scrubMembers_eq {scrub : Json → Except String (Option Json)} {scrubMap : Members → Members}
    (hscrub : ∀ j, scrub j = .ok (leftOf scrubMap j)) :
    scrubMembers (selects folding p) scrub m =
      .ok (m.filterMap fun e => (keptOf folding p scrubMap e.1 e.2).map (Prod.mk e.1)) := by
  induction m with
  | nil => rfl
  | cons e rest ih =>
    obtain ⟨k, j⟩ := e
    rw [scrubMembers, ih, hscrub]
    cases hsel : selects folding p k with
    | true => cases j <;> simp [keptOf, leftOf, hsel, bind, Except.bind]
    | false => simp [keptOf, hsel, bind, Except.bind]

/-- **Scrubbing never fails**, whether or not a missing value is to be reported. -/
theorem scrubMapInternal_eq (okIfMissing : Bool) (key : List String) (m : Members) :
    scrubMapInternal folding okIfMissing key m = .ok (scrubbed folding key m) := by
  induction key generalizing m with
  | nil => rfl
  | cons p key ih =>
    refine scrubMembers_eq fun j => ?_
    cases j with
    | obj m' => simp [scrubEither, leftOf, ih, Functor.map, Except.map]
    | _ => rfl

theorem lookup_filterMap {f : String → Json → Option Json} (hnodup : (m.map Prod.fst).Nodup) :
    (m.filterMap fun e => (f e.1 e.2).map (Prod.mk e.1)).lookup k = (m.lookup k).bind (f k) := by
  induction m with
  | nil => rfl
  | cons e rest ih =>
    rw [List.map_cons, List.nodup_cons] at hnodup
    rw [List.filterMap_cons, lookup_cons]
    by_cases hk : k = e.1
    · subst hk
      rw [if_pos rfl, bind_some]
      cases hf : f e.1 e.2 with
      | none => rw [map_none, ih hnodup.2, lookup_eq_none_of_not_mem hnodup.1, bind_none]
      | some u => rw [map_some, lookup_cons, if_pos rfl]
    · rw [if_neg hk, ← ih hnodup.2]
      cases hf : f e.1 e.2 with
      | none => rfl
      | some u => rw [map_some, lookup_cons, if_neg hk]

section

variable (hm : Canonical (.obj m))
include hm

/-- One step of a path into what is left. -/
theorem entryAt_scrubbed :
    entryAt (k :: path) (.obj (scrubbed folding (p :: key) m)) =
      ((m.lookup k).bind (keptOf folding p (scrubbed folding key) k)).bind (entryAt path) := by
  rw [entryAt, scrubbed, lookup_filterMap (canonical_obj.mp hm).1.nodup]

/-- A path into what is left that leads along the selector. -/
theorem entryAt_scrubbed_selected (hsel : selects folding p k = true)
    (h : entryAt (k :: path) (.obj (scrubbed folding (p :: key) m)) = some v) :
    ∃ m', m.lookup k = some (.obj m') ∧ entryAt path (.obj (scrubbed folding key m')) = some v := by
  rw [entryAt_scrubbed hm] at h
  cases hlook : m.lookup k with
  | none => simp [hlook] at h
  | some j =>
    cases j with
    | obj m' => exact ⟨m', rfl, by simpa [hlook, keptOf, leftOf, hsel] using h⟩
    | _ => simp [hlook, keptOf, leftOf, hsel] at h

theorem entryAt_scrubbed_missed (hsel : selects folding p k = false) :
    entryAt (k :: path) (.obj (scrubbed folding (p :: key) m)) = entryAt (k :: path) (.obj m) := by
  rw [entryAt_scrubbed hm, entryAt]
  cases m.lookup k <;> simp [keptOf, hsel]

theorem entryAt_of_hits (hhits : Hits folding key path)
    (h : entryAt path (.obj (scrubbed folding key m)) = some v) : v = .obj [] := by
  induction key generalizing m path with
  | nil =>
    cases path with
    | nil => exact (some.inj h).symm
    | cons k path => cases h
  | cons p key ih =>
    cases path with
    | nil => simp [Hits] at hhits
    | cons k path =>
      obtain ⟨hsel, hhits⟩ := hits_cons.mp hhits
      obtain ⟨m', hlook, h⟩ := entryAt_scrubbed_selected hm hsel h
      exact ih (canonical_lookup hm hlook) hhits h

theorem entryAt_of_misses (hmisses : Misses folding key path) (h : entryAt path (.obj m) = some v) :
    entryAt path (.obj (scrubbed folding key m)) = some v := by
  induction key generalizing m path with
  | nil => simp [Misses] at hmisses
  | cons p key ih =>
    cases path with
    | nil => simp [Misses] at hmisses
    | cons k path =>
      cases hsel : selects folding p k with
      | false => rw [entryAt_scrubbed_missed hm hsel, h]
      | true =>
        have hmisses : Misses folding key path :=
          (misses_cons.mp hmisses).resolve_left (by simp [hsel])
        obtain ⟨j, hlook, hj⟩ := bind_eq_some_iff.mp h
        rw [entryAt_scrubbed hm, hlook]
        -- the path goes on, so there is a map at its first name
        cases path with
        | nil => simp [Misses] at hmisses
        | cons k' path =>
          cases j with
          | obj m' =>
            simpa [keptOf, leftOf, hsel] using ih (canonical_lookup hm hlook) hmisses hj
          | _ => cases hj

theorem entryAt_isSome_of_scrubbed (h : (entryAt path (.obj (scrubbed folding key m))).isSome) :
    (entryAt path (.obj m)).isSome := by
  induction key generalizing m path with
  | nil =>
    cases path with
    | nil => rfl
    | cons k path => cases h
  | cons p key ih =>
    cases path with
    | nil => rfl
    | cons k path =>
      cases hsel : selects folding p k with
      | false => rwa [entryAt_scrubbed_missed hm hsel] at h
      | true =>
        obtain ⟨v, hv⟩ := isSome_iff_exists.mp h
        obtain ⟨m', hlook, hv⟩ := entryAt_scrubbed_selected hm hsel hv
        rw [entryAt, hlook]
        exact ih (canonical_lookup hm hlook) (isSome_iff_exists.mpr ⟨v, hv⟩)

end

/-- **Scrubbing removes what is selected and nothing else.**  Along the selector
only an empty map is left, what the selector misses keeps its value, and nothing
appears. -/
theorem scrub_exact (folding : Folding) (okIfMissing : Bool) (key : List String)
    (hm : Canonical (.obj m)) :
    ∃ n, scrubMapInternal folding okIfMissing key m = .ok n ∧
      (∀ path v, Hits folding key path → entryAt path (.obj n) = some v → v = .obj []) ∧
      (∀ path v, Misses folding key path → entryAt path (.obj m) = some v →
        entryAt path (.obj n) = some v) ∧
      ∀ path, (entryAt path (.obj n)).isSome → (entryAt path (.obj m)).isSome :=
  ⟨scrubbed folding key m, scrubMapInternal_eq okIfMissing key m,
    fun _ _ => entryAt_of_hits hm, fun _ _ => entryAt_of_misses hm,
    fun _ => entryAt_isSome_of_scrubbed hm⟩

/-- The private key is removed, the peer ID stays. -/
theorem scrub_exact_identity :
    ∃ n, scrubMapInternal asciiFolding false privKeyPath
        [("Identity", .obj [("PeerID", .str "Qm"), ("PrivKey", .str "CAA")])] = .ok n ∧
      entryAt ["Identity", "PeerID"] (.obj n) = some (.str "Qm") := by
  have hlt : "PeerID" < "PrivKey" := by decide
  obtain ⟨n, hn, -, hkeeps, -⟩ := scrub_exact asciiFolding (m :=
    [("Identity", .obj [("PeerID", .str "Qm"), ("PrivKey", .str "CAA")])]) false privKeyPath
    (by simpa [CanonicalMembers, Canonical, Increasing] using hlt)
  exact ⟨n, hn, hkeeps _ _ ⟨("PrivKey", "PeerID"), by simp [privKeyPath], by decide +kernel⟩ rfl⟩

theorem scrubbed_comm (key key' : List String) (m : Members) :
    scrubbed folding key (scrubbed folding key' m) =
      scrubbed folding key' (scrubbed folding key m) := by
  induction key generalizing key' m with
  | nil => cases key' <;> rfl
  | cons p key ih =>
    cases key' with
    | nil => rfl
    | cons q key' =>
      simp only [scrubbed, List.filterMap_filterMap]
      congr
      funext ⟨k, v⟩
      cases hp : selects folding p k <;> cases hq : selects folding q k <;> cases v <;>
        simp [keptOf, leftOf, hp, hq, ih]

theorem scrubbed_scrubbed (key : List String) (m : Members) :
    scrubbed folding key (scrubbed folding key m) = scrubbed folding key m := by
  induction key generalizing m with
  | nil => rfl
  | cons p key ih =>
    simp only [scrubbed, List.filterMap_filterMap]
    congr
    funext ⟨k, v⟩
    cases hp : selects folding p k <;> cases v <;> simp [keptOf, leftOf, hp, ih]

/-- **Scrubbing again.**  The order in which selectors are scrubbed does not matter,
nor does how often. -/
theorem scrub_again (folding : Folding) (ok ok' : Bool) (key key' : List String) (m : Members) :
    (scrubMapInternal folding ok key m >>= scrubMapInternal folding ok' key') =
        (scrubMapInternal folding ok' key' m >>= scrubMapInternal folding ok key) ∧
      (scrubMapInternal folding ok key m >>= scrubMapInternal folding ok key) =
        scrubMapInternal folding ok key m := by
  simp [scrubMapInternal_eq, bind, Except.bind, scrubbed_comm key key', scrubbed_scrubbed]

/-- There is a value along the whole selector. -/
def Found (folding : Folding) (key : List String) (m : Members) : Prop :=
  ∃ path v, path.length = key.length ∧ ¬ Misses folding key path ∧ entryAt path (.obj m) = some v

/-- What the two scrubbers promise about errors. -/
def Reports (folding : Folding) (key : List String) (m : Members) : Prop :=
  ((∃ e, scrubValue folding m key = .error e) ↔ ¬ Found folding key m) ∧
    ∀ e, scrubOptionalValue folding m key ≠ .error e

/-- **No missing value is reported**: the errors are as promised exactly for the maps
in which the value is found. -/
theorem scrubValue_reports_iff (folding : Folding) (key : List String) (m : Members) :
    Reports folding key m ↔ Found folding key m := by
  simp [Reports, scrubValue, scrubOptionalValue, scrubMapInternal_eq]

/-- An empty config has no private key to scrub. -/
theorem scrubValue_missing_key :
    scrubValue asciiFolding [] privKeyPath = .ok [] ∧ ¬ Found asciiFolding privKeyPath [] := by
  refine ⟨rfl, ?_⟩
  rintro ⟨path, v, hlen, -, hv⟩
  cases path with
  | nil => cases hlen
  | cons k path => cases hv

end ConfigCommands
